import ApiContract.Value

namespace ApiContract

/-- A function that expressions can call; it may refuse its arguments with a message. -/
abbrev Helper := List Value → Except String Value

structure Base where
  values : Fields Value
  helpers : Fields Helper

namespace Base

def empty : Base := ⟨[], []⟩

def withValue (name : String) (value : Value) (base : Base) : Base :=
  { base with values := Fields.set name value base.values }

/-- A dotted name makes what stands before each dot a namespace. -/
def withHelper (name : String) (helper : Helper) (base : Base) : Base :=
  { base with helpers := Fields.set name helper base.helpers }

end Base

/-- The variables of a running document, in front of the values and helpers that all documents
share. -/
structure Context where
  locals : Fields Value
  base : Base

inductive Binding
  | value (value : Value)
  | helper (helper : Helper)

namespace Context

def ofBase (base : Base) : Context := ⟨[], base⟩

def set (name : String) (value : Value) (context : Context) : Context :=
  { context with locals := Fields.set name value context.locals }

def remove (name : String) (context : Context) : Context :=
  { context with locals := Fields.erase name context.locals }

def local? (name : String) (context : Context) : Option Value := Fields.get? name context.locals

/-- A variable hides the shared value of the same name. -/
def get? (name : String) (context : Context) : Option Value :=
  (context.local? name).or (Fields.get? name context.base.values)

/-- A value hides the helper of the same name. -/
def resolve? (name : String) (context : Context) : Option Binding :=
  match context.get? name with
  | some value => some (.value value)
  | none => (Fields.get? name context.base.helpers).map .helper

def isNamespace (name : String) (context : Context) : Bool :=
  context.base.helpers.keys.any fun helper =>
    helper.toList.take (name.length + 1) == name.toList ++ ['.']

end Context

end ApiContract
