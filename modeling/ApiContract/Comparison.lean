import ApiContract.Kind
import ApiContract.Path
import ApiContract.Text.Quoted
import ApiContract.Value

namespace ApiContract

inductive Conflict
  | notInstance (kind : Kind) (found : Value)
  | notArray (found : Value)
  | wrongLength (expected found : Nat)
  | tooShort (expected found : Nat)
  | notObject (found : Value)
  | unequal (expected found : Value)
  | missingKey (key : String)
  | unexpectedKey (key : String)
  | unmatched (index : Nat)

/-- A value in a few words: scalars by their text, all else by the name of its type. -/
def Value.described : Value → String
  | null => "null"
  | bool b => if b then "true" else "false"
  | number n => n.text
  | string s => Text.shown s
  | id s => Text.shown s
  | type kind => "type " ++ kind.name
  | value => value.typeName

def Conflict.message : Conflict → String
  | notInstance kind found =>
    "Expected an instance of " ++ kind.name ++ " but found " ++ found.described
  | notArray found => "Expected an array but found " ++ found.described
  | wrongLength expected found =>
    "Expected an array with " ++ toString expected ++ " elements but found " ++ toString found
  | tooShort expected found =>
    "Expected an array with at least " ++ toString expected ++ " elements but found "
      ++ toString found
  | notObject found => "Expected an object but found " ++ found.described
  | unequal expected found => "Expected " ++ expected.described ++ " but found " ++ found.described
  | missingKey key => "Missing key \"" ++ key ++ "\""
  | unexpectedKey key => "Unexpected key \"" ++ key ++ "\""
  | unmatched index =>
    "Unordered array mismatch: nothing matched the expected element " ++ toString index

/-- A conflict and the path to it, which is empty at the root. -/
structure Mismatch where
  path : String
  conflict : Conflict

namespace Mismatch

def message (mismatch : Mismatch) : String := mismatch.conflict.message

def described (mismatch : Mismatch) : String :=
  if mismatch.path.isEmpty then mismatch.message
  else mismatch.message ++ " (at " ++ mismatch.path ++ ")"

end Mismatch

/-- Strict comparison refuses keys and items that are not expected, apart from some ignored keys at
the root. -/
structure Strictness where
  strict : Bool
  ignored : List String

namespace Comparison

abbrev Outcome := Except Mismatch Unit

def fail (path : String) (conflict : Conflict) : Outcome := .error ⟨path, conflict⟩

/-- Numbers are equal by value, other scalars as they are. -/
def sameScalar : Value → Value → Bool
  | .number a, .number b => a.sameValue b
  | .null, .null => true
  | .bool a, .bool b => a == b
  | .string a, .string b => a == b
  | _, _ => false

def compareScalar (actual expected : Value) (path : String) : Outcome :=
  if sameScalar actual.normal expected then .ok ()
  else fail path (.unequal expected actual.normal)

def compareKind (actual : Value) (kind : Kind) (path : String) : Outcome :=
  if kind.accepts actual.normal then .ok () else fail path (.notInstance kind actual.normal)

/-- The items of a received array that is long enough, or in strict comparison just as long. -/
def itemsFor (s : Strictness) (actual : Value) (expected : Nat) (path : String) :
    Except Mismatch (List Value) :=
  match actual with
  | .array found | .ordered found =>
    if s.strict && found.length != expected then
      .error ⟨path, .wrongLength expected found.length⟩
    else if found.length < expected then .error ⟨path, .tooShort expected found.length⟩
    else .ok found
  | other => .error ⟨path, .notArray other.normal⟩

def surplusKey? (s : Strictness) (found expected : Fields Value) (path : String) : Option String :=
  if s.strict then
    found.keys.find? fun key =>
      !(Fields.has key expected || (path.isEmpty && s.ignored.contains key))
  else none

variable (s : Strictness)

mutual

def compareAt (path : String) (actual expected : Value) : Outcome :=
  match expected with
  | .type kind => compareKind actual kind path
  | .array items => do
    let found ← itemsFor s actual items.length path
    claim path 0 found.zipIdx items
  | .ordered items => do
    let found ← itemsFor s actual items.length path
    compareItems path 0 found items
  | .object fields =>
    match actual with
    | .object found => do
      compareFields path found fields
      match surplusKey? s found fields path with
      | some key => fail (joinedPath path key) (.unexpectedKey key)
      | none => .ok ()
    | other => fail path (.notObject other.normal)
  | .id text => compareScalar actual (.string text) path
  | .null => compareScalar actual .null path
  | .bool b => compareScalar actual (.bool b) path
  | .number n => compareScalar actual (.number n) path
  | .string text => compareScalar actual (.string text) path

/-- Every item claims the first candidate that matches it. Candidates come with their index. -/
def claim (path : String) (index : Nat) (candidates : List (Value × Nat)) : List Value → Outcome
  | [] => .ok ()
  | item :: items =>
    match candidates.findIdx? fun c => (compareAt (joinedPath path (toString c.2)) c.1 item).isOk with
    | some i => claim path (index + 1) (candidates.eraseIdx i) items
    | none => fail (joinedPath path (toString index)) (.unmatched index)

def compareItems (path : String) (index : Nat) : List Value → List Value → Outcome
  | actual :: found, expected :: items => do
    compareAt (joinedPath path (toString index)) actual expected
    compareItems path (index + 1) found items
  | _, _ => .ok ()

def compareFields (path : String) (found : Fields Value) : List (String × Value) → Outcome
  | [] => .ok ()
  | (key, expected) :: fields =>
    match Fields.get? key found with
    | some actual => do
      compareAt (joinedPath path key) actual expected
      compareFields path found fields
    | none => fail (joinedPath path key) (.missingKey key)

end

end Comparison

/-- Whether a received value is one that is expected, or where the two differ first. -/
def compareValues (s : Strictness) (actual expected : Value) : Except Mismatch Unit :=
  Comparison.compareAt s "" actual expected

end ApiContract
