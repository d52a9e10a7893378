import ApiContract.Expression.Evaluation

namespace ApiContract.Expression

namespace Cursor

/-- What a reader does from a place of the cursor: it may fail, which leaves the cursor where it has
got to, and it may never end. -/
abbrev Action (α : Type) := ExceptT Error (StateT Nat Option) α

section Runs

variable {α β : Type} {p stop : Nat}

theorem run_bind_ok {action : Action β} {next : β → Action α} {b : β}
    (h : action p = some (.ok b, stop)) : (action >>= next) p = next b stop := by
  change (action p).bind _ = _
  rw [h]
  rfl

theorem run_bind_error {action : Action β} {next : β → Action α} {e : Error}
    (h : action p = some (.error e, stop)) : (action >>= next) p = some (.error e, stop) := by
  change (action p).bind _ = _
  rw [h]
  rfl

end Runs

section Steps

variable (ts : List Lexeme)

def peek : Action (Option Lexeme) := fun p => some (.ok ts[p]?, p)

def lookahead : Action (Option Lexeme) := fun p => some (.ok ts[p + 1]?, p)

/-- The cursor is moved whether there is a lexeme or not. -/
def next : Action (Option Lexeme) := fun p => some (.ok ts[p]?, p + 1)

def skip : Action Unit := fun p => some (.ok (), p + 1)

def settle {α : Type} (found : Except Error α) : Action α := fun p => some (found, p)

def isSymbol (c : Char) : Action Bool := do return (← peek ts) == some (.symbol c)

def expect (c : Char) : Action Unit := do
  match ← next ts with
  | some found =>
    if found = .symbol c then return () else settle (.error (.expectedSymbol c (some found)))
  | none => settle (.error (.expectedSymbol c none))

def property : Action String := do
  match ← next ts with
  | some (.name name) => return name
  | found => settle (.error (.expectedProperty found))

end Steps

structure Readers where
  extend : String → Action String
  expression : Action Value
  sum : Action Value
  sumLoop : Value → Action Value
  product : Action Value
  productLoop : Value → Action Value
  signed : Action Value
  access : Action Value
  accessLoop : Value → Action Value
  arguments : Action (List Value)
  argumentLoop : List Value → Action (List Value)
  primary : Action Value
  named : String → Action Value
  items : List Value → Action Value
  fields : Fields Value → Action Value

section Calls

variable (context : Context) (ts : List Lexeme) (r : Readers)

def extend (name : String) : Action String := do
  if (context.get? name).isNone && context.isNamespace name && (← isSymbol ts '.') then
    match ← lookahead ts with
    | some (.name part) =>
      skip
      skip
      r.extend (name ++ "." ++ part)
    | _ => return name
  else return name

def expression : Action Value := r.sum

def sum : Action Value := do r.sumLoop (← r.product)

def sumLoop (left : Value) : Action Value := do
  match (← peek ts).bind sumOperator? with
  | some operator =>
    skip
    let right ← r.product
    r.sumLoop (← settle (operate (combine operator left right)))
  | none => return left

def product : Action Value := do r.productLoop (← r.signed)

def productLoop (left : Value) : Action Value := do
  match (← peek ts).bind productOperator? with
  | some operator =>
    skip
    let right ← r.signed
    r.productLoop (← settle (operate (arithmetic operator left right)))
  | none => return left

def signed : Action Value := do
  if ← isSymbol ts '-' then
    skip
    settle (operate (negate (← r.signed)))
  else if ← isSymbol ts '!' then
    skip
    return .bool (!(← r.signed).isTruthy)
  else r.access

def access : Action Value := do r.accessLoop (← r.primary)

def accessLoop (value : Value) : Action Value := do
  if ← isSymbol ts '.' then
    skip
    let name ← property ts
    if ← isSymbol ts '(' then
      let args ← r.arguments
      r.accessLoop (← settle (operate (callMethod value name args)))
    else r.accessLoop (← settle (operate (member value name)))
  else if ← isSymbol ts '[' then
    skip
    let index ← r.expression
    expect ts ']'
    r.accessLoop (← settle (operate (element value index)))
  else return value

def arguments : Action (List Value) := do
  expect ts '('
  if ← isSymbol ts ')' then
    skip
    return []
  else r.argumentLoop []

def argumentLoop (args : List Value) : Action (List Value) := do
  let arg ← r.expression
  if ← isSymbol ts ',' then
    skip
    r.argumentLoop (args ++ [arg])
  else
    expect ts ')'
    return args ++ [arg]

def primary : Action Value := do
  match ← next ts with
  | some (.number x) => settle (operate (finite x))
  | some (.text s) => return .string s
  | some (.name name) => r.named name
  | some (.symbol '(') =>
    let value ← r.expression
    expect ts ')'
    return value
  | some (.symbol '[') => r.items []
  | some (.symbol '\x7b') => r.fields []
  | some found => settle (.error (.unexpected found))
  | none => settle (.error .unexpectedEnd)

/-- The cursor stands behind the name already. -/
def named (name : String) : Action Value := do
  match constant? name with
  | some value => return value
  | none =>
    let full ← r.extend name
    match context.resolve? full with
    | some (.value value) => return value
    | some (.helper helper) =>
      if ← isSymbol ts '(' then
        let args ← r.arguments
        settle ((helper args).mapError (.helper full))
      else settle (.error (.mustBeCalled full))
    | none => settle (.error (.notDefined full))

def items (found : List Value) : Action Value := do
  if ← isSymbol ts ']' then
    skip
    return .array found
  else
    let item ← r.expression
    if ← isSymbol ts ',' then
      skip
      r.items (found ++ [item])
    else
      expect ts ']'
      return .array (found ++ [item])

def fields (found : Fields Value) : Action Value := do
  let t ← next ts
  if t = some (.symbol '\x7d') then return .object found
  else
    match t.bind key? with
    | none => settle (.error (.expectedKey t))
    | some key =>
      expect ts ':'
      let value ← r.expression
      let found := Fields.set key value found
      if ← isSymbol ts ',' then
        skip
        r.fields found
      else
        expect ts '\x7d'
        return .object found

def whole : Action Value := do
  let value ← r.expression
  match ← peek ts with
  | none => return value
  | some found => settle (.error (.unexpected found))

end Calls

def silent {α : Type} : Action α := fun _ => none

def endless : Readers where
  extend _ := silent
  expression := silent
  sum := silent
  sumLoop _ := silent
  product := silent
  productLoop _ := silent
  signed := silent
  access := silent
  accessLoop _ := silent
  arguments := silent
  argumentLoop _ := silent
  primary := silent
  named _ := silent
  items _ := silent
  fields _ := silent

def calling (context : Context) (ts : List Lexeme) (r : Readers) : Readers where
  extend := extend context ts r
  expression := expression r
  sum := sum r
  sumLoop := sumLoop ts r
  product := product r
  productLoop := productLoop ts r
  signed := signed ts r
  access := access r
  accessLoop := accessLoop ts r
  arguments := arguments ts r
  argumentLoop := argumentLoop ts r
  primary := primary ts r
  named := named context ts r
  items := items ts r
  fields := fields ts r

/-- The readers with no more than so many calls inside of each other. -/
def within (context : Context) (ts : List Lexeme) : Nat → Readers
  | 0 => endless
  | calls + 1 => calling context ts (within context ts calls)

end Cursor

end ApiContract.Expression
