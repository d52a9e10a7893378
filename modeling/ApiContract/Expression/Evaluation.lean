import ApiContract.Context
import ApiContract.Expression.Operation

namespace ApiContract.Expression

inductive Error
  | lexical (error : LexicalError)
  | operation (error : OperationError)
  | unexpected (found : Lexeme)
  | unexpectedEnd
  | expectedSymbol (symbol : Char) (found : Option Lexeme)
  | expectedProperty (found : Option Lexeme)
  | expectedKey (found : Option Lexeme)
  | mustBeCalled (name : String)
  | notDefined (name : String)
  | helper (name message : String)
  deriving DecidableEq

def Error.message : Error → String
  | lexical error => error.message
  | operation error => error.message
  | unexpected found => "Unexpected " ++ found.shown
  | unexpectedEnd => "Unexpected end of expression"
  | expectedSymbol c (some found) =>
    "Expected " ++ (Lexeme.symbol c).shown ++ " but found " ++ found.shown
  | expectedSymbol c none => "Expected " ++ (Lexeme.symbol c).shown ++ " but the expression ended"
  | expectedProperty (some found) => "Expected a property name but found " ++ found.shown
  | expectedProperty none => "Expected a property name"
  | expectedKey (some found) => "Expected a key but found " ++ found.shown
  | expectedKey none => "Expected a key"
  | mustBeCalled name => name ++ " is a function and must be called"
  | notDefined name => name ++ " is not defined"
  | helper name message => name ++ "(): " ++ message

abbrev Read (α : Type) (bound : Nat) := Except Error (Reading Lexeme α bound)

def operate (result : Result) : Except Error Value := result.mapError .operation

def sumOperator? : Lexeme → Option Operator
  | .symbol '+' => some .add
  | .symbol '-' => some .sub
  | _ => none

def productOperator? : Lexeme → Option Operator
  | .symbol '*' => some .mul
  | .symbol '/' => some .div
  | .symbol '%' => some .rem
  | _ => none

def symbol? (c : Char) : (ts : List Lexeme) → Option (Reading Lexeme Unit ts.length)
  | t :: rest => if t = .symbol c then some (.leaving () rest) else none
  | [] => none

def expect (c : Char) (ts : List Lexeme) : Read Unit ts.length :=
  match symbol? c ts with
  | some r => .ok r
  | none => .error (.expectedSymbol c ts.head?)

/-- A name goes on behind a dot as long as it is a namespace and no value. -/
def extendName (context : Context) (name : String) :
    (ts : List Lexeme) → Reading Lexeme String (ts.length + 1)
  | .symbol '.' :: .name part :: rest =>
    if (context.get? name).isNone && context.isNamespace name then
      (extendName context (name ++ "." ++ part) rest).behind 2
    else .leaving name (.symbol '.' :: .name part :: rest)
  | ts => .leaving name ts

def constant? (name : String) : Option Value :=
  match name with
  | "true" => some (.bool true)
  | "false" => some (.bool false)
  | "null" | "undefined" => some .null
  | _ => none

def key? : Lexeme → Option String
  | .name s | .text s => some s
  | _ => none

mutual

def sum (context : Context) (ts : List Lexeme) : Read Value ts.length := do
  let left ← product context ts
  let whole ← sumTail context left.value left.rest
  .ok (left.extend whole)
termination_by (ts.length, 5)
decreasing_by
  · exact Prod.Lex.right _ (by decide)
  · exact Prod.Lex.left _ _ left.within

/-- The summands behind the first ones, whose sum so far is `left`. -/
def sumTail (context : Context) (left : Value) (ts : List Lexeme) : Read Value (ts.length + 1) :=
  match ts with
  | t :: rest =>
    match sumOperator? t with
    | some operator => do
      let right ← product context rest
      let value ← operate (combine operator left right.value)
      let whole ← sumTail context value right.rest
      .ok ((right.extend whole).behind 2)
    | none => .ok (.leaving left (t :: rest))
  | [] => .ok (.leaving left [])
termination_by (ts.length, 4)
decreasing_by
  · exact Prod.Lex.left _ _ (Nat.lt_succ_self _)
  · exact Prod.Lex.left _ _ (Nat.lt_succ_of_lt right.within)

def product (context : Context) (ts : List Lexeme) : Read Value ts.length := do
  let left ← signed context ts
  let whole ← productTail context left.value left.rest
  .ok (left.extend whole)
termination_by (ts.length, 3)
decreasing_by
  · exact Prod.Lex.right _ (by decide)
  · exact Prod.Lex.left _ _ left.within

def productTail (context : Context) (left : Value) (ts : List Lexeme) :
    Read Value (ts.length + 1) :=
  match ts with
  | t :: rest =>
    match productOperator? t with
    | some operator => do
      let right ← signed context rest
      let value ← operate (arithmetic operator left right.value)
      let whole ← productTail context value right.rest
      .ok ((right.extend whole).behind 2)
    | none => .ok (.leaving left (t :: rest))
  | [] => .ok (.leaving left [])
termination_by (ts.length, 4)
decreasing_by
  · exact Prod.Lex.left _ _ (Nat.lt_succ_self _)
  · exact Prod.Lex.left _ _ (Nat.lt_succ_of_lt right.within)

/-- Signs apply from the inside out. -/
def signed (context : Context) (ts : List Lexeme) : Read Value ts.length :=
  match ts with
  | .symbol '-' :: rest => do
    let inner ← signed context rest
    let value ← operate (negate inner.value)
    .ok ((inner.map fun _ => value).behind 1)
  | .symbol '!' :: rest => do
    let inner ← signed context rest
    .ok ((inner.map fun value => .bool (!value.isTruthy)).behind 1)
  | ts => do
    let first ← primary context ts
    let whole ← accesses context first.value first.rest
    .ok (first.extend whole)
termination_by (ts.length, 2)
decreasing_by
  · exact Prod.Lex.left _ _ (Nat.lt_succ_self _)
  · exact Prod.Lex.left _ _ (Nat.lt_succ_self _)
  · exact Prod.Lex.right _ (by decide)
  · exact Prod.Lex.left _ _ first.within

def accesses (context : Context) (value : Value) (ts : List Lexeme) : Read Value (ts.length + 1) :=
  match ts with
  | .symbol '.' :: .name name :: rest =>
    if (symbol? '(' rest).isSome then do
      let args ← arguments context rest
      let result ← operate (callMethod value name args.value)
      let whole ← accesses context result args.rest
      .ok ((args.extend whole).behind 3)
    else do
      let result ← operate (member value name)
      let whole ← accesses context result rest
      .ok (whole.behind 2)
  | .symbol '.' :: found :: _ => .error (.expectedProperty (some found))
  | [.symbol '.'] => .error (.expectedProperty none)
  | .symbol '[' :: rest => do
    let index ← sum context rest
    let close ← expect ']' index.rest
    let result ← operate (element value index.value)
    let whole ← accesses context result close.rest
    .ok ((index.before (close.extend whole)).behind 2)
  | ts => .ok (.leaving value ts)
termination_by (ts.length, 4)
decreasing_by
  · exact Prod.Lex.left _ _ (Nat.lt_succ_of_lt (Nat.lt_succ_self _))
  · exact Prod.Lex.left _ _ (Nat.lt_add_right 2 args.within)
  · exact Prod.Lex.left _ _ (Nat.lt_succ_of_lt (Nat.lt_succ_self _))
  · exact Prod.Lex.left _ _ (Nat.lt_succ_self _)
  · exact Prod.Lex.left _ _ (Nat.lt_succ_of_lt (Nat.lt_trans close.within index.within))

def arguments (context : Context) (ts : List Lexeme) : Read (List Value) ts.length := do
  let opened ← expect '(' ts
  match symbol? ')' opened.rest with
  | some close => .ok (opened.before (close.map fun _ => []))
  | none => do
    let args ← argumentTail context opened.rest
    .ok (opened.before args)
termination_by (ts.length, 6)
decreasing_by exact Prod.Lex.left _ _ opened.within

def argumentTail (context : Context) (ts : List Lexeme) : Read (List Value) ts.length := do
  let first ← sum context ts
  match symbol? ',' first.rest with
  | some comma => do
    let more ← argumentTail context comma.rest
    .ok (first.before (comma.before (more.map (first.value :: ·))))
  | none => do
    let close ← expect ')' first.rest
    .ok (first.before (close.map fun _ => [first.value]))
termination_by (ts.length, 6)
decreasing_by
  · exact Prod.Lex.right _ (by decide)
  · exact Prod.Lex.left _ _ (Nat.lt_trans comma.within first.within)

def primary (context : Context) (ts : List Lexeme) : Read Value ts.length :=
  match ts with
  | .number x :: rest => do .ok (.leaving (← operate (finite x)) rest)
  | .text s :: rest => .ok (.leaving (.string s) rest)
  | .name name :: rest =>
    match constant? name with
    | some value => .ok (.leaving value rest)
    | none => named context name rest
  | .symbol '(' :: rest => do
    let inner ← sum context rest
    let close ← expect ')' inner.rest
    .ok ((inner.before (close.map fun _ => inner.value)).behind 1)
  | .symbol '[' :: rest => do
    let items ← itemTail context rest
    .ok ((items.map .array).behind 1)
  | .symbol '\x7b' :: rest => do
    let fields ← fieldTail context [] rest
    .ok ((fields.map .object).behind 1)
  | found :: _ => .error (.unexpected found)
  | [] => .error .unexpectedEnd
termination_by (ts.length, 1)
decreasing_by
  · exact Prod.Lex.left _ _ (Nat.lt_succ_self _)
  · exact Prod.Lex.left _ _ (Nat.lt_succ_self _)
  · exact Prod.Lex.left _ _ (Nat.lt_succ_self _)
  · exact Prod.Lex.left _ _ (Nat.lt_succ_self _)

def named (context : Context) (name : String) (ts : List Lexeme) : Read Value (ts.length + 1) :=
  let full := extendName context name ts
  match context.resolve? full.value with
  | some (.value value) => .ok (full.map fun _ => value)
  | some (.helper helper) =>
    if (symbol? '(' full.rest).isSome then do
      let args ← arguments context full.rest
      match helper args.value with
      | .ok value => .ok (full.before (args.map fun _ => value))
      | .error message => .error (.helper full.value message)
    else .error (.mustBeCalled full.value)
  | none => .error (.notDefined full.value)
termination_by (ts.length, 7)
decreasing_by
  rcases Nat.lt_or_eq_of_le (Nat.le_of_lt_succ full.within) with h | h
  · exact Prod.Lex.left _ _ h
  · rw [h]
    exact Prod.Lex.right _ (by decide)

/-- Items up to the closing bracket, with a comma between them and perhaps one behind the last. -/
def itemTail (context : Context) (ts : List Lexeme) : Read (List Value) ts.length :=
  match symbol? ']' ts with
  | some close => .ok (close.map fun _ => [])
  | none => do
    let first ← sum context ts
    match symbol? ',' first.rest with
    | some comma => do
      let more ← itemTail context comma.rest
      .ok (first.before (comma.before (more.map (first.value :: ·))))
    | none => do
      let close ← expect ']' first.rest
      .ok (first.before (close.map fun _ => [first.value]))
termination_by (ts.length, 6)
decreasing_by
  · exact Prod.Lex.right _ (by decide)
  · exact Prod.Lex.left _ _ (Nat.lt_trans comma.within first.within)

def fieldTail (context : Context) (fields : Fields Value) (ts : List Lexeme) :
    Read (Fields Value) ts.length :=
  match ts with
  | .symbol '\x7d' :: rest => .ok (.leaving fields rest)
  | t :: rest =>
    match key? t with
    | none => .error (.expectedKey (some t))
    | some key => do
      let colon ← expect ':' rest
      let value ← sum context colon.rest
      let fields := Fields.set key value.value fields
      match symbol? ',' value.rest with
      | some comma => do
        let more ← fieldTail context fields comma.rest
        .ok ((colon.before (value.before (comma.before more))).behind 1)
      | none => do
        let close ← expect '\x7d' value.rest
        .ok ((colon.before (value.before (close.map fun _ => fields))).behind 1)
  | [] => .error (.expectedKey none)
termination_by (ts.length, 6)
decreasing_by
  · exact Prod.Lex.left _ _ (Nat.lt_succ_of_lt colon.within)
  · exact Prod.Lex.left _ _
      (Nat.lt_succ_of_lt (Nat.lt_trans comma.within (Nat.lt_trans value.within colon.within)))

end

/-- All lexemes as one expression, evaluated while they are read. Sums are made of products, products
of signed terms, and terms of a primary with members, elements and calls behind it. -/
def ofLexemes (context : Context) (ts : List Lexeme) : Except Error Value := do
  let whole ← sum context ts
  match whole.rest with
  | [] => .ok whole.value
  | found :: _ => .error (.unexpected found)

def evaluate (source : String) (context : Context) : Except Error Value :=
  match Lexeme.ofChars source.toList with
  | .error error => .error (.lexical error)
  | .ok ts => ofLexemes context ts

end ApiContract.Expression
