import ApiContract.Expression.Lexeme
import ApiContract.Text.Case
import ApiContract.Value

namespace ApiContract.Expression

inductive Operator
  | add | sub | mul | div | rem
  deriving DecidableEq

namespace Operator

def symbol : Operator → String
  | add => "+"
  | sub => "-"
  | mul => "*"
  | div => "/"
  | rem => "%"

def isDivision : Operator → Bool
  | div | rem => true
  | _ => false

def apply : Operator → Double → Double → Double
  | add => Double.add
  | sub => Double.sub
  | mul => Double.mul
  | div => Double.div
  | rem => Double.rem

end Operator

/-- Why an operation has no result; values appear as the names of their types. -/
inductive OperationError
  | cannotApply (operator : Operator) (left right : String)
  | divisionByZero
  | notFinite
  | cannotNegate (type : String)
  | propertyOfNull (name : String)
  | invalidIndex (text : String)
  | noMethod (type name : String)
  | invalidPlaces
  deriving DecidableEq

def OperationError.message : OperationError → String
  | cannotApply operator left right =>
    "Cannot apply '" ++ operator.symbol ++ "' to " ++ left ++ " and " ++ right
  | divisionByZero => "Division by zero"
  | notFinite => "Result is not a finite number"
  | cannotNegate type => "Cannot negate " ++ type
  | propertyOfNull name => "Cannot read property \"" ++ name ++ "\" of null"
  | invalidIndex text => "Invalid index " ++ text
  | noMethod type name => type ++ " has no method " ++ name ++ "()"
  | invalidPlaces => "toFixed() expects a number of digits"

abbrev Result := Except OperationError Value

def finite (x : Double) : Result :=
  match Value.ofDouble? x with
  | some value => .ok value
  | none => .error .notFinite

def arithmetic (operator : Operator) (left right : Value) : Result :=
  match left.toDouble?, right.toDouble? with
  | some a, some b =>
    if operator.isDivision && b.isZero then .error .divisionByZero else finite (operator.apply a b)
  | _, _ => .error (.cannotApply operator left.typeName right.typeName)

def isTextual : Value → Bool
  | .string _ | .id _ => true
  | _ => false

/-- A text on either side joins the texts of both. -/
def combine (operator : Operator) (left right : Value) : Result :=
  if operator = .add ∧ (isTextual left ∨ isTextual right) then .ok (.string (left.text ++ right.text))
  else arithmetic operator left right

def negate (value : Value) : Result :=
  match value.toDouble? with
  | some x => finite x.neg
  | none => .error (.cannotNegate value.typeName)

/-- Objects have their members, arrays and texts a length, and null has nothing. -/
def member (value : Value) (name : String) : Result :=
  match value with
  | .object fields => .ok ((Fields.get? name fields).getD .null)
  | .array items | .ordered items =>
    .ok (if name = "length" then Value.ofNat items.length else .null)
  | .string s | .id s => .ok (if name = "length" then Value.ofNat s.length else .null)
  | .null => .error (.propertyOfNull name)
  | _ => .ok .null

def itemAt (items : List Value) (index : Value) : Result :=
  match index.toDouble?.bind Double.toInt? with
  | some (.ofNat i) => .ok ((items[i]?).getD .null)
  | _ => .error (.invalidIndex index.text)

def element (value index : Value) : Result :=
  match value, index with
  | .array items, .number _ | .ordered items, .number _ => itemAt items index
  | value, index => member value index.text

def places : List Value → Except OperationError Nat
  | [] => .ok 0
  | arg :: _ =>
    match arg.toDouble? with
    | some x =>
      if (Double.zero false).le x && x.le (Double.ofInt 100) then .ok x.floor else .error .invalidPlaces
    | none => .error .invalidPlaces

def onText (f : List Char → List Char) (s : String) : Value := .string (String.ofList (f s.toList))

def callMethod (value : Value) (name : String) (args : List Value) : Result :=
  match value, name with
  | .number n, "toFixed" => do .ok (.string (String.ofList (n.toDouble.fixed (← places args))))
  | value, "toString" => .ok (.string value.text)
  | .string s, "toUpperCase" => .ok (onText Text.toUpper s)
  | .string s, "toLowerCase" => .ok (onText Text.toLower s)
  | .string s, "trim" => .ok (onText Text.trim s)
  | value, name => .error (.noMethod value.typeName name)

end ApiContract.Expression
