import ApiContract.Number.Arithmetic
import ApiContract.Number.Decimal
import ApiContract.Number.Literal

namespace ApiContract

/-- The integers that are kept exactly: 64 bits, with or without a sign. -/
def Number.Whole (n : Int) : Prop := -(power 2 63 : Int) ≤ n ∧ n < power 2 64

instance (n : Int) : Decidable (Number.Whole n) := inferInstanceAs (Decidable (_ ∧ _))

inductive Number
  | integer (value : Int) (whole : Number.Whole value)
  | float (value : Double) (finite : value.IsFinite)
  deriving DecidableEq

namespace Number

/-- Positional from five places behind the point to sixteen before it, with a point in every float. -/
def style : DecimalStyle where
  tie := .even
  positional order := -5 ≤ order && order < 16
  wholeMark := ".0"
  plus := "+"

/-- Always positional, with a point only before a fraction. -/
def plainStyle : DecimalStyle where
  tie := .up
  positional _ := true
  wholeMark := ""
  plus := ""

def float? (x : Double) : Option Number :=
  if h : x.IsFinite then some (float x h) else none

/-- Integers out of range become floats, as long as those are finite. -/
def ofInt? (n : Int) : Option Number :=
  if h : Whole n then some (integer n h) else float? (Double.ofInt n)

/-- The number of a result: an integer where the double is one that it represents exactly. -/
def ofDouble? (x : Double) : Option Number :=
  match x.toInt? with
  | some n => if n.natAbs < power 2 53 then ofInt? n else float? x
  | none => float? x

def ofNat? (n : Nat) : Option Number := ofInt? n

def toDouble : Number → Double
  | integer n _ => Double.ofInt n
  | float x _ => x

def sameValue (x y : Number) : Bool := x.toDouble.same y.toDouble

/-- Equality of numbers as data: an integer is no float. -/
def same : Number → Number → Bool
  | integer m _, integer n _ => m == n
  | float x _, float y _ => x.same y
  | _, _ => false

def chars : Number → List Char
  | integer n _ => Double.signText (n < 0) ++ Nat.toDigits 10 n.natAbs
  | float x _ => x.text style

def text (x : Number) : String := String.ofList x.chars

/-- A numeral without point and exponent is an integer, apart from a negative zero. -/
def ofNumeral? (negative : Bool) (x : Numeral) : Option Number :=
  match x.fraction, x.exponent with
  | [], none =>
    let n := Numeral.digitsValue x.whole
    if negative then if n = 0 then float? (Double.zero true) else ofInt? (-n) else ofInt? n
  | _, _ => float? (x.toDouble negative)

end Number

end ApiContract
