import ApiContract.Number.Double

namespace ApiContract

structure Numeral where
  whole : List Char
  fraction : List Char
  exponent : Option Int

namespace Numeral

def digitsValue (ds : List Char) : Nat := Nat.ofDigitChars 10 ds 0

def toDouble (negative : Bool) (x : Numeral) : Double :=
  Double.ofDecimal negative (digitsValue (x.whole ++ x.fraction))
    (x.exponent.getD 0 - x.fraction.length)

def takeDigits (s : List Char) : List Char × List Char := s.span Char.isDigit

def takeSign : List Char → Bool × List Char
  | '-' :: s => (true, s)
  | '+' :: s => (false, s)
  | s => (false, s)

/-- The exponent of a numeral, which needs a digit once its letter is there. -/
def takeExponent : List Char → Option (Option Int × List Char)
  | c :: s =>
    if c = 'e' ∨ c = 'E' then
      let (negative, s) := takeSign s
      match takeDigits s with
      | ([], _) => none
      | (ds, rest) => some (some (if negative then -digitsValue ds else digitsValue ds), rest)
    else some (none, c :: s)
  | [] => some (none, [])

def takeFraction : List Char → List Char × List Char
  | '.' :: s => takeDigits s
  | s => ([], s)

/-- The whole text as a numeral without its sign: a digit on either side of the point is enough. -/
def ofChars? (s : List Char) : Option Numeral :=
  let (whole, s) := takeDigits s
  let (fraction, s) := takeFraction s
  if whole.isEmpty && fraction.isEmpty then none
  else match takeExponent s with
    | some (exponent, []) => some ⟨whole, fraction, exponent⟩
    | _ => none

end Numeral

def Double.ofName? (negative : Bool) (s : List Char) : Option Double :=
  let name := String.ofList (s.map Char.toLower)
  if name = "inf" ∨ name = "infinity" then some (.infinite negative)
  else if name = "nan" then some .nan
  else none

def Double.ofChars? (s : List Char) : Option Double :=
  let (negative, s) := Numeral.takeSign s
  match Numeral.ofChars? s with
  | some n => some (n.toDouble negative)
  | none => ofName? negative s

end ApiContract
