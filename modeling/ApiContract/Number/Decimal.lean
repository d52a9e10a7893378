import ApiContract.Number.Double

namespace ApiContract

/-- The number `digits * 10 ^ exponent`. -/
structure Decimal where
  digits : Nat
  exponent : Int
  deriving DecidableEq

/-- Which of two decimals equally near to a number is written. -/
inductive Tie
  | even
  | up
  deriving DecidableEq

structure DecimalStyle where
  /-- the choice between two texts of the same length and the same distance -/
  tie : Tie
  /-- which orders of magnitude are written without an exponent -/
  positional : Int → Bool
  /-- what follows the digits of an integer -/
  wholeMark : String
  /-- what stands before an exponent that is not negative -/
  plus : String

namespace Decimal

def toDouble (negative : Bool) (x : Decimal) : Double :=
  Double.ofDecimal negative x.digits x.exponent

/-- The decimal of so many places nearest to `n / d`, if it or its neighbour on the other side of
`n / d` reads back as `x`. -/
def atPlaces (tie : Tie) (x : Double) (n d : Nat) (order : Int) (places : Nat) : Option Decimal :=
  let k := order - places + 1
  let num := n * power 10 (-k)
  let den := d * power 10 k
  let lower : Decimal := ⟨num / den, k⟩
  let upper : Decimal := ⟨num / den + 1, k⟩
  let twice := 2 * (num % den)
  let preferUpper := den < twice ∨ (twice = den ∧ (tie = .up ∨ num / den % 2 = 1))
  let (first, second) := if preferUpper then (upper, lower) else (lower, upper)
  if first.toDouble false = x then some first
  else if second.toDouble false = x then some second
  else none

/-- All digits of `m * 2 ^ q`. -/
def exact (m : Nat) (q : Int) : Decimal :=
  if 0 ≤ q then ⟨m * power 2 q, 0⟩ else ⟨m * power 5 (-q), q⟩

/-- The decimal of fewest places that reads back as `m * 2 ^ q`, and of those the nearest. -/
def shortest (tie : Tie) (m : Nat) (q : Int) : Decimal :=
  let n := m * power 2 q
  let d := power 2 (-q)
  let order := Double.order 10 Double.logTen n d
  ((List.range' 1 17).findSome? (atPlaces tie (Double.ofScaled false m q) n d order)).getD (exact m q)

/-- Lay out digits that end in no zero and stand behind a point shifted by `point` places. -/
def layout (style : DecimalStyle) (ds : List Char) (point : Int) : List Char :=
  let order := point - 1
  if style.positional order then
    if point ≤ 0 then '0' :: '.' :: List.replicate (-point).toNat '0' ++ ds
    else if ds.length ≤ point.toNat then
      ds ++ List.replicate (point.toNat - ds.length) '0' ++ style.wholeMark.toList
    else ds.take point.toNat ++ '.' :: ds.drop point.toNat
  else
    let fraction := if ds.length ≤ 1 then [] else '.' :: ds.drop 1
    let sign := if order < 0 then ['-'] else style.plus.toList
    ds.take 1 ++ fraction ++ 'e' :: sign ++ Nat.toDigits 10 order.natAbs

def text (style : DecimalStyle) (x : Decimal) : List Char :=
  let ds := Nat.toDigits 10 x.digits
  let kept := (ds.reverse.dropWhile (· == '0')).reverse
  layout style kept (ds.length + x.exponent)

end Decimal

namespace Double

def signText (negative : Bool) : List Char := if negative then ['-'] else []

def text (style : DecimalStyle) : Double → List Char
  | finite s m q _ =>
    signText s ++
      if m = 0 then '0' :: style.wholeMark.toList else (Decimal.shortest style.tie m q).text style
  | infinite s => signText s ++ "inf".toList
  | nan => "NaN".toList

/-- The double with so many places after the point, rounded from its exact value. -/
def fixed (places : Nat) : Double → List Char
  | finite s m q _ =>
    let n := nearestEven (m * power 2 q * power 10 places) (power 2 (-q))
    let ds := Nat.toDigits 10 n
    let padded := List.replicate (places + 1 - ds.length) '0' ++ ds
    let whole := padded.take (padded.length - places)
    signText s ++ if places = 0 then whole else whole ++ '.' :: padded.drop (padded.length - places)
  | infinite s => signText s ++ "inf".toList
  | nan => "NaN".toList

end Double

end ApiContract
