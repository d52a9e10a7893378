namespace ApiContract

/-- `base` to the power `k`, and one where `k` is negative: `power b k / power b (-k)` is the exact
power for every `k`. -/
def power (base : Nat) (k : Int) : Nat := Nat.pow base k.toNat

/-- Significand and exponent in their one form: 53 bits, or fewer at the least exponent. -/
def Double.Canonical (significand : Nat) (exponent : Int) : Prop :=
  significand < power 2 53 ∧ -1074 ≤ exponent ∧ exponent ≤ 971 ∧
    (power 2 52 ≤ significand ∨ exponent = -1074)

instance (m : Nat) (q : Int) : Decidable (Double.Canonical m q) :=
  inferInstanceAs (Decidable (_ ∧ _ ∧ _ ∧ (_ ∨ _)))

/-- A finite double is worth `significand * 2 ^ exponent`, with its sign. -/
inductive Double
  | finite (negative : Bool) (significand : Nat) (exponent : Int)
      (canonical : Double.Canonical significand exponent)
  | infinite (negative : Bool)
  | nan
  deriving DecidableEq

namespace Double

def zero (negative : Bool) : Double := finite negative 0 (-1074) (by decide)

def IsFinite : Double → Prop
  | finite .. => True
  | _ => False

instance : (x : Double) → Decidable x.IsFinite
  | finite .. => isTrue trivial
  | infinite _ | nan => isFalse id

/-- The integer nearest to a ratio, and of two the even one. -/
def nearestEven (n d : Nat) : Nat :=
  if 2 * (n % d) < d ∨ (2 * (n % d) = d ∧ n / d % 2 = 0) then n / d else n / d + 1

/-- The greatest `e` with `base ^ e` at most `n / d`, where `log` counts the digits after the
first one. -/
def order (base : Nat) (log : Nat → Nat) (n d : Nat) : Int :=
  let e : Int := log n - log d
  if d * power base e ≤ n * power base (-e) then e else e - 1

/-- Beyond the greatest exponent lies infinity. -/
def assemble (negative : Bool) (m : Nat) (q : Int) : Double :=
  if h : Canonical m q then finite negative m q h else infinite negative

def ofRatio (negative : Bool) (n d : Nat) : Double :=
  if n = 0 then zero negative
  else
    let q := max (order 2 Nat.log2 n d - 52) (-1074)
    let m := nearestEven (n * power 2 (-q)) (d * power 2 q)
    if m = power 2 53 then assemble negative (power 2 52) (q + 1) else assemble negative m q

def ofScaled (negative : Bool) (m : Nat) (q : Int) : Double :=
  ofRatio negative (m * power 2 q) (power 2 (-q))

def ofInt (n : Int) : Double := ofRatio (n < 0) n.natAbs 1

def logTen (n : Nat) : Nat := (Nat.toDigits 10 n).length - 1

/-- The double nearest to `digits * 10 ^ exponent`. Far outside the range the power is not formed. -/
def ofDecimal (negative : Bool) (digits : Nat) (exponent : Int) : Double :=
  if digits = 0 then zero negative
  else if 310 < logTen digits + exponent then infinite negative
  else if logTen digits + exponent < -330 then zero negative
  else ofRatio negative (digits * power 10 exponent) (power 10 (-exponent))

def toInt? : Double → Option Int
  | finite s m q _ =>
    if m % power 2 (-q) = 0 then
      let n : Int := (m * power 2 q / power 2 (-q) : Nat)
      some (if s then -n else n)
    else none
  | _ => none

/-- The word of 64 bits that stands for a double: sign, exponent, fraction. -/
def toBits (x : Double) : Nat :=
  let sign (s : Bool) := if s then power 2 63 else 0
  match x with
  | finite s m q _ =>
    sign s + if m < power 2 52 then m else (q + 1075).toNat * power 2 52 + (m - power 2 52)
  | infinite s => sign s + 2047 * power 2 52
  | nan => 2047 * power 2 52 + power 2 51

def ofBits (bits : Nat) : Double :=
  let s := bits / power 2 63 % 2 == 1
  let e := bits / power 2 52 % power 2 11
  let f := bits % power 2 52
  if e = 2047 then if f = 0 then infinite s else nan
  else if e = 0 then assemble s f (-1074)
  else assemble s (power 2 52 + f) ((e : Int) - 1075)

theorem isFinite_assemble {s : Bool} {m : Nat} {q : Int} (h : Canonical m q) :
    (assemble s m q).IsFinite := by
  simp [assemble, h, IsFinite]

end Double

end ApiContract
