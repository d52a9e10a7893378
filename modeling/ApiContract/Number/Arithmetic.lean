import ApiContract.Number.Double

namespace ApiContract.Double

def signed (negative : Bool) (n : Nat) : Int := if negative then -n else n

/-- Two finite doubles over the same power of two. -/
def aligned (m : Nat) (q : Int) (n : Nat) (r : Int) : Nat × Nat × Int :=
  let e := min q r
  (m * power 2 (q - e), n * power 2 (r - e), e)

def neg : Double → Double
  | finite s m q h => finite (!s) m q h
  | infinite s => infinite (!s)
  | nan => nan

/-- A sum that is exactly zero is negative only if both parts are. -/
def add : Double → Double → Double
  | finite s m q _, finite t n r _ =>
    let (a, b, e) := aligned m q n r
    let sum := signed s a + signed t b
    if sum = 0 then zero (s && t) else ofScaled (sum < 0) sum.natAbs e
  | infinite s, infinite t => if s = t then infinite s else nan
  | infinite s, finite .. | finite .., infinite s => infinite s
  | nan, _ | _, nan => nan

def sub (x y : Double) : Double := add x (neg y)

def mul : Double → Double → Double
  | finite s m q _, finite t n r _ => ofScaled (s ^^ t) (m * n) (q + r)
  | infinite s, infinite t => infinite (s ^^ t)
  | infinite s, finite t n _ _ | finite t n _ _, infinite s => if n = 0 then nan else infinite (s ^^ t)
  | nan, _ | _, nan => nan

def div : Double → Double → Double
  | finite s m q _, finite t n r _ =>
    if n = 0 then if m = 0 then nan else infinite (s ^^ t)
    else
      let (a, b, _) := aligned m q n r
      ofRatio (s ^^ t) a b
  | infinite s, finite t .. => infinite (s ^^ t)
  | finite s .., infinite t => zero (s ^^ t)
  | infinite _, infinite _ | nan, _ | _, nan => nan

/-- The remainder of the quotient cut off towards zero, with the sign of the dividend. -/
def rem : Double → Double → Double
  | finite s m q h, finite _ n r _ =>
    if n = 0 then nan
    else
      let (a, b, e) := aligned m q n r
      if a < b then finite s m q h else ofScaled s (a % b) e
  | x@(finite ..), infinite _ => x
  | infinite _, _ | nan, _ | _, nan => nan

/-- Numeric order; nothing compares with what is not a number. -/
def ordering : Double → Double → Option Ordering
  | finite s m q _, finite t n r _ =>
    let (a, b, _) := aligned m q n r
    some (compare (signed s a) (signed t b))
  | infinite s, infinite t => some (if s = t then .eq else if s then .lt else .gt)
  | infinite s, finite .. => some (if s then .lt else .gt)
  | finite .., infinite t => some (if t then .gt else .lt)
  | nan, _ | _, nan => none

/-- Numeric equality: both zeros are equal. -/
def same (x y : Double) : Bool := ordering x y == some .eq

def le (x y : Double) : Bool := ordering x y == some .lt || ordering x y == some .eq

def isZero (x : Double) : Bool := same x (zero false)

/-- The integer part of a double that is not negative. -/
def floor : Double → Nat
  | finite _ m q _ => m * power 2 q / power 2 (-q)
  | _ => 0

end ApiContract.Double
