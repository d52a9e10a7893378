import ApiContract.Json
import ApiContract.Reading
import ApiContract.Text.Strip

namespace ApiContract.Json

/-- How a value is read: with so many levels of arrays and objects allowed in it, or only skimmed,
when it is not going to be used and neither depth nor range nor surrogates matter. -/
inductive Care
  | full (levels : Nat)
  | skim

namespace Care

def deeper : Care → Option Care
  | full 0 => none
  | full (levels + 1) => some (full levels)
  | skim => some skim

end Care

def isGap (c : Char) : Bool := c == ' ' || c == '\n' || c == '\t' || c == '\r'

def front? : (s : List Char) → Option (Reading Char Char s.length)
  | [] => none
  | c :: s => if isGap c then (front? s).map (Reading.behind 1) else some (.leaving c s)

def mark? (c : Char) (s : List Char) : Option (Reading Char Char s.length) :=
  (front? s).filter (·.value = c)

def hexValue? (c : Char) : Option Nat :=
  if c.isDigit then some (c.toNat - 48)
  else if 'a' ≤ c ∧ c ≤ 'f' then some (c.toNat - 87)
  else if 'A' ≤ c ∧ c ≤ 'F' then some (c.toNat - 55)
  else none

def hexFour? (a b c d : Char) : Option Nat := do
  some ((((← hexValue? a) * 16 + (← hexValue? b)) * 16 + (← hexValue? c)) * 16 + (← hexValue? d))

def isHigh (n : Nat) : Bool := 0xD800 ≤ n && n < 0xDC00

def isLow (n : Nat) : Bool := 0xDC00 ≤ n && n < 0xE000

def unescape? (c : Char) : Option Char :=
  match c with
  | '\x22' => some '\x22'
  | '\\' => some '\\'
  | '/' => some '/'
  | 'b' => some '\x08'
  | 'f' => some '\x0c'
  | 'n' => some '\n'
  | 'r' => some '\r'
  | 't' => some '\t'
  | _ => none

/-- A text up to its closing quote. Two surrogates in a row make one character. -/
def stringTail (skim : Bool) : (s : List Char) → Option (Reading Char (List Char) s.length)
  | [] => none
  | '\x22' :: s => some (.leaving [] s)
  | '\\' :: 'u' :: a :: b :: c :: d :: s =>
    match hexFour? a b c d with
    | none => none
    | some n =>
      if isHigh n && !skim then
        match s with
        | '\\' :: 'u' :: e :: f :: g :: h :: s =>
          match hexFour? e f g h with
          | none => none
          | some low =>
            if isLow low then
              let c := Char.ofNat (0x10000 + (n - 0xD800) * 0x400 + (low - 0xDC00))
              (stringTail skim s).map fun r => (r.map (c :: ·)).behind 12
            else none
        | _ => none
      else if isLow n && !skim then none
      else (stringTail skim s).map fun r => (r.map (Char.ofNat n :: ·)).behind 6
  | '\\' :: c :: s =>
    match unescape? c with
    | none => none
    | some c => (stringTail skim s).map fun r => (r.map (c :: ·)).behind 2
  | c :: s =>
    if c.toNat < 0x20 ∨ c = '\\' then none
    else (stringTail skim s).map fun r => (r.map (c :: ·)).behind 1

/-- A numeral: no leading zeros, and digits on both sides of a point. -/
def numeral? (s : List Char) : Option (Numeral × List Char) :=
  let (whole, s) := Numeral.takeDigits s
  let leadingZero := whole.head? == some '0' && whole.length != 1
  if whole.isEmpty || leadingZero then none
  else
    let (fraction, rest) := Numeral.takeFraction s
    if s.head? == some '.' && fraction.isEmpty then none
    else (Numeral.takeExponent rest).map fun (exponent, rest) => (⟨whole, fraction, exponent⟩, rest)

def signedNumeral? (s : List Char) : Option (Bool × Numeral × List Char) :=
  match s with
  | '-' :: s => (numeral? s).map fun (n, rest) => (true, n, rest)
  | s => (numeral? s).map fun (n, rest) => (false, n, rest)

/-- A number that is skimmed may be out of range. -/
def numberOf (care : Care) (negative : Bool) (n : Numeral) : Option Json :=
  match care, Number.ofNumeral? negative n with
  | _, some x => some (number x)
  | .skim, none => some null
  | .full _, none => none

def word? (s : List Char) : Option (Json × List Char) :=
  match Text.strip? "null".toList s with
  | some rest => some (null, rest)
  | none =>
    match Text.strip? "true".toList s with
    | some rest => some (bool true, rest)
    | none => (Text.strip? "false".toList s).map fun rest => (bool false, rest)

def scalar? (care : Care) (s : List Char) : Option (Reading Char Json s.length) :=
  let found := match word? s with
    | some r => some r
    | none => do
      let (negative, n, rest) ← signedNumeral? s
      some (← numberOf care negative n, rest)
  match found with
  | none => none
  | some (json, rest) => if h : rest.length < s.length then some ⟨json, rest, h⟩ else none

def Care.isSkim : Care → Bool
  | full _ => false
  | skim => true

def key? (skim : Bool) (s : List Char) : Option (Reading Char String s.length) := do
  let quote ← mark? '\x22' s
  let key ← stringTail skim quote.rest
  let colon ← mark? ':' key.rest
  some (quote.before (key.before (colon.map fun _ => String.ofList key.value)))

mutual

def value? (care : Care) (s : List Char) : Option (Reading Char Json s.length) :=
  match front? s with
  | none => none
  | some c =>
    match c.value with
    | '[' =>
      match care.deeper with
      | none => none
      | some care => (items? care c.rest).map fun r => c.before (r.map array)
    | '\x7b' =>
      match care.deeper with
      | none => none
      | some care =>
        (members? care c.rest).map fun r => c.before (r.map fun ms => object (Fields.ofList ms))
    | '\x22' =>
      (stringTail care.isSkim c.rest).map fun r =>
        c.before (r.map fun cs => string (String.ofList cs))
    | d => (scalar? care (d :: c.rest)).map c.extend
termination_by (s.length, 0)
decreasing_by
  · exact Prod.Lex.left _ _ c.within
  · exact Prod.Lex.left _ _ c.within

def items? (care : Care) (s : List Char) : Option (Reading Char (List Json) s.length) :=
  match mark? ']' s with
  | some close => some (close.map fun _ => [])
  | none => itemTail? care s
termination_by (s.length, 2)
decreasing_by exact Prod.Lex.right _ (by decide)

/-- At least one item, with a comma before each further one. -/
def itemTail? (care : Care) (s : List Char) : Option (Reading Char (List Json) s.length) :=
  match value? care s with
  | none => none
  | some item =>
    match mark? ',' item.rest with
    | some comma =>
      (itemTail? care comma.rest).map fun more =>
        item.before (comma.before (more.map (item.value :: ·)))
    | none => (mark? ']' item.rest).map fun close => item.before (close.map fun _ => [item.value])
termination_by (s.length, 1)
decreasing_by
  · exact Prod.Lex.right _ (by decide)
  · exact Prod.Lex.left _ _ (Nat.lt_trans comma.within item.within)

def members? (care : Care) (s : List Char) :
    Option (Reading Char (List (String × Json)) s.length) :=
  match mark? '\x7d' s with
  | some close => some (close.map fun _ => [])
  | none => memberTail? care s
termination_by (s.length, 2)
decreasing_by exact Prod.Lex.right _ (by decide)

def memberTail? (care : Care) (s : List Char) :
    Option (Reading Char (List (String × Json)) s.length) :=
  match key? care.isSkim s with
  | none => none
  | some key =>
    match value? care key.rest with
    | none => none
    | some item =>
      match mark? ',' item.rest with
      | some comma =>
        (memberTail? care comma.rest).map fun more =>
          key.before (item.before (comma.before (more.map ((key.value, item.value) :: ·))))
      | none =>
        (mark? '\x7d' item.rest).map fun close =>
          key.before (item.before (close.map fun _ => [(key.value, item.value)]))
termination_by (s.length, 1)
decreasing_by
  · exact Prod.Lex.left _ _ key.within
  · exact Prod.Lex.left _ _ (Nat.lt_trans comma.within (Nat.lt_trans item.within key.within))

end

def maxLevels : Nat := 127

def ofChars? (s : List Char) : Option Json :=
  match value? (.full maxLevels) s with
  | some r => if r.rest.all isGap then some r.value else none
  | none => none

end ApiContract.Json
