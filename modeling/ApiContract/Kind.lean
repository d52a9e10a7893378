import ApiContract.Text.Letter
import ApiContract.Text.Strip
import ApiContract.Value

namespace ApiContract.Kind

open Text (strip?)

def skipDigits? : Nat → List Char → Option (List Char)
  | 0, s => some s
  | n + 1, c :: s => if Text.isDecimalDigit c then skipDigits? n s else none
  | _ + 1, [] => none

/-- `Z`, or a signed offset of hours and minutes with or without a colon, at the end of the text. -/
def isZone : List Char → Bool
  | [] => true
  | c :: s =>
    if c = 'Z' then s.isEmpty
    else if c = '+' ∨ c = '-' then
      match skipDigits? 2 s with
      | none => false
      | some rest => skipDigits? 2 ((strip? [':'] rest).getD rest) == some []
    else false

def skipSeconds? : List Char → Option (List Char)
  | ':' :: s => do
    match ← skipDigits? 2 s with
    | '.' :: fraction =>
      let rest ← skipDigits? 1 fraction
      some (rest.dropWhile Text.isDecimalDigit)
    | rest => some rest
  | s => some s

def isTime (s : List Char) : Bool :=
  match (do skipSeconds? (← skipDigits? 2 (← strip? [':'] (← skipDigits? 2 s)))) with
  | some zone => isZone zone
  | none => false

/-- Year, month and day, and optionally a time behind a blank or a `T`. -/
def isDate (s : List Char) : Bool :=
  match (do
      let s ← strip? ['-'] (← skipDigits? 4 s)
      let s ← strip? ['-'] (← skipDigits? 2 s)
      skipDigits? 2 s) with
  | none => false
  | some [] => true
  | some (c :: time) => (c == 'T' || c == ' ') && isTime time

def isFlag (c : Char) : Bool := "dgimsuy".toList.contains c

/-- Something on one line between slashes, and flags behind the last of them. -/
def isRegExp : List Char → Bool
  | '/' :: s =>
    match s.reverse.dropWhile isFlag with
    | '/' :: source => !source.isEmpty && !source.contains '\n'
    | _ => false
  | _ => false

def isHexDigit (c : Char) : Bool :=
  c.isDigit || ('a' ≤ c && c ≤ 'f') || ('A' ≤ c && c ≤ 'F')

def isObjectId (s : List Char) : Bool := s.length == 24 && s.all isHexDigit

/-- Arrays count as objects too. Dates, regular expressions and identifiers travel as strings and are
known by their look. -/
def accepts : Kind → Value → Bool
  | string, .string _ => true
  | number, .number _ => true
  | boolean, .bool _ => true
  | object, .object _ | object, .array _ | object, .ordered _ => true
  | array, .array _ | array, .ordered _ => true
  | date, .string s => isDate s.toList
  | regExp, .string s => isRegExp s.toList
  | objectId, .id _ => true
  | objectId, .string s => isObjectId s.toList
  | _, _ => false

end ApiContract.Kind
