import ApiContract.Text.Pieces

namespace ApiContract

namespace Identifier

def isStart (c : Char) : Bool := c.isAlpha || c == '_' || c == '$'

def isPart (c : Char) : Bool := isStart c || c.isDigit

def isValid : List Char → Bool
  | [] => false
  | c :: s => isStart c && s.all isPart

/-- The longest identifier that a text starts with, and the rest of the text. -/
def take? (s : List Char) : Option (List Char × List Char) :=
  match s with
  | c :: rest => if isStart c then some (c :: rest.takeWhile isPart, rest.dropWhile isPart) else none
  | [] => none

theorem isValid_of_take? {s name rest : List Char} (h : take? s = some (name, rest)) :
    isValid name = true := by
  cases s with
  | nil => simp [take?] at h
  | cons c s =>
    simp only [take?] at h
    split at h
    · rename_i hc
      cases h
      simp [isValid, hc]
    · cases h

theorem append_of_take? {s name rest : List Char} (h : take? s = some (name, rest)) :
    name ++ rest = s := by
  cases s with
  | nil => simp [take?] at h
  | cons c s =>
    simp only [take?] at h
    split at h
    · cases h; simp
    · cases h

end Identifier

inductive Segment
  | key (name : String)
  | index (position : Nat)
  deriving DecidableEq

/-- A segment as it is written; an index may also name a key. -/
def Segment.text : Segment → String
  | key name => name
  | index position => toString position

def Segment.indexLimit : Nat := 0x10000000000000000

/-- A run of digits is an index, with its leading zeros dropped; anything else must be an identifier. -/
def Segment.ofChars? (s : List Char) : Option Segment :=
  if !s.isEmpty && s.all Char.isDigit then
    let n := Nat.ofDigitChars 10 s 0
    if n < indexLimit then some (index n) else none
  else if Identifier.isValid s then some (key (String.ofList s))
  else none

abbrev Path := List Segment

namespace Path

def text (path : Path) : String := ".".intercalate (path.map Segment.text)

def ofChars? (s : List Char) : Option Path := (Text.pieces '.' s).mapM Segment.ofChars?

def ofString? (s : String) : Option Path := ofChars? s.toList

end Path

/-- A label or path text with one more segment behind it. -/
def extended (walked segment : String) : String := walked ++ "." ++ segment

/-- As `extended`, but an empty text leads nowhere and needs no dot. -/
def joinedPath (path segment : String) : String :=
  if path.isEmpty then segment else extended path segment

end ApiContract
