import ApiContract.Path
import ApiContract.Text.Blank
import ApiContract.Text.Strip

namespace ApiContract.Heading

open Text (strip? stripEnd?)

def identifier? (s : List Char) : Option String :=
  if Identifier.isValid s then some (String.ofList s) else none

/-- A mark at the end of a title skips what it names. -/
def splitSkip (s : List Char) : List Char × Bool :=
  match stripEnd? " (skip)".toList s with
  | some name => (Text.trimEnd name, true)
  | none => (s, false)

def clear? (s : List Char) : Option String := (strip? "Clear ".toList s).bind identifier?

def declaration? (s : List Char) : Option String := (stripEnd? " is".toList s).bind identifier?

def insertion? (s : List Char) : Option (String × String) := do
  let (name, rest) ← Identifier.take? s
  let collection ← identifier? (← strip? " in ".toList rest)
  some (String.ofList name, collection)

/-- `Post`, and behind blanks an endpoint on one line, which may be missing. -/
def post? (s : List Char) : Option (Option String) :=
  match strip? "Post".toList s with
  | some [] => some none
  | some (c :: rest) =>
    if Text.isBlank c then
      let url := Text.trimStart rest
      if url.contains '\n' then none
      else some (if url.isEmpty then none else some (String.ofList url))
    else none
  | none => none

/-- `Out`, and behind one blank a status of three digits, which may be missing. -/
def out? (s : List Char) : Option (Option Nat) :=
  match strip? "Out".toList s with
  | some [] => some none
  | some (' ' :: digits) =>
    if digits.length == 3 && digits.all Char.isDigit then some (some (Nat.ofDigitChars 10 digits 0))
    else none
  | _ => none

def find? (s : List Char) : Option String := (strip? "Find in ".toList s).bind identifier?

end ApiContract.Heading
