import ApiContract.Number.Basic
import ApiContract.Reading
import ApiContract.Text.Blank
import ApiContract.Text.Letter
import ApiContract.Text.Quoted

namespace ApiContract.Expression

inductive Lexeme
  | number (value : Double)
  | text (s : String)
  | name (s : String)
  | symbol (c : Char)
  deriving DecidableEq

def Lexeme.shown : Lexeme → String
  | number x => "number " ++ String.ofList (x.text Number.plainStyle)
  | text s => "string " ++ Text.shown s
  | name s => "name \"" ++ s ++ "\""
  | symbol c => String.ofList ['\x27', c, '\x27']

inductive LexicalError
  | invalidNumber (text : String)
  | unterminatedString
  | unexpectedCharacter (c : Char)
  deriving DecidableEq

def LexicalError.message : LexicalError → String
  | invalidNumber text => "Invalid number " ++ text
  | unterminatedString => "Unterminated string"
  | unexpectedCharacter c => "Unexpected character " ++ String.ofList ['\x27', c, '\x27']

namespace Lexeme

def isExponentMark (c : Char) : Bool := c == 'e' || c == 'E'

/-- Digits, points and exponent marks; a sign goes on with the number behind an exponent mark. -/
def numberLength (afterMark : Bool) : List Char → Nat
  | [] => 0
  | c :: s =>
    if c.isDigit || c == '.' || isExponentMark c then numberLength (isExponentMark c) s + 1
    else if afterMark && (c == '-' || c == '+') then numberLength false s + 1
    else 0

def startsNumber (c : Char) (s : List Char) : Bool :=
  c.isDigit || (c == '.' && s.head?.any Char.isDigit)

def isNameStart (c : Char) : Bool := Text.isAlphabetic c || c == '_' || c == '$'

def isNamePart (c : Char) : Bool := Text.isAlphanumeric c || c == '_' || c == '$'

def isSymbol (c : Char) : Bool := "+-*/%!()[]\x7b\x7d,.:".toList.contains c

def escaped (c : Char) : Char :=
  match c with
  | 'n' => '\n'
  | 't' => '\t'
  | 'r' => '\r'
  | _ => c

def textTail (mark : Char) : (s : List Char) → Option (Reading Char (List Char) s.length)
  | [] => none
  | c :: s =>
    if c = mark then some (.leaving [] s)
    else if c = '\\' then
      match s with
      | [] => none
      | d :: s => (textTail mark s).map fun r => (r.map (escaped d :: ·)).behind 2
    else (textTail mark s).map fun r => (r.map (c :: ·)).behind 1

def number? (s : List Char) : Except LexicalError Lexeme :=
  match Double.ofChars? s with
  | some x => .ok (number x)
  | none => .error (.invalidNumber (String.ofList s))

/-- The lexeme at the front of a text that starts with neither a blank nor a comment. -/
def first (c : Char) (s : List Char) : Except LexicalError (Reading Char Lexeme (s.length + 1)) :=
  if startsNumber c s then
    let n := numberLength false s
    match number? (c :: s.take n) with
    | .error e => .error e
    | .ok lexeme => .ok ⟨lexeme, s.drop n, by simp only [List.length_drop]; omega⟩
  else if c = '\x22' ∨ c = '\x27' then
    match textTail c s with
    | none => .error .unterminatedString
    | some r => .ok ((r.map fun cs => text (String.ofList cs)).behind 1)
  else if isNameStart c then
    .ok ⟨name (String.ofList (c :: s.takeWhile isNamePart)), s.dropWhile isNamePart,
      Nat.lt_succ_of_le (List.dropWhile_sublist isNamePart).length_le⟩
  else if isSymbol c then .ok (.leaving (symbol c) s)
  else .error (.unexpectedCharacter c)

def ofChars : List Char → Except LexicalError (List Lexeme)
  | [] => .ok []
  | c :: s =>
    if Text.isBlank c then ofChars s
    else if c == '/' && s.head? == some '/' then .ok []
    else
      match first c s with
      | .error e => .error e
      | .ok r =>
        have := r.within
        match ofChars r.rest with
        | .error e => .error e
        | .ok lexemes => .ok (r.value :: lexemes)
termination_by s => s.length

end Lexeme

end ApiContract.Expression
