import ApiContract.Fields
import ApiContract.Number.Basic
import ApiContract.Text.Quoted

namespace ApiContract

inductive Json
  | null
  | bool (b : Bool)
  | number (n : Number)
  | string (s : String)
  | array (items : List Json)
  | object (fields : List (String × Json))

namespace Json

/-- Only quotes, backslashes and controls are escaped. -/
def escapes : Text.Escapes := fun c =>
  if c = '\x22' then some ['\\', '\x22']
  else if c = '\\' then some ['\\', '\\']
  else if c = '\x08' then some ['\\', 'b']
  else if c = '\t' then some ['\\', 't']
  else if c = '\n' then some ['\\', 'n']
  else if c = '\x0c' then some ['\\', 'f']
  else if c = '\r' then some ['\\', 'r']
  else if c.toNat < 0x20 then
    let digits := Text.hexDigits c.toNat
    some ('\\' :: 'u' :: List.replicate (4 - digits.length) '0' ++ digits)
  else none

def quoted (s : String) : List Char := Text.quote escapes s.toList

def boolChars (b : Bool) : List Char := if b then "true".toList else "false".toList

mutual

def chars : Json → List Char
  | null => "null".toList
  | bool b => boolChars b
  | number n => n.chars
  | string s => quoted s
  | array items => '[' :: itemChars items ++ [']']
  | object fields => '\x7b' :: fieldChars fields ++ ['\x7d']

def itemChars : List Json → List Char
  | [] => []
  | [item] => item.chars
  | item :: items => item.chars ++ ',' :: itemChars items

def fieldChars : List (String × Json) → List Char
  | [] => []
  | [(key, value)] => quoted key ++ ':' :: value.chars
  | (key, value) :: fields => quoted key ++ ':' :: value.chars ++ ',' :: fieldChars fields

end

def text (json : Json) : String := String.ofList json.chars

mutual

/-- Equality as data; an integer differs from the float of the same value. -/
def same : Json → Json → Bool
  | null, null => true
  | bool a, bool b => a == b
  | number a, number b => a.same b
  | string a, string b => a == b
  | array a, array b => sameItems a b
  | object a, object b => sameFields a b
  | _, _ => false

def sameItems : List Json → List Json → Bool
  | [], [] => true
  | a :: as, b :: bs => a.same b && sameItems as bs
  | _, _ => false

def sameFields : List (String × Json) → List (String × Json) → Bool
  | [], [] => true
  | (j, a) :: as, (k, b) :: bs => j == k && a.same b && sameFields as bs
  | _, _ => false

end

def field? (key : String) : Json → Option Json
  | object fields => Fields.get? key fields
  | _ => none

end Json

end ApiContract
