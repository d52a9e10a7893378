import ApiContract.Text.ExtendingMark
import ApiContract.Text.Unprintable

namespace ApiContract.Text

abbrev Escapes := Char → Option (List Char)

def Escapes.write (escapes : Escapes) (c : Char) : List Char := (escapes c).getD [c]

def quote (escapes : Escapes) (s : List Char) : List Char :=
  '\x22' :: s.flatMap escapes.write ++ ['\x22']

def hexDigits (n : Nat) : List Char := Nat.toDigits 16 n

/-- A character that shows on its own: it leaves ink and does not cling to the one before it. -/
def isVisible (c : Char) : Bool :=
  c == ' ' || !(unprintable.covers c.toNat || extendingMark.covers c.toNat)

def visibleEscapes : Escapes := fun c =>
  if c = '\x22' then some ['\\', '\x22']
  else if c = '\\' then some ['\\', '\\']
  else if c = '\t' then some ['\\', 't']
  else if c = '\r' then some ['\\', 'r']
  else if c = '\n' then some ['\\', 'n']
  else if c.toNat = 0 then some ['\\', '0']
  else if isVisible c then none
  else some ("\\u\x7b".toList ++ hexDigits c.toNat ++ ['\x7d'])

def shown (s : String) : String := String.ofList (quote visibleEscapes s.toList)

end ApiContract.Text
