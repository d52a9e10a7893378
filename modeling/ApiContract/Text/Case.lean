import ApiContract.Text.Cased
import ApiContract.Text.Lowercase
import ApiContract.Text.Uppercase

namespace ApiContract.Text

def toUpper (s : List Char) : List Char := s.flatMap uppercase.apply

/-- Whether the first sign that a word is not merely read through belongs to a letter with case. -/
def startsCased (s : List Char) : Bool :=
  match s.dropWhile (fun c => caseIgnorable.covers c.toNat) with
  | [] => false
  | c :: _ => cased.covers c.toNat

/-- Lower case of what follows `before`, which is given backwards. A capital sigma has a form of
its own where it ends a word. -/
def toLowerAfter (before : List Char) : List Char → List Char
  | [] => []
  | c :: after =>
    (if c = 'Σ' then [if startsCased before && !startsCased after then 'ς' else 'σ']
      else lowercase.apply c) ++ toLowerAfter (c :: before) after

def toLower (s : List Char) : List Char := toLowerAfter [] s

end ApiContract.Text
