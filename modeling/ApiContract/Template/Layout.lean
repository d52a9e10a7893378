import ApiContract.Number.Literal
import ApiContract.Rendering.Fragment
import ApiContract.Template.Basic

namespace ApiContract.Template

abbrev Row := List Fragment

def sourceTag (source : String) : Tag :=
  match source.toList with
  | '\x22' :: _ | '\x27' :: _ => .string
  | s => if (Double.ofChars? s).isSome then .numeric else .expression

def indented (row : Row) : Row := Fragment.tab :: row

/-- A mark in front of the first line. The lines of a mixin are indented below it already. -/
def continued (isMixin : Bool) (rows : List Row) : List Row :=
  if isMixin then rows else rows.map indented

def bulleted (isMixin : Bool) : List Row → List Row
  | [] => []
  | row :: rows => (⟨.bullet, "*"⟩ :: Fragment.tab :: row) :: continued isMixin rows

def slotMark (name : String) (optional : Bool) : Row :=
  ⟨.key, name⟩ :: (if optional then [⟨.operator, "?"⟩] else []) ++ [⟨.operator, ":"⟩]

/-- A mixin and a single line stand behind the colon. -/
def slotRows (name : String) (optional isMixin : Bool) : List Row → List Row
  | [row] => [slotMark name optional ++ Fragment.blank :: row]
  | row :: rows =>
    if isMixin then (slotMark name optional ++ Fragment.blank :: row) :: rows
    else slotMark name optional :: (row :: rows).map indented
  | [] => [slotMark name optional]

def removalsRow (removals : List Path) : Row :=
  if removals.isEmpty then []
  else [Fragment.blank, ⟨.keyword, "without"⟩, Fragment.blank,
    ⟨.key, ", ".intercalate (removals.map Path.text)⟩]

def mixinMark (base : Path) (removals : List Path) (adds : Bool) : Row :=
  let separator : Row := if removals.isEmpty then [] else [⟨.operator, ";"⟩]
  let keyword : Row := if adds then separator ++ [Fragment.blank, ⟨.keyword, "with"⟩] else []
  ⟨.binder, base.text⟩ :: removalsRow removals ++ keyword

/-- A single line of additions stays beside the mixin. -/
def mixinRows (mark : Row) : List Row → List Row
  | [row] => [mark ++ Fragment.blank :: row]
  | rows => mark :: rows.map indented

mutual

def rows : Template → List Row
  | expression source => [[⟨sourceTag source, source⟩]]
  | array [] => [[⟨.bracket, "[]"⟩]]
  | array (item :: items) => itemRows (item :: items)
  | object [] => [[⟨.bracket, "\x7b\x7d"⟩]]
  | object (entry :: entries) => entryRows (entry :: entries)
  | mixin base removals additions =>
    mixinRows (mixinMark base removals (!additions.isEmpty)) (additionRows additions)

def itemRows : List Template → List Row
  | [] => []
  | item :: items => bulleted item.isMixin item.rows ++ itemRows items

def entryRows : List (String × Slot Template) → List Row
  | [] => []
  | (key, ⟨optional, value⟩) :: entries =>
    slotRows key optional value.isMixin value.rows ++ entryRows entries

def additionRows : List (Path × Slot Template) → List Row
  | [] => []
  | (path, ⟨optional, value⟩) :: additions =>
    slotRows path.text optional value.isMixin value.rows ++ additionRows additions

end

end ApiContract.Template
