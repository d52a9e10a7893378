import ApiContract.Path
import ApiContract.Rendering.Fragment
import ApiContract.Value

namespace ApiContract.Value

def marked (mark : Bool) (tag : Tag) (text : String) : Fragment :=
  ⟨if mark then .highlight else tag, text⟩

def indentation (depth : Nat) : List Fragment :=
  if depth = 0 then [] else [⟨.indent, String.ofList (List.replicate (2 * depth) ' ')⟩]

def quotedText (s : String) : String := String.ofList (Json.quoted s)

def comma (mark isLast : Bool) : List Fragment :=
  if isLast then [] else [marked mark .bracket ","]

/-- Brackets around lines, the closing one as deep as the line of the opening one. -/
def enclosed (mark : Bool) (opening closing : String) (depth : Nat) (lines : List Fragment) :
    List Fragment :=
  marked mark .bracket opening :: Fragment.newline :: lines ++ indentation depth ++
    [marked mark .bracket closing]

def wrapped (mark : Bool) (fragments : List Fragment) : List Fragment :=
  marked mark .expression "ordered(" :: fragments ++ [marked mark .expression ")"]

variable (highlight : Option String)

mutual

/-- The fragments of the value at a path; `outer` says that a value around it is highlighted. -/
def fragmentsAt (path : String) (depth : Nat) (outer : Bool) (value : Value) : List Fragment :=
  let mark := outer || highlight == some path
  match value with
  | null => [marked mark .keyword "null"]
  | bool b => [marked mark .keyword (if b then "true" else "false")]
  | number n => [marked mark .numeric n.text]
  | string s => [marked mark .string (quotedText s)]
  | id s =>
    [marked mark .expression "ObjectId(", marked mark .string (quotedText s),
      marked mark .expression ")"]
  | type kind => [marked mark .expression kind.name]
  | array [] | ordered [] => [marked mark .bracket "[]"]
  | array (item :: items) =>
    enclosed mark "[" "]" depth (itemFragments path (depth + 1) mark 0 (item :: items))
  | ordered (item :: items) =>
    wrapped mark
      (enclosed mark "[" "]" depth (itemFragments path (depth + 1) mark 0 (item :: items)))
  | object [] => [marked mark .bracket "\x7b\x7d"]
  | object (field :: fields) =>
    enclosed mark "\x7b" "\x7d" depth (fieldFragments path (depth + 1) mark (field :: fields))

def itemFragments (path : String) (depth : Nat) (mark : Bool) (index : Nat) :
    List Value → List Fragment
  | [] => []
  | item :: items =>
    indentation depth ++ fragmentsAt (joinedPath path (toString index)) depth mark item ++
      comma mark items.isEmpty ++ Fragment.newline :: itemFragments path depth mark (index + 1) items

def fieldFragments (path : String) (depth : Nat) (mark : Bool) :
    List (String × Value) → List Fragment
  | [] => []
  | (key, value) :: fields =>
    let inner := joinedPath path key
    let keyMark := mark || highlight == some inner
    indentation depth ++ marked keyMark .key (quotedText key) :: marked keyMark .bracket ": " ::
      fragmentsAt inner depth mark value ++
      comma mark fields.isEmpty ++ Fragment.newline :: fieldFragments path depth mark fields

end

def fragments (value : Value) : List Fragment := fragmentsAt highlight "" 0 false value

def print (renderer : Renderer) (value : Value) : String :=
  renderer.render (value.fragments highlight)

end ApiContract.Value
