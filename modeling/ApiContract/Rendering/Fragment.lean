namespace ApiContract

inductive Tag
  | neutral | indent | newline | header | title | caption | keyword | binder | collection | url
  | numeric | string | expression | key | bullet | operator | bracket | highlight
  deriving DecidableEq

namespace Tag

def name : Tag → String
  | neutral => "Neutral"
  | indent => "Indent"
  | newline => "Newline"
  | header => "Header"
  | title => "Title"
  | caption => "Section"
  | keyword => "Keyword"
  | binder => "Variable"
  | collection => "Collection"
  | url => "Url"
  | numeric => "Numeric"
  | string => "String"
  | expression => "Expression"
  | key => "Key"
  | bullet => "Bullet"
  | operator => "Operator"
  | bracket => "Structure"
  | highlight => "Highlight"

end Tag

structure Fragment where
  tag : Tag
  text : String
  deriving DecidableEq

namespace Fragment

def blank : Fragment := ⟨.neutral, " "⟩

def newline : Fragment := ⟨.newline, "\n"⟩

def tab : Fragment := ⟨.indent, "\t"⟩

end Fragment

abbrev Renderer := Tag → String → String

namespace Renderer

def plain : Renderer := fun _ text => text

/-- The text with double brackets around what is highlighted. -/
def bracketed : Renderer := fun tag text =>
  if tag = .highlight then "[[" ++ text ++ "]]" else text

def labelled : Renderer := fun tag text => "<" ++ tag.name ++ ":" ++ text ++ ">"

def render (renderer : Renderer) (fragments : List Fragment) : String :=
  String.join (fragments.map fun f => renderer f.tag f.text)

@[simp] theorem render_nil (renderer : Renderer) : renderer.render [] = "" := rfl

@[simp] theorem render_append (renderer : Renderer) (as bs : List Fragment) :
    renderer.render (as ++ bs) = renderer.render as ++ renderer.render bs := by
  simp [render]

end Renderer

end ApiContract
