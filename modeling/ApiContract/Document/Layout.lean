import ApiContract.Document.Basic
import ApiContract.Template.Layout

namespace ApiContract.Document

def mark (level : Nat) : List Fragment :=
  [⟨.header, String.ofList (List.replicate level '#')⟩, Fragment.blank]

def skipMark (skip : Bool) : List Fragment := if skip then [⟨.keyword, " (skip)"⟩] else []

def blockFragments (template : Template) : List Fragment :=
  template.rows.flatMap fun row => Fragment.tab :: row ++ [Fragment.newline]

def setupFragments : Setup → List Fragment
  | .clear collection =>
    Fragment.newline :: mark 3 ++
      [⟨.keyword, "Clear"⟩, Fragment.blank, ⟨.collection, collection⟩, Fragment.newline]
  | .insertion name collection template =>
    Fragment.newline :: mark 3 ++
      [⟨.binder, name⟩, Fragment.blank, ⟨.keyword, "in"⟩, Fragment.blank,
        ⟨.collection, collection⟩, Fragment.newline] ++
      blockFragments template
  | .declaration name template =>
    Fragment.newline :: mark 3 ++
      [⟨.binder, name⟩, Fragment.blank, ⟨.keyword, "is"⟩, Fragment.newline] ++
      blockFragments template

/-- An empty request to the usual endpoint needs no heading. -/
def postFragments (c : Case) : List Fragment :=
  let url : List Fragment := match c.url with
    | some url => [Fragment.blank, ⟨.url, url⟩]
    | none => []
  if c.url.isSome || !c.post.isEmpty then
    mark 3 ++ ⟨.keyword, "Post"⟩ :: url ++ Fragment.newline :: blockFragments c.post
  else []

def outFragments (c : Case) : List Fragment :=
  let status : List Fragment :=
    if c.status = 200 then [] else [Fragment.blank, ⟨.numeric, toString c.status⟩]
  match c.out with
  | some template =>
    mark 3 ++ ⟨.keyword, "Out"⟩ :: status ++ Fragment.newline :: blockFragments template
  | none => []

def findFragments (find : Find) : List Fragment :=
  mark 3 ++ [⟨.keyword, "Find in"⟩, Fragment.blank, ⟨.collection, find.collection⟩, Fragment.newline] ++
    blockFragments find.template

def caseFragments (c : Case) : List Fragment :=
  Fragment.newline :: mark 2 ++ ⟨.caption, c.name⟩ :: skipMark c.skip ++ [Fragment.newline] ++
    postFragments c ++ outFragments c ++ c.finds.flatMap findFragments

def fragments (document : Document) : List Fragment :=
  mark 1 ++ ⟨.title, document.name⟩ :: skipMark document.skip ++ [Fragment.newline] ++
    (Fragment.newline :: mark 2 ++ [⟨.caption, "Setup"⟩, Fragment.newline]) ++
    document.setups.flatMap setupFragments ++ document.cases.flatMap caseFragments

def endLine (text : String) : String :=
  if text.isEmpty || text.toList.getLast? == some '\n' then text else text ++ "\n"

def render (renderer : Renderer) (document : Document) : String :=
  endLine (renderer.render document.fragments)

end ApiContract.Document
