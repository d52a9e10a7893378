import ApiContract.Template.Basic

namespace ApiContract

inductive Setup
  | clear (collection : String)
  | insertion (name collection : String) (template : Template)
  | declaration (name : String) (template : Template)

structure Find where
  collection : String
  template : Template

structure Case where
  name : String
  skip : Bool
  /-- stands in for the name of the document -/
  url : Option String
  post : Template
  status : Nat
  /-- without it the body of the answer may be anything -/
  out : Option Template
  finds : List Find

/-- What is put into the store first, and the cases, each a request with what is expected of the
answer and of the store. -/
structure Document where
  name : String
  skip : Bool
  setups : List Setup
  cases : List Case
  /-- the collections cleared or inserted into by the setup, in order -/
  collections : List String

def Case.endpoint (c : Case) (document : Document) : String := c.url.getD document.name

def Setup.same : Setup → Setup → Bool
  | clear c, clear d => c == d
  | insertion n c s, insertion m d t => n == m && c == d && s.same t
  | declaration n s, declaration m t => n == m && s.same t
  | _, _ => false

def sameList {α : Type} (same : α → α → Bool) : List α → List α → Bool
  | [], [] => true
  | a :: as, b :: bs => same a b && sameList same as bs
  | _, _ => false

def Find.same (a b : Find) : Bool := a.collection == b.collection && a.template.same b.template

def Case.same (a b : Case) : Bool :=
  a.name == b.name && a.skip == b.skip && a.url == b.url && a.post.same b.post &&
    a.status == b.status && sameList Template.same a.out.toList b.out.toList &&
    sameList Find.same a.finds b.finds

def Document.same (a b : Document) : Bool :=
  a.name == b.name && a.skip == b.skip && sameList Setup.same a.setups b.setups &&
    sameList Case.same a.cases b.cases && a.collections == b.collections

end ApiContract
