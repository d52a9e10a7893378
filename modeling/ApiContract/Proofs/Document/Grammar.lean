import Mathlib.Data.List.Basic
import ApiContract.Proofs.Document.Heading
import ApiContract.Document.Reading

namespace ApiContract

def Setup.collection? : Setup → Option String
  | clear collection => some collection
  | insertion _ collection _ => some collection
  | declaration _ _ => none

namespace Document

open Heading

def touched (items : List Setup) : List String := items.filterMap Setup.collection?

/-- What an item does before it does what it says. -/
def implied (known : List String) : Setup → List Setup
  | .insertion _ collection _ => if collection ∈ known then [] else [.clear collection]
  | _ => []

/-- The setups that items stand for, when some collections are known already. -/
def expand (known : List String) : List Setup → List Setup
  | [] => []
  | item :: items =>
    implied known item ++ item :: expand (known ++ item.collection?.toList) items

/-- No collection is cleared twice, and none after an insertion into it. -/
def Orderly (items : List Setup) : Prop :=
  items.Pairwise fun earlier later =>
    ∀ collection, later = .clear collection → earlier.collection? ≠ some collection

/-- The collections of some items without repetition, in the order of their names. -/
structure Lists (collections : List String) (items : List Setup) : Prop where
  sorted : collections.Pairwise (· < ·)
  mem : ∀ collection, collection ∈ collections ↔ collection ∈ touched items

def Block (first : Line) (more : List Line) (template : Template) : Prop :=
  Template.ofBlock (first :: more) (Line.spanOf first more) = .ok template

/-- The items of a setup, given which headings declare a variable. -/
inductive Items (Declares : List Char → String → Prop) : List Token → List Setup → Prop
  | nil : Items Declares [] []
  | clear {text : List Char} {place : Span} {collection : String} {tokens : List Token}
    {items : List Setup} (heading : IsClear text collection) (rest : Items Declares tokens items) :
    Items Declares (.heading 3 text place :: tokens) (.clear collection :: items)
  | declaration {text : List Char} {place : Span} {name : String} {first : Line}
    {more : List Line} {template : Template} {tokens : List Token} {items : List Setup}
    (heading : Declares text name) (block : Block first more template)
    (rest : Items Declares tokens items) :
    Items Declares (.heading 3 text place :: .block first more :: tokens)
      (.declaration name template :: items)
  | insertion {text : List Char} {place : Span} {name collection : String} {first : Line}
    {more : List Line} {template : Template} {tokens : List Token} {items : List Setup}
    (heading : IsInsertion text name collection) (block : Block first more template)
    (rest : Items Declares tokens items) :
    Items Declares (.heading 3 text place :: .block first more :: tokens)
      (.insertion name collection template :: items)

inductive Part {α : Type} (Form : List Char → α → Prop) :
    List Token → Option (α × Template) → Prop
  | absent : Part Form [] none
  | present {text : List Char} {place : Span} {a : α} {first : Line} {more : List Line}
    {template : Template} (heading : Form text a) (block : Block first more template) :
    Part Form [.heading 3 text place, .block first more] (some (a, template))

inductive Finds : List Token → List Find → Prop
  | nil : Finds [] []
  | cons {text : List Char} {place : Span} {collection : String} {first : Line}
    {more : List Line} {template : Template} {tokens : List Token} {finds : List Find}
    (heading : IsFind text collection) (block : Block first more template)
    (rest : Finds tokens finds) :
    Finds (.heading 3 text place :: .block first more :: tokens)
      (⟨collection, template⟩ :: finds)

def caseOf (title : List Char) (post : Option (Option String × Template))
    (out : Option (Option Nat × Template)) (finds : List Find) : Case where
  name := String.ofList (splitSkip title).1
  skip := (splitSkip title).2
  url := post.bind Prod.fst
  post := (post.map Prod.snd).getD Template.empty
  status := (out.bind Prod.fst).getD 200
  out := out.map Prod.snd
  finds

inductive Body (title : List Char) : List Token → Case → Prop
  | intro {p o f : List Token} {post : Option (Option String × Template)}
    {out : Option (Option Nat × Template)} {finds : List Find} (hpost : Part IsPost p post)
    (hout : Part IsOut o out) (hfinds : Finds f finds) :
    Body title (p ++ (o ++ f)) (caseOf title post out finds)

inductive Cases : List Token → List Case → Prop
  | nil : Cases [] []
  | cons {title : List Char} {place : Span} {body tokens : List Token} {c : Case}
    {cases : List Case} (here : Body title body c) (rest : Cases tokens cases) :
    Cases (.heading 2 title place :: (body ++ tokens)) (c :: cases)

def IsSetup (token : Token) : Prop := ∃ place, token = .heading 2 "Setup".toList place

/-- The tokens of a document: a title, prose, the setup, and cases that find only in collections
of the setup. -/
inductive Derives (Declares : List Char → String → Prop) : List Token → Document → Prop
  | intro {title : List Char} {place setup : Span} {prose s c : List Token}
    {items : List Setup} {cases : List Case} {collections : List String}
    (hprose : ∀ token ∈ prose, ¬ IsSetup token) (hitems : Items Declares s items)
    (horderly : Orderly items) (hcases : Cases c cases) (hne : cases ≠ [])
    (hlists : Lists collections items)
    (hknown : ∀ c ∈ cases, ∀ find ∈ c.finds, find.collection ∈ collections) :
    Derives Declares
      (.heading 1 title place :: (prose ++ .heading 2 "Setup".toList setup :: (s ++ c)))
      ⟨String.ofList (splitSkip title).1, (splitSkip title).2, expand [] items, cases, collections⟩

end Document

end ApiContract
