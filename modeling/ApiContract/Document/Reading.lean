import ApiContract.Document.Basic
import ApiContract.Document.Heading
import ApiContract.Source.Token
import ApiContract.Template.Reading

namespace ApiContract.Document

inductive Registration
  | cleared (place : Span)
  | inserted (place : Span)

abbrev Registrations := Fields Registration

def readBlock (heading : Span) : List Token → Except Fault Template
  | .block first more :: _ => Template.ofBlock (first :: more) (Line.spanOf first more)
  | _ => .error (.expectedBlock heading)

structure Prepared where
  setups : List Setup
  registrations : Registrations

namespace Prepared

/-- A collection is cleared once, and before anything is inserted into it. -/
def clear (prepared : Prepared) (collection : String) (place : Span) : Except Fault Prepared :=
  match Fields.get? collection prepared.registrations with
  | some (.cleared earlier) => .error (.clearedTwice earlier place)
  | some (.inserted earlier) => .error (.clearedAfterInsertion earlier place)
  | none =>
    .ok ⟨prepared.setups ++ [.clear collection],
      Fields.set collection (.cleared place) prepared.registrations⟩

/-- The first insertion into a collection that is not registered yet clears it. -/
def insert (prepared : Prepared) (name collection : String) (template : Template) (place : Span) :
    Prepared :=
  let clears : List Setup :=
    if Fields.has collection prepared.registrations then [] else [.clear collection]
  ⟨prepared.setups ++ clears ++ [.insertion name collection template],
    Fields.set collection (.inserted place) prepared.registrations⟩

def declare (prepared : Prepared) (name : String) (template : Template) : Prepared :=
  { prepared with setups := prepared.setups ++ [.declaration name template] }

end Prepared

def setupForms : String :=
  "either \"### _docName_ in _collection_\", \"### Clear _collection_\" or \"### _varName_ is\""

def noBlock : List Token → Except Fault Unit
  | .block first more :: _ => .error (.unexpectedBlock (Line.spanOf first more))
  | _ => .ok ()

def readSetup (text : List Char) (place : Span) (behind : List Token) (prepared : Prepared) :
    Except Fault Prepared :=
  match Heading.clear? text with
  | some collection => do
    let next ← prepared.clear collection place
    noBlock behind
    .ok next
  | none =>
    match Heading.declaration? text with
    | some name => do .ok (prepared.declare name (← readBlock place behind))
    | none =>
      match Heading.insertion? text with
      | some (name, collection) => do
        .ok (prepared.insert name collection (← readBlock place behind) place)
      | none => .error (.expected place setupForms)

def skipBlock : List Token → List Token
  | .block _ _ :: tokens => tokens
  | tokens => tokens

theorem length_skipBlock_le (tokens : List Token) : (skipBlock tokens).length ≤ tokens.length := by
  unfold skipBlock
  split <;> simp

/-- The setup goes on to the next heading of the second level. -/
def readSetups (prepared : Prepared) : List Token → Except Fault (Prepared × List Token)
  | [] => .ok (prepared, [])
  | .heading level text place :: tokens =>
    if level = 2 then .ok (prepared, .heading level text place :: tokens)
    else if level = 3 then
      match readSetup text place tokens prepared with
      | .error fault => .error fault
      | .ok next => readSetups next (skipBlock tokens)
    else .error (.expected place "\"### ...\"")
  | .block first more :: _ => .error (.unexpectedBlock (Line.spanOf first more))
termination_by tokens => tokens.length
decreasing_by exact Nat.lt_succ_of_le (length_skipBlock_le tokens)

/-- The part of a case under a heading of the third level, if the next heading has that form. -/
def readPart {α : Type} (form? : List Char → Option α) (tokens : List Token) :
    Except Fault (Option (α × Template) × List Token) :=
  match tokens with
  | .heading 3 text place :: behind =>
    match form? text with
    | some a => do .ok (some (a, ← readBlock place behind), skipBlock behind)
    | none => .ok (none, tokens)
  | _ => .ok (none, tokens)

def findForm : String := "\"### Find in _collection_\""

def readFinds (registrations : Registrations) : List Token → Except Fault (List Find)
  | [] => .ok []
  | .heading level text place :: tokens =>
    if level = 3 then
      match Heading.find? text with
      | none => .error (.expected place findForm)
      | some collection =>
        if Fields.has collection registrations then
          match readBlock place tokens with
          | .error fault => .error fault
          | .ok template =>
            match readFinds registrations (skipBlock tokens) with
            | .error fault => .error fault
            | .ok finds => .ok (⟨collection, template⟩ :: finds)
        else .error (.unknownCollection place collection)
    else .error (.expected place findForm)
  | .block first more :: _ => .error (.expected (Line.spanOf first more) findForm)
termination_by tokens => tokens.length
decreasing_by exact Nat.lt_succ_of_le (length_skipBlock_le tokens)

def readCase (registrations : Registrations) (title : List Char) (tokens : List Token) :
    Except Fault Case := do
  let (name, skip) := Heading.splitSkip title
  let (post, tokens) ← readPart Heading.post? tokens
  let (out, tokens) ← readPart Heading.out? tokens
  let finds ← readFinds registrations tokens
  .ok {
    name := String.ofList name
    skip
    url := post.bind Prod.fst
    post := (post.map Prod.snd).getD Template.empty
    status := (out.bind Prod.fst).getD 200
    out := out.map Prod.snd
    finds }

def isTitle : Token → Bool
  | .heading level _ _ => level == 2
  | .block _ _ => false

/-- Every case starts at a heading of the second level and goes on to the next one. -/
def readCases (registrations : Registrations) : List Token → Except Fault (List Case)
  | [] => .ok []
  | token :: tokens =>
    match token with
    | .heading 2 title _ =>
      match readCase registrations title (tokens.takeWhile (!isTitle ·)) with
      | .error fault => .error fault
      | .ok c =>
        match readCases registrations (tokens.dropWhile (!isTitle ·)) with
        | .error fault => .error fault
        | .ok cases => .ok (c :: cases)
    | _ => .error (.expected token.span "\"## _caseName_\"")
termination_by tokens => tokens.length
decreasing_by exact Nat.lt_succ_of_le (List.dropWhile_sublist _).length_le

/-- The place of the setup's heading and the tokens behind it. What stands before is prose. -/
def skipToSetup : List Token → Option (Span × List Token)
  | [] => none
  | .heading 2 ['S', 'e', 't', 'u', 'p'] place :: tokens => some (place, tokens)
  | _ :: tokens => skipToSetup tokens

def ofTokens : List Token → Except Fault Document
  | .heading 1 title place :: tokens =>
    match skipToSetup tokens with
    | none => .error (.missingSetup ((tokens.head?.map Token.span).getD place))
    | some (setup, tokens) => do
      let (name, skip) := Heading.splitSkip title
      let (prepared, tokens) ← readSetups ⟨[], []⟩ tokens
      let cases ← readCases prepared.registrations tokens
      if cases.isEmpty then .error (.missingCases setup)
      else .ok ⟨String.ofList name, skip, prepared.setups, cases, prepared.registrations.keys⟩
  | token :: _ => .error (.expectedHeader token.span)
  | [] => .error (.expectedHeader (Span.line 0))

def ofChars (text : List Char) : Except Fault Document := ofTokens (Token.ofChars text)

def ofString (text : String) : Except Fault Document := ofChars text.toList

end ApiContract.Document
