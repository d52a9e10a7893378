import ApiContract.Run.Failure
import ApiContract.Text.Blank
import ApiContract.Value.Layout

namespace ApiContract.Failure

structure Section where
  heading : String
  value : Value
  highlight : Option String

/-- The index that a segment of a path text stands for, perhaps behind a plus. -/
def index? (s : List Char) : Option Nat :=
  let digits := match s with
    | '+' :: rest => rest
    | s => s
  if !digits.isEmpty && digits.all Char.isDigit then some (Nat.ofDigitChars 10 digits 0) else none

def passesUnordered : List (List Char) → Value → Bool
  | [], _ => false
  | segment :: path, value =>
    match value with
    | .object fields =>
      match Fields.get? (String.ofList segment) fields with
      | some child => passesUnordered path child
      | none => false
    | .ordered items =>
      match (index? segment).bind (items[·]?) with
      | some child => passesUnordered path child
      | none => false
    | .array _ => true
    | _ => false

/-- The place in the received value. Behind an array whose order does not count a path says nothing
about it, since the indices there are those of expected items. -/
def receivedPath (expected : Value) (path : String) : Option String :=
  if passesUnordered (Text.pieces '.' path.toList) expected then none else some path

def candidateSections (expected : Value) (number : Nat) : List (Value × Mismatch) → List Section
  | [] => []
  | (candidate, mismatch) :: candidates =>
    ⟨"Candidate " ++ toString number ++ " (" ++ mismatch.described ++ ")", candidate,
        receivedPath expected mismatch.path⟩ ::
      candidateSections expected (number + 1) candidates

def sections : Failure → List Section
  | status _ _ body => [⟨"Response", body, none⟩]
  | output mismatch post actual expected =>
    [⟨"Posted", post, none⟩,
      ⟨"Received", actual, receivedPath expected mismatch.path⟩,
      ⟨"Expected", expected, some mismatch.path⟩]
  | findById _ mismatch actual expected =>
    [⟨"Stored", actual, receivedPath expected mismatch.path⟩,
      ⟨"Expected", expected, some mismatch.path⟩]
  | notFound _ expected candidates =>
    ⟨"Expected", expected, none⟩ :: candidateSections expected 1 candidates
  | _ => []

def Section.text (renderer : Renderer) (part : Section) : String :=
  "\n" ++ part.heading ++ ":\n" ++ part.value.print part.highlight renderer ++ "\n"

def report (renderer : Renderer) (title : String) (failure : Failure) : String :=
  let text := title ++ " failed: " ++ failure.message ++ "\n"
    ++ String.join (failure.sections.map (Section.text renderer))
  String.ofList (Text.trimEnd text.toList)

end ApiContract.Failure
