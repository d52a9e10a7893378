import ApiContract.Text.Pieces

namespace ApiContract

/-- Lines from `start` up to `stop`, which is not included; the first line has number zero. -/
structure Span where
  start : Nat
  stop : Nat
  deriving DecidableEq

namespace Span

def line (number : Nat) : Span := ⟨number, number + 1⟩

def join (a b : Span) : Span := ⟨min a.start b.start, max a.stop b.stop⟩

def covers (span : Span) (number : Nat) : Bool := span.start ≤ number && number < span.stop

end Span

structure Line where
  number : Nat
  text : List Char
  deriving DecidableEq

namespace Line

def span (line : Line) : Span := Span.line line.number

def isIndented (line : Line) : Bool := line.text.head? == some '\t'

def dedent (line : Line) : Line := { line with text := line.text.drop 1 }

def spanOf (first : Line) (more : List Line) : Span :=
  ⟨first.number, ((more.getLast?).getD first).number + 1⟩

def weight : List Line → Nat
  | [] => 0
  | line :: lines => line.text.length + weight lines

def numbered (start : Nat) : List (List Char) → List Line
  | [] => []
  | text :: texts => ⟨start, text⟩ :: numbered (start + 1) texts

theorem weight_nil : weight [] = 0 := rfl

theorem weight_cons (line : Line) (lines : List Line) :
    weight (line :: lines) = line.text.length + weight lines := rfl

theorem weight_append (as bs : List Line) : weight (as ++ bs) = weight as + weight bs := by
  induction as with
  | nil => simp [weight]
  | cons line as ih => simp [weight, ih, Nat.add_assoc]

theorem length_dedent (line : Line) : line.dedent.text.length = line.text.length - 1 := by
  simp [dedent]

theorem weight_map_dedent_le (lines : List Line) : weight (lines.map dedent) ≤ weight lines := by
  induction lines with
  | nil => simp [weight]
  | cons line lines ih =>
    have h := length_dedent line
    simp only [List.map_cons, weight_cons]
    omega

theorem weight_takeWhile_add_dropWhile (p : Line → Bool) (lines : List Line) :
    weight (lines.takeWhile p) + weight (lines.dropWhile p) = weight lines := by
  rw [← weight_append, List.takeWhile_append_dropWhile]

end Line

namespace Text

/-- The carriage return before a line feed belongs to the line's end. -/
def dropReturn (s : List Char) : List Char :=
  if s.getLast? = some '\r' then s.dropLast else s

/-- The lines of a text: each ends with a line feed, the last one perhaps with the text. -/
def lines (text : List Char) : List (List Char) :=
  let ps := pieces '\n' text
  let last := (ps.getLast?).getD []
  ps.dropLast.map dropReturn ++ if last.isEmpty then [] else [last]

end Text

end ApiContract
