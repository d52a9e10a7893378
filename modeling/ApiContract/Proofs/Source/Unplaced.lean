import Mathlib.Data.List.Basic
import ApiContract.Source.Fault
import ApiContract.Source.Token
import ApiContract.Traverse

namespace ApiContract

/-- What a fault is and says, apart from where. -/
def Fault.unplaced : Fault → Fault
  | expectedHeader _ => expectedHeader (Span.line 0)
  | missingSetup _ => missingSetup (Span.line 0)
  | missingCases _ => missingCases (Span.line 0)
  | expected _ what => expected (Span.line 0) what
  | expectedBlock _ => expectedBlock (Span.line 0)
  | unexpectedBlock _ => unexpectedBlock (Span.line 0)
  | clearedTwice _ _ => clearedTwice (Span.line 0) (Span.line 0)
  | clearedAfterInsertion _ _ => clearedAfterInsertion (Span.line 0) (Span.line 0)
  | unknownCollection _ collection => unknownCollection (Span.line 0) collection
  | expectedTab _ => expectedTab (Span.line 0)
  | duplicateKey _ _ key => duplicateKey (Span.line 0) (Span.line 0) key
  | invalidPath _ path => invalidPath (Span.line 0) path
  | trailingText _ text => trailingText (Span.line 0) text
  | emptyValue _ => emptyValue (Span.line 0)
  | invalidSyntax _ => invalidSyntax (Span.line 0)

/-- A result without its places, those of its fault or, by way of `f`, those of its answer. -/
def unplacing {α β : Type} (f : α → β) (result : Except Fault α) : Except Fault β :=
  (result.map f).mapError Fault.unplaced

section Results

variable {α α' β β' : Type}

@[simp] theorem unplacing_ok (f : α → β) (a : α) : unplacing f (.ok a) = .ok (f a) := rfl

@[simp] theorem unplacing_error (f : α → β) (fault : Fault) :
    unplacing f (.error fault) = .error fault.unplaced := rfl

theorem unplacing_id (result : Except Fault α) :
    unplacing id result = result.mapError Fault.unplaced := by
  cases result <;> rfl

theorem unplacing_bind {first : Except Fault α} {next : α → Except Fault β}
    {next' : α' → Except Fault β'} {f : α → α'} {g : β → β'}
    (h : ∀ a, first = .ok a → next' (f a) = unplacing g (next a)) :
    (unplacing f first >>= next') = unplacing g (first >>= next) := by
  cases first with
  | error fault => rfl
  | ok a => exact h a rfl

theorem traverse_cons {ε : Type} (step : α → Except ε β) (x : α) (xs : List α) :
    (traverse (x :: xs) fun z _ => step z) =
      step x >>= fun y => (traverse xs fun z _ => step z) >>= fun ys => .ok (y :: ys) := by
  rw [traverse]
  cases step x with
  | error e => rfl
  | ok y => cases (traverse xs fun z _ => step z) <;> rfl

theorem traverse_unplacing {f : α → α'} {xs : List α} {step : α → Except Fault β}
    {step' : α' → Except Fault β} (h : ∀ x ∈ xs, step' (f x) = unplacing id (step x)) :
    (traverse (xs.map f) fun x _ => step' x) = unplacing id (traverse xs fun x _ => step x) := by
  induction xs with
  | nil => rfl
  | cons x xs ih =>
    obtain ⟨hx, hxs⟩ := List.forall_mem_cons.mp h
    rw [List.map_cons, traverse_cons, traverse_cons, hx, ih hxs]
    exact unplacing_bind fun y _ => unplacing_bind fun ys _ => rfl

end Results

namespace Line

def unplaced (line : Line) : Line := ⟨0, line.text⟩

variable {first : Line} {lines more : List Line}

@[simp] theorem text_unplaced (line : Line) : line.unplaced.text = line.text := rfl

@[simp] theorem span_unplaced (line : Line) : line.unplaced.span = Span.line 0 := rfl

@[simp] theorem dedent_unplaced (line : Line) : line.unplaced.dedent = line.dedent.unplaced := rfl

@[simp] theorem isIndented_unplaced (line : Line) : line.unplaced.isIndented = line.isIndented := rfl

theorem spanOf_unplaced (first : Line) (more : List Line) :
    spanOf first.unplaced (more.map unplaced) = Span.line 0 := by
  rw [spanOf, List.getLast?_map]
  cases more.getLast? <;> rfl

theorem map_dedent_unplaced (lines : List Line) :
    (lines.map unplaced).map dedent = (lines.map dedent).map unplaced := by
  rw [List.map_map, List.map_map]
  rfl

theorem map_unplaced_congr (h : lines.map text = more.map text) :
    lines.map unplaced = more.map unplaced := by
  have hmk : ∀ lines : List Line, lines.map unplaced = (lines.map text).map (Line.mk 0) := by
    intro lines
    rw [List.map_map]
    rfl
  rw [hmk, hmk, h]

end Line

namespace Token

def unplaced : Token → Token
  | heading level text _ => heading level text (Span.line 0)
  | block first more => block first.unplaced (more.map Line.unplaced)

@[simp] theorem span_unplaced (token : Token) : token.unplaced.span = Span.line 0 := by
  cases token with
  | heading => rfl
  | block first more => exact Line.spanOf_unplaced first more

end Token

end ApiContract
