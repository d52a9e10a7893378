import ApiContract.Proofs.Source.Lines
import ApiContract.Source.Fault
import ApiContract.Traverse

namespace ApiContract

variable {count : Nat}

structure Span.Inside (count : Nat) (span : Span) : Prop where
  nonempty : span.start < span.stop
  stop_le : span.stop ≤ count

def Fault.Inside (count : Nat) (fault : Fault) : Prop := ∀ span ∈ fault.spans, span.Inside count

def Located {α : Type} (count : Nat) (result : Except Fault α) : Prop :=
  ∀ fault, result = .error fault → fault.Inside count

theorem located_ok {α : Type} (a : α) : Located count (.ok a) := fun _ h => by cases h

theorem located_error {α : Type} {fault : Fault} (h : fault.Inside count) :
    Located (α := α) count (.error fault) := fun _ he => by cases he; exact h

theorem Located.bind {α β : Type} {first : Except Fault α} {next : α → Except Fault β}
    (h : Located count first) (hn : ∀ a, first = .ok a → Located count (next a)) :
    Located count (first >>= next) := by
  cases first with
  | error fault => exact located_error (h fault rfl)
  | ok a => exact hn a rfl

theorem Located.traverse {α β : Type} {xs : List α} {step : (x : α) → x ∈ xs → Except Fault β}
    (h : ∀ x hx, Located count (step x hx)) : Located count (traverse xs step) := by
  induction xs with
  | nil => exact located_ok []
  | cons x xs ih =>
    rw [ApiContract.traverse]
    split
    · rename_i fault he
      exact located_error (h x _ fault he)
    · split
      · rename_i fault he
        exact located_error (ih (fun z hz => h z _) fault he)
      · exact located_ok _

namespace Line

/-- Lines of a source, in its order but not necessarily without gaps. -/
structure Placed (count : Nat) (lines : List Line) : Prop where
  ascending : lines.Pairwise (·.number < ·.number)
  lt : ∀ line ∈ lines, line.number < count

variable {line first : Line} {lines more : List Line}

theorem Placed.nil : Placed count [] := ⟨.nil, by simp⟩

theorem placed_cons : Placed count (line :: lines) ↔
    line.number < count ∧ (∀ other ∈ lines, line.number < other.number) ∧ Placed count lines := by
  constructor
  · rintro ⟨ha, hl⟩
    obtain ⟨hline, hlines⟩ := List.pairwise_cons.mp ha
    exact ⟨hl line (by simp), hline, hlines, fun other ho => hl other (by simp [ho])⟩
  · rintro ⟨hl, hline, h⟩
    exact ⟨List.pairwise_cons.mpr ⟨hline, h.ascending⟩, List.forall_mem_cons.mpr ⟨hl, h.lt⟩⟩

theorem Placed.sublist (h : Placed count lines) (hs : more.Sublist lines) : Placed count more :=
  ⟨h.ascending.sublist hs, fun line hm => h.lt line (hs.subset hm)⟩

theorem placed_numbered (start : Nat) (rows : List (List Char)) :
    Placed (start + rows.length) (numbered start rows) ∧
      ∀ line ∈ numbered start rows, start ≤ line.number := by
  induction rows generalizing start with
  | nil => exact ⟨.nil, by simp [numbered]⟩
  | cons row rows ih =>
    obtain ⟨hplaced, hle⟩ := ih (start + 1)
    rw [List.length_cons, Nat.add_comm rows.length, ← Nat.add_assoc]
    refine ⟨placed_cons.mpr ⟨by simp only; omega, fun other ho => hle other ho, hplaced⟩, ?_⟩
    exact List.forall_mem_cons.mpr
      ⟨Nat.le_refl start, fun other ho => Nat.le_of_succ_le (hle other ho)⟩

end Line

namespace Token

def Placed (count : Nat) : Token → Prop
  | heading _ _ span => span.Inside count
  | block first more => Line.Placed count (first :: more)

end Token

end ApiContract
