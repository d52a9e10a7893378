namespace ApiContract

inductive Throughout {α : Type} (inside : α → List α) (P : α → Prop) : α → Prop
  | intro {a : α} (here : P a) (parts : ∀ part ∈ inside a, Throughout inside P part) :
    Throughout inside P a

namespace Throughout

variable {α : Type} {inside : α → List α} {P : α → Prop} {a : α}

theorem here (h : Throughout inside P a) : P a := by
  cases h
  assumption

theorem parts (h : Throughout inside P a) {part : α} (hp : part ∈ inside a) :
    Throughout inside P part := by
  cases h with
  | intro _ hall => exact hall part hp

theorem mono {Q : α → Prop} (h : Throughout inside P a) (hi : ∀ a, P a → Q a) :
    Throughout inside Q a := by
  induction h with
  | intro here _ ih => exact .intro (hi _ here) ih

end Throughout

theorem throughout_iff {α : Type} {inside : α → List α} {P : α → Prop} {a : α} :
    Throughout inside P a ↔ P a ∧ ∀ part ∈ inside a, Throughout inside P part :=
  ⟨fun h => ⟨h.here, fun _ => h.parts⟩, fun h => .intro h.1 h.2⟩

theorem throughout_iff_of_leaf {α : Type} {inside : α → List α} {P : α → Prop} {a : α}
    (h : inside a = []) : Throughout inside P a ↔ P a := by
  rw [throughout_iff, h]
  simp

end ApiContract
