import Mathlib.Data.List.MinMax
import Mathlib.Order.Nat
import ApiContract.Proofs.Template.Descent

namespace ApiContract.Template

/-- How many templates there are on the longest way from a template to one without parts. -/
def depth (t : Template) : Nat := (t.parts.attach.map fun part => depth part.1).foldr max 0 + 1
termination_by sizeOf t
decreasing_by exact sizeOf_lt_of_mem_parts part.2

theorem depth_le_succ {t : Template} {n : Nat} (h : ∀ part ∈ t.parts, part.depth ≤ n) :
    t.depth ≤ n + 1 := by
  rw [depth]
  apply Nat.succ_le_succ
  apply List.max_le_of_forall_le
  intro k hk
  obtain ⟨⟨part, hp⟩, -, rfl⟩ := List.mem_map.mp hk
  exact h part hp

/-- What is read, or a fault, or nothing at all as long as there are calls without an answer. -/
abbrev Attempt (α : Type) := ExceptT Fault Option α

def attempted {α : Type} (found : Except Fault α) : Attempt α := ExceptT.mk (some found)

theorem attempted_bind {α β : Type} (found : Except Fault α) (next : α → Except Fault β) :
    attempted (found >>= next) = attempted found >>= fun a => attempted (next a) := by
  cases found <;> rfl

theorem attempted_bind_congr {α β : Type} {found : Except Fault α} {next other : α → Attempt β}
    (h : ∀ a, found = .ok a → next a = other a) :
    (attempted found >>= next) = attempted found >>= other := by
  cases found with
  | error fault => rfl
  | ok a => exact h a rfl

theorem attempted_traverse {α β : Type} (xs : List α) (f : α → Except Fault β) :
    attempted (traverse xs fun x _ => f x) = xs.mapM fun x => attempted (f x) := by
  induction xs with
  | nil => rfl
  | cons x xs ih =>
    rw [List.mapM_cons, ← ih, traverse]
    cases f x with
    | error fault => rfl
    | ok y => cases traverse xs fun x _ => f x <;> rfl

theorem mapM_congr {α β : Type} {m : Type → Type} [Monad m] [LawfulMonad m] {xs : List α}
    {f g : α → m β} (h : ∀ x ∈ xs, f x = g x) : xs.mapM f = xs.mapM g := by
  induction xs with
  | nil => rfl
  | cons x xs ih =>
    rw [List.mapM_cons, List.mapM_cons, h x List.mem_cons_self,
      ih fun y hy => h y (List.mem_cons_of_mem x hy)]

namespace Group

/-- One step of the reading, which leaves what is gathered from the lines to `read`. -/
def readBy (read : Group → Attempt Template) (group : Group) : Attempt Template :=
  match group.lines with
  | [] => attempted (.error (.emptyValue group.origin))
  | first :: more =>
    if first.text.head? = some '*' then do
      let groups ← attempted (bullets (first :: more))
      return array (← groups.mapM read)
    else if isKeyLine first.text then do
      let groups ← attempted (slots Opening.key? [] (first :: more))
      return ofGroups (← groups.mapM fun g => do
        return (String.ofList g.name, Slot.mk g.optional (← read g)))
    else
      match MixinOpening.ofChars? first.text with
      | some opening => do
        let draft ← attempted (Draft.ofOpening opening first more group.inline)
        return mixin draft.base draft.removals (← draft.additions.mapM fun g => do
          let path ← attempted (Draft.pathAt g.origin g.name)
          return (path, Slot.mk g.optional (← read g)))
      | none =>
        attempted
          (if more.isEmpty then ofLine first else .error (.invalidSyntax (Line.spanOf first more)))

/-- The reading with no more than so many calls inside of each other. -/
def readWithin : Nat → Group → Attempt Template
  | 0, _ => ExceptT.mk none
  | calls + 1, group => readBy (readWithin calls) group

variable {group : Group} {t : Template}

theorem readBy_congr {read other : Group → Attempt Template}
    (h : ∀ g ∈ group.gathered, read g = other g) : group.readBy read = group.readBy other := by
  rw [readBy, readBy]
  split
  · rfl
  · rename_i first more hl
    cases lead first.text with
    | bullet hs =>
      rw [if_pos hs, if_pos hs]
      apply attempted_bind_congr
      intro groups hgroups
      rw [gathered_of_bullet hl hs, hgroups] at h
      have hread : ∀ g ∈ groups, read g = other g := h
      rw [mapM_congr hread]
    | key hs hk =>
      rw [if_neg hs, if_pos hk, if_neg hs, if_pos hk]
      apply attempted_bind_congr
      intro groups hgroups
      rw [gathered_of_key hl hs hk, hgroups] at h
      have hread : ∀ g ∈ groups, read g = other g := h
      rw [mapM_congr fun g hg => by rw [hread g hg]]
    | mixin hs hk ho =>
      simp only [hs, hk, ho, Bool.false_eq_true, ↓reduceIte]
      apply attempted_bind_congr
      intro draft hdraft
      rw [gathered_of_mixin hl hs hk ho, hdraft] at h
      have hread : ∀ g ∈ draft.additions, read g = other g := h
      rw [mapM_congr fun g hg => by rw [hread g hg]]
    | other hs hk ho => simp only [hs, hk, ho, Bool.false_eq_true, ↓reduceIte]

theorem readBy_read : group.readBy (fun g => attempted g.read) = attempted group.read := by
  rw [readBy, read]
  split
  · rename_i hl
    rw [hl, ofLines]
  · rename_i first more hl
    rw [hl]
    cases lead first.text with
    | bullet hs =>
      rw [if_pos hs, ofLines_of_bullet hs]
      simp only [attempted_bind, attempted_traverse]
      rfl
    | key hs hk =>
      rw [if_neg hs, if_pos hk, ofLines_of_key hs hk]
      simp only [attempted_bind, attempted_traverse, readEntry]
      rfl
    | mixin hs hk ho =>
      simp only [hs, hk, ho, Bool.false_eq_true, ↓reduceIte, ofLines_of_mixin hs hk ho,
        attempted_bind, attempted_traverse, readAddition]
      rfl
    | other hs hk ho =>
      simp only [hs, hk, ho, Bool.false_eq_true, ↓reduceIte, ofLines_of_other hs hk ho]

theorem readWithin_eq {calls : Nat} (h : Line.weight group.lines < calls) :
    readWithin calls group = attempted group.read := by
  induction calls generalizing group with
  | zero => cases h
  | succ calls ih =>
    rw [readWithin, ← readBy_read]
    apply readBy_congr
    intro g hg
    exact ih (Nat.lt_of_lt_of_le (weight_lt_of_mem_gathered hg) (Nat.le_of_lt_succ h))

theorem weight_ne_zero_of_read (h : group.read = .ok t) : Line.weight group.lines ≠ 0 := by
  intro hweight
  obtain ⟨name, optional, origin, inline, lines⟩ := group
  cases lines with
  | nil =>
    rw [read, ofLines] at h
    cases h
  | cons first more =>
    obtain ⟨number, text⟩ := first
    obtain rfl : text = [] :=
      List.eq_nil_of_length_eq_zero (Nat.eq_zero_of_add_eq_zero_right hweight)
    have hstar : (⟨number, []⟩ : Line).text.head? ≠ some '*' := by simp
    obtain ⟨-, hline⟩ := (ofLines_single hstar rfl rfl).mp h
    cases hline

/-- Every template takes a character, beside those of its parts. -/
theorem depth_le_weight (h : group.read = .ok t) : t.depth ≤ Line.weight group.lines := by
  induction t using induction_on_parts generalizing group with
  | step t ih =>
    obtain ⟨n, hn⟩ := Nat.exists_eq_succ_of_ne_zero (weight_ne_zero_of_read h)
    rw [hn]
    apply depth_le_succ
    intro part hp
    obtain ⟨g, hg, hread⟩ := exists_gathered_of_mem_parts h hp
    have hlt := weight_lt_of_mem_gathered hg
    exact Nat.le_of_lt_succ (hn ▸ Nat.lt_of_le_of_lt (ih part hp hread) hlt)

/-- How the reading of a group comes to its end: groups that are handed on are lighter, nothing else
is handed on, and the calls inside of each other are no more than the characters, and one. -/
structure Ends (group : Group) : Prop where
  lighter : ∀ g ∈ group.gathered, Line.weight g.lines < Line.weight group.lines
  handed : ∀ read other : Group → Attempt Template, (∀ g ∈ group.gathered, read g = other g) →
    group.readBy read = group.readBy other
  within : readWithin (Line.weight group.lines + 1) group = attempted group.read
  depth : ∀ t, group.read = .ok t → t.depth ≤ Line.weight group.lines

theorem reading_ends : WellFounded (fun inner outer : Group => inner ∈ outer.gathered) ∧
    ∀ group : Group, group.Ends := by
  refine ⟨wellFounded_gathered, fun group => ?_⟩
  exact {
    lighter := fun g => weight_lt_of_mem_gathered
    handed := fun read other => readBy_congr
    within := readWithin_eq (Nat.lt_succ_self _)
    depth := fun t => depth_le_weight }

end Group

end ApiContract.Template
