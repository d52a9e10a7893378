import ApiContract.Proofs.Bind
import ApiContract.Proofs.Value.Removal
import ApiContract.Template.Evaluation

namespace ApiContract.Template

open Value

def addressed (removals : List Path) (base : Value) (place : Path) : Bool :=
  removals.any fun path => (base.targets path).contains place

/-- No path reads the index of an item that has moved or gone: up to that index the paths before it
have left the array as it was. -/
def InStep (removals : List Path) (base : Value) : Prop :=
  ∀ before path after, removals = before ++ path :: after →
    Undisturbed (addressed before base) path base

variable {label walked : String} {removals removals' before after : List Path} {path : Path}
  {base value left : Value}

theorem removeAll_nil_eq_ok_iff : removeAll label walked [] base = .ok value ↔ base = value := by
  rw [removeAll, Except.ok.injEq]

theorem removeAll_cons : removeAll label walked (path :: removals) base =
    (base.remove walked path).mapError (.mixin label) >>= removeAll label walked removals := by
  rw [removeAll]
  cases base.remove walked path <;> rfl

theorem removeAll_cons_eq_ok_iff : removeAll label walked (path :: removals) base = .ok value ↔
    ∃ left, base.remove walked path = .ok left ∧
      removeAll label walked removals left = .ok value := by
  simp only [removeAll_cons, bind_eq_ok_iff, mapError_eq_ok_iff]

theorem removeAll_append : removeAll label walked (before ++ after) base =
    removeAll label walked before base >>= removeAll label walked after := by
  induction before generalizing base with
  | nil => rfl
  | cons path before ih =>
    rw [List.cons_append, removeAll_cons, removeAll_cons, bind_assoc]
    congr 1
    funext left
    exact ih

theorem removeAll_append_eq_ok_iff :
    removeAll label walked (before ++ after) base = .ok value ↔
      ∃ left, removeAll label walked before base = .ok left ∧
        removeAll label walked after left = .ok value := by
  rw [removeAll_append, bind_eq_ok_iff]

theorem remove_eq_without (hbase : base.Tidy) (h : base.remove walked path = .ok value) :
    value = base.without fun place => decide (place ∈ base.targets path) :=
  (edit_eq_ok_iff.mp h : Edited removal path base value).eq_without hbase

theorem tidy_of_removeAll (hbase : base.Tidy)
    (h : removeAll label walked removals base = .ok value) : value.Tidy := by
  induction removals generalizing base with
  | nil => exact removeAll_nil_eq_ok_iff.mp h ▸ hbase
  | cons path removals ih =>
    obtain ⟨left, hleft, hvalue⟩ := removeAll_cons_eq_ok_iff.mp h
    exact ih (remove_eq_without hbase hleft ▸ hbase.without) hvalue

theorem addressed_cons (place : Path) : addressed (path :: removals) base place =
    (decide (place ∈ base.targets path) || addressed removals base place) := by
  rw [addressed, List.any_cons, List.contains_eq_mem, addressed]

theorem addressed_perm (h : removals.Perm removals') :
    addressed removals base = addressed removals' base :=
  funext fun _ => h.any_eq

theorem inStep_singleton : InStep [path] base := by
  intro before next after hsplit
  obtain ⟨rfl, -⟩ | ⟨-, hnone⟩ := List.append_eq_singleton_iff.mp hsplit.symm
  · exact fun _ _ _ _ _ _ _ _ _ => rfl
  · cases hnone

theorem inStep_concat_iff : InStep (removals ++ [path]) base ↔
    InStep removals base ∧ Undisturbed (addressed removals base) path base := by
  constructor
  · exact fun h => ⟨fun before next after hsplit =>
      h before next (after ++ [path]) (by simp [hsplit]), h removals path [] rfl⟩
  · rintro ⟨hremovals, hpath⟩ before next after hsplit
    obtain rfl | ⟨after, last, rfl⟩ := List.eq_nil_or_concat' after
    · obtain ⟨rfl, hlast⟩ := List.append_inj' hsplit rfl
      cases hlast
      exact hpath
    · rw [← List.cons_append, ← List.append_assoc] at hsplit
      exact hremovals before next after (List.append_inj' hsplit rfl).1

/-- Paths in step with what is gone take away what they address in the whole value. -/
theorem removeAll_without {gone : Path → Bool} (hbase : base.Tidy)
    (hs : ∀ before path after, removals = before ++ path :: after →
      Undisturbed (fun place => gone place || addressed before base place) path base)
    (h : removeAll label walked removals (base.without gone) = .ok value) :
    value = base.without fun place => gone place || addressed removals base place := by
  induction removals generalizing gone with
  | nil =>
    rw [← removeAll_nil_eq_ok_iff.mp h]
    simp [addressed]
  | cons path removals ih =>
    obtain ⟨left, hleft, hvalue⟩ := removeAll_cons_eq_ok_iff.mp h
    have hfirst : Undisturbed gone path base := by simpa [addressed] using hs [] path removals rfl
    have hleft : left = base.without (also gone (base.targets path)) :=
      (edit_eq_ok_iff.mp hleft : Edited removal path _ left).removed hbase hfirst
    have hshift : ∀ removals, (fun place => also gone (base.targets path) place ||
        addressed removals base place) = fun place =>
          gone place || addressed (path :: removals) base place := fun removals => by
      funext place
      rw [addressed_cons, also, Bool.or_assoc]
    subst hleft
    rw [ih (fun before next after hsplit => ?_) hvalue, hshift]
    rw [hshift]
    exact hs (path :: before) next after (by rw [hsplit, List.cons_append])

theorem removeAll_of_inStep (hbase : base.Tidy) (hs : InStep removals base)
    (h : removeAll label walked removals base = .ok value) :
    value = base.without (addressed removals base) := by
  have hnone : base.without (fun _ => false) = base := without_of_none (fun _ _ => rfl) base
  rw [← hnone] at h
  have hvalue : value = base.without fun place => false || addressed removals base place :=
    removeAll_without hbase hs h
  exact hvalue

/-- Each removal takes away the places that its path addresses in what the ones before it have left.
Where the paths are in step with each other, these are the places that they address in the base, and
then their order does not matter. -/
theorem removeAll_means (label walked : String) {removals : List Path} {base value : Value}
    (hbase : base.Tidy) (h : removeAll label walked removals base = .ok value) :
    (∀ before path after, removals = before ++ path :: after → ∃ left,
      removeAll label walked before base = .ok left ∧
        removeAll label walked (before ++ [path]) base =
          .ok (left.without fun place => decide (place ∈ left.targets path))) ∧
    (InStep removals base → value = base.without (addressed removals base)) ∧
    ∀ removals' value', removals.Perm removals' → InStep removals base → InStep removals' base →
      removeAll label walked removals' base = .ok value' → value' = value := by
  refine ⟨?_, fun hs => removeAll_of_inStep hbase hs h, ?_⟩
  · rintro before path after rfl
    obtain ⟨left, hleft, hrest⟩ := removeAll_append_eq_ok_iff.mp h
    obtain ⟨next, hnext, -⟩ := removeAll_cons_eq_ok_iff.mp hrest
    refine ⟨left, hleft, removeAll_append_eq_ok_iff.mpr ⟨left, hleft, ?_⟩⟩
    rw [← remove_eq_without (tidy_of_removeAll hbase hleft) hnext]
    exact removeAll_cons_eq_ok_iff.mpr ⟨next, hnext, rfl⟩
  · intro removals' value' horder hs hs' h'
    rw [removeAll_of_inStep hbase hs h, removeAll_of_inStep hbase hs' h', addressed_perm horder]

theorem removeAll_means_from_behind :
    let base : Value := .array [.string "a", .string "b", .string "c"]
    let removals : List Path := [[.index 1], [.index 0]]
    base.Tidy ∧ InStep removals base ∧
      removeAll "it is" "u" removals base = .ok (.array [.string "c"]) ∧
        .array [.string "c"] = base.without (addressed removals base) := by
  intro base removals
  have hbase : base.Tidy := by simp [base, Tidy, Keyed]
  have hsteps : InStep ([[.index 1]] ++ [[.index 0]]) base := by
    refine inStep_concat_iff.mpr
      ⟨inStep_singleton, fun front i back place hpath hplace _ j hj => ?_⟩
    obtain ⟨rfl, hlast⟩ | ⟨-, hnone⟩ := List.append_eq_singleton_iff.mp hpath.symm
    · obtain ⟨hi, -⟩ := List.cons.inj hlast
      cases hi
      obtain rfl : place = [] := by simpa using hplace
      obtain rfl := Nat.le_zero.mp hj
      rfl
    · cases hnone
  exact ⟨hbase, hsteps, rfl, (removeAll_means "it is" "u" hbase rfl).2.1 hsteps⟩

/-- From the front, the second index is read in what the first removal has left. -/
theorem removeAll_order_counts :
    let base : Value := .array [.string "a", .string "b", .string "c"]
    let removals : List Path := [[.index 0], [.index 1]]
    removeAll "it is" "u" removals base = .ok (.array [.string "b"]) ∧
      base.without (addressed removals base) = .array [.string "c"] ∧
        removeAll "it is" "u" removals.reverse base = .ok (.array [.string "c"]) :=
  ⟨rfl, rfl, rfl⟩

end ApiContract.Template
