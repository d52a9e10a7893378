import Mathlib.Data.List.Forall2
import Mathlib.Data.List.Perm.Basic
import Mathlib.Data.List.Perm.Subperm

namespace ApiContract

variable {α β : Type} {R : α → β → Prop} {as : List α} {bs cs : List β}

theorem forall₂_imp_of_mem {S : α → β → Prop} (h : List.Forall₂ R as bs)
    (hi : ∀ a ∈ as, ∀ b ∈ bs, R a b → S a b) : List.Forall₂ S as bs := by
  refine List.forall₂_iff_zip.mpr ⟨h.length_eq, fun hp => ?_⟩
  obtain ⟨ha, hb⟩ := List.of_mem_zip hp
  exact hi _ ha _ hb ((List.forall₂_iff_zip.mp h).2 hp)

theorem exists_forall₂ (h : ∀ a ∈ as, ∃ b, R a b) : ∃ bs, List.Forall₂ R as bs := by
  induction as with
  | nil => exact ⟨[], .nil⟩
  | cons a as ih =>
    obtain ⟨⟨b, hb⟩, has⟩ := List.forall_mem_cons.mp h
    obtain ⟨bs, hbs⟩ := ih has
    exact ⟨b :: bs, .cons hb hbs⟩

theorem exists_getElem?_of_length_eq (h : bs.length = as.length) {i : Nat} {a : α}
    (ha : as[i]? = some a) : ∃ b, bs[i]? = some b := by
  obtain ⟨hi, -⟩ := List.getElem?_eq_some_iff.mp ha
  exact ⟨_, List.getElem?_eq_getElem (h ▸ hi)⟩

theorem forall₂_iff_getElem? : List.Forall₂ R as bs ↔ bs.length = as.length ∧
    ∀ (i : Nat) (a : α) (b : β), as[i]? = some a → bs[i]? = some b → R a b := by
  rw [List.forall₂_iff_get, eq_comm]
  refine and_congr_right fun _ => ⟨fun h i a b ha hb => ?_, fun h i hi hi' => ?_⟩
  · obtain ⟨hi, rfl⟩ := List.getElem?_eq_some_iff.mp ha
    obtain ⟨hi', rfl⟩ := List.getElem?_eq_some_iff.mp hb
    exact h i hi hi'
  · exact h i _ _ (List.getElem?_eq_getElem hi) (List.getElem?_eq_getElem hi')

theorem exists_of_forall₂ (h : List.Forall₂ R as bs) {b : β} (hb : b ∈ bs) :
    ∃ a ∈ as, R a b := by
  induction h with
  | nil => cases hb
  | cons hab _ ih =>
    rcases List.mem_cons.mp hb with rfl | hb
    · exact ⟨_, List.mem_cons_self .., hab⟩
    · obtain ⟨a, ha, hr⟩ := ih hb
      exact ⟨a, List.mem_cons_of_mem _ ha, hr⟩

theorem exists_between {γ : Type} {S : γ → β → Prop} {T : α → γ → Prop}
    (h : List.Forall₂ (fun a b => ∃ c, T a c ∧ S c b) as bs) :
    ∃ between, List.Forall₂ T as between ∧ List.Forall₂ S between bs := by
  induction h with
  | nil => exact ⟨[], .nil, .nil⟩
  | cons hc _ ih =>
    obtain ⟨c, ht, hs⟩ := hc
    obtain ⟨between, hts, hss⟩ := ih
    exact ⟨c :: between, .cons ht hts, .cons hs hss⟩

theorem forall₂_comp {γ : Type} {S : β → γ → Prop} {T : α → γ → Prop} {cs : List γ}
    (h : List.Forall₂ R as bs) (h' : List.Forall₂ S bs cs)
    (ht : ∀ a b c, R a b → S b c → T a c) : List.Forall₂ T as cs := by
  induction h generalizing cs with
  | nil =>
    cases h'
    exact .nil
  | cons hr _ ih =>
    cases h' with
    | cons hs h' => exact .cons (ht _ _ _ hr hs) (ih h')

theorem exists_perm_of_forall₂ (h : List.Forall₂ R as bs) (hp : bs.Perm cs) :
    ∃ others, as.Perm others ∧ List.Forall₂ R others cs := by
  have hcomp : Relation.Comp (List.Forall₂ R) List.Perm as cs := ⟨bs, h, hp⟩
  rwa [List.forall₂_comp_perm_eq_perm_comp_forall₂] at hcomp

theorem exists_rest (h : bs.Subperm cs) : ∃ rest, cs.Perm (bs ++ rest) := by
  obtain ⟨sub, hperm, hsub⟩ := h
  obtain ⟨rest, hrest⟩ := hsub.exists_perm_append
  exact ⟨rest, hrest.trans (hperm.append_right rest)⟩

theorem exists_subperm_of_forall₂ (h : List.Forall₂ R as bs) (hc : cs.Subperm bs) :
    ∃ others, others.Subperm as ∧ List.Forall₂ R others cs := by
  obtain ⟨rest, hrest⟩ := exists_rest hc
  obtain ⟨others, hothers, hpairs⟩ := exists_perm_of_forall₂ h hrest
  have htake := (List.take_sublist cs.length others).subperm
  exact ⟨_, htake.trans hothers.symm.subperm, List.forall₂_take_append others cs rest hpairs⟩

end ApiContract
