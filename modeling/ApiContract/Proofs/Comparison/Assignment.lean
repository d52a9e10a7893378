import Mathlib.Data.Fintype.EquivFin
import ApiContract.Proofs.Comparison.FirstFit

namespace ApiContract.Comparison

section Pairing

variable {α β : Type} {R : α × Nat → β → Prop} {as : List α} {bs : List β}

theorem exists_place {a : α × Nat} (h : a ∈ as.zipIdx) :
    ∃ j : Fin as.length, a = (as[j], j.val) := by
  obtain ⟨hlt, heq⟩ := List.getElem?_eq_some_iff.mp (List.mem_zipIdx_iff_getElem?.mp h)
  exact ⟨⟨a.2, hlt⟩, Prod.ext heq.symm rfl⟩

theorem place_mem (j : Fin as.length) : (as[j], j.val) ∈ as.zipIdx :=
  List.mem_zipIdx_iff_getElem?.mpr (List.getElem?_eq_getElem j.isLt)

theorem nodup_zipIdx (as : List α) : as.zipIdx.Nodup := by
  refine List.Nodup.of_map Prod.snd ?_
  rw [List.zipIdx_map_snd]
  exact List.nodup_range'

theorem nodup_of_subperm_zipIdx {chosen : List (α × Nat)} (h : chosen.Subperm as.zipIdx) :
    chosen.Nodup := by
  obtain ⟨sub, hperm, hsub⟩ := h
  exact hperm.nodup_iff.mp (hsub.nodup (nodup_zipIdx as))

/-- To pair items with elements at their places is to assign a place of its own to each item. -/
theorem pairs_zipIdx_iff : Pairs R as.zipIdx bs ↔
    ∃ given : Fin bs.length → Fin as.length, given.Injective ∧
      ∀ i, R (as[given i], (given i).val) bs[i] := by
  constructor
  · rintro ⟨chosen, hsub, hpairs⟩
    obtain ⟨hlength, hR⟩ := List.forall₂_iff_get.mp hpairs
    have hplace : ∀ i : Fin bs.length, ∃ j : Fin as.length, chosen[i] = (as[j], j.val) := fun i =>
      exists_place (hsub.subset (List.getElem_mem _))
    choose given hgiven using hplace
    refine ⟨given, fun i i' he => ?_, fun i => ?_⟩
    · have hchosen : chosen[i] = chosen[i'] := by rw [hgiven, hgiven, he]
      exact Fin.ext ((nodup_of_subperm_zipIdx hsub).getElem_inj_iff.mp hchosen)
    · rw [← hgiven i]
      exact hR i.val (hlength.symm ▸ i.isLt) i.isLt
  · rintro ⟨given, hinj, hR⟩
    refine ⟨List.ofFn fun i => (as[given i], (given i).val), ?_, ?_⟩
    · refine List.subperm_of_subset (List.nodup_ofFn.mpr fun i i' he => ?_) fun a ha => ?_
      · exact hinj (Fin.ext (congrArg Prod.snd he))
      · obtain ⟨i, rfl⟩ := List.mem_ofFn.mp ha
        exact place_mem (given i)
    · refine List.forall₂_iff_get.mpr ⟨List.length_ofFn, fun i hi hi' => ?_⟩
      simpa using hR ⟨i, hi'⟩

end Pairing

variable {s : Strictness} {path : String} {found items : List Value}

/-- The received element at one place matches the item at another. -/
def Suits (s : Strictness) (path : String) (found items : List Value) (j : Fin found.length)
    (i : Fin items.length) : Prop :=
  compareAt s (joinedPath path (toString j.val)) found[j] items[i] = .ok ()

instance (j : Fin found.length) (i : Fin items.length) : Decidable (Suits s path found items j i) :=
  decidable_of_iff _ isOk_iff

/-- Each item has an element that suits it, and no element suits two items. -/
structure Uncontended (s : Strictness) (path : String) (found items : List Value) : Prop where
  served : ∀ i, ∃ j, Suits s path found items j i
  apart : ∀ j i i', Suits s path found items j i → Suits s path found items j i' → i = i'

theorem bijective_of_itemsFor {actual : Value} {given : Fin items.length → Fin found.length}
    (hinj : given.Injective) (hs : s.strict = true)
    (h : itemsFor s actual items.length path = .ok found) : given.Bijective := by
  obtain ⟨-, -, hlength⟩ := itemsFor_eq_ok_iff.mp h
  refine (Fintype.bijective_iff_injective_and_card given).mpr ⟨hinj, ?_⟩
  rw [Fintype.card_fin, Fintype.card_fin, hlength hs]

theorem exists_place_of_fits {c : Value × Nat} {item : Value} (hc : c ∈ found.zipIdx)
    (hm : item ∈ items) (h : FitsAt s path c item) :
    ∃ j i, c = (found[j], j.val) ∧ item = items[i] ∧ Suits s path found items j i := by
  obtain ⟨j, rfl⟩ := exists_place hc
  obtain ⟨i, hi, rfl⟩ := List.mem_iff_getElem.mp hm
  exact ⟨j, ⟨i, hi⟩, rfl, rfl, h⟩

theorem Uncontended.interchangeable (h : Uncontended s path found items) :
    Interchangeable (FitsAt s path) found.zipIdx items := by
  intro a ha a' _ b hb b' hb' hab ha'b hab'
  obtain ⟨j, i, rfl, rfl, hsuits⟩ := exists_place_of_fits ha hb hab
  obtain ⟨i', hi', rfl⟩ := List.mem_iff_getElem.mp hb'
  obtain rfl : i = ⟨i', hi'⟩ := h.apart j i ⟨i', hi'⟩ hsuits hab'
  exact ha'b

theorem Uncontended.pairs (h : Uncontended s path found items) :
    Pairs (FitsAt s path) found.zipIdx items := by
  choose given hsuits using h.served
  refine pairs_zipIdx_iff.mpr ⟨given, fun i i' he => ?_, hsuits⟩
  exact h.apart (given i) i i' (hsuits i) (he ▸ hsuits i')

/-- When items can claim elements, they can be assigned elements of their own that suit them: all
the elements, where strict comparison has found no more of them than items. And where each item is
suited by some element, and no element suits two items, they can. -/
theorem claim_assigns (s : Strictness) (path : String) (found items : List Value) :
    (claim s path 0 found.zipIdx items = .ok () →
      ∃ given : Fin items.length → Fin found.length, given.Injective ∧
        (∀ i, Suits s path found items (given i) i) ∧
        ∀ actual, s.strict = true → itemsFor s actual items.length path = .ok found →
          given.Bijective) ∧
    (Uncontended s path found items → claim s path 0 found.zipIdx items = .ok ()) := by
  constructor
  · intro h
    obtain ⟨left, hclaims⟩ := claim_eq_ok_iff.mp h
    obtain ⟨given, hinj, hsuits⟩ := pairs_zipIdx_iff.mp hclaims.pairs
    exact ⟨given, hinj, hsuits, fun _ => bijective_of_itemsFor hinj⟩
  · intro h
    exact claim_eq_ok_iff.mpr (Claims.exists_of_pairs h.interchangeable h.pairs)

theorem claim_assigns_of_reversed :
    let found : List Value := [.string "b", .null, .string "a"]
    let items : List Value := [.string "a", .string "b"]
    Uncontended ⟨false, []⟩ "tags" found items ∧
      claim ⟨false, []⟩ "tags" 0 found.zipIdx items = .ok () ∧
      ∃ given : Fin items.length → Fin found.length, given.Injective ∧
        ∀ i, Suits ⟨false, []⟩ "tags" found items (given i) i := by
  intro found items
  have huncontended : Uncontended ⟨false, []⟩ "tags" found items := ⟨by decide, by decide⟩
  obtain ⟨hassigns, hclaims⟩ := claim_assigns ⟨false, []⟩ "tags" found items
  obtain ⟨given, hinj, hsuits, -⟩ := hassigns (hclaims huncontended)
  exact ⟨huncontended, hclaims huncontended, given, hinj, hsuits⟩

end ApiContract.Comparison
