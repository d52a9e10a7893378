import ApiContract.Proofs.Comparison.Covering

namespace ApiContract

namespace Comparison

def loose : Strictness := ⟨false, []⟩

end Comparison

open Comparison (Matches exact loose)

/-- What a later item of an array matches strictly, an earlier one does not match only loosely, as
far as values that satisfy a condition go. -/
def Value.Graded (P : Value → Prop) : Value → Prop
  | array items => items.Pairwise fun earlier later => ∀ a : Value, P a →
      Matches exact a later → Matches loose a earlier → Matches exact a earlier
  | _ => True

/-- A template whose arrays, at every depth, loosely claim what they claim strictly. -/
def Value.Steady (P : Value → Prop) (value : Value) : Prop :=
  Throughout Value.parts (Value.Graded P) value

namespace Comparison

variable {s t : Strictness} {path path' : String} {index index' : Nat} {actual expected : Value}
  {items found : List Value} {ignored : List String}

section Run

variable {α β : Type} {R S : α → β → Prop} {as left : List α} {bs : List β}

theorem Claims.exists_item (h : Claims R as bs left) (hl : as.length ≤ bs.length) {a : α}
    (ha : a ∈ as) : ∃ b ∈ bs, R a b := by
  obtain ⟨chosen, hsub, hpairs⟩ := h.pairs
  have hperm := hsub.perm_of_length_le (by rwa [hpairs.length_eq])
  have hback : List.Forall₂ (fun b a => R a b) bs chosen := hpairs.flip
  exact exists_of_forall₂ hback (hperm.mem_iff.mpr ha)

/-- Items claim the same by a weaker relation, if what they leave to later ones is related to them
by the stronger one whenever it is by the weaker. -/
theorem Claims.weaken (h : Claims R as bs left) (hl : as.length ≤ bs.length)
    (hkeep : ∀ a ∈ as, ∀ b ∈ bs, R a b → S a b)
    (hgraded : bs.Pairwise fun earlier later => ∀ a ∈ as, R a later → S a earlier → R a earlier) :
    Claims S as bs left := by
  induction h with
  | nil as => exact .nil as
  | @cons as rest left b bs takes claims ih =>
    obtain ⟨hfirst, hgraded⟩ := List.pairwise_cons.mp hgraded
    obtain ⟨taken, hfits, hperm⟩ := takes.exists_taken
    have hrest : rest.length ≤ bs.length := by
      have hlength := hperm.length_eq
      simp only [List.length_cons] at hl hlength
      omega
    have hback : ∀ a ∈ rest, a ∈ as := fun a ha => takes.sublist.subset ha
    refine .cons (takes.congr fun a ha => ⟨hkeep a ha b (List.mem_cons_self ..), fun hs => ?_⟩)
      (ih hrest (fun a ha later hm => hkeep a (hback a ha) later (List.mem_cons_of_mem _ hm))
        (hgraded.imp fun h a ha => h a (hback a ha)))
    obtain rfl | hleft := List.mem_cons.mp (hperm.symm.subset ha)
    · exact hfits
    · -- what is not taken is left for a later item
      obtain ⟨later, hlater, hr⟩ := claims.exists_item hrest hleft
      exact hfirst later hlater a ha hr hs

end Run

theorem claim_of_claim (hl : found.length ≤ items.length)
    (hkeep : ∀ a ∈ found, ∀ item ∈ items, Matches s a item → Matches t a item)
    (hgraded : items.Pairwise fun earlier later => ∀ a ∈ found,
      Matches s a later → Matches t a earlier → Matches s a earlier)
    (h : claim s path index found.zipIdx items = .ok ()) :
    claim t path' index' found.zipIdx items = .ok () := by
  obtain ⟨left, hclaims⟩ := claim_zipIdx_eq_ok_iff.mp h
  exact claim_zipIdx_eq_ok_iff.mpr ⟨left, hclaims.weaken hl hkeep hgraded⟩

theorem compareItems_mono (h : ∀ a ∈ found, ∀ item ∈ items, ∀ path,
      compareAt s path a item = .ok () → compareAt t path a item = .ok ())
    (hs : compareItems s path index found items = .ok ()) :
    compareItems t path index found items = .ok () := by
  induction items generalizing found index with
  | nil => rw [compareItems]; simp
  | cons item items ih =>
    cases found with
    | nil => rw [compareItems]; simp
    | cons a found =>
      rw [compareItems, seq_eq_ok_iff] at hs ⊢
      refine ⟨h a (List.mem_cons_self ..) item (List.mem_cons_self ..) _ hs.1, ih ?_ hs.2⟩
      exact fun a ha item hm => h a (List.mem_cons_of_mem _ ha) item (List.mem_cons_of_mem _ hm)

theorem itemsFor_loosened {n : Nat} (h : itemsFor ⟨true, ignored⟩ actual n path = .ok found) :
    Items actual found ∧ found.length = n ∧
      itemsFor ⟨false, ignored⟩ actual n path = .ok found := by
  obtain ⟨hfound, hle, hlength⟩ := itemsFor_eq_ok_iff.mp h
  exact ⟨hfound, hlength rfl, itemsFor_eq_ok_iff.mpr ⟨hfound, hle, fun hf => (by cases hf)⟩⟩

theorem Items.mem_parts {a : Value} (h : Items actual found) (ha : a ∈ found) :
    a ∈ actual.parts := by
  obtain rfl | rfl := h <;> exact ha

/-- What passes strictly passes loosely, if the template is steady for what was received. -/
theorem compareAt_loosened {P : Value → Prop} (ha : Throughout Value.parts P actual)
    (hs : expected.Steady P) (h : compareAt ⟨true, ignored⟩ path actual expected = .ok ()) :
    compareAt ⟨false, ignored⟩ path actual expected = .ok () := by
  induction expected using Value.induction_on_parts generalizing path actual with
  | step expected ih =>
    have hparts : ∀ a ∈ actual.parts, ∀ part ∈ expected.parts, ∀ path,
        compareAt ⟨true, ignored⟩ path a part = .ok () →
          compareAt ⟨false, ignored⟩ path a part = .ok () := fun a hm part hpart _ =>
      ih part hpart (ha.parts hm) (hs.parts hpart)
    cases expected with
    | array items =>
      obtain ⟨found, hitems, hclaim⟩ := compareAt_array_eq_ok_iff.mp h
      obtain ⟨hfound, hlength, hitems'⟩ := itemsFor_loosened hitems
      refine compareAt_array_eq_ok_iff.mpr ⟨found, hitems', claim_of_claim ?_ ?_ ?_ hclaim⟩
      · exact hlength.le
      · rintro a ha item hm ⟨path, hp, hcompare⟩
        exact ⟨path, hp, hparts a (hfound.mem_parts ha) item hm path hcompare⟩
      · have hgraded : items.Pairwise _ := hs.here
        refine hgraded.imp fun hg a hm => ?_
        simp only [@matches_congr ⟨true, ignored⟩ exact _ _ rfl,
          @matches_congr ⟨false, ignored⟩ loose _ _ rfl]
        exact hg a (ha.parts (hfound.mem_parts hm)).here
    | ordered items =>
      obtain ⟨found, hitems, hcompare⟩ := compareAt_ordered_eq_ok_iff.mp h
      obtain ⟨hfound, -, hitems'⟩ := itemsFor_loosened hitems
      refine compareAt_ordered_eq_ok_iff.mpr ⟨found, hitems', compareItems_mono ?_ hcompare⟩
      exact fun a hm => hparts a (hfound.mem_parts hm)
    | object fields =>
      obtain ⟨found, rfl, hfields, -⟩ := compareAt_object_eq_ok_iff.mp h
      refine compareAt_object_eq_ok_iff.mpr ⟨found, rfl, compareFields_eq_ok_iff.mpr fun m hm => ?_,
        surplusKey?_eq_none_iff.mpr fun hf => (by cases hf)⟩
      obtain ⟨a, hget, hcompare⟩ := compareFields_eq_ok_iff.mp hfields m hm
      have hpart := List.mem_map_of_mem (f := Prod.snd) hm
      exact ⟨a, hget, hparts a (Value.mem_parts_of_get? hget) m.2 hpart _ hcompare⟩
    | _ => simpa only [compareAt] using h

end Comparison

end ApiContract
