import ApiContract.Proofs.Comparison.FirstFit
import ApiContract.Proofs.Value.Parts

namespace ApiContract

def Value.Spells (value : Value) (text : String) : Prop :=
  value = .string text ∨ value = .id text

theorem Value.Spells.text_eq {value : Value} {s t : String} (hs : value.Spells s)
    (ht : value.Spells t) : s = t := by
  rcases hs with rfl | rfl <;> simpa [Spells] using ht

/-- Equality up to the order of arrays. Identifiers are their texts and numbers what they are
worth. -/
inductive Alike : Value → Value → Prop
  | null : Alike .null .null
  | bool (b : Bool) : Alike (.bool b) (.bool b)
  | number {x y : Number} (equal : x.Equal y) : Alike (.number x) (.number y)
  | text {a b : Value} {text : String} (ha : a.Spells text) (hb : b.Spells text) : Alike a b
  | array {as paired bs : List Value} (perm : as.Perm paired) (length : paired.length = bs.length)
    (pairs : ∀ p ∈ paired.zip bs, Alike p.1 p.2) : Alike (.array as) (.array bs)
  | object {as bs : Fields Value} (keys : ∀ key, key ∈ as.keys ↔ key ∈ bs.keys)
    (members : ∀ key a b, Fields.get? key as = some a → Fields.get? key bs = some b → Alike a b) :
    Alike (.object as) (.object bs)

namespace Alike

variable {a b c : Value} {as bs cs : List Value}

theorem of_forall₂ {paired : List Value} (perm : as.Perm paired)
    (pairs : List.Forall₂ Alike paired bs) : Alike (.array as) (.array bs) :=
  .array perm pairs.length_eq fun _ hp => (List.forall₂_iff_zip.mp pairs).2 hp

theorem moved (front back : List Value) (h : Alike a b) (hr : ∀ c ∈ front ++ back, Alike c c) :
    Alike (.array (a :: (front ++ back))) (.array (front ++ b :: back)) := by
  obtain ⟨hfront, hback⟩ := List.forall_mem_append.mp hr
  exact of_forall₂ List.perm_middle.symm
    (List.rel_append (List.forall₂_same.mpr hfront) (.cons h (List.forall₂_same.mpr hback)))

theorem symm (h : Alike a b) : Alike b a := by
  induction h with
  | null => exact .null
  | bool b => exact .bool b
  | number equal => exact .number equal.symm
  | text ha hb => exact .text hb ha
  | @array as paired bs perm length _ ih =>
    have hback : List.Forall₂ (fun a b => Alike b a) paired bs :=
      List.forall₂_iff_zip.mpr ⟨length, fun hp => ih _ hp⟩
    obtain ⟨others, hperm, hothers⟩ := exists_perm_of_forall₂ hback.flip perm.symm
    exact of_forall₂ hperm hothers
  | object keys _ ih =>
    exact .object (fun key => (keys key).symm) fun key b a hb ha => ih key a b ha hb

theorem trans (h : Alike a b) (h' : Alike b c) : Alike a c := by
  induction h generalizing c with
  | null => exact h'
  | bool b => exact h'
  | number equal =>
    cases h' with
    | number equal' => exact .number (equal.trans equal')
    | text hb _ => simp [Value.Spells] at hb
  | text ha hb =>
    cases h' with
    | text hb' hc =>
      have htexts := hb.text_eq hb'
      exact .text ha (htexts ▸ hc)
    | _ => simp [Value.Spells] at hb
  | @array as paired bs perm length _ ih =>
    cases h' with
    | text hb _ => simp [Value.Spells] at hb
    | @array _ paired' cs perm' length' pairs' =>
      have hfront : List.Forall₂ (fun a b => ∀ {c}, Alike b c → Alike a c) paired bs :=
        List.forall₂_iff_zip.mpr ⟨length, fun hp => ih _ hp⟩
      obtain ⟨others, hperm, hothers⟩ := exists_perm_of_forall₂ hfront perm'
      have hback : List.Forall₂ Alike paired' cs :=
        List.forall₂_iff_zip.mpr ⟨length', fun hp => pairs' _ hp⟩
      exact of_forall₂ (perm.trans hperm) (forall₂_comp hothers hback fun a b c hr hs => hr hs)
  | @object as bs keys _ ih =>
    cases h' with
    | text hb _ => simp [Value.Spells] at hb
    | @object _ cs keys' members' =>
      refine .object (fun key => (keys key).trans (keys' key)) fun key a c ha hc => ?_
      obtain ⟨b, hb⟩ := Fields.mem_keys_iff.mp ((keys' key).mpr (Fields.mem_keys_iff.mpr ⟨c, hc⟩))
      exact ih key a b ha hb (members' key b c hb hc)

theorem null_iff : Alike a .null ↔ a = .null := by
  constructor
  · intro h
    cases h with
    | null => rfl
    | text _ hb => simp [Value.Spells] at hb
  · rintro rfl
    exact .null

theorem bool_iff {b : Bool} : Alike a (.bool b) ↔ a = .bool b := by
  constructor
  · intro h
    cases h with
    | bool => rfl
    | text _ hb => simp [Value.Spells] at hb
  · rintro rfl
    exact .bool b

theorem number_iff {y : Number} : Alike a (.number y) ↔ ∃ x, a = .number x ∧ x.Equal y := by
  constructor
  · intro h
    cases h with
    | number equal => exact ⟨_, rfl, equal⟩
    | text _ hb => simp [Value.Spells] at hb
  · rintro ⟨x, rfl, equal⟩
    exact .number equal

theorem text_iff {text : String} (hb : b.Spells text) : Alike a b ↔ a.Spells text := by
  constructor
  · intro h
    cases h with
    | text ha hb' => exact hb'.text_eq hb ▸ ha
    | _ => simp [Value.Spells] at hb
  · exact fun ha => .text ha hb

theorem array_iff : Alike a (.array bs) ↔
    ∃ as, a = .array as ∧ as.length = bs.length ∧ Comparison.Pairs Alike as bs := by
  constructor
  · intro h
    cases h with
    | text _ hb => simp [Value.Spells] at hb
    | @array as paired _ perm length pairs =>
      exact ⟨as, rfl, perm.length_eq.trans length, paired, perm.symm.subperm,
        List.forall₂_iff_zip.mpr ⟨length, fun hp => pairs _ hp⟩⟩
  · rintro ⟨as, rfl, length, paired, hsub, pairs⟩
    have hperm := hsub.perm_of_length_le (by rw [length, pairs.length_eq])
    exact of_forall₂ hperm.symm pairs

theorem cons (h : Alike a b) (h' : Alike (.array as) (.array bs)) :
    Alike (.array (a :: as)) (.array (b :: bs)) := by
  obtain ⟨_, ⟨⟩, hlength, paired, hsub, hpairs⟩ := array_iff.mp h'
  exact array_iff.mpr ⟨_, rfl, congrArg (· + 1) hlength, a :: paired,
    (List.subperm_cons a).mpr hsub, .cons h hpairs⟩

theorem object_iff {fields : Fields Value} : Alike a (.object fields) ↔
    ∃ found : Fields Value, a = .object found ∧ (∀ key, key ∈ found.keys ↔ key ∈ fields.keys) ∧
      ∀ key a b, Fields.get? key found = some a → Fields.get? key fields = some b → Alike a b := by
  constructor
  · intro h
    cases h with
    | text _ hb => simp [Value.Spells] at hb
    | object keys members => exact ⟨_, rfl, keys, members⟩
  · rintro ⟨found, rfl, keys, members⟩
    exact .object keys members

theorem refl (h : a.Plain) : Alike a a := by
  induction a using Value.induction_on_parts with
  | step a ih =>
    have hparts : ∀ part ∈ a.parts, Alike part part := fun part hm => ih part hm (h.parts hm)
    cases a with
    | null => exact .null
    | bool b => exact .bool b
    | number n => exact .number (.refl n)
    | string text => exact .text (.inl rfl) (.inl rfl)
    | id text => exact .text (.inr rfl) (.inr rfl)
    | array items => exact of_forall₂ (.refl _) (List.forall₂_same.mpr hparts)
    | object fields =>
      refine .object (fun _ => .rfl) fun key a b ha hb => ?_
      cases ha.symm.trans hb
      exact hparts a (Value.mem_parts_of_get? ha)
    | _ => exact h.here.elim

end Alike

namespace Comparison

open Value (Plain Tidy)

def exact : Strictness := ⟨true, []⟩

variable {path : String} {actual expected : Value}

theorem sameScalar_string {text : String} :
    sameScalar actual.normal (.string text) = true ↔ actual.Spells text := by
  cases actual <;> simp [sameScalar, Value.normal, Value.Spells]

theorem interchangeable_alike (as bs : List Value) : Interchangeable Alike as bs :=
  fun _ _ _ _ _ _ _ _ hab ha'b hab' => ha'b.trans (hab.symm.trans hab')

theorem compareAt_array_exact {items : List Value} (ha : ∀ found, actual ≠ .ordered found)
    (h : ∀ found, actual = .array found → ∀ path, ∀ a ∈ found, ∀ item ∈ items,
      compareAt exact path a item = .ok () ↔ Alike a item) :
    compareAt exact path actual (.array items) = .ok () ↔ Alike actual (.array items) := by
  have hdecides : ∀ found, actual = .array found →
      Decides exact path found.zipIdx items Alike := fun found he c hc item hm =>
    h found he _ c.1 (List.fst_mem_of_mem_zipIdx hc) item hm
  rw [compareAt_array_eq_ok_iff, Alike.array_iff]
  constructor
  · rintro ⟨found, hitems, hclaim⟩
    obtain ⟨rfl | rfl, -, hlength⟩ := itemsFor_eq_ok_iff.mp hitems
    · have hpairs := pairs_of_claim (hdecides found rfl) hclaim
      rw [List.zipIdx_map_fst] at hpairs
      exact ⟨found, rfl, hlength rfl, hpairs⟩
    · exact absurd rfl (ha found)
  · rintro ⟨found, rfl, hlength, hpairs⟩
    have hitems : itemsFor exact (.array found) items.length path = .ok found :=
      itemsFor_eq_ok_iff.mpr ⟨.inl rfl, hlength.ge, fun _ => hlength⟩
    rw [← List.zipIdx_map_fst 0 found] at hpairs
    exact ⟨found, hitems, claim_of_pairs (hdecides found rfl) (interchangeable_alike _ _) hpairs⟩

theorem compareAt_object_exact {fields : Fields Value} (hs : Fields.Sorted fields)
    (h : ∀ found, actual = .object found → ∀ path key a b, Fields.get? key found = some a →
      Fields.get? key fields = some b → (compareAt exact path a b = .ok () ↔ Alike a b)) :
    compareAt exact path actual (.object fields) = .ok () ↔ Alike actual (.object fields) := by
  rw [compareAt_object_eq_ok_iff, Alike.object_iff]
  constructor
  · rintro ⟨found, rfl, hfields, hsurplus⟩
    refine ⟨found, rfl, mem_keys_iff_of_strict rfl (fun _ => rfl) hfields hsurplus,
      fun key a b hga hgb => ?_⟩
    obtain ⟨a', hg, hcompare⟩ :=
      compareFields_eq_ok_iff.mp hfields (key, b) (Fields.mem_of_get? hgb)
    cases hga.symm.trans hg
    exact (h found rfl _ key a b hga hgb).mp hcompare
  · rintro ⟨found, rfl, hkeys, hmembers⟩
    refine ⟨found, rfl, compareFields_eq_ok_iff.mpr fun m hm => ?_,
      surplusKey?_eq_none_iff.mpr fun _ key hk => .inl ((hkeys key).mp hk)⟩
    have hgb := Fields.get?_of_mem hs hm
    obtain ⟨a, hga⟩ := Fields.mem_keys_iff.mp ((hkeys m.1).mpr (Fields.mem_keys_iff.mpr ⟨_, hgb⟩))
    exact ⟨a, hga, (h found rfl _ m.1 a m.2 hga hgb).mpr (hmembers m.1 a m.2 hga hgb)⟩

theorem compareAt_exact_eq_ok_iff (ha : actual.Plain) (ht : expected.Tidy)
    (hp : expected.Plain) :
    compareAt exact path actual expected = .ok () ↔ Alike actual expected := by
  induction expected using Value.induction_on_parts generalizing path actual with
  | step expected ih =>
    cases expected with
    | null =>
      rw [Alike.null_iff, compareAt, compareScalar_eq_ok_iff]
      cases actual <;> simp [sameScalar, Value.normal]
    | bool b =>
      rw [Alike.bool_iff, compareAt, compareScalar_eq_ok_iff]
      cases actual <;> simp [sameScalar, Value.normal]
    | number y =>
      rw [Alike.number_iff, compareAt, compareScalar_eq_ok_iff]
      cases actual <;> simp [sameScalar, Value.normal, Number.sameValue_iff]
    | string text =>
      rw [Alike.text_iff (.inl rfl), compareAt, compareScalar_eq_ok_iff, sameScalar_string]
    | id text =>
      rw [Alike.text_iff (.inr rfl), compareAt, compareScalar_eq_ok_iff, sameScalar_string]
    | ordered items => exact hp.here.elim
    | type kind => exact hp.here.elim
    | array items =>
      refine compareAt_array_exact (fun found he => ?_) fun found he path a hm item hi => ?_
      · rw [he] at ha
        exact ha.here.elim
      · rw [he] at ha
        exact ih item hi (ha.parts hm) (ht.parts hi) (hp.parts hi)
    | object fields =>
      refine compareAt_object_exact ht.here fun found he path key a b hga hgb => ?_
      rw [he] at ha
      have hb := Value.mem_parts_of_get? hgb
      exact ih b hb (ha.parts (Value.mem_parts_of_get? hga)) (ht.parts hb) (hp.parts hb)

end Comparison

/-- Strict comparison of plain values is equality up to the order of arrays, and as such symmetric
and transitive. -/
theorem compareValues_exact_iff_alike {a b c : Value} (ha : a.Plain ∧ a.Tidy)
    (hb : b.Plain ∧ b.Tidy) (hc : c.Plain ∧ c.Tidy) :
    (compareValues Comparison.exact a b = .ok () ↔ Alike a b) ∧
      (compareValues Comparison.exact a b = .ok () →
        compareValues Comparison.exact b a = .ok ()) ∧
      (compareValues Comparison.exact a b = .ok () →
        compareValues Comparison.exact b c = .ok () →
          compareValues Comparison.exact a c = .ok ()) := by
  have hab := @Comparison.compareAt_exact_eq_ok_iff "" a b ha.1 hb.2 hb.1
  have hba := @Comparison.compareAt_exact_eq_ok_iff "" b a hb.1 ha.2 ha.1
  have hbc := @Comparison.compareAt_exact_eq_ok_iff "" b c hb.1 hc.2 hc.1
  have hac := @Comparison.compareAt_exact_eq_ok_iff "" a c ha.1 hc.2 hc.1
  refine ⟨hab, fun h => hba.mpr (hab.mp h).symm, fun h h' => ?_⟩
  exact hac.mpr ((hab.mp h).trans (hbc.mp h'))

theorem compareValues_exact_of_shuffled :
    let a : Value := .array [.object [("k", .id "x")], .null]
    let b : Value := .array [.null, .object [("k", .string "x")]]
    compareValues Comparison.exact a b = .ok () ∧ compareValues Comparison.exact b a = .ok () ∧
      compareValues Comparison.exact a a = .ok () := by
  intro a b
  have ha : a.Plain ∧ a.Tidy := by
    simp [a, Value.Plain, Value.Tidy, Value.Literal, Value.Keyed, Fields.Sorted, Fields.keys]
  have hb : b.Plain ∧ b.Tidy := by
    simp [b, Value.Plain, Value.Tidy, Value.Literal, Value.Keyed, Fields.Sorted, Fields.keys]
  have hab : compareValues Comparison.exact a b = .ok () := rfl
  obtain ⟨-, hsymm, htrans⟩ := compareValues_exact_iff_alike ha hb ha
  exact ⟨hab, hsymm hab, htrans hab (hsymm hab)⟩

end ApiContract
