import Mathlib.Algebra.BigOperators.Group.List.Basic
import ApiContract.Proofs.Comparison.Alike
import ApiContract.Proofs.Comparison.Below

namespace ApiContract

open Comparison (Items Matches Pairs)

/-- A received value has everything that is expected: the items of an array are each given one of
their own, whichever it is. -/
inductive Covers : Value → Value → Prop
  | null : Covers .null .null
  | bool (b : Bool) : Covers (.bool b) (.bool b)
  | number {x y : Number} (equal : x.Equal y) : Covers (.number x) (.number y)
  | text {a b : Value} {text : String} (ha : a.Spells text) (hb : b.Spells text) : Covers a b
  | kind {a : Value} {kind : Kind} (accepts : kind.accepts a.normal = true) :
    Covers a (.type kind)
  | array {a : Value} {found chosen items : List Value} (isArray : Items a found)
    (distinct : chosen.Subperm found) (length : chosen.length = items.length)
    (pairs : ∀ p ∈ chosen.zip items, Covers p.1 p.2) : Covers a (.array items)
  | ordered {a : Value} {found items : List Value} (isArray : Items a found)
    (length : items.length ≤ found.length) (pairs : ∀ p ∈ found.zip items, Covers p.1 p.2) :
    Covers a (.ordered items)
  | object {found fields : Fields Value} (keys : ∀ key ∈ fields.keys, key ∈ found.keys)
    (members : ∀ key a b, Fields.get? key found = some a → Fields.get? key fields = some b →
      Covers a b) : Covers (.object found) (.object fields)

def Value.Scalar : Value → Prop
  | array _ => False
  | ordered _ => False
  | object _ => False
  | type _ => False
  | _ => True

/-- Plain values whose objects keep their keys in order: what data is received as. -/
def Value.Datum (value : Value) : Prop := value.Plain ∧ value.Tidy

theorem Value.Datum.parts {value part : Value} (h : value.Datum) (hm : part ∈ value.parts) :
    part.Datum :=
  ⟨Throughout.parts h.1 hm, Throughout.parts h.2 hm⟩

theorem Value.Datum.throughout {value : Value} (h : value.Datum) :
    Throughout Value.parts Datum value := by
  induction value using Value.induction_on_parts with
  | step value ih => exact .intro h fun part hm => ih part hm (h.parts hm)

theorem Value.datum_array {items : List Value} :
    (Value.array items).Datum ↔ ∀ item ∈ items, item.Datum := by
  simp only [Datum, Plain, Tidy, throughout_array, Literal, Keyed, true_and]
  exact ⟨fun h item hm => ⟨h.1 item hm, h.2 item hm⟩,
    fun h => ⟨fun item hm => (h item hm).1, fun item hm => (h item hm).2⟩⟩

theorem Value.datum_object {fields : Fields Value} :
    (Value.object fields).Datum ↔ Fields.Sorted fields ∧ ∀ m ∈ fields, m.2.Datum := by
  simp only [Datum, Plain, Tidy, throughout_object, Literal, Keyed, true_and]
  constructor
  · rintro ⟨hp, hs, ht⟩
    exact ⟨hs, fun m hm => ⟨hp m hm, ht m hm⟩⟩
  · rintro ⟨hs, h⟩
    exact ⟨fun m hm => (h m hm).1, hs, fun m hm => (h m hm).2⟩

namespace Covers

variable {a b e : Value} {found chosen items : List Value} {fields : Fields Value}

theorem of_pairs (hi : Items a found) (h : Pairs Covers found items) : Covers a (.array items) := by
  obtain ⟨chosen, hsub, hpairs⟩ := h
  exact .array hi hsub hpairs.length_eq fun _ hp => (List.forall₂_iff_zip.mp hpairs).2 hp

theorem array_iff :
    Covers a (.array items) ↔ ∃ found, Items a found ∧ Pairs Covers found items := by
  constructor
  · intro h
    cases h with
    | text _ hb => simp [Value.Spells] at hb
    | array isArray distinct length pairs =>
      exact ⟨_, isArray, _, distinct, List.forall₂_iff_zip.mpr ⟨length, fun hp => pairs _ hp⟩⟩
  · rintro ⟨_, hi, h⟩
    exact of_pairs hi h

theorem object_iff : Covers a (.object fields) ↔
    ∃ found : Fields Value, a = .object found ∧ (∀ key ∈ fields.keys, key ∈ found.keys) ∧
      ∀ key a b, Fields.get? key found = some a → Fields.get? key fields = some b →
        Covers a b := by
  constructor
  · intro h
    cases h with
    | text _ hb => simp [Value.Spells] at hb
    | object keys members => exact ⟨_, rfl, keys, members⟩
  · rintro ⟨found, rfl, keys, members⟩
    exact .object keys members

theorem array_iff_of_plain (ha : a.Plain) : Covers a (.array items) ↔
    ∃ found, a = .array found ∧ Pairs Covers found items := by
  rw [array_iff]
  refine exists_congr fun found => and_congr_left fun _ => ⟨?_, .inl⟩
  rintro (rfl | rfl)
  · rfl
  · exact ha.here.elim

theorem of_alike (h : Alike a b) : Covers a b := by
  induction h with
  | null => exact .null
  | bool b => exact .bool b
  | number equal => exact .number equal
  | text ha hb => exact .text ha hb
  | array perm length _ ih => exact .array (.inl rfl) perm.symm.subperm length ih
  | object keys _ ih => exact .object (fun key hk => (keys key).mpr hk) ih

theorem alike_of_scalar (h : Covers a e) (he : e.Scalar) : Alike a e := by
  cases h with
  | null => exact .null
  | bool b => exact .bool b
  | number equal => exact .number equal
  | text ha hb => exact .text ha hb
  | _ => exact he.elim

theorem of_alike_left (he : e.Plain) (ha : a.Plain) (h : Covers a e) (hab : Alike a b) :
    Covers b e := by
  induction e using Value.induction_on_parts generalizing a b with
  | step e ih =>
    cases e with
    | ordered items => exact he.here.elim
    | type kind => exact he.here.elim
    | array items =>
      obtain ⟨found, rfl, chosen, hsub, hpairs⟩ := (array_iff_of_plain ha).mp h
      obtain ⟨others, rfl, -, paired, hpaired, halike⟩ := Alike.array_iff.mp hab.symm
      obtain ⟨given, hgiven, hgivens⟩ := exists_subperm_of_forall₂ halike hsub
      have hback := forall₂_imp_of_mem hpairs fun c hc item hm hcovers =>
        fun b => ih item hm (b := b) (he.parts hm) (ha.parts (hsub.subset hc)) hcovers
      refine of_pairs (.inl rfl) ⟨given, hgiven.trans hpaired, ?_⟩
      exact forall₂_comp hgivens hback fun b _ _ hbc hcovers => hcovers b hbc.symm
    | object fields =>
      obtain ⟨found, rfl, hkeys, hmembers⟩ := object_iff.mp h
      obtain ⟨others, rfl, hsame, halike⟩ := Alike.object_iff.mp hab.symm
      refine .object (fun key hk => (hsame key).mpr (hkeys key hk)) fun key b e hb hget => ?_
      obtain ⟨a, hget'⟩ := Fields.mem_keys_iff.mp
        ((hsame key).mp (Fields.mem_keys_iff.mpr ⟨b, hb⟩))
      have hm := Value.mem_parts_of_get? hget
      exact ih e hm (he.parts hm) (ha.parts (Value.mem_parts_of_get? hget'))
        (hmembers key a e hget' hget) (halike key b a hb hget').symm
    | _ => exact of_alike (hab.symm.trans (h.alike_of_scalar trivial))

end Covers

namespace Comparison

variable {s : Strictness} {path : String} {index : Nat} {actual expected : Value}
  {candidates : List (Value × Nat)} {items found : List Value}

theorem matches_of_compareItems_zip (h : compareItems s path index found items = .ok ()) :
    ∀ p ∈ found.zip items, Matches s p.1 p.2 := by
  induction items generalizing found index with
  | nil => simp
  | cons item items ih =>
    cases found with
    | nil => simp
    | cons a found =>
      rw [compareItems, seq_eq_ok_iff] at h
      refine List.forall_mem_cons.mpr ⟨?_, ih h.2⟩
      exact compareAt_index_eq_ok_iff_matches.mp h.1

/-- What passes, strictly or not, has everything that is expected. -/
theorem covers_of_compareAt (h : compareAt s path actual expected = .ok ()) :
    Covers actual expected := by
  induction expected using Value.induction_on_parts generalizing path actual with
  | step expected ih =>
    cases expected with
    | null =>
      rw [compareAt, compareScalar_eq_ok_iff] at h
      cases actual <;> simp [sameScalar, Value.normal] at h
      exact .null
    | bool b =>
      rw [compareAt, compareScalar_eq_ok_iff] at h
      cases actual <;> simp [sameScalar, Value.normal] at h
      exact h ▸ .bool _
    | number y =>
      rw [compareAt, compareScalar_eq_ok_iff] at h
      cases actual <;> simp [sameScalar, Value.normal] at h
      exact .number (Number.sameValue_iff.mp h)
    | string text =>
      rw [compareAt, compareScalar_eq_ok_iff, sameScalar_string] at h
      exact .text h (.inl rfl)
    | id text =>
      rw [compareAt, compareScalar_eq_ok_iff, sameScalar_string] at h
      exact .text h (.inr rfl)
    | type kind => exact .kind (compareKind_eq_ok_iff.mp (by rwa [compareAt] at h))
    | array items =>
      obtain ⟨found, hitems, hclaim⟩ := compareAt_array_eq_ok_iff.mp h
      obtain ⟨hfound, -, -⟩ := itemsFor_eq_ok_iff.mp hitems
      obtain ⟨chosen, hsub, hpairs⟩ := pairs_of_claim decides_matches hclaim
      rw [List.zipIdx_map_fst] at hsub
      refine .array hfound hsub hpairs.length_eq fun p hp => ?_
      obtain ⟨_, -, hcompare⟩ := (List.forall₂_iff_zip.mp hpairs).2 hp
      exact ih p.2 (List.of_mem_zip hp).2 hcompare
    | ordered items =>
      obtain ⟨found, hitems, hcompare⟩ := compareAt_ordered_eq_ok_iff.mp h
      obtain ⟨hfound, hlength, -⟩ := itemsFor_eq_ok_iff.mp hitems
      refine .ordered hfound hlength fun p hp => ?_
      obtain ⟨_, -, hcompare⟩ := matches_of_compareItems_zip hcompare p hp
      exact ih p.2 (List.of_mem_zip hp).2 hcompare
    | object fields =>
      obtain ⟨found, rfl, hfields, -⟩ := compareAt_object_eq_ok_iff.mp h
      have hmembers := compareFields_eq_ok_iff.mp hfields
      refine .object ?_ ?_
      · intro key hk
        obtain ⟨m, hm, rfl⟩ := List.mem_map.mp hk
        obtain ⟨a, hget, -⟩ := hmembers m hm
        exact Fields.mem_keys_iff.mpr ⟨a, hget⟩
      · intro key a b hga hgb
        obtain ⟨a', hget, hcompare⟩ := hmembers (key, b) (Fields.mem_of_get? hgb)
        cases hga.symm.trans hget
        exact ih b (Value.mem_parts_of_get? hgb) hcompare

end Comparison

section Weight

variable {α β : Type} {R : α → β → Prop} {w : α → Nat} {v : β → Nat} {as chosen : List α}
  {bs : List β}

def Balanced (m n : Nat) (P : Prop) : Prop := n ≤ m ∧ (m ≤ n → P)

theorem balanced_of_forall₂ (h : List.Forall₂ (fun a b => Balanced (w a) (v b) (R a b)) as bs) :
    Balanced (as.map w).sum (bs.map v).sum (List.Forall₂ R as bs) := by
  induction h with
  | nil => exact ⟨le_rfl, fun _ => .nil⟩
  | cons hab _ ih =>
    obtain ⟨hle, hrel⟩ := hab
    obtain ⟨hsum, hrels⟩ := ih
    simp only [Balanced, List.map_cons, List.sum_cons]
    exact ⟨by omega, fun h => .cons (hrel (by omega)) (hrels (by omega))⟩

theorem balanced_of_subperm (hsub : chosen.Subperm as) (hpos : ∀ a ∈ as, 0 < w a)
    (h : List.Forall₂ (fun a b => Balanced (w a) (v b) (R a b)) chosen bs) :
    Balanced (as.map w).sum (bs.map v).sum (chosen.Perm as ∧ List.Forall₂ R chosen bs) := by
  obtain ⟨hle, hrel⟩ := balanced_of_forall₂ h
  obtain ⟨rest, hall⟩ := exists_rest hsub
  have hsum := (hall.map w).sum_nat
  rw [List.map_append, List.sum_append_nat] at hsum
  refine ⟨by omega, fun h => ?_⟩
  -- anything left over would weigh something
  obtain rfl : rest = [] := by
    refine List.eq_nil_iff_forall_not_mem.mpr fun a ha => ?_
    have hmem := hall.mem_iff.mpr (List.mem_append_right chosen ha)
    have hgain : 0 < (rest.map w).sum := List.sum_pos_iff_exists_pos_nat.mpr
      ⟨w a, List.mem_map_of_mem ha, hpos a hmem⟩
    omega
  rw [List.append_nil] at hall
  exact ⟨hall.symm, hrel (by omega)⟩

end Weight

namespace Value

def weight (value : Value) : Nat := 1 + (value.parts.attach.map fun part => weight part.1).sum
termination_by sizeOf value
decreasing_by exact sizeOf_lt_of_mem_parts part.2

theorem weight_eq (value : Value) : value.weight = 1 + (value.parts.map weight).sum := by
  rw [weight, List.attach_map_val (f := weight)]

theorem weight_pos (value : Value) : 0 < value.weight := by
  rw [weight_eq]
  omega

end Value

namespace Covers

variable {a e : Value} {found chosen items : List Value} {fields : Fields Value}

theorem balanced_array (hsub : chosen.Subperm found)
    (h : List.Forall₂ (fun a e => Balanced a.weight e.weight (Alike a e)) chosen items) :
    Balanced (Value.array found).weight (Value.array items).weight
      (chosen.Perm found ∧ List.Forall₂ Alike chosen items) := by
  obtain ⟨hle, halike⟩ := balanced_of_subperm hsub (fun a _ => a.weight_pos) h
  rw [Value.weight_eq, Value.weight_eq]
  simp only [Value.parts]
  exact ⟨by omega, fun h => halike (by omega)⟩

theorem balanced_object {members : Fields Value} (hm : Fields.Sorted members)
    (hf : Fields.Sorted fields) (h : ∀ n ∈ fields, ∃ a, Fields.get? n.1 members = some a ∧
      Balanced a.weight n.2.weight (Alike a n.2)) :
    Balanced (Value.object members).weight (Value.object fields).weight
      (Alike (.object members) (.object fields)) := by
  obtain ⟨chosen, hsub, hpairs⟩ := Fields.exists_subperm_forall₂
    (R := fun a b => Balanced a.weight b.weight (Alike a b)) hf h
  have hbalanced := balanced_of_subperm (w := fun m => m.2.weight) (v := fun n => n.2.weight)
    (R := fun m n => m.1 = n.1 ∧ Alike m.2 n.2) hsub (fun m _ => m.2.weight_pos)
    (hpairs.imp fun m n ⟨hk, hle, halike⟩ => ⟨hle, fun h => ⟨hk, halike h⟩⟩)
  rw [Value.weight_eq, Value.weight_eq]
  simp only [Value.parts, List.map_map]
  refine ⟨Nat.add_le_add_left hbalanced.1 1, fun h => ?_⟩
  obtain ⟨hperm, halike⟩ := hbalanced.2 (Nat.le_of_add_le_add_left h)
  refine .object (fun key => ?_) fun key a b ha hb => ?_
  · rw [← Fields.keys_eq_of_forall₂ halike]
    exact (hperm.map Prod.fst).mem_iff.symm
  · obtain ⟨m, hmem, hk, hab⟩ := exists_of_forall₂ halike (Fields.mem_of_get? hb)
    obtain rfl : m.1 = key := hk
    have hget := Fields.get?_of_mem hm (hperm.mem_iff.mp hmem)
    cases ha.symm.trans hget
    exact hab

theorem balanced (ha : a.Datum) (he : e.Datum) (h : Covers a e) :
    Balanced a.weight e.weight (Alike a e) := by
  induction e using Value.induction_on_parts generalizing a with
  | step e ih =>
    cases e with
    | ordered items => exact he.1.here.elim
    | type kind => exact he.1.here.elim
    | array items =>
      obtain ⟨found, rfl, chosen, hsub, hpairs⟩ := (array_iff_of_plain ha.1).mp h
      obtain ⟨hle, halike⟩ := balanced_array hsub (forall₂_imp_of_mem hpairs fun c hc item hm =>
        ih item hm (ha.parts (hsub.subset hc)) (he.parts hm))
      refine ⟨hle, fun h => ?_⟩
      obtain ⟨hperm, halike⟩ := halike h
      exact .of_forall₂ hperm.symm halike
    | object fields =>
      obtain ⟨members, rfl, hkeys, hmembers⟩ := object_iff.mp h
      refine balanced_object ha.2.here he.2.here fun n hn => ?_
      obtain ⟨a, hget⟩ := Fields.mem_keys_iff.mp (hkeys n.1 (List.mem_map_of_mem hn))
      have hm : n.2 ∈ (Value.object fields).parts := List.mem_map_of_mem hn
      exact ⟨a, hget, ih n.2 hm (ha.parts (Value.mem_parts_of_get? hget)) (he.parts hm)
        (hmembers n.1 a n.2 hget (Fields.get?_of_mem he.2.here hn))⟩
    | _ =>
      have halike := h.alike_of_scalar trivial
      refine ⟨?_, fun _ => halike⟩
      rw [Value.weight_eq]
      exact a.weight_pos

theorem weight_eq_of_alike (ha : a.Datum) (he : e.Datum) (h : Alike a e) : a.weight = e.weight :=
  Nat.le_antisymm ((of_alike h.symm).balanced he ha).1 ((of_alike h).balanced ha he).1

theorem alike_of_chosen (hf : (Value.array found).Datum) (hi : (Value.array items).Datum)
    (h : Alike (.array found) (.array items)) (hsub : chosen.Subperm found)
    (hpairs : List.Forall₂ Covers chosen items) : List.Forall₂ Alike chosen items := by
  have hbalanced := balanced_array hsub (forall₂_imp_of_mem hpairs fun c hc item hm =>
    balanced (hf.parts (hsub.subset hc)) (hi.parts hm))
  exact (hbalanced.2 (weight_eq_of_alike hf hi h).le).2

end Covers

end ApiContract
