import ApiContract.Proofs.Comparison.FirstFit
import ApiContract.Proofs.Value.Parts

namespace ApiContract

/-- What a comparison leaves no room in. Numbers are matched by others of the same worth, arrays of
several items by any order of them, and without strictness there may be more than is expected. -/
def Value.Closed (strict : Bool) : Value → Prop
  | .number _ => False
  | .type _ => False
  | .array items => strict = true ∧ items.length ≤ 1
  | .ordered _ => strict = true
  | .object fields => strict = true ∧ Fields.Sorted fields
  | _ => True

def Value.Verbatim (strict : Bool) (value : Value) : Prop :=
  Throughout Value.parts (Value.Closed strict) value

namespace Comparison

variable {s : Strictness} {path : String} {json : Json} {expected : Value} {items : List Value}

theorem joinedPath_ne_empty {segment : String} (h : path ≠ "") : joinedPath path segment ≠ "" := by
  have hpath : path.isEmpty = false := by simpa using h
  simp [joinedPath, hpath, extended, h]

def Matches (s : Strictness) (actual expected : Value) : Prop :=
  ∃ path, path ≠ "" ∧ compareAt s path actual expected = .ok ()

/-- Nothing but one piece of data matches the value. -/
def Pinned (s : Strictness) (expected : Value) : Prop :=
  ∀ json, (Value.ofJson json).Tidy → Matches s (Value.ofJson json) expected →
    json.same expected.toJson = true

theorem matches_of_compareItems {index : Nat} {found : List Value} (hp : path ≠ "")
    (hl : found.length = items.length) (h : compareItems s path index found items = .ok ()) :
    List.Forall₂ (Matches s) found items := by
  induction items generalizing found index with
  | nil =>
    rw [List.eq_nil_of_length_eq_zero hl]
    exact .nil
  | cons item items ih =>
    cases found with
    | nil => cases hl
    | cons a found =>
      rw [compareItems, seq_eq_ok_iff] at h
      exact .cons ⟨_, joinedPath_ne_empty hp, h.1⟩ (ih (Nat.succ.inj hl) h.2)

theorem matches_of_claim {found : List Value} (hp : path ≠ "") (hl : found.length = items.length)
    (hi : items.length ≤ 1) (h : claim s path 0 found.zipIdx items = .ok ()) :
    List.Forall₂ (Matches s) found items := by
  cases items with
  | nil =>
    rw [List.eq_nil_of_length_eq_zero hl]
    exact .nil
  | cons item items =>
    obtain rfl : items = [] := List.eq_nil_of_length_eq_zero (by simpa using hi)
    obtain ⟨a, rfl⟩ := List.length_eq_one_iff.mp hl
    obtain ⟨_, hclaims⟩ := claim_eq_ok_iff.mp h
    cases hclaims with
    | cons takes _ =>
      cases takes with
      | here hfits => exact .cons ⟨_, joinedPath_ne_empty hp, hfits⟩ .nil
      | later _ takes => cases takes

theorem exists_items_of_ofJson {found : List Value} (h : Items (Value.ofJson json) found) :
    ∃ jsons, json = .array jsons ∧ found = Value.itemsOfJson jsons := by
  cases json <;> simp_all [Items, Value.ofJson]

theorem exists_fields_of_ofJson {found : Fields Value} (h : Value.ofJson json = .object found) :
    ∃ members, json = .object members ∧ found = Value.fieldsOfJson members := by
  cases json <;> simp_all [Value.ofJson]

theorem sameItems_of_matches {jsons : List Json} (hpinned : ∀ item ∈ items, Pinned s item)
    (ht : ∀ value ∈ Value.itemsOfJson jsons, value.Tidy)
    (h : List.Forall₂ (Matches s) (Value.itemsOfJson jsons) items) :
    Json.sameItems jsons (Value.itemsToJson items) = true := by
  induction items generalizing jsons with
  | nil =>
    cases jsons with
    | nil => rfl
    | cons json jsons => cases h
  | cons item items ih =>
    cases jsons with
    | nil => cases h
    | cons json jsons =>
      obtain ⟨hitem, hitems⟩ := List.forall_mem_cons.mp hpinned
      obtain ⟨htidy, ht⟩ := List.forall_mem_cons.mp ht
      cases h with
      | cons hm h =>
        rw [Value.itemsToJson, Json.sameItems, hitem json htidy hm, ih hitems ht h, Bool.and_self]

theorem sameFields_of_matches {members : Fields Json} {fields : Fields Value}
    (hpinned : ∀ m ∈ fields, Pinned s m.2)
    (ht : ∀ m ∈ Value.fieldsOfJson members, m.2.Tidy)
    (h : List.Forall₂ (fun m n => m.1 = n.1 ∧ Matches s m.2 n.2) (Value.fieldsOfJson members)
      fields) :
    Json.sameFields members (Value.fieldsToJson fields) = true := by
  induction fields generalizing members with
  | nil =>
    cases members with
    | nil => rfl
    | cons m members => cases h
  | cons n fields ih =>
    cases members with
    | nil => cases h
    | cons m members =>
      obtain ⟨hn, hfields⟩ := List.forall_mem_cons.mp hpinned
      obtain ⟨htidy, ht⟩ := List.forall_mem_cons.mp ht
      cases h with
      | cons hm h =>
        obtain ⟨hkey, hm⟩ := hm
        have hkey' : (m.1 == n.1) = true := beq_iff_eq.mpr hkey
        rw [Value.fieldsToJson, Json.sameFields, hn m.2 htidy hm, ih hfields ht h, hkey',
          Bool.and_self, Bool.and_self]

theorem pinned_of_verbatim (hv : expected.Verbatim s.strict) : Pinned s expected := by
  induction expected using Value.induction_on_parts with
  | step expected ih =>
    rintro json ht ⟨path, hp, h⟩
    have hparts : ∀ part ∈ expected.parts, Pinned s part := fun part hm => ih part hm (hv.parts hm)
    cases expected with
    | null =>
      rw [compareAt, compareScalar_eq_ok_iff] at h
      cases json <;> simp_all [sameScalar, Value.normal, Value.ofJson, Value.toJson, Json.same]
    | bool b =>
      rw [compareAt, compareScalar_eq_ok_iff] at h
      cases json <;> simp_all [sameScalar, Value.normal, Value.ofJson, Value.toJson, Json.same]
    | number n => exact hv.here.elim
    | type kind => exact hv.here.elim
    | string text =>
      rw [compareAt, compareScalar_eq_ok_iff] at h
      cases json <;> simp_all [sameScalar, Value.normal, Value.ofJson, Value.toJson, Json.same]
    | id text =>
      rw [compareAt, compareScalar_eq_ok_iff] at h
      cases json <;> simp_all [sameScalar, Value.normal, Value.ofJson, Value.toJson, Json.same]
    | array items =>
      obtain ⟨hstrict, hone⟩ := hv.here
      obtain ⟨found, hitems, hclaim⟩ := compareAt_array_eq_ok_iff.mp h
      obtain ⟨hfound, -, hlength⟩ := itemsFor_eq_ok_iff.mp hitems
      obtain ⟨jsons, rfl, rfl⟩ := exists_items_of_ofJson hfound
      rw [Value.toJson, Json.same]
      exact sameItems_of_matches hparts (fun _ hm => ht.parts hm)
        (matches_of_claim hp (hlength hstrict) hone hclaim)
    | ordered items =>
      obtain ⟨found, hitems, hcompare⟩ := compareAt_ordered_eq_ok_iff.mp h
      obtain ⟨hfound, -, hlength⟩ := itemsFor_eq_ok_iff.mp hitems
      obtain ⟨jsons, rfl, rfl⟩ := exists_items_of_ofJson hfound
      rw [Value.toJson, Json.same]
      exact sameItems_of_matches hparts (fun _ hm => ht.parts hm)
        (matches_of_compareItems hp (hlength hv.here) hcompare)
    | object fields =>
      obtain ⟨hstrict, hsorted⟩ := hv.here
      obtain ⟨found, hfound, hfields, hsurplus⟩ := compareAt_object_eq_ok_iff.mp h
      obtain ⟨members, rfl, rfl⟩ := exists_fields_of_ofJson hfound
      have hkeys := Fields.keys_eq_of_mem_iff ht.here hsorted
        (mem_keys_iff_of_strict hstrict (fun he => absurd he hp) hfields hsurplus)
      have hmatches := Fields.forall₂_of_keys_eq (R := Matches s) ht.here hkeys fun n hn => by
        obtain ⟨a, hg, hcompare⟩ := compareFields_eq_ok_iff.mp hfields n hn
        exact ⟨a, hg, _, joinedPath_ne_empty hp, hcompare⟩
      rw [Value.toJson, Json.same]
      exact sameFields_of_matches (fun m hm => hparts m.2 (List.mem_map_of_mem hm))
        (fun m hm => ht.parts (List.mem_map_of_mem hm)) hmatches

end Comparison

end ApiContract
