import ApiContract.Proofs.Comparison.Alike
import ApiContract.Proofs.Comparison.Below

namespace ApiContract

namespace Fields

variable {α : Type}

def kept (ignored : List String) (fields found : Fields α) : Fields α :=
  found.filter fun m => has m.1 fields || !ignored.contains m.1

variable {ignored : List String} {fields found : Fields α} {key : String}

theorem get?_kept (h : key ∈ fields.keys) : get? key (kept ignored fields found) = get? key found :=
  get?_filter (p := fun key => has key fields || !ignored.contains key)
    (by rw [has_iff.mpr h, Bool.true_or])

theorem mem_keys_kept : key ∈ (kept ignored fields found).keys ↔
    key ∈ found.keys ∧ (key ∈ fields.keys ∨ key ∉ ignored) := by
  have hp : (has key fields || !ignored.contains key) = true ↔
      key ∈ fields.keys ∨ key ∉ ignored := by
    simp [has_iff]
  rw [← hp]
  simp only [kept, keys, List.mem_map, List.mem_filter]
  constructor
  · rintro ⟨m, ⟨hm, hk⟩, rfl⟩
    exact ⟨⟨m, hm, rfl⟩, hk⟩
  · rintro ⟨⟨m, hm, rfl⟩, hk⟩
    exact ⟨m, ⟨hm, hk⟩, rfl⟩

theorem sorted_kept (h : Sorted found) : Sorted (kept ignored fields found) :=
  h.sublist (List.filter_sublist.map _)

theorem kept_eq_self (h : ∀ key ∈ found.keys, key ∈ fields.keys) :
    kept ignored fields found = found := by
  refine List.filter_eq_self.mpr fun m hm => ?_
  rw [has_iff.mpr (h m.1 (List.mem_map_of_mem hm)), Bool.true_or]

theorem kept_kept :
    kept ignored fields (kept ignored fields found) = kept ignored fields found := by
  rw [kept, kept, List.filter_filter]
  simp

end Fields

mutual

/-- A received value without the ignored members of its root and of all that stands under empty keys
only. -/
def Value.pruned (ignored : List String) : (expected actual : Value) → Value
  | .object fields, .object found =>
    .object ((Fields.kept ignored fields found).map fun m =>
      (m.1, if m.1 = "" then Value.prunedUnder ignored fields m.2 else m.2))
  | _, actual => actual

def Value.prunedUnder (ignored : List String) : List (String × Value) → Value → Value
  | [], actual => actual
  | (key, expected) :: fields, actual =>
    if key = "" then Value.pruned ignored expected actual
    else Value.prunedUnder ignored fields actual

end

namespace Comparison

open Value (Tidy)

variable {s : Strictness} {ignored : List String} {actual expected : Value}
  {found fields : Fields Value}

theorem compareAt_root_eq_ok_iff :
    compareAt s "" (.object found) (.object fields) = .ok () ↔
      (∀ m ∈ fields, ∃ a, Fields.get? m.1 found = some a ∧ compareAt s m.1 a m.2 = .ok ()) ∧
        (s.strict = true → ∀ key ∈ found.keys, key ∈ fields.keys ∨ key ∈ s.ignored) := by
  simp only [compareAt_object_eq_ok_iff, compareFields_eq_ok_iff, surplusKey?_eq_none_iff,
    joinedPath_root]
  simp

theorem prunedUnder_eq :
    Value.prunedUnder ignored fields actual = match Fields.get? "" fields with
      | some expected => Value.pruned ignored expected actual
      | none => actual := by
  induction fields with
  | nil => rw [Value.prunedUnder, Fields.get?]
  | cons m fields ih =>
    rw [Value.prunedUnder, Fields.get?]
    by_cases hm : m.1 = ""
    · rw [if_pos hm, if_pos hm]
    · rw [if_neg hm, if_neg hm, ih]

theorem mem_keys_pruned {key : String} :
    key ∈ Fields.keys ((Fields.kept ignored fields found).map fun m =>
        (m.1, if m.1 = "" then Value.prunedUnder ignored fields m.2 else m.2)) ↔
      key ∈ found.keys ∧ (key ∈ fields.keys ∨ key ∉ ignored) := by
  rw [← Fields.mem_keys_kept, Fields.keys, List.map_map]
  rfl

theorem not_both_pruned (hb : ¬ BothObjects actual expected) :
    Value.pruned ignored expected actual = actual := by
  unfold Value.pruned
  split
  · exact absurd ⟨_, _, rfl, rfl⟩ hb
  · rfl

theorem get?_pruned {m : String × Value} (hs : Fields.Sorted fields) (hm : m ∈ fields) :
    Fields.get? m.1 ((Fields.kept ignored fields found).map fun m =>
        (m.1, if m.1 = "" then Value.prunedUnder ignored fields m.2 else m.2)) =
      (Fields.get? m.1 found).map fun a =>
        if m.1 = "" then Value.pruned ignored m.2 a else a := by
  have hkey : m.1 ∈ fields.keys := List.mem_map_of_mem hm
  rw [Fields.get?_map
    (f := fun key a => if key = "" then Value.prunedUnder ignored fields a else a),
    Fields.get?_kept hkey]
  obtain ⟨key, expected⟩ := m
  by_cases hk : key = ""
  · subst hk
    simp only [if_true, prunedUnder_eq, Fields.get?_of_mem hs hm]
  · simp only [if_neg hk]

/-- Strict comparison succeeds if it does without what it ignores. -/
theorem compareAt_ignoring_iff (ht : expected.Tidy) :
    compareAt ⟨true, ignored⟩ "" actual expected = .ok () ↔
      compareAt exact "" (Value.pruned ignored expected actual) expected = .ok () := by
  induction expected using Value.induction_on_parts generalizing actual with
  | step expected ih =>
    by_cases hb : BothObjects actual expected
    · obtain ⟨found, fields, rfl, rfl⟩ := hb
      rw [Value.pruned, compareAt_root_eq_ok_iff, compareAt_root_eq_ok_iff]
      refine and_congr (forall₂_congr fun m hm => ?_) ?_
      · rw [get?_pruned ht.here hm]
        have hpart := List.mem_map_of_mem (f := Prod.snd) hm
        cases Fields.get? m.1 found with
        | none => simp
        | some a =>
          by_cases hk : m.1 = ""
          · simp [hk, ih m.2 hpart (ht.parts hpart)]
          · simp [hk, compareAt_congr (s := ⟨true, ignored⟩) (t := exact) rfl hk]
      · simp only [exact, mem_keys_pruned, List.not_mem_nil, or_false, forall_const, and_imp]
        refine forall₂_congr fun key hk => ?_
        by_cases hkey : key ∈ ignored <;> simp [hkey]
    · rw [not_both_pruned hb,
        compareAt_congr_of_not_both (s := ⟨true, ignored⟩) (t := exact) rfl hb]

theorem pruned_eq_self (ha : actual.Tidy) (h : compareAt exact "" actual expected = .ok ()) :
    Value.pruned ignored expected actual = actual := by
  induction expected using Value.induction_on_parts generalizing actual with
  | step expected ih =>
    by_cases hb : BothObjects actual expected
    · obtain ⟨found, fields, rfl, rfl⟩ := hb
      obtain ⟨hfields, hkeys⟩ := compareAt_root_eq_ok_iff.mp h
      have hkept : Fields.kept ignored fields found = found :=
        Fields.kept_eq_self fun key hk => (hkeys rfl key hk).resolve_right (by simp [exact])
      have hunder : ∀ m ∈ found, m.1 = "" → Value.prunedUnder ignored fields m.2 = m.2 := by
        rintro ⟨key, a⟩ hm rfl
        rw [prunedUnder_eq]
        split
        · rename_i e he
          have hmem := Fields.mem_of_get? he
          obtain ⟨a', hget, hcompare⟩ := hfields _ hmem
          cases (Fields.get?_of_mem ha.here hm).symm.trans hget
          exact ih e (List.mem_map_of_mem hmem) (ha.parts (List.mem_map_of_mem hm)) hcompare
        · rfl
      rw [Value.pruned, hkept]
      refine congrArg Value.object ((List.map_congr_left fun m hm => ?_).trans (List.map_id found))
      by_cases hk : m.1 = ""
      · rw [if_pos hk, hunder m hm hk]
        rfl
      · rw [if_neg hk]
        rfl
    · exact not_both_pruned hb

theorem pruned_eq_kept (ha : (Value.object found).Tidy)
    (h : compareAt exact "" (.object (Fields.kept ignored fields found)) (.object fields) =
      .ok ()) :
    Value.pruned ignored (.object fields) (.object found) =
      .object (Fields.kept ignored fields found) := by
  have hpruned : Value.pruned ignored (.object fields)
        (.object (Fields.kept ignored fields found)) =
      Value.pruned ignored (.object fields) (.object found) := by
    rw [Value.pruned, Value.pruned, Fields.kept_kept]
  obtain ⟨hsorted, hmembers⟩ := Value.throughout_object.mp ha
  have htidy : (Value.object (Fields.kept ignored fields found)).Tidy :=
    Value.throughout_object.mpr
      ⟨Fields.sorted_kept hsorted, fun m hm => hmembers m (List.mem_of_mem_filter hm)⟩
  exact hpruned.symm.trans (pruned_eq_self htidy h)

end Comparison

open Comparison (exact BothObjects)

/-- Strict comparison of two objects ignores keys at the root and in what stands under empty keys
only, and is otherwise strict comparison without them. Ignoring keys at the root alone comes to the
same unless it passes because of those under an empty key. Where not both values are objects nothing
is ignored. -/
theorem compareValues_ignoring {actual expected : Value} (ignored : List String)
    (ha : actual.Tidy) (he : expected.Tidy) :
    (∀ found fields, actual = .object found → expected = .object fields →
      (compareValues ⟨true, ignored⟩ actual expected = .ok () ↔
        compareValues exact (.pruned ignored expected actual) expected = .ok ()) ∧
      ((compareValues ⟨true, ignored⟩ actual expected = .ok () ↔
          compareValues exact (.object (Fields.kept ignored fields found)) expected = .ok ()) ↔
        (compareValues ⟨true, ignored⟩ actual expected = .ok () →
          Value.pruned ignored expected actual = .object (Fields.kept ignored fields found)))) ∧
    (¬ BothObjects actual expected → ∀ strict,
      compareValues ⟨strict, ignored⟩ actual expected =
        compareValues ⟨strict, []⟩ actual expected) := by
  refine ⟨?_, fun hb strict => Comparison.compareAt_congr_of_not_both rfl hb⟩
  rintro found fields rfl rfl
  have hiff := @Comparison.compareAt_ignoring_iff ignored (.object found) (.object fields) he
  refine ⟨hiff, ?_⟩
  have hkept := @Comparison.pruned_eq_kept ignored found fields ha
  constructor
  · exact fun h hpass => hkept (h.mp hpass)
  · intro h
    constructor
    · intro hpass
      rw [← h hpass]
      exact hiff.mp hpass
    · intro hpass
      refine hiff.mpr ?_
      rw [hkept hpass]
      exact hpass

theorem compareValues_ignoring_of_nested :
    let actual : Value := .object [("_id", .id "x"), ("user", .object [("_id", .id "y")])]
    let expected : Value := .object [("user", .object [])]
    actual.Tidy ∧ expected.Tidy ∧
      (compareValues ⟨true, ["_id"]⟩ actual expected = .ok () ↔
        compareValues exact (.object [("user", .object [("_id", .id "y")])]) expected =
          .ok ()) := by
  intro actual expected
  have ha : actual.Tidy := by
    refine Value.throughout_object.mpr ⟨List.pairwise_pair.mpr (by decide), ?_⟩
    simp [Value.Keyed, Fields.Sorted, Fields.keys]
  have he : expected.Tidy := by
    simp [expected, Value.Tidy, Value.Keyed, Fields.Sorted, Fields.keys]
  have hroot := ((compareValues_ignoring ["_id"] ha he).1 _ _ rfl rfl).2.mpr fun _ => rfl
  exact ⟨ha, he, hroot⟩

/-- Under an empty key it is. -/
theorem compareValues_ignoring_under_empty_key :
    let actual : Value := .object [("", .object [("_id", .id "x")])]
    let expected : Value := .object [("", .object [])]
    compareValues ⟨true, ["_id"]⟩ actual expected = .ok () ∧
      compareValues exact (.object (Fields.kept ["_id"] [("", .object [])]
        [("", .object [("_id", .id "x")])])) expected ≠ .ok () := by
  refine ⟨rfl, fun h => ?_⟩
  cases h

end ApiContract
