import ApiContract.Comparison
import ApiContract.Proofs.Bind
import ApiContract.Proofs.Fields
import ApiContract.Proofs.Number.Equality

namespace ApiContract.Comparison

variable {s : Strictness} {path : String} {actual expected : Value} {items : List Value}

theorem isOk_iff {outcome : Outcome} : outcome.isOk = true ↔ outcome = .ok () := by
  cases outcome with
  | error mismatch => simp [Except.isOk, Except.toBool]
  | ok => simp [Except.isOk, Except.toBool]

theorem seq_eq_ok_iff {first next : Outcome} :
    (first >>= fun _ => next) = .ok () ↔ first = .ok () ∧ next = .ok () := by
  rw [bind_eq_ok_iff]
  exact ⟨fun ⟨_, h, h'⟩ => ⟨h, h'⟩, fun ⟨h, h'⟩ => ⟨(), h, h'⟩⟩

theorem compareScalar_eq_ok_iff :
    compareScalar actual expected path = .ok () ↔ sameScalar actual.normal expected = true := by
  unfold compareScalar
  split <;> simp_all [fail]

theorem compareKind_eq_ok_iff {kind : Kind} :
    compareKind actual kind path = .ok () ↔ kind.accepts actual.normal = true := by
  unfold compareKind
  split <;> simp_all [fail]

def Items (actual : Value) (found : List Value) : Prop :=
  actual = .array found ∨ actual = .ordered found

theorem Items.unique {value : Value} {found others : List Value} (h : Items value found)
    (h' : Items value others) : others = found := by
  rcases h with rfl | rfl <;> rcases h' with h' | h' <;> cases h' <;> rfl

theorem itemsFor_of_items {n : Nat} {found : List Value} (h : Items actual found) :
    itemsFor s actual n path =
      if s.strict && found.length != n then .error ⟨path, .wrongLength n found.length⟩
      else if found.length < n then .error ⟨path, .tooShort n found.length⟩
      else .ok found := by
  rcases h with rfl | rfl <;> rfl

theorem itemsFor_of_other {n : Nat} (h : ∀ found, ¬ Items actual found) :
    itemsFor s actual n path = .error ⟨path, .notArray actual.normal⟩ := by
  cases actual with
  | array found => exact absurd (.inl rfl) (h found)
  | ordered found => exact absurd (.inr rfl) (h found)
  | _ => rfl

theorem itemsFor_eq_ok_iff {n : Nat} {found : List Value} :
    itemsFor s actual n path = .ok found ↔
      Items actual found ∧ n ≤ found.length ∧ (s.strict = true → found.length = n) := by
  constructor
  · intro h
    by_cases hothers : ∃ others, Items actual others
    · obtain ⟨others, ha⟩ := hothers
      rw [itemsFor_of_items ha] at h
      split at h
      · cases h
      · rename_i hstrict
        simp only [Bool.and_eq_true, bne_iff_ne, not_and, not_not] at hstrict
        split at h
        · cases h
        · rename_i hlength
          cases h
          exact ⟨ha, Nat.le_of_not_lt hlength, hstrict⟩
    · rw [itemsFor_of_other fun others ha => hothers ⟨others, ha⟩] at h
      cases h
  · rintro ⟨ha, hlength, hstrict⟩
    rw [itemsFor_of_items ha, if_neg (by simpa using hstrict), if_neg (Nat.not_lt.mpr hlength)]

theorem surplusKey?_eq_none_iff {found fields : Fields Value} :
    surplusKey? s found fields path = none ↔
      (s.strict = true → ∀ key ∈ found.keys,
        key ∈ fields.keys ∨ path.isEmpty = true ∧ key ∈ s.ignored) := by
  unfold surplusKey?
  split
  · rename_i hs
    simp only [hs, List.find?_eq_none, Bool.not_eq_true', Bool.not_eq_false, Bool.or_eq_true,
      Bool.and_eq_true, Fields.has_iff, List.contains_iff_mem, forall_const]
  · rename_i hs
    simp [hs]

theorem compareAt_array_eq_ok_iff :
    compareAt s path actual (.array items) = .ok () ↔
      ∃ found, itemsFor s actual items.length path = .ok found ∧
        claim s path 0 found.zipIdx items = .ok () := by
  rw [compareAt, bind_eq_ok_iff]

theorem compareAt_ordered_eq_ok_iff :
    compareAt s path actual (.ordered items) = .ok () ↔
      ∃ found, itemsFor s actual items.length path = .ok found ∧
        compareItems s path 0 found items = .ok () := by
  rw [compareAt, bind_eq_ok_iff]

theorem compareAt_object_eq_ok_iff {fields : Fields Value} :
    compareAt s path actual (.object fields) = .ok () ↔
      ∃ found, actual = .object found ∧ compareFields s path found fields = .ok () ∧
        surplusKey? s found fields path = none := by
  cases actual with
  | object found =>
    rw [compareAt, seq_eq_ok_iff]
    cases hk : surplusKey? s found fields path <;> simp [fail, hk]
  | _ => simp [compareAt, fail]

theorem compareFields_eq_ok_iff {found fields : Fields Value} :
    compareFields s path found fields = .ok () ↔
      ∀ m ∈ fields, ∃ a, Fields.get? m.1 found = some a ∧
        compareAt s (joinedPath path m.1) a m.2 = .ok () := by
  induction fields with
  | nil => simp [compareFields]
  | cons m fields ih =>
    rw [List.forall_mem_cons, ← ih, compareFields]
    cases hg : Fields.get? m.1 found with
    | none => simp [fail]
    | some a => simp [seq_eq_ok_iff]

theorem mem_keys_iff_of_strict {found fields : Fields Value} (hs : s.strict = true)
    (hi : path = "" → s.ignored = []) (hf : compareFields s path found fields = .ok ())
    (hn : surplusKey? s found fields path = none) (key : String) :
    key ∈ found.keys ↔ key ∈ fields.keys := by
  constructor
  · intro hk
    obtain hk | ⟨hp, hm⟩ := surplusKey?_eq_none_iff.mp hn hs key hk
    · exact hk
    · rw [hi (by simpa using hp)] at hm
      cases hm
  · intro hk
    obtain ⟨m, hm, rfl⟩ := List.mem_map.mp hk
    obtain ⟨a, hg, -⟩ := compareFields_eq_ok_iff.mp hf m hm
    exact Fields.mem_keys_iff.mpr ⟨a, hg⟩

end ApiContract.Comparison
