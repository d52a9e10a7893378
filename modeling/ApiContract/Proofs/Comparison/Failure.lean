import ApiContract.Proofs.Comparison.Covering

namespace ApiContract.Comparison

def Acceptable (s : Strictness) (found items : List Value) : Prop :=
  items.length ≤ found.length ∧ (s.strict = true → found.length = items.length)

def MembersPass (s : Strictness) (path : String) (found fields : Fields Value) : Prop :=
  ∀ m ∈ fields, ∃ a, Fields.get? m.1 found = some a ∧
    compareAt s (joinedPath path m.1) a m.2 = .ok ()

def ItemsPass (s : Strictness) (path : String) (found items : List Value) (index : Nat) : Prop :=
  ∀ i < index, ∀ a e, found[i]? = some a → items[i]? = some e →
    compareAt s (joinedPath path (toString i)) a e = .ok ()

def Admitted (s : Strictness) (path : String) (fields : Fields Value) (key : String) : Prop :=
  key ∈ fields.keys ∨ path = "" ∧ key ∈ s.ignored

/-- Two values are at odds as they stand, whatever is inside of them. -/
inductive Clash (s : Strictness) : Value → Value → Conflict → Prop
  | kind {a : Value} {kind : Kind} (refused : kind.accepts a.normal = false) :
    Clash s a (.type kind) (.notInstance kind a.normal)
  | notArray {a e : Value} {items : List Value} (expected : Items e items)
    (other : ∀ found, ¬ Items a found) : Clash s a e (.notArray a.normal)
  | length {a e : Value} {found items : List Value} (expected : Items e items)
    (received : Items a found) (strict : s.strict = true) (differ : found.length ≠ items.length) :
    Clash s a e (.wrongLength items.length found.length)
  | short {a e : Value} {found items : List Value} (expected : Items e items)
    (received : Items a found) (loose : s.strict = false) (fewer : found.length < items.length) :
    Clash s a e (.tooShort items.length found.length)
  | notObject {a : Value} {fields : Fields Value} (other : ∀ found, a ≠ .object found) :
    Clash s a (.object fields) (.notObject a.normal)
  | scalar {a e : Value} (scalar : e.Scalar) (unequal : sameScalar a.normal e.normal = false) :
    Clash s a e (.unequal e.normal a.normal)

variable {s : Strictness} {path place : String} {conflict cause : Conflict} {index : Nat}
  {actual expected a e : Value} {found items : List Value}

theorem fail_eq_error_iff :
    fail path cause = .error ⟨place, conflict⟩ ↔ place = path ∧ conflict = cause := by
  simp [fail, eq_comm]

theorem seq_eq_error_iff {first next : Outcome} {m : Mismatch} :
    (first >>= fun _ => next) = .error m ↔ first = .error m ∨ first = .ok () ∧ next = .error m := by
  rw [bind_eq_error_iff]
  exact or_congr_right ⟨fun ⟨_, h⟩ => h, fun h => ⟨(), h⟩⟩

theorem compareScalar_eq_error_iff :
    compareScalar actual expected path = .error ⟨place, conflict⟩ ↔ place = path ∧
      sameScalar actual.normal expected = false ∧ conflict = .unequal expected actual.normal := by
  unfold compareScalar
  split <;> simp_all [fail_eq_error_iff]

theorem compareKind_eq_error_iff {kind : Kind} :
    compareKind actual kind path = .error ⟨place, conflict⟩ ↔ place = path ∧
      kind.accepts actual.normal = false ∧ conflict = .notInstance kind actual.normal := by
  unfold compareKind
  split <;> simp_all [fail_eq_error_iff]

theorem itemsFor_eq_error_iff (he : Items expected items) :
    itemsFor s actual items.length path = .error ⟨place, conflict⟩ ↔
      place = path ∧ Clash s actual expected conflict := by
  constructor
  · intro h
    by_cases ha : ∃ found, Items actual found
    · obtain ⟨found, ha⟩ := ha
      rw [itemsFor_of_items ha] at h
      split at h
      · rename_i hlength
        simp only [Bool.and_eq_true, bne_iff_ne] at hlength
        cases h
        exact ⟨rfl, .length he ha hlength.1 hlength.2⟩
      · rename_i hlength
        simp only [Bool.and_eq_true, bne_iff_ne, not_and, not_not] at hlength
        split at h
        · rename_i hfewer
          cases h
          have hloose : s.strict = false := Bool.eq_false_iff.mpr fun hs => by
            have := hlength hs
            omega
          exact ⟨rfl, .short he ha hloose hfewer⟩
        · cases h
    · have hother : ∀ found, ¬ Items actual found := fun found hf => ha ⟨found, hf⟩
      rw [itemsFor_of_other hother] at h
      cases h
      exact ⟨rfl, .notArray he hother⟩
  · rintro ⟨rfl, h⟩
    cases h with
    | kind => obtain he | he := he <;> cases he
    | notArray _ other => exact itemsFor_of_other other
    | length he' received strict differ =>
      obtain rfl := he.unique he'
      rw [itemsFor_of_items received, if_pos (by simp [strict, differ])]
    | short he' received loose fewer =>
      obtain rfl := he.unique he'
      rw [itemsFor_of_items received, if_neg (by simp [loose]), if_pos fewer]
    | notObject => obtain he | he := he <;> cases he
    | scalar hs => obtain rfl | rfl := he <;> exact hs.elim

theorem itemsFor_eq_ok_iff_acceptable : itemsFor s actual items.length path = .ok found ↔
    Items actual found ∧ Acceptable s found items := itemsFor_eq_ok_iff

theorem compareItems_eq_error_iff {m : Mismatch} :
    compareItems s path index found items = .error m ↔
      ∃ i a e, found[i]? = some a ∧ items[i]? = some e ∧
        (∀ j < i, ∀ a e, found[j]? = some a → items[j]? = some e →
          compareAt s (joinedPath path (toString (index + j))) a e = .ok ()) ∧
        compareAt s (joinedPath path (toString (index + i))) a e = .error m := by
  induction items generalizing found index with
  | nil => rw [compareItems] <;> simp
  | cons item items ih =>
    cases found with
    | nil => rw [compareItems] <;> simp
    | cons a found =>
      have hshift : ∀ j, index + 1 + j = index + (j + 1) := fun j => by omega
      rw [compareItems, seq_eq_error_iff, ih]
      simp only [hshift]
      constructor
      · rintro (hfirst | ⟨hfirst, i, b, e, hb, he, hpassed, hfails⟩)
        · exact ⟨0, a, item, rfl, rfl, fun j hj => absurd hj (Nat.not_lt_zero j), hfirst⟩
        · refine ⟨i + 1, b, e, hb, he, fun j hj => ?_, hfails⟩
          cases j with
          | zero =>
            rintro _ _ ⟨⟩ ⟨⟩
            exact hfirst
          | succ j => exact hpassed j (Nat.lt_of_succ_lt_succ hj)
      · rintro ⟨i, b, e, hb, he, hpassed, hfails⟩
        cases i with
        | zero =>
          cases hb
          cases he
          exact .inl hfails
        | succ i =>
          refine .inr ⟨hpassed 0 (Nat.succ_pos i) a item rfl rfl, i, b, e, hb, he, ?_, hfails⟩
          exact fun j hj => hpassed (j + 1) (Nat.succ_lt_succ hj)

theorem compareItems_zero_eq_error_iff {m : Mismatch} :
    compareItems s path 0 found items = .error m ↔
      ∃ i a e, found[i]? = some a ∧ items[i]? = some e ∧ ItemsPass s path found items i ∧
        compareAt s (joinedPath path (toString i)) a e = .error m := by
  rw [compareItems_eq_error_iff]
  simp only [Nat.zero_add, ItemsPass]

theorem compareFields_append {found before after : Fields Value}
    (h : MembersPass s path found before) :
    compareFields s path found (before ++ after) = compareFields s path found after := by
  induction before with
  | nil => rfl
  | cons m before ih =>
    obtain ⟨⟨a, hget, hpass⟩, hbefore⟩ := List.forall_mem_cons.mp h
    rw [List.cons_append, compareFields, hget]
    simp only [hpass]
    exact ih hbefore

theorem compareFields_eq_error_iff {found fields : Fields Value} {m : Mismatch} :
    compareFields s path found fields = .error m ↔
      ∃ before key e after, fields = before ++ (key, e) :: after ∧ MembersPass s path found before ∧
        (Fields.get? key found = none ∧ m = ⟨joinedPath path key, .missingKey key⟩ ∨
          ∃ a, Fields.get? key found = some a ∧
            compareAt s (joinedPath path key) a e = .error m) := by
  constructor
  · intro h
    induction fields with
    | nil => cases h
    | cons n fields ih =>
      rw [compareFields] at h
      cases hget : Fields.get? n.1 found with
      | none =>
        rw [hget] at h
        cases h
        exact ⟨[], n.1, n.2, fields, rfl, by simp [MembersPass], .inl ⟨hget, rfl⟩⟩
      | some a =>
        rw [hget] at h
        obtain hfails | ⟨hpass, hfails⟩ := seq_eq_error_iff.mp h
        · exact ⟨[], n.1, n.2, fields, rfl, by simp [MembersPass], .inr ⟨a, hget, hfails⟩⟩
        · obtain ⟨before, key, e, after, rfl, hpassed, hstops⟩ := ih hfails
          exact ⟨n :: before, key, e, after, rfl,
            List.forall_mem_cons.mpr ⟨⟨a, hget, hpass⟩, hpassed⟩, hstops⟩
  · rintro ⟨before, key, e, after, rfl, hpassed, ⟨hget, rfl⟩ | ⟨a, hget, hfails⟩⟩
    · rw [compareFields_append hpassed, compareFields, hget]
      rfl
    · rw [compareFields_append hpassed, compareFields, hget]
      exact seq_eq_error_iff.mpr (.inl hfails)

theorem surplusKey?_eq_some_iff {found fields : Fields Value} {key : String} :
    surplusKey? s found fields path = some key ↔ s.strict = true ∧
      ∃ before after, found.keys = before ++ key :: after ∧
        (∀ k ∈ before, Admitted s path fields k) ∧ ¬ Admitted s path fields key := by
  have hadmitted : ∀ k, (Fields.has k fields || (path.isEmpty && s.ignored.contains k)) = true ↔
      Admitted s path fields k := fun k => by
    simp [Admitted, Fields.has_iff]
  unfold surplusKey?
  split
  · rename_i hs
    rw [List.find?_eq_some_iff_append]
    simp only [Bool.not_not, Bool.not_eq_true', ← Bool.not_eq_true, hadmitted, hs, true_and]
    constructor
    · rintro ⟨hkey, before, after, hsplit, hbefore⟩
      exact ⟨before, after, hsplit, hbefore, hkey⟩
    · rintro ⟨before, after, hsplit, hbefore, hkey⟩
      exact ⟨hkey, before, after, hsplit, hbefore⟩
  · rename_i hs
    simp [hs]

end ApiContract.Comparison
