import ApiContract.Proofs.Run.Insertion
import ApiContract.Proofs.Value.Places

namespace ApiContract.Value

variable {document defaults own other : Value} {fields others : Fields Value} {key : String}
  {keys front rest : List String}

def chain (keys : List String) : Path := keys.map Segment.key

/-- The document and the defaults both have an object at the end of the keys. -/
def Meet (document defaults : Value) (keys : List String) : Prop :=
  ∃ fields others, document.at? (chain keys) = some (object fields) ∧
    defaults.at? (chain keys) = some (object others)

/-- The longest front of the keys at whose end a document has a value. -/
structure Deepest (document : Value) (keys front : List String) : Prop where
  isPrefix : front <+: keys
  present : (document.at? (chain front)).isSome
  longest : ∀ longer, longer <+: keys → (document.at? (chain longer)).isSome → longer <+: front

def completed : Option Value → Option Value → Option Value
  | some own, some other => some (own.withDefaults other)
  | some own, none => some own
  | none, other => other

theorem chain_append : chain (front ++ rest) = chain front ++ chain rest := List.map_append

theorem chain_cons : chain (key :: keys) = .key key :: chain keys := rfl

theorem withDefaults_object :
    (object fields).withDefaults (object others) = object (fieldsWithDefaults fields others) := by
  rw [withDefaults]

theorem withDefaults_of_not_object (h : ∀ fields others, document = object fields →
    defaults ≠ object others) : document.withDefaults defaults = document := by
  cases defaults with
  | object others =>
    cases document with
    | object fields => exact absurd rfl (h fields others rfl)
    | _ =>
      rw [withDefaults]
      simp
  | _ =>
    rw [withDefaults]
    simp

theorem withDefaults_cases (document defaults : Value) :
    (∃ fields others, document = object fields ∧ defaults = object others) ∨
      document.withDefaults defaults = document := by
  by_cases h : ∃ fields others, document = object fields ∧ defaults = object others
  · exact .inl h
  · apply Or.inr
    apply withDefaults_of_not_object
    intro fields others hd he
    exact h ⟨fields, others, hd, he⟩

theorem fieldsWithDefaults_cons {value : Value} {m : Fields Value} :
    fieldsWithDefaults fields ((key, value) :: m) = fieldsWithDefaults
      (Fields.set key (((Fields.get? key fields).map (withDefaults · value)).getD value) fields)
      m := by
  rw [fieldsWithDefaults]
  cases Fields.get? key fields <;> rfl

theorem get?_fieldsWithDefaults_of_notMem (h : key ∉ Fields.keys others) :
    Fields.get? key (fieldsWithDefaults fields others) = Fields.get? key fields := by
  induction others generalizing fields with
  | nil => rw [fieldsWithDefaults]
  | cons m others ih =>
    obtain ⟨hm, hothers⟩ := not_or.mp (List.mem_cons.not.mp h)
    rw [fieldsWithDefaults_cons, ih hothers, Fields.get?_set_of_ne hm]

theorem get?_fieldsWithDefaults (hs : Fields.Sorted others) :
    Fields.get? key (fieldsWithDefaults fields others) =
      completed (Fields.get? key fields) (Fields.get? key others) := by
  induction others generalizing fields with
  | nil =>
    rw [fieldsWithDefaults, Fields.get?]
    cases Fields.get? key fields <;> rfl
  | cons m others ih =>
    obtain ⟨hlt, hothers⟩ := List.pairwise_cons.mp hs
    rw [fieldsWithDefaults_cons, Fields.get?]
    by_cases hm : m.1 = key
    · subst hm
      have hfresh : m.1 ∉ Fields.keys others := fun hmem => String.lt_irrefl _ (hlt _ hmem)
      rw [get?_fieldsWithDefaults_of_notMem hfresh, Fields.get?_set_self, if_pos rfl]
      cases Fields.get? m.1 fields <;> rfl
    · rw [ih hothers, Fields.get?_set_of_ne (Ne.symm hm), if_neg hm]

theorem mem_keys_fieldsWithDefaults (hs : Fields.Sorted others) :
    key ∈ Fields.keys (fieldsWithDefaults fields others) ↔
      key ∈ Fields.keys fields ∨ key ∈ Fields.keys others := by
  simp only [Fields.mem_keys_iff, get?_fieldsWithDefaults hs]
  cases Fields.get? key fields <;> cases Fields.get? key others <;> simp [completed]

theorem part?_withDefaults_object (hs : Fields.Sorted others) :
    ((object fields).withDefaults (object others)).part? (.key key) =
      completed ((object fields).part? (.key key)) ((object others).part? (.key key)) := by
  rw [withDefaults_object]
  exact get?_fieldsWithDefaults hs

theorem exists_object_of_part? (h : document.part? (.key key) = some own) :
    ∃ fields, document = object fields := by
  cases document using shapes with
  | arranged wrap items hwrap =>
    rw [hwrap.part?_key] at h
    cases h
  | object fields => exact ⟨fields, rfl⟩
  | leaf value hleaf =>
    rw [part?_of_leaf hleaf] at h
    cases h

/-- Where the document has a value, this value is filled from what the defaults have there. -/
theorem at?_withDefaults (he : defaults.Tidy) (h : document.at? (chain keys) = some own) :
    (document.withDefaults defaults).at? (chain keys) =
      completed (some own) (defaults.at? (chain keys)) := by
  induction keys generalizing document defaults with
  | nil =>
    cases h
    rfl
  | cons key keys ih =>
    rw [chain_cons, at?_cons] at h ⊢
    obtain ⟨inner, hinner, hown⟩ := Option.bind_eq_some_iff.mp h
    obtain ⟨fields, rfl⟩ := exists_object_of_part? hinner
    cases hother : defaults.part? (.key key) with
    | some other =>
      obtain ⟨others, rfl⟩ := exists_object_of_part? hother
      have hother' : other.Tidy := he.parts (mem_parts_of_part? hother)
      rw [part?_withDefaults_object he.here, hinner, at?_cons, hother]
      exact ih hother' hown
    | none =>
      have hpart : ((object fields).withDefaults defaults).part? (.key key) = some inner := by
        obtain ⟨_, others, -, rfl⟩ | hsame := withDefaults_cases (object fields) defaults
        · rw [part?_withDefaults_object he.here, hinner, hother]
          rfl
        · rw [hsame, hinner]
      rw [hpart, at?_cons, hother]
      exact hown

theorem exists_gap (h : document.at? (chain keys) = none) : ∃ front key rest own,
    keys = front ++ key :: rest ∧ document.at? (chain front) = some own ∧
      own.part? (.key key) = none := by
  induction keys generalizing document with
  | nil => cases h
  | cons key keys ih =>
    cases hinner : document.part? (.key key) with
    | none => exact ⟨[], key, keys, document, rfl, rfl, hinner⟩
    | some inner =>
      rw [chain_cons, at?_cons, hinner] at h
      obtain ⟨front, key', rest, own, hkeys, hown, hgap⟩ := ih h
      refine ⟨key :: front, key', rest, own, ?_, ?_, hgap⟩
      · rw [hkeys, List.cons_append]
      · rw [chain_cons, at?_cons, hinner]
        exact hown

theorem deepest_of_gap (h : document.at? (chain front) = some own)
    (hgap : own.part? (.key key) = none) : Deepest document (front ++ key :: rest) front where
  isPrefix := List.prefix_append front (key :: rest)
  present := by rw [h, Option.isSome_some]
  longest := by
    intro longer hlonger hpresent
    by_contra hnot
    -- whatever is longer goes on with the key behind which there is nothing
    have hfront : front ++ [key] <+: longer := by
      have hlength : front.length < longer.length := by
        by_contra hle
        exact hnot (List.prefix_of_prefix_length_le hlonger (List.prefix_append _ _)
          (Nat.le_of_not_lt hle))
      apply List.prefix_of_prefix_length_le _ hlonger
      · rw [List.length_append, List.length_singleton]
        omega
      · exact ⟨rest, by rw [List.append_assoc, List.singleton_append]⟩
    obtain ⟨more, rfl⟩ := hfront
    have hnone : document.at? (chain (front ++ [key] ++ more)) = none := by
      rw [List.append_assoc, chain_append, at?_append, h, Option.bind_some,
        List.singleton_append, chain_cons, at?_cons, hgap, Option.bind_none]
    rw [hnone] at hpresent
    cases hpresent

theorem completed_of_not_meet (h : document.at? (chain keys) = some own)
    (hnot : ¬ Meet document defaults keys) :
    completed (some own) (defaults.at? (chain keys)) = some own := by
  cases hother : defaults.at? (chain keys) with
  | none => rfl
  | some other =>
    obtain ⟨fields, others, rfl, rfl⟩ | hsame := withDefaults_cases own other
    · exact absurd ⟨fields, others, h, hother⟩ hnot
    · rw [completed, hsame]

/-- Behind the last value of the document stands what the defaults have, if both have an object
there. -/
theorem at?_withDefaults_of_gap (he : defaults.Tidy) (h : document.at? (chain front) = some own)
    (hgap : own.part? (.key key) = none) :
    (Meet document defaults front → (document.withDefaults defaults).at?
      (chain (front ++ key :: rest)) = defaults.at? (chain (front ++ key :: rest))) ∧
    (¬ Meet document defaults front → (document.withDefaults defaults).at?
      (chain (front ++ key :: rest)) = none) := by
  have hfront := at?_withDefaults he h
  simp only [chain_append, at?_append, hfront]
  constructor
  · rintro ⟨fields, others, hfields, hothers⟩
    obtain rfl : own = object fields := Option.some.inj (h.symm.trans hfields)
    have hsorted : (object others).Tidy := throughout_at? he hothers
    rw [hothers, completed, Option.bind_some, Option.bind_some, chain_cons, at?_cons, at?_cons,
      part?_withDefaults_object hsorted.here, hgap]
    rfl
  · intro hnot
    rw [completed_of_not_meet h hnot, Option.bind_some, chain_cons, at?_cons, hgap,
      Option.bind_none]

theorem fieldsWithDefaults_eq_self (hs : Fields.Sorted fields)
    (h : ∀ m ∈ others, ∃ own, Fields.get? m.1 fields = some own ∧ own.withDefaults m.2 = own) :
    fieldsWithDefaults fields others = fields := by
  induction others with
  | nil => rw [fieldsWithDefaults]
  | cons m others ih =>
    obtain ⟨⟨own, hown, hsame⟩, hothers⟩ := List.forall_mem_cons.mp h
    rw [fieldsWithDefaults_cons, hown, Option.map_some, hsame, Option.getD_some,
      Fields.set_eq_self hs hown]
    exact ih hothers

theorem withDefaults_self (hd : document.Tidy) : document.withDefaults document = document := by
  induction document using induction_on_parts with
  | step document ih =>
    obtain ⟨fields, _, rfl, -⟩ | hsame := withDefaults_cases document document
    · rw [withDefaults_object, fieldsWithDefaults_eq_self hd.here]
      intro m hm
      have hpart : m.2 ∈ (object fields).parts := List.mem_map_of_mem hm
      exact ⟨m.2, Fields.get?_of_mem hd.here hm, ih m.2 hpart (hd.parts hpart)⟩
    · exact hsame

theorem withDefaults_withDefaults (hd : document.Tidy) (he : defaults.Tidy) :
    (document.withDefaults defaults).withDefaults defaults = document.withDefaults defaults := by
  induction defaults using induction_on_parts generalizing document with
  | step defaults ih =>
    obtain ⟨fields, others, rfl, rfl⟩ | hsame := withDefaults_cases document defaults
    · have hmerged : (object (fieldsWithDefaults fields others)).Tidy := by
        rw [← withDefaults_object]
        exact hd.withDefaults he
      rw [withDefaults_object, withDefaults_object, fieldsWithDefaults_eq_self hmerged.here]
      intro m hm
      have hpart : m.2 ∈ (object others).parts := List.mem_map_of_mem hm
      have hfound := @get?_fieldsWithDefaults fields others m.1 he.here
      rw [Fields.get?_of_mem he.here hm] at hfound
      cases hown : Fields.get? m.1 fields with
      | none =>
        rw [hown] at hfound
        exact ⟨m.2, hfound, withDefaults_self (he.parts hpart)⟩
      | some own =>
        rw [hown] at hfound
        have hown' : own.Tidy := hd.parts (mem_parts_of_get? hown)
        exact ⟨_, hfound, ih m.2 hpart hown' (he.parts hpart)⟩
    · rw [hsame, hsame]

/-- Defaults only fill gaps. A value of the document stays as it is unless it meets an object of the
defaults as an object, in which case the keys of both are there. Where the document has nothing, it
gets what the defaults have if the last object on the way meets one of theirs, and nothing
otherwise. Once filled, there is nothing to fill from the same defaults. -/
theorem withDefaults_fills_gaps (document defaults : Value) (hd : document.Tidy)
    (he : defaults.Tidy) :
    (∀ keys own, document.at? (chain keys) = some own → ¬ Meet document defaults keys →
      (document.withDefaults defaults).at? (chain keys) = some own) ∧
    (∀ keys fields others, document.at? (chain keys) = some (object fields) →
      defaults.at? (chain keys) = some (object others) →
      ∃ members, (document.withDefaults defaults).at? (chain keys) = some (object members) ∧
        ∀ key, key ∈ Fields.keys members ↔ key ∈ Fields.keys fields ∨ key ∈ Fields.keys others) ∧
    (∀ keys, document.at? (chain keys) = none → ∃ front, Deepest document keys front ∧
      (Meet document defaults front →
        (document.withDefaults defaults).at? (chain keys) = defaults.at? (chain keys)) ∧
      (¬ Meet document defaults front →
        (document.withDefaults defaults).at? (chain keys) = none)) ∧
    (document.withDefaults defaults).withDefaults defaults = document.withDefaults defaults := by
  refine ⟨?_, ?_, ?_, withDefaults_withDefaults hd he⟩
  · intro keys own hown hnot
    rw [at?_withDefaults he hown, completed_of_not_meet hown hnot]
  · intro keys fields others hfields hothers
    have hsorted : (object others).Tidy := throughout_at? he hothers
    refine ⟨fieldsWithDefaults fields others, ?_, fun key => ?_⟩
    · rw [at?_withDefaults he hfields, hothers, completed, withDefaults_object]
    · exact mem_keys_fieldsWithDefaults hsorted.here
  · intro keys hnone
    obtain ⟨front, key, rest, own, rfl, hown, hgap⟩ := exists_gap hnone
    exact ⟨front, deepest_of_gap hown hgap, at?_withDefaults_of_gap he hown hgap⟩

theorem withDefaults_fills_gaps_of_nested :
    let document : Value :=
      .object [("note", .null), ("prefs", .object [("lang", .string "pt")])]
    let defaults : Value := .object [("note", .object [("by", .string "x")]),
      ("prefs", .object [("lang", .string "en"), ("theme", .object [("dark", .bool true)])])]
    document.Tidy ∧ defaults.Tidy ∧
      (document.withDefaults defaults).at? (chain ["note"]) = some .null ∧
      (document.withDefaults defaults).at? (chain ["prefs", "lang"]) = some (.string "pt") ∧
      (document.withDefaults defaults).at? (chain ["prefs", "theme", "dark"]) =
        some (.bool true) ∧
      (document.withDefaults defaults).withDefaults defaults = document.withDefaults defaults := by
  intro document defaults
  have hnote : "note" < "prefs" := String.lt_iff_toList_lt.mpr (by decide)
  have hlang : "lang" < "theme" := String.lt_iff_toList_lt.mpr (by decide)
  have hd : document.Tidy := by
    refine tidy_object_iff.mpr ⟨List.pairwise_pair.mpr hnote, ?_⟩
    simp [Tidy, Keyed, Fields.Sorted, Fields.keys]
  have hprefs :
      Tidy (.object [("lang", .string "en"), ("theme", .object [("dark", .bool true)])]) := by
    refine tidy_object_iff.mpr ⟨List.pairwise_pair.mpr hlang, ?_⟩
    simp [Tidy, Keyed, Fields.Sorted, Fields.keys]
  have he : defaults.Tidy := by
    refine tidy_object_iff.mpr ⟨List.pairwise_pair.mpr hnote, List.forall_mem_cons.mpr ⟨?_, ?_⟩⟩
    · simp [Tidy, Keyed, Fields.Sorted, Fields.keys]
    · exact List.forall_mem_singleton.mpr hprefs
  obtain ⟨hkept, -, hgaps, hagain⟩ := withDefaults_fills_gaps document defaults hd he
  have hdark : (document.withDefaults defaults).at? (chain ["prefs", "theme", "dark"]) =
      some (.bool true) := by
    obtain ⟨front, hdeepest, hmeet, -⟩ := hgaps ["prefs", "theme", "dark"] rfl
    obtain ⟨more, rfl⟩ := hdeepest.longest ["prefs"] ⟨["theme", "dark"], rfl⟩ rfl
    cases more with
    | nil => exact hmeet ⟨_, _, rfl, rfl⟩
    | cons key more =>
      obtain ⟨rest, hrest⟩ := hdeepest.isPrefix
      obtain rfl : key = "theme" := (List.cons.inj (List.cons.inj hrest).2).1
      cases hdeepest.present
  refine ⟨hd, he, hkept ["note"] .null rfl ?_, hkept ["prefs", "lang"] (.string "pt") rfl ?_,
    hdark, hagain⟩
  · rintro ⟨fields, others, hfields, -⟩
    cases hfields
  · rintro ⟨fields, others, hfields, -⟩
    cases hfields

end ApiContract.Value
