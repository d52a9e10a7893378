import ApiContract.Proofs.Value.Editing

namespace ApiContract.Value

/-- Something may be put at a place: all that the place goes through is there and has parts, and
where it ends with an index, that is at most the length of the array. -/
structure Admits (value : Value) (place : Path) : Prop where
  through : ∀ before, before <+: place → before ≠ place →
    ∃ container, value.at? before = some container ∧ container.IsContainer
  within : ∀ before i wrap items, place = before ++ [.index i] → Arrangement wrap →
    value.at? before = some (wrap items) → i ≤ items.length

/-- A value with another one set at the places that a path means. -/
structure Placed (path : Path) (new value result : Value) : Prop where
  placed : ∀ target ∈ value.targets path, result.at? target = some new
  appended : ∀ before wrap items, before ++ [.index items.length] ∈ value.targets path →
    Arrangement wrap → value.at? before = some (wrap items) →
    result.at? before = some (wrap (items ++ [new]))
  /-- Outside the targets all is as it was, up to what is inside of a container around a target. -/
  kept : ∀ place, (∀ target ∈ value.targets path, ¬ target <+: place) →
    (result.at? place).map shell = (value.at? place).map shell
  apart : ∀ place, (∀ target ∈ value.targets path, ¬ target <+: place ∧ ¬ place <+: target) →
    result.at? place = value.at? place

variable {new value result container : Value} {head segment other : Segment} {path place : Path}

theorem onIndex_addition_eq_some_iff {i : Nat} {items items' : List Value} :
    (addition new).onIndex i items = some items' ↔
      i < items.length ∧ items.set i new = items' ∨
        i = items.length ∧ items ++ [new] = items' := by
  simp only [addition]
  split
  · rename_i hi
    simp [hi, Nat.ne_of_lt hi]
  · rename_i hi
    split <;> simp_all

theorem Leads.part?_of_added (h : Leads head value segment)
    (hr : (addition new).act? segment value = some result) : result.part? segment = some new := by
  cases h with
  | member =>
    cases hr
    exact Fields.get?_set_self ..
  | item arranged =>
    rw [arranged.act?] at hr
    obtain ⟨items', hitems, rfl⟩ := Option.map_eq_some_iff.mp hr
    rw [arranged.part?_index]
    obtain ⟨hi, rfl⟩ | ⟨rfl, rfl⟩ := onIndex_addition_eq_some_iff.mp hitems
    · exact List.getElem?_set_self hi
    · exact List.getElem?_concat_length

theorem Leads.part?_of_added_of_ne (h : Leads head value segment)
    (hr : (addition new).act? segment value = some result) (hne : other ≠ segment) :
    result.part? other = value.part? other := by
  cases h with
  | member =>
    cases hr
    cases other with
    | key key => exact Fields.get?_set_of_ne (fun he => hne (congrArg _ he)) ..
    | index i => rfl
  | @item wrap items i arranged =>
    rw [arranged.act?] at hr
    obtain ⟨items', hitems, rfl⟩ := Option.map_eq_some_iff.mp hr
    cases other with
    | key key => rw [arranged.part?_key, arranged.part?_key]
    | index j =>
      have hj : i ≠ j := fun he => hne (congrArg _ he.symm)
      rw [arranged.part?_index, arranged.part?_index]
      obtain ⟨-, rfl⟩ | ⟨rfl, rfl⟩ := onIndex_addition_eq_some_iff.mp hitems
      · exact List.getElem?_set_ne hj
      · rw [List.getElem?_append]
        split
        · rfl
        · rw [List.getElem?_singleton, if_neg (by omega), List.getElem?_eq_none (by omega)]

theorem Leads.act?_of_added (h : Leads head value segment)
    (hr : (addition new).act? segment value = some result) :
    (addition new).act? segment result = some result := by
  cases h with
  | member =>
    cases hr
    exact congrArg (fun fields => some (object fields)) Fields.set_set
  | item arranged =>
    rw [arranged.act?] at hr
    obtain ⟨items', hitems, rfl⟩ := Option.map_eq_some_iff.mp hr
    rw [arranged.act?, Option.map_eq_some_iff]
    refine ⟨items', onIndex_addition_eq_some_iff.mpr (.inl ?_), rfl⟩
    obtain ⟨hi, rfl⟩ | ⟨rfl, rfl⟩ := onIndex_addition_eq_some_iff.mp hitems
    · exact ⟨by rwa [List.length_set], List.set_set ..⟩
    · exact ⟨by simp, by simp⟩

theorem Leads.act?_addition_isSome_iff (h : Leads head container segment) :
    ((addition new).act? segment container).isSome ↔ ∀ i wrap items, segment = .index i →
      Arrangement wrap → container = wrap items → i ≤ items.length := by
  cases h with
  | member =>
    refine iff_of_true rfl fun i wrap items hi => ?_
    cases hi
  | @item wrap items i arranged =>
    rw [arranged.act?, Option.isSome_map, Option.isSome_iff_exists]
    simp only [onIndex_addition_eq_some_iff]
    constructor
    · rintro ⟨_, hset⟩ j wrap' items' ⟨⟩ hwrap' he
      obtain ⟨rfl, rfl⟩ := arranged.inj hwrap' he
      exact hset.elim (fun hi => hi.1.le) fun hi => hi.1.le
    · intro h
      obtain hi | hi := Nat.lt_or_eq_of_le (h i wrap items rfl arranged rfl)
      · exact ⟨_, .inl ⟨hi, rfl⟩⟩
      · exact ⟨_, .inr ⟨hi, rfl⟩⟩

theorem admits_nil : value.Admits [] where
  through before hb hne := absurd (List.prefix_nil.mp hb) hne
  within before i wrap items h := by simp at h

theorem admits_concat_iff : value.Admits (place ++ [segment]) ↔
    (∃ container, value.at? place = some container ∧ container.IsContainer ∧
      ∀ i wrap items, segment = .index i → Arrangement wrap → container = wrap items →
        i ≤ items.length) := by
  constructor
  · rintro ⟨hthrough, hwithin⟩
    obtain ⟨container, hat, hcontainer⟩ := hthrough place (List.prefix_append ..) (by simp)
    refine ⟨container, hat, hcontainer, fun i wrap items hs hwrap he => ?_⟩
    exact hwithin place i wrap items (by rw [hs]) hwrap (he ▸ hat)
  · rintro ⟨container, hat, hcontainer, hwithin⟩
    constructor
    · intro before hb hne
      obtain ⟨between, rfl⟩ := (List.prefix_concat_iff.mp hb).resolve_left hne
      obtain ⟨outer, houter, hinner⟩ := at?_append_eq_some_iff.mp hat
      refine ⟨outer, houter, ?_⟩
      cases between with
      | nil => cases hinner; exact hcontainer
      | cons step between =>
        obtain ⟨part, hpart, -⟩ := Option.bind_eq_some_iff.mp hinner
        exact isContainer_of_part? hpart
    · intro before i wrap items he hwrap hb
      obtain ⟨rfl, hs⟩ := List.append_inj' he rfl
      rw [hat, Option.some.injEq] at hb
      exact hwithin i wrap items (List.singleton_inj.mp hs) hwrap hb

theorem possible_addition_iff {target : Path} (ht : target ∈ value.targets path) :
    Possible (addition new) value target ↔ value.Admits target := by
  obtain rfl | ⟨place, segment, rfl⟩ := List.eq_nil_or_concat' target
  · exact iff_of_true possible_nil admits_nil
  · rw [possible_concat_iff, admits_concat_iff]
    refine exists_congr fun container => and_congr_right fun hat => ?_
    constructor
    · intro hacts
      have hcontainer := isContainer_of_act? hacts
      have hleads := leads_of_mem_targets ht hat hcontainer
      exact ⟨hcontainer, hleads.act?_addition_isSome_iff.mp hacts⟩
    · rintro ⟨hcontainer, hwithin⟩
      have hleads := leads_of_mem_targets ht hat hcontainer
      exact hleads.act?_addition_isSome_iff.mpr hwithin

theorem exists_added_iff : (∃ result, Edited (addition new) path value result) ↔
    ∀ target ∈ value.targets path, value.Admits target := by
  rw [exists_edited_iff_possible]
  exact forall₂_congr fun target ht => possible_addition_iff ht

theorem Edited.placed (h : Edited (addition new) path value result)
    (ht : place ∈ value.targets path) : result.at? place = some new := by
  obtain rfl | ⟨before, segment, rfl⟩ := List.eq_nil_or_concat' place
  · cases path with
    | nil =>
      obtain rfl := edited_nil_iff.mp h
      rfl
    | cons head rest => exact absurd rfl (ne_nil_of_mem_targets (List.cons_ne_nil _ _) ht)
  · obtain ⟨container, acted, hat, hacts, hresult⟩ := h.acted ht
    have hcontainer := isContainer_of_act? (Option.isSome_of_mem hacts)
    have hleads := leads_of_mem_targets ht hat hcontainer
    exact at?_concat_eq_some_iff.mpr ⟨acted, hresult, hleads.part?_of_added hacts⟩

theorem Edited.appended {wrap : List Value → Value} {items : List Value}
    (h : Edited (addition new) path value result)
    (ht : place ++ [.index items.length] ∈ value.targets path) (hwrap : Arrangement wrap)
    (hat : value.at? place = some (wrap items)) :
    result.at? place = some (wrap (items ++ [new])) := by
  obtain ⟨container, acted, hat', hacts, hresult⟩ := h.acted ht
  cases hat.symm.trans hat'
  rw [hwrap.act?] at hacts
  obtain ⟨items', hitems, rfl⟩ := Option.map_eq_some_iff.mp hacts
  obtain ⟨hlt, -⟩ | ⟨-, rfl⟩ := onIndex_addition_eq_some_iff.mp hitems
  · exact absurd hlt (Nat.lt_irrefl _)
  · exact hresult

def Untouched (path : Path) (value result : Value) (place : Path) : Prop :=
  (result.at? place).map shell = (value.at? place).map shell ∧
    ((∀ target ∈ value.targets path, ¬ place <+: target) → result.at? place = value.at? place)

theorem Edited.untouched_nil (h : Edited (addition new) path value result)
    (hshell : result.shell = value.shell) : Untouched path value result [] :=
  ⟨congrArg some hshell, fun hapart => congrArg some
    (h.eq_of_no_target fun target ht => hapart target ht List.nil_prefix)⟩

theorem Untouched.cons {a b : Value} {rest : Path} (h : Untouched rest a b place)
    (ha : value.part? segment = some a) (hb : result.part? segment = some b)
    (hmem : ∀ target ∈ a.targets rest, segment :: target ∈ value.targets path) :
    Untouched path value result (segment :: place) := by
  obtain ⟨hshell, hsame⟩ := h
  rw [Untouched, at?_cons, at?_cons, ha, hb]
  refine ⟨hshell, fun hapart => hsame fun target ht hp => ?_⟩
  exact hapart _ (hmem target ht) (List.cons_prefix_cons.mpr ⟨rfl, hp⟩)

theorem untouched_of_part?_eq (h : result.part? segment = value.part? segment) :
    Untouched path value result (segment :: place) := by
  rw [Untouched, at?_cons, at?_cons, h]
  exact ⟨rfl, fun _ => rfl⟩

/-- What stands beside all places that the path means stays, and so do the containers around them
but for what is inside. -/
theorem Edited.untouched (h : Edited (addition new) path value result)
    (hplace : ∀ target ∈ value.targets path, ¬ target <+: place) :
    Untouched path value result place := by
  induction h generalizing place with
  | root value => exact absurd List.nil_prefix (hplace [] (by simp))
  | @last head segment value result leads acts =>
    cases place with
    | nil => exact (Edited.last leads acts).untouched_nil (leads.shell_act? acts)
    | cons first place =>
      rw [leads.targets_last] at hplace
      have hne : first ≠ segment := by
        rintro rfl
        exact hplace [first] (by simp) (by simp)
      exact untouched_of_part?_eq (leads.part?_of_added_of_ne acts hne)
  | @into head segment rest value a b leads further part inner ih =>
    cases place with
    | nil => exact (Edited.into leads further part inner).untouched_nil leads.shell_withPart
    | cons first place =>
      by_cases hfirst : first = segment
      · subst hfirst
        have hmem : ∀ target ∈ a.targets rest, first :: target ∈ value.targets (head :: rest) :=
          fun target ht => (leads.mem_targets part).mpr ⟨target, ht, rfl⟩
        have hinner : Untouched rest a b place := ih fun target ht hp =>
          hplace _ (hmem target ht) (List.cons_prefix_cons.mpr ⟨rfl, hp⟩)
        exact hinner.cons part (leads.part?_withPart part) hmem
      · exact untouched_of_part?_eq (leads.part?_withPart_of_ne hfirst)
  | @each key rest wrap items items' arranged length inner ih =>
    cases place with
    | nil => exact (Edited.each arranged length inner).untouched_nil (arranged.shell_eq ..)
    | cons first place =>
      cases first with
      | key _ => exact untouched_of_part?_eq (by rw [arranged.part?_key, arranged.part?_key])
      | index i =>
        cases ha : items[i]? with
        | none =>
          have hb : items'[i]? = none := by
            rwa [List.getElem?_eq_none_iff, length, ← List.getElem?_eq_none_iff]
          exact untouched_of_part?_eq (by rw [arranged.part?_index, arranged.part?_index, ha, hb])
        | some a =>
          obtain ⟨b, hb⟩ := exists_getElem?_of_length_eq length ha
          have hmem : ∀ target ∈ a.targets (.key key :: rest),
              .index i :: target ∈ (wrap items).targets (.key key :: rest) :=
            fun target ht => arranged.mem_targets.mpr ⟨i, a, ha, target, ht, rfl⟩
          have hinner : Untouched (.key key :: rest) a b place := ih i a b ha hb fun target ht hp =>
            hplace _ (hmem target ht) (List.cons_prefix_cons.mpr ⟨rfl, hp⟩)
          exact hinner.cons (by rw [arranged.part?_index, ha]) (by rw [arranged.part?_index, hb]) hmem

theorem Edited.again (h : Edited (addition new) path value result) :
    Edited (addition new) path result result := by
  induction h with
  | root value => exact .root new
  | last leads acts => exact .last (leads.of_act? acts) (leads.act?_of_added acts)
  | into leads further part _ ih =>
    have hagain := Edited.into leads.of_withPart further (leads.part?_withPart part) ih
    rwa [leads.withPart_withPart] at hagain
  | @each key rest wrap items items' arranged length _ ih =>
    refine .each arranged rfl fun i b b' hb hb' => ?_
    cases hb.symm.trans hb'
    obtain ⟨a, ha⟩ := exists_getElem?_of_length_eq length.symm hb
    exact ih i a b ha hb

theorem Edited.isPlaced (h : Edited (addition new) path value result) :
    Placed path new value result where
  placed _ ht := h.placed ht
  appended _ _ _ ht hwrap hat := h.appended ht hwrap hat
  kept _ hplace := (h.untouched hplace).1
  apart _ hplace := (h.untouched fun target ht => (hplace target ht).1).2 fun target ht =>
    (hplace target ht).2

/-- A value is added at a path exactly when each place that the path means admits it. Then it stands
at all of them, everything else is as it was, and adding it again changes nothing. -/
theorem add_places (walked : String) (path : Path) (value new : Value) :
    ((∃ result, value.add walked path new = .ok result) ↔
      ∀ target ∈ value.targets path, value.Admits target) ∧
    ∀ result, value.add walked path new = .ok result →
      Placed path new value result ∧ result.add walked path new = .ok result := by
  have hedited : ∀ {value result : Value}, value.add walked path new = .ok result ↔
      Edited (addition new) path value result := edit_eq_ok_iff
  simp only [hedited]
  exact ⟨exists_added_iff, fun result h => ⟨h.isPlaced, h.again⟩⟩

theorem add_places_in_rows :
    let path : Path := [.key "rows", .key "n", .index 1]
    let value := object [("rows", ordered [object [("n", array [null])], object [("n", array [])]])]
    let longer := object
      [("rows", ordered [object [("n", array [null])], object [("n", array [null])]])]
    let result := object [("rows", ordered
      [object [("n", array [null, bool true])], object [("n", array [null, bool true])]])]
    (∃ obstacle, value.add "u" path (bool true) = .error obstacle) ∧
      longer.add "u" path (bool true) = .ok result ∧
      Placed path (bool true) longer result ∧ result.add "u" path (bool true) = .ok result :=
  ⟨⟨_, rfl⟩, rfl, (add_places "u" _ _ _).2 _ rfl⟩

end ApiContract.Value
