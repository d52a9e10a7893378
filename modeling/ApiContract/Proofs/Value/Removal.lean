import ApiContract.Proofs.Value.Addition
import ApiContract.Proofs.Value.Undisturbed

namespace ApiContract.Value

def Lacks (value : Value) (place : Path) : Prop :=
  ∃ (before : Path) (key : String) (fields : Fields Value), place = before ++ [.key key] ∧
    value.at? before = some (object fields) ∧ key ∉ fields.keys

/-- A value with what stands at the places that a path means taken away. -/
structure Deleted (path : Path) (value result : Value) : Prop where
  members : ∀ before key, before ++ [.key key] ∈ value.targets path →
    result.at? (before ++ [.key key]) = none
  items : ∀ before i, before ++ [.index i] ∈ value.targets path → ∃ wrap items, Arrangement wrap ∧
    value.at? before = some (wrap items) ∧ result.at? before = some (wrap (items.eraseIdx i))
  /-- Outside the targets all is as it was, at the place to which it has moved, up to what is inside
  of a container around a target. -/
  kept : ∀ place, (∀ target ∈ value.targets path, ¬ target <+: place) →
    (result.at? (moved (fun inner => decide (inner ∈ value.targets path)) place)).map shell =
      (value.at? place).map shell
  apart : ∀ place, (∀ target ∈ value.targets path, ¬ target <+: place ∧ ¬ place <+: target) →
    result.at? (moved (fun inner => decide (inner ∈ value.targets path)) place) = value.at? place

variable {new value result container : Value} {head segment : Segment} {path rest place : Path}
  {key : String} {i : Nat}

theorem act?_removal_isSome_iff :
    (removal.act? segment container).isSome ↔ (container.part? segment).isSome := by
  cases container using shapes with
  | arranged wrap items hwrap =>
    cases segment with
    | key key => cases hwrap <;> rfl
    | index i =>
      rw [hwrap.act?, hwrap.part?_index, Option.isSome_map]
      simp [removal]
  | object fields =>
    cases segment with
    | key key =>
      rw [Action.act?, Option.isSome_map, part?_key_object]
      simp only [removal, Fields.has]
      by_cases h : (Fields.get? key fields).isSome <;> simp [h]
    | index i => rfl
  | leaf value hleaf => rw [act?_of_leaf hleaf, part?_of_leaf hleaf]

theorem part?_of_removed {acted : Value} (hv : container.Tidy)
    (hr : removal.act? (.key key) container = some acted) : acted.part? (.key key) = none := by
  cases container using shapes with
  | arranged wrap items hwrap => cases hwrap <;> cases hr
  | object fields =>
    obtain ⟨fields', hfields, rfl⟩ := Option.map_eq_some_iff.mp hr
    obtain ⟨-, hfields⟩ := Option.ite_none_right_eq_some.mp hfields
    cases hfields
    exact Fields.get?_erase_self (tidy_object_iff.mp hv).1 key
  | leaf value hleaf =>
    rw [act?_of_leaf hleaf] at hr
    cases hr

theorem arranged_of_removed {acted : Value}
    (hr : removal.act? (.index i) container = some acted) : ∃ wrap items, Arrangement wrap ∧
      container = wrap items ∧ acted = wrap (items.eraseIdx i) := by
  cases container using shapes with
  | arranged wrap items hwrap =>
    rw [hwrap.act?] at hr
    obtain ⟨items', hitems, rfl⟩ := Option.map_eq_some_iff.mp hr
    obtain ⟨-, hitems⟩ := Option.ite_none_right_eq_some.mp hitems
    cases hitems
    exact ⟨wrap, items, hwrap, rfl, rfl⟩
  | object fields => cases hr
  | leaf value hleaf =>
    rw [act?_of_leaf hleaf] at hr
    cases hr

theorem possible_removal_iff {target : Path} :
    Possible removal value target ↔ ∃ old, value.at? target = some old := by
  obtain rfl | ⟨place, segment, rfl⟩ := List.eq_nil_or_concat' target
  · exact iff_of_true possible_nil ⟨value, rfl⟩
  · simp only [possible_concat_iff, at?_concat_eq_some_iff, act?_removal_isSome_iff]
    simp only [Option.isSome_iff_exists]
    exact ⟨fun ⟨outer, houter, old, hold⟩ => ⟨old, outer, houter, hold⟩,
      fun ⟨old, outer, houter, hold⟩ => ⟨outer, houter, old, hold⟩⟩

theorem exists_removed_iff : (∃ result, Edited removal path value result) ↔
    ∀ target ∈ value.targets path, ∃ old, value.at? target = some old := by
  rw [exists_edited_iff_possible]
  exact forall₂_congr fun target _ => possible_removal_iff

theorem Edited.isDeleted (h : Edited removal path value result) (hv : value.Tidy) :
    Deleted path value result where
  members before key ht := by
    obtain ⟨container, acted, hat, hacts, hresult⟩ := h.acted ht
    rw [at?_append, hresult, Option.bind_some, at?_cons,
      part?_of_removed (throughout_at? hv hat) hacts, Option.bind_none]
  items before i ht := by
    obtain ⟨container, acted, hat, hacts, hresult⟩ := h.acted ht
    obtain ⟨wrap, items, hwrap, rfl, rfl⟩ := arranged_of_removed hacts
    exact ⟨wrap, items, hwrap, hat, hresult⟩
  kept place hplace := by
    have hclear : Clear (fun inner => decide (inner ∈ value.targets path)) place :=
      fun before hb _ => decide_eq_false fun ht => hplace before ht hb
    rw [h.eq_without hv, at?_without hclear, Option.map_map]
    exact congrArg (Option.map · _) (funext fun _ => shell_without)
  apart place hplace := by
    have hclear : Clear (fun inner => decide (inner ∈ value.targets path)) place :=
      fun before hb _ => decide_eq_false fun ht => (hplace before ht).1 hb
    have hinner : ∀ segment inner, decide (place ++ segment :: inner ∈ value.targets path) = false :=
      fun segment inner => decide_eq_false fun ht => (hplace _ ht).2 (List.prefix_append ..)
    rw [h.eq_without hv, at?_without hclear]
    cases value.at? place with
    | none => rfl
    | some part => exact congrArg some (without_of_none hinner part)

theorem Lacks.ne_nil (h : value.Lacks place) : place ≠ [] := by
  obtain ⟨before, key, fields, rfl, -⟩ := h
  simp

theorem Lacks.admits (h : value.Lacks place) : value.Admits place := by
  obtain ⟨before, key, fields, rfl, hat, -⟩ := h
  exact admits_concat_iff.mpr ⟨object fields, hat, trivial, nofun⟩

theorem Lacks.of_cons {part : Value} (h : value.Lacks (segment :: place))
    (hp : value.part? segment = some part) : part.Lacks place := by
  obtain ⟨before, key, fields, hplace, hat, hkey⟩ := h
  cases before with
  | nil =>
    cases hplace
    cases hat
    rw [part?_key_object, Fields.get?_eq_none_iff.mpr hkey] at hp
    cases hp
  | cons first before =>
    obtain ⟨rfl, rfl⟩ := List.cons.inj hplace
    rw [at?_cons, hp, Option.bind_some] at hat
    exact ⟨before, key, fields, rfl, hat, hkey⟩

/-- What is added under keys that were not there is all that a removal takes away. -/
theorem Edited.taken_back (h : Edited (addition new) path value result)
    (hlacks : ∀ target ∈ value.targets path, value.Lacks target) :
    Edited removal path result value := by
  induction h with
  | root value => exact absurd rfl (hlacks [] (by simp)).ne_nil
  | @last head segment value result leads acts =>
    obtain ⟨before, key, fields, hplace, hat, hkey⟩ := hlacks [segment] (by simp [leads.targets_last])
    obtain ⟨rfl, hsegment⟩ := List.append_inj' (List.nil_append [segment] |>.trans hplace) rfl
    cases hsegment
    cases hat
    obtain rfl : object (Fields.set key new fields) = result := Option.some.inj acts
    refine .last (leads.of_act? acts) (Option.map_eq_some_iff.mpr ⟨fields, ?_, rfl⟩)
    simp [removal, Fields.has, Fields.get?_set_self, Fields.erase_set hkey]
  | @into head segment rest value a b leads further part _ ih =>
    have hinner := ih fun inner hinner =>
      (hlacks _ ((leads.mem_targets part).mpr ⟨inner, hinner, rfl⟩)).of_cons part
    have hback := Edited.into leads.of_withPart further (leads.part?_withPart part) hinner
    rwa [leads.withPart_withPart, leads.withPart_self part] at hback
  | each arranged length _ ih =>
    refine .each arranged length.symm fun i b a hb ha => ih i a b ha hb fun inner hinner => ?_
    exact (hlacks _ (arranged.mem_targets.mpr ⟨i, a, ha, inner, hinner, rfl⟩)).of_cons
      (by rw [arranged.part?_index, ha])

/-- A removal succeeds exactly when every place that the path means is there. Then nothing stands at
the keys among them, the items at the indices among them are cut out of their arrays, and all else
stays, items moved down apart. What is added under keys that are not there, a removal takes back. -/
theorem remove_places (walked : String) (path : Path) {value : Value} (hv : value.Tidy) :
    ((∃ result, value.remove walked path = .ok result) ↔
      ∀ target ∈ value.targets path, ∃ old, value.at? target = some old) ∧
    (∀ result, value.remove walked path = .ok result → Deleted path value result) ∧
    ∀ new, (∀ target ∈ value.targets path, value.Lacks target) → ∃ longer,
      value.add walked path new = .ok longer ∧ longer.remove walked path = .ok value := by
  have hremoved : ∀ {value result : Value}, value.remove walked path = .ok result ↔
      Edited removal path value result := edit_eq_ok_iff
  have hadded : ∀ {new value result : Value}, value.add walked path new = .ok result ↔
      Edited (addition new) path value result := edit_eq_ok_iff
  simp only [hremoved, hadded]
  refine ⟨exists_removed_iff, fun result h => h.isDeleted hv, fun new hlacks => ?_⟩
  obtain ⟨longer, hlonger⟩ := exists_added_iff.mpr fun target ht => (hlacks target ht).admits
  exact ⟨longer, hlonger, hlonger.taken_back hlacks⟩

theorem remove_places_in_rows :
    let path : Path := [.key "rows", .key "n", .index 0]
    let value := object [("rows", ordered
      [object [("n", array [null, bool true])], object [("n", array [bool true, null])]])]
    let result := object [("rows", ordered
      [object [("n", array [bool true])], object [("n", array [null])]])]
    value.Tidy ∧ value.remove "u" path = .ok result ∧ Deleted path value result ∧
      ∃ longer, value.add "u" [.key "rows", .key "m"] null = .ok longer ∧
        longer.remove "u" [.key "rows", .key "m"] = .ok value := by
  intro path value result
  have hv : value.Tidy := by simp [value, Tidy, Keyed, Fields.Sorted, Fields.keys]
  refine ⟨hv, rfl, (remove_places "u" _ hv).2.1 _ rfl, (remove_places "u" _ hv).2.2 _ ?_⟩
  have htargets : value.targets [.key "rows", .key "m"] =
      [[.key "rows", .index 0, .key "m"], [.key "rows", .index 1, .key "m"]] := rfl
  rw [htargets, List.forall_mem_cons, List.forall_mem_singleton]
  exact ⟨⟨[.key "rows", .index 0], "m", _, rfl, rfl, by simp [Fields.keys]⟩,
    ⟨[.key "rows", .index 1], "m", _, rfl, rfl, by simp [Fields.keys]⟩⟩

end ApiContract.Value
