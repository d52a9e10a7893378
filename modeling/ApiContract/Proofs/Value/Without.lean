import ApiContract.Proofs.Value.Places

namespace ApiContract.Value

mutual

/-- The value without the parts at the places that are gone. -/
def without (gone : Path → Bool) : Value → Value
  | array items => array (itemsWithout gone 0 items)
  | ordered items => ordered (itemsWithout gone 0 items)
  | object fields => object (fieldsWithout gone fields)
  | value => value

def itemsWithout (gone : Path → Bool) (position : Nat) : List Value → List Value
  | [] => []
  | item :: items =>
    if gone [.index position] then itemsWithout gone (position + 1) items
    else without (fun inner => gone (.index position :: inner)) item ::
      itemsWithout gone (position + 1) items

def fieldsWithout (gone : Path → Bool) : Fields Value → Fields Value
  | [] => []
  | (key, value) :: fields =>
    if gone [.key key] then fieldsWithout gone fields
    else (key, without (fun inner => gone (.key key :: inner)) value) :: fieldsWithout gone fields

end

/-- The step that leads to a part when others are gone: the index of an item is how many items
before it stay. -/
def movedStep (gone : Path → Bool) : Segment → Segment
  | .key key => .key key
  | .index i => .index ((List.range i).countP fun j => !gone [.index j])

def moved (gone : Path → Bool) : Path → Path
  | [] => []
  | segment :: place =>
    movedStep gone segment :: moved (fun inner => gone (segment :: inner)) place

def Clear (gone : Path → Bool) (place : Path) : Prop :=
  ∀ before, before <+: place → before ≠ [] → gone before = false

variable {gone gone' : Path → Bool} {wrap : List Value → Value} {items before after : List Value}
  {fields : Fields Value} {segment : Segment} {place : Path} {value item : Value} {key : String}
  {i position : Nat}

theorem Arrangement.without (h : Arrangement wrap) :
    (wrap items).without gone = wrap (itemsWithout gone 0 items) := by
  cases h <;> rfl

theorem without_of_leaf (h : ¬ value.IsContainer) : value.without gone = value := by
  cases value <;> first | exact absurd trivial h | rfl

theorem shell_without : (value.without gone).shell = value.shell := by
  cases value <;> rfl

theorem clear_nil : Clear gone [] := fun _ hb hne => absurd (List.prefix_nil.mp hb) hne

theorem clear_cons_iff : Clear gone (segment :: place) ↔
    gone [segment] = false ∧ Clear (fun inner => gone (segment :: inner)) place := by
  constructor
  · exact fun h => ⟨h _ (by simp) (by simp), fun before hb _ =>
      h (segment :: before) (List.cons_prefix_cons.mpr ⟨rfl, hb⟩) (List.cons_ne_nil _ _)⟩
  · rintro ⟨hsegment, hplace⟩ before hb hne
    obtain ⟨first, before, rfl⟩ := List.exists_cons_of_ne_nil hne
    obtain ⟨rfl, hb'⟩ := List.cons_prefix_cons.mp hb
    cases before with
    | nil => exact hsegment
    | cons next before => exact hplace _ hb' (List.cons_ne_nil _ _)

theorem itemsWithout_congr (h : ∀ j, position ≤ j → j < position + items.length →
    ∀ inner, gone (.index j :: inner) = gone' (.index j :: inner)) :
    itemsWithout gone position items = itemsWithout gone' position items := by
  induction items generalizing position with
  | nil => rfl
  | cons item items ih =>
    have hfirst := h position (Nat.le_refl _) (by simp)
    have hrest : itemsWithout gone (position + 1) items = itemsWithout gone' (position + 1) items :=
      ih fun j hj hj' => h j (by omega) (by rw [List.length_cons]; omega)
    simp only [itemsWithout, hfirst, hrest]

theorem itemsWithout_append : itemsWithout gone position (before ++ after) =
    itemsWithout gone position before ++ itemsWithout gone (position + before.length) after := by
  induction before generalizing position with
  | nil => rfl
  | cons item before ih =>
    have hshift : position + 1 + before.length = position + (before.length + 1) := by omega
    rw [List.cons_append, itemsWithout, itemsWithout, ih, hshift, List.length_cons]
    split <;> rfl

theorem length_itemsWithout
    (h : ∀ j, position ≤ j → j < position + items.length → gone [.index j] = false) :
    (itemsWithout gone position items).length = items.length := by
  induction items generalizing position with
  | nil => rfl
  | cons item items ih =>
    have hrest : (itemsWithout gone (position + 1) items).length = items.length :=
      ih fun j hj hj' => h j (by omega) (by rw [List.length_cons]; omega)
    rw [itemsWithout, h position (Nat.le_refl _) (by simp), if_neg Bool.false_ne_true,
      List.length_cons, hrest, List.length_cons]

theorem getElem?_itemsWithout (h : gone [.index (position + i)] = false) :
    (itemsWithout gone position items)[
        (List.range i).countP fun j => !gone [.index (position + j)]]? =
      items[i]?.map (without fun inner => gone (.index (position + i) :: inner)) := by
  induction items generalizing position i with
  | nil => simp [itemsWithout]
  | cons item items ih =>
    cases i with
    | zero =>
      rw [Nat.add_zero] at h
      simp [itemsWithout, h]
    | succ i =>
      have hshift : ∀ j, position + 1 + j = position + (j + 1) := fun j => by omega
      have hrest := ih (hshift i ▸ h)
      simp only [hshift] at hrest
      rw [itemsWithout, List.range_succ_eq_map, List.countP_cons, List.countP_map,
        List.getElem?_cons_succ, ← hrest]
      simp only [Function.comp_def, Nat.succ_eq_add_one, Nat.add_zero]
      cases hg : gone [.index position] with
      | true => simp
      | false => simp

theorem itemsWithout_before (h : gone [.index before.length] = false) :
    itemsWithout gone 0 (before ++ item :: after) = itemsWithout gone 0 before ++
      item.without (fun inner => gone (.index before.length :: inner)) ::
        itemsWithout gone (before.length + 1) after := by
  rw [itemsWithout_append, itemsWithout, Nat.zero_add, if_neg (Bool.not_eq_true _ ▸ h)]

theorem itemsWithout_past (h : gone [.index before.length] = true) :
    itemsWithout gone 0 (before ++ item :: after) =
      itemsWithout gone 0 before ++ itemsWithout gone (before.length + 1) after := by
  rw [itemsWithout_append, itemsWithout, Nat.zero_add, if_pos h]

theorem get?_fieldsWithout : Fields.get? key (fieldsWithout gone fields) =
    if gone [.key key] then none
    else (Fields.get? key fields).map (without fun inner => gone (.key key :: inner)) := by
  induction fields with
  | nil => simp [fieldsWithout, Fields.get?]
  | cons m fields ih =>
    rw [fieldsWithout]
    by_cases hm : m.1 = key
    · subst hm
      split
      · rename_i hg
        rw [ih, if_pos hg]
      · simp [Fields.get?]
    · split
      · rw [ih, Fields.get?, if_neg hm]
      · rw [Fields.get?, Fields.get?, if_neg hm, if_neg hm, ih]

theorem keys_fieldsWithout_sublist :
    (fieldsWithout gone fields).keys.Sublist fields.keys := by
  induction fields with
  | nil => exact .slnil
  | cons m fields ih =>
    rw [fieldsWithout]
    split
    · exact ih.cons _
    · exact ih.cons_cons _

theorem sorted_fieldsWithout (h : Fields.Sorted fields) :
    Fields.Sorted (fieldsWithout gone fields) :=
  h.sublist keys_fieldsWithout_sublist

theorem without_congr (h : ∀ segment inner, gone (segment :: inner) = gone' (segment :: inner)) :
    value.without gone = value.without gone' := by
  cases value using shapes with
  | arranged wrap items hwrap =>
    rw [hwrap.without, hwrap.without, itemsWithout_congr fun j _ _ inner => h _ inner]
  | object fields =>
    refine congrArg object ?_
    induction fields with
    | nil => rfl
    | cons m fields ih => simp only [fieldsWithout, h, ih]
  | leaf value hleaf => rw [without_of_leaf hleaf, without_of_leaf hleaf]

mutual

theorem without_of_none {gone : Path → Bool}
    (h : ∀ segment inner, gone (segment :: inner) = false) :
    ∀ value : Value, value.without gone = value
  | array items => by rw [without, itemsWithout_of_none h 0 items]
  | ordered items => by rw [without, itemsWithout_of_none h 0 items]
  | object fields => by rw [without, fieldsWithout_of_none h fields]
  | null | bool _ | number _ | string _ | id _ | type _ => rfl

theorem itemsWithout_of_none {gone : Path → Bool}
    (h : ∀ segment inner, gone (segment :: inner) = false) (position : Nat) :
    ∀ items : List Value, itemsWithout gone position items = items
  | [] => rfl
  | item :: items => by
    have hitem : item.without (fun inner => gone (.index position :: inner)) = item := by
      refine without_of_none ?_ item
      exact fun segment inner => h _ (segment :: inner)
    rw [itemsWithout, h, if_neg Bool.false_ne_true, hitem,
      itemsWithout_of_none h (position + 1) items]

theorem fieldsWithout_of_none {gone : Path → Bool}
    (h : ∀ segment inner, gone (segment :: inner) = false) :
    ∀ fields : Fields Value, fieldsWithout gone fields = fields
  | [] => rfl
  | (key, value) :: fields => by
    have hvalue : value.without (fun inner => gone (.key key :: inner)) = value := by
      refine without_of_none ?_ value
      exact fun segment inner => h _ (segment :: inner)
    rw [fieldsWithout, h, if_neg Bool.false_ne_true, hvalue, fieldsWithout_of_none h fields]

end

theorem part?_without (h : gone [segment] = false) :
    (value.without gone).part? (movedStep gone segment) =
      (value.part? segment).map (without fun inner => gone (segment :: inner)) := by
  cases value using shapes with
  | arranged wrap items hwrap =>
    rw [hwrap.without]
    cases segment with
    | key key => rw [movedStep, hwrap.part?_key, hwrap.part?_key, Option.map_none]
    | index i =>
      have hitem := @getElem?_itemsWithout gone items i 0
      simp only [Nat.zero_add] at hitem
      rw [movedStep, hwrap.part?_index, hwrap.part?_index, hitem h]
  | object fields =>
    cases segment with
    | key key =>
      rw [movedStep, without, part?_key_object, get?_fieldsWithout, h, if_neg Bool.false_ne_true]
      rfl
    | index i => rfl
  | leaf value hleaf => rw [without_of_leaf hleaf, part?_of_leaf hleaf, part?_of_leaf hleaf]; rfl

theorem mem_itemsWithout (h : item ∈ itemsWithout gone position items) :
    ∃ whole ∈ items, ∃ inner, whole.without inner = item := by
  induction items generalizing position with
  | nil => cases h
  | cons first items ih =>
    rw [itemsWithout] at h
    split at h
    · obtain ⟨whole, hwhole, hitem⟩ := ih h
      exact ⟨whole, .tail _ hwhole, hitem⟩
    · obtain rfl | h := List.mem_cons.mp h
      · exact ⟨first, .head _, _, rfl⟩
      · obtain ⟨whole, hwhole, hitem⟩ := ih h
        exact ⟨whole, .tail _ hwhole, hitem⟩

theorem mem_fieldsWithout {m : String × Value} (h : m ∈ fieldsWithout gone fields) :
    ∃ whole ∈ fields, ∃ inner, whole.2.without inner = m.2 := by
  induction fields with
  | nil => cases h
  | cons first fields ih =>
    rw [fieldsWithout] at h
    split at h
    · obtain ⟨whole, hwhole, hm⟩ := ih h
      exact ⟨whole, .tail _ hwhole, hm⟩
    · obtain rfl | h := List.mem_cons.mp h
      · exact ⟨first, .head _, _, rfl⟩
      · obtain ⟨whole, hwhole, hm⟩ := ih h
        exact ⟨whole, .tail _ hwhole, hm⟩

theorem mem_parts_without {part : Value} (h : part ∈ (value.without gone).parts) :
    ∃ whole ∈ value.parts, ∃ inner, whole.without inner = part := by
  cases value using shapes with
  | arranged wrap items hwrap =>
    rw [hwrap.without] at h
    obtain ⟨whole, hwhole, hpart⟩ := mem_itemsWithout (hwrap.mem_parts.mp h)
    exact ⟨whole, hwrap.mem_parts.mpr hwhole, hpart⟩
  | object fields =>
    obtain ⟨m, hm, rfl⟩ := List.mem_map.mp h
    obtain ⟨whole, hwhole, hpart⟩ := mem_fieldsWithout hm
    exact ⟨whole.2, List.mem_map_of_mem hwhole, hpart⟩
  | leaf value hleaf =>
    rw [without_of_leaf hleaf] at h
    exact ⟨part, h, fun _ => false, without_of_none (fun _ _ => rfl) part⟩

theorem Keyed.without (h : value.Keyed) : (value.without gone).Keyed := by
  cases value with
  | object fields => exact sorted_fieldsWithout h
  | _ => trivial

theorem Tidy.without (h : value.Tidy) : (value.without gone).Tidy := by
  induction value using induction_on_parts generalizing gone with
  | step value ih =>
    obtain ⟨hkeyed, hparts⟩ := throughout_iff.mp h
    refine throughout_iff.mpr ⟨hkeyed.without, fun part hpart => ?_⟩
    obtain ⟨whole, hwhole, inner, rfl⟩ := mem_parts_without hpart
    exact ih whole hwhole (hparts whole hwhole)

/-- Where nothing on the way to a place is gone, what stands there is found at the place it has
moved to, without what is gone from inside of it. -/
theorem at?_without (h : Clear gone place) : (value.without gone).at? (moved gone place) =
    (value.at? place).map (without fun inner => gone (place ++ inner)) := by
  induction place generalizing gone value with
  | nil => rfl
  | cons segment place ih =>
    obtain ⟨hsegment, hplace⟩ := clear_cons_iff.mp h
    rw [moved, at?_cons, at?_cons, part?_without hsegment]
    cases value.part? segment with
    | none => rfl
    | some part => exact ih hplace

end ApiContract.Value
