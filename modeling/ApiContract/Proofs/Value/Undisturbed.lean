import ApiContract.Proofs.Value.Editing
import ApiContract.Proofs.Value.Without

namespace ApiContract.Value

def also (gone : Path → Bool) (others : List Path) (place : Path) : Bool :=
  gone place || decide (place ∈ others)

/-- Wherever a path meets an array that is left with an index, nothing is gone from that array up to
the index. -/
def Undisturbed (gone : Path → Bool) (path : Path) (value : Value) : Prop :=
  ∀ front i back place, path = front ++ .index i :: back → place ∈ value.targets front →
    Clear gone place → ∀ j ≤ i, gone (place ++ [.index j]) = false

variable {gone gone' : Path → Bool} {wrap : List Value → Value} {items items' : List Value}
  {fields : Fields Value} {head segment : Segment} {path rest : Path} {others : List Path}
  {value part result : Value} {key : String} {i : Nat}

theorem Undisturbed.index (h : Undisturbed gone (.index i :: rest) value) :
    ∀ j ≤ i, gone [.index j] = false :=
  h [] i rest [] rfl (by simp) clear_nil

theorem Undisturbed.into (h : Undisturbed gone (head :: rest) value)
    (hleads : Leads head value segment) (hp : value.part? segment = some part)
    (hkept : gone [segment] = false) :
    Undisturbed (fun inner => gone (segment :: inner)) rest part := by
  intro front i back place hpath hplace hclear
  exact h (head :: front) i back (segment :: place) (by rw [hpath]; rfl)
    ((hleads.mem_targets hp).mpr ⟨place, hplace, rfl⟩) (clear_cons_iff.mpr ⟨hkept, hclear⟩)

theorem Undisturbed.each (h : Undisturbed gone (.key key :: rest) (wrap items))
    (hwrap : Arrangement wrap) (hi : items[i]? = some part) (hkept : gone [.index i] = false) :
    Undisturbed (fun inner => gone (.index i :: inner)) (.key key :: rest) part := by
  intro front j back place hpath hplace hclear
  cases front with
  | nil => cases hpath
  | cons first front =>
    obtain ⟨rfl, -⟩ := List.cons.inj hpath
    exact h _ j back (.index i :: place) hpath
      (hwrap.mem_targets.mpr ⟨i, part, hi, place, hplace, rfl⟩)
      (clear_cons_iff.mpr ⟨hkept, hclear⟩)

theorem movedStep_of_undisturbed (h : ∀ j ≤ i, gone [.index j] = false) :
    movedStep gone (.index i) = .index i := by
  have hcount : (List.range i).countP (fun j => !gone [.index j]) = (List.range i).length :=
    List.countP_eq_length.mpr fun j hj => by simp [h j (List.mem_range.mp hj).le]
  rw [movedStep, hcount, List.length_range]

theorem also_cons : (fun inner => also gone (others.map (segment :: ·)) (segment :: inner)) =
    also (fun inner => gone (segment :: inner)) others := by
  funext inner
  simp [also]

theorem also_cons_of_ne {other : Segment} (hne : other ≠ segment) (inner : Path) :
    also gone (others.map (segment :: ·)) (other :: inner) = gone (other :: inner) := by
  simp [also, hne.symm]

theorem Leads.without (h : Leads head value segment) : Leads head (value.without gone) segment := by
  cases h with
  | member => exact .member
  | item arranged => rw [arranged.without]; exact .item arranged

theorem Leads.part?_of_without (h : Leads head value segment)
    (hs : Undisturbed gone (head :: rest) value)
    (hp : (value.without gone).part? segment = some part) : gone [segment] = false ∧
      ∃ whole, value.part? segment = some whole ∧
        whole.without (fun inner => gone (segment :: inner)) = part := by
  cases h with
  | member =>
    rw [Value.without, part?_key_object, get?_fieldsWithout] at hp
    split at hp
    · cases hp
    · rename_i hkept
      exact ⟨Bool.eq_false_iff.mpr hkept, Option.map_eq_some_iff.mp hp⟩
  | item arranged =>
    have hkept := hs.index _ (Nat.le_refl _)
    rw [← movedStep_of_undisturbed hs.index, part?_without hkept] at hp
    exact ⟨hkept, Option.map_eq_some_iff.mp hp⟩

theorem itemsWithout_around {before : List Value} (after : List Value)
    (hs : ∀ j ≤ before.length, gone [.index j] = false)
    (hother : ∀ other inner, other ≠ .index before.length →
      gone' (other :: inner) = gone (other :: inner)) :
    (itemsWithout gone 0 before).length = before.length ∧
      itemsWithout gone' 0 before = itemsWithout gone 0 before ∧
        itemsWithout gone' (before.length + 1) after =
          itemsWithout gone (before.length + 1) after := by
  have hne : ∀ j, j ≠ before.length → Segment.index j ≠ .index before.length :=
    fun j hj he => hj (Segment.index.inj he)
  exact ⟨length_itemsWithout fun j _ hj => hs j (by omega),
    itemsWithout_congr fun j _ hj inner => hother _ inner (hne j (by omega)),
    itemsWithout_congr fun j hj _ inner => hother _ inner (hne j (by omega))⟩

theorem get?_fieldsWithout_of_ne {other : String} (hne : other ≠ key)
    (hother : ∀ other inner, other ≠ .key key → gone' (other :: inner) = gone (other :: inner)) :
    Fields.get? other (fieldsWithout gone' fields) =
      Fields.get? other (fieldsWithout gone fields) := by
  have hagree : ∀ inner, gone' (.key other :: inner) = gone (.key other :: inner) := fun inner =>
    hother _ inner fun he => hne (Segment.key.inj he)
  simp only [get?_fieldsWithout, hagree]

theorem Leads.withPart_without (h : Leads head value segment)
    (hs : Undisturbed gone (head :: rest) value) (hv : value.Tidy)
    (hp : value.part? segment = some part)
    (hkept : gone [segment] = false) (hkept' : gone' [segment] = false)
    (hother : ∀ other inner, other ≠ segment → gone' (other :: inner) = gone (other :: inner)) :
    (value.without gone).withPart segment (part.without fun inner => gone' (segment :: inner)) =
      value.without gone' := by
  cases h with
  | @member head fields =>
    have hsorted := (tidy_object_iff.mp hv).1
    have hsorted' : Fields.Sorted (Fields.replace head.text
        (part.without fun inner => gone' (.key head.text :: inner))
        (fieldsWithout gone fields)) := by
      rw [Fields.Sorted, Fields.keys_replace]
      exact sorted_fieldsWithout hsorted
    refine congrArg object
      (Fields.eq_of_get?_eq hsorted' (sorted_fieldsWithout hsorted) fun key => ?_)
    by_cases hkey : key = head.text
    · subst hkey
      rw [part?_key_object] at hp
      have hold : Fields.get? head.text (fieldsWithout gone fields) =
          some (part.without fun inner => gone (.key head.text :: inner)) := by
        rw [get?_fieldsWithout, hkept, if_neg Bool.false_ne_true, hp, Option.map_some]
      rw [Fields.get?_replace_self hold, get?_fieldsWithout, hkept', if_neg Bool.false_ne_true, hp,
        Option.map_some]
    · rw [Fields.get?_replace_of_ne hkey, get?_fieldsWithout_of_ne hkey hother]
  | @item wrap items i arranged =>
    rw [arranged.part?_index] at hp
    obtain ⟨before, after, rfl, rfl⟩ := exists_append_of_getElem? hp
    obtain ⟨hlength, hbefore, hafter⟩ := itemsWithout_around after hs.index hother
    rw [arranged.without, arranged.without, arranged.withPart, itemsWithout_before hkept,
      itemsWithout_before hkept', hbefore, hafter, List.set_append_right _ _ hlength.le, hlength,
      Nat.sub_self, List.set_cons_zero]

theorem Leads.act?_removal_without (h : Leads head value segment)
    (hs : Undisturbed gone (head :: rest) value) (hv : value.Tidy) (hgone : gone' [segment] = true)
    (hother : ∀ other inner, other ≠ segment → gone' (other :: inner) = gone (other :: inner))
    (hr : removal.act? segment (value.without gone) = some result) :
    result = value.without gone' := by
  cases h with
  | @member head fields =>
    have hsorted := (tidy_object_iff.mp hv).1
    obtain ⟨fields', hfields', rfl⟩ := Option.map_eq_some_iff.mp hr
    obtain ⟨-, hfields'⟩ := Option.ite_none_right_eq_some.mp hfields'
    cases hfields'
    refine congrArg object (Fields.eq_of_get?_eq ((sorted_fieldsWithout hsorted).erase _)
      (sorted_fieldsWithout hsorted) fun key => ?_)
    by_cases hkey : key = head.text
    · subst hkey
      rw [Fields.get?_erase_self (sorted_fieldsWithout hsorted), get?_fieldsWithout, if_pos hgone]
    · rw [Fields.get?_erase_of_ne hkey, get?_fieldsWithout_of_ne hkey hother]
  | @item wrap items i arranged =>
    rw [arranged.without, arranged.act?] at hr
    obtain ⟨items', hitems', rfl⟩ := Option.map_eq_some_iff.mp hr
    obtain ⟨hi, hitems'⟩ := Option.ite_none_right_eq_some.mp hitems'
    cases hitems'
    obtain ⟨hkept, whole, hwhole, -⟩ := (Leads.item arranged).part?_of_without hs
      (by rw [arranged.without, arranged.part?_index]; exact List.getElem?_eq_getElem hi)
    rw [arranged.part?_index] at hwhole
    obtain ⟨before, after, rfl, rfl⟩ := exists_append_of_getElem? hwhole
    obtain ⟨hlength, hbefore, hafter⟩ := itemsWithout_around after hs.index hother
    rw [arranged.without, itemsWithout_before hkept, itemsWithout_past hgone, hbefore, hafter,
      List.eraseIdx_append_of_length_le hlength.le, hlength, Nat.sub_self, List.eraseIdx_cons_zero]

theorem itemsWithout_of_removed {position : Nat}
    (h : ∀ i part, items[i]? = some part →
      gone' [.index (position + i)] = gone [.index (position + i)] ∧
        ∀ result, gone [.index (position + i)] = false →
          Edited removal path (part.without fun inner => gone (.index (position + i) :: inner)) result →
          result = part.without fun inner => gone' (.index (position + i) :: inner))
    (hr : List.Forall₂ (Edited removal path) (itemsWithout gone position items) items') :
    items' = itemsWithout gone' position items := by
  induction items generalizing position items' with
  | nil =>
    cases hr
    rfl
  | cons item items ih =>
    obtain ⟨hfirst, hremoved⟩ := h 0 item rfl
    rw [Nat.add_zero] at hfirst hremoved
    have hrest : ∀ {items'}, List.Forall₂ (Edited removal path)
        (itemsWithout gone (position + 1) items) items' →
        items' = itemsWithout gone' (position + 1) items := ih fun i part hi => by
      rw [Nat.add_right_comm]
      exact h (i + 1) part hi
    rw [itemsWithout] at hr ⊢
    rw [hfirst]
    split at hr
    · rename_i hgone
      rw [if_pos hgone]
      exact hrest hr
    · rename_i hkept
      cases hr with
      | cons hitem hitems =>
        rw [if_neg hkept, hremoved _ (Bool.eq_false_iff.mpr hkept) hitem, hrest hitems]

/-- A removal along a path that reads no index past a part that is gone takes away what the path
means in the whole value. -/
theorem Edited.removed (h : Edited removal path (value.without gone) result) (hv : value.Tidy)
    (hs : Undisturbed gone path value) : result = value.without (also gone (value.targets path)) := by
  induction value using induction_on_parts generalizing path gone result with
  | step value ih =>
    cases path with
    | nil =>
      rw [← edited_nil_iff.mp h]
      exact without_congr fun segment inner => by simp [also]
    | cons head rest =>
      obtain ⟨segment, hleads⟩ | ⟨key, wrap, items, rfl, hwrap, rfl⟩ | hleaf :=
        leads_cases head value
      · by_cases hrest : rest = []
        · subst hrest
          rw [hleads.targets_last]
          exact hleads.act?_removal_without hs hv (by simp [also])
            (fun other inner hne => by simp [also, hne]) (hleads.without.edited_last_iff.mp h)
        · obtain ⟨a, b, ha, hb, rfl⟩ := (hleads.without.edited_iff hrest).mp h
          obtain ⟨hkept, whole, hwhole, rfl⟩ := hleads.part?_of_without hs ha
          have hb := ih whole (mem_parts_of_part? hwhole) hb (hv.parts (mem_parts_of_part? hwhole))
            (hs.into hleads hwhole hkept)
          rw [hleads.targets_of_part? hwhole, hb, ← also_cons]
          have hfurther : [] ∉ whole.targets rest := fun hm => ne_nil_of_mem_targets hrest hm rfl
          exact hleads.withPart_without hs hv hwhole hkept (by simp [also, hkept, hfurther])
            fun other inner hne => also_cons_of_ne hne inner
      · rw [hwrap.without] at h
        obtain ⟨items', hitems, rfl⟩ := hwrap.edited_iff.mp h
        rw [hwrap.without]
        refine congrArg wrap (itemsWithout_of_removed (fun i part hi => ?_)
          (forall₂_iff_getElem?.mpr hitems))
        rw [Nat.zero_add]
        have hmem : ∀ inner, .index i :: inner ∈ (wrap items).targets (.key key :: rest) ↔
            inner ∈ part.targets (.key key :: rest) := fun inner => by
          simp [hwrap.mem_targets, hi]
        have hfurther : [] ∉ part.targets (.key key :: rest) := fun hm =>
          ne_nil_of_mem_targets (List.cons_ne_nil _ _) hm rfl
        refine ⟨by simp [also, hmem, hfurther], fun result hkept hremoved => ?_⟩
        have hpart := hwrap.mem_parts.mpr (List.mem_of_getElem? hi)
        rw [ih part hpart hremoved (hv.parts hpart) (hs.each hwrap hi hkept)]
        exact congrArg (part.without ·) (by funext inner; simp [also, hmem])
      · rw [without_of_leaf hleaf] at h
        exact absurd h (not_edited_of_leaf hleaf)

theorem Edited.eq_without (h : Edited removal path value result) (hv : value.Tidy) :
    result = value.without fun place => decide (place ∈ value.targets path) := by
  have hnone : value.without (fun _ => false) = value := without_of_none (fun _ _ => rfl) value
  rw [← hnone] at h
  have hremoved := h.removed hv fun _ _ _ _ _ _ _ _ _ => rfl
  exact hremoved.trans (without_congr fun segment inner => by simp [also])

end ApiContract.Value
