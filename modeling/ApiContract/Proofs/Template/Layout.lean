import ApiContract.Proofs.Template.WellFormed
import ApiContract.Template.Layout

namespace ApiContract.Template

def chars (row : Row) : List Char := row.flatMap fun fragment => fragment.text.toList

def texts (t : Template) : List (List Char) := t.rows.map chars

def tabbed (row : List Char) : List Char := '\t' :: row

def hung : List (List Char) → List (List Char)
  | [] => []
  | row :: rows => row :: rows.map tabbed

/-- The lines of a template as they follow a mark. -/
def inner (t : Template) : List (List Char) :=
  match t.texts with
  | [] => []
  | row :: rows => row :: if t.isMixin then rows.map (·.drop 1) else rows

@[simp] theorem chars_append (a b : Row) : chars (a ++ b) = chars a ++ chars b := by
  simp [chars]

@[simp] theorem chars_cons (fragment : Fragment) (row : Row) :
    chars (fragment :: row) = fragment.text.toList ++ chars row := rfl

@[simp] theorem chars_nil : chars [] = [] := rfl

theorem chars_indented (row : Row) : chars (indented row) = tabbed (chars row) := by
  simp [indented, tabbed, Fragment.tab]

theorem chars_map_indented (rows : List Row) :
    (rows.map indented).map chars = (rows.map chars).map tabbed := by
  rw [List.map_map, List.map_map]
  exact List.map_congr_left fun row _ => chars_indented row

def bulletTexts : List (List Char) → List (List Char)
  | [] => []
  | row :: rows => ('*' :: '\t' :: row) :: rows.map tabbed

def markText (name : List Char) (optional : Bool) : List Char :=
  name ++ (if optional then ['?'] else []) ++ [':']

def slotTexts (name : List Char) (optional isMixin : Bool) : List (List Char) → List (List Char)
  | [] => []
  | [row] => [markText name optional ++ ' ' :: row]
  | row :: rows =>
    if isMixin then (markText name optional ++ ' ' :: row) :: rows.map tabbed
    else markText name optional :: (row :: rows).map tabbed

def removalsText (removals : List Path) : List Char :=
  (", ".intercalate (removals.map Path.text)).toList

def editsText (removals : List Path) (adds : Bool) : List Char :=
  (if removals.isEmpty then [] else " without ".toList ++ removalsText removals) ++
    if adds then (if removals.isEmpty then [] else [';']) ++ " with".toList else []

def mixinTexts (mark : List Char) : List (List Char) → List (List Char)
  | [row] => [mark ++ ' ' :: row]
  | rows => mark :: rows

theorem chars_slotMark (name : String) (optional : Bool) :
    chars (slotMark name optional) = markText name.toList optional := by
  cases optional <;> simp [slotMark, markText]

theorem chars_mixinMark (base : Path) (removals : List Path) (adds : Bool) :
    chars (mixinMark base removals adds) = base.text.toList ++ editsText removals adds := by
  cases removals with
  | nil => cases adds <;> simp [mixinMark, removalsRow, editsText, Fragment.blank]
  | cons path removals =>
    cases adds <;> simp [mixinMark, removalsRow, editsText, removalsText, Fragment.blank]

theorem map_chars_mixinRows (mark : Row) (rows : List Row) :
    (mixinRows mark rows).map chars = hung (mixinTexts (chars mark) (rows.map chars)) := by
  rcases rows with _ | ⟨row, _ | ⟨next, rows⟩⟩
  · simp [mixinRows, mixinTexts, hung]
  · simp [mixinRows, mixinTexts, hung, Fragment.blank]
  · simp [mixinRows, mixinTexts, hung, chars_indented]

theorem map_drop_tabbed (rows : List (List Char)) : (rows.map tabbed).map (·.drop 1) = rows := by
  simp [tabbed, Function.comp_def]

theorem inner_eq_texts {t : Template} (h : t.isMixin = false) : t.inner = t.texts := by
  unfold inner
  split <;> simp_all

theorem inner_eq_of_hung {t : Template} (h : t.isMixin = true) {rows : List (List Char)}
    (ht : t.texts = hung rows) : t.inner = rows := by
  cases rows with
  | nil =>
    rw [inner, ht]
    rfl
  | cons row rows =>
    have hd := map_drop_tabbed rows
    rw [inner, ht]
    simp only [hung, h, ↓reduceIte, hd]

def slotsTexts {κ : Type} (write : κ → String) (slots : List (κ × Slot Template)) :
    List (List Char) :=
  slots.flatMap fun slot =>
    slotTexts (write slot.1).toList slot.2.optional slot.2.value.isMixin slot.2.value.inner

theorem texts_eq_ite (t : Template) : t.texts = if t.isMixin then hung t.inner else t.inner := by
  cases t with
  | mixin base removals additions =>
    obtain ⟨rows, hr⟩ : ∃ rows, (mixin base removals additions).texts = hung rows :=
      ⟨_, map_chars_mixinRows _ _⟩
    rw [inner_eq_of_hung rfl hr, hr]
    rfl
  | _ => exact (inner_eq_texts rfl).symm

theorem map_chars_bulleted (t : Template) :
    (bulleted t.isMixin t.rows).map chars = bulletTexts t.inner := by
  have ht := texts_eq_ite t
  cases hr : t.rows with
  | nil => simp [inner, texts, hr, bulleted, bulletTexts]
  | cons row rows =>
    cases hi : t.inner with
    | nil => cases hm : t.isMixin <;> simp [texts, hr, hi, hm, hung] at ht
    | cons first rest =>
      cases hm : t.isMixin
      · simp only [texts, hr, hi, hm, Bool.false_eq_true, ↓reduceIte, List.map_cons,
          List.cons.injEq] at ht
        obtain ⟨rfl, rfl⟩ := ht
        simp only [bulleted, continued, Bool.false_eq_true, ↓reduceIte, List.map_cons,
          chars_map_indented, bulletTexts]
        simp [Fragment.tab]
      · simp only [texts, hr, hi, hm, ↓reduceIte, List.map_cons, hung, List.cons.injEq] at ht
        obtain ⟨rfl, hrest⟩ := ht
        simp [bulleted, continued, bulletTexts, hrest, Fragment.tab]

theorem map_chars_slotRows (name : String) (optional : Bool) (t : Template) (h : t.inner ≠ []) :
    (slotRows name optional t.isMixin t.rows).map chars =
      slotTexts name.toList optional t.isMixin t.inner := by
  have ht := texts_eq_ite t
  cases hi : t.inner with
  | nil => exact absurd hi h
  | cons first rest =>
    cases hr : t.rows with
    | nil => cases hm : t.isMixin <;> simp [texts, hr, hi, hm, hung] at ht
    | cons row rows =>
      cases hm : t.isMixin
      · simp only [texts, hr, hi, hm, Bool.false_eq_true, ↓reduceIte, List.map_cons,
          List.cons.injEq] at ht
        obtain ⟨rfl, rfl⟩ := ht
        cases rows with
        | nil => simp [slotRows, slotTexts, chars_slotMark, Fragment.blank]
        | cons next rows =>
          simp [slotRows, slotTexts, chars_slotMark, chars_indented]
      · simp only [texts, hr, hi, hm, ↓reduceIte, List.map_cons, hung, List.cons.injEq] at ht
        obtain ⟨rfl, hrest⟩ := ht
        cases rows with
        | nil =>
          cases rest with
          | nil => simp [slotRows, slotTexts, chars_slotMark, Fragment.blank]
          | cons next rest => simp at hrest
        | cons next rows =>
          cases rest with
          | nil => simp at hrest
          | cons other rest =>
            simp only [slotRows, ↓reduceIte, List.map_cons, chars_append, chars_slotMark,
              slotTexts, hrest]
            simp [Fragment.blank]

theorem inner_expression (source : String) : (expression source).inner = [source.toList] := by
  simp [inner, texts, rows, chars]

theorem inner_array_nil : (array []).inner = ["[]".toList] := rfl

theorem inner_object_nil : (object []).inner = ["\x7b\x7d".toList] := rfl

theorem map_chars_itemRows (items : List Template) :
    (itemRows items).map chars = items.flatMap fun item => bulletTexts item.inner := by
  induction items with
  | nil => rfl
  | cons item items ih =>
    rw [itemRows, List.map_append, map_chars_bulleted, ih, List.flatMap_cons]

theorem inner_array {items : List Template} (h : items ≠ []) :
    (array items).inner = items.flatMap fun item => bulletTexts item.inner := by
  cases items with
  | nil => exact absurd rfl h
  | cons item items => rw [inner_eq_texts rfl, texts, rows, map_chars_itemRows]

theorem slotTexts_ne_nil {name : List Char} {optional isMixin : Bool} {rows : List (List Char)}
    (h : rows ≠ []) : slotTexts name optional isMixin rows ≠ [] := by
  rcases rows with _ | ⟨row, _ | ⟨next, rows⟩⟩
  · exact absurd rfl h
  · simp [slotTexts]
  · cases isMixin <;> simp [slotTexts]

theorem map_chars_entryRows {entries : List (String × Slot Template)}
    (h : ∀ entry ∈ entries, entry.2.value.inner ≠ []) :
    (entryRows entries).map chars = slotsTexts id entries := by
  induction entries with
  | nil => rfl
  | cons entry entries ih =>
    obtain ⟨key, optional, value⟩ := entry
    have hv : value.inner ≠ [] := h (key, ⟨optional, value⟩) (by simp)
    rw [entryRows, List.map_append, map_chars_slotRows key optional value hv,
      ih fun entry he => h entry (by simp [he])]
    rfl

theorem map_chars_additionRows {additions : List (Path × Slot Template)}
    (h : ∀ addition ∈ additions, addition.2.value.inner ≠ []) :
    (additionRows additions).map chars = slotsTexts Path.text additions := by
  induction additions with
  | nil => rfl
  | cons addition additions ih =>
    obtain ⟨path, optional, value⟩ := addition
    have hv : value.inner ≠ [] := h (path, ⟨optional, value⟩) (by simp)
    rw [additionRows, List.map_append, map_chars_slotRows path.text optional value hv,
      ih fun addition ha => h addition (by simp [ha])]
    rfl

theorem inner_mixin_of {base : Path} {removals : List Path}
    {additions : List (Path × Slot Template)}
    (h : ∀ addition ∈ additions, addition.2.value.inner ≠ []) :
    (mixin base removals additions).inner =
      mixinTexts (base.text.toList ++ editsText removals (!additions.isEmpty))
        (slotsTexts Path.text additions) := by
  apply inner_eq_of_hung rfl
  rw [texts, rows, map_chars_mixinRows, chars_mixinMark, map_chars_additionRows h]

theorem inner_object_of {entries : List (String × Slot Template)} (hne : entries ≠ [])
    (h : ∀ entry ∈ entries, entry.2.value.inner ≠ []) :
    (object entries).inner = slotsTexts id entries := by
  cases entries with
  | nil => exact absurd rfl hne
  | cons entry entries => rw [inner_eq_texts rfl, texts, rows, map_chars_entryRows h]

theorem slotsTexts_ne_nil {κ : Type} {write : κ → String} {slots : List (κ × Slot Template)}
    (hne : slots ≠ []) (h : ∀ slot ∈ slots, slot.2.value.inner ≠ []) :
    slotsTexts write slots ≠ [] := by
  cases slots with
  | nil => exact absurd rfl hne
  | cons slot slots =>
    rw [slotsTexts, List.flatMap_cons]
    exact fun e => slotTexts_ne_nil (h slot (by simp)) (List.append_eq_nil_iff.mp e).1

theorem inner_ne_nil (t : Template) : t.inner ≠ [] := by
  induction t using induction_on_parts with
  | step t ih =>
    cases t with
    | expression source => simp [inner_expression]
    | array items =>
      cases items with
      | nil => simp [inner_array_nil]
      | cons item items =>
        have hi : item.inner ≠ [] := ih item (by simp [parts])
        rw [inner_array (by simp), List.flatMap_cons]
        cases hr : item.inner with
        | nil => exact absurd hr hi
        | cons row rows => simp [bulletTexts]
    | object entries =>
      cases entries with
      | nil => simp [inner_object_nil]
      | cons entry entries =>
        have hall : ∀ e ∈ entry :: entries, e.2.value.inner ≠ [] := fun e he =>
          ih e.2.value (List.mem_map_of_mem (f := fun e => e.2.value) he)
        rw [inner_object_of (by simp) hall]
        exact slotsTexts_ne_nil (by simp) hall
    | mixin base removals additions =>
      rw [inner_mixin_of fun a ha =>
        ih a.2.value (List.mem_map_of_mem (f := fun a => a.2.value) ha)]
      unfold mixinTexts
      split <;> simp

theorem texts_ne_nil (t : Template) : t.texts ≠ [] := by
  have hi := inner_ne_nil t
  rw [texts_eq_ite]
  split
  · cases hr : t.inner with
    | nil => exact absurd hr hi
    | cons row rows => simp [hung]
  · exact hi

theorem inner_object {entries : List (String × Slot Template)} (h : entries ≠ []) :
    (object entries).inner = slotsTexts id entries :=
  inner_object_of h fun entry _ => inner_ne_nil entry.2.value

theorem inner_mixin (base : Path) (removals : List Path)
    (additions : List (Path × Slot Template)) :
    (mixin base removals additions).inner =
      mixinTexts (base.text.toList ++ editsText removals (!additions.isEmpty))
        (slotsTexts Path.text additions) :=
  inner_mixin_of fun addition _ => inner_ne_nil addition.2.value

end ApiContract.Template
