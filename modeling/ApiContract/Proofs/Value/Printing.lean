import ApiContract.Proofs.Document.Layout
import ApiContract.Proofs.Json.Reading
import ApiContract.Proofs.Value.Data
import ApiContract.Proofs.Value.Parts
import ApiContract.Value.Layout

namespace ApiContract

open Template (chars)

def Fragment.solid (fragment : Fragment) : List Fragment :=
  if fragment.tag = .indent ∨ fragment.tag = .newline then []
  else if fragment.text = ": " then [⟨fragment.tag, ":"⟩]
  else [fragment]

namespace Value

def Native : Value → Prop
  | id _ | ordered _ | type _ => False
  | _ => True

abbrev Simple (value : Value) : Prop := Throughout parts Native value

variable {highlight : Option String} {path : String} {depth index levels : Nat}
  {outer mark : Bool} {tag : Tag} {text opening closing : String} {fragments : List Fragment}

theorem chars_marked : chars [marked mark tag text] = text.toList := by
  simp [marked]

theorem chars_quotedText {s : String} : (quotedText s).toList = Json.quoted s :=
  String.toList_ofList

theorem gap_indentation : Json.Gap (chars (indentation depth)) := by
  intro c hc
  rw [indentation] at hc
  split at hc
  · cases hc
  · rw [Template.chars_cons, Template.chars_nil, List.append_nil, String.toList_ofList] at hc
    rw [List.eq_of_mem_replicate hc]
    rfl

theorem gap_newline : Json.Gap ['\n'] := List.forall_mem_singleton.mpr rfl

theorem gap_blank : Json.Gap [' '] := List.forall_mem_singleton.mpr rfl

theorem chars_enclosed : chars (enclosed mark opening closing depth fragments) =
    opening.toList ++ ('\n' :: (chars fragments ++ chars (indentation depth))) ++
      closing.toList := by
  simp [enclosed, marked, Fragment.newline]

variable {item next : Value} {items : List Value} {key : String} {field : String × Value}
  {fields : List (String × Value)}

theorem chars_itemFragments_last : chars (itemFragments highlight path depth mark index [item]) =
    chars (indentation depth) ++
      chars (fragmentsAt highlight (joinedPath path (toString index)) depth mark item) ++
        ['\n'] := by
  simp [itemFragments, comma, Fragment.newline]

theorem chars_itemFragments_more :
    chars (itemFragments highlight path depth mark index (item :: next :: items)) =
      chars (indentation depth) ++
        chars (fragmentsAt highlight (joinedPath path (toString index)) depth mark item) ++
          ',' :: '\n' :: chars (itemFragments highlight path depth mark (index + 1)
            (next :: items)) := by
  rw [itemFragments]
  simp [comma, marked, Fragment.newline]

theorem chars_fieldFragments_last :
    chars (fieldFragments highlight path depth mark [(key, item)]) =
      chars (indentation depth) ++ (Json.quoted key ++ ':' ::
        (' ' :: chars (fragmentsAt highlight (joinedPath path key) depth mark item))) ++
          ['\n'] := by
  simp [fieldFragments, comma, marked, Fragment.newline, chars_quotedText]

theorem chars_fieldFragments_more :
    chars (fieldFragments highlight path depth mark ((key, item) :: field :: fields)) =
      chars (indentation depth) ++ (Json.quoted key ++ ':' ::
        (' ' :: chars (fragmentsAt highlight (joinedPath path key) depth mark item))) ++
          ',' :: '\n' :: chars (fieldFragments highlight path depth mark (field :: fields)) := by
  rw [fieldFragments]
  simp [comma, marked, Fragment.newline, chars_quotedText]

theorem exists_inner_levels {n : Nat} (h : n + 1 ≤ levels) :
    ∃ inner, levels = inner + 1 ∧ n ≤ inner := by
  refine ⟨levels - 1, ?_, ?_⟩
  · omega
  · omega

mutual

/-- A printed value is read as its data. -/
theorem reads_fragmentsAt (path : String) (depth : Nat) (outer : Bool) {levels : Nat} :
    ∀ value : Value, value.Simple → value.Tidy → value.toJson.levels ≤ levels →
      Json.Reads (.full levels) (chars (fragmentsAt highlight path depth outer value)) value.toJson
  | null, _, _, _ => by
    rw [fragmentsAt, chars_marked]
    exact Json.reads_null
  | bool b, _, _, _ => by
    rw [fragmentsAt, chars_marked]
    cases b with
    | false => exact Json.reads_bool false
    | true => exact Json.reads_bool true
  | number n, _, _, _ => by
    rw [fragmentsAt, chars_marked, Number.text, String.toList_ofList]
    exact Json.reads_number n
  | string s, _, _, _ => by
    rw [fragmentsAt, chars_marked, chars_quotedText]
    exact Json.reads_string s
  | id _, hd, _, _ | ordered _, hd, _, _ | type _, hd, _, _ => hd.here.elim
  | array [], _, _, hl => by
    obtain ⟨levels, rfl, -⟩ := exists_inner_levels hl
    rw [fragmentsAt, chars_marked]
    exact Json.reads_array_nil rfl
  | object [], _, _, hl => by
    obtain ⟨levels, rfl, -⟩ := exists_inner_levels hl
    rw [fragmentsAt, chars_marked]
    exact Json.reads_object_nil rfl
  | array (item :: items), hd, ht, hl => by
    obtain ⟨levels, rfl, hinner⟩ := exists_inner_levels hl
    rw [fragmentsAt, chars_enclosed]
    have hitems := reads_itemFragments path (depth + 1) (outer || highlight == some path) 0
      (item :: items) (fun _ => hd.parts) (fun _ => ht.parts) hinner
      (List.cons_ne_nil _ _) gap_newline (@gap_indentation depth)
    exact hitems.array rfl
  | object (field :: fields), hd, ht, hl => by
    obtain ⟨levels, rfl, hinner⟩ := exists_inner_levels hl
    rw [fragmentsAt, chars_enclosed]
    have hmembers := reads_fieldFragments path (depth + 1) (outer || highlight == some path)
      (field :: fields) (fun m hm => hd.parts (List.mem_map_of_mem hm))
      (fun m hm => ht.parts (List.mem_map_of_mem hm)) hinner
      (List.cons_ne_nil _ _) gap_newline (@gap_indentation depth)
    have hsorted : Fields.Sorted (fieldsToJson (field :: fields)) := by
      rw [Fields.Sorted, keys_fieldsToJson]
      exact ht.here
    exact hmembers.object rfl hsorted

theorem reads_itemFragments (path : String) (depth : Nat) (mark : Bool) (index : Nat)
    {levels : Nat} {gap front : List Char} : ∀ items : List Value, (∀ item ∈ items, item.Simple) →
      (∀ item ∈ items, item.Tidy) → Json.itemLevels (itemsToJson items) ≤ levels → items ≠ [] →
        Json.Gap gap → Json.Gap front →
          Json.ReadsItems (.full levels)
            (gap ++ chars (itemFragments highlight path depth mark index items) ++ front)
              (itemsToJson items)
  | [], _, _, _, hne, _, _ => absurd rfl hne
  | [item], hd, ht, hl, _, hg, hf => by
    have hitem := reads_fragmentsAt (joinedPath path (toString index)) depth mark item
      (hd item List.mem_cons_self) (ht item List.mem_cons_self)
      (Nat.le_trans (Nat.le_max_left _ _) hl)
    -- the newline behind the last item belongs to the gap in front of the bracket
    have hread := (hitem.behind_gap (hg.append (@gap_indentation depth))).last
      (gap_newline.append hf)
    rw [chars_itemFragments_last, itemsToJson, itemsToJson]
    simpa only [List.append_assoc] using hread
  | item :: next :: items, hd, ht, hl, _, hg, hf => by
    obtain ⟨hditem, hditems⟩ := List.forall_mem_cons.mp hd
    obtain ⟨htitem, htitems⟩ := List.forall_mem_cons.mp ht
    have hitem := reads_fragmentsAt (joinedPath path (toString index)) depth mark item
      hditem htitem (Nat.le_trans (Nat.le_max_left _ _) hl)
    have hitems := reads_itemFragments path depth mark (index + 1) (next :: items) hditems htitems
      (Nat.le_trans (Nat.le_max_right _ _) hl) (List.cons_ne_nil _ _) gap_newline hf
    have hread := (hitem.behind_gap (hg.append (@gap_indentation depth))).more hitems
    rw [chars_itemFragments_more, itemsToJson]
    simpa only [List.append_assoc, List.cons_append, List.nil_append] using hread

theorem reads_fieldFragments (path : String) (depth : Nat) (mark : Bool) {levels : Nat}
    {gap front : List Char} : ∀ fields : List (String × Value), (∀ m ∈ fields, m.2.Simple) →
      (∀ m ∈ fields, m.2.Tidy) → Json.fieldLevels (fieldsToJson fields) ≤ levels → fields ≠ [] →
        Json.Gap gap → Json.Gap front →
          Json.ReadsMembers (.full levels)
            (gap ++ chars (fieldFragments highlight path depth mark fields) ++ front)
              (fieldsToJson fields)
  | [], _, _, _, hne, _, _ => absurd rfl hne
  | [(key, value)], hd, ht, hl, _, hg, hf => by
    have hvalue := reads_fragmentsAt (joinedPath path key) depth mark value
      (hd _ List.mem_cons_self) (ht _ List.mem_cons_self) (Nat.le_trans (Nat.le_max_left _ _) hl)
    have hread : Json.ReadsMembers (.full levels) _ [(key, value.toJson)] :=
      (hvalue.behind_gap gap_blank).lastMember (hg.append (@gap_indentation depth))
        (gap_newline.append hf)
    rw [chars_fieldFragments_last, fieldsToJson, fieldsToJson]
    simpa only [List.append_assoc, List.cons_append, List.nil_append] using hread
  | (key, value) :: field :: fields, hd, ht, hl, _, hg, hf => by
    obtain ⟨hdvalue, hdfields⟩ := List.forall_mem_cons.mp hd
    obtain ⟨htvalue, htfields⟩ := List.forall_mem_cons.mp ht
    have hvalue := reads_fragmentsAt (joinedPath path key) depth mark value hdvalue htvalue
      (Nat.le_trans (Nat.le_max_left _ _) hl)
    have hfields := reads_fieldFragments path depth mark (field :: fields) hdfields htfields
      (Nat.le_trans (Nat.le_max_right _ _) hl) (List.cons_ne_nil _ _) gap_newline hf
    have hread : Json.ReadsMembers (.full levels) _
        ((key, value.toJson) :: fieldsToJson (field :: fields)) :=
      (hvalue.behind_gap gap_blank).moreMembers (hg.append (@gap_indentation depth)) hfields
    rw [chars_fieldFragments_more, fieldsToJson]
    simpa only [List.append_assoc, List.cons_append, List.nil_append] using hread

end

def solidChars (fragments : List Fragment) : List Char :=
  chars (fragments.flatMap Fragment.solid)

theorem solidChars_append (fragments others : List Fragment) :
    solidChars (fragments ++ others) = solidChars fragments ++ solidChars others := by
  rw [solidChars, List.flatMap_append, Template.chars_append]
  rfl

theorem solidChars_cons (fragment : Fragment) (fragments : List Fragment) :
    solidChars (fragment :: fragments) = chars fragment.solid ++ solidChars fragments := by
  rw [solidChars, List.flatMap_cons, Template.chars_append]
  rfl

theorem solidChars_nil : solidChars [] = [] := rfl

theorem chars_solid_marked (ht : tag ≠ .indent ∧ tag ≠ .newline)
    (h : text.toList.head? ≠ some ':') : chars (marked mark tag text).solid = text.toList := by
  have htag : ¬ ((marked mark tag text).tag = .indent ∨ (marked mark tag text).tag = .newline) := by
    cases mark with
    | false => exact not_or.mpr ht
    | true => exact (by decide : ¬ (Tag.highlight = .indent ∨ Tag.highlight = .newline))
  have htext : (marked mark tag text).text ≠ ": " := by
    rintro rfl
    exact h rfl
  rw [Fragment.solid, if_neg htag, if_neg htext]
  exact chars_marked

theorem solidChars_piece (ht : tag ≠ .indent ∧ tag ≠ .newline)
    (h : text.toList.head? ≠ some ':') : solidChars [marked mark tag text] = text.toList := by
  rw [solidChars_cons, solidChars_nil, List.append_nil, chars_solid_marked ht h]

theorem chars_solid_colon : chars (marked mark .bracket ": ").solid = [':'] := by
  cases mark <;> rfl

theorem chars_solid_newline : chars Fragment.newline.solid = [] := rfl

theorem solidChars_indentation : solidChars (indentation depth) = [] := by
  rw [indentation]
  split <;> rfl

theorem solidChars_comma {isLast : Bool} :
    solidChars (comma mark isLast) = if isLast then [] else [','] := by
  cases isLast with
  | true => rfl
  | false => cases mark <;> rfl

theorem solidChars_enclosed (ho : opening.toList.head? ≠ some ':')
    (hc : closing.toList.head? ≠ some ':') :
    solidChars (enclosed mark opening closing depth fragments) =
      opening.toList ++ solidChars fragments ++ closing.toList := by
  rw [enclosed, solidChars_append, solidChars_append, solidChars_cons, solidChars_cons,
    solidChars_cons, solidChars_nil, solidChars_indentation, chars_solid_newline,
    chars_solid_marked (by decide) ho, chars_solid_marked (by decide) hc]
  simp

theorem head_quotedText {s : String} : (quotedText s).toList.head? ≠ some ':' := by
  rw [chars_quotedText, Json.quoted, Text.quote]
  exact fun h => absurd (Option.some.inj h) (by decide)

theorem head_number {n : Number} : n.text.toList.head? ≠ some ':' := by
  obtain ⟨c, s, hs, hc⟩ := Json.exists_chars_eq_cons n
  rw [Number.text, String.toList_ofList, hs]
  intro heq
  exact Json.ne_of_opensNumber hc (by decide) (Option.some.inj heq)

mutual

theorem solidChars_fragmentsAt (path : String) (depth : Nat) (outer : Bool) :
    ∀ value : Value, value.Simple →
      solidChars (fragmentsAt highlight path depth outer value) = value.toJson.chars
  | null, _ => by
    rw [fragmentsAt]
    exact solidChars_piece (by decide) (by decide)
  | bool b, _ => by
    rw [fragmentsAt]
    cases b with
    | false => exact solidChars_piece (by decide) (by decide)
    | true => exact solidChars_piece (by decide) (by decide)
  | number n, _ => by
    rw [fragmentsAt, solidChars_piece (by decide) head_number, Number.text, String.toList_ofList]
    rfl
  | string s, _ => by
    rw [fragmentsAt, solidChars_piece (by decide) head_quotedText, chars_quotedText]
    rfl
  | id _, hd | ordered _, hd | type _, hd => hd.here.elim
  | array [], _ | object [], _ => by
    rw [fragmentsAt]
    exact solidChars_piece (by decide) (by decide)
  | array (item :: items), hd => by
    rw [fragmentsAt, solidChars_enclosed (by decide) (by decide),
      solidChars_itemFragments path (depth + 1) _ 0 (item :: items) fun _ => hd.parts]
    rfl
  | object (field :: fields), hd => by
    rw [fragmentsAt, solidChars_enclosed (by decide) (by decide),
      solidChars_fieldFragments path (depth + 1) _ (field :: fields)
        fun m hm => hd.parts (List.mem_map_of_mem hm)]
    rfl

theorem solidChars_itemFragments (path : String) (depth : Nat) (mark : Bool) (index : Nat) :
    ∀ items : List Value, (∀ item ∈ items, item.Simple) →
      solidChars (itemFragments highlight path depth mark index items) =
        Json.itemChars (itemsToJson items)
  | [], _ => rfl
  | item :: items, hd => by
    obtain ⟨hitem, hitems⟩ := List.forall_mem_cons.mp hd
    have hrest := solidChars_itemFragments path depth mark (index + 1) items hitems
    rw [itemFragments, solidChars_append, solidChars_append, solidChars_append, solidChars_cons,
      solidChars_indentation, solidChars_comma, chars_solid_newline, hrest,
      solidChars_fragmentsAt _ depth mark item hitem]
    cases items with
    | nil => simp [itemsToJson, Json.itemChars]
    | cons next items => simp [itemsToJson, Json.itemChars_cons_cons]

theorem solidChars_fieldFragments (path : String) (depth : Nat) (mark : Bool) :
    ∀ fields : List (String × Value), (∀ m ∈ fields, m.2.Simple) →
      solidChars (fieldFragments highlight path depth mark fields) =
        Json.fieldChars (fieldsToJson fields)
  | [], _ => rfl
  | (key, value) :: fields, hd => by
    obtain ⟨hvalue, hfields⟩ := List.forall_mem_cons.mp hd
    have hrest := solidChars_fieldFragments path depth mark fields hfields
    rw [fieldFragments, solidChars_append, solidChars_append, solidChars_append, solidChars_cons,
      solidChars_cons, solidChars_cons, solidChars_indentation, solidChars_comma,
      chars_solid_newline, chars_solid_marked (by decide) head_quotedText, chars_solid_colon, hrest,
      solidChars_fragmentsAt _ depth mark value hvalue, chars_quotedText]
    cases fields with
    | nil => simp [fieldsToJson, Json.fieldChars]
    | cons next fields => simp [fieldsToJson, Json.fieldChars_cons_cons]

end

/-- What is printed of plain data, whatever is highlighted in it, is read as the data that the value
stands for, with nothing left. Without its gaps it is the compact text of that data. -/
theorem print_reads_as_data {value : Value} (hd : value.Simple) (ht : value.Tidy)
    (highlight : Option String) :
    (∀ levels, value.toJson.levels ≤ levels →
      (Json.value? (.full levels) (value.print highlight .plain).toList).map Reading.pair =
        some (value.toJson, [])) ∧
    (value.toJson.levels ≤ Json.maxLevels →
      Json.ofChars? (value.print highlight .plain).toList = some value.toJson) ∧
    Renderer.plain.render ((value.fragments highlight).flatMap Fragment.solid) =
      value.toJson.text := by
  have hread : ∀ levels, value.toJson.levels ≤ levels →
      (Json.value? (.full levels) (value.print highlight .plain).toList).map Reading.pair =
        some (value.toJson, []) := by
    intro levels hlevels
    have hvalue := @reads_fragmentsAt highlight "" 0 false levels value hd ht hlevels [] nofun
    rwa [List.append_nil, ← Renderer.toList_render_plain] at hvalue
  refine ⟨hread, ?_, ?_⟩
  · intro hlevels
    obtain ⟨r, hr, hvalue, hrest⟩ := Json.exists_of_map_pair (hread Json.maxLevels hlevels)
    rw [Json.ofChars?, hr]
    simp [hvalue, hrest]
  · rw [Json.text, ← @solidChars_fragmentsAt highlight "" 0 false value hd, solidChars,
      ← Renderer.toList_render_plain, String.ofList_toList]
    rfl

theorem print_reads_as_data_of_nested :
    let value : Value := .object [("a", .array [.string "\x1b: ", .object [], .null])]
    value.Simple ∧ value.Tidy ∧
      Json.ofChars? (value.print (some "a.0") .plain).toList = some value.toJson := by
  intro value
  have hd : value.Simple := by simp [value, Simple, Native]
  have ht : value.Tidy := by simp [value, Tidy, Keyed, Fields.Sorted, Fields.keys]
  have hlevels : value.toJson.levels ≤ Json.maxLevels := by decide
  exact ⟨hd, ht, (print_reads_as_data hd ht (some "a.0")).2.1 hlevels⟩

end Value

end ApiContract
