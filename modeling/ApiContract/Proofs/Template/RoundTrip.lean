import Mathlib.Data.List.Nodup
import ApiContract.Proofs.Template.Gathering

namespace ApiContract.Template

/-- An expression is read as one, and no path of a mixin has two additions. -/
def Distinct : Template → Prop
  | expression source => source.toList.head? ≠ some '*' ∧ isKeyLine source.toList = false ∧
      MixinOpening.ofChars? source.toList = none
  | mixin _ _ additions => (additions.map Prod.fst).Nodup
  | _ => True

/-- A template that is told apart from every other one by its layout. -/
def Legible (t : Template) : Prop := t.Throughout Distinct

theorem colon_of_afterColon? {s tail : List Char} (h : Opening.afterColon? s = some tail) :
    s = [':'] ∨ ∃ c rest, s = ':' :: c :: rest ∧ Opening.isGap c = true := by
  unfold Opening.afterColon? at h
  split at h
  · exact .inl rfl
  · rename_i c rest
    dsimp only at h
    split at h
    · rename_i hg
      exact .inr ⟨c, rest, rfl, ((Bool.and_eq_true _ _).mp hg).1⟩
    · cases h
  · cases h

theorem isKeyLine_of_key? {s : List Char} {opening : Opening} (h : Opening.key? s = some opening) :
    isKeyLine s = true := by
  obtain ⟨⟨name, rest⟩, ht, hb⟩ := Option.bind_eq_some_iff.mp h
  obtain ⟨tail, ha, -⟩ := Option.map_eq_some_iff.mp hb
  obtain hcolon | ⟨c, more, hcolon, hgap⟩ :=
    @colon_of_afterColon? (Opening.takeOptional rest).2 tail ha
  · simp [isKeyLine, ht, hcolon]
  · simp [isKeyLine, ht, hcolon, hgap]

theorem exists_start_of_isKeyLine {s : List Char} (h : isKeyLine s = true) :
    ∃ c ∈ s.head?, Identifier.isStart c = true := by
  cases s with
  | nil => cases h
  | cons c s =>
    refine ⟨c, rfl, ?_⟩
    by_contra hc
    rw [isKeyLine, Identifier.take?, if_neg hc] at h
    cases h

theorem head_of_isKeyLine {s : List Char} (h : isKeyLine s = true) : s.head? ≠ some '*' := by
  obtain ⟨c, hc, hstart⟩ := exists_start_of_isKeyLine h
  rintro he
  obtain rfl := Option.mem_unique hc he
  cases hstart

theorem head_of_key? {s : List Char} {opening : Opening} (h : Opening.key? s = some opening) :
    s.head? ≠ some '*' :=
  head_of_isKeyLine (isKeyLine_of_key? h)

theorem not_isIndented_of_isKeyLine {line : Line} (h : isKeyLine line.text = true) :
    line.isIndented = false := by
  obtain ⟨c, hc, hstart⟩ := exists_start_of_isKeyLine h
  rw [Line.isIndented, Option.mem_def.mp hc]
  refine beq_eq_false_iff_ne.mpr ?_
  rintro ⟨⟩
  cases hstart

theorem dropWhile_dropWhile_of_imp {p q : Char → Bool} (h : ∀ c, p c = true → q c = true)
    (s : List Char) : (s.dropWhile p).dropWhile q = s.dropWhile q := by
  induction s with
  | nil => rfl
  | cons c s ih =>
    cases hp : p c with
    | false => rw [List.dropWhile_cons_of_neg (by simp [hp])]
    | true => rw [List.dropWhile_cons_of_pos hp, ih, List.dropWhile_cons_of_pos (h c hp)]

theorem exists_of_ofChars? {s : List Char} {opening : MixinOpening}
    (h : MixinOpening.ofChars? s = some opening) :
    (∃ c ∈ s.head?, Identifier.isStart c = true) ∧
      ∃ c ∈ (s.dropWhile Opening.isPathPart).head?, Text.isBlank c = true := by
  simp only [MixinOpening.ofChars?] at h
  split at h
  · cases h
  · rename_i base rest ht
    simp only [Opening.takePath?] at ht
    split at ht
    · cases ht
      split at h
      · cases h
      · rename_i hstart
        simp only [Bool.not_eq_true, Bool.not_eq_false', Bool.and_eq_true,
          Option.any_eq_true] at hstart
        obtain ⟨⟨c, hc, hs⟩, hblank⟩ := hstart
        refine ⟨⟨c, ?_, hs⟩, hblank⟩
        cases s with
        | nil => cases hc
        | cons d s =>
          rw [List.takeWhile_cons] at hc
          split at hc
          · exact hc
          · cases hc
    · cases ht

theorem head_of_ofChars? {s : List Char} {opening : MixinOpening}
    (h : MixinOpening.ofChars? s = some opening) : s.head? ≠ some '*' := by
  obtain ⟨⟨c, hc, hs⟩, -⟩ := exists_of_ofChars? h
  intro he
  rw [he] at hc
  cases hc
  simp [Identifier.isStart] at hs

theorem not_isKeyLine_of_ofChars? {s : List Char} {opening : MixinOpening}
    (h : MixinOpening.ofChars? s = some opening) : isKeyLine s = false := by
  obtain ⟨-, b, hb, hblank⟩ := exists_of_ofChars? h
  cases ht : Identifier.take? s with
  | none => simp [isKeyLine, ht]
  | some p =>
    obtain ⟨name, rest⟩ := p
    have hrest : rest = s.dropWhile Identifier.isPart := by
      cases s with
      | nil => cases ht
      | cons c s =>
        simp only [Identifier.take?] at ht
        split at ht
        · rename_i hc
          cases ht
          rw [List.dropWhile_cons_of_pos (by simp [Identifier.isPart, hc])]
        · cases ht
    have hpath : rest.dropWhile Opening.isPathPart = s.dropWhile Opening.isPathPart := by
      rw [hrest]
      exact dropWhile_dropWhile_of_imp (fun c => isPathPart_of_isPart) s
    have hhead : ∀ c ∈ rest.head?, c = '.' ∨ Text.isBlank c = true := by
      intro c hc
      cases hp : Opening.isPathPart c with
      | true =>
        have hn : Identifier.isPart c = false := by
          have hd := List.head?_dropWhile_not Identifier.isPart s
          rwa [← hrest, hc] at hd
        left
        simpa [Opening.isPathPart, hn] using hp
      | false =>
        right
        cases rest with
        | nil => cases hc
        | cons d rest =>
          cases hc
          rw [← hpath, List.dropWhile_cons_of_neg (by simp [hp])] at hb
          cases hb
          exact hblank
    rw [isKeyLine, ht]
    cases rest with
    | nil => rfl
    | cons c rest =>
      have hc := hhead c (by simp)
      have hq : c ≠ '?' ∧ c ≠ ':' := by
        constructor <;> rintro rfl <;> simp [Text.isBlank] at hc
      simp [Opening.takeOptional, hq]

theorem read_iff_of_forall₂ {groups : List Group} {items : List Template} {P : Template → Prop}
    (hg : List.Forall₂ Group.Holds groups items)
    (h : ∀ item ∈ items, ∀ group : Group, group.Holds item → (group.read = .ok item ↔ P item)) :
    List.Forall₂ (fun group item => group.read = .ok item) groups items ↔
      ∀ item ∈ items, P item := by
  induction hg with
  | nil => simp
  | @cons group item groups items hhead _ ih =>
    rw [List.forall₂_cons, List.forall_mem_cons, h item (by simp) group hhead,
      ih fun item hi => h item (by simp [hi])]

section Slots

variable {κ : Type} {write : κ → String} {groups : List Group}
  {read : Group → Except Fault (κ × Slot Template)} {P : Template → Prop}
  {entries others : List (κ × Slot Template)}

theorem readSlots_iff_of_forall₂ (hg : List.Forall₂ (Group.IsSlot write) groups entries)
    (hread : ∀ group, ∀ entry ∈ entries, group.name = (write entry.1).toList →
      group.optional = entry.2.optional →
      (read group = .ok entry ↔ group.read = .ok entry.2.value))
    (h : ∀ entry ∈ entries, ∀ group : Group, group.Holds entry.2.value →
      (group.read = .ok entry.2.value ↔ P entry.2.value)) :
    List.Forall₂ (fun group entry => read group = .ok entry) groups entries ↔
      ∀ entry ∈ entries, P entry.2.value := by
  induction hg with
  | nil => simp
  | @cons group entry groups entries hhead _ ih =>
    rw [List.forall₂_cons, List.forall_mem_cons,
      hread group entry (by simp) hhead.name hhead.optional, h entry (by simp) group hhead.holds,
      ih (fun group e he => hread group e (by simp [he])) fun e he => h e (by simp [he])]

theorem map_fst_of_forall₂ (hg : List.Forall₂ (Group.IsSlot write) groups entries)
    (ho : List.Forall₂ (fun group entry => read group = .ok entry) groups others)
    (hread : ∀ group, ∀ entry ∈ entries, ∀ other, group.name = (write entry.1).toList →
      read group = .ok other → other.1 = entry.1) :
    others.map Prod.fst = entries.map Prod.fst := by
  induction hg generalizing others with
  | nil =>
    rw [List.forall₂_nil_left_iff] at ho
    rw [ho]
  | @cons group entry groups entries hhead _ ih =>
    obtain ⟨other, rest, hr, hrest, rfl⟩ := List.forall₂_cons_left_iff.mp ho
    rw [List.map_cons, List.map_cons, hread group entry (by simp) other hhead.name hr,
      ih hrest fun group e he => hread group e (by simp [he])]

end Slots

variable {lines : List Line} {origin : Span} {inline : Bool}

theorem exists_first_of_texts {rows : List (List Char)} (hne : rows ≠ [])
    (hl : lines.map Line.text = rows) :
    ∃ first more, lines = first :: more ∧ first.text ∈ rows.head? := by
  cases lines with
  | nil => exact absurd hl.symm hne
  | cons first more =>
    refine ⟨first, more, rfl, ?_⟩
    rw [← hl]
    rfl

theorem ofLine_tight {line : Line} (h : Text.Tight line.text) :
    ofLine line =
      if line.text = "\x7b\x7d".toList then .ok (object [])
      else if line.text = "[]".toList then .ok (array [])
      else .ok (expression (String.ofList line.text)) := by
  have he : line.text.isEmpty = false := by simpa using h.ne_nil
  simp only [ofLine, h.trim, he, Bool.false_eq_true, ↓reduceIte]

theorem ofLines_expression {source : String} (h : Source source)
    (hl : lines.map Line.text = [source.toList]) :
    ofLines lines origin inline = .ok (expression source) ↔ Distinct (expression source) := by
  obtain ⟨line, rfl, hline⟩ := List.map_eq_singleton_iff.mp hl
  have htight : Text.Tight line.text := hline ▸ h.tight
  have hsource : String.ofList line.text = source := by rw [hline, String.ofList_toList]
  have hobject : line.text ≠ "\x7b\x7d".toList := fun e =>
    h.not_object (String.toList_inj.mp (hline ▸ e))
  have harray : line.text ≠ "[]".toList := fun e =>
    h.not_array (String.toList_inj.mp (hline ▸ e))
  rw [Distinct, ← hline]
  constructor
  · intro hr
    cases lead line.text with
    | bullet hs =>
      obtain ⟨_, _, _, _, ht⟩ := (ofLines_array hs).mp hr
      cases ht
    | key hs hk =>
      obtain ⟨_, _, _, _, ht⟩ := (ofLines_object hs hk).mp hr
      cases ht
    | mixin hs hk ho =>
      obtain ⟨_, _, _, _, ht⟩ := (ofLines_mixin hs hk ho).mp hr
      cases ht
    | other hs hk ho => exact ⟨hs, hk, ho⟩
  · rintro ⟨hs, hk, ho⟩
    rw [ofLines_single hs hk ho, ofLine_tight htight]
    simp only [hobject, harray, hsource, ↓reduceIte, and_self]

theorem ofLines_brackets {row : List Char} {t : Template}
    (hl : lines.map Line.text = [row]) (hs : row.head? ≠ some '*') (hk : isKeyLine row = false)
    (ho : MixinOpening.ofChars? row = none)
    (ht : ∀ line : Line, line.text = row → ofLine line = .ok t) :
    ofLines lines origin inline = .ok t := by
  obtain ⟨line, rfl, rfl⟩ := List.map_eq_singleton_iff.mp hl
  exact (ofLines_single hs hk ho).mpr ⟨rfl, ht line rfl⟩

theorem ofLines_bullets {items : List Template} (h : ∀ item ∈ items, item.WellFormed)
    (hne : items ≠ []) {P : Template → Prop}
    (ih : ∀ item ∈ items, ∀ group : Group, group.Holds item → (group.read = .ok item ↔ P item))
    (hl : lines.map Line.text = items.flatMap fun item => bulletTexts item.inner) :
    ofLines lines origin inline = .ok (array items) ↔ ∀ item ∈ items, P item := by
  obtain ⟨groups, hg, hall⟩ := Group.exists_bullets h hl
  have hrows : (items.flatMap fun item => bulletTexts item.inner) ≠ [] :=
    inner_array hne ▸ inner_ne_nil (array items)
  obtain ⟨first, more, rfl, hfirst⟩ := exists_first_of_texts hrows hl
  have hs : first.text.head? = some '*' := by
    cases items with
    | nil => exact absurd rfl hne
    | cons item items =>
      cases hi : item.inner with
      | nil => exact absurd hi (inner_ne_nil item)
      | cons row rows =>
        rw [List.flatMap_cons, hi] at hfirst
        rw [Option.mem_some_iff.mp hfirst.symm]
        rfl
  rw [ofLines_array hs, ← read_iff_of_forall₂ hall ih]
  constructor
  · rintro ⟨groups', items', hg', hi, ht⟩
    rw [hg] at hg'
    cases hg'
    cases ht
    exact hi
  · exact fun hi => ⟨groups, items, hg, hi, rfl⟩

theorem ofLines_entries {entries : List (String × Slot Template)} (hsorted : Fields.Sorted entries)
    (hvalid : ∀ entry ∈ entries, Identifier.isValid entry.1.toList = true)
    (h : ∀ entry ∈ entries, entry.2.value.WellFormed) (hne : entries ≠ []) {P : Template → Prop}
    (ih : ∀ entry ∈ entries, ∀ group : Group, group.Holds entry.2.value →
      (group.read = .ok entry.2.value ↔ P entry.2.value))
    (hl : lines.map Line.text = slotsTexts id entries) :
    ofLines lines origin inline = .ok (object entries) ↔
      ∀ entry ∈ entries, P entry.2.value := by
  have htakes : ∀ entry ∈ entries, Takes Opening.key? (id entry.1).toList := fun entry he =>
    takes_key? (hvalid entry he)
  have hword : ∀ entry ∈ entries, Word (id entry.1).toList := fun entry he =>
    word_of_isValid (hvalid entry he)
  obtain ⟨hall, hex⟩ := @Group.slots_laid _ _ _ id [] entries htakes hword h hl
  have hnodup : (entries.map fun entry => (id entry.1).toList).Nodup := by
    have hkeys : (Fields.keys entries).Nodup := by
      refine List.Pairwise.imp ?_ hsorted
      rintro key _ hlt rfl
      exact String.lt_irrefl key hlt
    have hm := hkeys.map_on fun _ _ _ _ => String.toList_inj.mp
    rwa [Fields.keys, List.map_map] at hm
  obtain ⟨groups, hg⟩ := hex.mpr ⟨hnodup, by simp⟩
  have hslots := hall groups hg
  have hread : ∀ group : Group, ∀ entry ∈ entries, group.name = (id entry.1).toList →
      group.optional = entry.2.optional →
      (group.readEntry = .ok entry ↔ group.read = .ok entry.2.value) := by
    intro group entry he hname hoptional
    rw [Group.readEntry_eq_ok_iff, hname, hoptional]
    simp
  have hfst : ∀ group : Group, ∀ entry ∈ entries, ∀ other, group.name = (id entry.1).toList →
      group.readEntry = .ok other → other.1 = entry.1 := by
    intro group entry he other hname hr
    rw [← (Group.readEntry_eq_ok_iff.mp hr).1, hname]
    simp
  obtain ⟨first, more, rfl⟩ := List.exists_cons_of_ne_nil (Group.ne_nil_of_slotsTexts hne hl)
  obtain ⟨opening, ho⟩ := Group.exists_opening_of_slots hg
  rw [ofLines_object (head_of_key? ho) (isKeyLine_of_key? ho),
    ← readSlots_iff_of_forall₂ hslots hread ih]
  constructor
  · rintro ⟨groups', others, hg', hothers, ht⟩
    rw [hg] at hg'
    cases hg'
    have hkeys : Fields.keys others = Fields.keys entries := map_fst_of_forall₂ hslots hothers hfst
    have hs : Fields.Sorted others := by
      rw [Fields.Sorted, hkeys]
      exact hsorted
    rw [ofGroups, Fields.ofList_eq_self hs] at ht
    cases ht
    exact hothers
  · intro he
    refine ⟨groups, entries, hg, he, ?_⟩
    rw [ofGroups, Fields.ofList_eq_self hsorted]

theorem ofLines_additions {base : Path} {removals : List Path}
    {additions : List (Path × Slot Template)} (he : Edit base removals (additions.map Prod.fst))
    (h : ∀ addition ∈ additions, addition.2.value.WellFormed) {P : Template → Prop}
    (ih : ∀ addition ∈ additions, ∀ group : Group, group.Holds addition.2.value →
      (group.read = .ok addition.2.value ↔ P addition.2.value))
    (hl : lines.map Line.text =
      if inline then (mixin base removals additions).inner
      else (mixin base removals additions).texts) :
    ofLines lines origin inline = .ok (mixin base removals additions) ↔
      (additions.map Prod.fst).Nodup ∧ ∀ addition ∈ additions, P addition.2.value := by
  have hregular : ∀ addition ∈ additions, addition.1.Regular := fun addition ha =>
    he.regular_paths addition.1 (List.mem_map_of_mem ha)
  have htakes : ∀ addition ∈ additions, Takes Opening.path? addition.1.text.toList :=
    fun addition ha => takes_path? (hregular addition ha)
  have hword : ∀ addition ∈ additions, Word addition.1.text.toList := fun addition ha =>
    word_of_regular (hregular addition ha)
  have hfirm : ∀ addition ∈ additions, ∀ row ∈ addition.2.value.inner, Firm row :=
    fun addition ha => firm_inner (h addition ha)
  have hrows : slotsTexts Path.text additions = [] ↔ additions = [] := by
    constructor
    · intro hs
      by_contra hne
      exact slotsTexts_ne_nil hne (fun addition _ => inner_ne_nil addition.2.value) hs
    · rintro rfl
      rfl
  obtain ⟨first, more, rfl⟩ : ∃ first more, lines = first :: more := by
    apply List.exists_cons_of_ne_nil
    rintro rfl
    cases inline
    · exact texts_ne_nil (mixin base removals additions) hl.symm
    · exact inner_ne_nil (mixin base removals additions) hl.symm
  rw [texts_eq_ite, inner_mixin] at hl
  obtain ⟨opening, block, ho, hblock, hdraft⟩ := read_mixinTexts he (firm_slotsTexts hword hfirm)
    (tight_slotsTexts hword hfirm) hrows hl
  obtain ⟨hall, hex⟩ := @Group.slots_laid _ _ _ _ [] _ htakes hword h hblock
  have hnodup : (additions.map fun addition => addition.1.text.toList).Nodup ↔
      (additions.map Prod.fst).Nodup := by
    have htexts : (additions.map fun addition => addition.1.text.toList) =
        (additions.map Prod.fst).map fun path => path.text.toList := by
      rw [List.map_map]
      rfl
    rw [htexts]
    refine ⟨List.Nodup.of_map _, List.Nodup.map_on fun p hp q hq e => ?_⟩
    exact Path.eq_of_text_eq (he.regular_paths p hp) (he.regular_paths q hq)
      (String.toList_inj.mp e)
  have hread : ∀ group : Group, ∀ addition ∈ additions, group.name = addition.1.text.toList →
      group.optional = addition.2.optional →
      (group.readAddition = .ok addition ↔ group.read = .ok addition.2.value) := by
    intro group addition ha hname hoptional
    rw [Group.readAddition_eq_ok_iff, hname, hoptional]
    simp [Path.ofChars?_written (hregular addition ha)]
  rw [ofLines_mixin (head_of_ofChars? ho) (not_isKeyLine_of_ofChars? ho) ho, hdraft, ← hnodup]
  constructor
  · rintro ⟨draft, others, hd, hothers, ht⟩
    cases hg : Group.slots Opening.path? [] block with
    | error fault =>
      rw [hg] at hd
      cases hd
    | ok groups =>
      rw [hg] at hd
      obtain rfl := Except.ok.inj hd
      cases ht
      exact ⟨(hex.mp ⟨groups, hg⟩).1,
        (readSlots_iff_of_forall₂ (hall groups hg) hread ih).mp hothers⟩
  · rintro ⟨hn, hp⟩
    obtain ⟨groups, hg⟩ := hex.mpr ⟨hn, by simp⟩
    refine ⟨⟨base, removals, groups⟩, additions, by rw [hg]; rfl, ?_, rfl⟩
    exact (readSlots_iff_of_forall₂ (hall groups hg) hread ih).mpr hp

/-- A template comes back from its lines, beside a mark or below one, if and only if it is
legible. -/
theorem ofLines_laid {t : Template} (h : t.WellFormed)
    (hl : lines.map Line.text = if inline then t.inner else t.texts) :
    ofLines lines origin inline = .ok t ↔ t.Legible := by
  induction t using induction_on_parts generalizing lines origin inline with
  | step t ih =>
    have hpart : ∀ part ∈ t.parts, ∀ group : Group, group.Holds part →
        (group.read = .ok part ↔ part.Legible) := fun part hp group hg =>
      ih part hp (h.parts hp) hg
    have hflat : t.isMixin = false → lines.map Line.text = t.inner := fun hm => by
      rw [hl, inner_eq_texts hm, ite_self]
    rw [Legible, Throughout, throughout_iff]
    cases t with
    | expression source =>
      rw [ofLines_expression h.here (inner_expression source ▸ hflat rfl)]
      simp [parts]
    | array items =>
      have hl' := hflat rfl
      cases items with
      | nil =>
        have hr : ofLines lines origin inline = .ok (array []) :=
          ofLines_brackets hl' (by decide) (by decide) (by decide) fun line hline => by
            rw [ofLine, hline]; rfl
        simp [hr, parts, Distinct]
      | cons item items =>
        rw [inner_array (by simp)] at hl'
        have hb : ofLines lines origin inline = .ok (array (item :: items)) ↔
            ∀ part ∈ item :: items, part.Legible :=
          ofLines_bullets (fun item hi => h.parts hi) (List.cons_ne_nil item items) hpart hl'
        rw [hb, parts]
        simp only [Distinct, Legible, true_and]
    | object entries =>
      have hl' := hflat rfl
      cases entries with
      | nil =>
        have hr : ofLines lines origin inline = .ok (object []) :=
          ofLines_brackets hl' (by decide) (by decide) (by decide) fun line hline => by
            rw [ofLine, hline]; rfl
        simp [hr, parts, Distinct]
      | cons entry entries =>
        obtain ⟨hsorted, hvalid⟩ := h.here
        rw [inner_object (by simp)] at hl'
        rw [ofLines_entries hsorted hvalid (fun entry he => h.parts (List.mem_map_of_mem he))
          (by simp) (fun entry he => hpart entry.2.value (List.mem_map_of_mem he)) hl',
          parts, List.forall_mem_map]
        simp only [Distinct, Legible, true_and]
    | mixin base removals additions =>
      rw [ofLines_additions h.here (fun addition ha => h.parts (List.mem_map_of_mem ha))
        (fun addition ha => hpart addition.2.value (List.mem_map_of_mem ha))
        hl, parts, List.forall_mem_map]
      rfl

/-- The lines laid out for a template are read as that template again, wherever they stand, if and
only if it is legible. -/
theorem ofBlock_rows_eq_ok_iff_legible {t : Template} (h : t.WellFormed) {lines : List Line}
    (hl : lines.map Line.text = t.rows.map chars) (origin : Span) :
    ofBlock lines origin = .ok t ↔ t.Legible :=
  ofLines_laid h hl

def patching : Template :=
  array [mixin [.key "u"] [[.key "p"]] [([.key "q"], ⟨false, expression "1"⟩),
    ([.index 0, .key "r"],
      ⟨true, object [("y", ⟨false, expression "x"⟩), ("z", ⟨false, array []⟩)]⟩)]]

theorem wellFormed_patching : patching.WellFormed := by
  have hsource : Source "1" ∧ Source "x" :=
    ⟨⟨.keyword (by simp) rfl, by decide, by decide, by decide⟩,
      ⟨.keyword (by simp) rfl, by decide, by decide, by decide⟩⟩
  have hedit : Edit [.key "u"] [[.key "p"]] [[.key "q"], [.index 0, .key "r"]] := {
    regular_base := ⟨by simp, List.forall_mem_singleton.mpr rfl⟩
    named := ⟨"u", rfl⟩
    edits := .inl (by simp)
    regular_removals := List.forall_mem_singleton.mpr ⟨by simp, List.forall_mem_singleton.mpr rfl⟩
    regular_paths := List.forall_mem_cons.mpr ⟨⟨by simp, List.forall_mem_singleton.mpr rfl⟩,
      List.forall_mem_singleton.mpr ⟨by simp, List.forall_mem_cons.mpr
        ⟨Nat.two_pow_pos 64, List.forall_mem_singleton.mpr rfl⟩⟩⟩ }
  have hentries : Regular (object [("y", ⟨false, expression "x"⟩), ("z", ⟨false, array []⟩)]) :=
    ⟨List.pairwise_pair.mpr (by decide), by decide⟩
  refine .intro trivial (List.forall_mem_singleton.mpr (.intro hedit ?_))
  refine List.forall_mem_cons.mpr ⟨.intro hsource.1 (by simp [parts]), ?_⟩
  refine List.forall_mem_singleton.mpr (.intro hentries ?_)
  refine List.forall_mem_cons.mpr ⟨.intro hsource.2 (by simp [parts]), ?_⟩
  exact List.forall_mem_singleton.mpr (.intro trivial (by simp [parts]))

theorem legible_patching : patching.Legible := by
  have hdistinct : Distinct (expression "1") ∧ Distinct (expression "x") :=
    ⟨⟨by decide, by decide, by decide⟩, ⟨by decide, by decide, by decide⟩⟩
  have hpaths : ([[.key "q"], [.index 0, .key "r"]] : List Path).Nodup := by decide
  refine .intro trivial (List.forall_mem_singleton.mpr (.intro hpaths ?_))
  refine List.forall_mem_cons.mpr ⟨.intro hdistinct.1 (by simp [parts]), ?_⟩
  refine List.forall_mem_singleton.mpr (.intro trivial ?_)
  refine List.forall_mem_cons.mpr ⟨.intro hdistinct.2 (by simp [parts]), ?_⟩
  exact List.forall_mem_singleton.mpr (.intro trivial (by simp [parts]))

theorem ofBlock_rows_of_patching :
    let lines := Line.numbered 4
      (["*\tu without p; with", "\tq: 1", "\t0.r?:", "\t\ty: x", "\t\tz: []"].map String.toList)
    patching.WellFormed ∧ lines.map Line.text = patching.rows.map chars ∧ patching.Legible ∧
      ofBlock lines ⟨4, 9⟩ = .ok patching := by
  intro lines
  have hrows : lines.map Line.text = patching.rows.map chars := by decide
  have hread := ofBlock_rows_eq_ok_iff_legible wellFormed_patching hrows ⟨4, 9⟩
  exact ⟨wellFormed_patching, hrows, legible_patching, hread.mpr legible_patching⟩

end ApiContract.Template
