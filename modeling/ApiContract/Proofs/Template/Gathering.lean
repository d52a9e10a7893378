import ApiContract.Proofs.Template.Mixins

namespace ApiContract.Template

theorem head_slotTexts {name : List Char} {optional isMixin : Bool}
    {rows : List (List Char)} :
    ∀ row ∈ (slotTexts name optional isMixin rows).head?, name <+: row := by
  intro row hr
  rcases rows with _ | ⟨first, _ | ⟨next, rows⟩⟩
  · cases hr
  · cases hr
    exact ⟨_, by rw [markText_eq, List.append_assoc]⟩
  · cases isMixin
    · cases hr
      exact ⟨_, (markText_eq name optional).symm⟩
    · cases hr
      exact ⟨_, by rw [markText_eq, List.append_assoc]⟩

theorem Firm.tight_of_isPrefix {row start : List Char} (h : Firm row) (hs : Text.Tight start)
    (hp : start <+: row) : Text.Tight row := by
  obtain ⟨rest, rfl⟩ := hp
  refine ⟨h.ne_nil, fun c hc => hs.head c ?_, h.last⟩
  rwa [List.head?_append_of_ne_nil _ hs.ne_nil] at hc

theorem tight_slotsTexts {κ : Type} {write : κ → String} {slots : List (κ × Slot Template)}
    (hw : ∀ slot ∈ slots, Word (write slot.1).toList)
    (hf : ∀ slot ∈ slots, ∀ row ∈ slot.2.value.inner, Firm row) :
    ∀ row ∈ (slotsTexts write slots).head?, Text.Tight row := by
  intro row hr
  have hfirm : Firm row := firm_slotsTexts hw hf row (List.mem_of_mem_head? hr)
  cases slots with
  | nil => cases hr
  | cons slot slots =>
    have hne : slotTexts (write slot.1).toList slot.2.optional slot.2.value.isMixin
        slot.2.value.inner ≠ [] := slotTexts_ne_nil (inner_ne_nil slot.2.value)
    rw [slotsTexts, List.flatMap_cons, List.head?_append_of_ne_nil _ hne] at hr
    have hword := hw slot (by simp)
    exact hfirm.tight_of_isPrefix hword.tight (head_slotTexts row hr)

theorem tight_head_inner {t : Template} (h : t.WellFormed) :
    ∀ row ∈ t.inner.head?, Text.Tight row := by
  intro row hr
  have hfirm : Firm row := firm_inner h row (List.mem_of_mem_head? hr)
  cases t with
  | expression source =>
    have hs : Source source := h.here
    rw [inner_expression] at hr
    cases hr
    exact hs.tight
  | array items =>
    cases items with
    | nil =>
      cases hr
      exact .keyword (by simp) rfl
    | cons item items =>
      rw [inner_array (by simp), List.flatMap_cons] at hr
      cases hi : item.inner with
      | nil => exact absurd hi (inner_ne_nil item)
      | cons first rows =>
        rw [hi] at hr
        cases hr
        exact ⟨by simp, by simp [Text.isBlank], hfirm.last⟩
  | object entries =>
    cases entries with
    | nil =>
      cases hr
      exact .keyword (by simp) rfl
    | cons entry entries =>
      obtain ⟨-, hvalid⟩ := h.here
      rw [inner_object (by simp)] at hr
      exact tight_slotsTexts (fun slot hs => word_of_isValid (hvalid slot hs))
        (fun slot hs => firm_inner (h.parts (List.mem_map_of_mem hs))) row hr
  | mixin base removals additions =>
    have he : Edit base removals (additions.map Prod.fst) := h.here
    have hbase : base.text.toList <+: row := by
      rw [inner_mixin] at hr
      unfold mixinTexts at hr
      split at hr
      · cases hr
        exact ⟨_, by rw [List.append_assoc]⟩
      · cases hr
        exact List.prefix_append _ _
    exact hfirm.tight_of_isPrefix (word_of_regular he.regular_base).tight hbase

namespace Group

variable {t : Template} {opening : Opening} {line : Line} {lines : List Line}
  {row : List Char} {rows rest : List (List Char)}

theorem holds_beside (hr : Text.Tight row) (ho : opening.rest = row) (hi : t.inner = row :: rows)
    (hb : ((below lines).map Line.dedent).map Line.text = rows) :
    (ofOpening opening line (below lines)).Holds t := by
  subst ho
  simp only [Holds, ofOpening, isEmpty_trim_of_tight hr, Bool.not_false, ↓reduceIte,
    hb, hi, List.map_cons, List.singleton_append]

theorem holds_below (ho : opening.rest = []) (hm : t.isMixin = false)
    (hb : ((below lines).map Line.dedent).map Line.text = t.inner) :
    (ofOpening opening line (below lines)).Holds t := by
  have he : (Text.trim opening.rest).isEmpty = true := by
    rw [ho]
    rfl
  simp only [Holds, ofOpening, he, Bool.not_true, Bool.false_eq_true, ↓reduceIte,
    List.nil_append, hb, inner_eq_texts hm]

theorem holds_bullet (h : t.WellFormed)
    (hl : (line :: lines).map Line.text = bulletTexts t.inner ++ rest)
    (hr : ∀ row ∈ rest.head?, row.head? ≠ some '\t') :
    ∃ first, line.text = '*' :: '\t' :: first ∧
      (ofOpening ⟨[], false, first⟩ line (below lines)).Holds t ∧
      (beyond lines).map Line.text = rest := by
  cases hi : t.inner with
  | nil => exact absurd hi (inner_ne_nil t)
  | cons first rows =>
    simp only [hi, bulletTexts, List.map_cons, List.cons_append, List.cons.injEq] at hl
    obtain ⟨hb, hbeyond⟩ := below_texts hl.2 hr
    have hfirst : Text.Tight first := tight_head_inner h first (by simp [hi])
    exact ⟨first, hl.1, holds_beside hfirst rfl hi hb, hbeyond⟩

theorem head_bulletTexts {items : List Template} :
    ∀ row ∈ (items.flatMap fun item => bulletTexts item.inner).head?, row.head? ≠ some '\t' := by
  intro row hr
  cases items with
  | nil => cases hr
  | cons item items =>
    cases hi : item.inner with
    | nil => exact absurd hi (inner_ne_nil item)
    | cons first rows =>
      rw [List.flatMap_cons, hi] at hr
      cases hr
      simp

theorem exists_bullets {items : List Template} (h : ∀ item ∈ items, item.WellFormed)
    (hl : lines.map Line.text = items.flatMap fun item => bulletTexts item.inner) :
    ∃ groups, bullets lines = .ok groups ∧ List.Forall₂ Holds groups items := by
  induction items generalizing lines with
  | nil =>
    obtain rfl : lines = [] := by simpa using hl
    exact ⟨[], by rw [bullets], .nil⟩
  | cons item items ih =>
    rw [List.flatMap_cons] at hl
    cases lines with
    | nil =>
      cases hi : item.inner with
      | nil => exact absurd hi (inner_ne_nil item)
      | cons first rows => simp [hi, bulletTexts] at hl
    | cons line lines =>
      obtain ⟨first, hline, hholds, hbeyond⟩ :=
        holds_bullet (h item (by simp)) hl head_bulletTexts
      obtain ⟨groups, hg, hall⟩ := ih (fun item hm => h item (by simp [hm])) hbeyond
      refine ⟨_ :: groups, ?_, .cons hholds hall⟩
      rw [bullets, hline]
      simp only [hg]

structure IsSlot {κ : Type} (write : κ → String) (group : Group) (slot : κ × Slot Template) :
    Prop where
  name : group.name = (write slot.1).toList
  optional : group.optional = slot.2.optional
  holds : group.Holds slot.2.value

variable {opening? : List Char → Option Opening} {name : List Char} {optional : Bool}

theorem holds_slot (ht : Takes opening? name) (h : t.WellFormed)
    (hl : (line :: lines).map Line.text = slotTexts name optional t.isMixin t.inner ++ rest)
    (hr : ∀ row ∈ rest.head?, row.head? ≠ some '\t') :
    ∃ opening, opening? line.text = some opening ∧ opening.name = name ∧
      opening.optional = optional ∧ (ofOpening opening line (below lines)).Holds t ∧
      (beyond lines).map Line.text = rest := by
  have hfirst : ∀ row ∈ t.inner.head?, Text.Tight row ∧ '\n' ∉ row := fun row hrow =>
    ⟨tight_head_inner h row hrow, (firm_inner h row (List.mem_of_mem_head? hrow)).newline⟩
  have hbeside : ∀ {row rows}, t.inner = row :: rows →
      line.text = markText name optional ++ ' ' :: row →
      lines.map Line.text = rows.map tabbed ++ rest →
      ∃ opening, opening? line.text = some opening ∧ opening.name = name ∧
        opening.optional = optional ∧ (ofOpening opening line (below lines)).Holds t ∧
        (beyond lines).map Line.text = rest := by
    intro row rows hi hline hlines
    obtain ⟨htight, hn⟩ := hfirst row (by simp [hi])
    obtain ⟨hb, hbeyond⟩ := below_texts hlines hr
    exact ⟨⟨name, optional, row⟩, by rw [hline, ht.beside optional row htight hn], rfl, rfl,
      holds_beside htight rfl hi hb, hbeyond⟩
  rcases hi : t.inner with _ | ⟨first, _ | ⟨next, rows⟩⟩
  · exact absurd hi (inner_ne_nil t)
  · simp only [hi, slotTexts, List.map_cons, List.cons_append, List.nil_append,
      List.cons.injEq] at hl
    exact hbeside hi hl.1 hl.2
  · cases hm : t.isMixin
    · simp only [hi, hm, slotTexts, Bool.false_eq_true, ↓reduceIte, List.cons_append] at hl
      rw [List.map_cons, List.cons.injEq] at hl
      obtain ⟨hb, hbeyond⟩ := below_texts hl.2 hr
      exact ⟨⟨name, optional, []⟩, by rw [hl.1, ht.alone optional], rfl, rfl,
        holds_below rfl hm (by rw [hb, hi]), hbeyond⟩
    · simp only [hi, hm, slotTexts, ↓reduceIte, List.cons_append] at hl
      rw [List.map_cons, List.cons.injEq] at hl
      exact hbeside hi hl.1 hl.2

section Slots

variable {κ : Type} {write : κ → String} {seen : List (List Char × Span)}
  {entries : List (κ × Slot Template)}

theorem head_slotsTexts (hw : ∀ entry ∈ entries, Word (write entry.1).toList)
    (h : ∀ entry ∈ entries, entry.2.value.WellFormed) :
    ∀ row ∈ (slotsTexts write entries).head?, row.head? ≠ some '\t' := by
  intro row hr e
  have ht := tight_slotsTexts hw (fun entry he => firm_inner (h entry he)) row hr
  exact absurd (ht.head '\t' e) (by decide)

theorem slots_cons {groups : List Group} (ho : opening? line.text = some opening) :
    slots opening? seen (line :: lines) = .ok groups ↔
      seen.lookup opening.name = none ∧
      ∃ tail, slots opening? (seen ++ [(opening.name, line.span)]) (beyond lines) = .ok tail ∧
        groups = ofOpening opening line (below lines) :: tail := by
  rw [slots]
  simp only [ho]
  constructor
  · intro h
    split at h
    · cases h
    · rename_i hs
      split at h
      · cases h
      · rename_i tail ht
        cases h
        exact ⟨hs, tail, ht, rfl⟩
  · rintro ⟨hs, tail, ht, rfl⟩
    simp only [hs, ht]

theorem exists_opening_of_slots {groups : List Group}
    (h : slots opening? seen (line :: lines) = .ok groups) :
    ∃ opening, opening? line.text = some opening := by
  cases ho : opening? line.text with
  | some opening => exact ⟨opening, rfl⟩
  | none =>
    rw [slots, ho] at h
    simp only at h
    split at h <;> cases h

theorem lookup_append_eq_none {place : Span} {other : List Char} :
    (seen ++ [(other, place)]).lookup name = none ↔ seen.lookup name = none ∧ name ≠ other := by
  rw [List.lookup_append, Option.or_eq_none_iff]
  by_cases h : name = other
  · subst h
    simp
  · have hb : (name == other) = false := by simpa using h
    simp [h, hb, List.lookup_cons]

theorem ne_nil_of_slotsTexts (hne : entries ≠ [])
    (hl : lines.map Line.text = slotsTexts write entries) : lines ≠ [] := by
  rintro rfl
  exact slotsTexts_ne_nil hne (fun entry _ => inner_ne_nil entry.2.value) hl.symm

/-- Slots are gathered if and only if no name comes twice, and then every group is the one of its
slot. -/
theorem slots_laid (ht : ∀ entry ∈ entries, Takes opening? (write entry.1).toList)
    (hw : ∀ entry ∈ entries, Word (write entry.1).toList)
    (h : ∀ entry ∈ entries, entry.2.value.WellFormed)
    (hl : lines.map Line.text = slotsTexts write entries) :
    (∀ groups, slots opening? seen lines = .ok groups →
      List.Forall₂ (IsSlot write) groups entries) ∧
    ((∃ groups, slots opening? seen lines = .ok groups) ↔
      (entries.map fun entry => (write entry.1).toList).Nodup ∧
        ∀ entry ∈ entries, seen.lookup (write entry.1).toList = none) := by
  induction entries generalizing lines seen with
  | nil =>
    obtain rfl : lines = [] := by simpa [slotsTexts] using hl
    rw [slots]
    refine ⟨fun groups hg => ?_, fun _ => ⟨.nil, by simp⟩, fun _ => ⟨[], rfl⟩⟩
    cases hg
    exact .nil
  | cons entry entries ih =>
    obtain ⟨line, lines, rfl⟩ := List.exists_cons_of_ne_nil (ne_nil_of_slotsTexts (by simp) hl)
    have hw' : ∀ e ∈ entries, Word (write e.1).toList := fun e he => hw e (by simp [he])
    have h' : ∀ e ∈ entries, e.2.value.WellFormed := fun e he => h e (by simp [he])
    obtain ⟨opening, ho, hname, hoptional, hholds, hbeyond⟩ :=
      holds_slot (ht entry (by simp)) (h entry (by simp)) hl (head_slotsTexts hw' h')
    obtain ⟨hall, hex⟩ := @ih (beyond lines) (seen ++ [(opening.name, line.span)])
      (fun e he => ht e (by simp [he])) hw' h' hbeyond
    constructor
    · intro groups hg
      obtain ⟨-, tail, htail, rfl⟩ := (slots_cons ho).mp hg
      exact .cons ⟨hname, hoptional, hholds⟩ (hall tail htail)
    · have hstep : (∃ groups, slots opening? seen (line :: lines) = .ok groups) ↔
          seen.lookup opening.name = none ∧
            ∃ tail, slots opening? (seen ++ [(opening.name, line.span)]) (beyond lines) =
              .ok tail := by
        constructor
        · rintro ⟨groups, hg⟩
          obtain ⟨hs, tail, ht, -⟩ := (slots_cons ho).mp hg
          exact ⟨hs, tail, ht⟩
        · rintro ⟨hs, tail, ht⟩
          exact ⟨_, (slots_cons ho).mpr ⟨hs, tail, ht, rfl⟩⟩
      rw [hstep, hex, hname]
      simp only [lookup_append_eq_none, List.map_cons, List.nodup_cons, List.mem_map,
        List.forall_mem_cons, not_exists, not_and]
      constructor
      · rintro ⟨hs, hn, hf⟩
        exact ⟨⟨fun e he => (hf e he).2, hn⟩, hs, fun e he => (hf e he).1⟩
      · rintro ⟨⟨hfresh, hn⟩, hs, hf⟩
        exact ⟨hs, hn, fun e he => ⟨hf e he, hfresh e he⟩⟩

end Slots

end Group

end ApiContract.Template
