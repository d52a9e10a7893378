import ApiContract.Proofs.Template.Layout

namespace ApiContract.Template

structure Firm (row : List Char) : Prop where
  ne_nil : row ≠ []
  newline : '\n' ∉ row
  last : ∀ c ∈ row.getLast?, Text.isBlank c = false

theorem Firm.of_last {row : List Char} {c : Char} (hl : row.getLast? = some c)
    (hb : Text.isBlank c = false) (hn : '\n' ∉ row) : Firm row where
  ne_nil := fun e => by simp [e] at hl
  newline := hn
  last := fun d hd => by
    cases hl.symm.trans hd
    exact hb

structure Word (s : List Char) : Prop where
  ne_nil : s ≠ []
  parts : ∀ c ∈ s, Opening.isPathPart c = true

theorem range_of_isPathPart {c : Char} (h : Opening.isPathPart c = true) :
    c.toNat = 36 ∨ c.toNat = 46 ∨ (48 ≤ c.toNat ∧ c.toNat ≤ 57) ∨ (65 ≤ c.toNat ∧ c.toNat ≤ 90) ∨
      c.toNat = 95 ∨ (97 ≤ c.toNat ∧ c.toNat ≤ 122) := by
  have h : (c.isUpper || c.isLower || c == '_' || c == '$' || c.isDigit || c == '.') = true := h
  simp only [Bool.or_eq_true, beq_iff_eq] at h
  rcases h with ((((hu | hl) | rfl) | rfl) | hd) | rfl
  · have : 65 ≤ c.toNat ∧ c.toNat ≤ 90 := of_decide_eq_true hu
    omega
  · have : 97 ≤ c.toNat ∧ c.toNat ≤ 122 :=
      ((Bool.and_eq_true _ _).mp hl).imp of_decide_eq_true of_decide_eq_true
    omega
  · simp
  · simp
  · have : 48 ≤ c.toNat ∧ c.toNat ≤ 57 :=
      ((Bool.and_eq_true _ _).mp hd).imp of_decide_eq_true of_decide_eq_true
    omega
  · simp

theorem not_isBlank_of_isPathPart {c : Char} (h : Opening.isPathPart c = true) :
    Text.isBlank c = false := by
  have hr := range_of_isPathPart h
  simp only [Text.isBlank, Bool.or_eq_false_iff, Bool.and_eq_false_iff, decide_eq_false_iff_not,
    beq_eq_false_iff_ne]
  omega

theorem Word.notMem {s : List Char} (h : Word s) {c : Char} (hc : Opening.isPathPart c = false) :
    c ∉ s := fun hm => by simp [h.parts c hm] at hc

theorem Word.head {s : List Char} (h : Word s) : ∀ c ∈ s.head?, Opening.isPathPart c = true :=
  fun c hc => h.parts c (List.mem_of_mem_head? hc)

theorem Word.tight {s : List Char} (h : Word s) : Text.Tight s where
  ne_nil := h.ne_nil
  head c hc := not_isBlank_of_isPathPart (h.head c hc)
  last c hc := not_isBlank_of_isPathPart (h.parts c (List.mem_of_getLast? hc))

theorem isPathPart_of_isPart {c : Char} (h : Identifier.isPart c = true) :
    Opening.isPathPart c = true := by
  simp [Opening.isPathPart, h]

theorem not_isBlank_of_isStart {c : Char} (h : Identifier.isStart c = true) :
    Text.isBlank c = false :=
  not_isBlank_of_isPathPart (isPathPart_of_isPart (Identifier.isPart_of_isStart h))

theorem word_of_isValid {s : List Char} (h : Identifier.isValid s = true) : Word s := by
  refine ⟨?_, fun c hc => isPathPart_of_isPart (Identifier.isPart_of_mem h hc)⟩
  rintro rfl
  cases h

theorem joined_ne_nil {ps : List (List Char)} (hne : ps ≠ []) (h : ∀ p ∈ ps, p ≠ []) :
    Text.joined '.' ps ≠ [] := by
  rcases ps with _ | ⟨p, _ | ⟨q, ps⟩⟩
  · exact absurd rfl hne
  · exact h p (by simp)
  · simp [Text.joined]

theorem mem_joined {sep c : Char} {ps : List (List Char)} (h : c ∈ Text.joined sep ps) :
    c = sep ∨ ∃ p ∈ ps, c ∈ p := by
  induction ps with
  | nil => cases h
  | cons p ps ih =>
    cases ps with
    | nil => exact .inr ⟨p, by simp, h⟩
    | cons q ps =>
      rcases List.mem_append.mp h with h | h
      · exact .inr ⟨p, by simp, h⟩
      · rcases List.mem_cons.mp h with rfl | h
        · exact .inl rfl
        · obtain hc | ⟨r, hr, hc⟩ := ih h
          · exact .inl hc
          · exact .inr ⟨r, List.mem_cons_of_mem _ hr, hc⟩

theorem word_of_regular {path : Path} (h : path.Regular) : Word path.text.toList := by
  rw [Path.toList_text]
  constructor
  · apply joined_ne_nil (by simpa using h.ne_nil)
    intro p hp
    obtain ⟨segment, hs, rfl⟩ := List.mem_map.mp hp
    exact Segment.text_ne_nil (h.segments segment hs)
  · intro c hc
    obtain rfl | ⟨p, hp, hc⟩ := mem_joined hc
    · rfl
    · obtain ⟨segment, hs, rfl⟩ := List.mem_map.mp hp
      exact isPathPart_of_isPart (Segment.isPart_of_mem_text (h.segments segment hs) hc)

namespace Firm

theorem of_tight {s : List Char} (h : Text.Tight s) (hn : '\n' ∉ s) : Firm s :=
  ⟨h.ne_nil, hn, h.last⟩

theorem append {a b : List Char} (ha : '\n' ∉ a) (hb : Firm b) : Firm (a ++ b) where
  ne_nil := by simp [hb.ne_nil]
  newline := by simp [ha, hb.newline]
  last c hc := hb.last c (by rwa [List.getLast?_append_of_ne_nil _ hb.ne_nil] at hc)

theorem tabbed {row : List Char} (h : Firm row) : Firm (tabbed row) :=
  append (a := ['\t']) (by simp) h

theorem word {s : List Char} (h : Word s) : Firm s := of_tight h.tight (h.notMem (by decide))

theorem beside {mark row : List Char} (hm : '\n' ∉ mark) (h : Firm row) :
    Firm (mark ++ ' ' :: row) :=
  append hm (append (a := [' ']) (by simp) h)

theorem map_tabbed {rows : List (List Char)} (h : ∀ row ∈ rows, Firm row) :
    ∀ row ∈ rows.map Template.tabbed, Firm row := by
  intro row hr
  obtain ⟨inside, hi, rfl⟩ := List.mem_map.mp hr
  exact (h inside hi).tabbed

end Firm

theorem firm_markText {name : List Char} (h : Word name) (optional : Bool) :
    Firm (markText name optional) := by
  have hn : '\n' ∉ name := h.notMem (by decide)
  have hc : Firm [':'] := ⟨by simp, by simp, by simp [Text.isBlank]⟩
  exact Firm.append (by cases optional <;> simp [hn]) hc

theorem firm_slotTexts {name : List Char} (hw : Word name) (optional isMixin : Bool)
    {rows : List (List Char)} (h : ∀ row ∈ rows, Firm row) :
    ∀ row ∈ slotTexts name optional isMixin rows, Firm row := by
  have hm := firm_markText hw optional
  have hbeside : ∀ row ∈ rows, Firm (markText name optional ++ ' ' :: row) := fun row hr =>
    Firm.beside hm.newline (h row hr)
  have hbelow := Firm.map_tabbed h
  rcases rows with _ | ⟨first, _ | ⟨next, rows⟩⟩
  · exact fun row hr => absurd hr (by simp [slotTexts])
  · intro row hr
    obtain rfl := List.mem_singleton.mp hr
    exact hbeside first (by simp)
  · intro row hr
    cases isMixin
    · rcases List.mem_cons.mp hr with rfl | hr
      · exact hm
      · exact hbelow row hr
    · rcases List.mem_cons.mp hr with rfl | hr
      · exact hbeside first (by simp)
      · exact hbelow row (List.mem_cons_of_mem _ hr)

theorem firm_bulletTexts {rows : List (List Char)} (h : ∀ row ∈ rows, Firm row) :
    ∀ row ∈ bulletTexts rows, Firm row := by
  cases rows with
  | nil => exact fun row hr => absurd hr (by simp [bulletTexts])
  | cons first rows =>
    intro row hr
    rcases List.mem_cons.mp hr with rfl | hr
    · exact Firm.append (a := ['*', '\t']) (by simp) (h first (by simp))
    · exact Firm.map_tabbed (fun row hr => h row (List.mem_cons_of_mem _ hr)) row hr

theorem removalsText_cons_cons (path next : Path) (removals : List Path) :
    removalsText (path :: next :: removals) =
      path.text.toList ++ ", ".toList ++ removalsText (next :: removals) := by
  simp [removalsText, String.intercalate_cons_cons]

theorem removalsText_singleton (path : Path) : removalsText [path] = path.text.toList := by
  simp [removalsText]

theorem firm_removalsText {removals : List Path} (hne : removals ≠ [])
    (h : ∀ path ∈ removals, path.Regular) : Firm (removalsText removals) := by
  induction removals with
  | nil => exact absurd rfl hne
  | cons path removals ih =>
    have hp := Firm.word (word_of_regular (h path (by simp)))
    cases removals with
    | nil =>
      rw [removalsText_singleton]
      exact hp
    | cons next removals =>
      rw [removalsText_cons_cons]
      exact Firm.append (by simp [hp.newline]) (ih (by simp) fun p hm => h p (by simp [hm]))

theorem firm_editsText {removals : List Path} {adds : Bool}
    (hne : removals ≠ [] ∨ adds = true) (h : ∀ path ∈ removals, path.Regular) :
    Firm (editsText removals adds) := by
  have hwith : Firm " with".toList := .of_last rfl rfl (by decide)
  cases removals with
  | nil =>
    obtain rfl := hne.resolve_left (by simp)
    exact hwith
  | cons path removals =>
    have hr := firm_removalsText (List.cons_ne_nil path removals) h
    have hl : Firm (" without ".toList ++ removalsText (path :: removals)) :=
      Firm.append (by decide) hr
    cases adds with
    | false => simpa [editsText] using hl
    | true =>
      have ha : Firm ((" without ".toList ++ removalsText (path :: removals)) ++
          ([';'] ++ " with".toList)) :=
        Firm.append hl.newline (Firm.append (by simp) hwith)
      simpa [editsText] using ha

theorem firm_mixinTexts {mark : List Char} (hm : Firm mark) {rows : List (List Char)}
    (h : ∀ row ∈ rows, Firm row) : ∀ row ∈ mixinTexts mark rows, Firm row := by
  rcases rows with _ | ⟨first, _ | ⟨next, rows⟩⟩
  · intro row hr
    obtain rfl := List.mem_singleton.mp hr
    exact hm
  · intro row hr
    obtain rfl := List.mem_singleton.mp hr
    exact Firm.beside hm.newline (h first (by simp))
  · intro row hr
    rcases List.mem_cons.mp hr with rfl | hr
    · exact hm
    · exact h row hr

theorem firm_slotsTexts {κ : Type} {write : κ → String} {slots : List (κ × Slot Template)}
    (hw : ∀ slot ∈ slots, Word (write slot.1).toList)
    (h : ∀ slot ∈ slots, ∀ row ∈ slot.2.value.inner, Firm row) :
    ∀ row ∈ slotsTexts write slots, Firm row := by
  intro row hr
  obtain ⟨slot, hs, hr⟩ := List.mem_flatMap.mp hr
  exact firm_slotTexts (hw slot hs) _ _ (h slot hs) row hr

theorem firm_inner {t : Template} (h : t.WellFormed) : ∀ row ∈ t.inner, Firm row := by
  induction t using induction_on_parts with
  | step t ih =>
    have hparts : ∀ part ∈ t.parts, ∀ row ∈ part.inner, Firm row := fun part hp =>
      ih part hp (h.parts hp)
    cases t with
    | expression source =>
      have hs : Source source := h.here
      intro row hr
      rw [inner_expression] at hr
      obtain rfl := List.mem_singleton.mp hr
      exact .of_tight hs.tight hs.line
    | array items =>
      cases items with
      | nil =>
        intro row hr
        obtain rfl := List.mem_singleton.mp hr
        exact .of_last rfl rfl (by decide)
      | cons item items =>
        intro row hr
        rw [inner_array (by simp)] at hr
        obtain ⟨part, hp, hr⟩ := List.mem_flatMap.mp hr
        exact firm_bulletTexts (hparts part hp) row hr
    | object entries =>
      cases entries with
      | nil =>
        intro row hr
        obtain rfl := List.mem_singleton.mp hr
        exact .of_last rfl rfl (by decide)
      | cons entry entries =>
        obtain ⟨-, hvalid⟩ := h.here
        rw [inner_object (by simp)]
        exact firm_slotsTexts (fun slot hs => word_of_isValid (hvalid slot hs)) fun slot hs =>
          hparts slot.2.value (List.mem_map_of_mem (f := fun e => e.2.value) hs)
    | mixin base removals additions =>
      have he : Edit base removals (additions.map Prod.fst) := h.here
      have hadds : removals ≠ [] ∨ (!additions.isEmpty) = true := by
        simpa using he.edits
      rw [inner_mixin]
      refine firm_mixinTexts ?_ (firm_slotsTexts (fun slot hs => ?_) fun slot hs => ?_)
      · exact Firm.append (word_of_regular he.regular_base |>.notMem (by decide))
          (firm_editsText hadds he.regular_removals)
      · exact word_of_regular (he.regular_paths slot.1 (List.mem_map_of_mem hs))
      · exact hparts slot.2.value (List.mem_map_of_mem (f := fun a => a.2.value) hs)

theorem firm_texts {t : Template} (h : t.WellFormed) : ∀ row ∈ t.texts, Firm row := by
  have hinner := firm_inner h
  rw [texts_eq_ite]
  split
  · cases hi : t.inner with
    | nil => simp [hung]
    | cons first rows =>
      rw [hi] at hinner
      obtain ⟨hfirst, hrows⟩ := List.forall_mem_cons.mp hinner
      exact List.forall_mem_cons.mpr ⟨hfirst, Firm.map_tabbed hrows⟩
  · exact hinner

end ApiContract.Template
