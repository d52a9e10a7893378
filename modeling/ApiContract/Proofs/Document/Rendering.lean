import ApiContract.Proofs.Document.Regular

namespace ApiContract.Document

open Heading
open Template (Word)

theorem word_of_isName {name : String} (h : IsName name) : Word name.toList :=
  Template.word_of_isValid h

theorem word_toString (n : Nat) : Word (toString n).toList := by
  rw [Nat.toString_eq_ofList_toDigits, String.toList_ofList]
  exact ⟨Nat.toDigits_ne_nil, fun c hc => Template.isPathPart_of_isPart
    (Identifier.isPart_of_isDigit (Nat.isDigit_of_mem_toDigits (by decide) (by decide) hc))⟩

theorem plain_of_tight {spaced : Bool} {level : Nat} {text : List Char} {rows : List (List Char)}
    (hl : 0 < level) (ht : Text.Tight text) (hn : '\n' ∉ text)
    (hr : ∀ row ∈ rows, Template.Firm row) : Section.Plain ⟨spaced, level, text, rows⟩ :=
  ⟨hl, ht.trim, hn, hr⟩

theorem plain_setupSection {setup : Setup} (h : RegularSetup setup) :
    (setupSection setup).Plain := by
  have hline : ∀ {name : String}, IsName name → '\n' ∉ name.toList := fun hn =>
    (word_of_isName hn).notMem (by decide)
  cases setup with
  | clear collection =>
    have hc : IsName collection := h
    have ht := (Text.Tight.keyword (s := "Clear".toList) (by simp) rfl).between
      (word_of_isName hc).tight [' ']
    exact plain_of_tight (by decide) ht (by simp [hline hc]) (by simp)
  | insertion name collection template =>
    obtain ⟨hn, hc, ht⟩ := h
    have htight := (word_of_isName hn).tight.between (word_of_isName hc).tight " in ".toList
    exact plain_of_tight (by decide) htight (by simp [hline hn, hline hc])
      (Template.firm_texts ht)
  | declaration name template =>
    obtain ⟨hn, -, ht⟩ := h
    have htight := (word_of_isName hn).tight.between
      (Text.Tight.keyword (s := "is".toList) (by simp) rfl) [' ']
    exact plain_of_tight (by decide) (by simpa using htight) (by simp [hline hn])
      (Template.firm_texts ht)

theorem isPost_postText {url : Option String}
    (h : ∀ u, url = some u → Text.Tight u.toList ∧ '\n' ∉ u.toList) :
    IsPost (postText url) url := by
  cases url with
  | none => exact .alone
  | some url =>
    obtain ⟨ht, hn⟩ := h url rfl
    exact @IsPost.endpoint [' '] url (by simp) (by simp [Text.isBlank]) ht.ne_nil ht.head hn

theorem plain_postSections {c : Case} (h : RegularCase c) : ∀ s ∈ postSections c, s.Plain := by
  intro s hs
  unfold postSections at hs
  split at hs
  · obtain rfl := List.mem_singleton.mp hs
    have hrows := Template.firm_texts (h.templates c.post (List.mem_cons_self ..))
    have hpost : Text.Tight "Post".toList := .keyword (by simp) rfl
    cases hu : c.url with
    | none => exact plain_of_tight (by decide) hpost (by decide) hrows
    | some url =>
      obtain ⟨ht, hn⟩ := h.url url hu
      exact plain_of_tight (by decide) (hpost.between ht [' ']) (by simp [postText, hn]) hrows
  · cases hs

theorem plain_outSections {c : Case} (h : RegularCase c) : ∀ s ∈ outSections c, s.Plain := by
  intro s hs
  unfold outSections at hs
  cases ho : c.out with
  | none => simp [ho] at hs
  | some template =>
    obtain rfl : s = ⟨false, 3, outText c.status, template.texts⟩ := by simpa [ho] using hs
    have hrows := Template.firm_texts (h.templates template (by simp [Case.templates, ho]))
    have hout : Text.Tight "Out".toList := .keyword (by simp) rfl
    have hstatus := word_toString c.status
    unfold outText
    split
    · exact plain_of_tight (by decide) (by simpa using hout) (by simp) hrows
    · have ht := hout.between hstatus.tight [' ']
      exact plain_of_tight (by decide) (by simpa using ht)
        (by simpa using hstatus.notMem (by decide)) hrows

theorem plain_findSection {find : Find} (hn : IsName find.collection)
    (ht : find.template.WellFormed) : (findSection find).Plain := by
  have htight := (Text.Tight.keyword (s := "Find".toList) (by simp) rfl).between
    (word_of_isName hn).tight " in ".toList
  exact plain_of_tight (by decide) htight
    (by simpa using (word_of_isName hn).notMem (by decide)) (Template.firm_texts ht)

theorem plain_caption {name : String} {skip : Bool} (h : Captioned name skip) {spaced : Bool}
    {level : Nat} (hl : 0 < level) : Section.Plain ⟨spaced, level, caption name skip, []⟩ :=
  ⟨hl, h.trim, h.newline, by simp⟩

theorem plain_sections {document : Document} (h : document.Regular) :
    ∀ s ∈ document.sections, s.Plain := by
  intro s hs
  simp only [sections, List.mem_cons, List.mem_append, List.mem_map, List.mem_flatMap,
    caseSections] at hs
  rcases hs with rfl | rfl | ⟨setup, hm, rfl⟩ | ⟨c, hc, rfl | hs | hs | ⟨find, hf, rfl⟩⟩
  · exact plain_caption h.caption (by decide)
  · exact ⟨by decide, by decide, by decide, by simp⟩
  · exact plain_setupSection (h.setups setup hm)
  · exact plain_caption (h.cases c hc).caption (by decide)
  · exact plain_postSections (h.cases c hc) s hs
  · exact plain_outSections (h.cases c hc) s hs
  · refine plain_findSection ((h.cases c hc).finds find hf) ((h.cases c hc).templates _ ?_)
    simp only [Case.templates, List.mem_cons, List.mem_append, List.mem_map]
    exact .inr (.inr ⟨find, hf, rfl⟩)

theorem line_of_plain {s : Section} (h : s.Plain) :
    ∀ row ∈ s.texts, '\n' ∉ row ∧ row.getLast? ≠ some '\r' := by
  have hfirm : ∀ row ∈ s.rows.map Template.tabbed, '\n' ∉ row ∧ row.getLast? ≠ some '\r' := by
    intro row hr
    have hrow := Template.Firm.map_tabbed h.rows row hr
    exact ⟨hrow.newline, fun he => absurd (hrow.last '\r' he) (by decide)⟩
  have hheading : '\n' ∉ s.heading ∧ s.heading.getLast? ≠ some '\r' := by
    refine ⟨by simp [Section.heading, h.newline], fun he => ?_⟩
    rw [Section.heading, List.getLast?_append_of_ne_nil _ (by simp)] at he
    cases ht : s.text with
    | nil =>
      rw [ht] at he
      cases he
    | cons c text =>
      have hlast := Text.last_trim s.text
      rw [h.trim] at hlast
      rw [List.getLast?_cons_of_ne_nil (by simp [ht])] at he
      exact absurd (hlast '\r' he) (by decide)
  intro row hr
  rw [Section.texts, List.mem_append, List.mem_cons] at hr
  rcases hr with hr | rfl | hr
  · split at hr
    · obtain rfl := List.mem_singleton.mp hr
      simp
    · cases hr
  · exact hheading
  · exact hfirm row hr

/-- The tokens of a rendering are those of its sections. -/
theorem shown_render {document : Document} (h : document.Regular) :
    Section.Shown document.sections (Token.ofChars (document.render .plain).toList) := by
  have hplain := plain_sections h
  have hrows : ∀ row ∈ document.sections.flatMap Section.texts,
      '\n' ∉ row ∧ row.getLast? ≠ some '\r' := by
    intro row hr
    obtain ⟨s, hs, hr⟩ := List.mem_flatMap.mp hr
    exact line_of_plain (hplain s hs) row hr
  rw [toList_render_plain, Token.ofChars,
    Text.lines_flat (fun row hr => (hrows row hr).1) fun row hr => (hrows row hr).2]
  exact Section.shown_ofLines hplain 0

end ApiContract.Document
