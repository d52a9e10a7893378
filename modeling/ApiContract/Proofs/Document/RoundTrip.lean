import ApiContract.Proofs.Document.Rendering

namespace ApiContract.Document

open Heading

/-- A document that is told apart from every other one by its plain rendering: every status has its
three digits, and every template its layout. -/
structure Legible (document : Document) : Prop where
  statuses : ∀ c ∈ document.cases, 100 ≤ c.status
  setups : ∀ setup ∈ document.setups, ∀ template, setup.template? = some template →
    template.Legible
  cases : ∀ c ∈ document.cases, ∀ template ∈ c.templates, template.Legible

theorem block_iff {template : Template} (h : template.WellFormed) {first : Line} {more : List Line}
    (hrows : (first :: more).map Line.text = template.texts) :
    Block first more template ↔ template.Legible :=
  Template.ofLines_laid h hrows

section Setups

variable {setups done : List Setup} {prepared next : Prepared} {tokens behind rest : List Token}

theorem setups_of_after {items : List Setup} (h : prepared.After done)
    (hn : next.After (done ++ items)) :
    next.setups = prepared.setups ++ expand (touched done) items := by
  rw [hn.setups, expand_append, h.setups, List.nil_append]

theorem exists_setups_of_readSetups (h : prepared.After done)
    (hr : readSetups prepared tokens = .ok (next, rest)) :
    ∃ more, next.setups = prepared.setups ++ more := by
  obtain ⟨front, items, -, -, hafter, -⟩ := exists_items_of_readSetups h hr
  exact ⟨_, setups_of_after h hafter⟩

theorem legible_of_readSetups (hs : Section.Shown (setups.map setupSection) tokens)
    (h : prepared.After done) (hexpand : expand (touched done) setups = setups)
    (hregular : ∀ setup ∈ setups, RegularSetup setup)
    (hr : readSetups prepared (tokens ++ behind) = .ok (next, rest))
    (he : next.setups = prepared.setups ++ setups) :
    ∀ setup ∈ setups, ∀ template, setup.template? = some template → template.Legible := by
  induction setups generalizing tokens prepared done with
  | nil => simp
  | cons setup setups ih =>
    obtain ⟨hsetup, hsetups⟩ := List.forall_mem_cons.mp hregular
    obtain ⟨himplied, hexpand⟩ := expand_cons_eq_self hexpand
    rw [List.forall_mem_cons]
    -- the step puts `item` where `setup` was
    have hstep : ∀ {mid : Prepared} {item : Setup} {tail : List Token},
        mid.After (done ++ [item]) → implied (touched done) item = [] →
        readSetups mid (tail ++ behind) = .ok (next, rest) →
        item = setup ∧ mid.setups = prepared.setups ++ [item] := by
      intro mid item tail hmid hi hread
      obtain ⟨more, hmore⟩ := exists_setups_of_readSetups hmid hread
      have hsetups' : mid.setups = prepared.setups ++ [item] := by
        rw [setups_of_after h hmid, expand, hi]
        rfl
      rw [hmore, hsetups', List.append_assoc, List.append_cancel_left_eq] at he
      exact ⟨(List.cons.inj he).1, hsetups'⟩
    have hrest : ∀ {mid : Prepared} {tail : List Token},
        Section.Shown (setups.map setupSection) tail → mid.After (done ++ [setup]) →
        readSetups mid (tail ++ behind) = .ok (next, rest) →
        ∀ setup ∈ setups, ∀ template, setup.template? = some template → template.Legible := by
      intro mid tail hshown hmid hread
      obtain ⟨-, hmid'⟩ := hstep hmid himplied hread
      refine ih hshown hmid ?_ hsetups hread ?_
      · rwa [touched_append, touched_singleton]
      · rw [he, hmid', List.append_assoc]
        rfl
    cases setup with
    | clear collection =>
      cases hs with
      | block hrows _ => cases hrows
      | bare _ hshown =>
        obtain ⟨mid, hread, htail⟩ := readSetups_heading.mp hr
        obtain ⟨hn, hb, rfl⟩ := (readSetup_clear ⟨hsetup, rfl⟩).mp hread
        rw [hb] at htail
        refine ⟨by simp [Setup.template?], hrest hshown (h.clear _ ?_) htail⟩
        rwa [← h.mem]
    | insertion name collection template =>
      obtain ⟨hn, hc, ht⟩ := hsetup
      cases hs with
      | bare hrows _ => exact absurd hrows (Template.texts_ne_nil template)
      | @block _ _ place first more tail hrows hshown =>
        obtain ⟨mid, hread, htail⟩ := readSetups_heading.mp hr
        obtain ⟨other, hblock, rfl⟩ := (readSetup_insertion ⟨hn, hc, rfl⟩).mp hread
        have hmid := h.insert name collection other place
        obtain ⟨he, -⟩ := hstep hmid himplied htail
        cases he
        refine ⟨fun template ht' => ?_, hrest hshown hmid htail⟩
        cases ht'
        exact (block_iff ht hrows).mp hblock
    | declaration name template =>
      obtain ⟨hn, hne, ht⟩ := hsetup
      cases hs with
      | bare hrows _ => exact absurd hrows (Template.texts_ne_nil template)
      | block hrows hshown =>
        obtain ⟨mid, hread, htail⟩ := readSetups_heading.mp hr
        obtain ⟨other, hblock, rfl⟩ := (readSetup_declaration ⟨⟨hn, rfl⟩, hne⟩).mp hread
        have hmid := h.declare name other
        obtain ⟨he, -⟩ := hstep hmid himplied htail
        cases he
        refine ⟨fun template ht' => ?_, hrest hshown hmid htail⟩
        cases ht'
        exact (block_iff ht hrows).mp hblock

theorem items_of_legible (hs : Section.Shown (setups.map setupSection) tokens)
    (hregular : ∀ setup ∈ setups, RegularSetup setup)
    (hl : ∀ setup ∈ setups, ∀ template, setup.template? = some template → template.Legible) :
    Items IsVariable tokens setups := by
  induction setups generalizing tokens with
  | nil =>
    cases hs
    exact .nil
  | cons setup setups ih =>
    obtain ⟨hsetup, hsetups⟩ := List.forall_mem_cons.mp hregular
    obtain ⟨hlegible, hrest⟩ := List.forall_mem_cons.mp hl
    cases setup with
    | clear collection =>
      cases hs with
      | block hrows _ => cases hrows
      | bare _ hshown => exact .clear ⟨hsetup, rfl⟩ (ih hshown hsetups hrest)
    | insertion name collection template =>
      obtain ⟨hn, hc, ht⟩ := hsetup
      cases hs with
      | bare hrows _ => exact absurd hrows (Template.texts_ne_nil template)
      | block hrows hshown =>
        exact .insertion ⟨hn, hc, rfl⟩ ((block_iff ht hrows).mpr (hlegible template rfl))
          (ih hshown hsetups hrest)
    | declaration name template =>
      obtain ⟨hn, hne, ht⟩ := hsetup
      cases hs with
      | bare hrows _ => exact absurd hrows (Template.texts_ne_nil template)
      | block hrows hshown =>
        exact .declaration ⟨⟨hn, rfl⟩, hne⟩ ((block_iff ht hrows).mpr (hlegible template rfl))
          (ih hshown hsetups hrest)

end Setups

section Cases

variable {tokens rest : List Token} {registrations : Registrations}

theorem finds_iff {finds : List Find} (hs : Section.Shown (finds.map findSection) tokens)
    (hn : ∀ find ∈ finds, IsName find.collection ∧ find.template.WellFormed) :
    Finds tokens finds ↔ ∀ find ∈ finds, find.template.Legible := by
  induction finds generalizing tokens with
  | nil =>
    cases hs
    simp [Finds.nil]
  | cons find finds ih =>
    obtain ⟨⟨hname, ht⟩, hn⟩ := List.forall_mem_cons.mp hn
    rw [List.forall_mem_cons]
    cases hs with
    | bare hrows _ => exact absurd hrows (Template.texts_ne_nil find.template)
    | block hrows hshown =>
      rw [← ih hshown hn, ← block_iff ht hrows]
      constructor
      · intro h
        cases h with
        | cons _ block rest => exact ⟨block, rest⟩
      · rintro ⟨block, rest⟩
        exact .cons ⟨hname, rfl⟩ block rest

def partSections {α : Type} (text : α → List Char) (part : Option (α × Template)) : List Section :=
  (part.map fun p => ⟨false, 3, text p.1, p.2.texts⟩).toList

theorem readPart_shown {α : Type} (form? : List Char → Option α) {text : α → List Char}
    {part : Option (α × Template)} (hs : Section.Shown (partSections text part) tokens)
    (hform : ∀ p ∈ part, form? (text p.1) = some p.1) (ht : ∀ p ∈ part, p.2.WellFormed)
    (hrest : part = none → ∀ text place, rest.head? = some (.heading 3 text place) →
      form? text = none) :
    (∀ got behind, readPart form? (tokens ++ rest) = .ok (got, behind) →
      behind = rest ∧ got.map Prod.fst = part.map Prod.fst) ∧
    (readPart form? (tokens ++ rest) = .ok (part, rest) ↔ ∀ p ∈ part, p.2.Legible) := by
  cases part with
  | none =>
    cases hs
    rw [List.nil_append, readPart_absent (hrest rfl)]
    constructor
    · rintro got behind h
      cases h
      exact ⟨rfl, rfl⟩
    · simp
  | some p =>
    obtain ⟨a, template⟩ := p
    have ha : form? (text a) = some a := hform (a, template) rfl
    have hwell : template.WellFormed := ht (a, template) rfl
    cases hs with
    | bare hrows _ => exact absurd hrows (Template.texts_ne_nil template)
    | block hrows hshown =>
      cases hshown
      constructor
      · intro got behind h
        obtain ⟨other, -, he⟩ := (readPart_present ha).mp h
        cases he
        exact ⟨rfl, rfl⟩
      · have hlegible : (∀ p ∈ some (a, template), p.2.Legible) ↔ template.Legible := by simp
        rw [hlegible, ← block_iff hwell hrows]
        constructor
        · intro h
          obtain ⟨other, hblock, he⟩ := (readPart_present ha).mp h
          cases he
          exact hblock
        · exact fun hblock => (readPart_present ha).mpr ⟨template, hblock, rfl⟩

def postPart (c : Case) : Option (Option String × Template) :=
  if c.url.isSome || !c.post.isEmpty then some (c.url, c.post) else none

def outPart (c : Case) : Option (Option Nat × Template) :=
  c.out.map fun template => (if c.status = 200 then none else some c.status, template)

theorem partSections_post (c : Case) : partSections postText (postPart c) = postSections c := by
  unfold partSections postPart postSections
  split <;> rfl

theorem partSections_out (c : Case) :
    partSections (fun status => outText (status.getD 200)) (outPart c) = outSections c := by
  unfold partSections outPart outSections
  by_cases h : c.status = 200 <;> cases c.out <;> simp [h]

theorem eq_empty_of_isEmpty {template : Template} (h : template.isEmpty = true) :
    template = .empty := by
  unfold Template.isEmpty at h
  split at h
  · rfl
  · cases h

theorem postPart_eq_none {c : Case} (h : postPart c = none) : c.url = none ∧ c.post = .empty := by
  unfold postPart at h
  split at h
  · cases h
  · rename_i hn
    simp only [Bool.or_eq_true, Bool.not_eq_true', not_or, Bool.not_eq_true,
      Option.isSome_eq_false_iff, Option.isNone_iff_eq_none, Bool.not_eq_false] at hn
    exact ⟨hn.1, eq_empty_of_isEmpty hn.2⟩

theorem eq_of_mem_postPart {c : Case} {p : Option String × Template} (h : p ∈ postPart c) :
    p = (c.url, c.post) := by
  unfold postPart at h
  split at h
  · exact (Option.mem_some_iff.mp h).symm
  · cases h

theorem url_postPart (c : Case) : (postPart c).bind Prod.fst = c.url := by
  cases hp : postPart c with
  | none => rw [(postPart_eq_none hp).1, Option.bind_none]
  | some p => rw [eq_of_mem_postPart hp, Option.bind_some]

theorem template_postPart (c : Case) :
    ((postPart c).map Prod.snd).getD Template.empty = c.post := by
  cases hp : postPart c with
  | none => rw [(postPart_eq_none hp).2, Option.map_none, Option.getD_none]
  | some p => rw [eq_of_mem_postPart hp, Option.map_some, Option.getD_some]

theorem mem_templates_of_outPart {c : Case} {p : Option Nat × Template} (h : p ∈ outPart c) :
    p.2 ∈ c.templates := by
  obtain ⟨template, ho, rfl⟩ := Option.map_eq_some_iff.mp h
  simp [Case.templates, ho]

theorem mem_templates_of_finds {c : Case} {find : Find} (h : find ∈ c.finds) :
    find.template ∈ c.templates := by
  simp only [Case.templates, List.mem_cons, List.mem_append, List.mem_map]
  exact .inr (.inr ⟨find, h, rfl⟩)

theorem template_outPart (c : Case) : (outPart c).map Prod.snd = c.out := by
  simp [outPart, Function.comp_def]

theorem status_outPart {c : Case} (h : c.out = none → c.status = 200) :
    ((outPart c).bind Prod.fst).getD 200 = c.status := by
  unfold outPart
  cases ho : c.out with
  | none => rw [h ho, Option.map_none, Option.bind_none, Option.getD_none]
  | some template => by_cases hs : c.status = 200 <;> simp [hs]

theorem caseOf_parts {c : Case} (h : RegularCase c) :
    caseOf (caption c.name c.skip) (postPart c) (outPart c) c.finds = c := by
  rw [caseOf, h.caption.split, url_postPart, template_postPart, status_outPart h.silent,
    template_outPart, String.ofList_toList]

theorem legible_empty : Template.empty.Legible :=
  .intro trivial (by simp [Template.empty, Template.parts])

theorem legible_templates_iff {c : Case} :
    (∀ template ∈ c.templates, template.Legible) ↔
      (∀ p ∈ postPart c, p.2.Legible) ∧ (∀ p ∈ outPart c, p.2.Legible) ∧
        ∀ find ∈ c.finds, find.template.Legible := by
  have hpost : (∀ p ∈ postPart c, p.2.Legible) ↔ c.post.Legible := by
    cases hp : postPart c with
    | none => simp [(postPart_eq_none hp).2, legible_empty]
    | some p =>
      have ht := template_postPart c
      rw [hp] at ht
      simp [← ht]
  have hout : (∀ p ∈ outPart c, p.2.Legible) ↔ ∀ template ∈ c.out, template.Legible := by
    rw [← template_outPart]
    cases outPart c <;> simp
  rw [hpost, hout]
  simp [Case.templates, or_imp, forall_and]

theorem head_out_finds {c : Case}
    (hs : Section.Shown (outSections c ++ c.finds.map findSection) tokens) {text : List Char}
    {place : Span} (he : tokens.head? = some (.heading 3 text place)) :
    text.head? = some 'O' ∨ text.head? = some 'F' := by
  obtain ⟨s, hm, -, rfl⟩ := hs.exists_of_head he
  unfold outSections at hm
  cases ho : c.out with
  | some template =>
    rw [ho] at hm
    cases hm
    exact .inl rfl
  | none =>
    rw [ho] at hm
    cases hf : c.finds with
    | nil => simp [hf] at hm
    | cons find finds =>
      rw [hf] at hm
      cases hm
      exact .inr rfl

theorem head_finds {finds : List Find} (hs : Section.Shown (finds.map findSection) tokens)
    {text : List Char} {place : Span} (he : tokens.head? = some (.heading 3 text place)) :
    text.head? = some 'F' := by
  obtain ⟨s, hm, -, rfl⟩ := hs.exists_of_head he
  cases finds with
  | nil => cases hm
  | cons find finds =>
    cases hm
    rfl

theorem out?_outText {c : Case} (h : RegularCase c) (hs : 100 ≤ c.status) :
    ∀ p ∈ outPart c, out? (outText (p.1.getD 200)) = some p.1 := by
  rintro p hp
  obtain ⟨template, -, rfl⟩ := Option.map_eq_some_iff.mp hp
  by_cases h200 : c.status = 200
  · simp only [h200, ↓reduceIte]
    rfl
  · have ht := out?_status h.status
    rw [if_pos hs] at ht
    simpa [outText, h200] using ht

theorem status_of_readPart {c : Case} (h : RegularCase c)
    (hs : Section.Shown (outSections c ++ c.finds.map findSection) tokens)
    {out : Option (Option Nat × Template)} (hr : readPart out? tokens = .ok (out, rest))
    (ho : c.out = out.map Prod.snd) : 100 ≤ c.status := by
  by_contra hlt
  have h200 : c.status ≠ 200 := fun he => hlt (by omega)
  have hform : out? (outText c.status) = none := by
    have ht := out?_status h.status
    rw [if_neg hlt] at ht
    simpa [outText, h200] using ht
  obtain ⟨template, hc⟩ := Option.ne_none_iff_exists'.mp fun he => h200 (h.silent he)
  have habsent : readPart out? tokens = .ok (none, tokens) := by
    apply readPart_absent
    intro text place he
    obtain ⟨s, hm, -, rfl⟩ := hs.exists_of_head he
    rw [outSections, hc] at hm
    cases hm
    exact hform
  rw [habsent] at hr
  cases hr
  rw [hc] at ho
  cases ho

theorem part_ext {α : Type} {a b : Option (α × Template)} {d : Template}
    (h₁ : a.map Prod.fst = b.map Prod.fst)
    (h₂ : (a.map Prod.snd).getD d = (b.map Prod.snd).getD d) : a = b := by
  cases a <;> cases b <;> simp_all [Prod.ext_iff]

/-- A case comes back if and only if its templates do and its status has three digits. -/
theorem readCase_shown {c : Case} (h : RegularCase c)
    (hknown : ∀ find ∈ c.finds, find.collection ∈ registrations.keys)
    (hs : Section.Shown (postSections c ++ (outSections c ++ c.finds.map findSection)) tokens) :
    readCase registrations (caption c.name c.skip) tokens = .ok c ↔
      100 ≤ c.status ∧ ∀ template ∈ c.templates, template.Legible := by
  obtain ⟨p, r, rfl, hp, hr⟩ := Section.shown_append hs
  obtain ⟨o, f, rfl, ho, hf⟩ := Section.shown_append hr
  rw [← partSections_post] at hp
  rw [← partSections_out] at ho
  have hpost := readPart_shown post? hp
    (fun p hm => by
      rw [eq_of_mem_postPart hm]
      exact post?_eq_some_iff.mpr (isPost_postText h.url))
    (fun p hm => by
      rw [eq_of_mem_postPart hm]
      exact h.templates c.post (List.mem_cons_self ..))
    (fun _ text place he => post?_eq_none (head_out_finds hr he))
  have hout := fun hstatus : 100 ≤ c.status => readPart_shown out? ho
    (out?_outText h hstatus) (fun p hm => h.templates p.2 (mem_templates_of_outPart hm))
    (fun _ text place he => out?_eq_none (head_finds hf he))
  have hfinds := finds_iff hf fun find hm =>
    ⟨h.finds find hm, h.templates _ (mem_templates_of_finds hm)⟩
  rw [readCase_eq_caseOf, legible_templates_iff]
  constructor
  · rintro ⟨post, behind, out, rest, finds, hreadPost, hreadOut, hreadFinds, he⟩
    obtain ⟨rfl, hpostForm⟩ := hpost.1 _ _ hreadPost
    have hstatus := status_of_readPart h hr hreadOut (by rw [he]; rfl)
    obtain ⟨rfl, houtForm⟩ := (hout hstatus).1 _ _ hreadOut
    obtain rfl : post = postPart c := part_ext hpostForm (by rw [template_postPart, he]; rfl)
    obtain rfl : out = outPart c :=
      part_ext (d := .empty) houtForm (by rw [template_outPart, he]; rfl)
    obtain rfl : finds = c.finds := by rw [he]; rfl
    obtain ⟨hf, -⟩ := readFinds_eq_ok_iff.mp hreadFinds
    exact ⟨hstatus, hpost.2.mp hreadPost, (hout hstatus).2.mp hreadOut, hfinds.mp hf⟩
  · rintro ⟨hstatus, hp, ho, hf⟩
    exact ⟨postPart c, o ++ f, outPart c, f, c.finds, hpost.2.mpr hp, (hout hstatus).2.mpr ho,
      readFinds_eq_ok_iff.mpr ⟨hfinds.mpr hf, hknown⟩, (caseOf_parts h).symm⟩

theorem level_parts (c : Case) :
    ∀ s ∈ postSections c ++ (outSections c ++ c.finds.map findSection), s.level ≠ 2 := by
  intro s hs
  simp only [postSections, outSections, List.mem_append, List.mem_map] at hs
  rcases hs with hs | hs | ⟨find, -, rfl⟩
  · split at hs
    · simp [List.mem_singleton.mp hs]
    · cases hs
  · cases ho : c.out <;> simp_all
  · simp [findSection]

theorem isTitle_head_of_shown {cases : List Case}
    (hs : Section.Shown (cases.flatMap caseSections) tokens) :
    ∀ token ∈ tokens.head?, isTitle token = true := by
  cases cases with
  | nil =>
    cases hs
    simp
  | cons c cases => cases hs <;> simp [isTitle]

theorem readCases_shown {cases : List Case} (h : ∀ c ∈ cases, RegularCase c)
    (hknown : ∀ c ∈ cases, ∀ find ∈ c.finds, find.collection ∈ registrations.keys)
    (hs : Section.Shown (cases.flatMap caseSections) tokens) :
    readCases registrations tokens = .ok cases ↔
      ∀ c ∈ cases, 100 ≤ c.status ∧ ∀ template ∈ c.templates, template.Legible := by
  induction cases generalizing tokens with
  | nil =>
    cases hs
    simp [readCases]
  | cons c cases ih =>
    obtain ⟨hc, h⟩ := List.forall_mem_cons.mp h
    obtain ⟨hf, hknown⟩ := List.forall_mem_cons.mp hknown
    rw [List.flatMap_cons, caseSections, List.cons_append] at hs
    cases hs with
    | block hrows _ => cases hrows
    | bare _ hs =>
      obtain ⟨body, tokens, rfl, hbody, htokens⟩ := Section.shown_append hs
      obtain ⟨h₁, h₂⟩ := cut_at_title (hbody.not_isTitle (level_parts c))
        (isTitle_head_of_shown htokens)
      rw [readCases_cons, h₁, h₂, List.forall_mem_cons, ← readCase_shown hc hf hbody,
        ← ih h hknown htokens]
      constructor
      · rintro ⟨_, _, hhere, hthere, he⟩
        cases he
        exact ⟨hhere, hthere⟩
      · rintro ⟨hhere, hthere⟩
        exact ⟨c, cases, hhere, hthere, rfl⟩

end Cases

theorem readSetups_shown {document : Document} (h : document.Regular) {s c : List Token}
    (hs : Section.Shown (document.setups.map setupSection) s)
    (hc : Section.Shown (document.cases.flatMap caseSections) c)
    (hl : ∀ setup ∈ document.setups, ∀ template, setup.template? = some template →
      template.Legible) :
    ∃ prepared, readSetups ⟨[], []⟩ (s ++ c) = .ok (prepared, c) ∧
      prepared.setups = document.setups ∧ prepared.registrations.keys = document.collections := by
  obtain ⟨prepared, hread, hafter⟩ := exists_readSetups_of_items Prepared.after_nil
    (items_of_legible hs h.setups hl) h.orderly (isTitle_head_of_shown hc)
  rw [List.nil_append] at hafter
  exact ⟨prepared, hread, hafter.setups.trans h.explicit, (lists_keys hafter).eq h.lists⟩

theorem ofTokens_shown {document : Document} (h : document.Regular) {tokens : List Token}
    (hs : Section.Shown document.sections tokens) :
    ofTokens tokens = .ok document ↔ document.Legible := by
  cases hs with
  | block hrows _ => cases hrows
  | bare _ hs =>
  cases hs with
  | block hrows _ => cases hrows
  | @bare _ _ place _ _ hs =>
  obtain ⟨s, c, rfl, hs, hc⟩ := Section.shown_append hs
  have hskip : skipToSetup (.heading 2 "Setup".toList place :: (s ++ c)) = some (place, s ++ c) :=
    rfl
  rw [ofTokens_title]
  constructor
  · rintro ⟨setup, rest, prepared, front, cases, hto, hread, hcases, -, he⟩
    cases hskip.symm.trans hto
    have hsetups : prepared.setups = document.setups := by rw [he]
    have hlegible := legible_of_readSetups hs Prepared.after_nil h.explicit h.setups hread
      (by rw [hsetups]; rfl)
    obtain ⟨other, hother, -, hkeys⟩ := readSetups_shown h hs hc hlegible
    cases hother.symm.trans hread
    obtain rfl : cases = document.cases := by rw [he]
    have hall := (readCases_shown h.cases (by rw [hkeys]; exact h.known) hc).mp hcases
    exact ⟨fun c hm => (hall c hm).1, hlegible, fun c hm => (hall c hm).2⟩
  · rintro hlegible
    obtain ⟨prepared, hread, hsetups, hkeys⟩ := readSetups_shown h hs hc hlegible.setups
    refine ⟨place, s ++ c, prepared, c, document.cases, hskip, hread, ?_, h.nonempty, ?_⟩
    · exact (readCases_shown h.cases (by rw [hkeys]; exact h.known) hc).mpr
        fun c hm => ⟨hlegible.statuses c hm, hlegible.cases c hm⟩
    · rw [hsetups, hkeys, h.caption.split, String.ofList_toList]

theorem ofString_render_eq_ok_iff {document : Document} (h : document.Regular) :
    ofString (document.render .plain) = .ok document ↔ document.Legible := by
  rw [ofString, ofChars]
  exact ofTokens_shown h (shown_render h)

/-- A document that was read from a text is read back from its plain rendering, and rendered to the
same text again, if and only if it is legible. -/
theorem reading_render_iff_legible {text : String} {document : Document}
    (h : ofString text = .ok document) :
    (ofString (document.render .plain) = .ok document ↔ document.Legible) ∧
      (document.Legible → (ofString (document.render .plain)).map (render .plain) =
        .ok (document.render .plain)) := by
  have hread := ofString_render_eq_ok_iff (regular_of_ofString h)
  refine ⟨hread, fun hlegible => ?_⟩
  rw [hread.mpr hlegible]
  rfl

def expecting (status : Nat) : Document :=
  ⟨"t", false, [], [⟨"c", false, none, .empty, status, some (.expression "x"), []⟩], []⟩

theorem ofTokens_expecting {text : List Char} {status : Nat} (h : IsOut text (some status)) :
    ofTokens [.heading 1 ['t'] ⟨0, 1⟩, .heading 2 "Setup".toList ⟨1, 2⟩, .heading 2 ['c'] ⟨2, 3⟩,
      .heading 3 text ⟨3, 4⟩, .block ⟨4, ['x']⟩ []] = .ok (expecting status) := by
  have hblock : Block ⟨4, ['x']⟩ [] (.expression "x") := by
    refine (Template.ofLines_single (by decide) (by decide) (by decide)).mpr ⟨rfl, ?_⟩
    rfl
  have hcases : Cases [.heading 2 ['c'] ⟨2, 3⟩, .heading 3 text ⟨3, 4⟩, .block ⟨4, ['x']⟩ []]
      (expecting status).cases :=
    .cons (.intro .absent (.present h hblock) .nil) .nil
  exact ofTokens_of_derives (@Derives.intro _ ['t'] _ _ [] [] _ [] _ _ (by simp) .nil .nil hcases
    (List.cons_ne_nil _ _) ⟨.nil, by simp [touched]⟩ (by simp))

theorem legible_expecting_iff {status : Nat} : (expecting status).Legible ↔ 100 ≤ status := by
  have hx : (Template.expression "x").Legible :=
    .intro ⟨by decide, by decide, by decide⟩ (by simp [Template.parts])
  constructor
  · exact fun h => h.statuses _ (List.mem_singleton_self _)
  · exact fun h => ⟨by simpa [expecting], by simp [expecting],
      by simp [expecting, Case.templates, hx, legible_empty]⟩

theorem reading_render_of_404 :
    ofString "# t\n## Setup\n## c\n### Out 404\n\tx\n" = .ok (expecting 404) ∧
      ofString ((expecting 404).render .plain) = .ok (expecting 404) := by
  have h : ofString "# t\n## Setup\n## c\n### Out 404\n\tx\n" = .ok (expecting 404) :=
    ofTokens_expecting (@IsOut.status "404".toList rfl (List.all_eq_true.mp rfl))
  exact ⟨h, (reading_render_iff_legible h).1.mpr (legible_expecting_iff.mpr (by decide))⟩

/-- The status loses its zeros and then is none. -/
theorem render_of_007_unread :
    ofString "# t\n## Setup\n## c\n### Out 007\n\tx\n" = .ok (expecting 7) ∧
      ofString ((expecting 7).render .plain) ≠ .ok (expecting 7) := by
  have h : ofString "# t\n## Setup\n## c\n### Out 007\n\tx\n" = .ok (expecting 7) :=
    ofTokens_expecting (@IsOut.status "007".toList rfl (List.all_eq_true.mp rfl))
  refine ⟨h, fun hread => ?_⟩
  have hlegible := (ofString_render_eq_ok_iff (regular_of_ofString h)).mp hread
  exact absurd (legible_expecting_iff.mp hlegible) (by decide)

end ApiContract.Document
