import ApiContract.Proofs.Document.Cursor
import ApiContract.Proofs.Document.Statuses
import ApiContract.Proofs.Source.Lines
import ApiContract.Proofs.Template.Captures
import ApiContract.Proofs.Template.Faults

namespace ApiContract

/-- What a fault asks for, if it asks for anything, is among some forms. -/
def Fault.Asks (forms : List String) (fault : Fault) : Prop :=
  ∀ place what, fault = .expected place what → what ∈ forms

theorem Template.Group.slots_first {opening? : List Char → Option Opening} {opening : Opening}
    {line : Line} (h : opening? line.text = some opening) (lines : List Line) :
    slots opening? [] (line :: lines) =
      (slots opening? [(opening.name, line.span)] (beyond lines)).map
        fun groups => ofOpening opening line (below lines) :: groups := by
  rw [slots, h]
  cases hslots : slots opening? [(opening.name, line.span)] (beyond lines) <;>
    simp [hslots, Except.map]

namespace Document

variable {registrations : Registrations} {prepared : Prepared} {token : Token}
  {tokens : List Token} {fault : Fault} {place : Span}

def forms : List String :=
  ["a \"key:\" line", "a single line for a mixin without additions", setupForms, "\"### ...\"",
    findForm]

theorem asks_of_isLayout (h : fault.IsLayout) : fault.Asks forms := by
  cases h with
  | key | alone =>
    rintro place what ⟨⟩
    simp [forms]
  | _ => rintro place what ⟨⟩

theorem asks_of_readBlock (h : readBlock place tokens = .error fault) : fault.Asks forms := by
  unfold readBlock at h
  split at h
  · rename_i first more _
    have hread : (Template.Group.whole (first :: more) (Line.spanOf first more)).read =
        .error fault := h
    obtain ⟨inner, -, hfault⟩ := Template.Group.exists_faulty_of_read_error hread
    obtain hlayout | ⟨_, _, rfl⟩ | ⟨_, _, hpath, -⟩ := hfault.layout_or_path
    · exact asks_of_isLayout hlayout
    · rintro place what ⟨⟩
    · unfold Template.Draft.pathAt at hpath
      split at hpath
      · cases hpath
      · cases hpath
        rintro place what ⟨⟩
  · cases h
    rintro place what ⟨⟩

theorem asks_of_readSetup {text : List Char}
    (h : readSetup text place tokens prepared = .error fault) : fault.Asks forms := by
  unfold readSetup at h
  split at h
  · obtain hclear | ⟨next, -, h⟩ := bind_eq_error_iff.mp h
    · unfold Prepared.clear at hclear
      split at hclear
      · cases hclear
        rintro place what ⟨⟩
      · cases hclear
        rintro place what ⟨⟩
      · cases hclear
    · obtain hblock | ⟨_, -, h⟩ := bind_eq_error_iff.mp h
      · unfold noBlock at hblock
        split at hblock
        · cases hblock
          rintro place what ⟨⟩
        · cases hblock
      · cases h
  · split at h
    · obtain hblock | ⟨template, -, h⟩ := bind_eq_error_iff.mp h
      · exact asks_of_readBlock hblock
      · cases h
    · split at h
      · obtain hblock | ⟨template, -, h⟩ := bind_eq_error_iff.mp h
        · exact asks_of_readBlock hblock
        · cases h
      · cases h
        rintro place what ⟨⟩
        simp [forms]

theorem asks_of_readSetups (h : readSetups prepared tokens = .error fault) :
    fault.Asks forms := by
  fun_induction readSetups prepared tokens with
  | case3 prepared text place tokens fault' he =>
    cases h
    exact asks_of_readSetup he
  | case4 prepared text place tokens next _ _ ih => exact ih h
  | case5 =>
    cases h
    rintro place what ⟨⟩
    simp [forms]
  | case6 =>
    cases h
    rintro place what ⟨⟩
  | _ => cases h

theorem asks_of_readPart {α : Type} {form? : List Char → Option α}
    (h : readPart form? tokens = .error fault) : fault.Asks forms := by
  unfold readPart at h
  split at h
  · split at h
    · obtain hblock | ⟨template, -, h⟩ := bind_eq_error_iff.mp h
      · exact asks_of_readBlock hblock
      · cases h
    · cases h
  · cases h

theorem asks_of_findsFrom (h : findsFrom registrations tokens = .error fault) :
    fault.Asks forms := by
  fun_induction findsFrom registrations tokens with
  | case4 text place tokens collection hf hk fault' hb =>
    cases h
    exact asks_of_readBlock hb
  | case5 text place tokens collection hf hk template hb fault' he _ ih =>
    cases h
    exact ih he
  | case3 | case8 | case9 =>
    cases h
    rintro place what ⟨⟩
    simp [forms]
  | case7 =>
    cases h
    rintro place what ⟨⟩
  | _ => cases h

theorem exists_of_isTitle (h : isTitle token = true) :
    ∃ title place, token = .heading 2 title place := by
  cases token with
  | heading level title place =>
    obtain rfl : level = 2 := beq_iff_eq.mp h
    exact ⟨title, place, rfl⟩
  | block => cases h

theorem asks_of_caseFrom (ht : isTitle token = true)
    (h : caseFrom registrations token tokens = .error fault) : fault.Asks forms := by
  obtain ⟨title, place, rfl⟩ := exists_of_isTitle ht
  rw [caseFrom] at h
  obtain hpost | ⟨post, -, h⟩ := bind_eq_error_iff.mp h
  · exact asks_of_readPart hpost
  · obtain hout | ⟨out, -, h⟩ := bind_eq_error_iff.mp h
    · exact asks_of_readPart hout
    · obtain hfinds | ⟨finds, -, h⟩ := bind_eq_error_iff.mp h
      · exact asks_of_findsFrom hfinds
      · cases h

theorem asks_of_casesFrom (ht : AtTitle tokens)
    (h : casesFrom registrations tokens = .error fault) : fault.Asks forms := by
  fun_induction casesFrom registrations tokens with
  | case1 => cases h
  | case2 token tokens fault' hc =>
    cases h
    exact asks_of_caseFrom (ht token rfl) hc
  | case3 token tokens c rest hc fault' he ih =>
    cases h
    exact ih (atTitle_of_caseFrom hc) he
  | case4 => cases h

theorem asks_of_ofTokens (h : ofTokens tokens = .error fault) : fault.Asks forms := by
  unfold ofTokens at h
  split at h
  · split at h
    · cases h
      rintro place what ⟨⟩
    · obtain hsetups | ⟨⟨prepared, rest⟩, hsetups, h⟩ := bind_eq_error_iff.mp h
      · exact asks_of_readSetups hsetups
      · obtain hcases | ⟨cases, -, h⟩ := bind_eq_error_iff.mp h
        · rw [← casesFrom_eq_readCases] at hcases
          exact asks_of_casesFrom (atTitle_of_readSetups hsetups) hcases
        · split at h
          · cases h
            rintro place what ⟨⟩
          · cases h
  · cases h
    rintro place what ⟨⟩
  · cases h
    rintro place what ⟨⟩

/-- Wherever a case is to be read, the cursor stands before a title. So no text is asked for one. -/
structure StopsAtTitles : Prop where
  setups : ∀ prepared tokens next rest,
    readSetups prepared tokens = .ok (next, rest) → AtTitle rest
  case : ∀ registrations token tokens c rest,
    caseFrom registrations token tokens = .ok (c, rest) → AtTitle rest
  cases : ∀ registrations tokens, casesFrom registrations tokens = readCases registrations tokens
  title : ∀ text place, ofChars text ≠ .error (.expected place caseForm)

theorem stopsAtTitles : StopsAtTitles where
  setups _ _ _ _ := atTitle_of_readSetups
  case _ _ _ _ _ := atTitle_of_caseFrom
  cases := casesFrom_eq_readCases
  title text place h := by
    have hmem : caseForm ∉ forms := by decide
    exact hmem (asks_of_ofTokens h place caseForm rfl)

open Template (Opening MixinOpening) in
/-- Wherever a pattern of the lines of a template matches, all groups are there that are asked for,
and what they make is what a recogniser finds. -/
structure GroupsCaptured : Prop where
  entry : Opening.Recognises Pattern.entry Opening.key?
  addition : Opening.Recognises Pattern.addition Opening.path?
  mixin : ∀ s captures, Pattern.mixin.Accepts s captures → ∃ opening,
    MixinOpening.ofChars? s = some opening ∧
      ∀ place, MixinOpening.ofCaptures place captures = .ok opening

theorem groupsCaptured : GroupsCaptured where
  entry := Template.Opening.recognises_entry
  addition := Template.Opening.recognises_addition
  mixin _ _ := Template.MixinOpening.exists_of_accepts_mixin

open Heading Pattern in
/-- The digits of a status are always a number, and a case expects the status that it names. -/
structure StatusesRead : Prop where
  out : ∀ s status, out? s = some status ↔
    ∃ captures, answer.Accepts s captures ∧ statusBy captures = status
  digits : ∀ s captures digits, answer.Accepts s captures → captured 1 captures = some digits →
    short? digits = some (Nat.ofDigitChars 10 digits 0)
  case : ∀ registrations title tokens c digits place,
    readCase registrations title tokens = .ok c → IsStatus digits →
      .heading 3 ("Out ".toList ++ digits) place ∈ tokens → c.status = Nat.ofDigitChars 10 digits 0

theorem statusesRead : StatusesRead where
  out _ _ := Heading.out?_eq_some_iff_captures
  digits _ _ _ := Heading.short?_of_captured
  case _ _ _ _ _ _ hread hdigits hmem :=
    status_of_mem hread hmem (Heading.out?_eq_some_iff.mpr (.status hdigits.1 hdigits.2))

open Template in
/-- A line looks like a key where the pattern of such lines matches. In a block of a text, at any
depth, it then opens the first slot of an object, and what is wrong with the slots is wrong with
those after it. -/
structure KeyLinesOpen : Prop where
  key : ∀ s, isKeyLine s = true ↔ ∃ front after captures, s = front ++ after ∧
    Pattern.keyLine.Matches [] front after captures
  opens : ∀ text first more origin group line lines, .block first more ∈ Token.ofChars text →
    (Group.whole (first :: more) origin).Contains group → group.lines = line :: lines →
      isKeyLine line.text = true → ∃ opening, Opening.key? line.text = some opening ∧
        Group.slots Opening.key? [] (line :: lines) =
          (Group.slots Opening.key? [(opening.name, line.span)] (Group.beyond lines)).map
            fun groups => Group.ofOpening opening line (Group.below lines) :: groups

theorem keyLinesOpen : KeyLinesOpen where
  key _ := Template.isKeyLine_iff
  opens text first more origin group line lines hblock hgroup hlines hkey := by
    have hplain : ∀ l ∈ first :: more, '\n' ∉ l.text := Token.plain_ofChars text _ hblock
    obtain ⟨outer, houter, hpart⟩ :=
      Template.Group.within_of_contains hgroup line (hlines ▸ List.mem_cons_self)
    have hline : '\n' ∉ line.text := fun hm => hplain outer houter (hpart.subset hm)
    obtain ⟨opening, hopening⟩ := Template.exists_key?_of_isKeyLine hkey hline
    exact ⟨opening, hopening, Template.Group.slots_first hopening lines⟩

/-- The branches that are there for safety only are never taken. -/
theorem defences_unreachable : StopsAtTitles ∧ GroupsCaptured ∧ StatusesRead ∧ KeyLinesOpen :=
  ⟨stopsAtTitles, groupsCaptured, statusesRead, keyLinesOpen⟩

end Document

end ApiContract
