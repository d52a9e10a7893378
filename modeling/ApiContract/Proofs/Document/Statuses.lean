import ApiContract.Proofs.Document.Parsing
import ApiContract.Proofs.Pattern.Basic

namespace ApiContract

namespace Pattern

def answer : Pattern :=
  seq (word "Out".toList) (seq (optional (seq (char ' ')
    (group 1 (seq (one Char.isDigit) (seq (one Char.isDigit) (one Char.isDigit)))))) stop)

def IsStatus (s : List Char) : Prop := s.length = 3 ∧ ∀ c ∈ s, c.isDigit = true

theorem spells_status :
    Spells (seq (one Char.isDigit) (seq (one Char.isDigit) (one Char.isDigit))) IsStatus := by
  apply (spells_one.seq (spells_one.seq spells_one)).congr
  intro s
  constructor
  · rintro ⟨_, _, rfl, ⟨a, ha, rfl⟩, _, _, rfl, ⟨b, hb, rfl⟩, ⟨c, hc, rfl⟩⟩
    exact ⟨rfl, by simp [ha, hb, hc]⟩
  · rintro ⟨hlen, hdigits⟩
    obtain ⟨a, b, c, rfl⟩ := List.length_eq_three.mp hlen
    simp only [List.forall_mem_cons] at hdigits
    obtain ⟨ha, hb, hc, -⟩ := hdigits
    exact ⟨[a], [b, c], rfl, ⟨a, ha, rfl⟩, [b], [c], rfl, ⟨b, hb, rfl⟩, ⟨c, hc, rfl⟩⟩

inductive Answered : List Char → Captures → Prop
  | alone : Answered "Out".toList []
  | status {digits : List Char} (h : IsStatus digits) :
    Answered ("Out ".toList ++ digits) [(1, digits)]

theorem accepts_answer_iff {s : List Char} {captures : Captures} :
    Accepts answer s captures ↔ Answered s captures := by
  constructor
  · intro hmatch
    simp only [Accepts, answer, optional, matches_seq_iff, matches_either_iff, matches_nothing_iff,
      matches_group_iff, matches_stop_iff, spells_word _ _ _ _ _, spells_char _ _ _ _ _,
      spells_status _ _ _ _] at hmatch
    obtain ⟨_, _, _, _, rfl, rfl, ⟨rfl, rfl⟩, _, _, _, _, rfl, rfl, hstatus, rfl, rfl, -⟩ := hmatch
    rcases hstatus with ⟨_, digits, _, _, rfl, rfl, ⟨rfl, rfl⟩, _, rfl, h, rfl⟩ | ⟨rfl, rfl⟩
    · simpa using Answered.status h
    · simpa using Answered.alone
  · have hword (after : List Char) : Matches (word "Out".toList) [] "Out".toList after [] :=
      (spells_word _ _ _ _ _).mpr ⟨rfl, rfl⟩
    rintro (_ | @⟨digits, h⟩)
    · exact .seq (hword _) (.seq (.right .nothing) .stop)
    · have hblank (after : List Char) : Matches (char ' ') "Out".toList [' '] after [] :=
        (spells_char ' ' _ _ _ _).mpr ⟨rfl, rfl⟩
      have hmatch : Matches answer [] ("Out".toList ++ ([' '] ++ digits ++ [])) [] _ :=
        .seq (hword _) (.seq (.left (.seq (hblank _)
          (.group ((spells_status _ _ _ _).mpr ⟨h, rfl⟩)))) .stop)
      simpa [Accepts] using hmatch

end Pattern

namespace Heading

open Pattern (Captures captured IsStatus Answered)

variable {digits s : List Char} {status : Option Nat} {captures : Captures}

/-- A number of sixteen bits, with or without a sign in front. -/
def short? (s : List Char) : Option Nat :=
  let digits := (Text.strip? ['+'] s).getD s
  if !digits.isEmpty && digits.all Char.isDigit then
    if Nat.ofDigitChars 10 digits 0 < 2 ^ 16 then some (Nat.ofDigitChars 10 digits 0) else none
  else none

def statusBy (captures : Captures) : Option Nat := (captured 1 captures).bind short?

theorem short?_of_isStatus (h : IsStatus digits) :
    short? digits = some (Nat.ofDigitChars 10 digits 0) := by
  obtain ⟨hlen, hdigits⟩ := h
  have hlt : Nat.ofDigitChars 10 digits 0 < 2 ^ 16 := by
    have hlt := ofDigitChars_lt hdigits 0
    rw [hlen] at hlt
    exact hlt.trans (by decide)
  have hsign : Text.strip? ['+'] digits = none := by
    by_contra hsign
    obtain ⟨rest, hrest⟩ := Option.ne_none_iff_exists'.mp hsign
    have hplus := hdigits '+' (by simp [Text.strip?_eq_some_iff.mp hrest])
    cases hplus
  have hne : digits.isEmpty = false := by
    cases digits with
    | nil => cases hlen
    | cons => rfl
  have hall : digits.all Char.isDigit = true := List.all_eq_true.mpr hdigits
  simp only [short?, hsign, Option.getD_none, hne, hall, hlt, Bool.not_false, Bool.and_self,
    ↓reduceIte]

/-- A status is read from a heading where the pattern of answers matches, and it is the one that the
groups name. -/
theorem out?_eq_some_iff_captures : out? s = some status ↔
    ∃ captures, Pattern.answer.Accepts s captures ∧ statusBy captures = status := by
  rw [out?_eq_some_iff]
  simp only [Pattern.accepts_answer_iff]
  constructor
  · rintro (_ | ⟨hlen, hdigits⟩)
    · exact ⟨_, .alone, rfl⟩
    · exact ⟨_, .status ⟨hlen, hdigits⟩, short?_of_isStatus ⟨hlen, hdigits⟩⟩
  · rintro ⟨captures, _ | h, rfl⟩
    · exact .alone
    · have hstatus : statusBy [(1, _)] = some _ := short?_of_isStatus h
      rw [hstatus]
      exact .status h.1 h.2

theorem short?_of_captured (hmatch : Pattern.answer.Accepts s captures)
    (h : captured 1 captures = some digits) :
    short? digits = some (Nat.ofDigitChars 10 digits 0) := by
  cases Pattern.accepts_answer_iff.mp hmatch with
  | alone => cases h
  | status hstatus =>
    cases h
    exact short?_of_isStatus hstatus

end Heading

namespace Document

open Heading

variable {α : Type} {Form : List Char → α → Prop} {front tokens : List Token}
  {part : Option (α × Template)} {finds : List Find} {text : List Char} {place : Span}

theorem Part.form_of_mem (h : Part Form front part) (hmem : .heading 3 text place ∈ front) :
    ∃ a template, part = some (a, template) ∧ Form text a := by
  cases h with
  | absent => cases hmem
  | present heading =>
    simp only [List.mem_cons, Token.heading.injEq, reduceCtorEq, List.not_mem_nil, or_false,
      true_and] at hmem
    obtain ⟨rfl, rfl⟩ := hmem
    exact ⟨_, _, rfl, heading⟩

theorem Finds.isFind_of_mem (h : Finds tokens finds) (hmem : .heading 3 text place ∈ tokens) :
    ∃ collection, IsFind text collection := by
  induction h with
  | nil => cases hmem
  | cons heading _ _ ih =>
    rcases List.mem_cons.mp hmem with he | hmem
    · cases he
      exact ⟨_, heading⟩
    · rcases List.mem_cons.mp hmem with he | hmem
      · cases he
      · exact ih hmem

theorem status_of_mem {registrations : Registrations} {title : List Char} {c : Case} {status : Nat}
    (h : readCase registrations title tokens = .ok c) (hmem : .heading 3 text place ∈ tokens)
    (hout : out? text = some (some status)) : c.status = status := by
  have hhead : text.head? = some 'O' := (out?_eq_some_iff.mp hout).head
  obtain ⟨hbody, -⟩ := readCase_eq_ok_iff.mp h
  cases hbody with
  | intro hpost hpart hfinds =>
    simp only [List.mem_append] at hmem
    rcases hmem with hmem | hmem | hmem
    · obtain ⟨url, _, -, hurl⟩ := hpost.form_of_mem hmem
      cases hurl.head.symm.trans hhead
    · obtain ⟨found, _, rfl, hfound⟩ := hpart.form_of_mem hmem
      cases (out?_eq_some_iff.mpr hfound).symm.trans hout
      rfl
    · obtain ⟨collection, hfind⟩ := hfinds.isFind_of_mem hmem
      cases hfind.head.symm.trans hhead

end Document

end ApiContract
