import ApiContract.Proofs.Path.Chain
import ApiContract.Proofs.Template.Captures
import ApiContract.Proofs.Template.Faults

namespace ApiContract

structure Segment.Overflows (word : List Char) : Prop where
  ne_nil : word ≠ []
  digits : ∀ c ∈ word, c.isDigit = true
  limit_le : indexLimit ≤ Nat.ofDigitChars 10 word 0

def Path.Overflows (s : List Char) : Prop :=
  ∃ word ∈ Text.pieces '.' s, Segment.Overflows word

open Template.Opening (isStep)

theorem Segment.ofChars?_eq_none_iff {word : List Char} (h : isStep word = true) :
    ofChars? word = none ↔ Overflows word := by
  rw [← Option.not_isSome_iff_eq_none, isSome_ofChars?_iff, not_or]
  constructor
  · rintro ⟨hvalid, hinteger⟩
    obtain hv | hdigits := (Bool.or_eq_true _ _).mp h
    · exact absurd hv hvalid
    · obtain ⟨hne, hall⟩ := (Bool.and_eq_true _ _).mp hdigits
      have hne : word ≠ [] := by simpa using hne
      have hall := List.all_eq_true.mp hall
      exact ⟨hne, hall, Nat.le_of_not_lt fun hlt => hinteger ⟨hne, hall, hlt⟩⟩
  · intro hoverflow
    refine ⟨fun hvalid => ?_, fun hinteger => ?_⟩
    · have hall := List.all_eq_true.mpr hoverflow.digits
      rw [not_all_isDigit_of_isValid hvalid] at hall
      cases hall
    · exact Nat.not_lt_of_le hoverflow.limit_le hinteger.lt_limit

theorem Path.ofChars?_eq_none_iff {s : List Char} (h : (Text.pieces '.' s).all isStep = true) :
    ofChars? s = none ↔ Overflows s := by
  rw [← Option.not_isSome_iff_eq_none, ofChars?, isSome_mapM_iff, Overflows]
  simp only [not_forall]
  have hsteps := List.all_eq_true.mp h
  constructor
  · rintro ⟨word, hword, hnone⟩
    rw [Option.not_isSome_iff_eq_none, Segment.ofChars?_eq_none_iff (hsteps word hword)] at hnone
    exact ⟨word, hword, hnone⟩
  · rintro ⟨word, hword, hoverflow⟩
    refine ⟨word, hword, ?_⟩
    rw [Option.not_isSome_iff_eq_none, Segment.ofChars?_eq_none_iff (hsteps word hword)]
    exact hoverflow

namespace Template

open Pattern (Captures captured Chained)

/-- What a pattern captures first is a chain of the language, and is read as a path unless one of
its indices is too large. -/
def CapturesPath (pattern : Pattern) (L : List Char → Prop) : Prop :=
  ∀ s captures, pattern.Accepts s captures → ∃ path, captured 1 captures = some path ∧
    Chained L path ∧ (Path.ofChars? path = none ↔ Path.Overflows path)

theorem capturesPath_mixin : CapturesPath Pattern.mixin fun s => Identifier.isValid s = true := by
  intro s captures hmatch
  cases Pattern.accepts_mixin_iff.mp hmatch with
  | intro hbase =>
    exact ⟨_, rfl, hbase, Path.ofChars?_eq_none_iff (MixinOpening.chained_isValid_iff.mp hbase).1⟩

theorem capturesPath_addition : CapturesPath Pattern.addition fun s => isStep s = true := by
  intro s captures hmatch
  have hchain := Pattern.spells_chain Pattern.spells_step fun _ h => h
  have hname {name : List Char} (h : Chained (fun s => isStep s = true) name) :
      Path.ofChars? name = none ↔ Path.Overflows name :=
    Path.ofChars?_eq_none_iff (Opening.chained_isStep_iff.mp h)
  cases (Pattern.accepts_slot_iff hchain).mp hmatch with
  | alone h => exact ⟨_, rfl, h, hname h⟩
  | beside h => exact ⟨_, rfl, h, hname h⟩

theorem Draft.pathAt_eq_error_iff {place : Span} {s : List Char} {fault : Fault} :
    pathAt place s = .error fault ↔
      Path.ofChars? s = none ∧ fault = .invalidPath place (String.ofList s) := by
  rw [pathAt]
  cases Path.ofChars? s with
  | none => simp [eq_comm]
  | some path => simp

namespace Group

variable {group : Group} {s : List Char}

theorem Names.steps (h : group.Names s) : (Text.pieces '.' s).all isStep = true := by
  cases h with
  | base _ ho => exact (MixinOpening.opens_of_ofChars? ho).steps
  | addition _ _ hgather hmem =>
    obtain ⟨block, hslots⟩ := Draft.exists_slots_of_ofOpening hgather
    obtain ⟨text, opening, hpath, hname⟩ := exists_opening_of_mem_slots hslots hmem
    obtain ⟨⟨name, rest⟩, htake, hbehind⟩ := Option.bind_eq_some_iff.mp hpath
    rw [← hname, (Opening.behind?_eq_some hbehind).1]
    exact (Opening.takePath?_eq_some htake).2

theorem invalidPath_of_read {place : Span} {text : String}
    (h : group.read = .error (.invalidPath place text)) :
    ∃ inner s, group.Contains inner ∧ text = String.ofList s ∧ Path.ofChars? s = none ∧
      (inner.Names s ∧ Path.Overflows s ∨ inner.Removes s) := by
  obtain ⟨inner, hinner, hfault⟩ := exists_faulty_of_read_error h
  obtain hlayout | ⟨_, _, hfault⟩ | ⟨place, s, hpath, hs⟩ := hfault.layout_or_path
  · cases hlayout
  · cases hfault
  · obtain ⟨hnone, hfault⟩ := Draft.pathAt_eq_error_iff.mp hpath
    cases hfault
    refine ⟨inner, s, hinner, rfl, hnone, hs.imp_left fun hnames => ⟨hnames, ?_⟩⟩
    exact (Path.ofChars?_eq_none_iff hnames.steps).mp hnone

end Group

/-- The patterns of mixins and additions agree with the reader of paths, and the recognisers with
the patterns. So the base of a mixin or the path of an addition is refused for an index that is too
large only, and all other paths that are refused are removals. -/
theorem patterns_agree :
    CapturesPath Pattern.mixin (fun s => Identifier.isValid s = true) ∧
    CapturesPath Pattern.addition (fun s => isStep s = true) ∧
    (∀ s opening, MixinOpening.ofChars? s = some opening ↔
      ∃ captures, Pattern.mixin.Accepts s captures ∧
        ∀ place, MixinOpening.ofCaptures place captures = .ok opening) ∧
    Opening.Recognises Pattern.addition Opening.path? ∧
    ∀ (group : Group) (place : Span) (text : String),
      group.read = .error (.invalidPath place text) →
        ∃ inner s, group.Contains inner ∧ text = String.ofList s ∧ Path.ofChars? s = none ∧
          (inner.Names s ∧ Path.Overflows s ∨ inner.Removes s) := by
  refine ⟨capturesPath_mixin, capturesPath_addition, ?_, Opening.recognises_addition, ?_⟩
  · intro s opening
    exact MixinOpening.ofChars?_eq_some_iff
  · intro group place text h
    exact Group.invalidPath_of_read h

example :
    MixinOpening.ofChars? "u.18446744073709551616 with x: 1".toList =
      some ⟨"u.18446744073709551616".toList, false, " x: 1".toList⟩ ∧
    Path.ofChars? "u.18446744073709551616".toList = none :=
  ⟨by with_unfolding_all rfl, by decide +kernel⟩

end Template

end ApiContract
