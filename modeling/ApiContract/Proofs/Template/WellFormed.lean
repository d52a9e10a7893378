import ApiContract.Proofs.Fields
import ApiContract.Proofs.Forall2
import ApiContract.Proofs.Path.Writing
import ApiContract.Proofs.Template.Groups
import ApiContract.Proofs.Template.Parts
import ApiContract.Proofs.Template.Reading

namespace ApiContract.Template

/-- A source stands on one line and is no text for something empty. -/
structure Source (s : String) : Prop where
  tight : Text.Tight s.toList
  line : '\n' ∉ s.toList
  not_object : s ≠ "\x7b\x7d"
  not_array : s ≠ "[]"

structure Edit (base : Path) (removals : List Path) (paths : List Path) : Prop where
  regular_base : base.Regular
  named : ∃ name, base.head? = some (Segment.key name)
  edits : removals ≠ [] ∨ paths ≠ []
  regular_removals : ∀ path ∈ removals, path.Regular
  regular_paths : ∀ path ∈ paths, path.Regular

/-- What a template is made of apart from its parts. -/
def Regular : Template → Prop
  | expression source => Source source
  | array _ => True
  | object entries =>
    Fields.Sorted entries ∧ ∀ entry ∈ entries, Identifier.isValid entry.1.toList = true
  | mixin base removals additions => Edit base removals (additions.map Prod.fst)

def WellFormed (t : Template) : Prop := t.Throughout Regular

structure Excerpt (lines : List Line) (source : String) : Prop where
  tight : Text.Tight source.toList
  not_object : source ≠ "\x7b\x7d"
  not_array : source ≠ "[]"
  written : ∃ line ∈ lines, source.toList <:+: line.text

/-- What a template that is read from some lines is made of apart from its parts. -/
def DrawnFrom (lines : List Line) : Template → Prop
  | expression source => Excerpt lines source
  | array _ => True
  | object entries =>
    Fields.Sorted entries ∧ ∀ entry ∈ entries, Identifier.isValid entry.1.toList = true
  | mixin base removals additions =>
    (∃ name, base.head? = some (.key name)) ∧ (removals ≠ [] ∨ additions ≠ []) ∧
      ∀ path ∈ base :: (removals ++ additions.map Prod.fst),
        path ≠ [] ∧ Path.ofString? path.text = some path

section Lines

variable {lines others : List Line} {t : Template}

theorem Excerpt.mono {source : String} (h : Excerpt lines source) (hw : Line.Within lines others) :
    Excerpt others source where
  tight := h.tight
  not_object := h.not_object
  not_array := h.not_array
  written := by
    obtain ⟨line, hl, hi⟩ := h.written
    obtain ⟨whole, hm, hj⟩ := hw line hl
    exact ⟨whole, hm, hi.trans hj⟩

theorem DrawnFrom.mono (h : DrawnFrom lines t) (hw : Line.Within lines others) :
    DrawnFrom others t := by
  cases t with
  | expression source => exact Excerpt.mono h hw
  | array _ => trivial
  | object _ => exact h
  | mixin _ _ _ => exact h

theorem drawnFrom_mixin_iff {base : Path} {removals : List Path}
    {additions : List (Path × Slot Template)} :
    DrawnFrom lines (mixin base removals additions) ↔
      Edit base removals (additions.map Prod.fst) := by
  simp only [DrawnFrom, ← Path.regular_iff_reads, List.forall_mem_cons, List.forall_mem_append]
  constructor
  · rintro ⟨hnamed, hedits, hbase, hremovals, hpaths⟩
    exact ⟨hbase, hnamed, hedits.imp_right (by simp), hremovals, hpaths⟩
  · intro h
    exact ⟨h.named, h.edits.imp_right (by simp), h.regular_base, h.regular_removals,
      h.regular_paths⟩

theorem DrawnFrom.regular (h : DrawnFrom lines t) (hn : ∀ line ∈ lines, '\n' ∉ line.text) :
    t.Regular := by
  cases t with
  | expression source =>
    obtain ⟨line, hl, hi⟩ := Excerpt.written h
    exact ⟨Excerpt.tight h, fun hm => hn line hl (hi.mem hm), Excerpt.not_object h,
      Excerpt.not_array h⟩
  | array _ => trivial
  | object _ => exact h
  | mixin _ _ _ => exact drawnFrom_mixin_iff.mp h

end Lines

theorem ofLine_eq_ok {line : Line} {t : Template} (h : ofLine line = .ok t) :
    t = object [] ∨ t = array [] ∨ ∃ source, t = expression source ∧ Excerpt [line] source := by
  simp only [ofLine] at h
  split at h
  · cases h
  · rename_i he
    split at h
    · cases h
      exact .inl rfl
    · rename_i ho
      split at h
      · cases h
        exact .inr (.inl rfl)
      · rename_i ha
        cases h
        have hne : Text.trim line.text ≠ [] := by simpa using he
        refine .inr (.inr ⟨_, rfl, ?_, fun e => ho ?_, fun e => ha ?_, line, by simp, ?_⟩)
        · rw [String.toList_ofList]
          exact Text.tight_trim hne
        · rw [← e, String.toList_ofList]
        · rw [← e, String.toList_ofList]
        · rw [String.toList_ofList]
          exact Text.trim_isInfix line.text

namespace Draft

theorem regular_of_pathAt {place : Span} {s : List Char} {path : Path}
    (h : pathAt place s = .ok path) : path.Regular :=
  Path.regular_of_ofChars? (pathAt_eq_ok_iff.mp h)

theorem regular_of_readRemovals {place : Span} {rest : List Char} {edits : Edits}
    (h : readRemovals place rest = .ok edits) :
    edits.removals ≠ [] ∧ ∀ path ∈ edits.removals, path.Regular := by
  simp only [readRemovals] at h
  split at h
  · cases h
  · rename_i removals hr
    have hall := traverse_eq_ok_iff.mp hr
    have hpaths : removals ≠ [] ∧ ∀ path ∈ removals, path.Regular := by
      refine ⟨fun e => ?_, fun path hp => ?_⟩
      · rw [e, List.forall₂_nil_right_iff] at hall
        exact Text.pieces_ne_nil _ _ hall
      · obtain ⟨item, _, hi⟩ := exists_of_forall₂ hall hp
        exact regular_of_pathAt hi
    split at h
    · cases h
      exact hpaths
    · split at h
      · cases h
        exact hpaths
      · cases h

theorem regular_of_readEdits {place : Span} {opening : MixinOpening} {edits : Edits}
    (h : readEdits place opening = .ok edits) :
    (edits.removals ≠ [] ∨ edits.additions.isSome = true) ∧
      ∀ path ∈ edits.removals, path.Regular := by
  simp only [readEdits] at h
  split at h
  · obtain ⟨hne, hall⟩ := regular_of_readRemovals h
    exact ⟨.inl hne, hall⟩
  · cases h
    exact ⟨.inr rfl, by simp⟩

theorem ne_nil_of_block {first : Line} {rest : List Char} {more lines : List Line}
    {inline : Bool} (h : block first rest more inline = .ok lines) : lines ≠ [] := by
  simp only [block] at h
  split at h
  · cases h
  · split at h
    · cases h
    · rename_i hl
      cases h
      simpa using hl

theorem head_of_start {s : List Char} {path : Path} (hs : s.head?.any Identifier.isStart = true)
    (h : Path.ofChars? s = some path) : ∃ name, path.head? = some (.key name) := by
  cases s with
  | nil => cases hs
  | cons c s =>
    obtain ⟨piece, pieces, hp⟩ : ∃ p ps, Text.pieces '.' (c :: s) = (c :: p) :: ps := by
      have hc : c ≠ '.' := fun e => by subst e; simp [Identifier.isStart] at hs
      simp only [Text.pieces, hc, ↓reduceIte]
      split
      · exact ⟨[], [], rfl⟩
      · exact ⟨_, _, rfl⟩
    have hd : c.isDigit = false := by
      cases hd : c.isDigit with
      | false => rfl
      | true =>
        rw [List.head?_cons, Option.any_some, Identifier.isStart_of_isDigit hd] at hs
        cases hs
    rw [Path.ofChars?, hp] at h
    simp only [List.mapM_cons, Option.bind_eq_bind, Option.bind_eq_some_iff, Option.pure_def,
      Option.some.injEq] at h
    obtain ⟨segment, hseg, rest, -, rfl⟩ := h
    simp only [Segment.ofChars?, List.all_cons, hd, Bool.false_and, Bool.and_false,
      Bool.false_eq_true, ↓reduceIte] at hseg
    split at hseg
    · cases hseg
      exact ⟨_, rfl⟩
    · cases hseg

theorem edit_of_ofOpening {s : List Char} {opening : MixinOpening} {first : Line}
    {more : List Line} {inline : Bool} {draft : Draft}
    (ho : MixinOpening.ofChars? s = some opening)
    (h : ofOpening opening first more inline = .ok draft) :
    draft.base.Regular ∧ (∃ name, draft.base.head? = some (.key name)) ∧
      (draft.removals ≠ [] ∨ draft.additions ≠ []) ∧
      ∀ path ∈ draft.removals, path.Regular := by
  have hopens := MixinOpening.opens_of_ofChars? ho
  simp only [ofOpening] at h
  split at h
  · cases h
  · rename_i base hb
    have hbase := regular_of_pathAt hb
    have hstart := head_of_start hopens.start (pathAt_eq_ok_iff.mp hb)
    split at h
    · cases h
    · rename_i removals he
      obtain ⟨hedits, hall⟩ := regular_of_readEdits he
      split at h
      · cases h
        exact ⟨hbase, hstart, .inl (hedits.resolve_right (by simp)), hall⟩
      · cases h
    · rename_i removals rest he
      obtain ⟨-, hall⟩ := regular_of_readEdits he
      split at h
      · cases h
      · rename_i lines hl
        split at h
        · cases h
        · rename_i groups hg
          cases h
          exact ⟨hbase, hstart, .inr (Group.ne_nil_of_slots hg (ne_nil_of_block hl)), hall⟩

end Draft

section Readings

variable {first : Line} {more : List Line} {origin : Span} {inline : Bool} {t : Template}

def DrawnBelow (lines : List Line) : Prop :=
  ∀ group : Group, Line.Within group.lines lines → Line.weight group.lines < Line.weight lines →
    ∀ t, group.read = .ok t → t.Throughout (DrawnFrom lines)

theorem drawnFrom_array (hbelow : DrawnBelow (first :: more)) (hs : first.text.head? = some '*')
    (h : ofLines (first :: more) origin inline = .ok t) :
    t.Throughout (DrawnFrom (first :: more)) := by
  obtain ⟨groups, items, hg, hi, rfl⟩ := (ofLines_array hs).mp h
  refine .intro trivial fun part hp => ?_
  obtain ⟨group, hm, hr⟩ := exists_of_forall₂ hi hp
  exact hbelow group (Group.within_of_mem_bullets hg hm) (Group.weight_lt_of_mem_bullets hg hm)
    part hr

theorem drawnFrom_object (hbelow : DrawnBelow (first :: more)) (hs : first.text.head? ≠ some '*')
    (hk : isKeyLine first.text = true) (h : ofLines (first :: more) origin inline = .ok t) :
    t.Throughout (DrawnFrom (first :: more)) := by
  obtain ⟨groups, entries, hg, he, rfl⟩ := (ofLines_object hs hk).mp h
  have hread : ∀ entry ∈ Fields.ofList entries, ∃ group ∈ groups,
      String.ofList group.name = entry.1 ∧ group.read = .ok entry.2.value := by
    intro entry hm
    obtain ⟨group, hgm, hr⟩ := exists_of_forall₂ he (Fields.mem_of_mem_ofList hm)
    obtain ⟨hname, -, hvalue⟩ := Group.readEntry_eq_ok_iff.mp hr
    exact ⟨group, hgm, hname, hvalue⟩
  refine .intro ⟨Fields.sorted_ofList entries, fun entry hm => ?_⟩ fun part hp => ?_
  · obtain ⟨group, hgm, hname, -⟩ := hread entry hm
    obtain ⟨s, opening, ho, hoe⟩ := Group.exists_opening_of_mem_slots hg hgm
    rw [← hname, String.toList_ofList, ← hoe]
    exact Opening.isValid_of_key? ho
  · obtain ⟨entry, hm, rfl⟩ := List.mem_map.mp hp
    obtain ⟨group, hgm, -, hr⟩ := hread entry hm
    exact hbelow group (Group.within_of_mem_slots (fun _ _ => Opening.suffix_key?) hg hgm)
      (Group.weight_lt_of_mem_slots (fun _ _ => Opening.length_key?) hg hgm) _ hr

theorem drawnFrom_mixin (hbelow : DrawnBelow (first :: more)) (hs : first.text.head? ≠ some '*')
    (hk : isKeyLine first.text = false) {opening : MixinOpening}
    (ho : MixinOpening.ofChars? first.text = some opening)
    (h : ofLines (first :: more) origin inline = .ok t) :
    t.Throughout (DrawnFrom (first :: more)) := by
  obtain ⟨draft, additions, hd, ha, rfl⟩ := (ofLines_mixin hs hk ho).mp h
  obtain ⟨hbase, hstart, hedits, hremovals⟩ := Draft.edit_of_ofOpening ho hd
  have hread : ∀ addition ∈ additions, ∃ group ∈ draft.additions,
      addition.1.Regular ∧ group.read = .ok addition.2.value := by
    intro addition hm
    obtain ⟨group, hgm, hr⟩ := exists_of_forall₂ ha hm
    obtain ⟨hpath, -, hvalue⟩ := Group.readAddition_eq_ok_iff.mp hr
    exact ⟨group, hgm, Path.regular_of_ofChars? hpath, hvalue⟩
  have hadditions : additions ≠ [] ↔ draft.additions ≠ [] := by
    rw [Ne, Ne, ← List.length_eq_zero_iff, ← ha.length_eq, List.length_eq_zero_iff]
  have hpaths : ∀ path ∈ additions.map Prod.fst, path.Regular := by
    intro path hp
    obtain ⟨addition, hm, rfl⟩ := List.mem_map.mp hp
    obtain ⟨_, _, hregular, -⟩ := hread addition hm
    exact hregular
  refine .intro (drawnFrom_mixin_iff.mpr ⟨hbase, hstart, hedits.imp_right fun hne => ?_, hremovals,
    hpaths⟩) fun part hp => ?_
  · simpa using hadditions.mpr hne
  · obtain ⟨addition, hm, rfl⟩ := List.mem_map.mp hp
    obtain ⟨group, hgm, -, hr⟩ := hread addition hm
    exact hbelow group (Draft.within_of_mem_additions ho hd hgm)
      (Draft.weight_lt_of_mem_additions ho hd hgm) _ hr

theorem drawnFrom_single (hs : first.text.head? ≠ some '*') (hk : isKeyLine first.text = false)
    (ho : MixinOpening.ofChars? first.text = none)
    (h : ofLines (first :: more) origin inline = .ok t) :
    t.Throughout (DrawnFrom (first :: more)) := by
  obtain ⟨rfl, hl⟩ := (ofLines_single hs hk ho).mp h
  obtain rfl | rfl | ⟨source, rfl, hsource⟩ := ofLine_eq_ok hl
  · exact .intro ⟨List.Pairwise.nil, by simp⟩ (by simp [parts])
  · exact .intro trivial (by simp [parts])
  · exact .intro hsource (by simp [parts])

end Readings

/-- A template is drawn from the lines that it is read from, whatever the lines are. -/
theorem drawnFrom_of_ofLines {lines : List Line} {origin : Span} {inline : Bool} {t : Template}
    (h : ofLines lines origin inline = .ok t) : t.Throughout (DrawnFrom lines) := by
  cases lines with
  | nil =>
    rw [ofLines] at h
    cases h
  | cons first more =>
    have hbelow : DrawnBelow (first :: more) := fun group hwithin _ part hr =>
      (drawnFrom_of_ofLines hr).mono fun _ hpart => hpart.mono hwithin
    cases lead first.text with
    | bullet hs => exact drawnFrom_array hbelow hs h
    | key hs hk => exact drawnFrom_object hbelow hs hk h
    | mixin hs hk ho => exact drawnFrom_mixin hbelow hs hk ho h
    | other hs hk ho => exact drawnFrom_single hs hk ho h
termination_by Line.weight lines

theorem wellFormed_of_ofLines {lines : List Line} {origin : Span} {inline : Bool} {t : Template}
    (hn : ∀ line ∈ lines, '\n' ∉ line.text) (h : ofLines lines origin inline = .ok t) :
    t.WellFormed :=
  (drawnFrom_of_ofLines h).mono fun _ hpart => hpart.regular hn

/-- At every depth of the template that a block is read as, expressions are cut out of its lines,
keys are identifiers, and mixins edit something, at paths that read back as they are written. -/
theorem ofBlock_drawn {lines : List Line} {origin : Span} {t : Template}
    (h : ofBlock lines origin = .ok t) : t.Throughout (DrawnFrom lines) := drawnFrom_of_ofLines h

/-- An index that is padded is read as the one that is written without padding. -/
theorem ofBlock_drawn_of_padded :
    let lines : List Line := [⟨4, "u with 01: x".toList⟩]
    let t := mixin [.key "u"] [] [([.index 1], ⟨false, expression "x"⟩)]
    ofBlock lines ⟨4, 5⟩ = .ok t ∧ t.Throughout (DrawnFrom lines) := by
  intro lines t
  let opening : MixinOpening := ⟨"u".toList, false, " 01: x".toList⟩
  let addition : Group := ⟨"01".toList, false, Span.line 4, true, [⟨4, "x".toList⟩]⟩
  have hslots : Group.slots Opening.path? [] [⟨4, "01: x".toList⟩] = .ok [addition] := by
    have hpath : Opening.path? "01: x".toList = some ⟨"01".toList, false, "x".toList⟩ := rfl
    simp only [Group.slots, hpath, List.lookup_nil, Group.beyond, List.dropWhile_nil]
    rfl
  have hdraft : Draft.ofOpening opening ⟨4, "u with 01: x".toList⟩ [] false =
      .ok ⟨[.key "u"], [], [addition]⟩ := by
    have hbase : Draft.pathAt (Span.line 4) opening.base = .ok [.key "u"] := rfl
    have hedits : Draft.readEdits (Span.line 4) opening = .ok ⟨[], some "01: x".toList⟩ := rfl
    have hblock : Draft.block ⟨4, "u with 01: x".toList⟩ "01: x".toList [] false =
        .ok [⟨4, "01: x".toList⟩] := rfl
    simp only [Draft.ofOpening, Line.span, hbase, hedits, hblock, hslots]
  have hvalue : addition.read = .ok (expression "x") :=
    (ofLines_single (by decide) (by decide) rfl).mpr ⟨rfl, rfl⟩
  have hread : ofBlock lines ⟨4, 5⟩ = .ok t :=
    (ofLines_mixin (by decide) (by decide) rfl).mpr ⟨_, _, hdraft,
      .cons (Group.readAddition_eq_ok_iff.mpr ⟨rfl, rfl, hvalue⟩) .nil, rfl⟩
  exact ⟨hread, ofBlock_drawn hread⟩

end ApiContract.Template
