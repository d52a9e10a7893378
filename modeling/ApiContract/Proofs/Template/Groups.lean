import Mathlib.Data.List.Basic
import ApiContract.Proofs.Text.Ends
import ApiContract.Template.Draft

namespace ApiContract

def Line.Within (inner outer : List Line) : Prop :=
  ∀ line ∈ inner, ∃ whole ∈ outer, line.text <:+: whole.text

namespace Line

variable {a b c : List Line}

theorem Within.of_subset (h : a ⊆ b) : Within a b := fun line hl => ⟨line, h hl, List.infix_rfl⟩

theorem Within.trans (hab : Within a b) (hbc : Within b c) : Within a c := by
  intro line hl
  obtain ⟨middle, hm, hi⟩ := hab line hl
  obtain ⟨whole, hw, hj⟩ := hbc middle hm
  exact ⟨whole, hw, hi.trans hj⟩

theorem Within.append (ha : Within a c) (hb : Within b c) : Within (a ++ b) c := fun line hl =>
  (List.mem_append.mp hl).elim (ha line) (hb line)

theorem within_map_dedent (lines : List Line) : Within (lines.map dedent) lines := by
  intro line hl
  obtain ⟨whole, hw, rfl⟩ := List.mem_map.mp hl
  exact ⟨whole, hw, (List.drop_suffix 1 whole.text).isInfix⟩

end Line

namespace Template

namespace Opening

theorem suffix_takeOptional (s : List Char) : (takeOptional s).2 <:+ s := by
  unfold takeOptional
  split
  · exact List.suffix_cons _ _
  · exact List.suffix_rfl

theorem suffix_afterColon? {s rest : List Char} (h : afterColon? s = some rest) : rest <:+ s := by
  unfold afterColon? at h
  split at h
  · cases h
    exact List.nil_suffix
  · rename_i c s
    simp only at h
    split at h
    · cases h
      exact (List.dropWhile_suffix isGap).trans
        ((List.suffix_cons c s).trans (List.suffix_cons _ _))
    · cases h
  · cases h

theorem behind?_eq_some {name s : List Char} {opening : Opening}
    (h : behind? name s = some opening) : opening.name = name ∧ opening.rest <:+ s := by
  obtain ⟨rest, hr, rfl⟩ := Option.map_eq_some_iff.mp h
  exact ⟨rfl, (suffix_afterColon? hr).trans (suffix_takeOptional s)⟩

theorem suffix_key? {s : List Char} {opening : Opening} (h : key? s = some opening) :
    opening.rest <:+ s := by
  obtain ⟨⟨name, rest⟩, ht, hb⟩ := Option.bind_eq_some_iff.mp h
  have hs : rest <:+ s := ⟨name, Identifier.append_of_take? ht⟩
  exact (behind?_eq_some hb).2.trans hs

theorem isValid_of_key? {s : List Char} {opening : Opening} (h : key? s = some opening) :
    Identifier.isValid opening.name = true := by
  obtain ⟨⟨name, rest⟩, ht, hb⟩ := Option.bind_eq_some_iff.mp h
  rw [(behind?_eq_some hb).1]
  exact Identifier.isValid_of_take? ht

theorem takePath?_eq_some {s path rest : List Char} (h : takePath? s = some (path, rest)) :
    path ++ rest = s ∧ (Text.pieces '.' path).all isStep = true := by
  simp only [takePath?] at h
  split at h
  · rename_i hp
    cases h
    exact ⟨List.takeWhile_append_dropWhile, hp⟩
  · cases h

theorem suffix_path? {s : List Char} {opening : Opening} (h : path? s = some opening) :
    opening.rest <:+ s := by
  obtain ⟨⟨name, rest⟩, ht, hb⟩ := Option.bind_eq_some_iff.mp h
  have hs : rest <:+ s := ⟨name, (takePath?_eq_some ht).1⟩
  exact (behind?_eq_some hb).2.trans hs

end Opening

namespace Group

theorem within_ofOpening {opening : Opening} {line : Line} (h : opening.rest <:+ line.text)
    (lines : List Line) :
    Line.Within (ofOpening opening line (below lines)).lines (line :: lines) := by
  have hb : below lines ⊆ line :: lines := fun l hl =>
    List.mem_cons_of_mem _ (List.takeWhile_subset _ hl)
  refine Line.Within.append (fun l hl => ?_)
    ((Line.within_map_dedent _).trans (Line.Within.of_subset hb))
  split at hl
  · obtain rfl := List.mem_singleton.mp hl
    exact ⟨line, by simp, h.isInfix⟩
  · cases hl

theorem within_beyond (line : Line) (lines : List Line) :
    Line.Within (beyond lines) (line :: lines) :=
  Line.Within.of_subset fun _ hl =>
    List.mem_cons_of_mem _ ((List.dropWhile_sublist Line.isIndented).subset hl)

theorem within_of_mem_bullets {lines : List Line} {groups : List Group}
    (h : bullets lines = .ok groups) {group : Group} (hg : group ∈ groups) :
    Line.Within group.lines lines := by
  fun_induction bullets lines generalizing groups with
  | case1 =>
    cases h
    cases hg
  | case3 line lines rest hl gs _ ih =>
    have hs : rest <:+ line.text := hl ▸ (List.suffix_cons _ _).trans (List.suffix_cons _ _)
    cases h
    rcases List.mem_cons.mp hg with rfl | hg
    · exact within_ofOpening hs lines
    · exact (ih ‹_› hg).trans (within_beyond line lines)
  | _ => cases h

variable {opening? : List Char → Option Opening} {seen : List (List Char × Span)}
  {lines : List Line} {groups : List Group}

theorem within_of_mem_slots (hs : ∀ s o, opening? s = some o → o.rest <:+ s)
    (h : slots opening? seen lines = .ok groups) {group : Group} (hg : group ∈ groups) :
    Line.Within group.lines lines := by
  fun_induction slots opening? seen lines generalizing groups with
  | case1 =>
    cases h
    cases hg
  | case6 seen line lines opening hl _ gs _ ih =>
    cases h
    rcases List.mem_cons.mp hg with rfl | hg
    · exact within_ofOpening (hs _ _ hl) lines
    · exact (ih ‹_› hg).trans (within_beyond line lines)
  | _ => cases h

theorem exists_opening_of_mem_slots (h : slots opening? seen lines = .ok groups) {group : Group}
    (hg : group ∈ groups) : ∃ s opening, opening? s = some opening ∧ opening.name = group.name := by
  fun_induction slots opening? seen lines generalizing groups with
  | case1 =>
    cases h
    cases hg
  | case6 seen line lines opening hl _ gs _ ih =>
    cases h
    rcases List.mem_cons.mp hg with rfl | hg
    · exact ⟨line.text, opening, hl, rfl⟩
    · exact ih ‹_› hg
  | _ => cases h

theorem ne_nil_of_slots (h : slots opening? seen lines = .ok groups) (hl : lines ≠ []) :
    groups ≠ [] := by
  fun_induction slots opening? seen lines with
  | case1 => exact absurd rfl hl
  | case6 =>
    cases h
    exact List.cons_ne_nil _ _
  | _ => cases h

end Group

namespace MixinOpening

theorem suffix_word? {word s rest : List Char} (h : word? word s = some rest) : rest <:+ s := by
  unfold word? at h
  split at h
  · rename_i hs
    split at h
    · cases h
    · cases h
      exact ⟨word, Text.append_of_strip? hs⟩
  · exact ⟨word, Text.append_of_strip? h⟩

theorem suffix_keyword? {s rest : List Char} {without : Bool}
    (h : keyword? s = some (without, rest)) : rest <:+ s := by
  simp only [keyword?] at h
  split at h
  · rename_i hw
    cases h
    exact suffix_word? hw
  · obtain ⟨tail, ht, he⟩ := Option.map_eq_some_iff.mp h
    cases he
    exact suffix_word? ht

structure Opens (s : List Char) (opening : MixinOpening) : Prop where
  base_isPrefix : opening.base <+: s
  rest_suffix : opening.rest <:+ s
  steps : (Text.pieces '.' opening.base).all Opening.isStep = true
  start : opening.base.head?.any Identifier.isStart = true
  newline : '\n' ∉ opening.rest

theorem opens_of_ofChars? {s : List Char} {opening : MixinOpening}
    (h : ofChars? s = some opening) : Opens s opening := by
  simp only [ofChars?] at h
  split at h
  · cases h
  · rename_i base rest ht
    obtain ⟨ha, hsteps⟩ := Opening.takePath?_eq_some ht
    have hrest : rest <:+ s := ⟨base, ha⟩
    split at h
    · cases h
    · rename_i hstart
      simp only [Bool.not_eq_true, Bool.not_eq_false', Bool.and_eq_true] at hstart
      split at h
      · cases h
      · rename_i without tail hk
        split at h
        · cases h
        · rename_i hn
          cases h
          exact {
            base_isPrefix := ⟨rest, ha⟩
            rest_suffix :=
              (suffix_keyword? hk).trans ((List.dropWhile_suffix Text.isBlank).trans hrest)
            steps := hsteps
            start := hstart.1
            newline := by simpa using hn }

end MixinOpening

namespace Draft

theorem within_dedented {lines block : List Line} (h : dedented lines = .ok block) :
    Line.Within block lines := by
  fun_induction dedented lines generalizing block with
  | case1 =>
    cases h
    exact Line.Within.of_subset (List.Subset.refl _)
  | case3 line lines _ b _ ih =>
    cases h
    intro l hl
    rcases List.mem_cons.mp hl with rfl | hl
    · exact ⟨line, by simp, (List.drop_suffix 1 line.text).isInfix⟩
    · exact (ih ‹_›).trans (Line.Within.of_subset (List.subset_cons_self _ _)) l hl
  | _ => cases h

theorem within_block {first : Line} {rest : List Char} {more lines : List Line} {inline : Bool}
    (h : block first rest more inline = .ok lines) (hr : rest <:+: first.text) :
    Line.Within lines (first :: more) := by
  have hmore : Line.Within more (first :: more) :=
    Line.Within.of_subset (List.subset_cons_self _ _)
  simp only [block] at h
  split at h
  · cases h
  · rename_i below hb
    have hbelow : Line.Within below (first :: more) := by
      cases inline
      · exact (within_dedented hb).trans hmore
      · cases hb
        exact hmore
    split at h
    · cases h
    · cases h
      refine Line.Within.append (fun line hl => ?_) hbelow
      unfold beside at hl
      split at hl
      · cases hl
      · obtain rfl := List.mem_singleton.mp hl
        exact ⟨first, List.mem_cons_self .., hr⟩

theorem infix_of_cutFirst {sep : Char} {s before after : List Char}
    (h : Text.cutFirst sep s = some (before, after)) : after <:+: s := by
  induction s generalizing before with
  | nil => cases h
  | cons c s ih =>
    simp only [Text.cutFirst] at h
    split at h
    · cases h
      exact (List.suffix_cons _ _).isInfix
    · obtain ⟨⟨b, a⟩, hc, he⟩ := Option.map_eq_some_iff.mp h
      cases he
      exact (ih hc).trans (List.suffix_cons _ _).isInfix

theorem infix_of_readEdits {place : Span} {opening : MixinOpening} {removals : List Path}
    {first : List Char} (h : readEdits place opening = .ok ⟨removals, some first⟩) :
    first <:+: opening.rest := by
  have ht := Text.trim_isInfix opening.rest
  simp only [readEdits] at h
  split at h
  · simp only [readRemovals] at h
    have hcut : ((Text.cutFirst ';' (Text.trim opening.rest)).getD
        (Text.trim opening.rest, [])).2 <:+: Text.trim opening.rest := by
      cases hc : Text.cutFirst ';' (Text.trim opening.rest) with
      | none => exact List.nil_infix
      | some p => exact @infix_of_cutFirst _ _ p.1 p.2 hc
    split at h
    · cases h
    · split at h
      · cases h
      · split at h
        · rename_i tail hw
          cases h
          exact (Text.trim_isInfix tail).trans ((MixinOpening.suffix_word? hw).isInfix.trans
            ((Text.trim_isInfix _).trans (hcut.trans ht)))
        · cases h
  · cases h
    exact ht

theorem within_of_mem_additions {opening : MixinOpening} {first : Line} {more : List Line}
    {inline : Bool} {draft : Draft} (ho : MixinOpening.ofChars? first.text = some opening)
    (h : ofOpening opening first more inline = .ok draft) {group : Group}
    (hg : group ∈ draft.additions) : Line.Within group.lines (first :: more) := by
  simp only [ofOpening] at h
  split at h
  · cases h
  · split at h
    · cases h
    · split at h
      · cases h
        cases hg
      · cases h
    · rename_i removals rest he
      have hrest : rest <:+: first.text :=
        (infix_of_readEdits he).trans (MixinOpening.opens_of_ofChars? ho).rest_suffix.isInfix
      split at h
      · cases h
      · rename_i lines hl
        split at h
        · cases h
        · rename_i groups hs
          cases h
          exact (Group.within_of_mem_slots (fun _ _ => Opening.suffix_path?) hs hg).trans
            (within_block hl hrest)

end Draft

end Template

end ApiContract
