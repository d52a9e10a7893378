import Mathlib.Data.List.Chain
import ApiContract.Proofs.Source.Places

namespace ApiContract

theorem Span.covers_iff {span : Span} {n : Nat} :
    span.covers n = true ↔ span.start ≤ n ∧ n < span.stop := by
  simp [covers]

namespace Line

def Heads (line : Line) (level : Nat) (text : List Char) : Prop :=
  ∃ rest, line.text = List.replicate level '#' ++ rest ∧ 0 < level ∧ rest.head? ≠ some '#' ∧
    text = Text.trim rest

/-- Indented lines next to each other, with no indented line right before or behind them. -/
structure IsRun (lines run : List Line) : Prop where
  ne_nil : run ≠ []
  indented : ∀ line ∈ run, line.isIndented = true
  stands : ∃ before after, lines = before ++ (run ++ after) ∧
    (∀ line ∈ before.getLast?, line.isIndented = false) ∧
    ∀ line ∈ after.head?, line.isIndented = false

abbrev Consecutive (lines : List Line) : Prop :=
  lines.IsChain fun line next => next.number = line.number + 1

variable {line first : Line} {lines run other before after more : List Line} {level level' : Nat}
  {text text' : List Char}

theorem Heads.head? (h : line.Heads level text) : line.text.head? = some '#' := by
  obtain ⟨rest, hline, hlevel, -, -⟩ := h
  obtain ⟨n, rfl⟩ := Nat.exists_eq_add_one_of_ne_zero (Nat.ne_of_gt hlevel)
  rw [hline, List.replicate_succ]
  rfl

theorem Heads.eq_takeWhile (h : line.Heads level text) :
    level = (line.text.takeWhile (· == '#')).length ∧ text = Text.trim (line.text.drop level) := by
  obtain ⟨rest, hline, -, hrest, htext⟩ := h
  have hmarks : ∀ c ∈ List.replicate level '#', (c == '#') = true := by
    intro c hc
    rw [List.eq_of_mem_replicate hc]
    rfl
  have hends : ∀ c ∈ rest.head?, (c == '#') = false := by
    intro c hc
    apply beq_false_of_ne
    rintro rfl
    exact hrest hc
  have hlength : (List.replicate level '#').length = level := List.length_replicate
  obtain ⟨htake, -⟩ := Text.takeWhile_append_of_head hmarks hends
  rw [hline, htake, List.drop_left' hlength]
  exact ⟨hlength.symm, htext⟩

theorem heads_takeWhile (h : line.text.head? = some '#') :
    line.Heads (line.text.takeWhile (· == '#')).length
      (Text.trim (line.text.drop (line.text.takeWhile (· == '#')).length)) := by
  have hmarks : line.text.takeWhile (· == '#') =
      List.replicate (line.text.takeWhile (· == '#')).length '#' := by
    apply List.eq_replicate_of_mem
    intro c hc
    have hmark := List.mem_takeWhile_imp (p := (· == '#')) hc
    exact beq_iff_eq.mp hmark
  refine ⟨line.text.dropWhile (· == '#'), ?_, ?_, ?_, ?_⟩
  · rw [← hmarks, List.takeWhile_append_dropWhile]
  · obtain ⟨rest, hline⟩ := List.head?_eq_some_iff.mp h
    simp [hline]
  · intro hhead
    have hnot := List.head?_dropWhile_not (· == '#') line.text
    rw [hhead] at hnot
    simp at hnot
  · congr 1
    have hsplit : line.text.takeWhile (· == '#') ++ line.text.dropWhile (· == '#') = line.text :=
      List.takeWhile_append_dropWhile
    have hdrop := congrArg (List.drop (line.text.takeWhile (· == '#')).length) hsplit
    rw [List.drop_left] at hdrop
    exact hdrop.symm

theorem isIndented_of_head? {c : Char} (h : line.text.head? = some c) (hc : c ≠ '\t') :
    line.isIndented = false := by
  rw [isIndented, h]
  simpa using hc

theorem IsRun.exists_head (h : IsRun lines run) : ∃ line more, run = line :: more ∧
    line.isIndented = true := by
  obtain ⟨line, more, rfl⟩ := List.exists_cons_of_ne_nil h.ne_nil
  exact ⟨line, more, rfl, h.indented line List.mem_cons_self⟩

theorem not_isRun_nil : ¬ IsRun [] run := by
  rintro ⟨hne, -, before, after, hlines, -, -⟩
  simp [hne] at hlines

theorem isRun_cons_iff (hline : line.isIndented = false) :
    IsRun (line :: lines) run ↔ IsRun lines run := by
  constructor
  · intro h
    obtain ⟨first, more, rfl, hfirst⟩ := h.exists_head
    obtain ⟨hne, hindented, before, after, hlines, hbefore, hafter⟩ := h
    cases before with
    | nil =>
      obtain ⟨rfl, -⟩ := List.cons.inj hlines
      rw [hline] at hfirst
      cases hfirst
    | cons other before =>
      obtain ⟨rfl, hrest⟩ := List.cons.inj hlines
      refine ⟨hne, hindented, before, after, hrest, ?_, hafter⟩
      intro last hlast
      apply hbefore
      rw [List.getLast?_cons, Option.mem_def.mp hlast]
      rfl
  · rintro ⟨hne, hindented, before, after, rfl, hbefore, hafter⟩
    refine ⟨hne, hindented, line :: before, after, rfl, ?_, hafter⟩
    intro last hlast
    cases hback : before.getLast? with
    | none =>
      rw [List.getLast?_cons, hback] at hlast
      cases hlast
      exact hline
    | some back =>
      rw [List.getLast?_cons, hback] at hlast
      cases hlast
      exact hbefore back hback

/-- The runs of lines that start with a run are this one and those behind it. -/
theorem isRun_append_iff (hne : run ≠ []) (hrun : ∀ line ∈ run, line.isIndented = true)
    (hends : ∀ line ∈ after.head?, line.isIndented = false) :
    IsRun (run ++ after) other ↔ other = run ∨ IsRun after other := by
  -- the last line of a run is indented
  have hlast : ∀ {front : List Line}, front ≠ [] → (∀ line ∈ front, line.isIndented = true) →
      ¬ ∀ line ∈ front.getLast?, line.isIndented = false := by
    intro front hfront hall hnone
    have hmem := List.getLast_mem hfront
    have hback := hnone _ (List.getLast?_eq_some_getLast hfront)
    rw [hall _ hmem] at hback
    cases hback
  constructor
  · rintro ⟨hother, hindented, before, rest, hlines, hbefore, hrest⟩
    obtain ⟨gap, hgap, hafter⟩ | ⟨gap, hgap, hafter⟩ := List.append_eq_append_iff.mp hlines
    · right
      refine ⟨hother, hindented, gap, rest, hafter, ?_, hrest⟩
      intro last hback
      apply hbefore
      rw [hgap, List.getLast?_append, Option.mem_def.mp hback]
      rfl
    · left
      cases before with
      | nil =>
        rw [List.nil_append] at hgap
        obtain ⟨htake, -⟩ := Text.takeWhile_append_of_head hrun hends
        obtain ⟨htake', -⟩ := Text.takeWhile_append_of_head hindented hrest
        rw [← htake, ← htake', hafter, hgap]
      | cons line before =>
        apply absurd hbefore
        apply hlast (List.cons_ne_nil line before)
        intro line hline
        exact hrun line (hgap ▸ List.mem_append_left gap hline)
  · rintro (rfl | h)
    · exact ⟨hne, hrun, [], after, rfl, nofun, hends⟩
    · obtain ⟨first, more, rfl, hfirst⟩ := h.exists_head
      obtain ⟨hother, hindented, before, rest, rfl, hbefore, hrest⟩ := h
      have hgap : before ≠ [] := by
        rintro rfl
        have hback := hends first rfl
        rw [hfirst] at hback
        cases hback
      refine ⟨hother, hindented, run ++ before, rest, (List.append_assoc ..).symm, ?_, hrest⟩
      intro last hback
      apply hbefore
      rwa [List.getLast?_append_of_ne_nil _ hgap] at hback

theorem consecutive_numbered (start : Nat) (rows : List (List Char)) :
    Consecutive (numbered start rows) := by
  induction rows generalizing start with
  | nil => exact .nil
  | cons row rows ih =>
    cases rows with
    | nil => exact .singleton _
    | cons next rows => exact .cons_cons rfl (ih (start + 1))

theorem covers_spanOf_iff (h : Consecutive (first :: more)) {n : Nat} :
    (spanOf first more).covers n = true ↔ ∃ line ∈ first :: more, line.number = n := by
  induction more generalizing first n with
  | nil =>
    simp only [Span.covers_iff, spanOf, List.getLast?_nil, Option.getD_none, List.mem_singleton,
      exists_eq_left]
    omega
  | cons next more ih =>
    obtain ⟨hnext, hmore⟩ := List.isChain_cons_cons.mp h
    have hlast : (spanOf first (next :: more)).stop = (spanOf next more).stop := by
      simp only [spanOf, List.getLast?_cons, Option.getD_some]
    have hstep : (spanOf first (next :: more)).covers n = true ↔
        first.number = n ∨ (spanOf next more).covers n = true := by
      have hlt : next.number < (spanOf next more).stop := by
        have hcovers := (ih hmore (n := next.number)).mpr ⟨next, List.mem_cons_self, rfl⟩
        exact (Span.covers_iff.mp hcovers).2
      have hstart : (spanOf first (next :: more)).start = first.number := rfl
      have hstart' : (spanOf next more).start = next.number := rfl
      simp only [Span.covers_iff, hlast, hstart, hstart']
      omega
    rw [hstep, ih hmore]
    simp only [List.exists_mem_cons_iff]

def Contributes (line : Line) : Prop := line.text.head? = some '#' ∨ line.isIndented = true

instance (line : Line) : Decidable line.Contributes := inferInstanceAs (Decidable (_ ∨ _))

end Line

namespace Token

/-- A token over lines of a source. That of a heading stands on its line. That of a block has the
lines of a whole run, each without its tab, and covers this run. -/
def Tile (lines : List Line) : Token → Prop
  | heading level text span => ∃ line ∈ lines, line.Heads level text ∧ span = line.span
  | block first more => ∃ run, Line.IsRun lines run ∧ first :: more = run.map Line.dedent ∧
    ∀ n, (Line.spanOf first more).covers n = true ↔ ∃ line ∈ run, line.number = n

/-- Lines with the tokens over them, from the first line to the last. -/
inductive Laid : List Line → List Token → Prop
  | nil : Laid [] []
  | prose {line : Line} {lines : List Line} {tokens : List Token} (silent : ¬ line.Contributes)
    (rest : Laid lines tokens) : Laid (line :: lines) tokens
  | heading {line : Line} {lines : List Line} {tokens : List Token} {level : Nat} {text : List Char}
    (heads : line.Heads level text) (rest : Laid lines tokens) :
    Laid (line :: lines) (.heading level text line.span :: tokens)
  | block {run after : List Line} {first : Line} {more : List Line} {tokens : List Token}
    (indented : ∀ line ∈ run, line.isIndented = true)
    (ends : ∀ line ∈ after.head?, line.isIndented = false)
    (content : run.map Line.dedent = first :: more) (rest : Laid after tokens) :
    Laid (run ++ after) (.block first more :: tokens)

variable {line first : Line} {lines run after more : List Line} {level n : Nat} {text : List Char}
  {token : Token} {tokens : List Token}

theorem tile_prose_iff (h : ¬ line.Contributes) :
    token.Tile (line :: lines) ↔ token.Tile lines := by
  obtain ⟨hmark, hindented⟩ := not_or.mp h
  cases token with
  | heading level text span =>
    simp only [Tile, List.exists_mem_cons_iff, or_iff_right_iff_imp]
    rintro ⟨hheads, -⟩
    exact absurd hheads.head? hmark
  | block first more => simp only [Tile, Line.isRun_cons_iff (Bool.eq_false_iff.mpr hindented)]

theorem tile_heading_iff (h : line.Heads level text) :
    token.Tile (line :: lines) ↔ token = heading level text line.span ∨ token.Tile lines := by
  cases token with
  | heading level' text' span =>
    simp only [Tile, List.exists_mem_cons_iff, heading.injEq]
    apply or_congr_left
    constructor
    · rintro ⟨hheads, hspan⟩
      obtain ⟨hlevel, htext⟩ := h.eq_takeWhile
      obtain ⟨hlevel', htext'⟩ := hheads.eq_takeWhile
      have hsame : level' = level := hlevel'.trans hlevel.symm
      refine ⟨hsame, ?_, hspan⟩
      rw [htext', htext, hsame]
    · rintro ⟨rfl, rfl, rfl⟩
      exact ⟨h, rfl⟩
  | block first more =>
    have hindented : line.isIndented = false := Line.isIndented_of_head? h.head? (by decide)
    simp [Tile, Line.isRun_cons_iff hindented]

theorem covers_block_iff (hcontent : run.map Line.dedent = first :: more)
    (hnumbers : Line.Consecutive run) :
    (block first more).span.covers n = true ↔ ∃ line ∈ run, line.number = n := by
  have hdedented : Line.Consecutive (first :: more) := by
    rw [← hcontent]
    exact (List.isChain_map Line.dedent).mpr hnumbers
  rw [Token.span, Line.covers_spanOf_iff hdedented, ← hcontent]
  simp [Line.dedent]

theorem covers_line_iff :
    (heading level text line.span).span.covers n = true ↔ line.number = n := by
  simp only [Token.span, Line.span, Span.line, Span.covers_iff]
  omega

theorem tile_block_iff (hindented : ∀ line ∈ run, line.isIndented = true)
    (hends : ∀ line ∈ after.head?, line.isIndented = false)
    (hcontent : run.map Line.dedent = first :: more) (hnumbers : Line.Consecutive run) :
    token.Tile (run ++ after) ↔ token = block first more ∨ token.Tile after := by
  have hne : run ≠ [] := by
    rintro rfl
    cases hcontent
  cases token with
  | heading level text span =>
    simp only [Tile, List.mem_append, or_and_right, exists_or, reduceCtorEq, false_or,
      or_iff_right_iff_imp]
    rintro ⟨line, hline, hheads, -⟩
    have hnot := Line.isIndented_of_head? hheads.head? (by decide)
    rw [hindented line hline] at hnot
    cases hnot
  | block first' more' =>
    simp only [Tile, Line.isRun_append_iff hne hindented hends, or_and_right, exists_or,
      exists_eq_left, block.injEq]
    apply or_congr_left
    rw [hcontent, List.cons.injEq]
    constructor
    · exact And.left
    · rintro ⟨rfl, rfl⟩
      exact ⟨⟨rfl, rfl⟩, fun n => covers_block_iff hcontent hnumbers⟩

theorem Tile.exists_line (h : token.Tile lines) (hn : token.span.covers n = true) :
    ∃ line ∈ lines, line.number = n ∧ line.Contributes := by
  cases token with
  | heading level text span =>
    obtain ⟨line, hline, hheads, rfl⟩ := h
    refine ⟨line, hline, ?_, .inl hheads.head?⟩
    simp only [Token.span, Line.span, Span.line, Span.covers_iff] at hn
    omega
  | block first more =>
    obtain ⟨run, ⟨-, hindented, before, after, rfl, -, -⟩, -, hcovers⟩ := h
    obtain ⟨line, hline, hnumber⟩ := (hcovers n).mp hn
    exact ⟨line, by simp [hline], hnumber, .inr (hindented line hline)⟩

theorem Tile.nonempty (h : token.Tile lines) : token.span.start < token.span.stop := by
  cases token with
  | heading level text span =>
    obtain ⟨line, -, -, rfl⟩ := h
    exact Nat.lt_succ_self _
  | block first more =>
    obtain ⟨run, hrun, -, hcovers⟩ := h
    obtain ⟨line, rest, rfl, -⟩ := hrun.exists_head
    have hfirst := (hcovers line.number).mpr ⟨line, List.mem_cons_self, rfl⟩
    obtain ⟨hstart, hstop⟩ := Span.covers_iff.mp hfirst
    exact Nat.lt_of_le_of_lt hstart hstop

theorem covers_start (h : token.span.start < token.span.stop) :
    token.span.covers token.span.start = true :=
  Span.covers_iff.mpr ⟨Nat.le_refl _, h⟩

theorem Laid.mem_iff (h : Laid lines tokens) (hnumbers : Line.Consecutive lines) :
    token ∈ tokens ↔ token.Tile lines := by
  induction h with
  | nil =>
    cases token with
    | heading => simp [Tile]
    | block => simp [Tile, Line.not_isRun_nil]
  | prose silent _ ih => rw [tile_prose_iff silent, ih hnumbers.tail]
  | heading heads _ ih => rw [tile_heading_iff heads, List.mem_cons, ih hnumbers.tail]
  | block indented ends content _ ih =>
    rw [tile_block_iff indented ends content hnumbers.left_of_append, List.mem_cons,
      ih hnumbers.right_of_append]

theorem stop_le_start {next : Token} {front : List Line}
    (hcovers : ∀ n, token.span.covers n = true → ∃ line ∈ front, line.number = n)
    (hnext : next.Tile after) (hbelow : ∀ line ∈ front, ∀ other ∈ after, line.number < other.number)
    (hnonempty : token.span.start < token.span.stop) : token.span.stop ≤ next.span.start := by
  have hlast : token.span.covers (token.span.stop - 1) = true := by
    apply Span.covers_iff.mpr
    omega
  obtain ⟨line, hline, hnumber⟩ := hcovers _ hlast
  obtain ⟨other, hother, hnumber', -⟩ := hnext.exists_line (covers_start hnext.nonempty)
  have hlt := hbelow line hline other hother
  omega

theorem Laid.ordered (h : Laid lines tokens) (hnumbers : Line.Consecutive lines)
    (hascending : lines.Pairwise (·.number < ·.number)) :
    tokens.Pairwise fun token next => token.span.stop ≤ next.span.start := by
  induction h with
  | nil => exact .nil
  | prose _ _ ih => exact ih hnumbers.tail hascending.tail
  | @heading line lines tokens level text heads rest ih =>
    obtain ⟨hbelow, htail⟩ := List.pairwise_cons.mp hascending
    refine List.pairwise_cons.mpr ⟨fun next hnext => ?_, ih hnumbers.tail htail⟩
    have hcovers : ∀ n, (Token.heading level text line.span).span.covers n = true →
        ∃ other ∈ [line], other.number = n :=
      fun n hn => ⟨line, List.mem_cons_self, covers_line_iff.mp hn⟩
    apply stop_le_start hcovers ((rest.mem_iff hnumbers.tail).mp hnext) (by simpa using hbelow)
    exact Nat.lt_succ_self _
  | @block run after first more tokens indented ends content rest ih =>
    obtain ⟨-, htail, hbelow⟩ := List.pairwise_append.mp hascending
    refine List.pairwise_cons.mpr ⟨fun next hnext => ?_, ih hnumbers.right_of_append htail⟩
    have hcovers : ∀ n, (Token.block first more).span.covers n = true →
        ∃ other ∈ run, other.number = n :=
      fun n => (covers_block_iff content hnumbers.left_of_append).mp
    apply stop_le_start hcovers ((rest.mem_iff hnumbers.right_of_append).mp hnext) hbelow
    exact (((Laid.block indented ends content rest).mem_iff hnumbers).mp
      List.mem_cons_self).nonempty

theorem countP_covers_eq_zero (htokens : ∀ token ∈ tokens, token.Tile lines)
    (hn : ∀ line ∈ lines, n < line.number) : tokens.countP (·.span.covers n) = 0 := by
  apply List.countP_eq_zero.mpr
  intro token htoken hcovers
  obtain ⟨line, hline, hnumber, -⟩ := (htokens token htoken).exists_line hcovers
  exact absurd hnumber (Nat.ne_of_gt (hn line hline))

theorem Laid.countP_covers (h : Laid lines tokens) (hnumbers : Line.Consecutive lines)
    (hascending : lines.Pairwise (·.number < ·.number)) (hline : line ∈ lines) :
    tokens.countP (·.span.covers line.number) = if line.Contributes then 1 else 0 := by
  induction h with
  | nil => cases hline
  | @prose first lines tokens silent rest ih =>
    obtain ⟨hbelow, htail⟩ := List.pairwise_cons.mp hascending
    obtain rfl | hline := List.mem_cons.mp hline
    · rw [if_neg silent]
      exact countP_covers_eq_zero (fun token => (rest.mem_iff hnumbers.tail).mp) hbelow
    · exact ih hnumbers.tail htail hline
  | @heading first lines tokens level text heads rest ih =>
    obtain ⟨hbelow, htail⟩ := List.pairwise_cons.mp hascending
    obtain rfl | hline := List.mem_cons.mp hline
    · have hover : (Token.heading level text line.span).span.covers line.number = true :=
        covers_line_iff.mpr rfl
      rw [List.countP_cons_of_pos (p := fun token : Token => token.span.covers line.number) hover,
        countP_covers_eq_zero (fun token => (rest.mem_iff hnumbers.tail).mp) hbelow,
        if_pos (.inl heads.head?)]
    · rw [List.countP_cons_of_neg, ih hnumbers.tail htail hline]
      exact fun hcovers => Nat.ne_of_lt (hbelow _ hline) (covers_line_iff.mp hcovers)
  | @block run after first more tokens indented ends content rest ih =>
    obtain ⟨-, htail, hbelow⟩ := List.pairwise_append.mp hascending
    have hcovers : ∀ n, (Token.block first more).span.covers n = true ↔
        ∃ other ∈ run, other.number = n :=
      fun n => covers_block_iff content hnumbers.left_of_append
    obtain hline | hline := List.mem_append.mp hline
    · have hover := (hcovers line.number).mpr ⟨line, hline, rfl⟩
      rw [List.countP_cons_of_pos (p := fun token : Token => token.span.covers line.number) hover,
        countP_covers_eq_zero (fun token => (rest.mem_iff hnumbers.right_of_append).mp)
          (hbelow line hline), if_pos (.inr (indented line hline))]
    · rw [List.countP_cons_of_neg, ih hnumbers.right_of_append htail hline]
      intro hover
      obtain ⟨other, hother, hnumber⟩ := (hcovers _).mp hover
      exact Nat.ne_of_lt (hbelow other hother line hline) hnumber

theorem Laid.exists_block (h : Laid lines tokens) (hline : line ∈ lines.head?)
    (hindented : line.isIndented = true) :
    ∃ run after first more rest, lines = run ++ after ∧ tokens = .block first more :: rest ∧
      (∀ line ∈ run, line.isIndented = true) ∧ (∀ line ∈ after.head?, line.isIndented = false) ∧
      run.map Line.dedent = first :: more ∧ Laid after rest := by
  cases h with
  | nil => cases hline
  | prose silent _ =>
    cases hline
    exact absurd (.inr hindented) silent
  | heading heads _ =>
    cases hline
    rw [Line.isIndented_of_head? heads.head? (by decide)] at hindented
    cases hindented
  | block indented ends content rest =>
    exact ⟨_, _, _, _, _, rfl, rfl, indented, ends, content, rest⟩

/-- An indented line joins the block that starts right below it, and is a block of its own where
none does. -/
theorem laid_indent {start : Nat} {rows : List (List Char)}
    (h : Laid (Line.numbered (start + 1) rows) (ofLines (Line.numbered (start + 1) rows))) :
    Laid (⟨start, '\t' :: text⟩ :: Line.numbered (start + 1) rows)
      (indent ⟨start, text⟩ (ofLines (Line.numbered (start + 1) rows))) := by
  by_cases hnext : rows.head?.any Text.isIndented = true
  · obtain ⟨row, rows, rfl⟩ : ∃ row more, rows = row :: more := by
      cases rows with
      | nil => cases hnext
      | cons row more => exact ⟨row, more, rfl⟩
    have hhead : (⟨start + 1, row⟩ : Line) ∈ (Line.numbered (start + 1) (row :: rows)).head? := rfl
    obtain ⟨run, after, first, more, rest, hlines, htokens, indented, ends, content, laid⟩ :=
      h.exists_block hhead hnext
    have hnumber := (number_of_ofLines htokens).2.mpr hnext
    have hindented : ∀ line ∈ ⟨start, '\t' :: text⟩ :: run, line.isIndented = true :=
      List.forall_mem_cons.mpr ⟨rfl, indented⟩
    have hcontent : (⟨start, '\t' :: text⟩ :: run).map Line.dedent =
        ⟨start, text⟩ :: first :: more := congrArg (_ :: ·) content
    rw [htokens, hlines, indent, if_pos hnumber]
    exact .block hindented ends hcontent laid
  · have halone : indent ⟨start, text⟩ (ofLines (Line.numbered (start + 1) rows)) =
        .block ⟨start, text⟩ [] :: ofLines (Line.numbered (start + 1) rows) := by
      unfold indent
      split
      · next first more tokens htokens =>
        rw [if_neg fun hnumber => hnext ((number_of_ofLines htokens).2.mp hnumber), htokens]
      · rfl
    have hends : ∀ line ∈ (Line.numbered (start + 1) rows).head?, line.isIndented = false := by
      cases rows with
      | nil => nofun
      | cons row rows =>
        rintro line ⟨⟩
        exact Bool.eq_false_iff.mpr hnext
    rw [halone]
    have hindented : ∀ line ∈ [(⟨start, '\t' :: text⟩ : Line)], line.isIndented = true :=
      List.forall_mem_singleton.mpr rfl
    exact .block hindented hends rfl h

theorem laid_ofLines (start : Nat) (rows : List (List Char)) :
    Laid (Line.numbered start rows) (ofLines (Line.numbered start rows)) := by
  induction rows generalizing start with
  | nil => exact .nil
  | cons row rows ih =>
    rw [Line.numbered, ofLines_cons]
    unfold ofLine
    dsimp only
    split
    · next text =>
      have hheads := Line.heads_takeWhile (Eq.refl (⟨start, '#' :: text⟩ : Line).text.head?)
      exact .heading hheads (ih (start + 1))
    · exact laid_indent (ih (start + 1))
    · next hmark htab =>
      refine .prose ?_ (ih (start + 1))
      rintro (hhead | hhead)
      · obtain ⟨rest, hrow⟩ := List.head?_eq_some_iff.mp hhead
        exact hmark rest hrow
      · obtain ⟨rest, hrow⟩ := List.head?_eq_some_iff.mp (beq_iff_eq.mp hhead)
        exact htab rest hrow

/-- Tokens that account for all lines of a source. -/
structure Tiles (lines : List Line) (tokens : List Token) : Prop where
  ordered : tokens.Pairwise fun token next => token.span.stop ≤ next.span.start
  nonempty : ∀ token ∈ tokens, token.span.start < token.span.stop
  mem_iff : ∀ token, token ∈ tokens ↔ token.Tile lines
  once : ∀ line ∈ lines, tokens.countP (·.span.covers line.number) =
    if line.Contributes then 1 else 0

/-- The tokens of a text follow each other over its lines and do not overlap. They are the headings,
each on its line, and the longest runs of indented lines. Each such line is under one token, and all
other lines are under none. -/
theorem ofChars_tiles (text : List Char) :
    Tiles (Line.numbered 0 (Text.lines text)) (ofChars text) := by
  have hlaid := laid_ofLines 0 (Text.lines text)
  have hnumbers := Line.consecutive_numbered 0 (Text.lines text)
  have hascending := (Line.placed_numbered 0 (Text.lines text)).1.ascending
  exact {
    ordered := hlaid.ordered hnumbers hascending
    nonempty := fun token htoken => ((hlaid.mem_iff hnumbers).mp htoken).nonempty
    mem_iff := fun token => hlaid.mem_iff hnumbers
    once := fun line hline => hlaid.countP_covers hnumbers hascending hline }

end Token

end ApiContract
