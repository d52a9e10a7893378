import ApiContract.Document.Layout
import ApiContract.Document.Reading
import ApiContract.Proofs.Source.Lines
import ApiContract.Proofs.Template.Rows

namespace ApiContract

/-- A heading and the lines below it, with an empty line before them or not. -/
structure Section where
  spaced : Bool
  level : Nat
  text : List Char
  rows : List (List Char)

namespace Section

def heading (s : Section) : List Char := List.replicate s.level '#' ++ ' ' :: s.text

def texts (s : Section) : List (List Char) :=
  (if s.spaced then [[]] else []) ++ s.heading :: s.rows.map Template.tabbed

structure Plain (s : Section) : Prop where
  level : 0 < s.level
  trim : Text.trim s.text = s.text
  newline : '\n' ∉ s.text
  rows : ∀ row ∈ s.rows, Template.Firm row

inductive Shown : List Section → List Token → Prop
  | nil : Shown [] []
  | bare {s : Section} {sections : List Section} {place : Span} {tokens : List Token}
    (hrows : s.rows = []) (rest : Shown sections tokens) :
    Shown (s :: sections) (.heading s.level s.text place :: tokens)
  | block {s : Section} {sections : List Section} {place : Span} {first : Line}
    {more : List Line} {tokens : List Token} (hrows : (first :: more).map Line.text = s.rows)
    (rest : Shown sections tokens) :
    Shown (s :: sections) (.heading s.level s.text place :: .block first more :: tokens)

theorem shown_append {as bs : List Section} {tokens : List Token} (h : Shown (as ++ bs) tokens) :
    ∃ a b, tokens = a ++ b ∧ Shown as a ∧ Shown bs b := by
  induction as generalizing tokens with
  | nil => exact ⟨[], tokens, rfl, .nil, h⟩
  | cons s as ih =>
    cases h with
    | bare hrows rest =>
      obtain ⟨a, b, rfl, ha, hb⟩ := ih rest
      exact ⟨_ :: a, b, rfl, .bare hrows ha, hb⟩
    | block hrows rest =>
      obtain ⟨a, b, rfl, ha, hb⟩ := ih rest
      exact ⟨_ :: _ :: a, b, rfl, .block hrows ha, hb⟩

theorem Shown.head {sections : List Section} {tokens : List Token} (h : Shown sections tokens) :
    ∀ first more, tokens.head? ≠ some (.block first more) := by
  cases h <;> simp

theorem Shown.exists_of_head {sections : List Section} {tokens : List Token}
    (h : Shown sections tokens) {level : Nat} {text : List Char} {place : Span}
    (he : tokens.head? = some (.heading level text place)) :
    ∃ s ∈ sections.head?, s.level = level ∧ s.text = text := by
  cases h with
  | nil => cases he
  | bare =>
    simp only [List.head?_cons, Option.some.injEq, Token.heading.injEq] at he
    exact ⟨_, rfl, he.1, he.2.1⟩
  | block =>
    simp only [List.head?_cons, Option.some.injEq, Token.heading.injEq] at he
    exact ⟨_, rfl, he.1, he.2.1⟩

theorem Shown.not_isTitle {sections : List Section} {tokens : List Token}
    (h : Shown sections tokens) (hlevel : ∀ s ∈ sections, s.level ≠ 2) :
    ∀ token ∈ tokens, Document.isTitle token = false := by
  induction h with
  | nil => simp
  | bare _ _ ih =>
    obtain ⟨hs, hsections⟩ := List.forall_mem_cons.mp hlevel
    simpa [Document.isTitle, hs] using ih hsections
  | block _ _ ih =>
    obtain ⟨hs, hsections⟩ := List.forall_mem_cons.mp hlevel
    simpa [Document.isTitle, hs] using ih hsections

theorem ofLine_heading {s : Section} (h : s.Plain) (number : Nat) (tokens : List Token) :
    Token.ofLine ⟨number, s.heading⟩ tokens =
      .heading s.level s.text (Span.line number) :: tokens := by
  obtain ⟨level, hl⟩ : ∃ level, s.level = level + 1 := ⟨s.level - 1, by have := h.level; omega⟩
  have hhead : s.heading = '#' :: (List.replicate level '#' ++ ' ' :: s.text) := by
    rw [heading, hl, List.replicate_succ, List.cons_append]
  have htake : (s.heading.takeWhile (· == '#')).length = s.level := by
    have ht := (Text.takeWhile_append_of_head (p := (· == '#'))
      (a := List.replicate s.level '#') (b := ' ' :: s.text) (by simp) (by simp)).1
    rw [heading, ht, List.length_replicate]
  have hdrop : s.heading.drop s.level = ' ' :: s.text := by
    have hd : (List.replicate s.level '#' ++ ' ' :: s.text).drop
        (List.replicate s.level '#').length = ' ' :: s.text := List.drop_left
    rwa [List.length_replicate] at hd
  have htrim : Text.trim (' ' :: s.text) = s.text := by
    rw [Text.trim_cons_of_blank rfl, h.trim]
  have hlevel : ((⟨number, s.heading⟩ : Line).text.takeWhile (· == '#')).length = s.level := htake
  unfold Token.ofLine
  split
  · simp only [hlevel, hdrop, htrim]
    rfl
  · rename_i he
    rw [hhead] at he
    cases he
  · rename_i hn _
    exact absurd hhead (hn _)

theorem foldr_tabbed {number : Nat} {row : List Char} {rows : List (List Char)}
    {tokens : List Token} (h : ∀ first more, tokens.head? ≠ some (.block first more)) :
    (Line.numbered number ((row :: rows).map Template.tabbed)).foldr Token.ofLine tokens =
      .block ⟨number, row⟩ (Line.numbered (number + 1) rows) :: tokens := by
  induction rows generalizing number row with
  | nil =>
    have hindent : Token.indent ⟨number, row⟩ tokens = .block ⟨number, row⟩ [] :: tokens := by
      unfold Token.indent
      split
      · exact absurd rfl (h _ _)
      · rfl
    simpa [Line.numbered, Token.ofLine, Template.tabbed] using hindent
  | cons next rows ih =>
    rw [List.map_cons, Line.numbered, List.foldr_cons, ih]
    simp [Token.ofLine, Template.tabbed, Token.indent, Line.numbered]

theorem shown_ofLines {sections : List Section} (h : ∀ s ∈ sections, s.Plain) (number : Nat) :
    Shown sections (Token.ofLines (Line.numbered number (sections.flatMap texts))) := by
  induction sections generalizing number with
  | nil => exact .nil
  | cons s sections ih =>
    obtain ⟨hs, hsections⟩ := List.forall_mem_cons.mp h
    have hheading : ∀ number, Shown (s :: sections) (Token.ofLines (Line.numbered number
        (s.heading :: (s.rows.map Template.tabbed ++ sections.flatMap texts)))) := by
      intro number
      have hrest := ih hsections (number + 1 + (s.rows.map Template.tabbed).length)
      rw [Token.ofLines] at hrest
      rw [Line.numbered, Line.numbered_append, Token.ofLines, List.foldr_cons, List.foldr_append,
        ofLine_heading hs]
      cases hr : s.rows with
      | nil =>
        rw [hr] at hrest
        exact .bare hr hrest
      | cons row rows =>
        rw [hr] at hrest
        rw [foldr_tabbed hrest.head]
        refine .block ?_ hrest
        rw [hr, List.map_cons, Line.map_text_numbered]
    rw [List.flatMap_cons, texts]
    cases s.spaced with
    | false => exact hheading number
    | true => exact hheading (number + 1)

end Section

end ApiContract
