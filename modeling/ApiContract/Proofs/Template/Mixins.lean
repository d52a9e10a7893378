import ApiContract.Proofs.Template.Marks

namespace ApiContract.Template

theorem isWord_blank : Text.isWord ' ' = false := by decide

theorem isWord_o : Text.isWord 'o' = true := by decide

theorem trimStart_blank (s : List Char) : Text.trimStart (' ' :: s) = Text.trimStart s := by
  simp [Text.trimStart, Text.isBlank]

namespace MixinOpening

def Follows (s : List Char) : Prop := ∀ c ∈ s.head?, c = ' '

theorem with?_append {s : List Char} (h : Follows s) : with? ("with".toList ++ s) = some s := by
  have hs : Text.strip? "with".toList ("with".toList ++ s) = some s := Text.strip?_append _ _
  rw [with?, word?, hs]
  cases s with
  | nil => rfl
  | cons c s =>
    obtain rfl : c = ' ' := h c (by simp)
    simp [isWord_blank]

theorem with?_without (s : List Char) : with? ("without".toList ++ s) = none := by
  simp [with?, word?, Text.strip?, isWord_o]

theorem without?_append {s : List Char} (h : Follows s) :
    without? ("without".toList ++ s) = some s := by
  have hs : Text.strip? "without".toList ("without".toList ++ s) = some s :=
    Text.strip?_append _ _
  rw [without?, word?, hs]
  cases s with
  | nil => rfl
  | cons c s =>
    obtain rfl : c = ' ' := h c (by simp)
    simp [isWord_blank]

theorem keyword?_with {s : List Char} (h : Follows s) :
    keyword? ("with".toList ++ s) = some (false, s) := by
  simp only [keyword?, with?_append h]

theorem keyword?_without {s : List Char} (h : Follows s) :
    keyword? ("without".toList ++ s) = some (true, s) := by
  simp only [keyword?, with?_without, without?_append h, Option.map_some]

theorem isStart_head_text {base : Path} (h : base.Regular)
    (hn : ∃ name, base.head? = some (Segment.key name)) :
    base.text.toList.head?.any Identifier.isStart = true := by
  obtain ⟨name, hb⟩ := hn
  obtain ⟨tail, rfl⟩ : ∃ tail, base = .key name :: tail := by
    cases base with
    | nil => cases hb
    | cons segment tail => exact ⟨tail, by cases hb; rfl⟩
  have hv : Identifier.isValid name.toList = true := h.segments _ (List.mem_cons_self ..)
  obtain ⟨c, t, hc, hs, -⟩ := Identifier.exists_cons_of_isValid hv
  have hh : (Path.text (.key name :: tail)).toList.head? = some c := by
    rw [Path.toList_text]
    cases tail <;> simp [Text.joined, Segment.text, hc]
  simp [hh, hs]

theorem ofChars?_written {base : Path} (h : base.Regular)
    (hn : ∃ name, base.head? = some (Segment.key name)) {s rest : List Char} {without : Bool}
    (hk : keyword? (Text.trimStart s) = some (without, rest)) (hr : '\n' ∉ rest) :
    ofChars? (base.text.toList ++ ' ' :: s) = some ⟨base.text.toList, without, rest⟩ := by
  have ht : Opening.takePath? (base.text.toList ++ ' ' :: s) = some (base.text.toList, ' ' :: s) :=
    takePath?_append h (by simp; decide)
  have hb : Text.isBlank ' ' = true := rfl
  simp only [ofChars?, ht, isStart_head_text h hn, List.head?_cons, Option.any_some, hb,
    Bool.and_self, Bool.not_true, Bool.false_eq_true, ↓reduceIte, trimStart_blank, hk]
  simp [hr]

end MixinOpening

namespace Draft

theorem trim_blank (s : List Char) : Text.trim (' ' :: s) = Text.trim s :=
  Text.trim_cons_of_blank rfl s

theorem cutFirst_append {sep : Char} {a : List Char} (h : sep ∉ a) (b : List Char) :
    Text.cutFirst sep (a ++ sep :: b) = some (a, b) := by
  induction a with
  | nil => simp [Text.cutFirst]
  | cons c a ih =>
    have hc : c ≠ sep := fun e => h (by simp [e])
    simp [Text.cutFirst, hc, ih fun hm => h (by simp [hm])]

theorem cutFirst_of_notMem {sep : Char} {a : List Char} (h : sep ∉ a) :
    Text.cutFirst sep a = none := by
  induction a with
  | nil => rfl
  | cons c a ih =>
    have hc : c ≠ sep := fun e => h (by simp [e])
    simp [Text.cutFirst, hc, ih fun hm => h (by simp [hm])]

theorem pathAt_text {path : Path} (h : path.Regular) (place : Span) :
    pathAt place path.text.toList = .ok path := pathAt_eq_ok_iff.mpr (Path.ofChars?_written h)

theorem pathAt_trim {path : Path} (h : path.Regular) (place : Span) :
    pathAt place (Text.trim path.text.toList) = .ok path ∧
      pathAt place (Text.trim (' ' :: path.text.toList)) = .ok path := by
  rw [trim_blank, (word_of_regular h).tight.trim]
  exact ⟨pathAt_text h place, pathAt_text h place⟩

theorem read_removalsText {removals : List Path} (hne : removals ≠ [])
    (h : ∀ path ∈ removals, path.Regular) (place : Span) {s : List Char}
    (hs : s = removalsText removals ∨ s = ' ' :: removalsText removals) :
    List.Forall₂ (fun item path => pathAt place (Text.trim item) = .ok path)
      (Text.pieces ',' s) removals := by
  induction removals generalizing s with
  | nil => exact absurd rfl hne
  | cons path removals ih =>
    have hp := h path (by simp)
    have hw := word_of_regular hp
    have hcomma : ',' ∉ path.text.toList := hw.notMem (by decide)
    have hcomma' : ',' ∉ ' ' :: path.text.toList := by simp [hcomma]
    obtain ⟨h₁, h₂⟩ := pathAt_trim hp place
    cases removals with
    | nil =>
      rw [removalsText_singleton] at hs
      rcases hs with rfl | rfl
      · rw [Text.pieces_of_notMem hcomma]
        exact .cons h₁ .nil
      · rw [Text.pieces_of_notMem hcomma']
        exact .cons h₂ .nil
    | cons next removals =>
      have hrest := ih (by simp) (fun p hm => h p (by simp [hm])) (.inr rfl)
      have hsplit : removalsText (path :: next :: removals) =
          path.text.toList ++ ',' :: ' ' :: removalsText (next :: removals) := by
        rw [removalsText_cons_cons]
        simp
      rw [hsplit] at hs
      rcases hs with rfl | rfl
      · rw [Text.pieces_append hcomma]
        exact .cons h₁ hrest
      · have hp' := Text.pieces_append hcomma' (' ' :: removalsText (next :: removals))
        rw [List.cons_append] at hp'
        rw [hp']
        exact .cons h₂ hrest

theorem head_removalsText {removals : List Path} (hne : removals ≠ [])
    (h : ∀ path ∈ removals, path.Regular) (s : List Char) :
    ∀ c ∈ (removalsText removals ++ s).head?, Text.isBlank c = false := by
  cases removals with
  | nil => exact absurd rfl hne
  | cons path removals =>
    have hw := (word_of_regular (h path (by simp))).tight
    obtain ⟨tail, ht⟩ : ∃ tail, removalsText (path :: removals) = path.text.toList ++ tail := by
      cases removals with
      | nil => exact ⟨[], by rw [removalsText_singleton, List.append_nil]⟩
      | cons next removals => exact ⟨_, by rw [removalsText_cons_cons, List.append_assoc]⟩
    intro c hc
    rw [ht, List.append_assoc, List.head?_append_of_ne_nil _ hw.ne_nil] at hc
    exact hw.head c hc

theorem tight_removalsText {removals : List Path} (hne : removals ≠ [])
    (h : ∀ path ∈ removals, path.Regular) : Text.Tight (removalsText removals) where
  ne_nil := (firm_removalsText hne h).ne_nil
  head := by simpa using head_removalsText hne h []
  last := (firm_removalsText hne h).last

theorem notMem_removalsText {removals : List Path} (h : ∀ path ∈ removals, path.Regular) :
    ';' ∉ removalsText removals := by
  induction removals with
  | nil => simp [removalsText]
  | cons path removals ih =>
    have hp : ';' ∉ path.text.toList := (word_of_regular (h path (by simp))).notMem (by decide)
    cases removals with
    | nil => rwa [removalsText_singleton]
    | cons next removals =>
      rw [removalsText_cons_cons]
      simp [hp, ih fun p hm => h p (by simp [hm])]

theorem readRemovals_of_cut {place : Span} {rest list tail : List Char} {removals : List Path}
    (hc : (Text.cutFirst ';' rest).getD (rest, []) = (list, tail))
    (hr : List.Forall₂ (fun item path => pathAt place (Text.trim item) = .ok path)
      (Text.pieces ',' list) removals) :
    readRemovals place rest =
      if (Text.trim tail).isEmpty then .ok ⟨removals, none⟩
      else match MixinOpening.with? (Text.trim tail) with
        | some rest => .ok ⟨removals, some (Text.trim rest)⟩
        | none => .error (.trailingText place (String.ofList (Text.trim tail))) := by
  have hread := traverse_eq_ok_iff.mpr hr
  unfold readRemovals
  rw [hc]
  dsimp only
  split
  · rename_i fault he
    cases he.symm.trans hread
  · rename_i found he
    cases he.symm.trans hread
    rfl

theorem readRemovals_alone {removals : List Path} (hne : removals ≠ [])
    (h : ∀ path ∈ removals, path.Regular) (place : Span) :
    readRemovals place (removalsText removals) = .ok ⟨removals, none⟩ := by
  have hc : (Text.cutFirst ';' (removalsText removals)).getD (removalsText removals, []) =
      (removalsText removals, []) := by
    rw [cutFirst_of_notMem (notMem_removalsText h), Option.getD_none]
  rw [readRemovals_of_cut hc (read_removalsText hne h place (.inl rfl))]
  rfl

theorem readRemovals_with {removals : List Path} (hne : removals ≠ [])
    (h : ∀ path ∈ removals, path.Regular) (place : Span) {rest : List Char}
    (hf : MixinOpening.Follows rest)
    (ht : Text.trim ("with".toList ++ rest) = "with".toList ++ rest) :
    readRemovals place (removalsText removals ++ ';' :: ' ' :: ("with".toList ++ rest)) =
      .ok ⟨removals, some (Text.trim rest)⟩ := by
  have hne' : ("with".toList ++ rest).isEmpty = false := by simp
  rw [readRemovals_of_cut (by rw [cutFirst_append (notMem_removalsText h), Option.getD_some])
    (read_removalsText hne h place (.inl rfl))]
  simp only [trim_blank, ht, hne', Bool.false_eq_true, ↓reduceIte, MixinOpening.with?_append hf]

theorem dedented_tabbed {lines : List Line} {rows : List (List Char)}
    (h : lines.map Line.text = rows.map tabbed) :
    ∃ block, dedented lines = .ok block ∧ block.map Line.text = rows := by
  induction lines generalizing rows with
  | nil =>
    obtain rfl : rows = [] := by simpa using h.symm
    exact ⟨[], by rw [dedented], rfl⟩
  | cons line lines ih =>
    cases rows with
    | nil => simp at h
    | cons row rows =>
      simp only [List.map_cons, List.cons.injEq] at h
      obtain ⟨block, hb, hr⟩ := ih h.2
      have hi : line.isIndented = true := by simp [Line.isIndented, h.1, tabbed]
      refine ⟨line.dedent :: block, by simp [dedented, hi, hb], ?_⟩
      simp [Line.dedent, h.1, tabbed, hr]

/-- How the first line of a mixin and the lines below it share the additions: a single row stands
behind the keyword, and more rows stand below. -/
inductive Shares (inline : Bool) : List (List Char) → List Char → List Line → Prop
  | beside (row : List Char) : Shares inline [row] (' ' :: row) []
  | below {rows : List (List Char)} {more : List Line}
      (h : more.map Line.text = if inline then rows else rows.map tabbed) :
      Shares inline rows [] more

theorem shares_of_mixinTexts {mark : List Char} {rows : List (List Char)} {first : Line}
    {more : List Line} {inline : Bool}
    (h : (first :: more).map Line.text =
      if inline then mixinTexts mark rows else hung (mixinTexts mark rows)) :
    ∃ tail, first.text = mark ++ tail ∧ Shares inline rows tail more := by
  rcases rows with _ | ⟨row, _ | ⟨next, rows⟩⟩
  · cases inline <;> simp only [mixinTexts, hung, List.map_cons, List.cons.injEq,
      Bool.false_eq_true, ↓reduceIte] at h
    · exact ⟨[], by simp [h.1], .below (by simpa using h.2)⟩
    · exact ⟨[], by simp [h.1], .below (by simpa using h.2)⟩
  · have hm : more = [] := by
      cases inline <;> simp [mixinTexts, hung] at h <;> exact h.2
    have hf : first.text = mark ++ ' ' :: row := by
      cases inline <;> simp [mixinTexts, hung] at h <;> exact h.1
    subst hm
    exact ⟨' ' :: row, hf, .beside row⟩
  · cases inline <;> simp only [mixinTexts, hung, List.map_cons, List.cons.injEq,
      Bool.false_eq_true, ↓reduceIte] at h
    · exact ⟨[], by simp [h.1], .below (by simpa using h.2)⟩
    · exact ⟨[], by simp [h.1], .below (by simpa using h.2)⟩

theorem block_of_shares {rows : List (List Char)} {tail : List Char} {more : List Line}
    {inline : Bool} (h : Shares inline rows tail more) (hne : rows ≠ [])
    (hrow : ∀ row ∈ rows.head?, Text.Tight row) (first : Line) :
    ∃ lines, block first (Text.trim tail) more inline = .ok lines ∧ lines.map Line.text = rows := by
  cases h with
  | beside row =>
    have ht := hrow row (by simp)
    have he : row.isEmpty = false := by simpa using ht.ne_nil
    refine ⟨[⟨first.number, row⟩], ?_, rfl⟩
    cases inline <;> simp [block, dedented, beside, trim_blank, ht.trim, he]
  | below hm =>
    have hb : beside first.number (Text.trim []) = [] := rfl
    cases inline with
    | true =>
      have hl : more.map Line.text = rows := hm
      have he : more.isEmpty = false := by
        cases more with
        | nil => exact absurd hl.symm hne
        | cons line more => rfl
      exact ⟨more, by simp [block, hb, he], hl⟩
    | false =>
      obtain ⟨lines, hd, hl⟩ := dedented_tabbed hm
      have he : lines.isEmpty = false := by
        cases lines with
        | nil => exact absurd hl.symm hne
        | cons line lines => rfl
      exact ⟨lines, by simp [block, hd, hb, he], hl⟩

namespace Shares

variable {rows : List (List Char)} {tail : List Char} {more : List Line} {inline : Bool}

theorem follows (h : Shares inline rows tail more) : MixinOpening.Follows tail := by
  cases h <;> simp [MixinOpening.Follows]

theorem newline (h : Shares inline rows tail more) (hf : ∀ row ∈ rows, Firm row) :
    '\n' ∉ tail := by
  cases h with
  | beside row => simp [(hf row (by simp)).newline]
  | below => simp

theorem trim_with (h : Shares inline rows tail more) (hf : ∀ row ∈ rows, Firm row) :
    Text.trim ("with".toList ++ tail) = "with".toList ++ tail := by
  have hw : Firm "with".toList := .of_last rfl rfl (by decide)
  have hfirm : Firm ("with".toList ++ tail) := by
    cases h with
    | beside row => exact Firm.beside hw.newline (hf row (by simp))
    | below => exact hw
  exact Text.trim_eq_self (by simp [Text.isBlank]) hfirm.last

end Shares

theorem ofOpening_of_edits {opening : MixinOpening} {first : Line} {more lines : List Line}
    {inline : Bool} {base : Path} {removals : List Path} {rest : List Char}
    (hb : pathAt first.span opening.base = .ok base)
    (he : readEdits first.span opening = .ok ⟨removals, some rest⟩)
    (hl : block first rest more inline = .ok lines) :
    ofOpening opening first more inline =
      (Group.slots Opening.path? [] lines).map fun groups => ⟨base, removals, groups⟩ := by
  simp only [ofOpening, hb, he, hl]
  cases Group.slots Opening.path? [] lines <;> rfl

variable {base : Path} {removals : List Path} {rows : List (List Char)} {first : Line}
  {more : List Line} {inline : Bool}

theorem ofOpening_with (hb : base.Regular)
    (hn : ∃ name, base.head? = some (Segment.key name)) {tail : List Char}
    (ht : first.text = base.text.toList ++ " with".toList ++ tail)
    (hs : Shares inline rows tail more) (hf : ∀ row ∈ rows, Firm row) (hne : rows ≠ [])
    (hrow : ∀ row ∈ rows.head?, Text.Tight row) :
    ∃ opening lines, MixinOpening.ofChars? first.text = some opening ∧
      lines.map Line.text = rows ∧
      ofOpening opening first more inline =
        (Group.slots Opening.path? [] lines).map fun groups => ⟨base, [], groups⟩ := by
  have hk : MixinOpening.keyword? (Text.trimStart ("with".toList ++ tail)) = some (false, tail) :=
    MixinOpening.keyword?_with hs.follows
  have ho := MixinOpening.ofChars?_written hb hn hk (hs.newline hf)
  obtain ⟨lines, hblock, hlines⟩ := block_of_shares hs hne hrow first
  refine ⟨_, lines, by rw [ht]; simpa using ho, hlines,
    ofOpening_of_edits (pathAt_text hb _) rfl hblock⟩

theorem readEdits_without {s t : List Char} (ht : Text.trim s = t) (place : Span)
    (name : List Char) :
    readEdits place ⟨name, true, ' ' :: s⟩ = readRemovals place t := by
  simp only [readEdits, ↓reduceIte, trim_blank, ht]

theorem ofOpening_without (hb : base.Regular)
    (hn : ∃ name, base.head? = some (Segment.key name)) (hne : removals ≠ [])
    (hr : ∀ path ∈ removals, path.Regular)
    (ht : first.text = base.text.toList ++ " without ".toList ++ removalsText removals)
    (inline : Bool) :
    ∃ opening, MixinOpening.ofChars? first.text = some opening ∧
      ofOpening opening first [] inline = .ok ⟨base, removals, []⟩ := by
  have hfirm := firm_removalsText hne hr
  have hk : MixinOpening.keyword? (Text.trimStart ("without".toList ++ ' ' :: removalsText removals))
      = some (true, ' ' :: removalsText removals) :=
    MixinOpening.keyword?_without (by simp [MixinOpening.Follows])
  have ho := MixinOpening.ofChars?_written hb hn hk (by simp [hfirm.newline])
  have hedits : readEdits first.span ⟨base.text.toList, true, ' ' :: removalsText removals⟩ =
      .ok ⟨removals, none⟩ := by
    rw [readEdits_without (tight_removalsText hne hr).trim, readRemovals_alone hne hr]
  refine ⟨_, by rw [ht]; simpa using ho, ?_⟩
  simp [ofOpening, pathAt_text hb, hedits]

theorem ofOpening_without_with (hb : base.Regular)
    (hn : ∃ name, base.head? = some (Segment.key name)) (hne : removals ≠ [])
    (hr : ∀ path ∈ removals, path.Regular) {tail : List Char}
    (ht : first.text =
      base.text.toList ++ (" without ".toList ++ removalsText removals ++ "; with".toList) ++ tail)
    (hs : Shares inline rows tail more) (hf : ∀ row ∈ rows, Firm row) (hrows : rows ≠ [])
    (hrow : ∀ row ∈ rows.head?, Text.Tight row) :
    ∃ opening lines, MixinOpening.ofChars? first.text = some opening ∧
      lines.map Line.text = rows ∧
      ofOpening opening first more inline =
        (Group.slots Opening.path? [] lines).map fun groups => ⟨base, removals, groups⟩ := by
  have htrim := hs.trim_with hf
  have hfirm := firm_removalsText hne hr
  have hend : Firm (removalsText removals ++ ';' :: ' ' :: ("with".toList ++ tail)) := by
    have hw : Text.Tight ("with".toList ++ tail) := Text.tight_of_trim htrim (by simp)
    have hl : '\n' ∉ "with".toList ++ tail := by simp [hs.newline hf]
    exact Firm.append hfirm.newline (Firm.append (a := [';', ' ']) (by simp) (.of_tight hw hl))
  have htrim' := Text.trim_eq_self (head_removalsText hne hr _) hend.last
  have hk : MixinOpening.keyword? (Text.trimStart ("without".toList ++ ' ' ::
      (removalsText removals ++ ';' :: ' ' :: ("with".toList ++ tail)))) =
        some (true, ' ' :: (removalsText removals ++ ';' :: ' ' :: ("with".toList ++ tail))) :=
    MixinOpening.keyword?_without (by simp [MixinOpening.Follows])
  have ho := MixinOpening.ofChars?_written hb hn hk (by
    rw [List.mem_cons, not_or]
    exact ⟨by decide, hend.newline⟩)
  have hedits : readEdits first.span ⟨base.text.toList, true,
      ' ' :: (removalsText removals ++ ';' :: ' ' :: ("with".toList ++ tail))⟩ =
        .ok ⟨removals, some (Text.trim tail)⟩ := by
    rw [readEdits_without htrim', readRemovals_with hne hr _ hs.follows htrim]
  obtain ⟨lines, hblock, hlines⟩ := block_of_shares hs hrows hrow first
  exact ⟨_, lines, by rw [ht]; simpa using ho, hlines,
    ofOpening_of_edits (pathAt_text hb _) hedits hblock⟩

end Draft

/-- The lines of a mixin are read as its base and its removals, and as the lines of its
additions. -/
theorem read_mixinTexts {base : Path} {removals : List Path}
    {additions : List (Path × Slot Template)}
    (he : Edit base removals (additions.map Prod.fst)) {rows : List (List Char)}
    (hf : ∀ row ∈ rows, Firm row) (hrow : ∀ row ∈ rows.head?, Text.Tight row)
    (hrows : rows = [] ↔ additions = []) {first : Line} {more : List Line} {inline : Bool}
    (h : (first :: more).map Line.text =
      if inline then
        mixinTexts (base.text.toList ++ editsText removals (!additions.isEmpty)) rows
      else hung (mixinTexts (base.text.toList ++ editsText removals (!additions.isEmpty)) rows)) :
    ∃ opening lines, MixinOpening.ofChars? first.text = some opening ∧
      lines.map Line.text = rows ∧
      Draft.ofOpening opening first more inline =
        (Group.slots Opening.path? [] lines).map fun groups => ⟨base, removals, groups⟩ := by
  obtain ⟨tail, ht, hs⟩ := Draft.shares_of_mixinTexts h
  have hb := he.regular_base
  have hn := he.named
  cases additions with
  | nil =>
    obtain rfl := hrows.mpr rfl
    have hne : removals ≠ [] := he.edits.resolve_right (by simp)
    have hmore : more = [] ∧ tail = [] := by
      cases hs with
      | below hm => exact ⟨by cases inline <;> simpa using hm, rfl⟩
    obtain ⟨rfl, rfl⟩ := hmore
    have hfirst : first.text =
        base.text.toList ++ " without ".toList ++ removalsText removals := by
      simp [ht, editsText, hne]
    obtain ⟨opening, ho, hd⟩ := Draft.ofOpening_without hb hn hne he.regular_removals hfirst inline
    exact ⟨opening, [], ho, rfl, by rw [hd, Group.slots]; rfl⟩
  | cons addition additions =>
    have hrows' : rows ≠ [] := fun e => by simpa using hrows.mp e
    cases removals with
    | nil =>
      have hfirst : first.text = base.text.toList ++ " with".toList ++ tail := by
        simp [ht, editsText]
      exact Draft.ofOpening_with hb hn hfirst hs hf hrows' hrow
    | cons removal removals =>
      have hfirst : first.text = base.text.toList ++ (" without ".toList ++
          removalsText (removal :: removals) ++ "; with".toList) ++ tail := by
        simp [ht, editsText]
      exact Draft.ofOpening_without_with hb hn (by simp) he.regular_removals hfirst hs hf hrows'
        hrow

end ApiContract.Template
