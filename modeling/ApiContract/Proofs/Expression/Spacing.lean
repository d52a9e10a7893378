import ApiContract.Expression.Evaluation
import ApiContract.Proofs.Bind
import ApiContract.Proofs.Expression.Lexing

namespace ApiContract

namespace Text

def blanks : List Nat :=
  [9, 10, 11, 12, 13, 0x20, 0x85, 0xA0, 0x1680, 0x2000, 0x2001, 0x2002, 0x2003, 0x2004, 0x2005,
    0x2006, 0x2007, 0x2008, 0x2009, 0x200A, 0x2028, 0x2029, 0x202F, 0x205F, 0x3000]

theorem mem_blanks {c : Char} (h : isBlank c = true) : c.toNat ∈ blanks := by
  simp only [isBlank, Bool.or_eq_true, Bool.and_eq_true, decide_eq_true_eq, beq_iff_eq] at h
  simp only [blanks, List.mem_cons, List.not_mem_nil, or_false]
  omega

theorem not_isAlphanumeric_of_isBlank {c : Char} (h : isBlank c = true) :
    isAlphanumeric c = false := by
  have hall : ∀ n ∈ blanks, alphabetic.covers n = false ∧ numeric.covers n = false := by
    decide +kernel
  obtain ⟨halphabetic, hnumeric⟩ := hall _ (mem_blanks h)
  rw [isAlphanumeric, isAlphabetic, halphabetic, hnumeric, Bool.or_false]

end Text

namespace Expression.Lexeme

variable {c mark : Char} {s s' word front rest rest' cs : List Char} {ts before after : List Lexeme}
  {lexeme : Lexeme} {afterMark : Bool}

def isBoundary (c : Char) : Bool := Text.isBlank c || c == ',' || c == ')'

theorem isBoundary_of_isBlank (h : Text.isBlank c = true) : isBoundary c = true := by
  rw [isBoundary, h, Bool.true_or, Bool.true_or]

theorem ne_of_isBoundary {d : Char} (h : isBoundary c = true) (hd : isBoundary d = false) :
    c ≠ d := by
  rintro rfl
  rw [h] at hd
  cases hd

theorem not_isNamePart_of_isBoundary (h : isBoundary c = true) : isNamePart c = false := by
  have hline : c ≠ '_' := ne_of_isBoundary h (by decide)
  have hdollar : c ≠ '$' := ne_of_isBoundary h (by decide)
  simp only [isBoundary, Bool.or_eq_true, beq_iff_eq] at h
  obtain (h | rfl) | rfl := h
  · simp [isNamePart, Text.not_isAlphanumeric_of_isBlank h, hline, hdollar]
  · decide
  · decide

theorem not_isBoundary_of_isDigit (h : c.isDigit = true) : isBoundary c = false := by
  have hcomma : c ≠ ',' := by
    rintro rfl
    cases h
  have hclose : c ≠ ')' := by
    rintro rfl
    cases h
  simp [isBoundary, isBlank_of_isDigit h, hcomma, hclose]

/-- What may stand in place of the rest of a text: the end, what no lexeme goes on with, or what
starts like the rest. -/
def InPlace (rest rest' : List Char) : Prop :=
  ∀ c ∈ rest'.head?, isBoundary c = true ∨ c ∈ rest.head?

theorem InPlace.refl : InPlace rest rest := fun _ h => .inr h

theorem InPlace.append (h : InPlace rest rest') : InPlace (front ++ rest) (front ++ rest') := by
  cases front with
  | nil => exact h
  | cons c front => exact fun _ hc => .inr hc

theorem InPlace.cons (h : isBoundary c = true) : InPlace rest (c :: s) := by
  intro d hd
  cases hd
  exact .inl h

theorem InPlace.head {p : Char → Bool} (h : InPlace rest rest')
    (hboundary : ∀ c, isBoundary c = true → p c = false) (hrest : ∀ c ∈ rest.head?, p c = false) :
    ∀ c ∈ rest'.head?, p c = false := by
  intro c hc
  obtain hb | hsame := h c hc
  · exact hboundary c hb
  · exact hrest c hsame

theorem ofChars_blank (h : Text.isBlank c = true) : ofChars (c :: s) = ofChars s := by
  rw [ofChars.eq_def]
  dsimp only
  rw [if_pos h]

theorem ofChars_nil : ofChars [] = .ok [] := by
  rw [ofChars.eq_def]

theorem ofChars_comment (h : StartsComment c s) : ofChars (c :: s) = .ok [] := by
  obtain ⟨rfl, hs⟩ := h
  rw [ofChars.eq_def]
  simp [hs, Text.isBlank]

def continues (afterMark : Bool) (c : Char) : Bool :=
  c.isDigit || c == '.' || isExponentMark c || (afterMark && (c == '-' || c == '+'))

theorem numberLength_eq_zero_iff :
    numberLength afterMark s = 0 ↔ ∀ c ∈ s.head?, continues afterMark c = false := by
  cases s with
  | nil => simp [numberLength]
  | cons c s =>
    rw [numberLength_cons]
    simp only [List.head?_cons, Option.mem_some_iff, forall_eq', continues]
    split
    · next h => simp [h]
    · next h =>
      split
      · next h' => simp [h']
      · next h' => simp_all

theorem not_continues_of_isBoundary (h : isBoundary c = true) : continues afterMark c = false := by
  have hne : ∀ d, isBoundary d = false → c ≠ d := fun d hd => ne_of_isBoundary h hd
  have hdigit : c.isDigit = false := by
    rw [Bool.eq_false_iff]
    intro hd
    rw [not_isBoundary_of_isDigit hd] at h
    cases h
  simp [continues, hdigit, isExponentMark, hne '.' (by decide), hne 'e' (by decide),
    hne 'E' (by decide), hne '-' (by decide), hne '+' (by decide)]

theorem numberLength_of_inPlace (h : numberLength afterMark (word ++ rest) = word.length)
    (hr : InPlace rest rest') : numberLength afterMark (word ++ rest') = word.length := by
  induction word generalizing afterMark with
  | nil =>
    apply numberLength_eq_zero_iff.mpr
    exact hr.head (fun c => not_continues_of_isBoundary) (numberLength_eq_zero_iff.mp h)
  | cons c word ih =>
    rw [List.cons_append, numberLength_cons] at h ⊢
    split at h
    · next hc =>
      rw [if_pos hc, ih (Nat.succ.inj h), List.length_cons]
    · next hc =>
      split at h
      · next hsign =>
        rw [if_neg hc, if_pos hsign, ih (Nat.succ.inj h), List.length_cons]
      · cases h

theorem numberLength_le : numberLength afterMark s ≤ s.length := by
  induction s generalizing afterMark with
  | nil => exact Nat.le_refl 0
  | cons c s ih =>
    rw [numberLength_cons, List.length_cons]
    split
    · exact Nat.succ_le_succ ih
    · split
      · exact Nat.succ_le_succ ih
      · exact Nat.zero_le _

theorem textTail_mark : (textTail mark (mark :: s)).map Reading.pair = some ([], s) := by
  rw [textTail.eq_def]
  simp [Reading.leaving, Reading.pair]

theorem textTail_escaped (hmark : '\\' ≠ mark) :
    (textTail mark ('\\' :: c :: s)).map Reading.pair =
      ((textTail mark s).map Reading.pair).map fun p => (escaped c :: p.1, p.2) := by
  rw [textTail.eq_def]
  dsimp only
  rw [if_neg hmark, if_pos rfl, Option.map_map, Option.map_map]
  rfl

theorem textTail_char (hmark : c ≠ mark) (hbackslash : c ≠ '\\') :
    (textTail mark (c :: s)).map Reading.pair =
      ((textTail mark s).map Reading.pair).map fun p => (c :: p.1, p.2) := by
  rw [textTail.eq_def]
  dsimp only
  rw [if_neg hmark, if_neg hbackslash, Option.map_map, Option.map_map]
  rfl

theorem exists_textTail (h : (textTail mark s).map Reading.pair = some (cs, rest)) :
    ∃ word, s = word ++ rest ∧
      ∀ rest', (textTail mark (word ++ rest')).map Reading.pair = some (cs, rest') := by
  fun_induction textTail mark s generalizing cs with
  | case1 => cases h
  | case2 s =>
    cases h
    exact ⟨[mark], rfl, fun rest' => textTail_mark⟩
  | case3 hmark => cases h
  | case4 d s hmark ih =>
    rw [Option.map_map] at h
    obtain ⟨r, hr, hpair⟩ := Option.map_eq_some_iff.mp h
    cases hpair
    have hread : (textTail mark s).map Reading.pair = some (r.value, r.rest) := by
      rw [hr]
      rfl
    obtain ⟨word, hword, hstays⟩ := ih hread
    refine ⟨'\\' :: d :: word, congrArg ('\\' :: d :: ·) hword, fun rest' => ?_⟩
    rw [List.cons_append, List.cons_append, textTail_escaped hmark, hstays]
    rfl
  | case5 c s hmark hbackslash ih =>
    rw [Option.map_map] at h
    obtain ⟨r, hr, hpair⟩ := Option.map_eq_some_iff.mp h
    cases hpair
    have hread : (textTail mark s).map Reading.pair = some (r.value, r.rest) := by
      rw [hr]
      rfl
    obtain ⟨word, hword, hstays⟩ := ih hread
    refine ⟨c :: word, congrArg (c :: ·) hword, fun rest' => ?_⟩
    rw [List.cons_append, textTail_char hmark hbackslash, hstays]
    rfl

theorem startsNumber_of_inPlace (h : startsNumber c s = false) (hs : InPlace s s') :
    startsNumber c s' = false := by
  rw [startsNumber, Bool.or_eq_false_iff, Bool.and_eq_false_iff] at h ⊢
  obtain ⟨hdigit, hpoint⟩ := h
  refine ⟨hdigit, hpoint.imp_right fun hnone => ?_⟩
  have hhead : ∀ d ∈ s.head?, d.isDigit = false := by
    intro d hd
    rw [Option.mem_def.mp hd] at hnone
    exact hnone
  have hhead' : ∀ d ∈ s'.head?, d.isDigit = false := by
    apply hs.head _ hhead
    intro d hd
    by_contra hdigit
    rw [not_isBoundary_of_isDigit (Bool.eq_true_of_not_eq_false hdigit)] at hd
    cases hd
  cases hfirst : s'.head? with
  | none => rfl
  | some d => exact hhead' d hfirst

theorem StartsComment.of_inPlace (h : StartsComment c s') (hs : InPlace s s') :
    StartsComment c s := by
  obtain hb | hsame := hs '/' h.2
  · cases hb
  · exact ⟨h.1, hsame⟩

theorem first_number (hstart : startsNumber c s = true) :
    (first c s).map Reading.pair = (number? (c :: s.take (numberLength false s))).map
      fun lexeme => (lexeme, s.drop (numberLength false s)) := by
  rw [first, if_pos hstart]
  dsimp only
  cases number? (c :: s.take (numberLength false s)) <;> rfl

theorem first_text (hstart : startsNumber c s = false) (hquote : c = '\x22' ∨ c = '\x27') :
    (first c s).map Reading.pair = match (textTail c s).map Reading.pair with
      | none => .error .unterminatedString
      | some (cs, rest) => .ok (text (String.ofList cs), rest) := by
  rw [first, if_neg (Bool.eq_false_iff.mp hstart), if_pos hquote]
  cases textTail c s <;> rfl

theorem first_name (hstart : startsNumber c s = false) (hquote : ¬ (c = '\x22' ∨ c = '\x27'))
    (hname : isNameStart c = true) : (first c s).map Reading.pair =
      .ok (name (String.ofList (c :: s.takeWhile isNamePart)), s.dropWhile isNamePart) := by
  rw [first, if_neg (Bool.eq_false_iff.mp hstart), if_neg hquote, if_pos hname]
  rfl

theorem first_symbol (hstart : startsNumber c s = false) (hquote : ¬ (c = '\x22' ∨ c = '\x27'))
    (hname : ¬ isNameStart c = true) : (first c s).map Reading.pair =
      if isSymbol c then .ok (symbol c, s) else .error (.unexpectedCharacter c) := by
  rw [first, if_neg (Bool.eq_false_iff.mp hstart), if_neg hquote, if_neg hname]
  split <;> rfl

def Stays (c : Char) (s : List Char) (lexeme : Lexeme) (rest : List Char) : Prop :=
  ∃ word, s = word ++ rest ∧ ∀ rest', InPlace rest rest' →
    (first c (word ++ rest')).map Reading.pair = .ok (lexeme, rest')

theorem startsNumber_append (h : startsNumber c word = true) :
    startsNumber c (word ++ rest) = true := by
  cases word with
  | nil =>
    have hdigit : c.isDigit = true := by simpa [startsNumber] using h
    rw [startsNumber, hdigit, Bool.true_or]
  | cons d word => exact h

theorem startsNumber_take (h : startsNumber c s = true) :
    startsNumber c (s.take (numberLength false s)) = true := by
  cases s with
  | nil => exact h
  | cons d s =>
    rw [numberLength_cons]
    cases hd : d.isDigit with
    | true => exact h
    | false =>
      have hdigit : c.isDigit = true := by simpa [startsNumber, hd] using h
      rw [startsNumber, hdigit, Bool.true_or]

theorem stays_number (hstart : startsNumber c s = true)
    (h : (first c s).map Reading.pair = .ok (lexeme, rest)) : Stays c s lexeme rest := by
  rw [first_number hstart] at h
  obtain ⟨found, hfound, hpair⟩ := map_eq_ok_iff.mp h
  obtain ⟨rfl, rfl⟩ := Prod.mk.inj hpair
  set n := numberLength false s with hn
  have happend : s.take n ++ s.drop n = s := List.take_append_drop n s
  refine ⟨s.take n, happend.symm, fun rest' hr => ?_⟩
  have hlength : numberLength false (s.take n ++ s.drop n) = (s.take n).length := by
    rw [happend, List.length_take, Nat.min_eq_left numberLength_le]
  rw [first_number (startsNumber_append (startsNumber_take hstart)),
    numberLength_of_inPlace hlength hr, List.take_left, List.drop_left, hfound]
  rfl

theorem stays_text (hstart : startsNumber c s = false) (hquote : c = '\x22' ∨ c = '\x27')
    (h : (first c s).map Reading.pair = .ok (lexeme, rest)) : Stays c s lexeme rest := by
  rw [first_text hstart hquote] at h
  cases htext : (textTail c s).map Reading.pair with
  | none =>
    rw [htext] at h
    cases h
  | some p =>
    rw [htext] at h
    cases h
    obtain ⟨word, rfl, hstays⟩ := exists_textTail htext
    refine ⟨word, rfl, fun rest' hr => ?_⟩
    rw [first_text (startsNumber_of_inPlace hstart hr.append) hquote, hstays]

theorem stays_name (hstart : startsNumber c s = false) (hquote : ¬ (c = '\x22' ∨ c = '\x27'))
    (hname : isNameStart c = true) (h : (first c s).map Reading.pair = .ok (lexeme, rest)) :
    Stays c s lexeme rest := by
  rw [first_name hstart hquote hname] at h
  cases h
  have happend : s.takeWhile isNamePart ++ s.dropWhile isNamePart = s :=
    List.takeWhile_append_dropWhile
  have hend : ∀ d ∈ (s.dropWhile isNamePart).head?, isNamePart d = false := by
    intro d hd
    have hnot := List.head?_dropWhile_not isNamePart s
    rw [Option.mem_def.mp hd] at hnot
    simpa using hnot
  refine ⟨s.takeWhile isNamePart, happend.symm, fun rest' hr => ?_⟩
  have hstart' : startsNumber c (s.takeWhile isNamePart ++ rest') = false :=
    startsNumber_of_inPlace (happend.symm ▸ hstart) hr.append
  have hparts : ∀ d ∈ s.takeWhile isNamePart, isNamePart d = true :=
    fun d hd => List.mem_takeWhile_imp hd
  obtain ⟨htake, hdrop⟩ := Text.takeWhile_append_of_head hparts
    (hr.head (fun d => not_isNamePart_of_isBoundary) hend)
  rw [first_name hstart' hquote hname, htake, hdrop]

theorem stays_symbol (hstart : startsNumber c s = false) (hquote : ¬ (c = '\x22' ∨ c = '\x27'))
    (hname : ¬ isNameStart c = true) (h : (first c s).map Reading.pair = .ok (lexeme, rest)) :
    Stays c s lexeme rest := by
  rw [first_symbol hstart hquote hname] at h
  split at h
  · next hsymbol =>
    cases h
    refine ⟨[], rfl, fun rest' hr => ?_⟩
    rw [List.nil_append, first_symbol (startsNumber_of_inPlace hstart hr) hquote hname,
      if_pos hsymbol]
  · cases h

theorem stays_of_first (h : (first c s).map Reading.pair = .ok (lexeme, rest)) :
    Stays c s lexeme rest := by
  cases hstart : startsNumber c s with
  | true => exact stays_number hstart h
  | false =>
    by_cases hquote : c = '\x22' ∨ c = '\x27'
    · exact stays_text hstart hquote h
    · by_cases hname : isNameStart c = true
      · exact stays_name hstart hquote hname h
      · exact stays_symbol hstart hquote hname h

/-- The front of a text is cut into lexemes, every one of them with all that follows it in place, so
that the cut goes on with the rest. -/
inductive CutTo : List Char → List Lexeme → List Char → Prop
  | here {rest : List Char} : CutTo [] [] rest
  | blank {c : Char} {front rest : List Char} {ts : List Lexeme} (isBlank : Text.isBlank c = true)
    (more : CutTo front ts rest) : CutTo (c :: front) ts rest
  | lexeme {c : Char} {word front rest : List Char} {lexeme : Lexeme} {ts : List Lexeme}
    (notBlank : Text.isBlank c = false) (noComment : ¬ StartsComment c (word ++ (front ++ rest)))
    (cut : (first c (word ++ (front ++ rest))).map Reading.pair = .ok (lexeme, front ++ rest))
    (more : CutTo front ts rest) : CutTo (c :: (word ++ front)) (lexeme :: ts) rest

theorem CutTo.exists_cons (more : CutTo front ts rest) (hb : Text.isBlank c = false)
    (hc : ¬ StartsComment c s) (h : (first c s).map Reading.pair = .ok (lexeme, front ++ rest)) :
    ∃ front', c :: s = front' ++ rest ∧ CutTo front' (lexeme :: ts) rest := by
  obtain ⟨word, rfl, -⟩ := stays_of_first h
  refine ⟨c :: (word ++ front), ?_, .lexeme hb hc h more⟩
  rw [List.cons_append, List.append_assoc]

theorem CutTo.ofChars_append (h : CutTo front ts rest) (hr : InPlace rest rest') :
    ofChars (front ++ rest') = (ofChars rest').map (ts ++ ·) := by
  induction h with
  | here => cases h : ofChars rest' <;> simp [h, Except.map]
  | blank isBlank more ih => rw [List.cons_append, ofChars_blank isBlank, ih hr]
  | @lexeme c word front rest lexeme ts notBlank noComment cut more ih =>
    obtain ⟨word', hword, hstays⟩ := stays_of_first cut
    obtain rfl : word' = word := (List.append_cancel_right hword).symm
    have hfirst := hstays (front ++ rest') hr.append
    have hcomment : ¬ StartsComment c (word' ++ (front ++ rest')) := by
      intro hstarts
      exact noComment (hstarts.of_inPlace hr.append.append)
    rw [List.cons_append, List.append_assoc, ofChars_cons notBlank hcomment hfirst, ih hr]
    cases ofChars rest' <;> rfl

/-- Wherever the lexemes of a text are parted, the text can be. -/
theorem exists_cutTo (h : ofChars s = .ok (before ++ after)) :
    ∃ front rest, s = front ++ rest ∧ CutTo front before rest ∧ ofChars rest = .ok after := by
  fun_induction ofChars s generalizing before with
  | case1 =>
    obtain ⟨rfl, rfl⟩ := List.append_eq_nil_iff.mp (Except.ok.inj h).symm
    exact ⟨[], [], rfl, .here, ofChars_nil⟩
  | case2 c s hblank ih =>
    obtain ⟨front, rest, rfl, hcut, hrest⟩ := ih h
    exact ⟨c :: front, rest, rfl, .blank hblank hcut, hrest⟩
  | case3 c s hblank hcomment =>
    obtain ⟨rfl, rfl⟩ := List.append_eq_nil_iff.mp (Except.ok.inj h).symm
    have hstarts : StartsComment c s := startsComment_iff.mp hcomment
    exact ⟨[], c :: s, rfl, .here, ofChars_comment hstarts⟩
  | case4 c s hblank hcomment e hfirst => cases h
  | case5 c s hblank hcomment r hfirst _ e hrest => cases h
  | case6 c s hblank hcomment r hfirst _ ts hrest ih =>
    have hstarts : ¬ StartsComment c s := mt startsComment_iff.mpr hcomment
    have hcut : (first c s).map Reading.pair = .ok (r.value, r.rest) := by
      rw [hfirst]
      rfl
    cases before with
    | nil =>
      refine ⟨[], c :: s, rfl, .here, ?_⟩
      rw [ofChars_cons (Bool.eq_false_iff.mpr hblank) hstarts hcut, hrest]
      exact h
    | cons lexeme before =>
      obtain ⟨rfl, rfl⟩ := List.cons.inj (Except.ok.inj h)
      obtain ⟨front, rest, hsplit, hmore, hafter⟩ := ih hrest
      rw [hsplit] at hcut
      obtain ⟨front', hfront, hall⟩ :=
        hmore.exists_cons (Bool.eq_false_iff.mpr hblank) hstarts hcut
      exact ⟨front', rest, hfront, hall, hafter⟩

/-- Blanks between two lexemes or at an end, or a blank and a comment behind everything. -/
inductive Respaced : List Char → List Char → Prop
  | between {front rest gap : List Char} {before : List Lexeme} (place : CutTo front before rest)
    (blank : ∀ c ∈ gap, Text.isBlank c = true) : Respaced (front ++ rest) (front ++ gap ++ rest)
  | start {s gap : List Char} (blank : ∀ c ∈ gap, Text.isBlank c = true) : Respaced s (gap ++ s)
  | finish {s gap : List Char} (blank : ∀ c ∈ gap, Text.isBlank c = true) : Respaced s (s ++ gap)
  | comment {c : Char} {s said : List Char} (blank : Text.isBlank c = true) :
    Respaced s (s ++ c :: '/' :: '/' :: said)

theorem ofChars_blanks (h : ∀ c ∈ front, Text.isBlank c = true) :
    ofChars (front ++ s) = ofChars s := by
  induction front with
  | nil => rfl
  | cons c front ih =>
    obtain ⟨hc, hfront⟩ := List.forall_mem_cons.mp h
    rw [List.cons_append, ofChars_blank hc, ih hfront]

theorem inPlace_blanks (h : ∀ c ∈ front, Text.isBlank c = true) : InPlace rest (front ++ rest) := by
  cases front with
  | nil => exact .refl
  | cons c front => exact .cons (isBoundary_of_isBlank (h c List.mem_cons_self))

/-- Blanks at a place between lexemes change nothing. -/
theorem CutTo.ofChars_gap (h : CutTo front ts rest) (hgap : ∀ c ∈ s, Text.isBlank c = true) :
    ofChars (front ++ s ++ rest) = ofChars (front ++ rest) := by
  rw [List.append_assoc, h.ofChars_append (inPlace_blanks hgap), ofChars_blanks hgap,
    h.ofChars_append .refl]

theorem ofChars_append_of_none (h : ofChars s = .ok []) (h' : ofChars s' = .ok []) :
    ofChars (s ++ s') = .ok [] := by
  fun_induction ofChars s with
  | case1 => exact h'
  | case2 c s hblank ih => rw [List.cons_append, ofChars_blank hblank, ih h]
  | case3 c s hblank hcomment =>
    have hstarts : StartsComment c s := startsComment_iff.mp hcomment
    refine ofChars_comment (s := s ++ s') ⟨hstarts.1, ?_⟩
    rw [List.head?_append, hstarts.2]
    rfl
  | case4 c s hblank hcomment e hfirst => cases h
  | case5 c s hblank hcomment r hfirst _ e hrest => cases h
  | case6 c s hblank hcomment r hfirst _ ts hrest ih => cases h

theorem ofChars_append_blank (h : ofChars s = .ok ts) (hc : Text.isBlank c = true)
    (h' : ofChars (c :: s') = .ok []) : ofChars (s ++ c :: s') = .ok ts := by
  obtain ⟨front, rest, rfl, hcut, hrest⟩ := exists_cutTo (h.trans (by rw [List.append_nil]))
  have hr : InPlace rest (rest ++ c :: s') := by
    cases rest with
    | nil => exact .cons (isBoundary_of_isBlank hc)
    | cons d rest => exact fun _ hd => .inr hd
  rw [List.append_assoc, hcut.ofChars_append hr, ofChars_append_of_none hrest h', Except.map,
    List.append_nil]

theorem Respaced.ofChars_eq (hr : Respaced s s') (h : ofChars s = .ok ts) :
    ofChars s' = .ok ts := by
  cases hr with
  | between place blank => rw [place.ofChars_gap blank, h]
  | start blank => rw [ofChars_blanks blank, h]
  | @finish s gap blank =>
    cases gap with
    | nil => rwa [List.append_nil]
    | cons c gap =>
      apply ofChars_append_blank h (blank c List.mem_cons_self)
      have hgap := @ofChars_blanks [] (c :: gap) blank
      rw [List.append_nil] at hgap
      rw [hgap, ofChars_nil]
  | comment blank =>
    apply ofChars_append_blank h blank
    rw [ofChars_blank blank]
    exact ofChars_comment ⟨rfl, rfl⟩

end Lexeme

open Lexeme

/-- Spacing and comments do not matter. A text that is cut into lexemes is cut into the same ones,
and so has the same value or error, with blanks put in anywhere between two lexemes or at an end and
with a comment behind it. Any two neighbouring lexemes have such a place between them. -/
theorem evaluate_respaced (context : Context) {source : String} {ts : List Lexeme}
    (h : Lexeme.ofChars source.toList = .ok ts) :
    (∀ respaced : String, Respaced source.toList respaced.toList →
      Lexeme.ofChars respaced.toList = .ok ts ∧
        evaluate respaced context = evaluate source context) ∧
    ∀ before after, ts = before ++ after → ∃ front rest, source.toList = front ++ rest ∧
      CutTo front before rest ∧ Lexeme.ofChars rest = .ok after := by
  constructor
  · intro respaced hrespaced
    have hsame := hrespaced.ofChars_eq h
    refine ⟨hsame, ?_⟩
    rw [evaluate, evaluate, hsame, h]
  · intro before after hts
    rw [hts] at h
    exact exists_cutTo h

theorem evaluate_respaced_of_slashes :
    let ts : List Lexeme := [.name "a", .symbol '/', .text "//"]
    Lexeme.ofChars "a/'//'//c".toList = .ok ts ∧
      Respaced "a/'//'//c".toList "a /'//'//c".toList ∧
      Lexeme.ofChars "a /'//'//c".toList = .ok ts ∧
      evaluate "a /'//'//c" (.ofBase .empty) = evaluate "a/'//'//c" (.ofBase .empty) := by
  intro ts
  have h : Lexeme.ofChars "a/'//'//c".toList = .ok ts := by decide +kernel
  have hcut : (first 'a' "/'//'//c".toList).map Reading.pair =
      .ok (.name "a", "/'//'//c".toList) := by
    rw [first_name (by decide) (by decide) (by decide)]
    decide
  have hplace : CutTo ['a'] [.name "a"] "/'//'//c".toList := by
    refine @CutTo.lexeme 'a' [] [] _ _ _ (by decide) ?_ hcut .here
    intro hstarts
    cases hstarts.1
  have hblank : ∀ c ∈ [' '], Text.isBlank c = true := List.forall_mem_singleton.mpr (by decide)
  have hgap : Respaced "a/'//'//c".toList "a /'//'//c".toList :=
    @Respaced.between ['a'] _ [' '] _ hplace hblank
  exact ⟨h, hgap, (evaluate_respaced (.ofBase .empty) h).1 _ hgap⟩

end Expression

end ApiContract
