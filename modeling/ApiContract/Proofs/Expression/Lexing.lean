import ApiContract.Expression.Lexeme
import ApiContract.Json
import ApiContract.Proofs.Number.Numeral
import ApiContract.Proofs.Text.Ends

namespace ApiContract.Expression.Lexeme

variable {c : Char} {s s' rest : List Char} {ts ts' : List Lexeme}

def separators : List Char := [',', ':', ']', '\x7d']

/-- Nothing that a word or a numeral could go on with. -/
def Apart (rest : List Char) : Prop := ∀ c ∈ rest.head?, c ∈ separators

/-- A text is cut into some lexemes wherever it stands apart from what follows. -/
def Cuts (s : List Char) (ts : List Lexeme) : Prop :=
  ∀ rest, Apart rest → ofChars (s ++ rest) = (ofChars rest).map (ts ++ ·)

theorem apart_nil : Apart [] := nofun

theorem apart_cons (hc : c ∈ separators) : Apart (c :: s) := by
  rintro d ⟨⟩
  exact hc

theorem Cuts.ofChars_eq (h : Cuts s ts) : ofChars s = .ok ts := by
  have hs := h [] apart_nil
  rw [List.append_nil, ofChars.eq_def []] at hs
  rw [hs, Except.map, List.append_nil]

def StartsComment (c : Char) (s : List Char) : Prop := c = '/' ∧ s.head? = some '/'

theorem startsComment_iff : (c == '/' && s.head? == some '/') = true ↔ StartsComment c s := by
  simp [StartsComment]

theorem ofChars_cons {lexeme : Lexeme} (hb : Text.isBlank c = false) (hc : ¬ StartsComment c s)
    (h : (first c s).map Reading.pair = .ok (lexeme, rest)) :
    ofChars (c :: s) = (ofChars rest).map (lexeme :: ·) := by
  have hcomment : (c == '/' && s.head? == some '/') = false := by
    rw [Bool.eq_false_iff]
    exact mt startsComment_iff.mp hc
  rw [ofChars.eq_def]
  dsimp only
  rw [if_neg (by simp [hb]), if_neg (by simp [hcomment])]
  cases hfirst : first c s with
  | error e => rw [hfirst] at h; cases h
  | ok r =>
    rw [hfirst] at h
    cases h
    dsimp only
    cases ofChars r.rest <;> rfl

theorem ofChars_of_first {lexeme : Lexeme} (hb : Text.isBlank c = false) (hc : c ≠ '/')
    (h : (first c s).map Reading.pair = .ok (lexeme, rest)) :
    ofChars (c :: s) = (ofChars rest).map (lexeme :: ·) :=
  ofChars_cons hb (fun hcomment => hc hcomment.1) h

theorem Cuts.of_first {lexeme : Lexeme} (hb : Text.isBlank c = false) (hc : c ≠ '/')
    (h : ∀ rest, Apart rest → (first c (s ++ rest)).map Reading.pair = .ok (lexeme, rest)) :
    Cuts (c :: s) [lexeme] := fun rest hr => ofChars_of_first hb hc (h rest hr)

def marks : List Char := ['-', '[', '\x7b', '(', ')'] ++ separators

theorem marks_are_symbols : ∀ c ∈ marks, Text.isBlank c = false ∧ c ≠ '/' ∧ c ≠ '.' ∧
    c.isDigit = false ∧ c ≠ '\x22' ∧ c ≠ '\x27' ∧ isNameStart c = false ∧ isSymbol c = true := by
  simp only [marks, separators, List.cons_append, List.nil_append, List.forall_mem_cons]
  exact ⟨by decide, by decide, by decide, by decide, by decide, by decide, by decide, by decide,
    by decide, nofun⟩

theorem ofChars_mark (hc : c ∈ marks) : ofChars (c :: s) = (ofChars s).map (symbol c :: ·) := by
  obtain ⟨hb, hslash, hpoint, hdigit, hquote, hquote', hname, hsymbol⟩ := marks_are_symbols c hc
  refine ofChars_of_first hb hslash ?_
  simp [first, startsNumber, hpoint, hdigit, hquote, hquote', hname, hsymbol, Except.map,
    Reading.pair_leaving]

theorem Cuts.mark (hc : c ∈ marks) (h : Cuts s ts) : Cuts (c :: s) (symbol c :: ts) := by
  intro rest hr
  rw [List.cons_append, ofChars_mark hc, h rest hr]
  cases ofChars rest <;> rfl

theorem Cuts.separated (hc : c ∈ separators) (h : Cuts s ts) (h' : Cuts s' ts') :
    Cuts (s ++ c :: s') (ts ++ symbol c :: ts') := by
  intro rest hr
  have hmark := Cuts.mark (List.mem_append_right _ hc) h' rest hr
  rw [List.append_assoc, h (c :: s' ++ rest) (apart_cons hc), hmark]
  cases ofChars rest <;> simp [Except.map]

theorem cuts_nil : Cuts [] [] := by
  intro rest _
  cases h : ofChars rest <;> simp [h, Except.map]

def words : List String := ["null", "true", "false"]

theorem separators_end_words : ∀ c ∈ separators, isNamePart c = false := by
  simp only [separators, List.forall_mem_cons]
  exact ⟨by decide, by decide, by decide, by decide, nofun⟩

theorem words_are_names : ∀ s ∈ words, ∃ c t, s.toList = c :: t ∧ Text.isBlank c = false ∧
    c ≠ '/' ∧ c ≠ '.' ∧ c.isDigit = false ∧ c ≠ '\x22' ∧ c ≠ '\x27' ∧ isNameStart c = true ∧
    t.all isNamePart = true := by
  simp only [words, List.forall_mem_cons]
  exact ⟨⟨'n', "ull".toList, by decide⟩, ⟨'t', "rue".toList, by decide⟩,
    ⟨'f', "alse".toList, by decide⟩, nofun⟩

theorem cuts_word {s : String} (hs : s ∈ words) : Cuts s.toList [name s] := by
  obtain ⟨c, t, heq, hb, hslash, hpoint, hdigit, hquote, hquote', hstart, hparts⟩ :=
    words_are_names s hs
  rw [heq]
  refine Cuts.of_first hb hslash fun rest hr => ?_
  obtain ⟨htake, hdrop⟩ := Text.takeWhile_append_of_head (List.all_eq_true.mp hparts)
    fun d hd => separators_end_words d (hr d hd)
  have hname : String.ofList (c :: t) = s := by rw [← heq, String.ofList_toList]
  simp [first, startsNumber, hpoint, hdigit, hquote, hquote', hstart, htake, hdrop, hname,
    Except.map, Reading.pair]

def Numeric (s : List Char) : Prop :=
  ∀ rest, numberLength false (s ++ rest) = numberLength false rest + s.length

theorem Numeric.append (h : Numeric s) (h' : Numeric s') : Numeric (s ++ s') := fun rest => by
  rw [List.append_assoc, h, h', List.length_append]
  omega

theorem numeric_nil : Numeric [] := fun _ => rfl

theorem numberLength_cons {afterMark : Bool} : numberLength afterMark (c :: s) =
    if c.isDigit || c == '.' || isExponentMark c then numberLength (isExponentMark c) s + 1
    else if afterMark && (c == '-' || c == '+') then numberLength false s + 1
    else 0 := rfl

theorem isExponentMark_of_isDigit (h : c.isDigit = true) : isExponentMark c = false := by
  rw [isExponentMark, Bool.or_eq_false_iff]
  constructor <;> rw [beq_eq_false_iff_ne] <;> rintro rfl <;> cases h

theorem isBlank_of_isDigit (h : c.isDigit = true) : Text.isBlank c = false := by
  have hrange : 48 ≤ c.toNat ∧ c.toNat ≤ 57 := by
    simpa [Char.isDigit, UInt32.le_iff_toNat_le] using h
  unfold Text.isBlank
  grind

theorem numeric_digits {ds : List Char} (h : ∀ c ∈ ds, c.isDigit = true) : Numeric ds := by
  induction ds with
  | nil => exact numeric_nil
  | cons d ds ih =>
    obtain ⟨hd, hds⟩ := List.forall_mem_cons.mp h
    intro rest
    rw [List.cons_append, numberLength_cons]
    simp only [hd, Bool.true_or, if_true, isExponentMark_of_isDigit hd, ih hds rest,
      List.length_cons]
    omega

theorem numeric_fractionText {ds : List Char} (h : ∀ c ∈ ds, c.isDigit = true) :
    Numeric (Numeral.fractionText ds) := by
  cases ds with
  | nil => exact numeric_nil
  | cons d ds =>
    intro rest
    have hpoint : isExponentMark '.' = false := by decide
    rw [Numeral.fractionText_of_ne_nil (List.cons_ne_nil d ds), List.cons_append, numberLength_cons]
    simp only [hpoint, beq_self_eq_true, Bool.or_true, Bool.true_or, if_true,
      numeric_digits h rest, List.length_cons]
    omega

theorem numeric_exponentText {e : Option Int} : Numeric (Numeral.exponentText e) := by
  cases e with
  | none => exact numeric_nil
  | some e =>
    intro rest
    have hdigits := numeric_digits (Numeral.isDigit_of_mem_toDigits (n := e.natAbs)) rest
    by_cases he : e < 0 <;>
      simp [Numeral.exponentText, he, numberLength_cons, isExponentMark, hdigits, Nat.add_assoc]

theorem separators_end_numbers :
    ∀ c ∈ separators, (c.isDigit || c == '.' || isExponentMark c) = false := by
  simp only [separators, List.forall_mem_cons]
  exact ⟨by decide, by decide, by decide, by decide, nofun⟩

theorem numberLength_of_apart (h : Apart rest) : numberLength false rest = 0 := by
  cases rest with
  | nil => rfl
  | cons c rest =>
    rw [numberLength_cons, separators_end_numbers c (h c rfl)]
    rfl

theorem cuts_numeral {x : Numeral} (h : x.WellFormed) :
    Cuts x.text [number (x.toDouble false)] := by
  obtain ⟨c, ds, hwhole⟩ := List.exists_cons_of_ne_nil h.1
  obtain ⟨hc, hds⟩ := List.forall_mem_cons.mp (hwhole ▸ h.2.1)
  obtain ⟨s, hs, hnumeric⟩ : ∃ s, x.text = c :: s ∧ Numeric s := by
    refine ⟨ds ++ Numeral.fractionText x.fraction ++ Numeral.exponentText x.exponent, ?_, ?_⟩
    · rw [Numeral.text, hwhole]
      rfl
    · exact ((numeric_digits hds).append (numeric_fractionText h.2.2)).append numeric_exponentText
  have hread := Numeral.double_ofChars?_text h
  rw [hs] at hread ⊢
  have hslash : c ≠ '/' := by
    rintro rfl
    cases hc
  refine Cuts.of_first (isBlank_of_isDigit hc) hslash fun rest hr => ?_
  have hlength : numberLength false (s ++ rest) = s.length := by
    rw [hnumeric, numberLength_of_apart hr, Nat.zero_add]
  simp [first, startsNumber, hc, hlength, number?, hread, Except.map, Reading.pair]

def Bare (c : Char) : Prop := c ≠ '\x22' ∧ c ≠ '\\'

/-- What a character is read as where data escapes it. -/
def reread (c : Char) : List Char :=
  match Json.escapes c with
  | some (_ :: d :: more) => escaped d :: more
  | _ => [c]

/-- A character that is read as itself: of the controls only the three with an escape that the lexer
knows. -/
def Kept (c : Char) : Prop := 0x20 ≤ c.toNat ∨ c ∈ ['\t', '\n', '\r']

instance (c : Char) : Decidable (Bare c) := inferInstanceAs (Decidable (_ ∧ _))

instance (c : Char) : Decidable (Kept c) := inferInstanceAs (Decidable (_ ∨ _))

theorem hexDigits_bare : ∀ n < 0x20, ∀ c ∈ Text.hexDigits n, Bare c ∧ Kept c := by
  have hall : ∀ n < 0x20, (Text.hexDigits n).all fun c => Bare c ∧ Kept c := by decide
  exact fun n hn c hc => of_decide_eq_true (List.all_eq_true.mp (hall n hn) c hc)

theorem escapes_cases (c : Char) : (Json.escapes c = none ∧ Bare c ∧ Kept c) ∨
    ∃ d more, Json.escapes c = some ('\\' :: d :: more) ∧ (∀ e ∈ more, Bare e ∧ Kept e) ∧
      Kept (escaped d) ∧ (Kept c → escaped d = c ∧ more = []) := by
  unfold Json.escapes
  split_ifs with hquote hbackslash hback htab hline hfeed hreturn hcontrol
  · exact .inr ⟨'\x22', [], rfl, nofun, by decide, fun _ => ⟨hquote.symm, rfl⟩⟩
  · exact .inr ⟨'\\', [], rfl, nofun, by decide, fun _ => ⟨hbackslash.symm, rfl⟩⟩
  · exact .inr ⟨'b', [], rfl, nofun, by decide, by rw [hback]; decide⟩
  · exact .inr ⟨'t', [], rfl, nofun, by decide, fun _ => ⟨htab.symm, rfl⟩⟩
  · exact .inr ⟨'n', [], rfl, nofun, by decide, fun _ => ⟨hline.symm, rfl⟩⟩
  · exact .inr ⟨'f', [], rfl, nofun, by decide, by rw [hfeed]; decide⟩
  · exact .inr ⟨'r', [], rfl, nofun, by decide, fun _ => ⟨hreturn.symm, rfl⟩⟩
  · refine .inr ⟨'u', _, rfl, fun e he => ?_, by decide, fun hkept => ?_⟩
    · obtain he | he := List.mem_append.mp he
      · rw [List.eq_of_mem_replicate he]
        exact ⟨⟨by decide, by decide⟩, by decide⟩
      · exact hexDigits_bare c.toNat hcontrol e he
    · have hnamed : c ∈ ['\t', '\n', '\r'] := hkept.resolve_left (Nat.not_le.mpr hcontrol)
      simp [htab, hline, hreturn] at hnamed
  · exact .inl ⟨rfl, ⟨hquote, hbackslash⟩, .inl (Nat.not_lt.mp hcontrol)⟩

theorem reread_of_kept (h : Kept c) : reread c = [c] := by
  unfold reread
  obtain ⟨hnone, -⟩ | ⟨d, more, hsome, -, -, hkept⟩ := escapes_cases c
  · rw [hnone]
  · obtain ⟨rfl, rfl⟩ := hkept h
    rw [hsome]

theorem kept_of_mem_reread : ∀ d ∈ reread c, Kept d := by
  unfold reread
  obtain ⟨hnone, -, hkept⟩ | ⟨d, more, hsome, hmore, hd, -⟩ := escapes_cases c
  · rw [hnone]
    exact List.forall_mem_singleton.mpr hkept
  · rw [hsome]
    exact List.forall_mem_cons.mpr ⟨hd, fun e he => (hmore e he).2⟩

def ReadsText (s cs : List Char) : Prop := ∀ rest, (textTail '\x22' (s ++ rest)).map Reading.pair =
  ((textTail '\x22' rest).map Reading.pair).map fun p => (cs ++ p.1, p.2)

theorem readsText_nil : ReadsText [] [] := fun rest => by
  cases h : textTail '\x22' rest <;> simp [h]

theorem ReadsText.append {cs cs' : List Char} (h : ReadsText s cs) (h' : ReadsText s' cs') :
    ReadsText (s ++ s') (cs ++ cs') := fun rest => by
  rw [List.append_assoc, h, h', Option.map_map]
  simp [Function.comp_def]

theorem readsText_bare (h : Bare c) : ReadsText [c] [c] := fun rest => by
  rw [List.singleton_append, textTail.eq_def]
  simp only [h.1, h.2, if_false]
  cases textTail '\x22' rest <;> rfl

theorem readsText_escape : ReadsText ['\\', c] [escaped c] := fun rest => by
  rw [List.cons_append, List.singleton_append, textTail.eq_def]
  simp only [Char.reduceEq, if_false, if_true]
  cases textTail '\x22' rest <;> rfl

theorem readsText_bares (h : ∀ c ∈ s, Bare c) : ReadsText s s := by
  induction s with
  | nil => exact readsText_nil
  | cons c s ih =>
    obtain ⟨hc, hs⟩ := List.forall_mem_cons.mp h
    exact (readsText_bare hc).append (ih hs)

theorem readsText_write : ReadsText (Text.Escapes.write Json.escapes c) (reread c) := by
  unfold reread Text.Escapes.write
  obtain ⟨hnone, hbare, -⟩ | ⟨d, more, hsome, hmore, -⟩ := escapes_cases c
  · rw [hnone]
    exact readsText_bare hbare
  · rw [hsome]
    exact readsText_escape.append (readsText_bares fun e he => (hmore e he).1)

theorem readsText_flatMap :
    ReadsText (s.flatMap (Text.Escapes.write Json.escapes)) (s.flatMap reread) := by
  induction s with
  | nil => exact readsText_nil
  | cons c s ih => exact readsText_write.append ih

def rereadText (s : String) : String := String.ofList (s.toList.flatMap reread)

theorem textTail_end : textTail '\x22' ('\x22' :: rest) = some (.leaving [] rest) := by
  rw [textTail.eq_def]
  exact if_pos rfl

theorem cuts_quoted {s : String} : Cuts (Json.quoted s) [text (rereadText s)] := by
  rw [Json.quoted, Text.quote, List.cons_append]
  refine Cuts.of_first (by decide) (by decide) fun rest _ => ?_
  have htext := readsText_flatMap (s := s.toList) ('\x22' :: rest)
  rw [textTail_end, Option.map_some, Option.map_some, Reading.pair_leaving,
    List.append_nil] at htext
  obtain ⟨r, hr, hpair⟩ := Option.map_eq_some_iff.mp htext
  obtain ⟨hvalue, hrest⟩ := Prod.mk.inj hpair
  rw [List.append_assoc, List.singleton_append]
  simp [first, startsNumber, hr, Except.map, Reading.pair_behind, Reading.pair_map, hvalue, hrest,
    rereadText]

theorem rereadText_of_kept {s : String} (h : ∀ c ∈ s.toList, Kept c) : rereadText s = s := by
  have hall : s.toList.flatMap reread = s.toList.flatMap fun c => [c] :=
    List.flatMap_congr fun c hc => reread_of_kept (h c hc)
  rw [rereadText, hall, List.flatMap_singleton', String.ofList_toList]

theorem kept_of_mem_rereadText {s : String} : ∀ c ∈ (rereadText s).toList, Kept c := by
  intro c hc
  rw [rereadText, String.toList_ofList] at hc
  obtain ⟨d, -, hd⟩ := List.mem_flatMap.mp hc
  exact kept_of_mem_reread c hd

end ApiContract.Expression.Lexeme
