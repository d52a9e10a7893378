import ApiContract.Proofs.Document.Parsing

namespace ApiContract.Document

open Heading

def AtTitle (tokens : List Token) : Prop := ∀ token ∈ tokens.head?, isTitle token = true

def untilTitle (tokens : List Token) : List Token := tokens.takeWhile (!isTitle ·)

def fromTitle (tokens : List Token) : List Token := tokens.dropWhile (!isTitle ·)

variable {registrations : Registrations} {token : Token} {tokens rest : List Token} {c : Case}
  {place : Span}

theorem untilTitle_cons (h : isTitle token = false) :
    untilTitle (token :: tokens) = token :: untilTitle tokens := by
  simp [untilTitle, h]

theorem fromTitle_cons (h : isTitle token = false) :
    fromTitle (token :: tokens) = fromTitle tokens := by
  simp [fromTitle, h]

theorem untilTitle_title {title : List Char} :
    untilTitle (.heading 2 title place :: tokens) = [] := rfl

theorem fromTitle_title {title : List Char} :
    fromTitle (.heading 2 title place :: tokens) = .heading 2 title place :: tokens := rfl

theorem isTitle_heading {level : Nat} {text : List Char} (h : level ≠ 2) :
    isTitle (.heading level text place) = false := beq_false_of_ne h

theorem untilTitle_item {text : List Char} :
    untilTitle (.heading 3 text place :: tokens) = .heading 3 text place :: untilTitle tokens :=
  untilTitle_cons (isTitle_heading (by decide))

theorem fromTitle_item {text : List Char} :
    fromTitle (.heading 3 text place :: tokens) = fromTitle tokens :=
  fromTitle_cons (isTitle_heading (by decide))

theorem isTitle_block {first : Line} {more : List Line} : isTitle (.block first more) = false := rfl

theorem atTitle_fromTitle (tokens : List Token) : AtTitle (fromTitle tokens) := by
  intro token htoken
  have hhead := List.head?_dropWhile_not (!isTitle ·) tokens
  rw [← fromTitle, Option.mem_def.mp htoken] at hhead
  simpa using hhead

theorem length_fromTitle_le (tokens : List Token) : (fromTitle tokens).length ≤ tokens.length :=
  (List.dropWhile_sublist _).length_le

theorem readBlock_untilTitle (place : Span) (tokens : List Token) :
    readBlock place (untilTitle tokens) = readBlock place tokens := by
  rcases tokens with _ | ⟨⟨level, text, span⟩ | ⟨first, more⟩, tokens⟩
  · rfl
  · by_cases h : level = 2
    · subst h
      rfl
    · rw [untilTitle_cons (isTitle_heading h)]
      rfl
  · rw [untilTitle_cons isTitle_block]
    rfl

theorem skipBlock_untilTitle (tokens : List Token) :
    skipBlock (untilTitle tokens) = untilTitle (skipBlock tokens) := by
  rcases tokens with _ | ⟨⟨level, text, span⟩ | ⟨first, more⟩, tokens⟩
  · rfl
  · by_cases h : level = 2
    · subst h
      rfl
    · rw [untilTitle_cons (isTitle_heading h), skipBlock, skipBlock,
        untilTitle_cons (isTitle_heading h)]
      all_goals simp
  · rw [untilTitle_cons isTitle_block]
    rfl

theorem fromTitle_skipBlock (tokens : List Token) :
    fromTitle (skipBlock tokens) = fromTitle tokens := by
  unfold skipBlock
  split
  · rw [fromTitle_cons isTitle_block]
  · rfl

section Part

variable {α : Type} {form? : List Char → Option α} {part : Option (α × Template)}

theorem readPart_untilTitle (form? : List Char → Option α) (tokens : List Token) :
    readPart form? (untilTitle tokens) =
      (readPart form? tokens).map fun read => (read.1, untilTitle read.2) := by
  rcases tokens with _ | ⟨⟨level, text, span⟩ | ⟨first, more⟩, tokens⟩
  · rfl
  · by_cases h : level = 2
    · subst h
      rfl
    · rw [untilTitle_cons (isTitle_heading h)]
      by_cases h₃ : level = 3
      · subst h₃
        simp only [readPart]
        cases form? text with
        | none => simp [Except.map, untilTitle_cons (isTitle_heading h)]
        | some a =>
          rw [readBlock_untilTitle, skipBlock_untilTitle]
          cases readBlock span tokens <;> rfl
      · simp [readPart, h₃, Except.map, untilTitle_cons (isTitle_heading h)]
  · rw [untilTitle_cons isTitle_block]
    simp [readPart, Except.map, untilTitle_cons isTitle_block]

theorem fromTitle_of_readPart (h : readPart form? tokens = .ok (part, rest)) :
    fromTitle rest = fromTitle tokens := by
  unfold readPart at h
  split at h
  · split at h
    · obtain ⟨template, -, he⟩ := bind_eq_ok_iff.mp h
      cases he
      rw [fromTitle_skipBlock, fromTitle_item]
    · cases h
      rfl
  · cases h
    rfl

end Part

def findsFrom (registrations : Registrations) :
    List Token → Except Fault (List Find × List Token)
  | [] => .ok ([], [])
  | .heading level text place :: tokens =>
    if level = 2 then .ok ([], .heading level text place :: tokens)
    else if level = 3 then
      match Heading.find? text with
      | none => .error (.expected place findForm)
      | some collection =>
        if Fields.has collection registrations then
          match readBlock place tokens with
          | .error fault => .error fault
          | .ok template =>
            match findsFrom registrations (skipBlock tokens) with
            | .error fault => .error fault
            | .ok (finds, rest) => .ok (⟨collection, template⟩ :: finds, rest)
        else .error (.unknownCollection place collection)
    else .error (.expected place findForm)
  | .block first more :: _ => .error (.expected (Line.spanOf first more) findForm)
termination_by tokens => tokens.length
decreasing_by exact Nat.lt_succ_of_le (length_skipBlock_le tokens)

def caseForm : String := "\"## _caseName_\""

def caseFrom (registrations : Registrations) (token : Token) (tokens : List Token) :
    Except Fault (Case × List Token) :=
  match token with
  | .heading 2 title _ => do
    let (post, tokens) ← readPart Heading.post? tokens
    let (out, tokens) ← readPart Heading.out? tokens
    let (finds, rest) ← findsFrom registrations tokens
    .ok (caseOf title post out finds, rest)
  | _ => .error (.expected token.span caseForm)

/-- The finds are those of the tokens up to the next title, and there the cursor stops. -/
theorem findsFrom_eq (tokens : List Token) : findsFrom registrations tokens =
    (readFinds registrations (untilTitle tokens)).map fun finds => (finds, fromTitle tokens) := by
  fun_induction findsFrom registrations tokens with
  | case1 => simp [untilTitle, fromTitle, readFinds, Except.map]
  | case2 text place tokens =>
    rw [untilTitle_title, fromTitle_title, readFinds]
    rfl
  | case3 text place tokens hf =>
    rw [untilTitle_item, readFinds, if_pos rfl, hf]
    rfl
  | case4 text place tokens collection hf hk fault hb =>
    rw [untilTitle_item, readFinds, if_pos rfl]
    simp only [hf, hk, readBlock_untilTitle, hb, ↓reduceIte]
    rfl
  | case5 text place tokens collection hf hk template hb fault he _ ih =>
    have hfinds : readFinds registrations (untilTitle (skipBlock tokens)) = .error fault :=
      map_eq_error_iff.mp (ih.symm.trans he)
    rw [untilTitle_item, readFinds, if_pos rfl]
    simp only [hf, hk, readBlock_untilTitle, hb, skipBlock_untilTitle, hfinds, ↓reduceIte]
    rfl
  | case6 text place tokens collection hf hk template hb finds rest he _ ih =>
    obtain ⟨found, hfinds, hread⟩ := map_eq_ok_iff.mp (ih.symm.trans he)
    cases hread
    rw [untilTitle_item, readFinds, if_pos rfl, fromTitle_item, fromTitle_skipBlock]
    simp only [hf, hk, readBlock_untilTitle, hb, skipBlock_untilTitle, hfinds, ↓reduceIte]
    rfl
  | case7 text place tokens collection hf hk =>
    rw [untilTitle_item, readFinds, if_pos rfl]
    simp only [hf, hk, Bool.false_eq_true, ↓reduceIte]
    rfl
  | case8 level text place tokens hlevel hl =>
    rw [untilTitle_cons (isTitle_heading hlevel), readFinds, if_neg hl]
    rfl
  | case9 first more tokens =>
    rw [untilTitle_cons isTitle_block, readFinds]
    rfl

theorem caseFrom_title (title : List Char) (place : Span) (tokens : List Token) :
    caseFrom registrations (.heading 2 title place) tokens =
      (readCase registrations title (untilTitle tokens)).map fun c => (c, fromTitle tokens) := by
  rw [caseFrom, readCase, readPart_untilTitle]
  cases hpost : readPart post? tokens with
  | error fault => rfl
  | ok read =>
    obtain ⟨post, behind⟩ := read
    change (readPart out? behind >>= _) = ((readPart out? (untilTitle behind) >>= _)).map _
    rw [readPart_untilTitle]
    cases hout : readPart out? behind with
    | error fault => rfl
    | ok read =>
      obtain ⟨out, last⟩ := read
      have hrest : fromTitle last = fromTitle tokens :=
        (fromTitle_of_readPart hout).trans (fromTitle_of_readPart hpost)
      change (findsFrom registrations last >>= _) =
        (readFinds registrations (untilTitle last) >>= _).map _
      rw [findsFrom_eq, hrest]
      cases readFinds registrations (untilTitle last) <;> rfl

theorem eq_of_caseFrom (h : caseFrom registrations token tokens = .ok (c, rest)) :
    rest = fromTitle tokens := by
  unfold caseFrom at h
  split at h
  · rename_i title place
    obtain ⟨found, -, hread⟩ := map_eq_ok_iff.mp ((caseFrom_title title place tokens).symm.trans h)
    cases hread
    rfl
  · cases h

def casesFrom (registrations : Registrations) : List Token → Except Fault (List Case)
  | [] => .ok []
  | token :: tokens =>
    match _h : caseFrom registrations token tokens with
    | .error fault => .error fault
    | .ok (c, rest) =>
      match casesFrom registrations rest with
      | .error fault => .error fault
      | .ok cases => .ok (c :: cases)
termination_by tokens => tokens.length
decreasing_by
  rw [eq_of_caseFrom _h]
  exact Nat.lt_succ_of_le (length_fromTitle_le tokens)

theorem casesFrom_cons : casesFrom registrations (token :: tokens) =
    caseFrom registrations token tokens >>= fun read =>
      casesFrom registrations read.2 >>= fun cases => .ok (read.1 :: cases) := by
  rw [casesFrom]
  split
  · rename_i fault h
    rw [h, error_bind]
  · rename_i c rest h
    rw [h, ok_bind]
    cases casesFrom registrations rest <;> rfl

theorem caseFrom_of_not_isTitle (h : isTitle token = false) :
    caseFrom registrations token tokens = .error (.expected token.span caseForm) := by
  unfold caseFrom
  split
  · cases h
  · rfl

/-- The cursor gives the same cases, and the same faults. -/
theorem casesFrom_eq_readCases (registrations : Registrations) (tokens : List Token) :
    casesFrom registrations tokens = readCases registrations tokens := by
  fun_induction readCases registrations tokens with
  | case1 => rw [casesFrom]
  | case2 tokens title place fault hc =>
    rw [casesFrom_cons, caseFrom_title, untilTitle, hc]
    rfl
  | case3 tokens title place c hc fault he ih =>
    rw [casesFrom_cons, caseFrom_title, untilTitle, hc]
    change (casesFrom registrations (tokens.dropWhile (!isTitle ·)) >>= _) = _
    rw [ih, he]
    rfl
  | case4 tokens title place c hc cases he ih =>
    rw [casesFrom_cons, caseFrom_title, untilTitle, hc]
    change (casesFrom registrations (tokens.dropWhile (!isTitle ·)) >>= _) = _
    rw [ih, he]
    rfl
  | case5 token tokens hne =>
    have htitle : isTitle token = false := by
      rcases token with ⟨level, title, place⟩ | _
      · apply isTitle_heading
        rintro rfl
        exact hne title place rfl
      · rfl
    rw [casesFrom_cons, caseFrom_of_not_isTitle htitle]
    rfl

theorem atTitle_of_caseFrom (h : caseFrom registrations token tokens = .ok (c, rest)) :
    AtTitle rest := by
  rw [eq_of_caseFrom h]
  exact atTitle_fromTitle tokens

theorem atTitle_of_readSetups {prepared next : Prepared}
    (h : readSetups prepared tokens = .ok (next, rest)) : AtTitle rest := by
  fun_induction readSetups prepared tokens with
  | case1 prepared =>
    cases h
    rintro token ⟨⟩
  | case2 prepared text place tokens =>
    cases h
    rintro token ⟨⟩
    rfl
  | case4 prepared text place tokens next' _ _ ih => exact ih h
  | _ => cases h

end ApiContract.Document
