import ApiContract.Proofs.Document.Parsing
import ApiContract.Proofs.Template.Unplaced

namespace ApiContract.Document

def Registration.unplaced : Registration → Registration
  | cleared _ => cleared (Span.line 0)
  | inserted _ => inserted (Span.line 0)

namespace Registrations

def unplaced (registrations : Registrations) : Registrations :=
  registrations.map fun member => (member.1, member.2.unplaced)

theorem get?_unplaced (collection : String) (registrations : Registrations) :
    Fields.get? collection (unplaced registrations) =
      (Fields.get? collection registrations).map Registration.unplaced :=
  @Fields.get?_map _ _ collection registrations fun _ registration => registration.unplaced

theorem set_unplaced (collection : String) (registration : Registration)
    (registrations : Registrations) :
    Fields.set collection registration.unplaced (unplaced registrations) =
      unplaced (Fields.set collection registration registrations) :=
  Fields.set_map Registration.unplaced collection registration registrations

theorem has_unplaced (collection : String) (registrations : Registrations) :
    Fields.has collection (unplaced registrations) = Fields.has collection registrations := by
  rw [Fields.has, get?_unplaced, Option.isSome_map, Fields.has]

theorem keys_unplaced (registrations : Registrations) :
    Fields.keys (unplaced registrations) = Fields.keys registrations := by
  rw [Fields.keys, unplaced, List.map_map]
  rfl

end Registrations

theorem readBlock_unplaced (place : Span) (tokens : List Token) :
    readBlock (Span.line 0) (tokens.map Token.unplaced) = unplacing id (readBlock place tokens) := by
  rcases tokens with _ | ⟨_ | ⟨first, more⟩, tokens⟩
  · rfl
  · rfl
  · change Template.ofBlock (first.unplaced :: more.map Line.unplaced) _ = _
    rw [Line.spanOf_unplaced]
    exact Template.ofLines_unplaced (first :: more) _ false

theorem skipBlock_unplaced (tokens : List Token) :
    skipBlock (tokens.map Token.unplaced) = (skipBlock tokens).map Token.unplaced := by
  rcases tokens with _ | ⟨_ | _, tokens⟩ <;> rfl

theorem noBlock_unplaced (tokens : List Token) :
    noBlock (tokens.map Token.unplaced) = unplacing id (noBlock tokens) := by
  rcases tokens with _ | ⟨_ | ⟨first, more⟩, tokens⟩
  · rfl
  · rfl
  · change Except.error (Fault.unexpectedBlock (Line.spanOf _ _)) = _
    rw [Line.spanOf_unplaced]
    rfl

namespace Prepared

def unplaced (prepared : Prepared) : Prepared :=
  { prepared with registrations := Registrations.unplaced prepared.registrations }

theorem clear_unplaced (prepared : Prepared) (collection : String) (place : Span) :
    prepared.unplaced.clear collection (Span.line 0) =
      unplacing unplaced (prepared.clear collection place) := by
  simp only [clear, unplaced, Registrations.get?_unplaced]
  cases Fields.get? collection prepared.registrations with
  | none =>
    have hset := Registrations.set_unplaced collection (.cleared place) prepared.registrations
    exact congrArg (fun registrations => Except.ok (Prepared.mk _ registrations)) hset
  | some registration => cases registration <;> rfl

theorem insert_unplaced (prepared : Prepared) (name collection : String) (template : Template)
    (place : Span) :
    prepared.unplaced.insert name collection template (Span.line 0) =
      (prepared.insert name collection template place).unplaced := by
  have hset := Registrations.set_unplaced collection (.inserted place) prepared.registrations
  simp only [insert, unplaced, Registrations.has_unplaced]
  exact congrArg (Prepared.mk _) hset

end Prepared

theorem readSetup_unplaced (text : List Char) (place : Span) (behind : List Token)
    (prepared : Prepared) :
    readSetup text (Span.line 0) (behind.map Token.unplaced) prepared.unplaced =
      unplacing Prepared.unplaced (readSetup text place behind prepared) := by
  unfold readSetup
  split
  · rw [Prepared.clear_unplaced prepared _ place, noBlock_unplaced]
    exact unplacing_bind fun next _ => unplacing_bind fun _ _ => rfl
  · split
    · rw [readBlock_unplaced place]
      exact unplacing_bind fun template _ => rfl
    · split
      · rw [readBlock_unplaced place]
        refine unplacing_bind fun template _ => ?_
        rw [id, Prepared.insert_unplaced]
        rfl
      · rfl

theorem readSetups_unplaced (prepared : Prepared) (tokens : List Token) :
    readSetups prepared.unplaced (tokens.map Token.unplaced) =
      unplacing (Prod.map Prepared.unplaced (List.map Token.unplaced))
        (readSetups prepared tokens) := by
  fun_induction readSetups prepared tokens with
  | case1 => rw [List.map_nil, readSetups]; rfl
  | case2 prepared text place tokens =>
    rw [List.map_cons, Token.unplaced, readSetups, if_pos rfl]
    rfl
  | case3 prepared text place tokens fault he =>
    rw [List.map_cons, Token.unplaced, readSetups]
    simp only [Nat.reduceEqDiff, ↓reduceIte, readSetup_unplaced text place, he, unplacing_error]
  | case4 prepared text place tokens next hn _ ih =>
    rw [List.map_cons, Token.unplaced, readSetups]
    simp only [Nat.reduceEqDiff, ↓reduceIte, readSetup_unplaced text place, hn, unplacing_ok,
      skipBlock_unplaced, ih]
  | case5 prepared level text place tokens h₂ h₃ =>
    rw [List.map_cons, Token.unplaced, readSetups, if_neg h₂, if_neg h₃]
    rfl
  | case6 prepared first more tokens =>
    rw [List.map_cons, Token.unplaced, readSetups, Line.spanOf_unplaced]
    rfl

theorem readPart_unplaced {α : Type} (form? : List Char → Option α) (tokens : List Token) :
    readPart form? (tokens.map Token.unplaced) =
      unplacing (Prod.map id (List.map Token.unplaced)) (readPart form? tokens) := by
  rcases tokens with _ | ⟨⟨level, text, place⟩ | ⟨first, more⟩, behind⟩
  · rfl
  · by_cases h : level = 3
    · subst h
      simp only [List.map_cons, Token.unplaced, readPart]
      cases form? text with
      | none => rfl
      | some a =>
        rw [readBlock_unplaced place, skipBlock_unplaced]
        exact unplacing_bind fun template _ => rfl
    · simp [readPart, Token.unplaced, h]
  · rfl

section Cases

variable {registrations : Registrations}

theorem readFinds_unplaced (tokens : List Token) :
    readFinds (Registrations.unplaced registrations) (tokens.map Token.unplaced) =
      unplacing id (readFinds registrations tokens) := by
  fun_induction readFinds registrations tokens with
  | case1 => rw [List.map_nil, readFinds]; rfl
  | case2 text place tokens hf =>
    rw [List.map_cons, Token.unplaced, readFinds]
    simp only [↓reduceIte, hf]
    rfl
  | case3 text place tokens collection hf hk fault he =>
    rw [List.map_cons, Token.unplaced, readFinds]
    simp only [↓reduceIte, hf, Registrations.has_unplaced, hk, readBlock_unplaced place, he,
      unplacing_error]
  | case4 text place tokens collection hf hk template ht fault he ih =>
    rw [List.map_cons, Token.unplaced, readFinds]
    simp only [↓reduceIte, hf, Registrations.has_unplaced, hk, readBlock_unplaced place, ht,
      unplacing_ok, skipBlock_unplaced, ih, he, unplacing_error]
  | case5 text place tokens collection hf hk template ht finds he ih =>
    rw [List.map_cons, Token.unplaced, readFinds]
    simp only [↓reduceIte, hf, Registrations.has_unplaced, hk, readBlock_unplaced place, ht,
      unplacing_ok, skipBlock_unplaced, ih, he, id]
  | case6 text place tokens collection hf hk =>
    rw [List.map_cons, Token.unplaced, readFinds]
    simp only [↓reduceIte, hf, Registrations.has_unplaced, hk]
    rfl
  | case7 level text place tokens hl =>
    rw [List.map_cons, Token.unplaced, readFinds, if_neg hl]
    rfl
  | case8 first more tokens =>
    rw [List.map_cons, Token.unplaced, readFinds, Line.spanOf_unplaced]
    rfl

theorem readCase_unplaced (title : List Char) (tokens : List Token) :
    readCase (Registrations.unplaced registrations) title (tokens.map Token.unplaced) =
      unplacing id (readCase registrations title tokens) := by
  unfold readCase
  rw [readPart_unplaced]
  refine unplacing_bind fun read _ => ?_
  obtain ⟨post, behind⟩ := read
  change (readPart Heading.out? (behind.map Token.unplaced) >>= _) = _
  rw [readPart_unplaced]
  refine unplacing_bind fun read _ => ?_
  obtain ⟨out, rest⟩ := read
  change (readFinds _ (rest.map Token.unplaced) >>= _) = _
  rw [readFinds_unplaced]
  exact unplacing_bind fun finds _ => rfl

theorem isTitle_unplaced (token : Token) : isTitle token.unplaced = isTitle token := by
  cases token <;> rfl

theorem takeWhile_unplaced (tokens : List Token) :
    (tokens.map Token.unplaced).takeWhile (!isTitle ·) =
      (tokens.takeWhile (!isTitle ·)).map Token.unplaced := by
  rw [List.takeWhile_map]
  simp only [Function.comp_def, isTitle_unplaced]

theorem dropWhile_unplaced (tokens : List Token) :
    (tokens.map Token.unplaced).dropWhile (!isTitle ·) =
      (tokens.dropWhile (!isTitle ·)).map Token.unplaced := by
  rw [List.dropWhile_map]
  simp only [Function.comp_def, isTitle_unplaced]

theorem readCases_unplaced (tokens : List Token) :
    readCases (Registrations.unplaced registrations) (tokens.map Token.unplaced) =
      unplacing id (readCases registrations tokens) := by
  fun_induction readCases registrations tokens with
  | case1 => rw [List.map_nil, readCases]; rfl
  | case2 tokens title place fault he =>
    rw [List.map_cons, Token.unplaced, readCases]
    simp only [takeWhile_unplaced, readCase_unplaced, he, unplacing_error]
  | case3 tokens title place c hc fault he ih =>
    rw [List.map_cons, Token.unplaced, readCases]
    simp only [takeWhile_unplaced, readCase_unplaced, hc, unplacing_ok, dropWhile_unplaced, ih, he,
      unplacing_error]
  | case4 tokens title place c hc cases he ih =>
    rw [List.map_cons, Token.unplaced, readCases]
    simp only [takeWhile_unplaced, readCase_unplaced, hc, unplacing_ok, dropWhile_unplaced, ih, he,
      id]
  | case5 token tokens hne =>
    rw [List.map_cons, readCases]
    · rw [Token.span_unplaced]
      rfl
    · intro title place ht
      cases token with
      | heading level text span =>
        cases ht
        exact hne title span rfl
      | block => cases ht

end Cases

theorem skipToSetup_unplaced (tokens : List Token) :
    skipToSetup (tokens.map Token.unplaced) =
      (skipToSetup tokens).map (Prod.map (fun _ => Span.line 0) (List.map Token.unplaced)) := by
  fun_induction skipToSetup tokens with
  | case1 => rfl
  | case2 place tokens => rfl
  | case3 token tokens hne ih =>
    rw [List.map_cons, skipToSetup, ih]
    intro place ht
    cases token with
    | heading level text span =>
      cases ht
      exact hne span rfl
    | block => cases ht

/-- The places of headings and blocks make no difference to the document read from them, nor to
what is wrong with them. -/
theorem ofTokens_unplaced (tokens : List Token) :
    ofTokens (tokens.map Token.unplaced) = unplacing id (ofTokens tokens) := by
  rcases tokens with _ | ⟨⟨level, title, place⟩ | ⟨first, more⟩, tokens⟩
  · rfl
  · by_cases h : level = 1
    · subst h
      simp only [List.map_cons, Token.unplaced, ofTokens, skipToSetup_unplaced]
      cases skipToSetup tokens with
      | none => cases tokens <;> simp [Fault.unplaced]
      | some found =>
        obtain ⟨setup, rest⟩ := found
        change (readSetups (Prepared.unplaced ⟨[], []⟩) (rest.map Token.unplaced) >>= _) = _
        rw [readSetups_unplaced]
        refine unplacing_bind fun read _ => ?_
        obtain ⟨prepared, front⟩ := read
        change (readCases (Registrations.unplaced prepared.registrations)
          (front.map Token.unplaced) >>= _) = _
        rw [readCases_unplaced]
        refine unplacing_bind fun cases _ => ?_
        simp only [Prod.map, id, Prepared.unplaced, Registrations.keys_unplaced]
        split <;> rfl
    · simp [ofTokens, Token.unplaced, h, Token.span, Fault.unplaced]
  · simp [ofTokens, Token.unplaced, Token.span, Line.spanOf_unplaced, Fault.unplaced]

end ApiContract.Document
