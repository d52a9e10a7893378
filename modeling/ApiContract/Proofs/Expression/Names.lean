import ApiContract.Proofs.Expression.Spacing
import ApiContract.Proofs.Path.Writing

namespace ApiContract.Expression

theorem constant?_eq_none {s : String} (h : s ∉ ["true", "false", "null", "undefined"]) :
    constant? s = none := by
  simp only [List.mem_cons, List.not_mem_nil, or_false, not_or] at h
  unfold constant?
  split <;> simp_all

namespace Lexeme

variable {c : Char} {s name rest : List Char} {parts : List String}

def isName : List Char → Bool
  | [] => false
  | c :: s => isNameStart c && s.all isNamePart

theorem isNamePart_of_isNameStart (h : isNameStart c = true) : isNamePart c = true := by
  simp only [isNameStart, Bool.or_eq_true] at h
  simp only [isNamePart, Text.isAlphanumeric, Bool.or_eq_true]
  exact h.imp_left fun h => h.imp_left .inl

theorem isNameStart_of_isStart (h : Identifier.isStart c = true) : isNameStart c = true := by
  simp only [Identifier.isStart, Bool.or_eq_true] at h
  simp only [isNameStart, Bool.or_eq_true]
  exact h.imp_left fun h => h.imp_left Text.isAlphabetic_of_isAlpha

theorem isNamePart_of_isPart (h : Identifier.isPart c = true) : isNamePart c = true := by
  obtain h | h := (Bool.or_eq_true _ _).mp h
  · exact isNamePart_of_isNameStart (isNameStart_of_isStart h)
  · simp [isNamePart, Text.isAlphanumeric_of_isDigit h]

theorem isName_of_isValid (h : Identifier.isValid s = true) : isName s = true := by
  obtain ⟨c, t, rfl, hc, ht⟩ := Identifier.exists_cons_of_isValid h
  rw [isName, isNameStart_of_isStart hc, Bool.true_and, List.all_eq_true]
  exact fun d hd => isNamePart_of_isPart (ht d hd)

theorem not_isBlank_of_isNameStart (h : isNameStart c = true) : Text.isBlank c = false := by
  by_contra hblank
  have hnot := not_isNamePart_of_isBoundary
    (isBoundary_of_isBlank (Bool.eq_true_of_not_eq_false hblank))
  rw [isNamePart_of_isNameStart h] at hnot
  cases hnot

theorem not_isDigit_of_isNameStart (h : isNameStart c = true) : c.isDigit = false := by
  by_contra hdigit
  have hrange : 48 ≤ c.toNat ∧ c.toNat < 58 := by
    simpa [Char.isDigit, UInt32.le_iff_toNat_le, Nat.lt_succ_iff] using hdigit
  have hletter : ∀ n < 58, 48 ≤ n → Text.alphabetic.covers n = false := by decide +kernel
  simp only [isNameStart, Text.isAlphabetic, hletter _ hrange.2 hrange.1, Bool.false_or,
    Bool.or_eq_true, beq_iff_eq] at h
  obtain rfl | rfl := h <;> exact hdigit rfl

theorem exists_cons_of_isName (h : isName s = true) :
    ∃ c t, s = c :: t ∧ isNameStart c = true ∧ ∀ d ∈ t, isNamePart d = true := by
  cases s with
  | nil => cases h
  | cons c t =>
    simp only [isName, Bool.and_eq_true, List.all_eq_true] at h
    exact ⟨c, t, rfl, h⟩

theorem ofChars_name (hn : isName name = true) (hr : ∀ c ∈ rest.head?, isNamePart c = false) :
    ofChars (name ++ rest) = (ofChars rest).map (.name (String.ofList name) :: ·) := by
  obtain ⟨c, t, rfl, hc, ht⟩ := exists_cons_of_isName hn
  have hne : ∀ d, isNameStart d = false → c ≠ d := by
    rintro d hd rfl
    rw [hc] at hd
    cases hd
  have hquote : ¬ (c = '\x22' ∨ c = '\x27') :=
    not_or.mpr ⟨hne '\x22' (by decide), hne '\x27' (by decide)⟩
  have hstart : startsNumber c (t ++ rest) = false := by
    simp [startsNumber, not_isDigit_of_isNameStart hc, hne '.' (by decide)]
  obtain ⟨htake, hdrop⟩ := Text.takeWhile_append_of_head ht hr
  rw [List.cons_append]
  apply ofChars_of_first (not_isBlank_of_isNameStart hc) (hne '/' (by decide))
  rw [first_name hstart hquote hc, htake, hdrop]

theorem ofChars_identifier (hn : Identifier.isValid name = true)
    (hr : ∀ c ∈ rest.head?, isNamePart c = false) :
    ofChars (name ++ rest) = (ofChars rest).map (.name (String.ofList name) :: ·) :=
  ofChars_name (isName_of_isValid hn) hr

theorem ofChars_point (h : ∀ c ∈ s.head?, c.isDigit = false) :
    ofChars ('.' :: s) = (ofChars s).map (.symbol '.' :: ·) := by
  apply ofChars_of_first (by decide) (by decide)
  have hnumber : s.head?.any Char.isDigit = false := by
    cases s with
    | nil => rfl
    | cons c s => exact h c rfl
  have hsymbol : isSymbol '.' = true := by decide
  have hname : isNameStart '.' = false := by decide
  simp [first, startsNumber, hnumber, hsymbol, hname, Except.map, Reading.pair_leaving]

theorem ofChars_member (hn : isName name = true) (hr : ∀ c ∈ rest.head?, isNamePart c = false) :
    ofChars ('.' :: (name ++ rest)) =
      (ofChars rest).map fun ts => .symbol '.' :: .name (String.ofList name) :: ts := by
  have hhead : ∀ d ∈ (name ++ rest).head?, d.isDigit = false := by
    obtain ⟨c, t, rfl, hc, -⟩ := exists_cons_of_isName hn
    rintro d ⟨⟩
    exact not_isDigit_of_isNameStart hc
  rw [ofChars_point hhead, ofChars_name hn hr]
  cases ofChars rest <;> rfl

theorem ofChars_members (hparts : ∀ part ∈ parts, isName part.toList = true)
    (hr : ∀ c ∈ rest.head?, isNamePart c = false) :
    ofChars ((parts.flatMap fun part => '.' :: part.toList) ++ rest) =
      (ofChars rest).map ((parts.flatMap fun part => [.symbol '.', .name part]) ++ ·) := by
  induction parts with
  | nil => cases h : ofChars rest <;> simp [h, Except.map]
  | cons part parts ih =>
    obtain ⟨hpart, hparts⟩ := List.forall_mem_cons.mp hparts
    have hhead : ∀ d ∈ ((parts.flatMap fun part => '.' :: part.toList) ++ rest).head?,
        isNamePart d = false := by
      cases parts with
      | nil => exact hr
      | cons next parts =>
        rintro d ⟨⟩
        decide
    rw [List.flatMap_cons, List.append_assoc, List.cons_append, ofChars_member hpart hhead,
      ih hparts, String.ofList_toList]
    cases ofChars rest <;> rfl

end Lexeme

end ApiContract.Expression
