import ApiContract.Json.Reading
import ApiContract.Proofs.Fields
import ApiContract.Proofs.Number.Conversion

namespace ApiContract.Json

variable {c d : Char} {s gap rest : List Char}

theorem exists_of_map_pair {α : Type} {n : Nat} {found : Option (Reading Char α n)} {a : α}
    (h : found.map Reading.pair = some (a, rest)) :
    ∃ r, found = some r ∧ r.value = a ∧ r.rest = rest := by
  obtain ⟨r, hr, hpair⟩ := Option.map_eq_some_iff.mp h
  cases hpair
  exact ⟨r, hr, rfl, rfl⟩

def Gap (s : List Char) : Prop := ∀ c ∈ s, isGap c = true

theorem Gap.append {other : List Char} (h : Gap gap) (h' : Gap other) : Gap (gap ++ other) :=
  List.forall_mem_append.mpr ⟨h, h'⟩

theorem pair_front?_gaps (h : Gap gap) :
    (front? (gap ++ s)).map Reading.pair = (front? s).map Reading.pair := by
  induction gap with
  | nil => rfl
  | cons c gap ih =>
    obtain ⟨hc, hgap⟩ := List.forall_mem_cons.mp h
    rw [List.cons_append, front?, if_pos hc, Option.map_map, ← ih hgap]
    rfl

theorem pair_front?_here (h : isGap c = false) :
    (front? (c :: s)).map Reading.pair = some (c, s) := by
  rw [front?, if_neg (Bool.eq_false_iff.mp h)]
  rfl

theorem pair_mark? :
    (mark? c s).map Reading.pair = ((front? s).map Reading.pair).filter fun p => p.1 = c := by
  rw [mark?]
  cases front? s with
  | none => rfl
  | some r =>
    by_cases h : r.value = c
    · simp [Option.filter, Reading.pair, h]
    · simp [Option.filter, Reading.pair, h]

theorem pair_mark?_of_front? (h : (front? s).map Reading.pair = some (c, rest)) :
    (mark? c s).map Reading.pair = some (c, rest) := by
  rw [pair_mark?, h]
  simp

theorem mark?_eq_none (h : (front? s).map Reading.pair = some (d, rest)) (hne : d ≠ c) :
    mark? c s = none := by
  have hpair : (mark? c s).map Reading.pair = none := by
    rw [pair_mark?, h]
    simp [hne]
  exact Option.map_eq_none_iff.mp hpair

theorem pair_front?_of_mark? (h : (mark? c s).map Reading.pair = some (d, rest)) :
    (front? s).map Reading.pair = some (c, rest) := by
  rw [pair_mark?] at h
  obtain ⟨hfront, hd⟩ := Option.filter_eq_some_iff.mp h
  obtain rfl : d = c := of_decide_eq_true hd
  exact hfront

theorem hexFour?_hexDigits : ∀ n < 0x20, ∃ a b,
    List.replicate (4 - (Text.hexDigits n).length) '0' ++ Text.hexDigits n = ['0', '0', a, b] ∧
      hexFour? '0' '0' a b = some n := by
  have hall : ∀ n < 0x20,
      List.replicate (4 - (Text.hexDigits n).length) '0' ++ Text.hexDigits n =
        ['0', '0', (n / 16).digitChar, (n % 16).digitChar] ∧
      hexFour? '0' '0' (n / 16).digitChar (n % 16).digitChar = some n := by
    decide
  exact fun n hn => ⟨_, _, hall n hn⟩

theorem pair_stringTail_bare (hq : c ≠ '\x22') (hb : c ≠ '\\') (hc : ¬ c.toNat < 0x20) :
    (stringTail false (c :: s)).map Reading.pair =
      ((stringTail false s).map Reading.pair).map fun p => (c :: p.1, p.2) := by
  rw [stringTail, if_neg (not_or.mpr ⟨hc, hb⟩), Option.map_map, Option.map_map]
  · rfl
  · exact hq
  · exact fun _ _ _ _ _ h _ => hb h
  · exact fun _ _ h _ => hb h

theorem pair_stringTail_letter (hu : c ≠ 'u') (hd : unescape? c = some d) :
    (stringTail false ('\\' :: c :: s)).map Reading.pair =
      ((stringTail false s).map Reading.pair).map fun p => (d :: p.1, p.2) := by
  rw [stringTail, hd, Option.map_map, Option.map_map]
  · rfl
  · exact fun _ _ _ _ _ h _ => hu h

theorem pair_stringTail_digits {a b : Char} {n : Nat} (hn : n < 0x20)
    (h : hexFour? '0' '0' a b = some n) :
    (stringTail false ('\\' :: 'u' :: '0' :: '0' :: a :: b :: s)).map Reading.pair =
      ((stringTail false s).map Reading.pair).map fun p => (Char.ofNat n :: p.1, p.2) := by
  have hhigh : isHigh n = false := by
    rw [isHigh]
    simp
    omega
  have hlow : isLow n = false := by
    rw [isLow]
    simp
    omega
  rw [stringTail, h]
  simp only [hhigh, hlow, Bool.false_and, Bool.false_eq_true, if_false, Option.map_map]
  rfl

theorem pair_stringTail_write :
    (stringTail false (Text.Escapes.write escapes c ++ s)).map Reading.pair =
      ((stringTail false s).map Reading.pair).map fun p => (c :: p.1, p.2) := by
  by_cases hletter : c ∈ ['\x22', '\\', '\x08', '\t', '\n', '\x0c', '\r']
  · simp only [List.mem_cons, List.not_mem_nil, or_false] at hletter
    obtain rfl | rfl | rfl | rfl | rfl | rfl | rfl := hletter <;>
      exact pair_stringTail_letter (by decide) rfl
  simp only [List.mem_cons, List.not_mem_nil, or_false, not_or] at hletter
  obtain ⟨hquote, hbackslash, hback, htab, hline, hfeed, hreturn⟩ := hletter
  by_cases hcontrol : c.toNat < 0x20
  · obtain ⟨a, b, hdigits, hread⟩ := hexFour?_hexDigits c.toNat hcontrol
    have hwrite : Text.Escapes.write escapes c = '\\' :: 'u' :: ['0', '0', a, b] := by
      simp [Text.Escapes.write, escapes, hquote, hbackslash, hback, htab, hline, hfeed, hreturn,
        hcontrol, hdigits]
    have hback := @pair_stringTail_digits s a b c.toNat hcontrol hread
    rw [Char.ofNat_toNat] at hback
    rw [hwrite]
    exact hback
  · have hwrite : Text.Escapes.write escapes c = [c] := by
      simp [Text.Escapes.write, escapes, hquote, hbackslash, hback, htab, hline, hfeed, hreturn,
        hcontrol]
    rw [hwrite]
    exact pair_stringTail_bare hquote hbackslash hcontrol

theorem pair_stringTail_quoted (cs : List Char) :
    (stringTail false (cs.flatMap (Text.Escapes.write escapes) ++ '\x22' :: rest)).map
      Reading.pair = some (cs, rest) := by
  induction cs with
  | nil => rfl
  | cons c cs ih =>
    rw [List.flatMap_cons, List.append_assoc, pair_stringTail_write, ih]
    rfl

variable {x : Numeral} {negative : Bool}

theorem numeral?_append (h : x.WellFormed) (hu : Numeral.Unpadded x.whole)
    (hr : Numeral.Stops rest) : numeral? (x.text ++ rest) = some (x, rest) := by
  obtain ⟨hne, hwhole, hfraction⟩ := h
  have htext : x.text ++ rest = x.whole ++ (Numeral.fractionText x.fraction ++
      (Numeral.exponentText x.exponent ++ rest)) := by
    rw [Numeral.text, List.append_assoc, List.append_assoc]
  have hzero : (x.whole.head? == some '0' && x.whole.length != 1) = false := by
    by_cases hhead : x.whole.head? = some '0'
    · simp [hu hhead]
    · simp [hhead]
  have hpoint : ((Numeral.fractionText x.fraction ++
      (Numeral.exponentText x.exponent ++ rest)).head? == some '.' && x.fraction.isEmpty) =
        false := by
    cases hx : x.fraction with
    | nil =>
      have hhead := @Numeral.head_exponentText rest x.exponent hr
      simpa [Numeral.fractionText] using fun h => (hhead '.' h).2 rfl
    | cons d ds => simp
  rw [numeral?, htext, Numeral.takeDigits_append hwhole (Numeral.head_fractionText hr)]
  simp only [hzero, hpoint, Numeral.takeFraction_append hfraction _ hr,
    Numeral.takeExponent_append _ hr]
  simp [hne]

theorem exists_text_eq_cons (h : x.WellFormed) :
    ∃ c s, x.text = c :: s ∧ c.isDigit = true := by
  obtain ⟨hne, hwhole, -⟩ := h
  obtain ⟨c, ds, hds⟩ := List.exists_cons_of_ne_nil hne
  have hdigit : c.isDigit = true := hwhole c (by rw [hds]; exact List.mem_cons_self)
  refine ⟨c, ds ++ (Numeral.fractionText x.fraction ++ Numeral.exponentText x.exponent), ?_, hdigit⟩
  rw [Numeral.text, hds, List.append_assoc, List.cons_append]

theorem signedNumeral?_append (h : x.WellFormed) (hu : Numeral.Unpadded x.whole)
    (hr : Numeral.Stops rest) :
    signedNumeral? (Double.signText negative ++ x.text ++ rest) = some (negative, x, rest) := by
  cases negative with
  | true =>
    have hread : signedNumeral? ('-' :: (x.text ++ rest)) =
        (numeral? (x.text ++ rest)).map fun p => (true, p.1, p.2) := rfl
    rw [numeral?_append h hu hr] at hread
    exact hread
  | false =>
    obtain ⟨c, s, hs, hdigit⟩ := exists_text_eq_cons h
    have hread : signedNumeral? (x.text ++ rest) =
        (numeral? (x.text ++ rest)).map fun p => (false, p.1, p.2) := by
      rw [hs, List.cons_append, signedNumeral?]
      rintro t ⟨⟩
      cases hdigit
    rw [numeral?_append h hu hr] at hread
    exact hread

end ApiContract.Json
