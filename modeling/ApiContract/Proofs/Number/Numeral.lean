import ApiContract.Number.Basic
import ApiContract.Proofs.Number.Decimal
import ApiContract.Proofs.Text.Ends

namespace ApiContract

namespace Numeral

def WellFormed (x : Numeral) : Prop :=
  x.whole ≠ [] ∧ (∀ c ∈ x.whole, c.isDigit = true) ∧ ∀ c ∈ x.fraction, c.isDigit = true

def Unpadded (ds : List Char) : Prop := ds.head? = some '0' → ds.length = 1

/-- How floats are written: with a point or an exponent, and no zeros in front. -/
structure Floating (x : Numeral) : Prop where
  unpadded : Unpadded x.whole
  marked : x.fraction ≠ [] ∨ x.exponent ≠ none

def fractionText : List Char → List Char
  | [] => []
  | ds => '.' :: ds

theorem fractionText_of_ne_nil {ds : List Char} (h : ds ≠ []) : fractionText ds = '.' :: ds := by
  cases ds with
  | nil => exact absurd rfl h
  | cons => rfl

def exponentText : Option Int → List Char
  | none => []
  | some e => 'e' :: (if e < 0 then '-' else '+') :: Nat.toDigits 10 e.natAbs

def text (x : Numeral) : List Char := x.whole ++ fractionText x.fraction ++ exponentText x.exponent

variable {x : Numeral} {ds rest : List Char}

theorem isDigit_of_mem_toDigits {n : Nat} : ∀ c ∈ Nat.toDigits 10 n, c.isDigit = true :=
  fun _ => Nat.isDigit_of_mem_toDigits (by decide) (by decide)

theorem digitsValue_toDigits (n : Nat) : digitsValue (Nat.toDigits 10 n) = n :=
  Nat.ofDigitChars_ten_toDigits

theorem head_toDigits {n : Nat} (h : 0 < n) : (Nat.toDigits 10 n).head? ≠ some '0' := by
  induction n using Nat.strong_induction_on with
  | _ n ih =>
    rw [Nat.toDigits_eq_if (by decide)]
    split
    · next hsmall =>
      have hall : ∀ n < 10, 0 < n → n.digitChar ≠ '0' := by decide
      exact fun heq => hall n hsmall h (Option.some.inj heq)
    · next hlarge =>
      rw [List.head?_append_of_ne_nil _ Nat.toDigits_ne_nil]
      exact ih (n / 10) (by omega) (by omega)

theorem unpadded_toDigits (n : Nat) : Unpadded (Nat.toDigits 10 n) := by
  rcases Nat.eq_zero_or_pos n with rfl | hn
  · exact fun _ => rfl
  · exact fun h => absurd h (head_toDigits hn)

theorem takeDigits_append (hds : ∀ c ∈ ds, c.isDigit = true)
    (hr : ∀ c ∈ rest.head?, c.isDigit = false) : takeDigits (ds ++ rest) = (ds, rest) := by
  obtain ⟨htake, hdrop⟩ := Text.takeWhile_append_of_head hds hr
  rw [takeDigits, List.span_eq_takeWhile_dropWhile, htake, hdrop]

def Stops (rest : List Char) : Prop :=
  ∀ c ∈ rest.head?, c.isDigit = false ∧ c ≠ '.' ∧ c ≠ 'e' ∧ c ≠ 'E'

theorem stops_nil : Stops [] := nofun

theorem takeExponent_append (e : Option Int) (hr : Stops rest) :
    takeExponent (exponentText e ++ rest) = some (e, rest) := by
  cases e with
  | none =>
    cases rest with
    | nil => rfl
    | cons c rest =>
      obtain ⟨-, -, hlower, hupper⟩ := hr c rfl
      exact if_neg (not_or.mpr ⟨hlower, hupper⟩)
  | some e =>
    have hdigits : takeDigits (Nat.toDigits 10 e.natAbs ++ rest) =
        (Nat.toDigits 10 e.natAbs, rest) :=
      takeDigits_append isDigit_of_mem_toDigits fun c hc => (hr c hc).1
    obtain ⟨d, ds, hds⟩ :=
      List.exists_cons_of_ne_nil (Nat.toDigits_ne_nil (b := 10) (n := e.natAbs))
    have hvalue : digitsValue (d :: ds) = e.natAbs := by rw [← hds, digitsValue_toDigits]
    rw [hds, List.cons_append] at hdigits
    by_cases he : e < 0
    · simp [exponentText, takeExponent, takeSign, he, hds, hdigits, hvalue, abs_of_neg he]
    · simp [exponentText, takeExponent, takeSign, he, hds, hdigits, hvalue,
        abs_of_nonneg (not_lt.mp he)]

theorem head_exponentText {e : Option Int} (hr : Stops rest) :
    ∀ c ∈ (exponentText e ++ rest).head?, c.isDigit = false ∧ c ≠ '.' := by
  intro c hc
  cases e with
  | none => exact ⟨(hr c hc).1, (hr c hc).2.1⟩
  | some e =>
    cases hc
    decide

theorem head_fractionText {e : Option Int} (hr : Stops rest) :
    ∀ c ∈ (fractionText ds ++ (exponentText e ++ rest)).head?, c.isDigit = false := by
  intro c hc
  cases ds with
  | nil => exact (head_exponentText hr c hc).1
  | cons d ds =>
    cases hc
    rfl

theorem takeFraction_append (hds : ∀ c ∈ ds, c.isDigit = true) (e : Option Int)
    (hr : Stops rest) :
    takeFraction (fractionText ds ++ (exponentText e ++ rest)) = (ds, exponentText e ++ rest) := by
  have hhead := @head_exponentText rest e hr
  cases ds with
  | nil =>
    cases hs : exponentText e ++ rest with
    | nil => rw [fractionText, List.nil_append, takeFraction]; nofun
    | cons c s =>
      rw [hs] at hhead
      rw [fractionText, List.nil_append, takeFraction]
      rintro s' ⟨⟩
      exact (hhead '.' rfl).2 rfl
  | cons d ds => exact takeDigits_append hds fun c hc => (hhead c hc).1

theorem ofChars?_text (h : x.WellFormed) : ofChars? x.text = some x := by
  obtain ⟨hne, hwhole, hfraction⟩ := h
  have htext : x.text =
      x.whole ++ (fractionText x.fraction ++ (exponentText x.exponent ++ [])) := by
    rw [text, List.append_nil, List.append_assoc]
  rw [ofChars?, htext, takeDigits_append hwhole (head_fractionText stops_nil)]
  simp only [takeFraction_append hfraction _ stops_nil, takeExponent_append _ stops_nil]
  simp [hne]

theorem takeSign_text (h : x.WellFormed) : takeSign x.text = (false, x.text) := by
  obtain ⟨hne, hwhole, -⟩ := h
  obtain ⟨c, ds, hc⟩ := List.exists_cons_of_ne_nil hne
  have hdigit : c.isDigit = true := hwhole c (by simp [hc])
  rw [text, hc]
  unfold takeSign
  split
  · next heq => cases heq; cases hdigit
  · next heq => cases heq; cases hdigit
  · rfl

theorem double_ofChars?_text (h : x.WellFormed) :
    Double.ofChars? x.text = some (x.toDouble false) := by
  rw [Double.ofChars?, takeSign_text h]
  simp only [ofChars?_text h]

end Numeral

namespace Decimal

open Numeral

variable {ds : List Char} {point : Int}

theorem digitsValue_append (ds ds' : List Char) :
    digitsValue (ds ++ ds') = digitsValue ds * 10 ^ ds'.length + digitsValue ds' := by
  rw [digitsValue, Nat.ofDigitChars_append, Nat.ofDigitChars_eq_ofDigitChars_zero, Nat.mul_comm]
  rfl

theorem digitsValue_replicate_zero (n : Nat) : digitsValue (List.replicate n '0') = 0 := by
  simp [digitsValue]

theorem digitsValue_zero : digitsValue ['0'] = 0 := by decide

/-- Digits are laid out as a numeral, of the value that the place of the point gives them. -/
theorem exists_numeral_layout (hne : ds ≠ []) (hds : ∀ c ∈ ds, c.isDigit = true)
    (hzero : ds.head? ≠ some '0') :
    ∃ x : Numeral, x.WellFormed ∧ x.Floating ∧ layout Number.style ds point = x.text ∧
      ∀ s, x.toDouble s = Double.ofDecimal s (digitsValue ds) (point - ds.length) := by
  have hzeros (n : Nat) : ∀ c ∈ List.replicate n '0', c.isDigit = true := by
    intro c hc
    rw [List.eq_of_mem_replicate hc]
    rfl
  have hlength : 0 < ds.length := List.length_pos_iff.mpr hne
  unfold layout
  dsimp only
  split
  · split
    · -- zeros behind the point
      next h =>
      have hne' : List.replicate (-point).toNat '0' ++ ds ≠ [] := by simp [hne]
      refine ⟨⟨['0'], List.replicate (-point).toNat '0' ++ ds, none⟩,
        ⟨by simp, by simp, ?_⟩, ⟨fun _ => rfl, .inl hne'⟩, ?_, ?_⟩
      · exact List.forall_mem_append.mpr ⟨hzeros _, hds⟩
      · simp [Numeral.text, fractionText_of_ne_nil hne', exponentText]
      · intro s
        have hvalue : digitsValue (['0'] ++ (List.replicate (-point).toNat '0' ++ ds)) =
            digitsValue ds := by
          rw [digitsValue_append, digitsValue_append, digitsValue_replicate_zero, digitsValue_zero]
          simp
        rw [Numeral.toDouble, hvalue]
        congr 1
        simp
        omega
    · split
      · -- zeros before the point
        next h =>
        refine ⟨⟨ds ++ List.replicate (point.toNat - ds.length) '0', ['0'], none⟩,
          ⟨by simp [hne], List.forall_mem_append.mpr ⟨hds, hzeros _⟩, by simp⟩,
          ⟨?_, .inl (List.cons_ne_nil _ _)⟩, ?_, ?_⟩
        · intro hhead
          rw [List.head?_append_of_ne_nil _ hne] at hhead
          exact absurd hhead hzero
        · simp [Numeral.text, fractionText, exponentText, Number.style]
        · intro s
          have hvalue : digitsValue (ds ++ List.replicate (point.toNat - ds.length) '0' ++ ['0']) =
              digitsValue ds * 10 ^ (point.toNat - ds.length + 1) := by
            rw [digitsValue_append, digitsValue_append, digitsValue_replicate_zero,
              digitsValue_zero, pow_succ]
            simp [Nat.mul_assoc]
          rw [Numeral.toDouble, hvalue, Double.ofDecimal_mul_pow]
          congr 1
          simp
          omega
      · -- the point among the digits
        next h =>
        have hdrop : ds.drop point.toNat ≠ [] := by simpa using h
        refine ⟨⟨ds.take point.toNat, ds.drop point.toNat, none⟩, ⟨?_, ?_, ?_⟩,
          ⟨?_, .inl hdrop⟩, ?_, ?_⟩
        · simp [hne]
          omega
        · exact fun c hc => hds c (List.mem_of_mem_take hc)
        · exact fun c hc => hds c (List.mem_of_mem_drop hc)
        · intro hhead
          rw [List.head?_take, if_neg (by omega)] at hhead
          exact absurd hhead hzero
        · simp [Numeral.text, fractionText_of_ne_nil hdrop, exponentText]
        · intro s
          rw [Numeral.toDouble, List.take_append_drop]
          congr 1
          simp
          omega
  · refine ⟨⟨ds.take 1, ds.drop 1, some (point - 1)⟩, ⟨by simp [hne], ?_, ?_⟩,
      ⟨?_, .inr (Option.some_ne_none _)⟩, ?_, ?_⟩
    · exact fun c hc => hds c (List.mem_of_mem_take hc)
    · exact fun c hc => hds c (List.mem_of_mem_drop hc)
    · intro _
      rw [List.length_take, Nat.min_eq_left hlength]
    · have hfraction :
          (if ds.length ≤ 1 then [] else '.' :: ds.drop 1) = fractionText (ds.drop 1) := by
        split
        · next h => rw [List.drop_eq_nil_of_le h, fractionText]
        · next h => rw [fractionText_of_ne_nil (mt List.drop_eq_nil_iff.mp h)]
      rw [hfraction]
      by_cases horder : point < 1 <;> simp [Numeral.text, exponentText, Number.style, horder]
    · intro s
      rw [Numeral.toDouble, List.take_append_drop]
      congr 1
      simp
      omega

theorem exists_numeral_text {decimal : Decimal} (h : 0 < decimal.digits) :
    ∃ x : Numeral, x.WellFormed ∧ x.Floating ∧ decimal.text Number.style = x.text ∧
      ∀ s, x.toDouble s = decimal.toDouble s := by
  obtain ⟨digits, exponent⟩ := decimal
  set ds := Nat.toDigits 10 digits with hds
  -- the zeros at the end are left out
  set kept := (ds.reverse.dropWhile (· == '0')).reverse with hkept
  obtain ⟨zeros, happend⟩ : ∃ zeros, ds = kept ++ List.replicate zeros '0' := by
    refine ⟨(ds.reverse.takeWhile (· == '0')).length, ?_⟩
    have hzeros : ds.reverse.takeWhile (· == '0') =
        List.replicate (ds.reverse.takeWhile (· == '0')).length '0' :=
      List.eq_replicate_of_mem fun c hc => by simpa using List.mem_takeWhile_imp hc
    rw [← List.reverse_replicate, ← hzeros, hkept, ← List.reverse_append,
      List.takeWhile_append_dropWhile, List.reverse_reverse]
  have hvalue : digits = digitsValue kept * 10 ^ zeros := by
    rw [← digitsValue_toDigits digits, ← hds, happend, digitsValue_append,
      digitsValue_replicate_zero, List.length_replicate, Nat.add_zero]
  have hne : kept ≠ [] := by
    intro hnil
    rw [hnil, show digitsValue [] = 0 from rfl, Nat.zero_mul] at hvalue
    exact h.ne' hvalue
  have hdigits : ∀ c ∈ kept, c.isDigit = true := fun c hc =>
    isDigit_of_mem_toDigits (n := digits) c (by rw [← hds, happend]; simp [hc])
  have hhead : kept.head? ≠ some '0' := by
    have hstart := head_toDigits h
    rwa [← hds, happend, List.head?_append_of_ne_nil _ hne] at hstart
  obtain ⟨x, hx, hfloating, htext, hdouble⟩ : ∃ x : Numeral, x.WellFormed ∧ x.Floating ∧
      layout Number.style kept (ds.length + exponent) = x.text ∧
        ∀ s, x.toDouble s =
          Double.ofDecimal s (digitsValue kept) (ds.length + exponent - kept.length) :=
    exists_numeral_layout hne hdigits hhead
  refine ⟨x, hx, hfloating, htext, fun s => ?_⟩
  rw [hdouble, toDouble, hvalue, Double.ofDecimal_mul_pow, happend]
  congr 1
  simp
  omega

end Decimal

namespace Double

theorem ofDecimal_not (s : Bool) (n : Nat) (e : Int) :
    ofDecimal (!s) n e = (ofDecimal s n e).neg := by
  unfold ofDecimal
  split_ifs
  · rfl
  · rfl
  · rfl
  · exact ofRatio_not

theorem exists_numeral_text {m : Nat} {q : Int} (hc : Canonical m q) :
    ∃ x : Numeral, x.WellFormed ∧ x.Floating ∧ (finite false m q hc).text Number.style = x.text ∧
      ∀ s, x.toDouble s = finite s m q hc := by
  rcases Nat.eq_zero_or_pos m with rfl | hm
  · obtain rfl : q = -1074 := hc.2.2.2.resolve_left (by decide)
    exact ⟨⟨['0'], ['0'], none⟩, ⟨by simp, by simp, by simp⟩,
      ⟨fun _ => rfl, .inl (List.cons_ne_nil _ _)⟩, rfl, fun _ => rfl⟩
  · have hread := Decimal.toDouble_shortest hc hm .even
    have hdigits : 0 < (Decimal.shortest .even m q).digits := by
      refine Nat.pos_of_ne_zero fun hzero => ?_
      rw [Decimal.toDouble, hzero] at hread
      cases hread
      exact absurd hm (by decide)
    obtain ⟨x, hx, hfloating, htext, hdouble⟩ := Decimal.exists_numeral_text hdigits
    refine ⟨x, hx, hfloating, ?_, ?_⟩
    · rw [text, if_neg hm.ne']
      exact htext
    · intro s
      rw [hdouble]
      cases s with
      | false => exact hread
      | true =>
        have hnot := ofDecimal_not false (Decimal.shortest .even m q).digits
          (Decimal.shortest .even m q).exponent
        rw [Decimal.toDouble] at hread
        rw [hread] at hnot
        exact hnot

theorem exists_numeral_toDigits {n : Nat} (hn : n < 2 ^ 64) :
    ∃ x : Numeral, x.WellFormed ∧ Nat.toDigits 10 n = x.text ∧
      x.toDouble false = ofRatio false n 1 := by
  refine ⟨⟨Nat.toDigits 10 n, [], none⟩, ⟨Nat.toDigits_ne_nil, Numeral.isDigit_of_mem_toDigits,
    nofun⟩, by simp [Numeral.text, Numeral.fractionText, Numeral.exponentText], ?_⟩
  rw [Numeral.toDouble, List.append_nil, Numeral.digitsValue_toDigits]
  rcases Nat.eq_zero_or_pos n with rfl | hpos
  · rfl
  have hlog : logTen n < 20 := by
    obtain ⟨hlow, -⟩ := logTen_spec hpos
    exact (Nat.pow_lt_pow_iff_right (by decide)).mp
      ((hlow.trans_lt hn).trans (by decide : 2 ^ 64 < 10 ^ 20))
  simp only [Option.getD_none, List.length_nil, Nat.cast_zero, sub_zero]
  unfold ofDecimal
  rw [if_neg hpos.ne', if_neg (by omega), if_neg (by omega), neg_zero, power_zero, Nat.mul_one]

end Double

end ApiContract
