import ApiContract.Proofs.Number.Numeral

namespace ApiContract

namespace Double

variable {x y : Double}

theorem isFinite_neg (h : x.IsFinite) : x.neg.IsFinite := by
  cases x with
  | finite => trivial
  | _ => exact h

theorem SameNumber.isFinite (h : SameNumber x y) (hy : y.IsFinite) : x.IsFinite := by
  cases x with
  | finite => trivial
  | _ =>
    cases y with
    | finite => exact h
    | _ => exact hy

theorem cast_signed_not (s : Bool) (m : Nat) : (signed (!s) m : ℚ) = -signed s m := by
  cases s <;> simp [signed]

theorem SameNumber.neg (h : SameNumber x y) : SameNumber x.neg y.neg := by
  cases x <;> cases y <;> try exact h.elim
  · simp only [SameNumber, Double.neg, cast_signed_not, neg_mul, neg_inj] at h ⊢
    exact h
  · exact congrArg _ h

theorem sameNumber_ofInt {n : Int} (h : x.toInt? = some n) : SameNumber (ofInt n) x := by
  cases x with
  | finite s m q hc =>
    rw [toInt?] at h
    split at h
    · next hmod =>
      set a := m * power 2 q / power 2 (-q) with ha
      have hexact : a * power 2 (-q) = m * power 2 q * 1 := by
        rw [Nat.mul_one, ha]
        exact Nat.div_mul_cancel (Nat.dvd_mul_right_of_dvd (Nat.dvd_of_mod_eq_zero hmod) _)
      have habs : n.natAbs = a := by
        cases h
        cases s <;> simp
      rw [ofInt, habs, ofRatio_eq_finite hc Nat.one_pos hexact, SameNumber]
      rcases Nat.eq_zero_or_pos m with rfl | hm
      · simp [signed]
      have hpos : 0 < a := Nat.pos_of_mul_pos_right (b := power 2 (-q))
        (hexact ▸ Nat.mul_pos (Nat.mul_pos hm (power_pos (by decide) q)) Nat.one_pos)
      have hsign : decide (n < 0) = s := by
        cases h
        cases s <;> simp [hpos]
      rw [hsign]
    · cases h
  | _ => cases h

theorem exists_canonical {n : Nat} (hpos : 0 < n) (h : n < power 2 53) :
    ∃ q ≤ 0, Canonical (n * power 2 (-q)) q := by
  have hlow : 2 ^ n.log2 ≤ n := Nat.log2_self_le hpos.ne'
  have hhigh : n < 2 ^ (n.log2 + 1) := Nat.lt_log2_self
  have hk : n.log2 < 53 := (Nat.log2_lt hpos.ne').mpr h
  have hshift : power 2 (-((n.log2 : Int) - 52)) = 2 ^ (52 - n.log2) :=
    congrArg (2 ^ ·) (by omega)
  have hsplit : ∀ j ≥ n.log2, 2 ^ j = 2 ^ n.log2 * 2 ^ (j - n.log2) := fun j hj => by
    rw [← Nat.pow_add, Nat.add_sub_cancel' hj]
  refine ⟨(n.log2 : Int) - 52, by omega, ?_, by omega, by omega, .inl ?_⟩
  · calc n * power 2 (-((n.log2 : Int) - 52))
        < 2 ^ (n.log2 + 1) * 2 ^ (52 - n.log2) :=
          hshift ▸ Nat.mul_lt_mul_of_pos_right hhigh (Nat.two_pow_pos _)
      _ = power 2 53 := by
          rw [← Nat.pow_add]
          exact congrArg (2 ^ ·) (by omega)
  · rw [hshift]
    calc power 2 52 = 2 ^ n.log2 * 2 ^ (52 - n.log2) := hsplit 52 (by omega)
      _ ≤ n * 2 ^ (52 - n.log2) := Nat.mul_le_mul_right _ hlow

theorem ofInt_natCast (n : Nat) : ofInt n = ofRatio false n 1 := by
  have hsign : decide ((n : Int) < 0) = false := by simp
  rw [ofInt, hsign, Int.natAbs_natCast]

theorem toInt?_ofInt {n : Nat} (h : n < power 2 53) : (ofInt n).toInt? = some (n : Int) := by
  rcases Nat.eq_zero_or_pos n with rfl | hpos
  · simp [ofInt, ofRatio, zero, toInt?]
  obtain ⟨q, hq, hc⟩ := exists_canonical hpos h
  have hone : power 2 q = 1 := congrArg (2 ^ ·) (Int.toNat_of_nonpos hq)
  have hexact : n * power 2 (-q) = n * power 2 (-q) * power 2 q * 1 := by
    rw [hone, Nat.mul_one, Nat.mul_one]
  rw [ofInt_natCast, ofRatio_eq_finite hc Nat.one_pos hexact, toInt?,
    if_pos (Nat.mul_mod_left _ _), hone, Nat.mul_one,
    Nat.mul_div_cancel _ (power_pos (by decide) _)]
  rfl

end Double

namespace Number

open Double

theorem exists_ofDouble? {x : Double} (h : x.IsFinite) :
    ∃ y, ofDouble? x = some y ∧ SameNumber y.toDouble x := by
  have hfloat : ∃ y, float? x = some y ∧ SameNumber y.toDouble x := by
    refine ⟨float x h, dif_pos h, .refl ?_⟩
    rintro rfl
    exact h
  unfold ofDouble?
  split
  · next n hn =>
    split
    · next hsmall =>
      have hwhole : Whole n := by
        have : n.natAbs < 9007199254740992 := hsmall
        constructor <;> simp [power] <;> omega
      exact ⟨integer n hwhole, dif_pos hwhole, sameNumber_ofInt hn⟩
    · exact hfloat
  · exact hfloat

theorem exists_numeral (n : Number) : ∃ (negative : Bool) (x : Numeral), x.WellFormed ∧
    n.chars = signText negative ++ x.text ∧ (x.toDouble false).IsFinite ∧
      (if negative then (x.toDouble false).neg else x.toDouble false) = n.toDouble := by
  cases n with
  | integer n whole =>
    have hsmall : n.natAbs < 2 ^ 64 := by
      have h63 : power 2 63 = 2 ^ 63 := rfl
      have h64 : power 2 64 = 2 ^ 64 := rfl
      obtain ⟨hlow, hhigh⟩ := whole
      rw [h63] at hlow
      rw [h64] at hhigh
      omega
    obtain ⟨x, hx, htext, hdouble⟩ := exists_numeral_toDigits hsmall
    refine ⟨n < 0, x, hx, by rw [chars, htext], ?_, ?_⟩
    · rw [hdouble]
      refine isFinite_ofRatio Nat.one_pos ?_
      calc (n.natAbs / (1 : Nat) : ℚ) < 2 ^ 64 := by
            rw [Nat.cast_one, div_one]
            exact_mod_cast hsmall
        _ = 2 ^ (64 : Int) := rfl
        _ < 2 ^ (1023 : Int) := zpow_lt_zpow_right₀ (by norm_num) (by norm_num)
    · rw [hdouble, toDouble, ofInt]
      by_cases hn : n < 0
      · simp [hn, ← ofRatio_not]
      · simp [hn]
  | float x finite =>
    cases x with
    | finite s m q hc =>
      obtain ⟨x, hx, -, htext, hdouble⟩ := Double.exists_numeral_text hc
      refine ⟨s, x, hx, ?_, ?_, ?_⟩
      · rw [← htext]
        rfl
      · rw [hdouble]
        trivial
      · rw [hdouble, toDouble]
        cases s <;> rfl
    | _ => exact finite.elim

theorem ofNumeral?_floating {x : Numeral} (h : x.Floating) (negative : Bool) :
    ofNumeral? negative x = float? (x.toDouble negative) := by
  unfold ofNumeral?
  split
  · next hfraction hexponent =>
    obtain hmarked | hmarked := h.marked
    · exact absurd hfraction hmarked
    · exact absurd hexponent hmarked
  · rfl

theorem ofNumeral?_toDigits (n : Int) (whole : Whole n) :
    ofNumeral? (n < 0) ⟨Nat.toDigits 10 n.natAbs, [], none⟩ = some (integer n whole) := by
  have hread : ofInt? n = some (integer n whole) := dif_pos whole
  simp only [ofNumeral?, Numeral.digitsValue_toDigits, decide_eq_true_eq]
  split
  · next hn =>
    have hne : n.natAbs ≠ 0 := by omega
    have hsame : -(n.natAbs : Int) = n := by omega
    rw [if_neg hne, hsame, hread]
  · next hn =>
    have hsame : (n.natAbs : Int) = n := by omega
    rw [hsame, hread]

theorem exists_numeral_read (n : Number) : ∃ (negative : Bool) (x : Numeral), x.WellFormed ∧
    Numeral.Unpadded x.whole ∧ n.chars = signText negative ++ x.text ∧
      ofNumeral? negative x = some n := by
  cases n with
  | integer n whole =>
    refine ⟨n < 0, ⟨Nat.toDigits 10 n.natAbs, [], none⟩, ⟨Nat.toDigits_ne_nil,
      Numeral.isDigit_of_mem_toDigits, nofun⟩, Numeral.unpadded_toDigits _, ?_,
      ofNumeral?_toDigits n whole⟩
    simp [chars, Numeral.text, Numeral.fractionText, Numeral.exponentText]
  | float x finite =>
    cases x with
    | finite s m q hc =>
      obtain ⟨x, hx, hfloating, htext, hdouble⟩ := Double.exists_numeral_text hc
      refine ⟨s, x, hx, hfloating.unpadded, ?_, ?_⟩
      · rw [← htext]
        rfl
      · rw [ofNumeral?_floating hfloating, hdouble]
        exact dif_pos finite
    | _ => exact finite.elim

theorem mem_chars {n : Number} {c : Char} (h : c ∈ n.chars) :
    c.isDigit = true ∨ c ∈ ['-', '.', 'e', '+'] := by
  obtain ⟨negative, x, ⟨-, hwhole, hfraction⟩, hchars, -⟩ := n.exists_numeral
  rw [hchars, Numeral.text, List.mem_append, List.mem_append, List.mem_append] at h
  obtain hsign | (hdigits | hpoint) | hexponent := h
  · cases negative with
    | true => exact .inr (List.mem_singleton.mp hsign ▸ .head _)
    | false => cases hsign
  · exact .inl (hwhole c hdigits)
  · cases hx : x.fraction with
    | nil =>
      rw [hx] at hpoint
      cases hpoint
    | cons d ds =>
      rw [Numeral.fractionText_of_ne_nil (hx ▸ List.cons_ne_nil d ds), List.mem_cons] at hpoint
      exact hpoint.elim (fun hc => .inr (by simp [hc])) fun hc => .inl (hfraction c hc)
  · cases he : x.exponent with
    | none =>
      rw [he] at hexponent
      cases hexponent
    | some e =>
      rw [he, Numeral.exponentText, List.mem_cons, List.mem_cons] at hexponent
      obtain hc | hc | hc := hexponent
      · exact .inr (by simp [hc])
      · split at hc <;> exact .inr (by simp [hc])
      · exact .inl (Numeral.isDigit_of_mem_toDigits c hc)

end Number

end ApiContract
