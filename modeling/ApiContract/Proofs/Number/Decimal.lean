import ApiContract.Number.Decimal
import ApiContract.Proofs.Number.Rounding

namespace ApiContract

namespace Double

variable {n m : Nat} {q e : Int} {s : Bool}

theorem logTen_spec (hn : 0 < n) : 10 ^ logTen n ≤ n ∧ n < 10 ^ (logTen n + 1) := by
  have hlength : 0 < (Nat.toDigits 10 n).length := Nat.length_toDigits_pos
  refine ⟨?_, ?_⟩
  · rcases Nat.eq_zero_or_pos (logTen n) with h | h
    · rw [h]
      exact hn
    · refine not_lt.mp fun hlt => ?_
      have := (Nat.length_toDigits_le_iff (by decide) h).mpr hlt
      rw [logTen] at this
      omega
  · refine (Nat.length_toDigits_le_iff (by decide) (Nat.succ_pos _)).mp ?_
    rw [logTen]
    omega

theorem logTen_eq {k : Nat} (hlow : 10 ^ k ≤ n) (hhigh : n < 10 ^ (k + 1)) : logTen n = k := by
  obtain ⟨hlow', hhigh'⟩ := logTen_spec (Nat.lt_of_lt_of_le (Nat.pow_pos (by decide)) hlow)
  have h₁ := (Nat.pow_lt_pow_iff_right (by decide)).mp (hlow.trans_lt hhigh')
  have h₂ := (Nat.pow_lt_pow_iff_right (by decide)).mp (hlow'.trans_lt hhigh)
  omega

theorem logTen_mul_pow (hn : 0 < n) (j : Nat) : logTen (n * 10 ^ j) = logTen n + j := by
  obtain ⟨hlow, hhigh⟩ := logTen_spec hn
  refine logTen_eq ?_ ?_
  · rw [Nat.pow_add]
    exact Nat.mul_le_mul_right _ hlow
  · rw [Nat.add_right_comm, Nat.pow_add]
    exact Nat.mul_lt_mul_of_pos_right hhigh (Nat.pow_pos (by decide))

theorem power_mul_power_neg {b : Nat} (hb : 0 < b) (k : Int) (j : Nat) :
    b ^ j * power b k * power b (-(k + j)) = power b (k + j) * power b (-k) := by
  have hne (k : Int) : (power b k : ℚ) ≠ 0 := by exact_mod_cast (power_pos hb k).ne'
  have hb : (b : ℚ) ≠ 0 := by exact_mod_cast hb.ne'
  have hratio : (b ^ j * power b k : ℚ) / power b (-k) = power b (k + j) / power b (-(k + j)) := by
    rw [mul_div_assoc, power_div_power ‹_›, power_div_power ‹_›, zpow_add₀ hb, zpow_natCast,
      mul_comm]
  rw [div_eq_div_iff (hne _) (hne _)] at hratio
  exact_mod_cast hratio

theorem ofDecimal_mul_pow (n j : Nat) (e : Int) :
    ofDecimal s (n * 10 ^ j) e = ofDecimal s n (e + j) := by
  rcases Nat.eq_zero_or_pos n with rfl | hn
  · rw [Nat.zero_mul]
    rfl
  have hne : n * 10 ^ j ≠ 0 := by positivity
  unfold ofDecimal
  rw [if_neg hne, if_neg hn.ne', logTen_mul_pow hn]
  have hsum : ((logTen n + j : Nat) : Int) + e = logTen n + (e + j) := by
    push_cast
    ring
  rw [hsum]
  congr 2
  refine ofRatio_congr (power_pos (by decide) _) (power_pos (by decide) _) ?_
  rw [Nat.mul_assoc n, Nat.mul_assoc n, power_mul_power_neg (by decide), Nat.mul_assoc]

theorem ofDecimal_eq_finite (hc : Canonical m q) (hm : 0 < m)
    (h : (n : ℚ) * 10 ^ e = m * 2 ^ q) : ofDecimal s n e = finite s m q hc := by
  have hten : (0 : ℚ) < 10 := by norm_num
  have htwo : (0 : ℚ) < 2 := by norm_num
  obtain ⟨hm', hq, hq', -⟩ := id hc
  have hm : (1 : ℚ) ≤ m := by exact_mod_cast hm
  have hn : 0 < n := by
    refine Nat.pos_of_ne_zero ?_
    rintro rfl
    rw [Nat.cast_zero, zero_mul] at h
    exact (mul_pos (by linarith) (zpow_pos htwo q)).ne h
  obtain ⟨hlow, hhigh⟩ := logTen_spec hn
  have hless : logTen n + e < 310 := by
    refine (zpow_lt_zpow_iff_right₀ (a := (10 : ℚ)) (by norm_num)).mp ?_
    calc (10 : ℚ) ^ ((logTen n : Int) + e) ≤ n * 10 ^ e := by
          rw [zpow_add₀ hten.ne', zpow_natCast]
          exact mul_le_mul_of_nonneg_right (by exact_mod_cast hlow) (zpow_nonneg hten.le e)
      _ = m * 2 ^ q := h
      _ ≤ 2 ^ (53 : Int) * 2 ^ (971 : Int) :=
          mul_le_mul (by exact_mod_cast hm'.le) (zpow_le_zpow_right₀ (by norm_num) hq')
            (zpow_nonneg htwo.le q) (by norm_num)
      _ = 2 ^ (1024 : Int) := (zpow_add₀ htwo.ne' _ _).symm
      _ < 10 ^ (310 : Int) := by exact_mod_cast (by decide +kernel : 2 ^ 1024 < 10 ^ 310)
  have hmore : -330 < logTen n + 1 + e := by
    refine (zpow_lt_zpow_iff_right₀ (a := (10 : ℚ)) (by norm_num)).mp ?_
    calc (10 : ℚ) ^ (-330 : Int) < 2 ^ (-1074 : Int) := by
          rw [zpow_neg, zpow_neg, inv_lt_inv₀ (zpow_pos hten _) (zpow_pos htwo _)]
          exact_mod_cast (by decide +kernel : 2 ^ 1074 < 10 ^ 330)
      _ ≤ m * 2 ^ q := by
          refine (zpow_le_zpow_right₀ (by norm_num) hq).trans ?_
          exact le_mul_of_one_le_left (zpow_nonneg htwo.le q) hm
      _ = n * 10 ^ e := h.symm
      _ ≤ 10 ^ ((logTen n : Int) + 1 + e) := by
          rw [zpow_add₀ hten.ne', ← Nat.cast_succ, zpow_natCast]
          exact mul_le_mul_of_nonneg_right (by exact_mod_cast hhigh.le) (zpow_nonneg hten.le e)
  unfold ofDecimal
  rw [if_neg hn.ne', if_neg (by omega), if_neg (by omega)]
  refine ofRatio_eq_finite hc (power_pos (by decide) _) ?_
  have hne {b : Nat} (hb : 0 < b) (k : Int) : (power b k : ℚ) ≠ 0 := by
    exact_mod_cast (power_pos hb k).ne'
  rw [← Nat.cast_ofNat (R := ℚ) (n := 10), ← Nat.cast_ofNat (R := ℚ) (n := 2),
    ← power_div_power (by decide), ← power_div_power (by decide), ← mul_div_assoc,
    ← mul_div_assoc, div_eq_div_iff (hne (by decide) _) (hne (by decide) _)] at h
  exact_mod_cast h

end Double

namespace Decimal

open Double

variable {m : Nat} {q : Int}

theorem toDouble_of_atPlaces {tie : Tie} {x : Double} {n d : Nat} {order : Int} {places : Nat}
    {decimal : Decimal} (h : atPlaces tie x n d order places = some decimal) :
    decimal.toDouble false = x := by
  unfold atPlaces at h
  dsimp only at h
  -- whichever of the two is tried first
  split at h
  all_goals
    split at h
    · next hfirst =>
      cases h
      exact hfirst
    · split at h
      · next hsecond =>
        cases h
        exact hsecond
      · cases h

theorem toDouble_exact (hc : Canonical m q) (hm : 0 < m) :
    (exact m q).toDouble false = finite false m q hc := by
  unfold exact
  split
  · next hq => exact ofDecimal_eq_finite hc hm (by simp [cast_power hq])
  · next hq =>
    refine ofDecimal_eq_finite hc hm ?_
    have hfive : (power 5 (-q) : ℚ) = 5 ^ (-q) := by
      obtain ⟨j, hj⟩ := Int.eq_ofNat_of_zero_le (show 0 ≤ -q by omega)
      rw [hj]
      simp [power]
    have hten : (10 : ℚ) = 5 * 2 := by norm_num
    rw [Nat.cast_mul, hfive, hten, mul_zpow, mul_assoc, ← mul_assoc ((5 : ℚ) ^ (-q)),
      ← zpow_add₀ (by norm_num), neg_add_cancel, zpow_zero, one_mul]

/-- The shortest decimal of a double is read as that double. -/
theorem toDouble_shortest (hc : Canonical m q) (hm : 0 < m) (tie : Tie) :
    (shortest tie m q).toDouble false = finite false m q hc := by
  have hx : ofScaled false m q = finite false m q hc :=
    ofRatio_eq_finite hc (power_pos (by decide) _) rfl
  unfold shortest
  dsimp only
  rw [hx]
  cases hfound : (List.range' 1 17).findSome? _ with
  | none => exact toDouble_exact hc hm
  | some decimal =>
    obtain ⟨_, _, hplaces⟩ := List.exists_of_findSome?_eq_some hfound
    exact toDouble_of_atPlaces hplaces

end Decimal

end ApiContract
