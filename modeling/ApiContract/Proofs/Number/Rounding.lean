import Mathlib.Data.Rat.Cast.Order
import Mathlib.Tactic.FieldSimp
import Mathlib.Tactic.Ring
import Mathlib.Tactic.Linarith
import ApiContract.Proofs.Number.Equality

namespace ApiContract

theorem power_pos {b : Nat} (hb : 0 < b) (k : Int) : 0 < power b k := Nat.pow_pos hb

theorem power_zero (b : Nat) : power b 0 = 1 := rfl

theorem power_div_power {b : Nat} (hb : 0 < b) (k : Int) :
    (power b k : ℚ) / power b (-k) = (b : ℚ) ^ k := by
  have hne : (b : ℚ) ≠ 0 := by positivity
  obtain ⟨n, rfl | rfl⟩ := k.eq_nat_or_neg
  · simp [power]
  · simp [power, one_div]

namespace Double

variable {n d n' d' m : Nat} {q : Int} {s : Bool}

section Order

theorem pow_log2_le_cast (hn : 0 < n) : (2 : ℚ) ^ (Nat.log2 n : Int) ≤ n := by
  rw [zpow_natCast]
  exact_mod_cast Nat.log2_self_le hn.ne'

theorem cast_lt_pow_log2_succ : (n : ℚ) < 2 ^ ((Nat.log2 n : Int) + 1) := by
  rw [← Nat.cast_succ, zpow_natCast]
  exact_mod_cast Nat.lt_log2_self

theorem mul_power_le_iff (hd : 0 < d) (c : Nat) (e : Int) :
    c * (d * power 2 e) ≤ n * power 2 (-e) ↔ (c : ℚ) * 2 ^ e ≤ n / d := by
  have hp : (0 : ℚ) < power 2 (-e) := by exact_mod_cast power_pos (by decide) (-e)
  have hd : (0 : ℚ) < d := by exact_mod_cast hd
  rw [← Nat.cast_le (α := ℚ), Nat.cast_mul, Nat.cast_mul, Nat.cast_mul,
    ← Nat.cast_ofNat (R := ℚ) (n := 2), ← power_div_power (by decide), ← mul_div_assoc,
    div_le_div_iff₀ hp hd, mul_right_comm, mul_assoc]

/-- The order of a ratio is where it lies between the powers of two. -/
theorem order_spec (hn : 0 < n) (hd : 0 < d) :
    (2 : ℚ) ^ order 2 Nat.log2 n d ≤ n / d ∧ (n / d : ℚ) < 2 ^ (order 2 Nat.log2 n d + 1) := by
  have hdq : (0 : ℚ) < d := by exact_mod_cast hd
  have htwo : (0 : ℚ) < 2 := by norm_num
  have hlow : (2 : ℚ) ^ ((Nat.log2 n : Int) - Nat.log2 d - 1) ≤ n / d := by
    rw [le_div_iff₀ hdq]
    calc (2 : ℚ) ^ ((Nat.log2 n : Int) - Nat.log2 d - 1) * d
        ≤ 2 ^ ((Nat.log2 n : Int) - Nat.log2 d - 1) * 2 ^ ((Nat.log2 d : Int) + 1) :=
          mul_le_mul_of_nonneg_left cast_lt_pow_log2_succ.le (zpow_nonneg htwo.le _)
      _ = 2 ^ (Nat.log2 n : Int) := by
          rw [← zpow_add₀ htwo.ne']
          congr 1
          omega
      _ ≤ n := pow_log2_le_cast hn
  have hhigh : (n / d : ℚ) < 2 ^ ((Nat.log2 n : Int) - Nat.log2 d + 1) := by
    rw [div_lt_iff₀ hdq]
    calc (n : ℚ) < 2 ^ ((Nat.log2 n : Int) + 1) := cast_lt_pow_log2_succ
      _ = 2 ^ ((Nat.log2 n : Int) - Nat.log2 d + 1) * 2 ^ (Nat.log2 d : Int) := by
          rw [← zpow_add₀ htwo.ne']
          congr 1
          omega
      _ ≤ 2 ^ ((Nat.log2 n : Int) - Nat.log2 d + 1) * d :=
          mul_le_mul_of_nonneg_left (pow_log2_le_cast hd) (zpow_nonneg htwo.le _)
  have htest (e : Int) : d * power 2 e ≤ n * power 2 (-e) ↔ (2 : ℚ) ^ e ≤ n / d := by
    simpa using mul_power_le_iff (n := n) hd 1 e
  unfold order
  dsimp only
  split
  · next h => exact ⟨(htest _).mp h, hhigh⟩
  · next h =>
    rw [htest, not_le] at h
    exact ⟨hlow, by simpa using h⟩

theorem order_eq {e : Int} (hn : 0 < n) (hd : 0 < d) (hlow : (2 : ℚ) ^ e ≤ n / d)
    (hhigh : (n / d : ℚ) < 2 ^ (e + 1)) : order 2 Nat.log2 n d = e := by
  obtain ⟨hlow', hhigh'⟩ := order_spec hn hd
  have h₁ := (zpow_lt_zpow_iff_right₀ (by norm_num)).mp (hlow.trans_lt hhigh')
  have h₂ := (zpow_lt_zpow_iff_right₀ (by norm_num)).mp (hlow'.trans_lt hhigh)
  omega

end Order

theorem nearestEven_mul_right {c : Nat} (hc : 0 < c) :
    nearestEven (n * c) (d * c) = nearestEven n d := by
  unfold nearestEven
  rw [Nat.mul_mod_mul_right, Nat.mul_div_mul_right _ _ hc, ← Nat.mul_assoc]
  simp only [Nat.mul_lt_mul_right hc, Nat.mul_left_inj hc.ne']

theorem nearestEven_congr (hd : 0 < d) (hd' : 0 < d') (h : n * d' = n' * d) :
    nearestEven n d = nearestEven n' d' := by
  rw [← nearestEven_mul_right hd', h, Nat.mul_comm d, nearestEven_mul_right hd]

theorem ofRatio_congr (hd : 0 < d) (hd' : 0 < d') (h : n * d' = n' * d) :
    ofRatio s n d = ofRatio s n' d' := by
  rcases Nat.eq_zero_or_pos n with rfl | hn
  · rw [Nat.zero_mul, eq_comm, Nat.mul_eq_zero] at h
    rw [h.resolve_right hd.ne']
    rfl
  have hn' : 0 < n' := Nat.pos_of_mul_pos_right (a := n') (b := d) (by rw [← h]; positivity)
  have hratio : (n / d : ℚ) = n' / d' := by
    rw [div_eq_div_iff (by positivity) (by positivity)]
    exact_mod_cast h
  have horder : order 2 Nat.log2 n d = order 2 Nat.log2 n' d' := by
    obtain ⟨hlow, hhigh⟩ := order_spec hn' hd'
    exact order_eq hn hd (hratio ▸ hlow) (hratio ▸ hhigh)
  unfold ofRatio
  rw [if_neg hn.ne', if_neg hn'.ne', horder]
  dsimp only
  set q := max (order 2 Nat.log2 n' d' - 52) (-1074)
  have hnear : nearestEven (n * power 2 (-q)) (d * power 2 q) =
      nearestEven (n' * power 2 (-q)) (d' * power 2 q) := by
    refine nearestEven_congr (Nat.mul_pos hd (power_pos (by decide) q))
      (Nat.mul_pos hd' (power_pos (by decide) q)) ?_
    rw [Nat.mul_mul_mul_comm, h, Nat.mul_mul_mul_comm]
  rw [hnear]

theorem ofRatio_not : ofRatio (!s) n d = (ofRatio s n d).neg := by
  have hassemble (m : Nat) (q : Int) : assemble (!s) m q = (assemble s m q).neg := by
    unfold assemble
    split <;> rfl
  unfold ofRatio
  split
  · rfl
  · dsimp only
    split <;> exact hassemble _ _

theorem nearestEven_mul_self {c : Nat} (hd : 0 < d) : nearestEven (c * d) d = c := by
  unfold nearestEven
  rw [Nat.mul_mod_left, Nat.mul_div_cancel _ hd]
  simp [hd]

/-- A ratio that is a double is rounded to that. -/
theorem ofRatio_eq_finite (hc : Canonical m q) (hd : 0 < d)
    (h : n * power 2 (-q) = m * power 2 q * d) : ofRatio s n d = finite s m q hc := by
  have hpos (k : Int) : 0 < power 2 k := power_pos (by decide) k
  have htwo : (0 : ℚ) < 2 := by norm_num
  obtain ⟨hm, hq, hq', hform⟩ := id hc
  rcases Nat.eq_zero_or_pos m with rfl | hm0
  · have hn : n = 0 := by
      rw [Nat.zero_mul, Nat.zero_mul] at h
      exact (Nat.mul_eq_zero.mp h).resolve_right (hpos _).ne'
    obtain rfl : q = -1074 := hform.resolve_left (by decide)
    rw [hn]
    rfl
  have hn : 0 < n := Nat.pos_of_mul_pos_right (b := power 2 (-q))
    (h ▸ Nat.mul_pos (Nat.mul_pos hm0 (hpos q)) hd)
  have hratio : (n / d : ℚ) = m * 2 ^ q := by
    have : (power 2 (-q) : ℚ) ≠ 0 := by exact_mod_cast (hpos _).ne'
    have hcast : (n : ℚ) * power 2 (-q) = m * power 2 q * d := by exact_mod_cast h
    rw [← Nat.cast_ofNat (R := ℚ) (n := 2), ← power_div_power (by decide),
      div_eq_iff (by positivity)]
    field_simp
    linarith
  obtain ⟨hlow, hhigh⟩ := order_spec hn hd
  have hle : order 2 Nat.log2 n d < 53 + q := by
    have hlt : (n / d : ℚ) < 2 ^ (53 + q) := by
      rw [hratio, zpow_add₀ htwo.ne']
      exact mul_lt_mul_of_pos_right (by exact_mod_cast hm) (zpow_pos htwo q)
    exact (zpow_lt_zpow_iff_right₀ (by norm_num)).mp (hlow.trans_lt hlt)
  have hge (hm : power 2 52 ≤ m) : 52 + q < order 2 Nat.log2 n d + 1 := by
    have hle : (2 : ℚ) ^ (52 + q) ≤ n / d := by
      rw [hratio, zpow_add₀ htwo.ne']
      exact mul_le_mul_of_nonneg_right (by exact_mod_cast hm) (zpow_nonneg htwo.le q)
    exact (zpow_lt_zpow_iff_right₀ (by norm_num)).mp (hle.trans_lt hhigh)
  have hexponent : max (order 2 Nat.log2 n d - 52) (-1074) = q := by
    obtain hm | rfl := hform
    · have := hge hm
      omega
    · omega
  unfold ofRatio
  rw [if_neg hn.ne', hexponent]
  dsimp only
  rw [show n * power 2 (-q) = m * (d * power 2 q) by rw [h]; ring,
    nearestEven_mul_self (Nat.mul_pos hd (hpos q)), if_neg hm.ne, assemble, dif_pos hc]

theorem isFinite_ofRatio (hd : 0 < d) (h : (n / d : ℚ) < 2 ^ (1023 : Int)) :
    (ofRatio s n d).IsFinite := by
  have hpos (k : Int) : 0 < power 2 k := power_pos (by decide) k
  have htwo : (0 : ℚ) < 2 := by norm_num
  rcases Nat.eq_zero_or_pos n with rfl | hn
  · trivial
  obtain ⟨hlow, hhigh⟩ := order_spec hn hd
  have horder : order 2 Nat.log2 n d < 1023 :=
    (zpow_lt_zpow_iff_right₀ (by norm_num)).mp (hlow.trans_lt h)
  unfold ofRatio
  rw [if_neg hn.ne']
  dsimp only
  generalize horder' : order 2 Nat.log2 n d = e at *
  set q := max (e - 52) (-1074)
  have hden : 0 < d * power 2 q := Nat.mul_pos hd (hpos q)
  have hfloor : n * power 2 (-q) / (d * power 2 q) < power 2 53 := by
    rw [Nat.div_lt_iff_lt_mul hden, ← not_le, mul_power_le_iff hd, not_le]
    calc (n / d : ℚ) < 2 ^ (e + 1) := hhigh
      _ ≤ 2 ^ (53 + q) := zpow_le_zpow_right₀ (by norm_num) (by omega)
      _ = (power 2 53 : Nat) * 2 ^ q := by
          rw [zpow_add₀ htwo.ne', cast_power (by decide)]
  have hceil (hq : q = e - 52) : power 2 52 ≤ n * power 2 (-q) / (d * power 2 q) := by
    rw [Nat.le_div_iff_mul_le hden, mul_power_le_iff hd, cast_power (by decide),
      ← zpow_add₀ htwo.ne']
    exact (zpow_le_zpow_right₀ (by norm_num) (by omega)).trans hlow
  have hnear : n * power 2 (-q) / (d * power 2 q) ≤
      nearestEven (n * power 2 (-q)) (d * power 2 q) ∧
      nearestEven (n * power 2 (-q)) (d * power 2 q) ≤ n * power 2 (-q) / (d * power 2 q) + 1 := by
    unfold nearestEven
    split <;> omega
  split
  · refine isFinite_assemble ⟨by decide, ?_, ?_, .inl (Nat.le_refl _)⟩ <;> omega
  · refine isFinite_assemble ⟨?_, ?_, ?_, ?_⟩
    · omega
    · omega
    · omega
    · by_cases hq : q = e - 52
      · exact .inl ((hceil hq).trans hnear.1)
      · right
        omega

end Double

end ApiContract
