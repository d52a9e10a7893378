import Mathlib.Algebra.Order.Field.Basic
import Mathlib.Tactic.NormNum
import ApiContract.Number.Basic

namespace ApiContract

namespace Double

/-- Two doubles stand for the same number: infinities for themselves, and what is not a number for
nothing. -/
def SameNumber : Double → Double → Prop
  | finite s m q _, finite t n r _ => (signed s m : ℚ) * 2 ^ q = signed t n * 2 ^ r
  | infinite s, infinite t => s = t
  | _, _ => False

theorem cast_power {k : Int} (h : 0 ≤ k) : ((power 2 k : Nat) : ℚ) = 2 ^ k := by
  obtain ⟨n, rfl⟩ := Int.eq_ofNat_of_zero_le h
  simp [power]

theorem cast_signed_mul (s : Bool) (m n : Nat) :
    ((signed s (m * n) : Int) : ℚ) = signed s m * n := by
  cases s <;> simp [signed]

theorem cast_signed_power (s : Bool) (m : Nat) {q e : Int} (h : e ≤ q) :
    ((signed s (m * power 2 (q - e)) : Int) : ℚ) * 2 ^ e = signed s m * 2 ^ q := by
  rw [cast_signed_mul, cast_power (by omega), mul_assoc, ← zpow_add₀ (by norm_num)]
  congr 2
  omega

theorem same_iff {x y : Double} : x.same y = true ↔ SameNumber x y := by
  cases x with
  | finite s m q _ =>
    cases y with
    | finite t n r _ =>
      have hne : (2 : ℚ) ^ min q r ≠ 0 := zpow_ne_zero _ (by norm_num)
      rw [SameNumber, ← cast_signed_power s m (min_le_left q r),
        ← cast_signed_power t n (min_le_right q r), mul_left_inj' hne, Int.cast_inj]
      simp [same, ordering, aligned]
    | infinite t => cases t <;> simp [same, ordering, SameNumber]
    | nan => simp [same, ordering, SameNumber]
  | infinite s =>
    cases y with
    | finite t n r _ => cases s <;> simp [same, ordering, SameNumber]
    | infinite t => cases s <;> cases t <;> simp [same, ordering, SameNumber]
    | nan => simp [same, ordering, SameNumber]
  | nan => cases y <;> simp [same, ordering, SameNumber]

theorem SameNumber.refl {x : Double} (h : x ≠ nan) : SameNumber x x := by
  cases x with
  | nan => exact absurd rfl h
  | _ => exact rfl

theorem assemble_ne_nan (s : Bool) (m : Nat) (q : Int) : assemble s m q ≠ nan := by
  unfold assemble
  split <;> simp

theorem ofRatio_ne_nan (s : Bool) (n d : Nat) : ofRatio s n d ≠ nan := by
  unfold ofRatio
  split
  · simp [zero]
  · dsimp only
    split <;> exact assemble_ne_nan _ _ _

theorem SameNumber.symm {x y : Double} (h : SameNumber x y) : SameNumber y x := by
  cases x <;> cases y <;> first | exact Eq.symm h | exact h

theorem SameNumber.trans {x y z : Double} (h : SameNumber x y) (h' : SameNumber y z) :
    SameNumber x z := by
  cases x <;> cases y <;> cases z <;> first | exact Eq.trans h h' | exact h.elim | exact h'.elim

end Double

/-- Numbers of the same value, whether they are kept as integers or as floats. -/
def Number.Equal (x y : Number) : Prop := Double.SameNumber x.toDouble y.toDouble

theorem Number.toDouble_ne_nan (x : Number) : x.toDouble ≠ .nan := by
  cases x with
  | integer n _ => exact Double.ofRatio_ne_nan _ _ _
  | float x finite =>
    rintro rfl
    exact finite

theorem Number.Equal.refl (x : Number) : x.Equal x := Double.SameNumber.refl x.toDouble_ne_nan

theorem Number.sameValue_iff {x y : Number} : x.sameValue y = true ↔ x.Equal y := Double.same_iff

end ApiContract
