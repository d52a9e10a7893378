import ApiContract.Text.Alphabetic
import ApiContract.Text.Numeric
import ApiContract.Text.Word

namespace ApiContract.Text

def isAlphabetic (c : Char) : Bool := alphabetic.covers c.toNat

def isAlphanumeric (c : Char) : Bool := isAlphabetic c || numeric.covers c.toNat

def isDecimalDigit (c : Char) : Bool := decimalDigit.covers c.toNat

/-- A character inside a word; a word ends where one is followed by none. -/
def isWord (c : Char) : Bool := word.covers c.toNat

theorem alphabetic_eq : alphabetic = 65 :: 26 :: 6 :: 26 :: alphabetic.drop 4 := rfl

theorem isAlphabetic_of_isUpper {c : Char} (h : c.isUpper = true) : isAlphabetic c = true := by
  obtain ⟨h₁, h₂⟩ : 65 ≤ c.toNat ∧ c.toNat ≤ 90 := of_decide_eq_true h
  obtain ⟨k, hk⟩ : ∃ k, c.toNat = 65 + k := Nat.exists_eq_add_of_le h₁
  rw [isAlphabetic, alphabetic_eq, hk]
  exact Runs.covers_cons (by omega)

theorem isAlphabetic_of_isLower {c : Char} (h : c.isLower = true) : isAlphabetic c = true := by
  obtain ⟨h₁, h₂⟩ : 97 ≤ c.toNat ∧ c.toNat ≤ 122 :=
    ((Bool.and_eq_true _ _).mp h).imp of_decide_eq_true of_decide_eq_true
  obtain ⟨k, hk⟩ : ∃ k, c.toNat = 65 + 26 + (6 + k) := ⟨c.toNat - 97, by omega⟩
  rw [isAlphabetic, alphabetic_eq, hk, Runs.covers_beyond]
  exact Runs.covers_cons (by omega)

theorem isAlphabetic_of_isAlpha {c : Char} (h : c.isAlpha = true) : isAlphabetic c = true := by
  rcases (Bool.or_eq_true _ _).mp h with h | h
  · exact isAlphabetic_of_isUpper h
  · exact isAlphabetic_of_isLower h

theorem numeric_eq : numeric = 48 :: 10 :: numeric.drop 2 := rfl

theorem isAlphanumeric_of_isDigit {c : Char} (h : c.isDigit = true) : isAlphanumeric c = true := by
  obtain ⟨h₁, h₂⟩ : 48 ≤ c.toNat ∧ c.toNat ≤ 57 :=
    ((Bool.and_eq_true _ _).mp h).imp of_decide_eq_true of_decide_eq_true
  obtain ⟨k, hk⟩ : ∃ k, c.toNat = 48 + k := Nat.exists_eq_add_of_le h₁
  rw [isAlphanumeric, numeric_eq, hk, Runs.covers_cons (by omega), Bool.or_true]

end ApiContract.Text
