namespace ApiContract.Text

/-- A set of code points, written as lengths of runs: so many left out, so many taken, and so on in
turn. -/
abbrev Runs := List Nat

def Runs.covers : Runs → Nat → Bool
  | skip :: take :: rest, n =>
    if n < skip then false
    else if n < skip + take then true
    else Runs.covers rest (n - skip - take)
  | _, _ => false

theorem Runs.covers_cons {skip take : Nat} {rest : Runs} {n : Nat} (h : n < take) :
    Runs.covers (skip :: take :: rest) (skip + n) = true := by
  have h₁ : ¬ skip + n < skip := by omega
  have h₂ : skip + n < skip + take := by omega
  simp [Runs.covers, h₁, h₂]

theorem Runs.covers_beyond (skip take : Nat) (rest : Runs) (n : Nat) :
    Runs.covers (skip :: take :: rest) (skip + take + n) = Runs.covers rest n := by
  have h₁ : ¬ skip + take + n < skip := by omega
  have h₂ : ¬ skip + take + n < skip + take := by omega
  have h₃ : skip + take + n - skip - take = n := by omega
  simp [Runs.covers, h₁, h₂, h₃]

end ApiContract.Text
