namespace ApiContract.Text

/-- Every `step`-th code point from `first` to `last` moves by `shift`. -/
structure CaseShift where
  first : Nat
  last : Nat
  step : Nat
  shift : Int

def CaseShift.applies (s : CaseShift) (n : Nat) : Bool :=
  s.first ≤ n && n ≤ s.last && (n - s.first) % s.step == 0

structure CaseMap where
  shifts : List CaseShift
  expansions : List (Nat × List Nat)

def CaseMap.apply (m : CaseMap) (c : Char) : List Char :=
  match m.expansions.lookup c.toNat with
  | some ns => ns.map Char.ofNat
  | none =>
    match m.shifts.find? (·.applies c.toNat) with
    | some s => [Char.ofNat (c.toNat + s.shift).toNat]
    | none => [c]

end ApiContract.Text
