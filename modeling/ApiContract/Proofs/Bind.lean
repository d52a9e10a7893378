namespace ApiContract

theorem ok_bind {ε α β : Type} {a : α} {next : α → Except ε β} : (Except.ok a >>= next) = next a :=
  rfl

theorem error_bind {ε α β : Type} {e : ε} {next : α → Except ε β} :
    (Except.error e >>= next) = .error e := rfl

theorem bind_eq_ok_iff {ε α β : Type} {first : Except ε α} {next : α → Except ε β} {b : β} :
    (first >>= next) = .ok b ↔ ∃ a, first = .ok a ∧ next a = .ok b := by
  cases first <;> simp [bind, Except.bind]

theorem bind_eq_error_iff {ε α β : Type} {first : Except ε α} {next : α → Except ε β} {e : ε} :
    (first >>= next) = .error e ↔ first = .error e ∨ ∃ a, first = .ok a ∧ next a = .error e := by
  cases first <;> simp [bind, Except.bind]

theorem bind_congr_ok {ε α β : Type} {first : Except ε α} {next more : α → Except ε β}
    (h : ∀ a, first = .ok a → next a = more a) : (first >>= next) = (first >>= more) := by
  cases first with
  | error e => rfl
  | ok a => exact h a rfl

theorem map_eq_ok_iff {ε α β : Type} {step : Except ε α} {f : α → β} {b : β} :
    step.map f = .ok b ↔ ∃ a, step = .ok a ∧ f a = b := by
  cases step <;> simp [Except.map]

theorem map_eq_error_iff {ε α β : Type} {step : Except ε α} {f : α → β} {e : ε} :
    step.map f = .error e ↔ step = .error e := by
  cases step <;> simp [Except.map]

theorem mapError_eq_ok_iff {ε ε' α : Type} {step : Except ε α} {f : ε → ε'} {a : α} :
    step.mapError f = .ok a ↔ step = .ok a := by
  cases step with
  | error cause => constructor <;> rintro ⟨⟩
  | ok b => constructor <;> (rintro ⟨⟩; rfl)

theorem mapError_eq_error_iff {ε ε' α : Type} {step : Except ε α} {f : ε → ε'} {e : ε'} :
    step.mapError f = .error e ↔ ∃ cause, step = .error cause ∧ f cause = e := by
  cases step with
  | error cause =>
    constructor
    · rintro ⟨⟩
      exact ⟨cause, rfl, rfl⟩
    · rintro ⟨_, ⟨⟩, rfl⟩
      rfl
  | ok b =>
    constructor
    · rintro ⟨⟩
    · rintro ⟨_, ⟨⟩, -⟩

end ApiContract
