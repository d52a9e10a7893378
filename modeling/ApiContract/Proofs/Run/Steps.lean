import ApiContract.Run.Execution

namespace ApiContract.Runner

variable {σ α β : Type} {runner : Runner σ} {world : World σ}

theorem run_bind (step : Run σ α) (rest : α → Run σ β) :
    (step >>= rest).run.run world = match step.run.run world with
      | (.ok a, next) => (rest a).run.run next
      | (.error failure, next) => (.error failure, next) := by
  rw [ExceptT.run_bind, StateT.run_bind]
  change (match step.run.run world with | (_, _) => _) = _
  rcases step.run.run world with ⟨_ | a, next⟩ <;> rfl

theorem run_call (failure : String → Failure) (service : Call σ α) :
    (call failure service).run.run world = match service world.state with
      | (.ok a, state) => (.ok a, { world with state })
      | (.error message, state) => (.error (failure message), { world with state }) := by
  have hget : (get : Run σ (World σ)).run.run world = (.ok world, world) := rfl
  rw [call, run_bind, hget]
  dsimp only
  rcases service world.state with ⟨_ | a, state⟩ <;> rfl

theorem run_evaluate (label : String) (template : Template) :
    (runner.evaluate label template).run.run world =
      match template.evaluate runner.evaluator world.context label with
      | .ok value => (.ok value, world)
      | .error error => (.error (.evaluation error), world) := by
  have hget : (get : Run σ (World σ)).run.run world = (.ok world, world) := rfl
  rw [evaluate, run_bind, hget]
  dsimp only
  cases template.evaluate runner.evaluator world.context label <;> rfl

def Succeeds (step : Run σ α) (world : World σ) : Prop :=
  ∃ a next, step.run.run world = (.ok a, next)

theorem succeeds_bind_iff {step : Run σ α} {rest : α → Run σ β} {a : α} {next : World σ}
    (h : step.run.run world = (.ok a, next)) :
    Succeeds (step >>= rest) world ↔ Succeeds (rest a) next := by
  rw [Succeeds, run_bind, h]
  rfl

theorem succeeds_return (a : α) : Succeeds (return a : Run σ α) world := ⟨a, world, rfl⟩

theorem not_succeeds_throw (failure : Failure) : ¬ Succeeds (throw failure : Run σ α) world := by
  rintro ⟨a, next, h⟩
  cases h

end ApiContract.Runner
