import ApiContract.Proofs.Bind
import ApiContract.Proofs.Run.Steps

namespace ApiContract

inductive Exchange
  | clear (collection : String) (answer : Except String Unit)
  | insert (collection : String) (document : Json) (answer : Except String Json)
  | findById (collection : String) (id : Json) (answer : Except String (Option Json))
  | findAll (collection : String) (answer : Except String (List Json))
  | post (url : String) (body : Json) (answer : Except String Response)

variable {σ α β : Type}

def recorded (entry : Except String α → Exchange) (call : Call σ α) :
    Call (σ × List Exchange) α := fun (state, record) =>
  let (answer, next) := call state
  (answer, next, record ++ [entry answer])

def Services.recorded (services : Services σ) : Services (σ × List Exchange) where
  clear collection := ApiContract.recorded (.clear collection) (services.clear collection)
  insert collection document :=
    ApiContract.recorded (.insert collection document) (services.insert collection document)
  findById collection id :=
    ApiContract.recorded (.findById collection id) (services.findById collection id)
  findAll collection := ApiContract.recorded (.findAll collection) (services.findAll collection)
  post url body := ApiContract.recorded (.post url body) (services.post url body)

namespace Runner

def recorded (runner : Runner σ) : Runner (σ × List Exchange) :=
  ⟨runner.services.recorded, runner.evaluator, runner.options, runner.base⟩

theorem recorded_evaluator (runner : Runner σ) : runner.recorded.evaluator = runner.evaluator := rfl

theorem recorded_options (runner : Runner σ) : runner.recorded.options = runner.options := rfl

theorem recorded_findStrictness (runner : Runner σ) :
    runner.recorded.findStrictness = runner.findStrictness := rfl

/-- What a step has to do with its context: the calls that it makes there, its answer, and the
context that it leaves. -/
abbrev Conduct (α : Type) := Context → List Exchange → Except Failure α → Context → Prop

def Conduct.andThen (first : Conduct α) (rest : α → Conduct β) : Conduct β :=
  fun context calls answer after =>
    (∃ failure, answer = .error failure ∧ first context calls (.error failure) after) ∨
      ∃ a between made more, first context made (.ok a) between ∧
        rest a between more answer after ∧ calls = made ++ more

/-- A step and the same step on record, which conduct themselves in one way in every world. -/
def Records (conduct : Conduct α) (step : Run σ α) (onRecord : Run (σ × List Exchange) α) : Prop :=
  ∀ (world : World σ) (record : List Exchange), ∃ calls answer next,
    step.run.run world = (answer, next) ∧
      onRecord.run.run ⟨(world.state, record), world.context⟩ =
        (answer, ⟨(next.state, record ++ calls), next.context⟩) ∧
      conduct world.context calls answer next.context

variable {runner : Runner σ} {conduct conduct' : Conduct α} {step : Run σ α}
  {onRecord : Run (σ × List Exchange) α}

theorem Records.mono (h : Records conduct step onRecord)
    (himp : ∀ {context calls answer after}, conduct context calls answer after →
      conduct' context calls answer after) : Records conduct' step onRecord := by
  intro world record
  obtain ⟨calls, answer, next, hrun, hrecord, hconduct⟩ := h world record
  exact ⟨calls, answer, next, hrun, hrecord, himp hconduct⟩

theorem Records.andThen {c : α → Conduct β} {more : α → Run σ β}
    {moreOnRecord : α → Run (σ × List Exchange) β} (h : Records conduct step onRecord)
    (hrest : ∀ a, Records (c a) (more a) (moreOnRecord a)) :
    Records (conduct.andThen c) (step >>= more) (onRecord >>= moreOnRecord) := by
  intro world record
  obtain ⟨calls, answer, next, hrun, hrecord, hconduct⟩ := h world record
  rw [run_bind, run_bind, hrun, hrecord]
  cases answer with
  | error failure =>
    exact ⟨calls, .error failure, next, rfl, rfl, .inl ⟨failure, rfl, hconduct⟩⟩
  | ok a =>
    obtain ⟨others, answer, last, hrun, hrecord, hothers⟩ := hrest a next (record ++ calls)
    refine ⟨calls ++ others, answer, last, hrun, ?_, .inr ⟨a, _, calls, others, hconduct, hothers,
      rfl⟩⟩
    rw [← List.append_assoc]
    exact hrecord

theorem records_return {a : α} (h : ∀ context, conduct context [] (.ok a) context) :
    Records conduct (return a : Run σ α) (return a) := fun world record =>
  ⟨[], .ok a, world, rfl, by rw [List.append_nil]; rfl, h world.context⟩

theorem records_throw {failure : Failure}
    (h : ∀ context, conduct context [] (.error failure) context) :
    Records conduct (throw failure : Run σ α) (throw failure) := fun world record =>
  ⟨[], .error failure, world, rfl, by rw [List.append_nil]; rfl, h world.context⟩

theorem records_modify (f : Context → Context) :
    Records (fun context calls answer after => calls = [] ∧ answer = .ok () ∧ after = f context)
      (modify fun world => { world with context := f world.context } : Run σ Unit)
      (modify fun world => { world with context := f world.context }) := fun world record =>
  ⟨[], .ok (), ⟨world.state, f world.context⟩, rfl, by rw [List.append_nil]; rfl, rfl, rfl, rfl⟩

theorem records_bind (name : String) (value : Value) :
    Records (fun context calls answer after =>
        calls = [] ∧ answer = .ok () ∧ after = context.set name value)
      (bind name value : Run σ Unit) (bind name value) :=
  records_modify fun context => context.set name value

theorem records_call (failure : String → Failure) (entry : Except String α → Exchange)
    (service : Call σ α) :
    Records (fun context calls answer after => after = context ∧ ∃ answered,
        calls = [entry answered] ∧ answered.mapError failure = answer)
      (call failure service) (call failure (ApiContract.recorded entry service)) := by
  intro world record
  rw [run_call, run_call, ApiContract.recorded]
  rcases service world.state with ⟨_ | a, state⟩
  · exact ⟨_, _, _, rfl, rfl, rfl, _, rfl, rfl⟩
  · exact ⟨_, _, _, rfl, rfl, rfl, _, rfl, rfl⟩

theorem records_judged {failure : String → Failure} {entry : Except String α → Exchange}
    {service : Call σ α} {judged : Except String α → Except Failure β → Prop}
    {more : α → Run σ β} {moreOnRecord : α → Run (σ × List Exchange) β}
    (hrefused : ∀ message, judged (.error message) (.error (failure message)))
    (h : ∀ a, Records (fun context calls result after =>
      calls = [] ∧ after = context ∧ judged (.ok a) result) (more a) (moreOnRecord a)) :
    Records (fun context calls result after => after = context ∧ ∃ answered,
        calls = [entry answered] ∧ judged answered result)
      (call failure service >>= more)
      (call failure (ApiContract.recorded entry service) >>= moreOnRecord) := by
  refine ((records_call failure entry service).andThen h).mono ?_
  rintro context calls result after (⟨failed, rfl, rfl, answered, rfl, hanswer⟩ |
    ⟨a, between, made, more, ⟨rfl, answered, rfl, hanswer⟩, ⟨rfl, rfl, hjudged⟩, rfl⟩)
  · obtain ⟨message, rfl, rfl⟩ := mapError_eq_error_iff.mp hanswer
    exact ⟨rfl, _, rfl, hrefused message⟩
  · obtain rfl := mapError_eq_ok_iff.mp hanswer
    exact ⟨rfl, _, rfl, hjudged⟩

theorem records_evaluate (label : String) (template : Template) :
    Records (fun context calls answer after => calls = [] ∧ after = context ∧
        (template.evaluate runner.evaluator context label).mapError .evaluation = answer)
      (runner.evaluate label template) (runner.recorded.evaluate label template) := by
  intro world record
  rw [run_evaluate, run_evaluate, recorded_evaluator]
  cases hvalue : template.evaluate runner.evaluator world.context label with
  | ok value =>
    exact ⟨[], _, world, rfl, by rw [List.append_nil], rfl, rfl, by rw [hvalue]; rfl⟩
  | error error =>
    exact ⟨[], _, world, rfl, by rw [List.append_nil], rfl, rfl, by rw [hvalue]; rfl⟩

theorem records_valued {label : String} {template : Template} {more : Value → Run σ α}
    {moreOnRecord : Value → Run (σ × List Exchange) α}
    (hfailed : ∀ context error, template.evaluate runner.evaluator context label = .error error →
      conduct context [] (.error (.evaluation error)) context)
    (h : ∀ value, Records (fun context calls result after =>
      template.evaluate runner.evaluator context label = .ok value →
        conduct context calls result after) (more value) (moreOnRecord value)) :
    Records conduct (runner.evaluate label template >>= more)
      (runner.recorded.evaluate label template >>= moreOnRecord) := by
  refine ((records_evaluate label template).andThen h).mono ?_
  rintro context calls result after (⟨failure, rfl, rfl, rfl, hvalue⟩ |
    ⟨value, between, made, more, ⟨rfl, rfl, hvalue⟩, hrest, rfl⟩)
  · obtain ⟨error, herror, rfl⟩ := mapError_eq_error_iff.mp hvalue
    exact hfailed _ error herror
  · exact hrest (mapError_eq_ok_iff.mp hvalue)

end Runner

end ApiContract
