import ApiContract.Proofs.Run.Effects

namespace ApiContract

variable {σ : Type}

namespace Context

theorem local?_set_self (name : String) (value : Value) (context : Context) :
    (context.set name value).local? name = some value :=
  Fields.get?_set_self name value context.locals

theorem local?_set_of_ne {name other : String} (h : other ≠ name) (value : Value)
    (context : Context) : (context.set name value).local? other = context.local? other :=
  Fields.get?_set_of_ne h value context.locals

theorem local?_remove_of_ne {name other : String} (h : other ≠ name) (context : Context) :
    (context.remove name).local? other = context.local? other :=
  Fields.get?_erase_of_ne h context.locals

/-- A condition on contexts that some names have nothing to do with: it stays true when these are
bound and when they are removed. -/
structure Spares (Holds : Context → Prop) (names : Set String) : Prop where
  set : ∀ {context : Context} {name : String} {value : Value}, name ∈ names → Holds context →
    Holds (context.set name value)
  remove : ∀ {context : Context} {name : String}, name ∈ names → Holds context →
    Holds (context.remove name)

theorem spares_local? (name : String) (found : Option Value) :
    Spares (fun context => context.local? name = found) {name}ᶜ where
  set hn h := by rw [local?_set_of_ne (Ne.symm hn), h]
  remove hn h := by rw [local?_remove_of_ne (Ne.symm hn), h]

end Context

def Setup.bound? : Setup → Option String
  | clear _ => none
  | insertion name _ _ | declaration name _ => some name

namespace Runner

open Context (Spares)

def exchangeNames : Set String := {"post", "out", "prev"}

variable {runner : Runner σ} {document : Document} {world next : World σ} {c : Case}
  {context : Context} {Holds : Context → Prop} {names : Set String}

theorem local?_prev_shiftExchange (context : Context) :
    (shiftExchange context).local? "prev" =
      some (.object [("out", (context.local? "out").getD .null),
        ("post", (context.local? "post").getD .null)]) := by
  have hsorted : ∀ post out : Value,
      Fields.ofList [("post", post), ("out", out)] = [("out", out), ("post", post)] := by
    simp [Fields.ofList, Fields.set, (by decide : "out" < "post")]
  rw [shiftExchange, Context.local?_set_self, hsorted]

section Spares

theorem spares_shiftExchange (h : Spares Holds names) (hn : exchangeNames ⊆ names)
    (hc : Holds context) : Holds (shiftExchange context) :=
  h.set (hn (by simp [exchangeNames]))
    (h.remove (hn (by simp [exchangeNames])) (h.remove (hn (by simp [exchangeNames])) hc))

theorem spares_posting (h : Spares Holds names) (hn : exchangeNames ⊆ names) (hc : Holds context)
    (post : Value) : Holds (posting context post) :=
  h.set (hn (by simp [exchangeNames])) (spares_shiftExchange h hn hc)

theorem spares_answered (h : Spares Holds names) (hn : exchangeNames ⊆ names) (hc : Holds context)
    (post : Value) (response : Response) : Holds (answered context post response) :=
  h.set (hn (by simp [exchangeNames])) (spares_posting h hn hc post)

theorem spares_runCase (h : Spares Holds names) (hn : exchangeNames ⊆ names)
    (hw : Holds world.context) (c : Case) :
    Holds ((runner.runCase document c).run.run world).2.context := by
  obtain ⟨calls, result, next, hrun, -, hcourse⟩ :=
    @records_runCase σ runner document c world []
  rw [hrun]
  generalize next.context = after at hcourse
  cases hcourse with
  | noPost => exact spares_shiftExchange h hn hw
  | refused => exact spares_posting h hn hw _
  | answered => exact spares_answered h hn hw _ _

theorem spares_runCases (h : Spares Holds names) (hn : exchangeNames ⊆ names)
    (hw : Holds world.context) (cases : List Case) :
    Holds (runner.runCases document world cases).2.context := by
  induction cases generalizing world with
  | nil => exact hw
  | cons c cases ih =>
    rw [runCases]
    split
    · exact ih hw
    · exact ih (spares_runCase h hn hw c)

theorem spares_runSetup (h : Spares Holds names) {setup : Setup}
    (hn : ∀ name ∈ setup.bound?, name ∈ names)
    (hrun : (runner.runSetup setup).run.run world = (.ok (), next)) (hw : Holds world.context) :
    Holds next.context := by
  obtain ⟨calls, result, after, hplain, -, hcourse⟩ := @records_runSetup σ runner setup world []
  rw [hrun] at hplain
  cases hplain
  generalize hcontext : next.context = context at hcourse
  cases hcourse with
  | cleared => exact hw
  | inserted => exact h.set (hn _ rfl) hw
  | declared => exact h.set (hn _ rfl) hw

theorem spares_runSetups (h : Spares Holds names) {setups : List Setup}
    (hn : ∀ setup ∈ setups, ∀ name ∈ setup.bound?, name ∈ names)
    (hrun : (runner.runSetups setups).run.run world = (.ok (), next)) (hw : Holds world.context) :
    Holds next.context := by
  induction setups generalizing world with
  | nil =>
    cases hrun
    exact hw
  | cons setup setups ih =>
    obtain ⟨hsetup, hsetups⟩ := List.forall_mem_cons.mp hn
    rw [runSetups, run_bind] at hrun
    split at hrun
    · rename_i between hstep
      exact ih hsetups hrun (spares_runSetup h hsetup hstep hw)
    · cases hrun

end Spares

section Evaluates

def Replied (runner : Runner σ) (document : Document) (world : World σ) (c : Case) (post : Value)
    (response : Response) : Prop :=
  c.post.evaluate runner.evaluator (shiftExchange world.context) "<post>" = .ok post ∧
    (runner.services.post (runner.options.url (c.endpoint document)) post.toJson world.state).1 =
      .ok response

/-- The templates that a case may come to evaluate when it starts in a world, each with its label
and the context that it sees. -/
inductive Evaluates (runner : Runner σ) (document : Document) (world : World σ) (c : Case) :
    String → Template → Context → Prop
  | post : Evaluates runner document world c "<post>" c.post (shiftExchange world.context)
  | out {post : Value} {response : Response} {template : Template}
    (replied : Replied runner document world c post response) (out : c.out = some template) :
    Evaluates runner document world c "<out>" template (answered world.context post response)
  | find {post : Value} {response : Response} {find : Find}
    (replied : Replied runner document world c post response) (mem : find ∈ c.finds) :
    Evaluates runner document world c ("<find in " ++ find.collection ++ ">") find.template
      (answered world.context post response)

def judge (runner : Runner σ) (c : Case) (post : Value) (response : Response) : Run σ Unit :=
  if response.status = c.status then do
    runner.checkOut c post (.ofJson response.body)
    runner.runFinds c.finds
  else throw (.status c.status response.status (.ofJson response.body))

theorem run_runCase (c : Case) : (runner.runCase document c).run.run world =
    match c.post.evaluate runner.evaluator (shiftExchange world.context) "<post>" with
    | .error error => (.error (.evaluation error), ⟨world.state, shiftExchange world.context⟩)
    | .ok post =>
      match runner.services.post (runner.options.url (c.endpoint document)) post.toJson
          world.state with
      | (.error message, state) =>
        (.error (.transport message), ⟨state, posting world.context post⟩)
      | (.ok response, state) =>
        (runner.judge c post response).run.run ⟨state, answered world.context post response⟩ := by
  have hshift : (modify fun world : World σ =>
      { world with context := shiftExchange world.context } : Run σ Unit).run.run world =
        (.ok (), ⟨world.state, shiftExchange world.context⟩) := rfl
  have hbind : ∀ (name : String) (value : Value) (world : World σ),
      (bind name value : Run σ Unit).run.run world =
        (.ok (), ⟨world.state, world.context.set name value⟩) := fun _ _ _ => rfl
  rw [runCase, run_bind, hshift]
  dsimp only
  rw [run_bind, run_evaluate]
  dsimp only
  cases c.post.evaluate runner.evaluator (shiftExchange world.context) "<post>" with
  | error error => rfl
  | ok post =>
    dsimp only
    rw [run_bind, hbind]
    dsimp only
    rw [run_bind, run_call]
    dsimp only
    rcases runner.services.post (runner.options.url (c.endpoint document)) post.toJson world.state
      with ⟨_ | response, state⟩
    · rfl
    · dsimp only
      rw [run_bind, hbind]
      rfl

/-- No other evaluations matter to a case: any evaluator that agrees on these leads to the same. -/
def Suffices (runner : Runner σ) (document : Document) (world : World σ) (c : Case)
    (seen : String → Template → Context → Prop) : Prop :=
  ∀ evaluator : Evaluator, (∀ label template context, seen label template context →
      template.evaluate evaluator context label =
        template.evaluate runner.evaluator context label) →
    (({ runner with evaluator } : Runner σ).runCase document c).run.run world =
      (runner.runCase document c).run.run world

variable {evaluator : Evaluator}

theorem context_runFind {find : Find} {result : Except Failure Unit}
    (h : (runner.runFind find).run.run world = (result, next)) : next.context = world.context := by
  obtain ⟨calls, answer, last, hrun, -, hcontext, -⟩ := @records_runFind σ runner find world []
  cases hrun.symm.trans h
  exact hcontext

theorem context_checkOut {post actual : Value} {result : Except Failure Unit}
    (h : (runner.checkOut c post actual).run.run world = (result, next)) :
    next.context = world.context := by
  obtain ⟨calls, answer, last, hrun, -, -, hcontext, -⟩ :=
    @records_checkOut σ runner c post actual world []
  cases hrun.symm.trans h
  exact hcontext

theorem run_bind_congr {α β : Type} {step other : Run σ α} {rest more : α → Run σ β}
    (hstep : other.run.run world = step.run.run world)
    (hrest : ∀ a next, step.run.run world = (.ok a, next) →
      (more a).run.run next = (rest a).run.run next) :
    (other >>= more).run.run world = (step >>= rest).run.run world := by
  rw [run_bind, run_bind, hstep]
  rcases hrun : step.run.run world with ⟨_ | a, next⟩
  · rfl
  · exact hrest a next hrun

theorem run_evaluate_congr {label : String} {template : Template}
    (h : template.evaluate evaluator world.context label =
      template.evaluate runner.evaluator world.context label) :
    (({ runner with evaluator } : Runner σ).evaluate label template).run.run world =
      (runner.evaluate label template).run.run world := by
  rw [run_evaluate, run_evaluate, h]

theorem run_runFinds_congr {finds : List Find}
    (h : ∀ find ∈ finds, find.template.evaluate evaluator world.context
        ("<find in " ++ find.collection ++ ">") =
      find.template.evaluate runner.evaluator world.context
        ("<find in " ++ find.collection ++ ">")) :
    (({ runner with evaluator } : Runner σ).runFinds finds).run.run world =
      (runner.runFinds finds).run.run world := by
  induction finds generalizing world with
  | nil => rfl
  | cons find finds ih =>
    obtain ⟨hfind, hfinds⟩ := List.forall_mem_cons.mp h
    have hfirst : (({ runner with evaluator } : Runner σ).runFind find).run.run world =
        (runner.runFind find).run.run world :=
      run_bind_congr (run_evaluate_congr hfind) fun _ _ _ => rfl
    exact run_bind_congr hfirst fun _ next hrun =>
      ih (by rw [context_runFind hrun]; exact hfinds)

theorem run_checkOut_congr {post actual : Value}
    (h : ∀ template, c.out = some template →
      template.evaluate evaluator world.context "<out>" =
        template.evaluate runner.evaluator world.context "<out>") :
    (({ runner with evaluator } : Runner σ).checkOut c post actual).run.run world =
      (runner.checkOut c post actual).run.run world := by
  unfold checkOut
  split
  · rfl
  · rename_i template ho
    exact run_bind_congr (run_evaluate_congr (h template ho)) fun _ _ _ => rfl

theorem suffices_evaluates :
    Suffices runner document world c (Evaluates runner document world c) := by
  intro evaluator h
  rw [run_runCase, run_runCase, h _ _ _ .post]
  cases hpost : c.post.evaluate runner.evaluator (shiftExchange world.context) "<post>" with
  | error error => rfl
  | ok post =>
    dsimp only
    cases hanswer : runner.services.post (runner.options.url (c.endpoint document)) post.toJson
      world.state with
    | mk answer state =>
    cases answer with
    | error message => rfl
    | ok response =>
      have hreplied : Replied runner document world c post response :=
        ⟨hpost, by rw [hanswer]⟩
      dsimp only
      rw [judge, judge]
      split
      · refine run_bind_congr (run_checkOut_congr fun template ho => h _ _ _ (.out hreplied ho))
          fun _ next hrun => run_runFinds_congr fun find hf => ?_
        rw [context_checkOut hrun]
        exact h _ _ _ (.find hreplied hf)
      · rfl

theorem Evaluates.spares {label : String} {template : Template} (h : Spares Holds names)
    (hn : exchangeNames ⊆ names) (hw : Holds world.context)
    (he : Evaluates runner document world c label template context) : Holds context := by
  cases he with
  | post => exact spares_shiftExchange h hn hw
  | out => exact spares_answered h hn hw _ _
  | find => exact spares_answered h hn hw _ _

/-- All that cases need of an evaluator is what it does in contexts with a condition that holds at
the start and does not depend on the names that cases use. -/
theorem runCases_congr (h : Spares Holds names) (hn : exchangeNames ⊆ names)
    (hw : Holds world.context)
    (hagree : ∀ label template context, Holds context →
      Template.evaluate evaluator context label template =
        template.evaluate runner.evaluator context label) (cases : List Case) :
    ({ runner with evaluator } : Runner σ).runCases document world cases =
      runner.runCases document world cases := by
  induction cases generalizing world with
  | nil => rfl
  | cons c cases ih =>
    have hcase := @suffices_evaluates σ runner document world c evaluator
      fun label template context he => hagree label template context (he.spares h hn hw)
    rw [runCases, runCases, hcase]
    split
    · rw [ih hw]
    · have hnext := @spares_runCase σ runner document world Holds names h hn hw c
      rcases hrun : (runner.runCase document c).run.run world with ⟨result, next⟩
      rw [hrun] at hnext
      dsimp only
      rw [ih hnext]

end Evaluates

end Runner

end ApiContract
