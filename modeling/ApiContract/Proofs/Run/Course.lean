import ApiContract.Proofs.Run.Recording

namespace ApiContract.Runner

variable {σ : Type} (runner : Runner σ)

/-- Steps one after the other up to the first one that fails. -/
inductive Sequence {α : Type} (Step : Context → α → List Exchange → Except Failure Context → Prop) :
    Context → List α → List Exchange → Except Failure Context → Prop
  | done {context : Context} : Sequence Step context [] [] (.ok context)
  | next {context between : Context} {a : α} {as : List α} {made more : List Exchange}
    {result : Except Failure Context} (first : Step context a made (.ok between))
    (rest : Sequence Step between as more result) :
    Sequence Step context (a :: as) (made ++ more) result
  | stop {context : Context} {a : α} {as : List α} {made : List Exchange} {failure : Failure}
    (first : Step context a made (.error failure)) :
    Sequence Step context (a :: as) made (.error failure)

inductive SetupCourse : Context → Setup → List Exchange → Except Failure Context → Prop
  | cleared {context : Context} {collection : String} :
    SetupCourse context (.clear collection) [.clear collection (.ok ())] (.ok context)
  | notCleared {context : Context} {collection message : String} :
    SetupCourse context (.clear collection) [.clear collection (.error message)]
      (.error (.storage message))
  | inserted {context : Context} {name collection : String} {template : Template} {value : Value}
    {id : Json} (evaluated : template.evaluate runner.evaluator context
      ("<" ++ name ++ " in " ++ collection ++ ">") = .ok value) :
    SetupCourse context (.insertion name collection template)
      [.insert collection (runner.withDefaults collection value).toJson (.ok id)]
      (.ok (context.set name ((runner.withDefaults collection value).withId id)))
  | notInserted {context : Context} {name collection message : String} {template : Template}
    {value : Value} (evaluated : template.evaluate runner.evaluator context
      ("<" ++ name ++ " in " ++ collection ++ ">") = .ok value) :
    SetupCourse context (.insertion name collection template)
      [.insert collection (runner.withDefaults collection value).toJson (.error message)]
      (.error (.storage message))
  | noDocument {context : Context} {name collection : String} {template : Template}
    {error : EvaluationError} (evaluated : template.evaluate runner.evaluator context
      ("<" ++ name ++ " in " ++ collection ++ ">") = .error error) :
    SetupCourse context (.insertion name collection template) [] (.error (.evaluation error))
  | declared {context : Context} {name : String} {template : Template} {value : Value}
    (evaluated : template.evaluate runner.evaluator context ("<" ++ name ++ " is>") = .ok value) :
    SetupCourse context (.declaration name template) [] (.ok (context.set name value))
  | noValue {context : Context} {name : String} {template : Template} {error : EvaluationError}
    (evaluated : template.evaluate runner.evaluator context ("<" ++ name ++ " is>") =
      .error error) :
    SetupCourse context (.declaration name template) [] (.error (.evaluation error))

inductive IdCourse (collection : String) (expected id : Value) :
    Except String (Option Json) → Except Failure Unit → Prop
  | refused {message : String} :
    IdCourse collection expected id (.error message) (.error (.storage message))
  | missing : IdCourse collection expected id (.ok none) (.error (.missing collection id.text))
  | unlike {document : Json} {mismatch : Mismatch}
    (compared : compareValues runner.findStrictness (.ofJson document) expected =
      .error mismatch) :
    IdCourse collection expected id (.ok (some document))
      (.error (.findById collection mismatch (.ofJson document) expected))
  | alike {document : Json}
    (compared : compareValues runner.findStrictness (.ofJson document) expected = .ok ()) :
    IdCourse collection expected id (.ok (some document)) (.ok ())

inductive ScanCourse (collection : String) (expected : Value) :
    Except String (List Json) → Except Failure Unit → Prop
  | refused {message : String} :
    ScanCourse collection expected (.error message) (.error (.storage message))
  | absent {documents : List Json} {candidates : List (Value × Mismatch)}
    (tried : tryAll runner.findStrictness expected documents = some candidates) :
    ScanCourse collection expected (.ok documents)
      (.error (.notFound collection expected candidates))
  | present {documents : List Json}
    (tried : tryAll runner.findStrictness expected documents = none) :
    ScanCourse collection expected (.ok documents) (.ok ())

inductive FindCourse : Context → Find → List Exchange → Except Failure Context → Prop
  | noValue {context : Context} {find : Find} {error : EvaluationError}
    (evaluated : find.template.evaluate runner.evaluator context
      ("<find in " ++ find.collection ++ ">") = .error error) :
    FindCourse context find [] (.error (.evaluation error))
  | byId {context : Context} {find : Find} {expected id : Value}
    {answered : Except String (Option Json)} {result : Except Failure Unit}
    (evaluated : find.template.evaluate runner.evaluator context
      ("<find in " ++ find.collection ++ ">") = .ok expected)
    (wanted : wantedId? expected = some id)
    (judged : IdCourse runner find.collection expected id answered result) :
    FindCourse context find [.findById find.collection id.toJson answered]
      (result.map fun _ => context)
  | among {context : Context} {find : Find} {expected : Value}
    {answered : Except String (List Json)} {result : Except Failure Unit}
    (evaluated : find.template.evaluate runner.evaluator context
      ("<find in " ++ find.collection ++ ">") = .ok expected)
    (wanted : wantedId? expected = none)
    (judged : ScanCourse runner find.collection expected answered result) :
    FindCourse context find [.findAll find.collection answered] (result.map fun _ => context)

inductive OutCourse (context : Context) (c : Case) (post actual : Value) :
    Except Failure Unit → Prop
  | free (out : c.out = none) : OutCourse context c post actual (.ok ())
  | noValue {template : Template} {error : EvaluationError} (out : c.out = some template)
    (evaluated : template.evaluate runner.evaluator context "<out>" = .error error) :
    OutCourse context c post actual (.error (.evaluation error))
  | unlike {template : Template} {expected : Value} {mismatch : Mismatch}
    (out : c.out = some template)
    (evaluated : template.evaluate runner.evaluator context "<out>" = .ok expected)
    (compared : compareValues ⟨runner.options.strict, []⟩ actual expected = .error mismatch) :
    OutCourse context c post actual (.error (.output mismatch post actual expected))
  | alike {template : Template} {expected : Value} (out : c.out = some template)
    (evaluated : template.evaluate runner.evaluator context "<out>" = .ok expected)
    (compared : compareValues ⟨runner.options.strict, []⟩ actual expected = .ok ()) :
    OutCourse context c post actual (.ok ())

inductive AnswerCourse (context : Context) (c : Case) (post : Value) (response : Response) :
    List Exchange → Except Failure Unit → Prop
  | otherStatus (status : response.status ≠ c.status) :
    AnswerCourse context c post response []
      (.error (.status c.status response.status (.ofJson response.body)))
  | otherOut {failure : Failure} (status : response.status = c.status)
    (out : OutCourse runner context c post (.ofJson response.body) (.error failure)) :
    AnswerCourse context c post response [] (.error failure)
  | matched {calls : List Exchange} {result : Except Failure Context}
    (status : response.status = c.status)
    (out : OutCourse runner context c post (.ofJson response.body) (.ok ()))
    (finds : Sequence (FindCourse runner) context c.finds calls result) :
    AnswerCourse context c post response calls (result.map fun _ => ())

def posting (context : Context) (post : Value) : Context :=
  (shiftExchange context).set "post" post

def answered (context : Context) (post : Value) (response : Response) : Context :=
  (posting context post).set "out" (.ofJson response.body)

variable (document : Document)

/-- A case: the calls that it makes, its result, and the context that it leaves to the cases behind
it. -/
inductive CaseCourse :
    Context → Case → List Exchange → Except Failure Unit → Context → Prop
  | noPost {context : Context} {c : Case} {error : EvaluationError}
    (evaluated : c.post.evaluate runner.evaluator (shiftExchange context) "<post>" =
      .error error) :
    CaseCourse context c [] (.error (.evaluation error)) (shiftExchange context)
  | refused {context : Context} {c : Case} {post : Value} {message : String}
    (evaluated : c.post.evaluate runner.evaluator (shiftExchange context) "<post>" = .ok post) :
    CaseCourse context c
      [.post (runner.options.url (c.endpoint document)) post.toJson (.error message)]
      (.error (.transport message)) (posting context post)
  | answered {context : Context} {c : Case} {post : Value} {response : Response}
    {calls : List Exchange} {result : Except Failure Unit}
    (evaluated : c.post.evaluate runner.evaluator (shiftExchange context) "<post>" = .ok post)
    (judged : AnswerCourse runner (answered context post response) c post response calls result) :
    CaseCourse context c
      (.post (runner.options.url (c.endpoint document)) post.toJson (.ok response) :: calls)
      result (answered context post response)

/-- Case after case, each with the calls that it makes. A case that fails does not keep the others
from being tried. -/
inductive CasesCourse : Context → List Case → List CaseReport → List (List Exchange) → Prop
  | nil {context : Context} : CasesCourse context [] [] []
  | skipped {context : Context} {c : Case} {cases : List Case} {reports : List CaseReport}
    {calls : List (List Exchange)} (skip : c.skip = true)
    (rest : CasesCourse context cases reports calls) :
    CasesCourse context (c :: cases) (⟨c.name, .skipped⟩ :: reports) ([] :: calls)
  | passed {context after : Context} {c : Case} {cases : List Case} {reports : List CaseReport}
    {made : List Exchange} {calls : List (List Exchange)} (skip : c.skip = false)
    (first : CaseCourse runner document context c made (.ok ()) after)
    (rest : CasesCourse after cases reports calls) :
    CasesCourse context (c :: cases) (⟨c.name, .passed⟩ :: reports) (made :: calls)
  | failed {context after : Context} {c : Case} {cases : List Case} {reports : List CaseReport}
    {made : List Exchange} {calls : List (List Exchange)} {failure : Failure}
    (skip : c.skip = false)
    (first : CaseCourse runner document context c made (.error failure) after)
    (rest : CasesCourse after cases reports calls) :
    CasesCourse context (c :: cases) (⟨c.name, .failed failure⟩ :: reports) (made :: calls)

section Records

variable {runner} {document}

theorem records_runSetup (setup : Setup) :
    Records (fun context calls result after =>
        SetupCourse runner context setup calls (result.map fun _ => after))
      (runner.runSetup setup) (runner.recorded.runSetup setup) := by
  cases setup with
  | clear collection =>
    refine (records_call _ _ _).mono ?_
    rintro context calls result after ⟨rfl, answered, rfl, rfl⟩
    cases answered with
    | ok => exact .cleared
    | error message => exact .notCleared
  | insertion name collection template =>
    refine records_valued (fun _ _ h => .noDocument h) fun value =>
      ((records_call _ _ _).andThen fun id => records_bind name _).mono ?_
    rintro context calls result after (⟨failure, rfl, rfl, answered, rfl, hanswer⟩ |
      ⟨id, between, made, more, ⟨rfl, answered, rfl, hanswer⟩, ⟨rfl, rfl, rfl⟩, rfl⟩) hvalue
    · obtain ⟨message, rfl, rfl⟩ := mapError_eq_error_iff.mp hanswer
      exact .notInserted hvalue
    · obtain rfl := mapError_eq_ok_iff.mp hanswer
      exact .inserted hvalue
  | declaration name template =>
    refine records_valued (fun _ _ h => .noValue h) fun value => (records_bind name value).mono ?_
    rintro context calls result after ⟨rfl, rfl, rfl⟩ hvalue
    exact .declared hvalue

theorem records_runSetups (setups : List Setup) :
    Records (fun context calls result after =>
        Sequence (SetupCourse runner) context setups calls (result.map fun _ => after))
      (runner.runSetups setups) (runner.recorded.runSetups setups) := by
  induction setups with
  | nil =>
    exact records_return fun _ => .done
  | cons setup setups ih =>
    refine ((records_runSetup setup).andThen fun _ => ih).mono ?_
    rintro context calls result after (⟨failure, rfl, hfirst⟩ |
      ⟨_, between, made, more, hfirst, hrest, rfl⟩)
    · exact .stop hfirst
    · exact .next hfirst hrest

theorem records_findById (collection : String) (expected id : Value) :
    Records (fun context calls result after => after = context ∧ ∃ answered,
        calls = [.findById collection id.toJson answered] ∧
          IdCourse runner collection expected id answered result)
      (runner.findById collection expected id)
      (runner.recorded.findById collection expected id) := by
  refine records_judged (fun _ => .refused) fun found => ?_
  cases found with
  | none =>
    exact records_throw fun _ => ⟨rfl, rfl, .missing⟩
  | some document =>
    dsimp only
    rw [recorded_findStrictness]
    cases hc : compareValues runner.findStrictness (.ofJson document) expected with
    | ok =>
      exact records_return fun _ => ⟨rfl, rfl, .alike hc⟩
    | error mismatch =>
      exact records_throw fun _ => ⟨rfl, rfl, .unlike hc⟩

theorem records_findAny (collection : String) (expected : Value) :
    Records (fun context calls result after => after = context ∧ ∃ answered,
        calls = [.findAll collection answered] ∧
          ScanCourse runner collection expected answered result)
      (runner.findAny collection expected) (runner.recorded.findAny collection expected) := by
  refine records_judged (fun _ => .refused) fun documents => ?_
  rw [recorded_findStrictness]
  cases ht : tryAll runner.findStrictness expected documents with
  | none =>
    exact records_return fun _ => ⟨rfl, rfl, .present ht⟩
  | some candidates =>
    exact records_throw fun _ => ⟨rfl, rfl, .absent ht⟩

theorem records_runFind (find : Find) :
    Records (fun context calls result after =>
        after = context ∧ FindCourse runner context find calls (result.map fun _ => context))
      (runner.runFind find) (runner.recorded.runFind find) := by
  refine records_valued (fun _ _ h => ⟨rfl, .noValue h⟩) fun expected => ?_
  cases hw : wantedId? expected with
  | some id =>
    refine (records_findById find.collection expected id).mono ?_
    rintro context calls result after ⟨rfl, answered, rfl, hjudged⟩ hvalue
    exact ⟨rfl, .byId hvalue hw hjudged⟩
  | none =>
    refine (records_findAny find.collection expected).mono ?_
    rintro context calls result after ⟨rfl, answered, rfl, hjudged⟩ hvalue
    exact ⟨rfl, .among hvalue hw hjudged⟩

theorem records_runFinds (finds : List Find) :
    Records (fun context calls result after =>
        after = context ∧
          Sequence (FindCourse runner) context finds calls (result.map fun _ => context))
      (runner.runFinds finds) (runner.recorded.runFinds finds) := by
  induction finds with
  | nil =>
    exact records_return fun _ => ⟨rfl, .done⟩
  | cons find finds ih =>
    refine ((records_runFind find).andThen fun _ => ih).mono ?_
    rintro context calls result after (⟨failure, rfl, rfl, hfirst⟩ |
      ⟨_, between, made, more, ⟨rfl, hfirst⟩, ⟨rfl, hrest⟩, rfl⟩)
    · exact ⟨rfl, .stop hfirst⟩
    · exact ⟨rfl, .next hfirst hrest⟩

theorem records_checkOut (c : Case) (post actual : Value) :
    Records (fun context calls result after =>
        calls = [] ∧ after = context ∧ OutCourse runner context c post actual result)
      (runner.checkOut c post actual) (runner.recorded.checkOut c post actual) := by
  unfold checkOut
  cases ho : c.out with
  | none =>
    exact records_return fun _ => ⟨rfl, rfl, .free ho⟩
  | some template =>
    refine records_valued (fun _ _ h => ⟨rfl, rfl, .noValue ho h⟩) fun expected => ?_
    rw [recorded_options]
    cases hc : compareValues ⟨runner.options.strict, []⟩ actual expected with
    | ok =>
      exact records_return fun _ hvalue => ⟨rfl, rfl, .alike ho hvalue hc⟩
    | error mismatch =>
      exact records_throw fun _ hvalue => ⟨rfl, rfl, .unlike ho hvalue hc⟩

theorem records_answer (c : Case) (post : Value) (response : Response) :
    Records (fun context calls result after =>
        after = context ∧ AnswerCourse runner context c post response calls result)
      (if response.status = c.status then do
        runner.checkOut c post (.ofJson response.body)
        runner.runFinds c.finds
      else throw (.status c.status response.status (.ofJson response.body)))
      (if response.status = c.status then do
        runner.recorded.checkOut c post (.ofJson response.body)
        runner.recorded.runFinds c.finds
      else throw (.status c.status response.status (.ofJson response.body))) := by
  by_cases hs : response.status = c.status
  · rw [if_pos hs, if_pos hs]
    refine ((records_checkOut c post _).andThen fun _ => records_runFinds c.finds).mono ?_
    rintro context calls result after (⟨failure, rfl, rfl, rfl, hout⟩ |
      ⟨_, between, made, more, ⟨rfl, rfl, hout⟩, ⟨rfl, hfinds⟩, rfl⟩)
    · exact ⟨rfl, .otherOut hs hout⟩
    · have hmatched := AnswerCourse.matched hs hout hfinds
      refine ⟨rfl, ?_⟩
      cases result <;> exact hmatched
  · rw [if_neg hs, if_neg hs]
    exact records_throw fun _ => ⟨rfl, .otherStatus hs⟩

theorem records_runCase (c : Case) :
    Records (CaseCourse runner document · c) (runner.runCase document c)
      (runner.recorded.runCase document c) := by
  unfold runCase
  refine ((records_modify shiftExchange).andThen fun _ =>
    (records_evaluate "<post>" c.post).andThen fun post =>
      (records_bind "post" post).andThen fun _ =>
        (records_call .transport (.post _ _) (runner.services.post _ _)).andThen fun response =>
          (records_bind "out" (.ofJson response.body)).andThen
            fun _ => records_answer c post response).mono ?_
  rintro context calls result after (⟨failure, rfl, -, hfailed, -⟩ |
    ⟨_, _, _, more, ⟨rfl, -, rfl⟩, hrest, rfl⟩)
  · cases hfailed
  rcases hrest with ⟨failure, rfl, rfl, rfl, hvalue⟩ |
    ⟨post, _, _, more, ⟨rfl, rfl, hvalue⟩, hrest, rfl⟩
  · obtain ⟨error, herror, rfl⟩ := mapError_eq_error_iff.mp hvalue
    exact .noPost herror
  have hvalue := mapError_eq_ok_iff.mp hvalue
  rcases hrest with ⟨failure, rfl, -, hfailed, -⟩ | ⟨_, _, _, more, ⟨rfl, -, rfl⟩, hrest, rfl⟩
  · cases hfailed
  rcases hrest with ⟨failure, rfl, rfl, answer, rfl, hanswer⟩ |
    ⟨response, _, _, more, ⟨rfl, answer, rfl, hanswer⟩, hrest, rfl⟩
  · obtain ⟨message, rfl, rfl⟩ := mapError_eq_error_iff.mp hanswer
    exact .refused hvalue
  obtain rfl := mapError_eq_ok_iff.mp hanswer
  rcases hrest with ⟨failure, rfl, -, hfailed, -⟩ |
    ⟨_, _, _, more, ⟨rfl, -, rfl⟩, ⟨rfl, hjudged⟩, rfl⟩
  · cases hfailed
  exact .answered hvalue hjudged

theorem records_runCases (cases : List Case) (world : World σ) (record : List Exchange) :
    ∃ reports calls next, runner.runCases document world cases = (reports, next) ∧
      runner.recorded.runCases document ⟨(world.state, record), world.context⟩ cases =
        (reports, ⟨(next.state, record ++ calls.flatten), next.context⟩) ∧
      CasesCourse runner document world.context cases reports calls := by
  induction cases generalizing world record with
  | nil => exact ⟨[], [], world, rfl, by simp [runCases], .nil⟩
  | cons c cases ih =>
    by_cases hskip : c.skip = true
    · obtain ⟨reports, calls, next, hrun, hrecord, hcourse⟩ := ih world record
      refine ⟨_, [] :: calls, next, ?_, ?_, .skipped hskip hcourse⟩
      · rw [runCases, if_pos hskip, hrun]
      · rw [runCases, if_pos hskip, hrecord, List.flatten_cons, List.nil_append]
    · obtain ⟨made, result, after, hcase, honrecord, hfirst⟩ :=
        @records_runCase σ runner document c world record
      obtain ⟨reports, calls, next, hrun, hrecord, hcourse⟩ := ih after (record ++ made)
      have hskip' : c.skip = false := by simpa using hskip
      rw [runCases, runCases, if_neg hskip, if_neg hskip, hcase, honrecord]
      dsimp only
      rw [hrun, hrecord]
      refine ⟨_, made :: calls, next, rfl, ?_, ?_⟩
      · rw [List.flatten_cons, List.append_assoc]
      · cases result with
        | ok => exact .passed hskip' hfirst hcourse
        | error failure => exact .failed hskip' hfirst hcourse

end Records

end ApiContract.Runner
