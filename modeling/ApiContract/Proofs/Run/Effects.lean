import ApiContract.Proofs.Document.Parsing
import ApiContract.Proofs.Run.Course
import ApiContract.Rehearsal.Service

namespace ApiContract

inductive Target
  | clear (collection : String)
  | insert (collection : String)
  | find (collection : String)
  | post (url : String)
  deriving DecidableEq

def Exchange.target : Exchange → Target
  | clear collection _ => .clear collection
  | insert collection _ _ => .insert collection
  | findById collection _ _ => .find collection
  | findAll collection _ => .find collection
  | post url _ _ => .post url

def Setup.targets : Setup → List Target
  | clear collection => [.clear collection]
  | insertion _ collection _ => [.insert collection]
  | declaration _ _ => []

def Target.IsWrite : Target → Prop
  | clear _ | insert _ => True
  | find _ | post _ => False

theorem Document.cases_ne_nil {text : String} {document : Document}
    (h : ofString text = .ok document) : document.cases ≠ [] := by
  have hderives := derives_of_ofTokens h
  generalize Token.ofChars text.toList = tokens at hderives
  cases hderives
  assumption

namespace Runner

variable {σ : Type} {runner : Runner σ} {document : Document} {context : Context}
  {calls : List Exchange}

def caseTargets (runner : Runner σ) (document : Document) (c : Case) : List Target :=
  if c.skip then []
  else .post (runner.options.url (c.endpoint document)) ::
    c.finds.map fun find => .find find.collection

inductive DocumentCourse (runner : Runner σ) (document : Document) :
    Report → List Exchange → Prop
  | skipped (skip : document.skip = true) :
    DocumentCourse runner document ⟨document.name, true, none, untried document .skipped⟩ []
  | blocked {failure : Failure} {calls : List Exchange} (skip : document.skip = false)
    (setup : Sequence (SetupCourse runner) (.ofBase runner.base) document.setups calls
      (.error failure)) :
    DocumentCourse runner document
      ⟨document.name, false, some failure, untried document .blocked⟩ calls
  | tried {context : Context} {made : List Exchange} {reports : List CaseReport}
    {calls : List (List Exchange)} (skip : document.skip = false)
    (setup : Sequence (SetupCourse runner) (.ofBase runner.base) document.setups made
      (.ok context))
    (cases : CasesCourse runner document context document.cases reports calls) :
    DocumentCourse runner document ⟨document.name, false, none, reports⟩ (made ++ calls.flatten)

theorem execute_recorded (runner : Runner σ) (document : Document) (state : σ) :
    ∃ report final calls, runner.execute document state = (report, final) ∧
      runner.recorded.execute document (state, []) = (report, final, calls) ∧
      DocumentCourse runner document report calls := by
  by_cases hskip : document.skip = true
  · refine ⟨_, state, [], ?_, ?_, .skipped hskip⟩
    · rw [execute, if_pos hskip]
    · rw [execute, if_pos hskip]
  · have hskip' : document.skip = false := by simpa using hskip
    obtain ⟨made, result, next, hrun, hrecord, hsetup⟩ :=
      @records_runSetups σ runner document.setups ⟨state, .ofBase runner.base⟩ []
    have hbase : runner.recorded.base = runner.base := rfl
    rw [execute, execute, if_neg hskip, if_neg hskip, hbase, hrun, hrecord, List.nil_append]
    cases result with
    | error failure => exact ⟨_, _, made, rfl, rfl, .blocked hskip' hsetup⟩
    | ok =>
      obtain ⟨reports, calls, last, hrun, hrecord, hcases⟩ :=
        @records_runCases σ runner document document.cases next made
      dsimp only
      rw [hrun, hrecord]
      exact ⟨_, _, _, rfl, rfl, .tried hskip' hsetup hcases⟩

/-- The calls that a sequence makes are those of its steps, up to the one where it stops. -/
theorem Sequence.targets {α : Type} {f : α → List Target}
    {Step : Context → α → List Exchange → Except Failure Context → Prop}
    (hstep : ∀ context a made result, Step context a made result →
      made.map Exchange.target <+: f a ∧
        ∀ after, result = .ok after → made.map Exchange.target = f a)
    {as : List α} {result : Except Failure Context} (h : Sequence Step context as calls result) :
    calls.map Exchange.target <+: as.flatMap f ∧
      ∀ after, result = .ok after → calls.map Exchange.target = as.flatMap f := by
  induction h with
  | done => exact ⟨List.prefix_rfl, fun _ _ => rfl⟩
  | @next context between a as made more result first rest ih =>
    rw [List.map_append, List.flatMap_cons, (hstep _ _ _ _ first).2 between rfl]
    exact ⟨(List.prefix_append_right_inj _).mpr ih.1, fun after hr => by rw [ih.2 after hr]⟩
  | @stop context a as made failure first =>
    rw [List.flatMap_cons]
    refine ⟨(hstep _ _ _ _ first).1.trans (List.prefix_append ..), fun after hr => ?_⟩
    cases hr

theorem SetupCourse.targets {setup : Setup} {result : Except Failure Context}
    (h : SetupCourse runner context setup calls result) :
    calls.map Exchange.target <+: setup.targets ∧
      ∀ after, result = .ok after → calls.map Exchange.target = setup.targets := by
  cases h <;> simp [Exchange.target, Setup.targets]

theorem FindCourse.targets {find : Find} {result : Except Failure Context}
    (h : FindCourse runner context find calls result) :
    calls.map Exchange.target <+: [.find find.collection] ∧
      ∀ after, result = .ok after → calls.map Exchange.target = [.find find.collection] := by
  cases h <;> simp [Exchange.target]

theorem AnswerCourse.targets {c : Case} {post : Value} {response : Response}
    {result : Except Failure Unit} (h : AnswerCourse runner context c post response calls result) :
    calls.map Exchange.target <+: c.finds.map fun find => .find find.collection := by
  cases h with
  | otherStatus => exact List.nil_prefix
  | otherOut => exact List.nil_prefix
  | matched _ _ finds =>
    have htargets := (finds.targets (f := fun find => [.find find.collection])
      fun _ _ _ _ h => h.targets).1
    rwa [← List.map_eq_flatMap] at htargets

theorem CaseCourse.targets {c : Case} {result : Except Failure Unit} {after : Context}
    (hskip : c.skip = false) (h : CaseCourse runner document context c calls result after) :
    calls.map Exchange.target <+: runner.caseTargets document c := by
  have htargets : runner.caseTargets document c =
      .post (runner.options.url (c.endpoint document)) ::
        c.finds.map fun find => .find find.collection := if_neg (by simp [hskip])
  rw [htargets]
  cases h with
  | noPost => exact List.nil_prefix
  | refused => exact List.prefix_cons_inj _ |>.mpr List.nil_prefix
  | answered _ judged => exact List.prefix_cons_inj _ |>.mpr judged.targets

theorem CasesCourse.targets {cases : List Case} {reports : List CaseReport}
    {calls : List (List Exchange)}
    (h : CasesCourse runner document context cases reports calls) :
    List.Forall₂ (fun c made => made.map Exchange.target <+: runner.caseTargets document c) cases
      calls := by
  induction h with
  | nil => exact .nil
  | skipped _ _ ih => exact .cons List.nil_prefix ih
  | passed skip first _ ih => exact .cons (first.targets skip) ih
  | failed skip first _ ih => exact .cons (first.targets skip) ih

theorem CasesCourse.map_name {cases : List Case} {reports : List CaseReport}
    {calls : List (List Exchange)}
    (h : CasesCourse runner document context cases reports calls) :
    reports.map CaseReport.name = cases.map Case.name := by
  induction h with
  | nil => rfl
  | skipped _ _ ih => exact congrArg (_ :: ·) ih
  | passed _ _ _ ih => exact congrArg (_ :: ·) ih
  | failed _ _ _ ih => exact congrArg (_ :: ·) ih

theorem CasesCourse.ne_blocked {cases : List Case} {reports : List CaseReport}
    {calls : List (List Exchange)}
    (h : CasesCourse runner document context cases reports calls) :
    ∀ report ∈ reports, report.outcome ≠ .blocked := by
  induction h with
  | nil => simp
  | skipped _ _ ih => exact List.forall_mem_cons.mpr ⟨by simp, ih⟩
  | passed _ _ _ ih => exact List.forall_mem_cons.mpr ⟨by simp, ih⟩
  | failed _ _ _ ih => exact List.forall_mem_cons.mpr ⟨by simp, ih⟩

theorem CasesCourse.skipped_iff {cases : List Case} {reports : List CaseReport}
    {calls : List (List Exchange)}
    (h : CasesCourse runner document context cases reports calls) :
    List.Forall₂ (fun c report => report.outcome = .skipped ↔ c.skip = true) cases reports := by
  induction h with
  | nil => exact .nil
  | skipped skip _ ih => exact .cons (by simp [skip]) ih
  | passed skip _ _ ih => exact .cons (by simp [skip]) ih
  | failed skip _ _ ih => exact .cons (by simp [skip]) ih

/-- Where a sequence stops, all steps before have succeeded, and none behind is tried. -/
theorem Sequence.stopped {α : Type}
    {Step : Context → α → List Exchange → Except Failure Context → Prop} {as : List α}
    {failure : Failure} (h : Sequence Step context as calls (.error failure)) :
    ∃ before a after made last between, as = before ++ a :: after ∧
      Sequence Step context before made (.ok between) ∧ Step between a last (.error failure) ∧
      calls = made ++ last := by
  generalize hr : (.error failure : Except Failure Context) = result at h
  induction h with
  | done => cases hr
  | @next context between a as made more result first _ ih =>
    obtain ⟨before, b, after, others, last, end_, rfl, hbefore, hstep, rfl⟩ := ih hr
    exact ⟨a :: before, b, after, made ++ others, last, end_, rfl, .next first hbefore, hstep,
      (List.append_assoc ..).symm⟩
  | @stop context a as made failure first =>
    cases hr
    exact ⟨[], a, as, [], made, context, rfl, .done, first, rfl⟩

theorem isWrite_of_mem_targets {setup : Setup} {target : Target} (h : target ∈ setup.targets) :
    target.IsWrite := by
  cases setup <;> simp [Setup.targets] at h <;> simp [h, Target.IsWrite]

/-- The calls of a run and the report on it, as the document plans them. -/
structure Accounted (runner : Runner σ) (document : Document) (report : Report)
    (calls : List Exchange) : Prop where
  names : report.name = document.name ∧
    report.cases.map CaseReport.name = document.cases.map Case.name
  untouched : document.skip = true →
    calls = [] ∧ report.setup = none ∧ ∀ c ∈ report.cases, c.outcome = .skipped
  /-- A setup that fails does so at its first step that fails, and that is the end of the run. -/
  stopped : ∀ failure, report.setup = some failure → document.skip = false ∧
    (∃ before setup after made last context, document.setups = before ++ setup :: after ∧
      Sequence (SetupCourse runner) (.ofBase runner.base) before made (.ok context) ∧
      SetupCourse runner context setup last (.error failure) ∧ calls = made ++ last ∧
      made.map Exchange.target = before.flatMap Setup.targets) ∧
    (∀ call ∈ calls, call.target.IsWrite) ∧ ∀ c ∈ report.cases, c.outcome = .blocked
  /-- A setup that succeeds makes all of its calls, and then every case makes some of its own, from
  the first one on. -/
  tried : document.skip = false → report.setup = none → ∃ context made others,
    Sequence (SetupCourse runner) (.ofBase runner.base) document.setups made (.ok context) ∧
    made.map Exchange.target = document.setups.flatMap Setup.targets ∧
    calls = made ++ others.flatten ∧
    CasesCourse runner document context document.cases report.cases others ∧
    List.Forall₂ (fun c made => made.map Exchange.target <+: runner.caseTargets document c)
      document.cases others ∧
    List.Forall₂ (fun c report => report.outcome = .skipped ↔ c.skip = true)
      document.cases report.cases
  blocked_iff : (∀ c ∈ report.cases, c.outcome = .blocked) ↔ ∃ failure, report.setup = some failure
  passed_iff : report.passed = true ↔
    report.setup = none ∧ ∀ c ∈ report.cases, ∀ failure, c.outcome ≠ .failed failure

theorem outcome_of_mem_untried {outcome : CaseOutcome} :
    ∀ c ∈ untried document outcome, c.outcome = outcome := by
  simp [untried]

theorem map_name_untried (outcome : CaseOutcome) :
    (untried document outcome).map CaseReport.name = document.cases.map Case.name := by
  simp [untried]

theorem untried_ne_nil (hne : document.cases ≠ []) (outcome : CaseOutcome) :
    untried document outcome ≠ [] := by
  simpa [untried] using hne

theorem isFine_iff {outcome : CaseOutcome} (h : outcome ≠ .blocked) :
    outcome.isFine = true ↔ ∀ failure, outcome ≠ .failed failure := by
  cases outcome <;> simp_all [CaseOutcome.isFine]

theorem passed_iff_of_tried {report : Report} (hs : report.setup = none)
    (hb : ∀ c ∈ report.cases, c.outcome ≠ .blocked) :
    report.passed = true ↔
      report.setup = none ∧ ∀ c ∈ report.cases, ∀ failure, c.outcome ≠ .failed failure := by
  simp only [Report.passed, hs, Option.isNone_none, Bool.true_and, List.all_eq_true, true_and]
  exact forall₂_congr fun c hc => isFine_iff (hb c hc)

theorem not_all_blocked {reports : List CaseReport} (hne : reports ≠ [])
    (hb : ∀ c ∈ reports, c.outcome ≠ .blocked) : ¬ ∀ c ∈ reports, c.outcome = .blocked := by
  obtain ⟨c, rest, rfl⟩ := List.exists_cons_of_ne_nil hne
  exact fun h => hb c (List.mem_cons_self ..) (h c (List.mem_cons_self ..))

theorem DocumentCourse.accounted {report : Report} (hne : document.cases ≠ [])
    (h : DocumentCourse runner document report calls) : Accounted runner document report calls := by
  cases h with
  | skipped skip =>
    have hb : ∀ c ∈ untried document .skipped, c.outcome ≠ .blocked := fun c hc => by
      rw [outcome_of_mem_untried c hc]
      simp
    exact {
      names := ⟨rfl, map_name_untried _⟩
      untouched := fun _ => ⟨rfl, rfl, outcome_of_mem_untried⟩
      stopped := fun _ hf => by cases hf
      tried := fun hs => by simp [skip] at hs
      blocked_iff := iff_of_false (not_all_blocked (untried_ne_nil hne _) hb) (by simp)
      passed_iff := passed_iff_of_tried rfl hb }
  | @blocked failure calls skip setup =>
    obtain ⟨before, step, after, made, last, context, hsetups, hbefore, hstep, rfl⟩ := setup.stopped
    have hmade := (hbefore.targets fun _ _ _ _ h => h.targets).2 context rfl
    have hwrites : ∀ call ∈ made ++ last, call.target.IsWrite := fun call hc => by
      have hprefix := (setup.targets fun _ _ _ _ h => h.targets).1
      have hm := hprefix.subset (List.mem_map_of_mem (f := Exchange.target) hc)
      obtain ⟨setup, -, hm⟩ := List.mem_flatMap.mp hm
      exact isWrite_of_mem_targets hm
    exact {
      names := ⟨rfl, map_name_untried _⟩
      untouched := fun hs => by simp [skip] at hs
      stopped := fun _ hf => by
        cases hf
        exact ⟨skip,
          ⟨before, step, after, made, last, context, hsetups, hbefore, hstep, rfl, hmade⟩,
          hwrites, outcome_of_mem_untried⟩
      tried := fun _ hs => by cases hs
      blocked_iff := iff_of_true outcome_of_mem_untried ⟨failure, rfl⟩
      passed_iff := by simp [Report.passed] }
  | @tried context made reports others skip setup cases =>
    have hne : reports ≠ [] := fun he => hne (List.map_eq_nil_iff.mp (he ▸ cases.map_name).symm)
    exact {
      names := ⟨rfl, cases.map_name⟩
      untouched := fun hs => by simp [skip] at hs
      stopped := fun _ hf => by cases hf
      tried := fun _ _ => ⟨context, made, others, setup,
        (setup.targets fun _ _ _ _ h => h.targets).2 context rfl, rfl, cases, cases.targets,
        cases.skipped_iff⟩
      blocked_iff := iff_of_false (not_all_blocked hne cases.ne_blocked) (by simp)
      passed_iff := passed_iff_of_tried rfl cases.ne_blocked }

/-- Every run of a document that was read, whatever the store and the service answer, makes the
calls that the document plans up to where they fail, and reports what became of them. -/
theorem execute_accounted (runner : Runner σ) (state : σ) {text : String} {document : Document}
    (h : Document.ofString text = .ok document) :
    ∃ report final calls, runner.execute document state = (report, final) ∧
      runner.recorded.execute document (state, []) = (report, final, calls) ∧
      Accounted runner document report calls := by
  obtain ⟨report, final, calls, hrun, hrecord, hcourse⟩ := execute_recorded runner document state
  exact ⟨report, final, calls, hrun, hrecord, hcourse.accounted (Document.cases_ne_nil h)⟩

open Rehearsal (Stage)

def stocking : Document :=
  ⟨"t", false, [.clear "c", .insertion "d" "c" (.object [])],
    [⟨"x", false, none, .empty, 200, none, [⟨"c", .expression "d"⟩]⟩], ["c"]⟩

def rehearsing : Runner Stage := ⟨Stage.services, Expression.evaluator, .default, .empty⟩

/-- An empty store that fails at some of its operations, and a service that sends everything
back. -/
def failing (entries : List String) : Stage := ⟨⟨[], [], entries, 0, []⟩, ⟨[], []⟩⟩

theorem execute_accounted_of_stocking :
    Document.ofString "# t\n## Setup\n### d in c\n\t\x7b\x7d\n## x\n### Find in c\n\td\n" =
        .ok stocking ∧
      ∃ report final calls, rehearsing.execute stocking (failing ["insert c"]) = (report, final) ∧
        rehearsing.recorded.execute stocking (failing ["insert c"], []) = (report, final, calls) ∧
        Accounted rehearsing stocking report calls := by
  have h : Document.ofString
      "# t\n## Setup\n### d in c\n\t\x7b\x7d\n## x\n### Find in c\n\td\n" = .ok stocking := by
    with_unfolding_all rfl
  exact ⟨h, execute_accounted rehearsing (failing ["insert c"]) h⟩

end Runner

end ApiContract
