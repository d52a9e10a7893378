import ApiContract.Proofs.Run.Views

namespace ApiContract.Runner

variable {σ : Type} {runner : Runner σ} {document : Document} {world next : World σ}

theorem runSetups_append (as bs : List Setup) :
    runner.runSetups (as ++ bs) = (do runner.runSetups as; runner.runSetups bs) := by
  induction as with
  | nil => simp [runSetups]
  | cons setup as ih => simp [runSetups, ih]

theorem exists_local?_of_runSetups {first : List Setup} {setup : Setup} {name : String}
    (hb : setup.bound? = some name)
    (hrun : (runner.runSetups (first ++ [setup])).run.run world = (.ok (), next)) :
    ∃ value, next.context.local? name = some value := by
  rw [runSetups_append, run_bind] at hrun
  split at hrun
  · rename_i between _
    obtain ⟨calls, result, last, hplain, -, hcourse⟩ :=
      @records_runSetups σ runner [setup] between []
    rw [hrun] at hplain
    cases hplain
    generalize hcontext : next.context = context at hcourse
    cases hcourse with
    | next hstep hrest =>
      cases hrest
      cases hstep with
      | cleared => cases hb
      | inserted =>
        cases hb
        exact ⟨_, Context.local?_set_self ..⟩
      | declared =>
        cases hb
        exact ⟨_, Context.local?_set_self ..⟩
  · cases hrun

/-- A name that the setup binds, other than `post`, `out` and `prev`, stays bound to the value that
its last binding gives it, in every context that a case evaluates a template in. So what an
evaluator does where the name is not bound to that value has no influence on the cases. -/
theorem fixture_seen_by_cases {first rest : List Setup} {setup : Setup} {name : String}
    {state : σ} {start : World σ} (hsetups : document.setups = first ++ setup :: rest)
    (hbound : setup.bound? = some name) (hlast : ∀ later ∈ rest, later.bound? ≠ some name)
    (hname : name ∉ exchangeNames)
    (hrun : (runner.runSetups document.setups).run.run ⟨state, .ofBase runner.base⟩ =
      (.ok (), start)) :
    ∃ value bound, (runner.runSetups (first ++ [setup])).run.run ⟨state, .ofBase runner.base⟩ =
        (.ok (), bound) ∧
      bound.context.local? name = some value ∧
      (∀ before c after, document.cases = before ++ c :: after → ∀ label template context,
        Evaluates runner document (runner.runCases document start before).2 c label template
          context → context.local? name = some value) ∧
      ∀ evaluator : Evaluator, (∀ label (template : Template) context,
          context.local? name = some value → template.evaluate evaluator context label =
            template.evaluate runner.evaluator context label) →
        ({ runner with evaluator } : Runner σ).runCases document start document.cases =
          runner.runCases document start document.cases := by
  rw [hsetups, List.append_cons, runSetups_append, run_bind] at hrun
  rcases hfirst : (runner.runSetups (first ++ [setup])).run.run ⟨state, .ofBase runner.base⟩ with
    ⟨_ | _, bound⟩
  · rw [hfirst] at hrun
    cases hrun
  · rw [hfirst] at hrun
    obtain ⟨value, hvalue⟩ := exists_local?_of_runSetups hbound hfirst
    have hspares := Context.spares_local? name (some value)
    have hstart : start.context.local? name = some value :=
      spares_runSetups hspares (fun later hl other ho he => hlast later hl (he ▸ ho)) hrun hvalue
    have hcases : exchangeNames ⊆ ({name} : Set String)ᶜ := fun other ho he => hname (he ▸ ho)
    refine ⟨value, bound, rfl, hvalue, fun before c after _ label template context he => ?_,
      fun evaluator hagree => ?_⟩
    · exact he.spares hspares hcases (spares_runCases hspares hcases hstart before)
    · exact runCases_congr hspares hcases hstart hagree document.cases

/-- A document whose second declaration is the last one of `a`, with a case that fails and a case
behind it that finds what `a` is. -/
def redeclaring : Document :=
  ⟨"t", false, [.declaration "a" (.array []), .declaration "a" (.object []),
      .clear "k"],
    [⟨"c", false, none, .empty, 404, none, []⟩,
      ⟨"d", false, none, .expression "a", 200, some (.expression "a"), [⟨"k", .expression "a"⟩]⟩],
    ["k"]⟩

theorem fixture_seen_by_cases_of_redeclaring :
    let start := ((rehearsing.runSetups redeclaring.setups).run.run
      ⟨failing [], .ofBase rehearsing.base⟩).2
    (rehearsing.runSetups redeclaring.setups).run.run ⟨failing [], .ofBase rehearsing.base⟩ =
        (.ok (), start) ∧
      ∀ before c after, redeclaring.cases = before ++ c :: after → ∀ label template context,
        Evaluates rehearsing redeclaring (rehearsing.runCases redeclaring start before).2 c label
          template context → context.local? "a" = some (.object []) := by
  intro start
  have hok : ((rehearsing.runSetups redeclaring.setups).run.run
      ⟨failing [], .ofBase rehearsing.base⟩).1 = .ok () := by with_unfolding_all rfl
  have hrun : (rehearsing.runSetups redeclaring.setups).run.run
      ⟨failing [], .ofBase rehearsing.base⟩ = (.ok (), start) := Prod.fst_eq_iff.mp hok
  have hsetups : redeclaring.setups =
      [.declaration "a" (.array [])] ++ .declaration "a" (.object []) :: [.clear "k"] := rfl
  have hname : "a" ∉ exchangeNames := by simp [exchangeNames]
  obtain ⟨value, bound, hbound, hvalue, hseen, -⟩ :=
    fixture_seen_by_cases hsetups rfl (by simp [Setup.bound?]) hname hrun
  have hlocal : ((rehearsing.runSetups [.declaration "a" (.array []),
      .declaration "a" (.object [])]).run.run
        ⟨failing [], .ofBase rehearsing.base⟩).2.context.local? "a" = some (.object []) := by
    with_unfolding_all rfl
  rw [List.singleton_append] at hbound
  rw [hbound] at hlocal
  refine ⟨hrun, ?_⟩
  rwa [Option.some.inj (hvalue.symm.trans hlocal)] at hseen

def claimingText : String :=
  "# t\n## Setup\n### post is\n\t\x7b\x7d\n### out is\n\t\x7b\x7d\n### prev is\n\t\x7b\x7d\n" ++
    "## c\n### Post\n\tpost\n"

def claiming : Document :=
  ⟨"t", false, [.declaration "post" (.object []), .declaration "out" (.object []),
      .declaration "prev" (.object [])], [⟨"c", false, none, .expression "post", 200, none, []⟩], []⟩

/-- The names of exchanges are bound by the setup, but not to the same values for a case. -/
theorem fixture_lost_of_claiming :
    let start := ((rehearsing.runSetups claiming.setups).run.run
      ⟨failing [], .ofBase rehearsing.base⟩).2
    Document.ofString claimingText = .ok claiming ∧
      (rehearsing.runSetups claiming.setups).run.run ⟨failing [], .ofBase rehearsing.base⟩ =
        (.ok (), start) ∧
      ∀ name ∈ exchangeNames, start.context.local? name = some (.object []) ∧
        ∃ c after context, claiming.cases = c :: after ∧
          Evaluates rehearsing claiming start c "<post>" c.post context ∧
            context.get? name ≠ some (.object []) := by
  intro start
  have hread : Document.ofString claimingText = .ok claiming := by with_unfolding_all rfl
  have hok : ((rehearsing.runSetups claiming.setups).run.run
      ⟨failing [], .ofBase rehearsing.base⟩).1 = .ok () := by with_unfolding_all rfl
  have hrun : (rehearsing.runSetups claiming.setups).run.run
      ⟨failing [], .ofBase rehearsing.base⟩ = (.ok (), start) := Prod.fst_eq_iff.mp hok
  refine ⟨hread, hrun, ?_⟩
  have hlost : ∀ (name : String) (found : Option Value), found ≠ some (.object []) →
      (shiftExchange start.context).get? name = found →
      ∃ c after context, claiming.cases = c :: after ∧
        Evaluates rehearsing claiming start c "<post>" c.post context ∧
          context.get? name ≠ some (.object []) := by
    rintro name found hne rfl
    exact ⟨_, _, _, rfl, .post, hne⟩
  rintro name (rfl | rfl | rfl)
  · exact ⟨by with_unfolding_all rfl, hlost "post" none (by simp) (by with_unfolding_all rfl)⟩
  · exact ⟨by with_unfolding_all rfl, hlost "out" none (by simp) (by with_unfolding_all rfl)⟩
  · refine ⟨by with_unfolding_all rfl,
      hlost "prev" (some (.object [("out", .object []), ("post", .object [])])) (by simp) ?_⟩
    rw [Context.get?, local?_prev_shiftExchange]
    with_unfolding_all rfl

end ApiContract.Runner
