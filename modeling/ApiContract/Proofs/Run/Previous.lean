import ApiContract.Proofs.Run.Views

namespace ApiContract

variable {σ : Type}

namespace Context

theorem local?_remove_self {context : Context} (h : context.locals.Sorted) (name : String) :
    (context.remove name).local? name = none :=
  Fields.get?_erase_self h name

theorem spares_sorted (names : Set String) :
    Spares (fun context => context.locals.Sorted) names where
  set _ h := h.set _ _
  remove _ h := h.erase _

end Context

namespace Runner

variable {runner : Runner σ} {document : Document} {world start : World σ} {c : Case}
  {context : Context} {post out : Value}

/-- What a case sends and what it is answered when it starts in a world, with null for what it does
not come to. -/
inductive Exchanged (runner : Runner σ) (document : Document) (world : World σ) (c : Case) :
    Value → Value → Prop
  | noPost {error : EvaluationError}
    (evaluated : c.post.evaluate runner.evaluator (shiftExchange world.context) "<post>" =
      .error error) :
    Exchanged runner document world c .null .null
  | refused {post : Value} {message : String}
    (evaluated : c.post.evaluate runner.evaluator (shiftExchange world.context) "<post>" = .ok post)
    (answer : (runner.services.post (runner.options.url (c.endpoint document)) post.toJson
      world.state).1 = .error message) :
    Exchanged runner document world c post .null
  | replied {post : Value} {response : Response}
    (replied : Replied runner document world c post response) :
    Exchanged runner document world c post (.ofJson response.body)

/-- The exchange of the last one among some cases that is not skipped. -/
inductive Previous (runner : Runner σ) (document : Document) (start : World σ) :
    List Case → Value → Value → Prop
  | none {before : List Case} (skip : ∀ c ∈ before, c.skip = true) :
    Previous runner document start before .null .null
  | last {earlier skipped : List Case} {c : Case} {post out : Value} (tried : c.skip = false)
    (skip : ∀ c ∈ skipped, c.skip = true)
    (exchanged : Exchanged runner document (runner.runCases document start earlier).2 c post out) :
    Previous runner document start (earlier ++ c :: skipped) post out

structure Holding (context : Context) (post out : Value) : Prop where
  sorted : context.locals.Sorted
  post : (context.local? "post").getD .null = post
  out : (context.local? "out").getD .null = out

theorem sorted_shiftExchange (h : context.locals.Sorted) :
    (shiftExchange context).locals.Sorted :=
  spares_shiftExchange (Context.spares_sorted Set.univ) (Set.subset_univ _) h

theorem local?_post_shiftExchange (h : context.locals.Sorted) :
    (shiftExchange context).local? "post" = none := by
  rw [shiftExchange, Context.local?_set_of_ne (by decide), Context.local?_remove_of_ne (by decide),
    Context.local?_remove_self h]

theorem local?_out_shiftExchange (h : context.locals.Sorted) :
    (shiftExchange context).local? "out" = none := by
  rw [shiftExchange, Context.local?_set_of_ne (by decide), Context.local?_remove_self (h.erase _)]

theorem Holding.local?_prev (h : Holding context post out) :
    (shiftExchange context).local? "prev" = some (.object [("out", out), ("post", post)]) := by
  rw [local?_prev_shiftExchange, h.post, h.out]

theorem holding_shiftExchange (h : context.locals.Sorted) :
    Holding (shiftExchange context) .null .null :=
  ⟨sorted_shiftExchange h, by rw [local?_post_shiftExchange h]; rfl,
    by rw [local?_out_shiftExchange h]; rfl⟩

theorem holding_posting (h : context.locals.Sorted) (post : Value) :
    Holding (posting context post) post .null := by
  refine ⟨(sorted_shiftExchange h).set _ _, ?_, ?_⟩
  · rw [posting, Context.local?_set_self, Option.getD_some]
  · rw [posting, Context.local?_set_of_ne (by decide), local?_out_shiftExchange h]
    rfl

theorem holding_answered (h : context.locals.Sorted) (post : Value) (response : Response) :
    Holding (answered context post response) post (.ofJson response.body) := by
  refine ⟨((sorted_shiftExchange h).set _ _).set _ _, ?_, ?_⟩
  · rw [answered, Context.local?_set_of_ne (by decide), posting, Context.local?_set_self,
      Option.getD_some]
  · rw [answered, Context.local?_set_self, Option.getD_some]

theorem context_judge {response : Response} :
    ((runner.judge c post response).run.run world).2.context = world.context := by
  obtain ⟨calls, result, next, hrun, -, hcontext, -⟩ :=
    @records_answer σ runner c post response world []
  rw [judge, hrun, hcontext]

theorem exists_exchanged_runCase (runner : Runner σ) (document : Document)
    (hs : world.context.locals.Sorted) (c : Case) :
    ∃ post out, Exchanged runner document world c post out ∧
      Holding ((runner.runCase document c).run.run world).2.context post out := by
  rw [run_runCase]
  cases hpost : c.post.evaluate runner.evaluator (shiftExchange world.context) "<post>" with
  | error error => exact ⟨_, _, .noPost hpost, holding_shiftExchange hs⟩
  | ok post =>
    dsimp only
    cases hanswer : runner.services.post (runner.options.url (c.endpoint document)) post.toJson
      world.state with
    | mk answer state =>
    cases answer with
    | error message =>
      exact ⟨_, _, .refused hpost (by rw [hanswer]), holding_posting hs post⟩
    | ok response =>
      refine ⟨_, _, .replied ⟨hpost, by rw [hanswer]⟩, ?_⟩
      dsimp only
      rw [context_judge]
      exact holding_answered hs post response

theorem runCases_concat (before : List Case) (c : Case) :
    (runner.runCases document start (before ++ [c])).2 =
      if c.skip then (runner.runCases document start before).2
      else ((runner.runCase document c).run.run (runner.runCases document start before).2).2 := by
  induction before generalizing start with
  | nil =>
    simp only [List.nil_append, runCases]
    split <;> rfl
  | cons d before ih =>
    simp only [List.cons_append, runCases]
    split
    · exact ih
    · exact ih

theorem Previous.skip {before : List Case} (h : Previous runner document start before post out)
    (hc : c.skip = true) : Previous runner document start (before ++ [c]) post out := by
  cases h with
  | none skip => exact .none (by simpa [hc, or_imp, forall_and] using skip)
  | @last earlier skipped d _ _ tried skip exchanged =>
    rw [List.append_assoc, List.cons_append]
    exact .last tried (by simpa [hc, or_imp, forall_and] using skip) exchanged

/-- The cases so far, skipped or not and whatever became of them, leave the exchange of the last
one that was tried at hand. -/
theorem exists_previous_runCases (runner : Runner σ) (document : Document)
    (h : Holding start.context .null .null) (before : List Case) :
    ∃ post out, Previous runner document start before post out ∧
      Holding (runner.runCases document start before).2.context post out := by
  -- from the front the last case that was tried would only show at the end
  induction before using List.reverseRecOn with
  | nil => exact ⟨_, _, .none (by simp), h⟩
  | append_singleton before c ih =>
    obtain ⟨post, out, hprevious, hholding⟩ := ih
    rw [runCases_concat]
    split
    · rename_i hskip
      exact ⟨post, out, hprevious.skip hskip, hholding⟩
    · rename_i hskip
      obtain ⟨post, out, hexchanged, hholding⟩ :=
        exists_exchanged_runCase runner document hholding.sorted c
      exact ⟨post, out, .last (by simpa using hskip) (by simp) hexchanged, hholding⟩

theorem holding_runSetups {setups : List Setup} {state : σ}
    (hfree : ∀ setup ∈ setups, setup.bound? ≠ some "post" ∧ setup.bound? ≠ some "out")
    (hrun : (runner.runSetups setups).run.run ⟨state, .ofBase runner.base⟩ = (.ok (), start)) :
    Holding start.context .null .null := by
  have hsorted : start.context.locals.Sorted :=
    spares_runSetups (Context.spares_sorted Set.univ) (by simp) hrun List.Pairwise.nil
  have hpost : start.context.local? "post" = none :=
    spares_runSetups (Context.spares_local? "post" none)
      (fun setup hs name hb he => (hfree setup hs).1 (he ▸ hb)) hrun rfl
  have hout : start.context.local? "out" = none :=
    spares_runSetups (Context.spares_local? "out" none)
      (fun setup hs name hb he => (hfree setup hs).2 (he ▸ hb)) hrun rfl
  exact ⟨hsorted, by rw [hpost]; rfl, by rw [hout]; rfl⟩

theorem Evaluates.eq_shiftExchange
    (h : Evaluates runner document world c "<post>" c.post context) :
    context = shiftExchange world.context := by
  generalize hl : "<post>" = label at h
  generalize c.post = template at h
  cases h with
  | post => rfl
  | out => exact absurd hl (by decide)
  | find =>
    have hchars := congrArg String.toList hl
    simp [String.toList_append] at hchars

/-- Where the setup binds neither `post` nor `out`, the request of a case is evaluated without
either of them, and with the exchange before as `prev`; nothing else that might be evaluated matters
to the case. -/
theorem previous_exchange_shown
    (hfree : ∀ setup ∈ document.setups, setup.bound? ≠ some "post" ∧ setup.bound? ≠ some "out")
    {state : σ} (hrun : (runner.runSetups document.setups).run.run ⟨state, .ofBase runner.base⟩ =
      (.ok (), start)) :
    ∀ before c after, document.cases = before ++ c :: after → c.skip = false →
      ∃ post out, Previous runner document start before post out ∧
        Suffices runner document (runner.runCases document start before).2 c
          (Evaluates runner document (runner.runCases document start before).2 c) ∧
        ∀ context, Evaluates runner document (runner.runCases document start before).2 c "<post>"
          c.post context →
            context.local? "prev" = some (.object [("out", out), ("post", post)]) ∧
            context.local? "post" = none ∧ context.local? "out" = none := by
  intro before c after _ _
  obtain ⟨post, out, hprevious, hholding⟩ :=
    exists_previous_runCases runner document (holding_runSetups hfree hrun) before
  refine ⟨post, out, hprevious, suffices_evaluates, fun context he => ?_⟩
  rw [he.eq_shiftExchange]
  exact ⟨hholding.local?_prev, local?_post_shiftExchange hholding.sorted,
    local?_out_shiftExchange hholding.sorted⟩

def echoing : Document :=
  ⟨"t", false, [.declaration "a" (.object [])],
    [⟨"c", false, none, .array [], 404, none, []⟩, ⟨"d", true, none, .empty, 200, none, []⟩,
      ⟨"e", false, none, .expression "prev", 200, none, []⟩], []⟩

theorem previous_exchange_shown_of_echoing :
    let start := ((rehearsing.runSetups echoing.setups).run.run
      ⟨failing [], .ofBase rehearsing.base⟩).2
    let before := echoing.cases.take 2
    (∀ setup ∈ echoing.setups, setup.bound? ≠ some "post" ∧ setup.bound? ≠ some "out") ∧
      (rehearsing.runSetups echoing.setups).run.run ⟨failing [], .ofBase rehearsing.base⟩ =
        (.ok (), start) ∧
      Previous rehearsing echoing start before (.array []) (.array []) ∧
      ∀ context, Evaluates rehearsing echoing (rehearsing.runCases echoing start before).2
        ⟨"e", false, none, .expression "prev", 200, none, []⟩ "<post>" (.expression "prev") context →
          context.local? "prev" = some (.object [("out", .array []), ("post", .array [])]) := by
  intro start before
  have hfree : ∀ setup ∈ echoing.setups,
      setup.bound? ≠ some "post" ∧ setup.bound? ≠ some "out" := by
    simp [echoing, Setup.bound?]
  have hok : ((rehearsing.runSetups echoing.setups).run.run
      ⟨failing [], .ofBase rehearsing.base⟩).1 = .ok () := by with_unfolding_all rfl
  have hrun : (rehearsing.runSetups echoing.setups).run.run ⟨failing [], .ofBase rehearsing.base⟩ =
      (.ok (), start) := Prod.fst_eq_iff.mp hok
  obtain ⟨post, out, hprevious, -, hshown⟩ := previous_exchange_shown hfree hrun before
    ⟨"e", false, none, .expression "prev", 200, none, []⟩ [] rfl rfl
  have hprev : (shiftExchange (rehearsing.runCases echoing start before).2.context).local? "prev" =
      some (.object [("out", .array []), ("post", .array [])]) := by
    rw [local?_prev_shiftExchange]
    with_unfolding_all rfl
  obtain ⟨rfl, rfl⟩ : out = .array [] ∧ post = .array [] := by
    simpa using (hshown _ .post).1.symm.trans hprev
  exact ⟨hfree, hrun, hprevious, fun context he => (hshown context he).1⟩

end Runner

end ApiContract
