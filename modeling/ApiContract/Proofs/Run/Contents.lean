import ApiContract.Proofs.Document.Setups
import ApiContract.Proofs.Run.Effects

namespace ApiContract

variable {σ : Type}

/-- A store that holds documents by collection. Clearing empties a collection, an insertion puts a
document behind the others, as it is kept under its identifier, and neither touches the rest. -/
structure Services.Keeps (services : Services σ) (contents : σ → String → List Json)
    (kept : Json → Json → Json) : Prop where
  clear : ∀ {collection : String} {state next : σ},
    services.clear collection state = (.ok (), next) →
      contents next = Function.update (contents state) collection []
  insert : ∀ {collection : String} {document id : Json} {state next : σ},
    services.insert collection document state = (.ok id, next) →
      contents next = Function.update (contents state) collection
        (contents state collection ++ [kept id document])

/-- A condition on the state that no successful step of a setup breaks. -/
structure Services.Preserves (services : Services σ) (Holds : σ → Prop) : Prop where
  clear : ∀ {collection : String} {state next : σ},
    services.clear collection state = (.ok (), next) → Holds state → Holds next
  insert : ∀ {collection : String} {document id : Json} {state next : σ},
    services.insert collection document state = (.ok id, next) → Holds state → Holds next

/-- A document as data under its own identifier, or else under the one given. -/
def Json.withId (id : Json) : Json → Json
  | .object fields =>
    .object (if Fields.has "_id" fields then fields else Fields.set "_id" id fields)
  | document => document

def Exchange.applied (kept : Json → Json → Json) (contents : String → List Json) :
    Exchange → String → List Json
  | clear collection (.ok _) => Function.update contents collection []
  | insert collection document (.ok id) =>
    Function.update contents collection (contents collection ++ [kept id document])
  | _ => contents

def Exchange.stored? (kept : Json → Json → Json) (collection : String) : Exchange → Option Json
  | insert c document (.ok id) => if c = collection then some (kept id document) else none
  | _ => none

def stored (kept : Json → Json → Json) (collection : String) (calls : List Exchange) : List Json :=
  calls.filterMap (Exchange.stored? kept collection)

def Setup.into? (collection : String) : Setup → Option (String × Template)
  | insertion name c template => if c = collection then some (name, template) else none
  | _ => none

namespace Runner

variable {runner : Runner σ} {kept : Json → Json → Json} {contents : σ → String → List Json}
  {context after : Context} {setup : Setup} {setups : List Setup} {calls : List Exchange}
  {collection : String}

section Preserves

variable {Holds : σ → Prop} {world next : World σ}

theorem preserves_call {α : Type} {failure : String → Failure} {service : Call σ α} {a : α}
    (h : ∀ {state next}, service state = (.ok a, next) → Holds state → Holds next)
    (hrun : (call failure service).run.run world = (.ok a, next)) (hw : Holds world.state) :
    Holds next.state := by
  rw [run_call] at hrun
  split at hrun
  · rename_i b state heq
    cases hrun
    exact h heq hw
  · cases hrun

theorem exists_of_runSetup_insertion {name : String} {template : Template}
    (hrun : (runner.runSetup (.insertion name collection template)).run.run world =
      (.ok (), next)) :
    ∃ value id, template.evaluate runner.evaluator world.context
        ("<" ++ name ++ " in " ++ collection ++ ">") = .ok value ∧
      runner.services.insert collection (runner.withDefaults collection value).toJson world.state =
        (.ok id, next.state) ∧
      next.context = world.context.set name ((runner.withDefaults collection value).withId id) := by
  rw [runSetup, run_bind, run_evaluate] at hrun
  cases hvalue : template.evaluate runner.evaluator world.context
    ("<" ++ name ++ " in " ++ collection ++ ">") with
  | error error =>
    rw [hvalue] at hrun
    cases hrun
  | ok value =>
    rw [hvalue] at hrun
    dsimp only at hrun
    rw [run_bind, run_call] at hrun
    cases hinsert : runner.services.insert collection (runner.withDefaults collection value).toJson
      world.state with
    | mk answer state =>
      rw [hinsert] at hrun
      cases answer with
      | error message => cases hrun
      | ok id =>
        cases hrun
        exact ⟨value, id, rfl, hinsert, rfl⟩

theorem preserves_runSetup (h : runner.services.Preserves Holds)
    (hrun : (runner.runSetup setup).run.run world = (.ok (), next)) (hw : Holds world.state) :
    Holds next.state := by
  cases setup with
  | clear collection => exact preserves_call h.clear hrun hw
  | insertion name collection template =>
    obtain ⟨value, id, -, hinsert, -⟩ := exists_of_runSetup_insertion hrun
    exact h.insert hinsert hw
  | declaration name template =>
    rw [runSetup, run_bind, run_evaluate] at hrun
    split at hrun
    · rename_i value between heq
      split at heq
      · cases heq
        cases hrun
        exact hw
      · cases heq
    · cases hrun

theorem preserves_runSetups (h : runner.services.Preserves Holds)
    (hrun : (runner.runSetups setups).run.run world = (.ok (), next)) (hw : Holds world.state) :
    Holds next.state := by
  induction setups generalizing world with
  | nil =>
    cases hrun
    exact hw
  | cons setup setups ih =>
    rw [runSetups, run_bind] at hrun
    split at hrun
    · rename_i between hstep
      exact ih hrun (preserves_runSetup h hstep hw)
    · cases hrun

end Preserves

/-- On record, the contents of the store are always what the calls so far make of those at the
start. -/
theorem preserves_applied (h : runner.services.Keeps contents kept) (start : String → List Json) :
    runner.recorded.services.Preserves fun s =>
      contents s.1 = s.2.foldl (Exchange.applied kept) start where
  clear {collection state next} hcall hs := by
    obtain ⟨state, record⟩ := state
    have hcall : ((runner.services.clear collection state).1,
      (runner.services.clear collection state).2,
      record ++ [Exchange.clear collection (runner.services.clear collection state).1]) =
        (.ok (), next) := hcall
    cases hc : runner.services.clear collection state with
    | mk answer last =>
      rw [hc] at hcall
      cases hcall
      simp only [List.foldl_append, List.foldl_cons, List.foldl_nil, Exchange.applied]
      rw [h.clear hc, hs]
  insert {collection document id state next} hcall hs := by
    obtain ⟨state, record⟩ := state
    have hcall : ((runner.services.insert collection document state).1,
      (runner.services.insert collection document state).2,
      record ++ [Exchange.insert collection document
        (runner.services.insert collection document state).1]) = (.ok id, next) := hcall
    cases hc : runner.services.insert collection document state with
    | mk answer last =>
      rw [hc] at hcall
      cases hcall
      simp only [List.foldl_append, List.foldl_cons, List.foldl_nil, Exchange.applied]
      rw [h.insert hc, hs]

theorem contents_of_runSetups (h : runner.services.Keeps contents kept) {world next : World σ}
    (hrun : (runner.runSetups setups).run.run world = (.ok (), next)) :
    ∃ calls, (runner.recorded.runSetups setups).run.run ⟨(world.state, []), world.context⟩ =
        (.ok (), ⟨(next.state, calls), next.context⟩) ∧
      Sequence (SetupCourse runner) world.context setups calls (.ok next.context) ∧
      contents next.state = calls.foldl (Exchange.applied kept) (contents world.state) := by
  obtain ⟨calls, answer, last, hplain, hrecord, hcourse⟩ :=
    @records_runSetups σ runner setups world []
  rw [hrun] at hplain
  cases hplain
  rw [List.nil_append] at hrecord
  exact ⟨calls, hrecord, hcourse,
    preserves_runSetups (preserves_applied h (contents world.state)) hrecord rfl⟩

theorem Sequence.append_cases {α : Type}
    {Step : Context → α → List Exchange → Except Failure Context → Prop} {as bs : List α}
    (h : Sequence Step context (as ++ bs) calls (.ok after)) :
    ∃ made more between, Sequence Step context as made (.ok between) ∧
      Sequence Step between bs more (.ok after) ∧ calls = made ++ more := by
  induction as generalizing context calls with
  | nil => exact ⟨[], calls, context, .done, h, rfl⟩
  | cons a as ih =>
    cases h with
    | next first rest =>
      obtain ⟨made, more, between, hfirst, hrest, rfl⟩ := ih rest
      exact ⟨_, more, between, .next first hfirst, hrest, (List.append_assoc ..).symm⟩

section Applied

variable {start : String → List Json}

theorem stored_append (made more : List Exchange) :
    stored kept collection (made ++ more) =
      stored kept collection made ++ stored kept collection more :=
  List.filterMap_append

theorem SetupCourse.applied_of_ne (h : SetupCourse runner context setup calls (.ok after))
    (hne : setup ≠ .clear collection) :
    calls.foldl (Exchange.applied kept) start collection =
      start collection ++ stored kept collection calls := by
  cases h with
  | @cleared other =>
    have hother : collection ≠ other := fun e => hne (e ▸ rfl)
    simp [Exchange.applied, stored, Exchange.stored?, hother]
  | @inserted name other =>
    by_cases he : collection = other
    · subst he
      simp [Exchange.applied, stored, Exchange.stored?]
    · simp [Exchange.applied, stored, Exchange.stored?, he, Ne.symm he]
  | declared => simp [stored]

theorem SetupCourse.stored_eq_nil (h : SetupCourse runner context setup calls (.ok after))
    (hn : collection ∉ setup.collection?) : stored kept collection calls = [] := by
  cases h with
  | cleared => rfl
  | @inserted name other =>
    have hother : other ≠ collection := fun e => hn (e ▸ rfl)
    simp [stored, Exchange.stored?, hother]
  | declared => rfl

theorem Sequence.applied_of_notMem
    (h : Sequence (SetupCourse runner) context setups calls (.ok after))
    (hn : .clear collection ∉ setups) :
    calls.foldl (Exchange.applied kept) start collection =
      start collection ++ stored kept collection calls := by
  induction setups generalizing context calls start with
  | nil =>
    cases h
    simp [stored]
  | cons setup setups ih =>
    cases h with
    | next first rest =>
      rw [List.mem_cons, not_or] at hn
      rw [List.foldl_append, ih rest hn.2, first.applied_of_ne (Ne.symm hn.1), List.append_assoc,
        stored_append]

theorem Sequence.stored_eq_nil (h : Sequence (SetupCourse runner) context setups calls (.ok after))
    (hn : collection ∉ Document.touched setups) : stored kept collection calls = [] := by
  induction setups generalizing context calls with
  | nil =>
    cases h
    rfl
  | cons setup setups ih =>
    rw [← List.singleton_append, Document.touched_append, List.mem_append, not_or,
      Document.touched_singleton, Option.mem_toList] at hn
    cases h with
    | next first rest => rw [stored_append, first.stored_eq_nil hn.1, ih rest hn.2]; rfl

theorem Sequence.applied_of_untouched
    (h : Sequence (SetupCourse runner) context setups calls (.ok after))
    (hn : collection ∉ Document.touched setups) :
    calls.foldl (Exchange.applied kept) start collection = start collection := by
  have hclear : .clear collection ∉ setups := fun hm =>
    hn (List.mem_filterMap.mpr ⟨_, hm, rfl⟩)
  rw [h.applied_of_notMem hclear, h.stored_eq_nil hn, List.append_nil]

/-- A collection that is cleared before anything else happens to it, and then no more, holds what
is inserted. -/
theorem Sequence.applied_of_cleared {first rest : List Setup}
    (h : Sequence (SetupCourse runner) context (first ++ .clear collection :: rest) calls
      (.ok after))
    (hfirst : collection ∉ Document.touched first) (hrest : .clear collection ∉ rest) :
    calls.foldl (Exchange.applied kept) start collection = stored kept collection calls := by
  obtain ⟨made, more, between, hmade, hmore, rfl⟩ := h.append_cases
  cases hmore with
  | @next _ _ _ _ cleared others _ hclear hothers =>
    cases hclear
    rw [stored_append, stored_append, hmade.stored_eq_nil hfirst, List.foldl_append,
      List.foldl_append, hothers.applied_of_notMem hrest]
    simp [Exchange.applied, stored, Exchange.stored?]

end Applied

/-- A document as an insertion stores it: the value of its template, with the defaults of the
collection, as data. -/
def Stores (runner : Runner σ) (kept : Json → Json → Json) (collection : String)
    (insertion : String × Template) (document : Json) : Prop :=
  ∃ context value id,
    insertion.2.evaluate runner.evaluator context ("<" ++ insertion.1 ++ " in " ++ collection ++ ">") =
      .ok value ∧
    document = kept id (runner.withDefaults collection value).toJson

theorem SetupCourse.stores (h : SetupCourse runner context setup calls (.ok after)) :
    List.Forall₂ (Stores runner kept collection) (setup.into? collection).toList
      (stored kept collection calls) := by
  cases h with
  | cleared => exact .nil
  | declared => exact .nil
  | @inserted name other template value id evaluated =>
    by_cases he : other = collection
    · subst he
      simp only [Setup.into?, stored, List.filterMap_cons, List.filterMap_nil, Exchange.stored?,
        ↓reduceIte, Option.toList_some]
      exact .cons ⟨context, value, id, evaluated, rfl⟩ .nil
    · simp [Setup.into?, stored, Exchange.stored?, he]

theorem Sequence.stores (h : Sequence (SetupCourse runner) context setups calls (.ok after)) :
    List.Forall₂ (Stores runner kept collection) (setups.filterMap (Setup.into? collection))
      (stored kept collection calls) := by
  induction setups generalizing context calls with
  | nil =>
    cases h
    exact .nil
  | cons setup setups ih =>
    cases h with
    | next first rest =>
      rw [stored_append, ← List.singleton_append, List.filterMap_append]
      refine List.rel_append ?_ (ih rest)
      have hstores : List.Forall₂ (Stores runner kept collection) _ _ := first.stores
      cases hinto : setup.into? collection <;> simpa [hinto] using hstores

/-- Whatever the store holds before, a setup that succeeds leaves in each collection of the document
what the document inserts there, in order and complete, and leaves every other collection alone. -/
theorem runSetups_isolated (hkeeps : runner.services.Keeps contents kept) {text : String}
    {document : Document} (hread : Document.ofString text = .ok document) {state : σ}
    {final : World σ} (hrun : (runner.runSetups document.setups).run.run
      ⟨state, .ofBase runner.base⟩ = (.ok (), final)) :
    ∃ calls, (runner.recorded.runSetups document.setups).run.run
        ⟨(state, []), .ofBase runner.base⟩ = (.ok (), ⟨(final.state, calls), final.context⟩) ∧
      Sequence (SetupCourse runner) (.ofBase runner.base) document.setups calls
        (.ok final.context) ∧
      ∀ collection,
        (collection ∈ document.collections →
          contents final.state collection = stored kept collection calls ∧
          List.Forall₂ (Stores runner kept collection)
            (document.setups.filterMap (Setup.into? collection))
            (contents final.state collection)) ∧
        (collection ∉ document.collections →
          contents final.state collection = contents state collection) := by
  obtain ⟨calls, hrecord, hcourse, hcontents⟩ := contents_of_runSetups hkeeps hrun
  obtain ⟨items, hsetups, horderly, hlists⟩ := Document.exists_items_of_ofString hread
  refine ⟨calls, hrecord, hcourse, fun collection => ⟨fun hc => ?_, fun hc => ?_⟩⟩
  · obtain ⟨first, rest, he, hfirst, hrest⟩ :=
      Document.exists_clear_of_touched horderly ((hlists.mem collection).mp hc)
    have hsplit := hcourse
    rw [hsetups, he] at hsplit
    have hstored : contents final.state collection = stored kept collection calls := by
      rw [hcontents, hsplit.applied_of_cleared hfirst hrest]
    exact ⟨hstored, hstored ▸ hcourse.stores⟩
  · have hn : collection ∉ Document.touched document.setups := by
      rwa [hsetups, Document.mem_touched_expand, ← hlists.mem]
    rw [hcontents, hcourse.applied_of_untouched hn]

open Rehearsal (Stage)

theorem documents_withDocuments (store : Rehearsal.Store) (collection : String)
    (documents : List Json) : (store.withDocuments collection documents).documents =
      Function.update store.documents collection documents := by
  funext other
  by_cases h : other = collection
  · subst h
    simp [Rehearsal.Store.documents, Rehearsal.Store.withDocuments, Fields.get?_set_self]
  · simp [Rehearsal.Store.documents, Rehearsal.Store.withDocuments, Fields.get?_set_of_ne, h]

theorem keeps_stage : Stage.services.Keeps (fun stage => stage.store.documents) Json.withId where
  clear {collection stage next} h := by
    simp only [Stage.services, Stage.onStore, Rehearsal.Store.clear, Rehearsal.Store.logged] at h
    split at h
    · cases h
    · cases h
      exact documents_withDocuments _ collection []
  insert {collection document id stage next} h := by
    simp only [Stage.services, Stage.onStore, Rehearsal.Store.insert, Rehearsal.Store.logged] at h
    split at h
    · cases h
    · cases document with
      | object fields =>
        cases hown : Fields.get? "_id" fields with
        | some own =>
          simp only [Rehearsal.Store.identified, hown] at h
          cases h
          rw [Json.withId, if_pos (by simp [Fields.has, hown])]
          exact documents_withDocuments _ collection _
        | none =>
          simp only [Rehearsal.Store.identified, hown] at h
          cases h
          rw [Json.withId, if_neg (by simp [Fields.has, hown])]
          exact documents_withDocuments _ collection _
      | _ => cases h

def fixturesText : String :=
  "# t\n## Setup\n### Clear b\n### x in b\n\t\x7b\x7d\n### y in a\n\t\x7b\x7d\n### z in b\n" ++
    "\t\x7b\x7d\n## c\n"

def fixtures : Document :=
  ⟨"t", false, [.clear "b", .insertion "x" "b" (.object []), .clear "a",
      .insertion "y" "a" (.object []), .insertion "z" "b" (.object [])],
    [⟨"c", false, none, .empty, 200, none, []⟩], ["a", "b"]⟩

def littered : Stage :=
  ⟨⟨[("a", [.object []]), ("b", [.object []]), ("c", [.object []])], [], [], 0, []⟩, ⟨[], []⟩⟩

theorem runSetups_isolated_of_littered :
    let final := ((rehearsing.runSetups fixtures.setups).run.run
      ⟨littered, .ofBase rehearsing.base⟩).2
    Document.ofString fixturesText = .ok fixtures ∧
      (rehearsing.runSetups fixtures.setups).run.run ⟨littered, .ofBase rehearsing.base⟩ =
        (.ok (), final) ∧
      final.state.store.documents "c" = littered.store.documents "c" ∧
      (final.state.store.documents "b").length = 2 := by
  intro final
  have hread : Document.ofString fixturesText = .ok fixtures := by with_unfolding_all rfl
  have hok : ((rehearsing.runSetups fixtures.setups).run.run
      ⟨littered, .ofBase rehearsing.base⟩).1 = .ok () := by with_unfolding_all rfl
  have hrun : (rehearsing.runSetups fixtures.setups).run.run ⟨littered, .ofBase rehearsing.base⟩ =
      (.ok (), final) := Prod.fst_eq_iff.mp hok
  clear_value final
  obtain ⟨calls, -, -, hall⟩ := runSetups_isolated keeps_stage hread hrun
  have hb := (hall "b").1 (by decide)
  exact ⟨hread, hrun, (hall "c").2 (by decide), hb.2.length_eq.symm⟩

end Runner

end ApiContract
