import ApiContract.Proofs.Comparison.Returned
import ApiContract.Proofs.Run.Contents
import ApiContract.Proofs.Run.Find

namespace ApiContract

namespace Value

theorem toJson_withId (id : Json) (value : Value) :
    (value.withId id).toJson = Json.withId id value.toJson := by
  cases value with
  | object fields =>
    have hhas : Fields.has "_id" (fieldsToJson fields) = Fields.has "_id" fields := by
      rw [Fields.has, get?_fieldsToJson, Option.isSome_map, Fields.has]
    rw [withId, toJson, Json.withId, hhas]
    split
    · rw [toJson]
    · have hid : id = (ofAssigned id).toJson := by rw [toJson_ofAssigned, toJson_ofJson]
      rw [toJson, fieldsToJson_eq_map, fieldsToJson_eq_map, ← Fields.set_map, ← hid]
  | _ => rfl

section Tidy

variable {document : Value}

mutual

theorem Tidy.withDefaults {document : Value} (hd : document.Tidy) :
    ∀ {defaults : Value}, defaults.Tidy → (document.withDefaults defaults).Tidy
  | .object defaults, h => by
    cases document with
    | object fields =>
      rw [Value.withDefaults]
      exact Tidy.fieldsWithDefaults hd defaults (tidy_object_iff.mp h).2
    | _ =>
      rw [Value.withDefaults]
      · exact hd
      · simp
  | .null, _ | .bool _, _ | .number _, _ | .string _, _ | .id _, _ | .array _, _ | .ordered _, _
  | .type _, _ => by
    rw [Value.withDefaults]
    · exact hd
    · simp

theorem Tidy.fieldsWithDefaults {fields : Fields Value} (hf : (object fields).Tidy) :
    ∀ defaults : List (String × Value), (∀ m ∈ defaults, m.2.Tidy) →
      (object (Value.fieldsWithDefaults fields defaults)).Tidy
  | [], _ => by
    rw [Value.fieldsWithDefaults]
    exact hf
  | (key, value) :: defaults, h => by
    obtain ⟨hv, h⟩ := List.forall_mem_cons.mp h
    rw [Value.fieldsWithDefaults]
    refine Tidy.fieldsWithDefaults (hf.set ?_ key) defaults h
    cases hg : Fields.get? key fields with
    | none => exact hv
    | some own =>
      exact ((tidy_object_iff.mp hf).2 _ (Fields.mem_of_get? hg)).withDefaults hv

end

theorem Tidy.withId (hd : document.Tidy) {id : Json} (hid : (ofJson id).Tidy) :
    (document.withId id).Tidy := by
  cases document with
  | object fields =>
    rw [Value.withId]
    split
    · exact hd
    · refine hd.set ?_ "_id"
      cases id with
      | string s => simp [ofAssigned, Tidy, Keyed]
      | _ => exact hid
  | _ => exact hd

end Tidy

end Value

namespace Runner

open Rehearsal.Store (idOf)

variable {σ τ : Type} {runner : Runner σ} {collection : String}

theorem tidy_withDefaults {value : Value} (hvalue : value.Tidy)
    (hdefaults : ∀ defaults, Fields.get? collection runner.options.defaultDocuments =
      some defaults → (Value.ofJson defaults).Tidy) :
    (runner.withDefaults collection value).Tidy := by
  rw [withDefaults]
  cases hg : Fields.get? collection runner.options.defaultDocuments with
  | none => exact hvalue
  | some defaults => exact hvalue.withDefaults (hdefaults defaults hg)

/-- A document that is there, and is the first one under its identifier, is found by the value that
it is the data of. -/
theorem succeeds_runFind_of_toJson {finder : Runner τ} {world : World τ} {find : Find}
    {bound : Value} {before after : List Json} (hu : bound.Untyped) (ht : bound.Tidy)
    (hoffers : finder.services.Offers world.state find.collection
      (before ++ bound.toJson :: after))
    (hfirst : ∀ document ∈ before, (idOf document).same (idOf bound.toJson) = false)
    (hvalue : find.template.evaluate finder.evaluator world.context
      ("<find in " ++ find.collection ++ ">") = .ok bound) :
    Succeeds (finder.runFind find) world := by
  have hcompare : compareValues finder.findStrictness (Value.ofJson bound.toJson) bound = .ok () :=
    (Comparison.fits_self hu ht).1 ""
  rw [runFind_succeeds_iff hvalue]
  cases hwanted : wantedId? bound with
  | none =>
    exact (findAny_succeeds_iff hoffers).mpr ⟨_, by simp, hcompare⟩
  | some id =>
    have hid : idOf bound.toJson = id.toJson := by
      cases bound with
      | object fields =>
        rw [wantedId?] at hwanted
        rw [Value.toJson]
        exact idOf_object (by rw [Value.get?_fieldsToJson, hwanted, Option.map_some])
      | _ => cases hwanted
    rw [hid] at hfirst
    refine (findById_succeeds_iff hoffers).mpr ⟨_, ?_, hcompare⟩
    have hnone : before.find? (fun document => (idOf document).same id.toJson) = none :=
      List.find?_eq_none.mpr fun document hm => by simp [hfirst document hm]
    rw [List.find?_append, hnone, Option.none_or, List.find?_cons_of_pos]
    rw [hid]
    exact Json.same_refl _

/-- An insertion binds a value whose data is what is stored. As long as that is there, and no
document before it has the same identifier, a find for the value succeeds, however strict. -/
theorem inserted_bound_and_found {contents : σ → String → List Json}
    (hkeeps : runner.services.Keeps contents Json.withId) {world next : World σ} {name : String}
    {template : Template} (hrun : (runner.runSetup (.insertion name collection template)).run.run
      world = (.ok (), next))
    (hevaluated : ∀ value, template.evaluate runner.evaluator world.context
      ("<" ++ name ++ " in " ++ collection ++ ">") = .ok value → value.Tidy)
    (hdefaults : ∀ defaults, Fields.get? collection runner.options.defaultDocuments =
      some defaults → (Value.ofJson defaults).Tidy)
    (hassigned : ∀ value id, template.evaluate runner.evaluator world.context
      ("<" ++ name ++ " in " ++ collection ++ ">") = .ok value →
      (runner.services.insert collection (runner.withDefaults collection value).toJson
        world.state).1 = .ok id → (Value.ofJson id).Tidy) :
    ∃ bound, next.context.local? name = some bound ∧
      contents next.state collection = contents world.state collection ++ [bound.toJson] ∧
      ∀ (finder : Runner τ) (later : World τ) (find : Find) (before after : List Json),
        finder.services.Offers later.state collection (before ++ bound.toJson :: after) →
        (∀ document ∈ before, (idOf document).same (idOf bound.toJson) = false) →
        find.collection = collection →
        find.template.evaluate finder.evaluator later.context ("<find in " ++ collection ++ ">") =
          .ok bound →
        bound.Untyped → Succeeds (finder.runFind find) later := by
  obtain ⟨value, id, hvalue, hinsert, hcontext⟩ := exists_of_runSetup_insertion hrun
  have htidy := (tidy_withDefaults (hevaluated value hvalue) hdefaults).withId
    (hassigned value id hvalue (by rw [hinsert]))
  refine ⟨(runner.withDefaults collection value).withId id, ?_, ?_, ?_⟩
  · rw [hcontext]
    exact Fields.get?_set_self _ _ _
  · rw [hkeeps.insert hinsert, Function.update_self, Value.toJson_withId]
  · rintro finder later find before after hoffers hfirst rfl hfound hu
    exact succeeds_runFind_of_toJson hu htidy hoffers hfirst hfound

open Rehearsal (Stage)

def furnishing (value : Value) : Runner Stage :=
  ⟨Stage.services, fun _ _ => .ok value,
    { Options.default with
      defaultDocuments := [("c", .object [("a", .null), ("b", .object [("x", .bool true)])])] },
    .empty⟩

def vacant : World Stage := ⟨⟨⟨[], [.string "y"], [], 0, []⟩, ⟨[], []⟩⟩, .ofBase .empty⟩

def furnished : Value :=
  .object [("_id", .id "y"), ("a", .ordered [.id "x"]), ("b", .object [("x", .bool true)])]

theorem inserted_bound_and_found_of_furnished :
    let value : Value := .object [("a", .ordered [.id "x"])]
    let next := (((furnishing value).runSetup (.insertion "d" "c" (.expression "e"))).run.run
      vacant).2
    ((furnishing value).runSetup (.insertion "d" "c" (.expression "e"))).run.run vacant =
        (.ok (), next) ∧
      next.context.local? "d" = some furnished ∧
      next.state.store.documents "c" = [furnished.toJson] ∧
      Succeeds ((furnishing furnished).runFind ⟨"c", .expression "d"⟩)
        ⟨next.state, next.context⟩ := by
  intro value next
  have hok : (((furnishing value).runSetup (.insertion "d" "c" (.expression "e"))).run.run
      vacant).1 = .ok () := by with_unfolding_all rfl
  have hrun : ((furnishing value).runSetup (.insertion "d" "c" (.expression "e"))).run.run vacant =
      (.ok (), next) := Prod.fst_eq_iff.mp hok
  have hlocal : next.context.local? "d" = some furnished := by with_unfolding_all rfl
  have hvalue : value.Tidy := by
    simp [value, Value.Tidy, Value.Keyed, Fields.Sorted, Fields.keys]
  have hassigned : (Value.ofJson (.string "y")).Tidy := by
    simp [Value.ofJson, Value.Tidy, Value.Keyed]
  have hevaluated : ∀ v, Template.evaluate (furnishing value).evaluator vacant.context
      ("<" ++ "d" ++ " in " ++ "c" ++ ">") (.expression "e") = .ok v → v.Tidy := by
    rintro v h
    cases h
    exact hvalue
  have hdefaults : ∀ defaults, Fields.get? "c" (furnishing value).options.defaultDocuments =
      some defaults → (Value.ofJson defaults).Tidy := by
    rintro defaults h
    cases h
    refine Value.throughout_object.mpr ⟨List.pairwise_pair.mpr (by decide), ?_⟩
    simp [Value.fieldsOfJson, Value.ofJson, Value.Keyed, Fields.Sorted, Fields.keys]
  obtain ⟨bound, hbound, hstored, hfound⟩ := inserted_bound_and_found keeps_stage hrun hevaluated
    hdefaults fun v id h hid => by
      cases h
      cases hid
      exact hassigned
  obtain rfl : bound = furnished := Option.some.inj (hbound.symm.trans hlocal)
  refine ⟨hrun, hlocal, hstored, ?_⟩
  refine hfound (furnishing furnished) ⟨next.state, next.context⟩ ⟨"c", .expression "d"⟩ [] []
    ?_ (by simp) rfl rfl ?_
  · have hoffers : Stage.services.Offers next.state "c" (next.state.store.documents "c") :=
      offers_stage (by with_unfolding_all rfl) "c"
    rwa [hstored] at hoffers
  · simp [furnished, Value.Untyped, Value.Definite]

end Runner

end ApiContract
