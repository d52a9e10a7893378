import ApiContract.Proofs.Comparison.Verbatim
import ApiContract.Proofs.Run.Steps
import ApiContract.Proofs.Value.Data
import ApiContract.Rehearsal.Service

namespace ApiContract

open Rehearsal.Store (idOf)

/-- A store that has some documents in a collection: it answers with all of them, or with the first
one under an identifier. -/
structure Services.Offers {σ : Type} (services : Services σ) (state : σ) (collection : String)
    (documents : List Json) : Prop where
  findById : ∀ id, ∃ next, services.findById collection id state =
    (.ok (documents.find? fun document => (idOf document).same id), next)
  findAll : ∃ next, services.findAll collection state = (.ok documents, next)

def Scanned (s : Strictness) (documents : List Json) (expected : Value) : Prop :=
  ∃ document ∈ documents, compareValues s (Value.ofJson document) expected = .ok ()

/-- What the identifier matches is stored under it. -/
def Telling (s : Strictness) (documents : List Json) (id : Value) : Prop :=
  ∀ document ∈ documents, Comparison.Matches s (Value.ofJson (idOf document)) id →
    (idOf document).same id.toJson = true

def Single (documents : List Json) (id : Json) : Prop :=
  (documents.filter fun document => (idOf document).same id).length ≤ 1

theorem Single.find?_eq_some {documents : List Json} {id document : Json} (h : Single documents id)
    (hm : document ∈ documents) (hs : (idOf document).same id = true) :
    documents.find? (fun document => (idOf document).same id) = some document := by
  have hfilter : document ∈ documents.filter fun document => (idOf document).same id :=
    List.mem_filter.mpr ⟨hm, hs⟩
  rw [← List.head?_filter]
  unfold Single at h
  revert h hfilter
  cases documents.filter fun document => (idOf document).same id with
  | nil => simp
  | cons first rest =>
    intro h hfilter
    obtain rfl : rest = [] := List.eq_nil_of_length_eq_zero (by simpa using h)
    simp [List.mem_singleton.mp hfilter]

theorem idOf_object {members : Fields Json} {own : Json}
    (h : Fields.get? "_id" members = some own) : idOf (.object members) = own := by
  rw [idOf, Json.field?, h, Option.getD_some]

theorem matches_id_of_compareValues {s : Strictness} {document : Json} {expected id : Value}
    (hid : Runner.wantedId? expected = some id)
    (h : compareValues s (Value.ofJson document) expected = .ok ()) :
    Comparison.Matches s (Value.ofJson (idOf document)) id := by
  cases expected with
  | object fields =>
    obtain ⟨found, hfound, hfields, -⟩ := Comparison.compareAt_object_eq_ok_iff.mp h
    obtain ⟨members, rfl, rfl⟩ := Comparison.exists_fields_of_ofJson hfound
    obtain ⟨a, hg, hcompare⟩ :=
      Comparison.compareFields_eq_ok_iff.mp hfields ("_id", id) (Fields.mem_of_get? hid)
    rw [Value.get?_fieldsOfJson, Option.map_eq_some_iff] at hg
    obtain ⟨own, hown, rfl⟩ := hg
    rw [idOf_object hown]
    exact ⟨"_id", by decide, hcompare⟩
  | _ => cases hid

theorem telling_of_verbatim {s : Strictness} {documents : List Json} {id : Value}
    (ht : ∀ document ∈ documents, (Value.ofJson document).Tidy) (hv : id.Verbatim s.strict) :
    Telling s documents id := by
  intro document hm
  apply Comparison.pinned_of_verbatim hv
  have htidy := ht document hm
  cases document with
  | object members =>
    cases hg : Fields.get? "_id" members with
    | none => simp [idOf, Json.field?, hg, Value.ofJson, Value.Tidy, Value.Keyed]
    | some own =>
      have hown : Fields.get? "_id" (Value.fieldsOfJson members) = some (Value.ofJson own) := by
        rw [Value.get?_fieldsOfJson, hg, Option.map_some]
      rw [idOf_object hg]
      exact htidy.parts (Value.mem_parts_of_get? hown)
  | _ => simp [idOf, Json.field?, Value.ofJson, Value.Tidy, Value.Keyed]

namespace Runner

variable {σ : Type} {runner : Runner σ} {world : World σ} {collection : String}
  {documents : List Json} {expected id : Value}

theorem tryAll_eq_none_iff {s : Strictness} :
    tryAll s expected documents = none ↔ Scanned s documents expected := by
  induction documents with
  | nil => simp [tryAll, Scanned]
  | cons document documents ih =>
    rw [tryAll, Scanned, List.exists_mem_cons_iff]
    cases hc : compareValues s (Value.ofJson document) expected with
    | ok => simp
    | error mismatch => simpa [Scanned] using ih

theorem findAny_succeeds_iff (h : runner.services.Offers world.state collection documents) :
    Succeeds (runner.findAny collection expected) world ↔
      Scanned runner.findStrictness documents expected := by
  obtain ⟨next, hall⟩ := h.findAll
  have hcall := @run_call σ _ world .storage (runner.services.findAll collection)
  rw [hall] at hcall
  rw [findAny, succeeds_bind_iff hcall, ← tryAll_eq_none_iff]
  cases tryAll runner.findStrictness expected documents with
  | none => simp [succeeds_return]
  | some candidates => simp [not_succeeds_throw]

theorem findById_succeeds_iff (h : runner.services.Offers world.state collection documents) :
    Succeeds (runner.findById collection expected id) world ↔
      ∃ document, documents.find? (fun document => (idOf document).same id.toJson) =
          some document ∧
        compareValues runner.findStrictness (Value.ofJson document) expected = .ok () := by
  obtain ⟨next, hfind⟩ := h.findById id.toJson
  have hcall := @run_call σ _ world .storage (runner.services.findById collection id.toJson)
  rw [hfind] at hcall
  rw [findById, succeeds_bind_iff hcall]
  cases documents.find? fun document => (idOf document).same id.toJson with
  | none => simp [not_succeeds_throw]
  | some document =>
    cases hc : compareValues runner.findStrictness (Value.ofJson document) expected with
    | ok => simp [hc, succeeds_return]
    | error mismatch => simp [hc, not_succeeds_throw]

/-- A matching document is not missed by its identifier, if nothing else that matches the
identifier is taken for it. -/
theorem exists_find?_of_scanned {s : Strictness} (hid : wantedId? expected = some id)
    (htelling : Telling s documents id) (hsingle : Single documents id.toJson)
    (h : Scanned s documents expected) :
    ∃ document, documents.find? (fun document => (idOf document).same id.toJson) =
        some document ∧
      compareValues s (Value.ofJson document) expected = .ok () := by
  obtain ⟨document, hm, hcompare⟩ := h
  have hsame := htelling document hm (matches_id_of_compareValues hid hcompare)
  exact ⟨document, hsingle.find?_eq_some hm hsame, hcompare⟩

theorem runFind_succeeds_iff {find : Find}
    (hvalue : find.template.evaluate runner.evaluator world.context
      ("<find in " ++ find.collection ++ ">") = .ok expected) :
    Succeeds (runner.runFind find) world ↔
      match wantedId? expected with
      | some id => Succeeds (runner.findById find.collection expected id) world
      | none => Succeeds (runner.findAny find.collection expected) world := by
  have heval := @run_evaluate σ runner world ("<find in " ++ find.collection ++ ">") find.template
  rw [hvalue] at heval
  rw [runFind, succeeds_bind_iff heval]
  cases wantedId? expected <;> rfl

/-- A find succeeds on the first document under the identifier of its template, or without one on
any document, if that matches. It succeeds on no other condition than a scan, and on the same one
if the identifier is unique and matched by nothing but itself. -/
theorem runFind_succeeds_iff_scanned {find : Find}
    (hvalue : find.template.evaluate runner.evaluator world.context
      ("<find in " ++ find.collection ++ ">") = .ok expected)
    (hoffers : runner.services.Offers world.state find.collection documents)
    (htidy : ∀ document ∈ documents, (Value.ofJson document).Tidy) :
    (Succeeds (runner.runFind find) world → Scanned runner.findStrictness documents expected) ∧
      (wantedId? expected = none →
        (Succeeds (runner.runFind find) world ↔
          Scanned runner.findStrictness documents expected)) ∧
      ∀ id, wantedId? expected = some id →
        (Succeeds (runner.runFind find) world ↔
          ∃ document, documents.find? (fun document => (idOf document).same id.toJson) =
              some document ∧
            compareValues runner.findStrictness (Value.ofJson document) expected = .ok ()) ∧
        (Single documents id.toJson → Telling runner.findStrictness documents id →
          (Succeeds (runner.runFind find) world ↔
            Scanned runner.findStrictness documents expected)) ∧
        (id.Verbatim runner.options.strict → Telling runner.findStrictness documents id) := by
  have hrun := runFind_succeeds_iff hvalue
  cases hwanted : wantedId? expected with
  | none =>
    rw [hwanted] at hrun
    have hscan := hrun.trans (findAny_succeeds_iff hoffers)
    exact ⟨hscan.mp, fun _ => hscan, fun id hid => by cases hid⟩
  | some id =>
    rw [hwanted] at hrun
    have hfirst := hrun.trans (findById_succeeds_iff hoffers)
    have hscan : Succeeds (runner.runFind find) world →
        Scanned runner.findStrictness documents expected := fun h => by
      obtain ⟨document, hfind, hcompare⟩ := hfirst.mp h
      exact ⟨document, List.mem_of_find?_eq_some hfind, hcompare⟩
    refine ⟨hscan, fun hnone => (by cases hnone), fun other hid => ?_⟩
    cases hid
    refine ⟨hfirst, fun hsingle htelling => ⟨hscan, fun h => ?_⟩, fun hverbatim => ?_⟩
    · exact hfirst.mpr (exists_find?_of_scanned hwanted htelling hsingle h)
    · exact telling_of_verbatim htidy hverbatim

open Rehearsal (Stage)

theorem offers_stage {stage : Stage} (h : stage.store.failing = []) (collection : String) :
    Stage.services.Offers stage collection (stage.store.documents collection) := by
  constructor
  · intro id
    simp [Stage.services, Stage.onStore, Rehearsal.Store.findById, Rehearsal.Store.logged, h,
      Rehearsal.Store.documents]
  · simp [Stage.services, Stage.onStore, Rehearsal.Store.findAll, Rehearsal.Store.logged, h,
      Rehearsal.Store.documents]

def byId : Find := ⟨"c", .object [("_id", ⟨false, .expression "id"⟩)]⟩

def asking (id : Value) : Runner Stage := ⟨Stage.services, fun _ _ => .ok id, .default, .empty⟩

def stocked : World Stage :=
  ⟨⟨⟨[("c", [.object [("_id", .string "x")]])], [], [], 0, []⟩, ⟨[], []⟩⟩, .ofBase .empty⟩

theorem evaluate_byId (id : Value) :
    byId.template.evaluate (asking id).evaluator stocked.context
      ("<find in " ++ byId.collection ++ ">") = .ok (.object [("_id", id)]) := by
  rfl

theorem tidy_stocked : ∀ document ∈ [Json.object [("_id", .string "x")]],
    (Value.ofJson document).Tidy := by
  simp [Value.ofJson, Value.fieldsOfJson, Value.Tidy, Value.Keyed, Fields.Sorted, Fields.keys]

theorem succeeds_asking_id : Succeeds ((asking (.id "x")).runFind byId) stocked := by
  have hall := runFind_succeeds_iff_scanned (evaluate_byId (.id "x")) (offers_stage rfl "c")
    tidy_stocked
  obtain ⟨-, hscan, htelling⟩ := hall.2.2 (.id "x") rfl
  have hverbatim : (Value.id "x").Verbatim true := by simp [Value.Verbatim, Value.Closed]
  have hsingle : Single [.object [("_id", .string "x")]] (.string "x") :=
    List.length_filter_le _ _
  exact (hscan hsingle (htelling hverbatim)).mpr ⟨_, List.mem_singleton_self _, rfl⟩

/-- A kind matches a document, but is no identifier of one. -/
theorem asking_kind_fails_where_scan_succeeds :
    ¬ Succeeds ((asking (.type .string)).runFind byId) stocked ∧
      Scanned (asking (.type .string)).findStrictness [.object [("_id", .string "x")]]
        (.object [("_id", .type .string)]) := by
  constructor
  · rw [runFind_succeeds_iff (evaluate_byId (.type .string))]
    intro h
    obtain ⟨document, hfind, -⟩ := (findById_succeeds_iff (offers_stage rfl "c")).mp h
    cases hfind
  · exact ⟨_, List.mem_singleton_self _, rfl⟩

end Runner

end ApiContract
