import ApiContract.Document.Basic
import ApiContract.Run.Options
import ApiContract.Run.Report
import ApiContract.Run.Services

namespace ApiContract

structure Runner (σ : Type) where
  services : Services σ
  evaluator : Evaluator
  options : Options
  base : Base

structure World (σ : Type) where
  state : σ
  context : Context

/-- A step of a run; what it changes stays changed when it fails. -/
abbrev Run (σ α : Type) := ExceptT Failure (StateM (World σ)) α

mutual

/-- Members that a document does not have are taken from the defaults, at every depth. -/
def Value.withDefaults (document : Value) : (defaults : Value) → Value
  | .object defaults =>
    match document with
    | .object fields => .object (Value.fieldsWithDefaults fields defaults)
    | document => document
  | _ => document

def Value.fieldsWithDefaults (fields : Fields Value) : List (String × Value) → Fields Value
  | [] => fields
  | (key, value) :: defaults =>
    let filled := match Fields.get? key fields with
      | some own => own.withDefaults value
      | none => value
    Value.fieldsWithDefaults (Fields.set key filled fields) defaults

end

/-- An object keeps the identifier it has, and otherwise gets the one it is stored under. -/
def Value.withId (id : Json) : Value → Value
  | .object fields =>
    if Fields.has "_id" fields then .object fields
    else .object (Fields.set "_id" (.ofAssigned id) fields)
  | document => document

namespace Runner

variable {σ : Type} (runner : Runner σ)

def call {α : Type} (failure : String → Failure) (service : Call σ α) : Run σ α := do
  let world ← get
  let (answer, state) := service world.state
  set { world with state }
  match answer with
  | .ok a => return a
  | .error message => throw (failure message)

def bind (name : String) (value : Value) : Run σ Unit :=
  modify fun world => { world with context := world.context.set name value }

def evaluate (label : String) (template : Template) : Run σ Value := do
  match template.evaluate runner.evaluator (← get).context label with
  | .ok value => return value
  | .error error => throw (.evaluation error)

def withDefaults (collection : String) (document : Value) : Value :=
  match Fields.get? collection runner.options.defaultDocuments with
  | some defaults => document.withDefaults (Value.ofJson defaults)
  | none => document

def runSetup : Setup → Run σ Unit
  | .clear collection => call .storage (runner.services.clear collection)
  | .insertion name collection template => do
    let value ← runner.evaluate ("<" ++ name ++ " in " ++ collection ++ ">") template
    let document := runner.withDefaults collection value
    let id ← call .storage (runner.services.insert collection document.toJson)
    bind name (document.withId id)
  | .declaration name template => do
    bind name (← runner.evaluate ("<" ++ name ++ " is>") template)

def runSetups : List Setup → Run σ Unit
  | [] => return ()
  | setup :: setups => do
    runner.runSetup setup
    runSetups setups

def findStrictness : Strictness := ⟨runner.options.strict, runner.options.ignoredFindKeys⟩

/-- The documents that do not match with their mismatches, unless one does match. -/
def tryAll (s : Strictness) (expected : Value) : List Json → Option (List (Value × Mismatch))
  | [] => some []
  | document :: documents =>
    let actual := Value.ofJson document
    match compareValues s actual expected with
    | .ok _ => none
    | .error mismatch => (tryAll s expected documents).map ((actual, mismatch) :: ·)

def wantedId? : Value → Option Value
  | .object fields => Fields.get? "_id" fields
  | _ => none

def findById (collection : String) (expected id : Value) : Run σ Unit := do
  match ← call .storage (runner.services.findById collection id.toJson) with
  | none => throw (.missing collection id.text)
  | some document =>
    let actual := Value.ofJson document
    match compareValues runner.findStrictness actual expected with
    | .ok _ => return ()
    | .error mismatch => throw (.findById collection mismatch actual expected)

def findAny (collection : String) (expected : Value) : Run σ Unit := do
  let documents ← call .storage (runner.services.findAll collection)
  match tryAll runner.findStrictness expected documents with
  | none => return ()
  | some candidates => throw (.notFound collection expected candidates)

/-- A template with an identifier is looked up by it, any other among all documents. -/
def runFind (find : Find) : Run σ Unit := do
  let expected ← runner.evaluate ("<find in " ++ find.collection ++ ">") find.template
  match wantedId? expected with
  | some id => runner.findById find.collection expected id
  | none => runner.findAny find.collection expected

def runFinds : List Find → Run σ Unit
  | [] => return ()
  | find :: finds => do
    runner.runFind find
    runFinds finds

/-- The exchange before becomes `prev`, and that of the case to come is not there yet. -/
def shiftExchange (context : Context) : Context :=
  let prev := Value.object (Fields.ofList
    [("post", (context.local? "post").getD .null), ("out", (context.local? "out").getD .null)])
  ((context.remove "post").remove "out").set "prev" prev

def checkOut (c : Case) (post actual : Value) : Run σ Unit :=
  match c.out with
  | none => return ()
  | some template => do
    let expected ← runner.evaluate "<out>" template
    match compareValues ⟨runner.options.strict, []⟩ actual expected with
    | .ok _ => return ()
    | .error mismatch => throw (.output mismatch post actual expected)

def runCase (document : Document) (c : Case) : Run σ Unit := do
  modify fun world => { world with context := shiftExchange world.context }
  let post ← runner.evaluate "<post>" c.post
  bind "post" post
  let url := runner.options.url (c.endpoint document)
  let response ← call .transport (runner.services.post url post.toJson)
  let actual := Value.ofJson response.body
  bind "out" actual
  if response.status = c.status then do
    runner.checkOut c post actual
    runner.runFinds c.finds
  else throw (.status c.status response.status actual)

def runCases (document : Document) (world : World σ) : List Case → List CaseReport × World σ
  | [] => ([], world)
  | c :: cases =>
    if c.skip then
      let (reports, world) := runCases document world cases
      (⟨c.name, .skipped⟩ :: reports, world)
    else
      let (result, world) := (runner.runCase document c).run.run world
      let outcome : CaseOutcome := match result with
        | .ok _ => .passed
        | .error failure => .failed failure
      let (reports, world) := runCases document world cases
      (⟨c.name, outcome⟩ :: reports, world)

def untried (document : Document) (outcome : CaseOutcome) : List CaseReport :=
  document.cases.map fun c => ⟨c.name, outcome⟩

def execute (document : Document) (state : σ) : Report × σ :=
  if document.skip then (⟨document.name, true, none, untried document .skipped⟩, state)
  else
    match (runner.runSetups document.setups).run.run ⟨state, .ofBase runner.base⟩ with
    | (.error failure, world) =>
      (⟨document.name, false, some failure, untried document .blocked⟩, world.state)
    | (.ok _, world) =>
      let (cases, world) := runner.runCases document world document.cases
      (⟨document.name, false, none, cases⟩, world.state)

end Runner

end ApiContract
