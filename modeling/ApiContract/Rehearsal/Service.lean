import ApiContract.Rehearsal.Store

namespace ApiContract.Rehearsal

/-- What the script has for a request: a message to fail with, or a status and perhaps a body. -/
inductive Cue
  | fail (message : String)
  | respond (status : Nat) (body : Option Json)

structure Service where
  script : List Cue
  requests : List (String × Json)

def Service.post (url : String) (body : Json) : Call Service Response := fun service =>
  let requests := service.requests ++ [(url, body)]
  match service.script with
  | [] => (.ok ⟨200, body⟩, ⟨[], requests⟩)
  | .fail message :: script => (.error message, ⟨script, requests⟩)
  | .respond status answer :: script => (.ok ⟨status, answer.getD body⟩, ⟨script, requests⟩)

structure Stage where
  store : Store
  service : Service

namespace Stage

def onStore {α : Type} (call : Call Store α) : Call Stage α := fun stage =>
  let (answer, store) := call stage.store
  (answer, { stage with store })

def onService {α : Type} (call : Call Service α) : Call Stage α := fun stage =>
  let (answer, service) := call stage.service
  (answer, { stage with service })

def services : Services Stage where
  clear collection := onStore (Store.clear collection)
  insert collection document := onStore (Store.insert collection document)
  findById collection id := onStore (Store.findById collection id)
  findAll collection := onStore (Store.findAll collection)
  post url body := onService (Service.post url body)

def fresh (stage : Stage) : Stage :=
  ⟨{ stage.store with log := [] }, { stage.service with requests := [] }⟩

end Stage

end ApiContract.Rehearsal
