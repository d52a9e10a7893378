import ApiContract.Run.Services

namespace ApiContract.Rehearsal

structure Store where
  collections : Fields (List Json)
  /-- identifiers to assign, by the number of the insertion -/
  ids : List Json
  /-- entries of the log at which an operation fails -/
  failing : List String
  inserted : Nat
  log : List String

namespace Store

def documents (store : Store) (collection : String) : List Json :=
  (Fields.get? collection store.collections).getD []

def withDocuments (store : Store) (collection : String) (documents : List Json) : Store :=
  { store with collections := Fields.set collection documents store.collections }

/-- Log an operation, and go on with it unless it is one to fail. -/
def logged {α : Type} (entry : String) (operation : Call Store α) : Call Store α := fun store =>
  let store := { store with log := store.log ++ [entry] }
  if store.failing.contains entry then (.error ("cannot " ++ entry), store) else operation store

def clear (collection : String) : Call Store Unit :=
  logged ("clear " ++ collection) fun store => (.ok (), store.withDocuments collection [])

/-- The number of an insertion as twenty-four digits. -/
def numberedId (number : Nat) : Json :=
  let digits := Text.hexDigits number
  .string (String.ofList (List.replicate (24 - digits.length) '0' ++ digits))

def nextId (store : Store) : Json :=
  (store.ids[store.inserted]?).getD (numberedId (store.inserted + 1))

def identified (id : Json) (fields : Fields Json) : Json × Fields Json :=
  match Fields.get? "_id" fields with
  | some own => (own, fields)
  | none => (id, Fields.set "_id" id fields)

def insert (collection : String) (document : Json) : Call Store Json :=
  logged ("insert " ++ collection) fun store =>
    match document with
    | .object fields =>
      let (id, fields) := identified store.nextId fields
      let documents := store.documents collection ++ [.object fields]
      (.ok id, { store.withDocuments collection documents with inserted := store.inserted + 1 })
    | _ => (.error "documents must be objects", store)

def idOf (document : Json) : Json := (document.field? "_id").getD .null

def findById (collection : String) (id : Json) : Call Store (Option Json) :=
  logged ("find " ++ collection) fun store =>
    (.ok ((store.documents collection).find? fun document => (idOf document).same id), store)

def findAll (collection : String) : Call Store (List Json) :=
  logged ("scan " ++ collection) fun store => (.ok (store.documents collection), store)

end Store

end ApiContract.Rehearsal
