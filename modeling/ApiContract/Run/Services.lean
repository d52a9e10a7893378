import ApiContract.Json

namespace ApiContract

structure Response where
  status : Nat
  body : Json

/-- A call changes the state whether it succeeds or fails with a message of its own. -/
abbrev Call (σ α : Type) := σ → Except String α × σ

structure Services (σ : Type) where
  clear : (collection : String) → Call σ Unit
  /-- answers the identifier that the document is stored under -/
  insert : (collection : String) → (document : Json) → Call σ Json
  findById : (collection : String) → (id : Json) → Call σ (Option Json)
  findAll : (collection : String) → Call σ (List Json)
  post : (url : String) → (body : Json) → Call σ Response

end ApiContract
