import ApiContract.Proofs.Document.Parsing
import ApiContract.Proofs.Template.Places

namespace ApiContract.Document

def Registration.place : Registration → Span
  | cleared place => place
  | inserted place => place

variable {count : Nat} {tokens : List Token} {place : Span}

abbrev Placed (count : Nat) (tokens : List Token) : Prop := ∀ token ∈ tokens, token.Placed count

section Setups

def Prepared.Placed (count : Nat) (prepared : Prepared) : Prop :=
  ∀ member ∈ prepared.registrations, member.2.place.Inside count

variable {prepared next : Prepared} {text : List Char}

end Setups

section Cases

variable {registrations : Registrations}

end Cases

end ApiContract.Document
