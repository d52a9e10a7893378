import ApiContract.Proofs.Source.Places
import ApiContract.Proofs.Template.Reading

namespace ApiContract.Template

variable {count : Nat}

namespace Group

/-- A group of lines of the source, which begins at one of them. -/
structure Placed (count : Nat) (group : Group) : Prop where
  lines : Line.Placed count group.lines
  origin : group.origin.Inside count

variable {line : Line} {lines : List Line} {groups : List Group}

variable {opening? : List Char → Option Opening} {seen : List (List Char × Span)}

end Group

namespace Draft

variable {place : Span} {first : Line} {more lines : List Line} {inline : Bool}

end Draft

section Branches

variable {first : Line} {more : List Line} {origin : Span} {inline : Bool}

end Branches

end ApiContract.Template
