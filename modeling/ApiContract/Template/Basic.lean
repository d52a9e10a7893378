import ApiContract.Fields
import ApiContract.Path

namespace ApiContract

/-- What stands under a key or path. An optional slot is left out when its value is null. -/
structure Slot (α : Type) where
  optional : Bool
  value : α

/-- A value described by an expression, by its items or members, or by a mixin, which edits a value
that is there already. -/
inductive Template
  | expression (source : String)
  | array (items : List Template)
  | object (entries : List (String × Slot Template))
  | mixin (base : Path) (removals : List Path) (additions : List (Path × Slot Template))

namespace Template

def empty : Template := object []

def isEmpty : Template → Bool
  | object [] => true
  | _ => false

def isMixin : Template → Bool
  | mixin .. => true
  | _ => false

mutual

def same : Template → Template → Bool
  | expression a, expression b => a == b
  | array a, array b => sameItems a b
  | object a, object b => sameEntries a b
  | mixin a r s, mixin b t u => a == b && r == t && sameAdditions s u
  | _, _ => false

def sameItems : List Template → List Template → Bool
  | [], [] => true
  | a :: as, b :: bs => a.same b && sameItems as bs
  | _, _ => false

def sameEntries : List (String × Slot Template) → List (String × Slot Template) → Bool
  | [], [] => true
  | (j, ⟨o, a⟩) :: as, (k, ⟨p, b⟩) :: bs => j == k && o == p && a.same b && sameEntries as bs
  | _, _ => false

def sameAdditions : List (Path × Slot Template) → List (Path × Slot Template) → Bool
  | [], [] => true
  | (j, ⟨o, a⟩) :: as, (k, ⟨p, b⟩) :: bs => j == k && o == p && a.same b && sameAdditions as bs
  | _, _ => false

end

end Template

end ApiContract
