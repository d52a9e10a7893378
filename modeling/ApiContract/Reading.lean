namespace ApiContract

/-- A value read, and the rest of the input, which is shorter than the bound. -/
structure Reading (σ α : Type) (bound : Nat) where
  value : α
  rest : List σ
  within : rest.length < bound

namespace Reading

variable {σ α β : Type} {n : Nat}

def leaving (value : α) (rest : List σ) : Reading σ α (rest.length + 1) :=
  ⟨value, rest, Nat.lt_succ_self _⟩

def map (f : α → β) (r : Reading σ α n) : Reading σ β n := ⟨f r.value, r.rest, r.within⟩

/-- The same where `k` more elements stand before it. -/
def behind (k : Nat) (r : Reading σ α n) : Reading σ α (n + k) :=
  ⟨r.value, r.rest, Nat.lt_of_lt_of_le r.within (Nat.le_add_right n k)⟩

/-- What is read of the rest, which takes something of it. -/
def before (r : Reading σ α n) (q : Reading σ β r.rest.length) : Reading σ β n :=
  ⟨q.value, q.rest, Nat.lt_trans q.within r.within⟩

/-- What is read of the rest, which may take nothing of it. -/
def extend (r : Reading σ α n) (q : Reading σ β (r.rest.length + 1)) : Reading σ β n :=
  ⟨q.value, q.rest, Nat.lt_of_le_of_lt (Nat.le_of_lt_succ q.within) r.within⟩

def pair (r : Reading σ α n) : α × List σ := (r.value, r.rest)

theorem pair_leaving (value : α) (rest : List σ) : (leaving value rest).pair = (value, rest) := rfl

theorem pair_map (f : α → β) (r : Reading σ α n) : (r.map f).pair = (f r.value, r.rest) := rfl

theorem pair_behind (k : Nat) (r : Reading σ α n) : (r.behind k).pair = r.pair := rfl

end Reading

end ApiContract
