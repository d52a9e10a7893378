namespace ApiContract

variable {ε α β : Type}

/-- The step may use that its element is one of the list. -/
def traverse : (xs : List α) → ((x : α) → x ∈ xs → Except ε β) → Except ε (List β)
  | [], _ => .ok []
  | x :: xs, step =>
    match step x (List.mem_cons_self ..) with
    | .error e => .error e
    | .ok y =>
      match traverse xs fun z h => step z (List.mem_cons_of_mem x h) with
      | .error e => .error e
      | .ok ys => .ok (y :: ys)

end ApiContract
