import ApiContract.Proofs.Expression.Readers

namespace ApiContract.Expression

variable {context : Context} {layer : Layer} {left tree : Tree} {front rest : List Lexeme}
  {trees : List Tree} {u v : Value} {vs : List Value}

/-- The layer's reader takes these lexemes in and finds the tree's value. -/
def Complete (context : Context) (layer : Layer) (front : List Lexeme) (tree : Tree) : Prop :=
  ∀ v rest, tree.evaluate context = .ok v → layer.Ends rest →
    Reads (layer.read context (front ++ rest)) v rest

theorem extendName_of_extends {s full : String} (h : Extends context s front full)
    (closed : Opens context full → rest.head? ≠ some (.symbol '.')) :
    (extendName context s (front ++ rest)).pair = (full, rest) := by
  induction h with
  | @done name =>
    rw [List.nil_append]
    unfold extendName
    split
    · split
      · next opens => exact absurd rfl (closed (by simpa [Opens] using opens))
      · rfl
    · rfl
  | more opens _ ih =>
    rw [List.cons_append, List.cons_append, extendName, if_pos (by simpa [Opens] using opens)]
    exact ih closed

theorem Step.exists_evaluate (h : Step context layer left front tree)
    (hv : tree.evaluate context = .ok v) : ∃ u, left.evaluate context = .ok u := by
  cases h with
  | operation =>
    obtain ⟨u, _, hu, -⟩ := Tree.evaluate_binary_eq_ok_iff.mp hv
    exact ⟨u, hu⟩
  | member =>
    obtain ⟨u, hu, -⟩ := Tree.evaluate_member_eq_ok_iff.mp hv
    exact ⟨u, hu⟩
  | method =>
    obtain ⟨u, _, hu, -⟩ := Tree.evaluate_method_eq_ok_iff.mp hv
    exact ⟨u, hu⟩
  | element =>
    obtain ⟨u, _, hu, -⟩ := Tree.evaluate_element_eq_ok_iff.mp hv
    exact ⟨u, hu⟩

theorem Chain.exists_evaluate (h : Chain context layer left front tree)
    (hv : tree.evaluate context = .ok v) : ∃ u, left.evaluate context = .ok u := by
  induction h with
  | nil => exact ⟨v, hv⟩
  | cons step _ ih =>
    obtain ⟨_, hw⟩ := ih hv
    exact step.exists_evaluate hw

section Parts

variable {n : Nat} (complete : ∀ front tree, front.length < n → Derives context .sum front tree →
  Complete context .sum front tree)

include complete

theorem complete_argumentTail (hn : front.length ≤ n) (h : ArgumentTail context front trees)
    (hvs : Tree.evaluateAll context trees = .ok vs) :
    Reads (argumentTail context (front ++ rest)) vs rest := by
  induction hk : front.length using Nat.strongRecOn generalizing front trees vs with
  | ind k ih =>
    refine reads_argumentTail.mpr ?_
    cases h with
    | last inner =>
      obtain ⟨v, _, hv, hnil, rfl⟩ := Tree.evaluateAll_cons_eq_ok_iff.mp hvs
      cases hnil
      rw [List.length_append, List.length_singleton] at hn
      rw [List.append_assoc]
      exact .inr ⟨v, complete _ _ (by omega) inner v _ hv (Layer.ends_symbol (by decide)), rfl⟩
    | @more ts us t args inner tail =>
      obtain ⟨v, values, hv, hvalues, rfl⟩ := Tree.evaluateAll_cons_eq_ok_iff.mp hvs
      rw [List.length_append, List.length_cons] at hn hk
      rw [List.append_assoc]
      exact .inl ⟨v, us ++ rest, values,
        complete _ _ (by omega) inner v _ hv (Layer.ends_symbol (by decide)),
        ih us.length (by omega) (by omega) tail hvalues rfl, rfl⟩

theorem complete_arguments (hn : front.length ≤ n + 1) (h : Arguments context front trees)
    (hvs : Tree.evaluateAll context trees = .ok vs) :
    Reads (arguments context (front ++ rest)) vs rest := by
  refine reads_arguments.mpr ?_
  cases h with
  | none =>
    cases hvs
    exact .inl ⟨rfl, rfl⟩
  | some tail =>
    rw [List.length_cons] at hn
    exact .inr ⟨_, rfl, tail.head_ne, complete_argumentTail complete (by omega) tail hvs⟩

theorem complete_itemTail (hn : front.length ≤ n) (h : Items context front trees)
    (hvs : Tree.evaluateAll context trees = .ok vs) :
    Reads (itemTail context (front ++ rest)) vs rest := by
  induction hk : front.length using Nat.strongRecOn generalizing front trees vs with
  | ind k ih =>
    refine reads_itemTail.mpr ?_
    cases h with
    | none =>
      cases hvs
      exact .inl ⟨rfl, rfl⟩
    | last inner =>
      obtain ⟨v, _, hv, hnil, rfl⟩ := Tree.evaluateAll_cons_eq_ok_iff.mp hvs
      cases hnil
      rw [List.length_append, List.length_singleton] at hn
      rw [List.append_assoc]
      exact .inr ⟨inner.head_ne (by decide), .inr
        ⟨v, complete _ _ (by omega) inner v _ hv (Layer.ends_symbol (by decide)), rfl⟩⟩
    | @more ts us t items inner tail =>
      obtain ⟨v, values, hv, hvalues, rfl⟩ := Tree.evaluateAll_cons_eq_ok_iff.mp hvs
      rw [List.length_append, List.length_cons] at hn hk
      rw [List.append_assoc]
      exact .inr ⟨inner.head_ne (by decide), .inl ⟨v, us ++ rest, values,
        complete _ _ (by omega) inner v _ hv (Layer.ends_symbol (by decide)),
        ih us.length (by omega) (by omega) tail hvalues rfl, rfl⟩⟩

theorem complete_fieldTail {members : List (String × Tree)} {values : List (String × Value)}
    {fields : Fields Value} (hn : front.length ≤ n) (h : Members context front members)
    (hvalues : Tree.evaluateMembers context members = .ok values) :
    Reads (fieldTail context fields (front ++ rest))
      (values.foldl (fun fields m => Fields.set m.1 m.2 fields) fields) rest := by
  induction hk : front.length using Nat.strongRecOn generalizing front members values fields with
  | ind k ih =>
    refine reads_fieldTail.mpr ?_
    cases h with
    | none =>
      cases hvalues
      exact .inl ⟨rfl, rfl⟩
    | @last t key us _ named inner =>
      obtain ⟨v, _, hv, hnil, rfl⟩ := Tree.evaluateMembers_cons_eq_ok_iff.mp hvalues
      cases hnil
      simp only [List.length_cons, List.length_append] at hn
      refine .inr ⟨t, key, us ++ .symbol '\x7d' :: rest, v, _, by simp, named,
        complete _ _ (by omega) inner v _ hv (Layer.ends_symbol (by decide)), .inr ⟨rfl, rfl⟩⟩
    | @more t key us more _ _ named inner tail =>
      obtain ⟨v, values, hv, hmore, rfl⟩ := Tree.evaluateMembers_cons_eq_ok_iff.mp hvalues
      simp only [List.length_cons, List.length_append] at hn hk
      refine .inr ⟨t, key, us ++ .symbol ',' :: (more ++ rest), v, _, by simp, named,
        complete _ _ (by omega) inner v _ hv (Layer.ends_symbol (by decide)), .inl ⟨_, rfl, ?_⟩⟩
      exact ih more.length (by omega) (by omega) tail hmore rfl

theorem complete_primary (hn : front.length ≤ n) (h : Derives context .primary front tree) :
    Complete context .primary front tree := by
  intro v rest hv hrest
  refine reads_primary_iff.mpr ?_
  cases h with
  | behind _ step => exact absurd step not_step_primary
  | number => exact .number (operate_eq_ok_iff.mp hv)
  | text =>
    cases hv
    exact .text
  | constant known =>
    cases hv
    exact .constant known
  | name free reaches =>
    have bound := Tree.evaluate_name_eq_ok_iff.mp hv
    have closed := not_opens_of_resolve? bound
    exact .value free (extendName_of_extends reaches fun opens => absurd opens closed) bound
  | call free reaches arguments =>
    obtain ⟨helper, values, bound, hvalues, result⟩ := Tree.evaluate_call_eq_ok_iff.mp hv
    simp only [List.length_cons, List.length_append] at hn
    rw [List.cons_append, List.append_assoc]
    refine .call free (extendName_of_extends reaches fun _ => ?_) bound
      (complete_arguments complete (by omega) arguments hvalues) result
    simp [arguments.head_eq]
  | group inner =>
    simp only [List.length_cons, List.length_append] at hn
    rw [List.cons_append, List.append_assoc]
    exact .group (complete _ _ (by omega) inner v _ hv (Layer.ends_symbol (by decide)))
  | array inner =>
    obtain ⟨values, hvalues, rfl⟩ := Tree.evaluate_array_eq_ok_iff.mp hv
    rw [List.length_cons] at hn
    exact .array (complete_itemTail complete (by omega) inner hvalues)
  | object inner =>
    obtain ⟨values, hvalues, rfl⟩ := Tree.evaluate_object_eq_ok_iff.mp hv
    rw [List.length_cons] at hn
    exact .object (complete_fieldTail complete (by omega) inner hvalues)

end Parts

section Tails

variable {n : Nat} (complete : ∀ layer front tree, front.length < n →
  Derives context layer front tree → Complete context layer front tree)

include complete

theorem complete_step (hn : front.length ≤ n) (h : Step context layer left front tree)
    (hleft : left.evaluate context = .ok u) (hv : tree.evaluate context = .ok v)
    (hrest : layer.below.Ends rest) : Advances context layer u (front ++ rest) v rest := by
  cases h with
  | operation operates operand =>
    obtain ⟨a, b, ha, hb, result⟩ := Tree.evaluate_binary_eq_ok_iff.mp hv
    cases hleft.symm.trans ha
    exact .operation operates (complete _ _ _ hn operand b rest hb hrest) result
  | member =>
    obtain ⟨a, ha, result⟩ := Tree.evaluate_member_eq_ok_iff.mp hv
    cases hleft.symm.trans ha
    exact .member (hrest '(' (by decide)) result
  | method _ arguments =>
    obtain ⟨a, values, ha, hvalues, result⟩ := Tree.evaluate_method_eq_ok_iff.mp hv
    cases hleft.symm.trans ha
    simp only [List.length_cons] at hn
    exact .method (complete_arguments (complete .sum) (by omega) arguments hvalues) result
  | element inner =>
    obtain ⟨a, i, ha, hi, result⟩ := Tree.evaluate_element_eq_ok_iff.mp hv
    cases hleft.symm.trans ha
    simp only [List.length_cons, List.length_append] at hn
    rw [List.cons_append, List.append_assoc]
    refine .element (complete .sum _ _ (by omega) inner i _ hi ?_) result
    exact Layer.ends_symbol (by decide)

theorem complete_chain (hn : front.length ≤ n) (h : Chain context layer left front tree)
    (hleft : left.evaluate context = .ok u) (hv : tree.evaluate context = .ok v)
    (hrest : layer.Ends rest) : Reads (layer.tail context u (front ++ rest)) v rest := by
  induction h generalizing u with
  | nil =>
    cases hleft.symm.trans hv
    exact reads_tail_iff.mpr (.inr ⟨hrest.not_goesOn, rfl, rfl⟩)
  | cons step chain ih =>
    obtain ⟨w, hw⟩ := chain.exists_evaluate hv
    rw [List.length_append] at hn
    rw [List.append_assoc]
    refine reads_tail_iff.mpr (.inl ⟨w, _, ?_, ih (by omega) hw hv⟩)
    exact complete_step complete (by omega) step hleft hw (chain.ends_below hrest)

theorem Complete.of_below (hs : layer ≠ .signed) (hp : layer ≠ .primary)
    (below : ∀ first left, first.length ≤ n → Derives context layer.below first left →
      Complete context layer.below first left)
    (hn : front.length ≤ n) (h : Derives context layer front tree) :
    Complete context layer front tree := by
  intro v rest hv hrest
  obtain ⟨first, left, behind, rfl, hfirst, hchain⟩ := h.exists_chain hs hp
  obtain ⟨u, hu⟩ := hchain.exists_evaluate hv
  rw [List.length_append] at hn
  rw [List.append_assoc]
  refine (reads_iff_tail hs hp).mpr ⟨u, behind ++ rest, ?_, ?_⟩
  · exact below first left (by omega) hfirst u _ hu (hchain.ends_below hrest)
  · exact complete_chain complete (by omega) hchain hu hv hrest

theorem complete_signed
    (access : ∀ first left, first.length ≤ n → Derives context .access first left →
      Complete context .access first left)
    (hn : front.length ≤ n) (h : Derives context .signed front tree) :
    Complete context .signed front tree := by
  intro v rest hv hrest
  refine reads_signed.mpr ?_
  cases h with
  | behind _ step => exact absurd step not_step_signed
  | negation inner =>
    obtain ⟨u, hu, result⟩ := Tree.evaluate_negation_eq_ok_iff.mp hv
    exact .inl ⟨_, u, rfl, complete .signed _ _ hn inner u rest hu hrest, result⟩
  | complement inner =>
    obtain ⟨u, hu, rfl⟩ := Tree.evaluate_complement_eq_ok_iff.mp hv
    exact .inr (.inl ⟨_, u, rfl, complete .signed _ _ hn inner u rest hu hrest, rfl⟩)
  | access inner => exact .inr (.inr (access _ _ hn inner v rest hv hrest))

end Tails

/-- What has a derivation and a value is taken in, where it ends. -/
theorem complete (h : Derives context layer front tree) : Complete context layer front tree := by
  induction hk : front.length using Nat.strongRecOn generalizing layer front tree with
  | ind k ih =>
    have shorter (layer : Layer) (us : List Lexeme) (tree : Tree) (hus : us.length < k)
        (h : Derives context layer us tree) : Complete context layer us tree :=
      ih us.length hus h rfl
    have primary (us : List Lexeme) (tree : Tree) (hus : us.length ≤ k)
        (h : Derives context .primary us tree) : Complete context .primary us tree :=
      complete_primary (shorter .sum) hus h
    have access (us : List Lexeme) (tree : Tree) (hus : us.length ≤ k)
        (h : Derives context .access us tree) : Complete context .access us tree :=
      .of_below shorter nofun nofun primary hus h
    have signed (us : List Lexeme) (tree : Tree) (hus : us.length ≤ k)
        (h : Derives context .signed us tree) : Complete context .signed us tree :=
      complete_signed shorter access hus h
    have product (us : List Lexeme) (tree : Tree) (hus : us.length ≤ k)
        (h : Derives context .product us tree) : Complete context .product us tree :=
      .of_below shorter nofun nofun signed hus h
    cases layer with
    | primary => exact primary front tree (Nat.le_of_eq hk) h
    | access => exact access front tree (Nat.le_of_eq hk) h
    | signed => exact signed front tree (Nat.le_of_eq hk) h
    | product => exact product front tree (Nat.le_of_eq hk) h
    | sum => exact .of_below shorter nofun nofun product (Nat.le_of_eq hk) h

end ApiContract.Expression
