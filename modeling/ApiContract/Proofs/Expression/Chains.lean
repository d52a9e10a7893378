import ApiContract.Proofs.Expression.Grammar

namespace ApiContract.Expression

variable {context : Context} {layer : Layer} {left tree : Tree} {t : Lexeme}
  {ts us rest : List Lexeme}

namespace Layer

/-- The lexemes that an expression of a layer goes on at. -/
def GoesOn (layer : Layer) (t : Lexeme) : Prop :=
  (layer.operator? t).isSome ∨ layer = .access ∧ (t = .symbol '.' ∨ t = .symbol '[')

def trailers : Layer → List Char
  | sum => ['+', '-', '*', '/', '%', '.', '[', '(']
  | product => ['*', '/', '%', '.', '[', '(']
  | signed | access => ['.', '[', '(']
  | primary => ['(']

def starters : Layer → List Char
  | access | primary => ['(', '[', '\x7b']
  | _ => ['(', '[', '\x7b', '-', '!']

def Ends (layer : Layer) (rest : List Lexeme) : Prop :=
  ∀ c ∈ layer.trailers, rest.head? ≠ some (.symbol c)

def Starts (layer : Layer) (t : Lexeme) : Prop := ∀ c, t = .symbol c → c ∈ layer.starters

theorem ends_nil : layer.Ends [] := nofun

theorem ends_symbol {c : Char} (h : c ∉ layer.trailers) : layer.Ends (.symbol c :: ts) := by
  rintro d hd heq
  cases heq
  exact h hd

theorem trailers_below_subset : layer.below.trailers ⊆ layer.trailers := by
  cases layer <;> simp [trailers, Layer.below]

theorem Ends.below (h : layer.Ends rest) : layer.below.Ends rest :=
  fun c hc => h c (trailers_below_subset hc)

theorem exists_mem_trailers_of_goesOn (h : layer.GoesOn t) :
    ∃ c ∈ layer.trailers, t = .symbol c ∧ c ∉ layer.below.trailers := by
  cases layer with
  | sum =>
    obtain h | ⟨h, -⟩ := h
    · simp only [operator?] at h
      unfold sumOperator? at h
      split at h
      · exact ⟨'+', by decide, rfl, by decide⟩
      · exact ⟨'-', by decide, rfl, by decide⟩
      · cases h
    · cases h
  | product =>
    obtain h | ⟨h, -⟩ := h
    · simp only [operator?] at h
      unfold productOperator? at h
      split at h
      · exact ⟨'*', by decide, rfl, by decide⟩
      · exact ⟨'/', by decide, rfl, by decide⟩
      · exact ⟨'%', by decide, rfl, by decide⟩
      · cases h
    · cases h
  | access =>
    obtain h | ⟨-, rfl | rfl⟩ := h
    · cases h
    · exact ⟨'.', by decide, rfl, by decide⟩
    · exact ⟨'[', by decide, rfl, by decide⟩
  | signed | primary => simp [GoesOn, operator?] at h

theorem Ends.not_goesOn (h : layer.Ends rest) : ∀ t ∈ rest.head?, ¬ layer.GoesOn t := by
  intro t ht hgoes
  obtain ⟨c, hc, rfl, -⟩ := exists_mem_trailers_of_goesOn hgoes
  exact h c hc ht

theorem ends_below_of_goesOn (h : layer.GoesOn t) : layer.below.Ends (t :: ts) := by
  obtain ⟨c, -, rfl, hc⟩ := exists_mem_trailers_of_goesOn h
  exact ends_symbol hc

theorem starters_below_subset : layer.below.starters ⊆ layer.starters := by
  cases layer <;> simp [starters, Layer.below]

theorem Starts.of_below (h : layer.below.Starts t) : layer.Starts t :=
  fun c hc => starters_below_subset (h c hc)

end Layer

inductive Chain (context : Context) (layer : Layer) : Tree → List Lexeme → Tree → Prop
  | nil {tree : Tree} : Chain context layer tree [] tree
  | cons {left middle tree : Tree} {ts us : List Lexeme} (step : Step context layer left ts middle)
    (chain : Chain context layer middle us tree) : Chain context layer left (ts ++ us) tree

theorem Chain.append_step {middle : Tree} (h : Chain context layer left ts middle)
    (step : Step context layer middle us tree) : Chain context layer left (ts ++ us) tree := by
  induction h with
  | nil => simpa using Chain.cons step .nil
  | cons first _ ih =>
    rw [List.append_assoc]
    exact .cons first (ih step)

theorem Step.exists_goesOn (h : Step context layer left ts tree) :
    ∃ t us, ts = t :: us ∧ layer.GoesOn t := by
  cases h with
  | operation operates => exact ⟨_, _, rfl, .inl (by simp [operates])⟩
  | member | method => exact ⟨_, _, rfl, .inr ⟨rfl, .inl rfl⟩⟩
  | element => exact ⟨_, _, rfl, .inr ⟨rfl, .inr rfl⟩⟩

theorem Step.length_pos (h : Step context layer left ts tree) : 0 < ts.length := by
  obtain ⟨t, us, rfl, -⟩ := h.exists_goesOn
  simp

/-- A sum, a product or accesses are a first part of the layer below and a chain behind it. -/
theorem Derives.exists_chain (hs : layer ≠ .signed) (hp : layer ≠ .primary)
    (h : Derives context layer ts tree) : ∃ first left behind, ts = first ++ behind ∧
      Derives context layer.below first left ∧ Chain context layer left behind tree := by
  induction hk : ts.length using Nat.strongRecOn generalizing ts tree with
  | ind k ih =>
    cases h with
    | product inner | signed inner | primary inner => exact ⟨ts, tree, [], by simp, inner, .nil⟩
    | access | negation | complement => exact absurd rfl hs
    | @behind _ front us middle _ first step =>
      obtain ⟨_, _, rfl, -⟩ := step.exists_goesOn
      rw [List.length_append, List.length_cons] at hk
      obtain ⟨part, left, behind, rfl, hpart, hchain⟩ := ih front.length (by omega) first rfl
      exact ⟨part, left, _, List.append_assoc .., hpart, hchain.append_step step⟩
    | _ => exact absurd rfl hp

theorem Chain.ends_below (h : Chain context layer left ts tree) (hr : layer.Ends rest) :
    layer.below.Ends (ts ++ rest) := by
  cases h with
  | nil => exact hr.below
  | cons step _ =>
    obtain ⟨t, us, rfl, ht⟩ := step.exists_goesOn
    exact Layer.ends_below_of_goesOn ht

theorem Chain.head_ne_point (h : Chain context .access left ts tree) (hr : Layer.access.Ends rest)
    (hopen : left.IsOpen context) : (ts ++ rest).head? ≠ some (.symbol '.') := by
  cases h with
  | nil =>
    intro hp
    exact hr '.' (by decide) hp
  | cons step _ =>
    cases step with
    | operation operates => cases operates
    | member closed | method closed => exact absurd hopen closed
    | element => simp

theorem not_step_signed : ¬ Step context .signed left ts tree := by
  intro h
  cases h with
  | operation operates => cases operates

theorem not_step_primary : ¬ Step context .primary left ts tree := by
  intro h
  cases h with
  | operation operates => cases operates

theorem Derives.starts_of_below (hs : layer ≠ .signed) (hp : layer ≠ .primary)
    (below : ∀ ts tree, Derives context layer.below ts tree →
      ∃ t us, ts = t :: us ∧ layer.below.Starts t)
    (h : Derives context layer ts tree) : ∃ t us, ts = t :: us ∧ layer.Starts t := by
  obtain ⟨first, left, _, rfl, hfirst, -⟩ := h.exists_chain hs hp
  obtain ⟨t, us, rfl, ht⟩ := below first left hfirst
  exact ⟨t, _, rfl, ht.of_below⟩

theorem Derives.starts (h : Derives context layer ts tree) :
    ∃ t us, ts = t :: us ∧ layer.Starts t := by
  have primary (ts tree) (h : Derives context .primary ts tree) :
      ∃ t us, ts = t :: us ∧ Layer.primary.Starts t := by
    cases h with
    | behind _ step => exact absurd step not_step_primary
    | _ => exact ⟨_, _, rfl, by simp [Layer.Starts, Layer.starters]⟩
  have access (ts tree) (h : Derives context .access ts tree) :
      ∃ t us, ts = t :: us ∧ Layer.access.Starts t :=
    Derives.starts_of_below nofun nofun primary h
  have signed (ts tree) (h : Derives context .signed ts tree) :
      ∃ t us, ts = t :: us ∧ Layer.signed.Starts t := by
    cases h with
    | access inner =>
      obtain ⟨t, us, rfl, ht⟩ := access _ _ inner
      exact ⟨t, us, rfl, Layer.Starts.of_below ht⟩
    | behind _ step => exact absurd step not_step_signed
    | _ => exact ⟨_, _, rfl, by simp [Layer.Starts, Layer.starters]⟩
  have product (ts tree) (h : Derives context .product ts tree) :
      ∃ t us, ts = t :: us ∧ Layer.product.Starts t :=
    Derives.starts_of_below nofun nofun signed h
  cases layer with
  | primary => exact primary ts tree h
  | access => exact access ts tree h
  | signed => exact signed ts tree h
  | product => exact product ts tree h
  | sum => exact Derives.starts_of_below nofun nofun product h

theorem Derives.head_ne (h : Derives context layer ts tree) {c : Char} (hc : c ∉ layer.starters) :
    (ts ++ rest).head? ≠ some (.symbol c) := by
  obtain ⟨t, us, rfl, ht⟩ := h.starts
  rintro heq
  cases heq
  exact hc (ht c rfl)

theorem ArgumentTail.head_ne {trees : List Tree} (h : ArgumentTail context ts trees) :
    (ts ++ rest).head? ≠ some (.symbol ')') := by
  cases h with
  | last inner | more inner =>
    rw [List.append_assoc]
    exact inner.head_ne (by decide)

theorem Arguments.head_eq {trees : List Tree} (h : Arguments context ts trees) :
    (ts ++ rest).head? = Option.some (.symbol '(') := by
  cases h <;> rfl

theorem Derives.of_primary (h : Derives context .primary ts tree) : Derives context .sum ts tree :=
  .product (.signed (.access (.primary h)))

end ApiContract.Expression
