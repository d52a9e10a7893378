import ApiContract.Proofs.Expression.Chains

namespace ApiContract.Expression

variable {context : Context} {layer : Layer} {left t₁ t₂ : Tree} {f₁ f₂ r₁ r₂ : List Lexeme}
  {trees₁ trees₂ : List Tree}

def Stops (context : Context) (layer : Layer) (tree : Tree) (rest : List Lexeme) : Prop :=
  layer.Ends rest ∧
    (layer = .primary → tree.IsOpen context → rest.head? ≠ some (.symbol '.'))

/-- Any other expression of the layer at the front of the same lexemes is the same one. -/
def Unique (context : Context) (layer : Layer) (front : List Lexeme) (tree : Tree) : Prop :=
  ∀ front' tree' rest rest', Derives context layer front' tree' → front ++ rest = front' ++ rest' →
    Stops context layer tree rest → Stops context layer tree' rest' →
    tree = tree' ∧ rest = rest'

theorem stops_symbol (hp : layer ≠ .primary) {c : Char} (hc : c ∉ layer.trailers) :
    Stops context layer t₁ (.symbol c :: r₁) :=
  ⟨Layer.ends_symbol hc, fun h => absurd h hp⟩

theorem Chain.stops_below (hp : layer ≠ .primary) (h : Chain context layer left f₁ t₁)
    (hr : layer.Ends r₁) : Stops context layer.below left (f₁ ++ r₁) := by
  refine ⟨h.ends_below hr, fun hbelow hopen => ?_⟩
  cases layer with
  | access => exact h.head_ne_point hr hopen
  | primary => exact absurd rfl hp
  | sum | product | signed => cases hbelow

theorem Extends.unique {s full₁ full₂ : String} (h₁ : Extends context s f₁ full₁)
    (h₂ : Extends context s f₂ full₂) (h : f₁ ++ r₁ = f₂ ++ r₂)
    (closed₁ : Opens context full₁ → r₁.head? ≠ some (.symbol '.'))
    (closed₂ : Opens context full₂ → r₂.head? ≠ some (.symbol '.')) :
    full₁ = full₂ ∧ r₁ = r₂ := by
  induction h₁ generalizing f₂ with
  | done =>
    cases h₂ with
    | done => exact ⟨rfl, h⟩
    | more opens =>
      rw [List.nil_append] at h
      exact absurd (by rw [h]; rfl) (closed₁ opens)
  | more opens _ ih =>
    cases h₂ with
    | done =>
      rw [List.nil_append] at h
      exact absurd (by rw [← h]; rfl) (closed₂ opens)
    | more _ rest =>
      simp only [List.cons_append, List.cons.injEq, Lexeme.name.injEq, true_and] at h
      obtain ⟨rfl, h⟩ := h
      exact ih rest h closed₁

section Parts

variable {n : Nat} (unique : ∀ front tree, front.length < n → Derives context .sum front tree →
  Unique context .sum front tree)

include unique

theorem unique_before_symbol {c d : Char} (hc : c ∉ Layer.sum.trailers)
    (hd : d ∉ Layer.sum.trailers) (hn : f₁.length < n) (h₁ : Derives context .sum f₁ t₁)
    (h₂ : Derives context .sum f₂ t₂) (h : f₁ ++ .symbol c :: r₁ = f₂ ++ .symbol d :: r₂) :
    t₁ = t₂ ∧ c = d ∧ r₁ = r₂ := by
  obtain ⟨ht, hr⟩ :=
    unique f₁ t₁ hn h₁ _ _ _ _ h₂ h (stops_symbol (by decide) hc) (stops_symbol (by decide) hd)
  cases hr
  exact ⟨ht, rfl, rfl⟩

theorem unique_argumentTail (hn : f₁.length ≤ n) (h₁ : ArgumentTail context f₁ trees₁)
    (h₂ : ArgumentTail context f₂ trees₂) (h : f₁ ++ r₁ = f₂ ++ r₂) :
    trees₁ = trees₂ ∧ r₁ = r₂ := by
  induction hk : f₁.length using Nat.strongRecOn generalizing f₁ f₂ trees₁ trees₂ with
  | ind k ih =>
    cases h₁ with
    | last inner =>
      rw [List.length_append, List.length_singleton] at hn
      rw [List.append_assoc] at h
      cases h₂ with
      | last inner' =>
        rw [List.append_assoc] at h
        obtain ⟨rfl, -, hr⟩ :=
          unique_before_symbol unique (by decide) (by decide) (by omega) inner inner' h
        exact ⟨rfl, hr⟩
      | more inner' =>
        rw [List.append_assoc] at h
        obtain ⟨-, hcd, -⟩ :=
          unique_before_symbol unique (by decide) (by decide) (by omega) inner inner' h
        cases hcd
    | @more _ us _ _ inner tail =>
      rw [List.length_append, List.length_cons] at hn hk
      rw [List.append_assoc] at h
      cases h₂ with
      | last inner' =>
        rw [List.append_assoc] at h
        obtain ⟨-, hcd, -⟩ :=
          unique_before_symbol unique (by decide) (by decide) (by omega) inner inner' h
        cases hcd
      | more inner' tail' =>
        rw [List.append_assoc] at h
        obtain ⟨rfl, -, hr⟩ :=
          unique_before_symbol unique (by decide) (by decide) (by omega) inner inner' h
        obtain ⟨rfl, rfl⟩ := ih us.length (by omega) (by omega) tail tail' hr rfl
        exact ⟨rfl, rfl⟩

theorem unique_arguments (hn : f₁.length ≤ n + 1) (h₁ : Arguments context f₁ trees₁)
    (h₂ : Arguments context f₂ trees₂) (h : f₁ ++ r₁ = f₂ ++ r₂) :
    trees₁ = trees₂ ∧ r₁ = r₂ := by
  cases h₁ with
  | none =>
    cases h₂ with
    | none => exact ⟨rfl, by simpa using h⟩
    | some tail =>
      simp only [List.cons_append, List.nil_append, List.cons.injEq, true_and] at h
      exact absurd (by rw [← h]; rfl) tail.head_ne
  | some tail =>
    rw [List.length_cons] at hn
    cases h₂ with
    | none =>
      simp only [List.cons_append, List.nil_append, List.cons.injEq, true_and] at h
      exact absurd (by rw [h]; rfl) tail.head_ne
    | some tail' => exact unique_argumentTail unique (by omega) tail tail' (List.cons.inj h).2

theorem unique_itemTail (hn : f₁.length ≤ n) (h₁ : Items context f₁ trees₁)
    (h₂ : Items context f₂ trees₂) (h : f₁ ++ r₁ = f₂ ++ r₂) :
    trees₁ = trees₂ ∧ r₁ = r₂ := by
  induction hk : f₁.length using Nat.strongRecOn generalizing f₁ f₂ trees₁ trees₂ with
  | ind k ih =>
    cases h₁ with
    | none =>
      cases h₂ with
      | none => exact ⟨rfl, (List.cons.inj h).2⟩
      | last inner | more inner =>
        rw [List.append_assoc] at h
        exact absurd (by rw [← h]; rfl) (inner.head_ne (by decide))
    | last inner =>
      rw [List.length_append, List.length_singleton] at hn
      rw [List.append_assoc] at h
      cases h₂ with
      | none => exact absurd (by rw [h]; rfl) (inner.head_ne (by decide))
      | last inner' =>
        rw [List.append_assoc] at h
        obtain ⟨rfl, -, hr⟩ :=
          unique_before_symbol unique (by decide) (by decide) (by omega) inner inner' h
        exact ⟨rfl, hr⟩
      | more inner' =>
        rw [List.append_assoc] at h
        obtain ⟨-, hcd, -⟩ :=
          unique_before_symbol unique (by decide) (by decide) (by omega) inner inner' h
        cases hcd
    | @more _ us _ _ inner tail =>
      rw [List.length_append, List.length_cons] at hn hk
      rw [List.append_assoc] at h
      cases h₂ with
      | none => exact absurd (by rw [h]; rfl) (inner.head_ne (by decide))
      | last inner' =>
        rw [List.append_assoc] at h
        obtain ⟨-, hcd, -⟩ :=
          unique_before_symbol unique (by decide) (by decide) (by omega) inner inner' h
        cases hcd
      | more inner' tail' =>
        rw [List.append_assoc] at h
        obtain ⟨rfl, -, hr⟩ :=
          unique_before_symbol unique (by decide) (by decide) (by omega) inner inner' h
        obtain ⟨rfl, rfl⟩ := ih us.length (by omega) (by omega) tail tail' hr rfl
        exact ⟨rfl, rfl⟩

theorem unique_members {members₁ members₂ : List (String × Tree)} (hn : f₁.length ≤ n)
    (h₁ : Members context f₁ members₁) (h₂ : Members context f₂ members₂)
    (h : f₁ ++ r₁ = f₂ ++ r₂) : members₁ = members₂ ∧ r₁ = r₂ := by
  induction hk : f₁.length using Nat.strongRecOn generalizing f₁ f₂ members₁ members₂ with
  | ind k ih =>
    cases h₁ with
    | none =>
      cases h₂ with
      | none => exact ⟨rfl, (List.cons.inj h).2⟩
      | last named | more named =>
        cases (List.cons.inj h).1
        cases named
    | last named inner =>
      simp only [List.length_cons, List.length_append] at hn
      simp only [List.cons_append, List.append_assoc] at h
      cases h₂ with
      | none =>
        cases (List.cons.inj h).1
        cases named
      | last named' inner' =>
        simp only [List.cons_append, List.append_assoc, List.cons.injEq, true_and] at h
        obtain ⟨rfl, h⟩ := h
        cases named.symm.trans named'
        obtain ⟨rfl, -, hr⟩ :=
          unique_before_symbol unique (by decide) (by decide) (by omega) inner inner' h
        exact ⟨rfl, hr⟩
      | more named' inner' =>
        simp only [List.cons_append, List.append_assoc, List.cons.injEq, true_and] at h
        obtain ⟨-, hcd, -⟩ :=
          unique_before_symbol unique (by decide) (by decide) (by omega) inner inner' h.2
        cases hcd
    | @more _ _ _ us _ _ named inner tail =>
      simp only [List.length_cons, List.length_append] at hn hk
      simp only [List.cons_append, List.append_assoc] at h
      cases h₂ with
      | none =>
        cases (List.cons.inj h).1
        cases named
      | last named' inner' =>
        simp only [List.cons_append, List.append_assoc, List.cons.injEq, true_and] at h
        obtain ⟨-, hcd, -⟩ :=
          unique_before_symbol unique (by decide) (by decide) (by omega) inner inner' h.2
        cases hcd
      | more named' inner' tail' =>
        simp only [List.cons_append, List.append_assoc, List.cons.injEq, true_and] at h
        obtain ⟨rfl, h⟩ := h
        cases named.symm.trans named'
        obtain ⟨rfl, -, hr⟩ :=
          unique_before_symbol unique (by decide) (by decide) (by omega) inner inner' h
        obtain ⟨rfl, rfl⟩ := ih us.length (by omega) (by omega) tail tail' hr rfl
        exact ⟨rfl, rfl⟩

theorem unique_primary (hn : f₁.length ≤ n) (h₁ : Derives context .primary f₁ t₁) :
    Unique context .primary f₁ t₁ := by
  intro f₂ t₂ r₁ r₂ h₂ h stops₁ stops₂
  have point₁ := stops₁.2 rfl
  have point₂ := stops₂.2 rfl
  have paren₁ := stops₁.1 '(' (by decide)
  have paren₂ := stops₂.1 '(' (by decide)
  cases h₂ with
  | behind _ step => exact absurd step not_step_primary
  | number =>
    cases h₁ with
    | behind _ step => exact absurd step not_step_primary
    | number =>
      cases h
      exact ⟨rfl, rfl⟩
    | _ => cases (List.cons.inj h).1
  | text =>
    cases h₁ with
    | behind _ step => exact absurd step not_step_primary
    | text =>
      cases h
      exact ⟨rfl, rfl⟩
    | _ => cases (List.cons.inj h).1
  | constant known' =>
    cases h₁ with
    | behind _ step => exact absurd step not_step_primary
    | constant known =>
      cases h
      cases known.symm.trans known'
      exact ⟨rfl, rfl⟩
    | name free | call free =>
      cases (List.cons.inj h).1
      cases free.symm.trans known'
    | _ => cases (List.cons.inj h).1
  | name free' reaches' =>
    cases h₁ with
    | behind _ step => exact absurd step not_step_primary
    | constant known =>
      cases (List.cons.inj h).1
      cases known.symm.trans free'
    | name free reaches =>
      simp only [List.cons_append, List.cons.injEq, Lexeme.name.injEq] at h
      obtain ⟨rfl, h⟩ := h
      obtain ⟨rfl, rfl⟩ := reaches.unique reaches' h point₁ point₂
      exact ⟨rfl, rfl⟩
    | call free reaches arguments =>
      simp only [List.cons_append, List.append_assoc, List.cons.injEq, Lexeme.name.injEq] at h
      obtain ⟨rfl, h⟩ := h
      obtain ⟨-, hr⟩ := reaches.unique reaches' h (fun _ => by simp [arguments.head_eq]) point₂
      exact absurd (by rw [← hr, arguments.head_eq]) paren₂
    | _ => cases (List.cons.inj h).1
  | call free' reaches' arguments' =>
    cases h₁ with
    | behind _ step => exact absurd step not_step_primary
    | constant known =>
      cases (List.cons.inj h).1
      cases known.symm.trans free'
    | name free reaches =>
      simp only [List.cons_append, List.append_assoc, List.cons.injEq, Lexeme.name.injEq] at h
      obtain ⟨rfl, h⟩ := h
      obtain ⟨-, hr⟩ := reaches.unique reaches' h point₁ (fun _ => by simp [arguments'.head_eq])
      exact absurd (by rw [hr, arguments'.head_eq]) paren₁
    | call free reaches arguments =>
      simp only [List.length_cons, List.length_append] at hn
      simp only [List.cons_append, List.append_assoc, List.cons.injEq, Lexeme.name.injEq] at h
      obtain ⟨rfl, h⟩ := h
      obtain ⟨rfl, h⟩ := reaches.unique reaches' h (fun _ => by simp [arguments.head_eq])
        (fun _ => by simp [arguments'.head_eq])
      obtain ⟨rfl, rfl⟩ := unique_arguments unique (by omega) arguments arguments' h
      exact ⟨rfl, rfl⟩
    | _ => cases (List.cons.inj h).1
  | group inner' =>
    cases h₁ with
    | behind _ step => exact absurd step not_step_primary
    | group inner =>
      simp only [List.length_cons, List.length_append] at hn
      simp only [List.cons_append, List.append_assoc, List.cons.injEq, true_and] at h
      obtain ⟨rfl, -, rfl⟩ :=
        unique_before_symbol unique (by decide) (by decide) (by omega) inner inner' h
      exact ⟨rfl, rfl⟩
    | _ => cases (List.cons.inj h).1
  | array inner' =>
    cases h₁ with
    | behind _ step => exact absurd step not_step_primary
    | array inner =>
      rw [List.length_cons] at hn
      obtain ⟨rfl, rfl⟩ := unique_itemTail unique (by omega) inner inner' (List.cons.inj h).2
      exact ⟨rfl, rfl⟩
    | _ => cases (List.cons.inj h).1
  | object inner' =>
    cases h₁ with
    | behind _ step => exact absurd step not_step_primary
    | object inner =>
      rw [List.length_cons] at hn
      obtain ⟨rfl, rfl⟩ := unique_members unique (by omega) inner inner' (List.cons.inj h).2
      exact ⟨rfl, rfl⟩
    | _ => cases (List.cons.inj h).1

end Parts

section Tails

variable {n : Nat} (unique : ∀ layer front tree, front.length < n →
  Derives context layer front tree → Unique context layer front tree)

include unique

theorem unique_step (hn : f₁.length ≤ n) (h₁ : Step context layer left f₁ t₁)
    (h₂ : Step context layer left f₂ t₂) (h : f₁ ++ r₁ = f₂ ++ r₂)
    (ends₁ : layer.below.Ends r₁) (ends₂ : layer.below.Ends r₂) : t₁ = t₂ ∧ r₁ = r₂ := by
  cases h₁ with
  | operation operates operand =>
    cases h₂ with
    | operation operates' operand' =>
      have hp : layer.below ≠ .primary := by
        cases layer <;> first | cases operates | decide
      simp only [List.cons_append, List.cons.injEq] at h
      obtain ⟨rfl, h⟩ := h
      cases operates.symm.trans operates'
      obtain ⟨rfl, rfl⟩ := unique _ _ _ hn operand _ _ _ _ operand' h
        ⟨ends₁, fun hb => absurd hb hp⟩ ⟨ends₂, fun hb => absurd hb hp⟩
      exact ⟨rfl, rfl⟩
    | _ => cases operates
  | member =>
    cases h₂ with
    | operation operates' => cases operates'
    | member =>
      cases h
      exact ⟨rfl, rfl⟩
    | method _ arguments' =>
      simp only [List.cons_append, List.nil_append, List.cons.injEq] at h
      exact absurd (by rw [h.2.2, arguments'.head_eq]) (ends₁ '(' (by decide))
    | element => cases (List.cons.inj h).1
  | method _ arguments =>
    cases h₂ with
    | operation operates' => cases operates'
    | member =>
      simp only [List.cons_append, List.nil_append, List.cons.injEq] at h
      exact absurd (by rw [← h.2.2, arguments.head_eq]) (ends₂ '(' (by decide))
    | method _ arguments' =>
      simp only [List.length_cons] at hn
      simp only [List.cons_append, List.cons.injEq, Lexeme.name.injEq, true_and] at h
      obtain ⟨rfl, h⟩ := h
      obtain ⟨rfl, rfl⟩ :=
        unique_arguments (unique .sum) (by omega) arguments arguments' h
      exact ⟨rfl, rfl⟩
    | element => cases (List.cons.inj h).1
  | element inner =>
    cases h₂ with
    | operation operates' => cases operates'
    | element inner' =>
      simp only [List.length_cons, List.length_append] at hn
      simp only [List.cons_append, List.append_assoc, List.cons.injEq, true_and] at h
      obtain ⟨rfl, -, rfl⟩ :=
        unique_before_symbol (unique .sum) (by decide) (by decide) (by omega) inner inner' h
      exact ⟨rfl, rfl⟩
    | _ => cases (List.cons.inj h).1

theorem unique_chain (hn : f₁.length ≤ n) (h₁ : Chain context layer left f₁ t₁)
    (h₂ : Chain context layer left f₂ t₂)
    (h : f₁ ++ r₁ = f₂ ++ r₂) (ends₁ : layer.Ends r₁) (ends₂ : layer.Ends r₂) :
    t₁ = t₂ ∧ r₁ = r₂ := by
  induction h₁ generalizing f₂ with
  | nil =>
    cases h₂ with
    | nil => exact ⟨rfl, h⟩
    | cons step =>
      obtain ⟨t, us, rfl, ht⟩ := step.exists_goesOn
      rw [List.nil_append] at h
      exact absurd ht (ends₁.not_goesOn t (by rw [h]; rfl))
  | cons step chain ih =>
    cases h₂ with
    | nil =>
      obtain ⟨t, us, rfl, ht⟩ := step.exists_goesOn
      rw [List.nil_append] at h
      exact absurd ht (ends₂.not_goesOn t (by rw [← h]; rfl))
    | cons step' chain' =>
      rw [List.length_append] at hn
      rw [List.append_assoc, List.append_assoc] at h
      obtain ⟨rfl, h⟩ := unique_step unique (by omega) step step' h (chain.ends_below ends₁)
        (chain'.ends_below ends₂)
      exact ih (by omega) chain' h

theorem Unique.of_below (hs : layer ≠ .signed) (hp : layer ≠ .primary)
    (below : ∀ first left, first.length ≤ n → Derives context layer.below first left →
      Unique context layer.below first left)
    (hn : f₁.length ≤ n) (h₁ : Derives context layer f₁ t₁) : Unique context layer f₁ t₁ := by
  intro f₂ t₂ r₁ r₂ h₂ h stops₁ stops₂
  obtain ⟨first, left, behind, rfl, hfirst, hchain⟩ := h₁.exists_chain hs hp
  obtain ⟨first', left', behind', rfl, hfirst', hchain'⟩ := h₂.exists_chain hs hp
  rw [List.length_append] at hn
  rw [List.append_assoc, List.append_assoc] at h
  obtain ⟨rfl, h⟩ := below first left (by omega) hfirst _ _ _ _ hfirst' h
    (hchain.stops_below hp stops₁.1) (hchain'.stops_below hp stops₂.1)
  exact unique_chain unique (by omega) hchain hchain' h stops₁.1 stops₂.1

theorem unique_signed
    (access : ∀ first left, first.length ≤ n → Derives context .access first left →
      Unique context .access first left)
    (hn : f₁.length ≤ n) (h₁ : Derives context .signed f₁ t₁) :
    Unique context .signed f₁ t₁ := by
  intro f₂ t₂ r₁ r₂ h₂ h stops₁ stops₂
  cases h₁ with
  | behind _ step => exact absurd step not_step_signed
  | negation inner =>
    cases h₂ with
    | behind _ step => exact absurd step not_step_signed
    | negation inner' =>
      obtain ⟨rfl, rfl⟩ := unique .signed _ _ hn inner _ _ _ _ inner' (List.cons.inj h).2
        ⟨stops₁.1, nofun⟩ ⟨stops₂.1, nofun⟩
      exact ⟨rfl, rfl⟩
    | complement => cases (List.cons.inj h).1
    | access inner' => exact absurd (by rw [← h]; rfl) (inner'.head_ne (by decide))
  | complement inner =>
    cases h₂ with
    | behind _ step => exact absurd step not_step_signed
    | negation => cases (List.cons.inj h).1
    | complement inner' =>
      obtain ⟨rfl, rfl⟩ := unique .signed _ _ hn inner _ _ _ _ inner' (List.cons.inj h).2
        ⟨stops₁.1, nofun⟩ ⟨stops₂.1, nofun⟩
      exact ⟨rfl, rfl⟩
    | access inner' => exact absurd (by rw [← h]; rfl) (inner'.head_ne (by decide))
  | access inner =>
    cases h₂ with
    | behind _ step => exact absurd step not_step_signed
    | negation | complement => exact absurd (by rw [h]; rfl) (inner.head_ne (by decide))
    | access inner' =>
      exact access _ _ hn inner _ _ _ _ inner' h ⟨stops₁.1, nofun⟩ ⟨stops₂.1, nofun⟩

end Tails

/-- Every derivation has its lexemes for itself, and one tree. -/
theorem unique (h : Derives context layer f₁ t₁) : Unique context layer f₁ t₁ := by
  induction hk : f₁.length using Nat.strongRecOn generalizing layer f₁ t₁ with
  | ind k ih =>
    have shorter (layer : Layer) (us : List Lexeme) (tree : Tree) (hus : us.length < k)
        (h : Derives context layer us tree) : Unique context layer us tree :=
      ih us.length hus h rfl
    have primary (us : List Lexeme) (tree : Tree) (hus : us.length ≤ k)
        (h : Derives context .primary us tree) : Unique context .primary us tree :=
      unique_primary (shorter .sum) hus h
    have access (us : List Lexeme) (tree : Tree) (hus : us.length ≤ k)
        (h : Derives context .access us tree) : Unique context .access us tree :=
      .of_below shorter nofun nofun primary hus h
    have signed (us : List Lexeme) (tree : Tree) (hus : us.length ≤ k)
        (h : Derives context .signed us tree) : Unique context .signed us tree :=
      unique_signed shorter access hus h
    have product (us : List Lexeme) (tree : Tree) (hus : us.length ≤ k)
        (h : Derives context .product us tree) : Unique context .product us tree :=
      .of_below shorter nofun nofun signed hus h
    cases layer with
    | primary => exact primary f₁ t₁ (Nat.le_of_eq hk) h
    | access => exact access f₁ t₁ (Nat.le_of_eq hk) h
    | signed => exact signed f₁ t₁ (Nat.le_of_eq hk) h
    | product => exact product f₁ t₁ (Nat.le_of_eq hk) h
    | sum => exact .of_below shorter nofun nofun product (Nat.le_of_eq hk) h

end ApiContract.Expression
