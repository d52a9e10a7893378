import ApiContract.Proofs.Expression.Chains

namespace ApiContract.Expression

variable {α β : Type} {m n : Nat} {context : Context} {ts us rest : List Lexeme} {u v : Value}
  {vs : List Value}

def Reads (r : Read α n) (a : α) (rest : List Lexeme) : Prop := ∃ h, r = .ok ⟨a, rest, h⟩

theorem reads_ok {q : Reading Lexeme α n} {a : α} :
    Reads (.ok q) a rest ↔ q.value = a ∧ q.rest = rest := by
  obtain ⟨b, mid, h⟩ := q
  simp only [Reads, Except.ok.injEq, Reading.mk.injEq]
  grind

theorem not_reads_error {e : Error} {a : α} : ¬ Reads (.error e : Read α n) a rest := by
  simp [Reads]

theorem Reads.length_lt {r : Read α n} {a : α} (h : Reads r a rest) : rest.length < n := h.1

theorem reads_bind {x : Read β m} {next : Reading Lexeme β m → Read α n} {a : α} :
    Reads (x >>= next) a rest ↔
      ∃ b mid, ∃ r : Reads x b mid, Reads (next ⟨b, mid, r.length_lt⟩) a rest := by
  cases x with
  | error e => simp [Reads, bind, Except.bind]
  | ok q =>
    refine ⟨fun h => ⟨_, _, ⟨q.within, rfl⟩, h⟩, ?_⟩
    rintro ⟨_, _, ⟨_, h⟩, h'⟩
    cases h
    exact h'

theorem operate_ok : operate (.ok v) = .ok v := rfl

theorem operate_error {e : OperationError} : operate (.error e) = .error (.operation e) := rfl

theorem reads_operate {r : Result} {next : Value → Read α n} {a : α} :
    Reads (operate r >>= next) a rest ↔ ∃ b, r = .ok b ∧ Reads (next b) a rest := by
  cases r <;> simp [Reads, bind, Except.bind, operate_ok, operate_error]

theorem reads_expect {c : Char} {w : Unit} :
    Reads (expect c ts) w rest ↔ ts = .symbol c :: rest := by
  cases ts with
  | nil => simp [expect, symbol?, not_reads_error]
  | cons t ts =>
    by_cases h : t = .symbol c <;>
      simp [expect, symbol?, h, reads_ok, not_reads_error, Reading.leaving]

theorem symbol?_eq_none_iff {c : Char} : symbol? c ts = none ↔ ts.head? ≠ some (.symbol c) := by
  cases ts <;> simp [symbol?]

theorem symbol?_symbol {c : Char} :
    symbol? c (.symbol c :: ts) = some (.leaving () ts) := by
  simp [symbol?]

theorem eq_of_symbol? {c : Char} {q : Reading Lexeme Unit ts.length} (h : symbol? c ts = some q) :
    ts = .symbol c :: q.rest := by
  cases ts with
  | nil => cases h
  | cons t ts =>
    rw [symbol?] at h
    split at h
    · next ht =>
      cases h
      rw [ht]
      rfl
    · cases h

namespace Layer

def read (context : Context) : Layer → (ts : List Lexeme) → Read Value ts.length
  | .sum, ts => Expression.sum context ts
  | .product, ts => Expression.product context ts
  | .signed, ts => Expression.signed context ts
  | .access, ts => do
    let first ← Expression.primary context ts
    let whole ← accesses context first.value first.rest
    .ok (first.extend whole)
  | .primary, ts => Expression.primary context ts

def tail (context : Context) : Layer → Value → (ts : List Lexeme) → Read Value (ts.length + 1)
  | .sum, left, ts => sumTail context left ts
  | .product, left, ts => productTail context left ts
  | .access, left, ts => accesses context left ts
  | _, left, ts => .ok (.leaving left ts)

end Layer

inductive Advances (context : Context) : Layer → Value → List Lexeme → Value → List Lexeme → Prop
  | operation {layer : Layer} {t : Lexeme} {operator : Operator} {left right whole : Value}
    {ts rest : List Lexeme} (operates : layer.operator? t = some operator)
    (reads : Reads (layer.below.read context ts) right rest)
    (result : combine operator left right = .ok whole) :
    Advances context layer left (t :: ts) whole rest
  | member {s : String} {left whole : Value} {ts : List Lexeme}
    (uncalled : ts.head? ≠ some (.symbol '(')) (result : member left s = .ok whole) :
    Advances context .access left (.symbol '.' :: .name s :: ts) whole ts
  | method {s : String} {left whole : Value} {args : List Value} {ts rest : List Lexeme}
    (reads : Reads (arguments context ts) args rest)
    (result : callMethod left s args = .ok whole) :
    Advances context .access left (.symbol '.' :: .name s :: ts) whole rest
  | element {left index whole : Value} {ts rest : List Lexeme}
    (reads : Reads (sum context ts) index (.symbol ']' :: rest))
    (result : element left index = .ok whole) :
    Advances context .access left (.symbol '[' :: ts) whole rest

theorem not_advances_nil {layer : Layer} {whole : Value} :
    ¬ Advances context layer u [] whole rest := by
  rintro ⟨⟩

theorem advances_cons_iff {layer : Layer} (h : layer ≠ .access) {t : Lexeme} {whole : Value} :
    Advances context layer u (t :: ts) whole rest ↔
      ∃ operator right, layer.operator? t = some operator ∧
        Reads (layer.below.read context ts) right rest ∧ combine operator u right = .ok whole := by
  constructor
  · rintro (⟨operates, reads, result⟩ | _ | _ | _)
    · exact ⟨_, _, operates, reads, result⟩
    all_goals exact absurd rfl h
  · rintro ⟨operator, right, operates, reads, result⟩
    exact .operation operates reads result

theorem reads_argumentTail : Reads (argumentTail context ts) vs rest ↔
    (∃ first mid others, Reads (sum context ts) first (.symbol ',' :: mid) ∧
      Reads (argumentTail context mid) others rest ∧ first :: others = vs) ∨
    ∃ last, Reads (sum context ts) last (.symbol ')' :: rest) ∧ [last] = vs := by
  rw [argumentTail]
  simp only [reads_bind]
  constructor
  · rintro ⟨first, mid, hfirst, h⟩
    split at h
    · next comma hcomma =>
      simp only [reads_bind, reads_ok, Reading.before, Reading.map] at h
      obtain ⟨others, _, hothers, rfl, rfl⟩ := h
      rw [eq_of_symbol? hcomma] at hfirst
      exact .inl ⟨first, comma.rest, others, hfirst, hothers, rfl⟩
    · simp only [reads_bind, reads_ok, Reading.before, Reading.map] at h
      obtain ⟨_, _, hclose, rfl, rfl⟩ := h
      rw [reads_expect.mp hclose] at hfirst
      exact .inr ⟨first, hfirst, rfl⟩
  · rintro (⟨first, mid, others, hfirst, hothers, rfl⟩ | ⟨last, hlast, rfl⟩)
    · refine ⟨first, _, hfirst, ?_⟩
      simp only [symbol?_symbol, reads_bind, reads_ok, Reading.before, Reading.map]
      exact ⟨others, rest, hothers, rfl, rfl⟩
    · refine ⟨last, _, hlast, ?_⟩
      simp only [symbol?, Lexeme.symbol.injEq, Char.reduceEq, if_false, reads_bind, reads_ok,
        Reading.before, Reading.map]
      exact ⟨(), rest, reads_expect.mpr rfl, trivial, rfl⟩

theorem reads_arguments : Reads (arguments context ts) vs rest ↔
    (ts = .symbol '(' :: .symbol ')' :: rest ∧ [] = vs) ∨
    ∃ us, ts = .symbol '(' :: us ∧ us.head? ≠ some (.symbol ')') ∧
      Reads (argumentTail context us) vs rest := by
  rw [arguments]
  simp only [reads_bind]
  constructor
  · rintro ⟨_, mid, hopen, h⟩
    obtain rfl := reads_expect.mp hopen
    split at h
    · next close hclose =>
      simp only [reads_ok, Reading.before, Reading.map] at h
      obtain ⟨rfl, rfl⟩ := h
      exact .inl ⟨congrArg _ (eq_of_symbol? hclose), rfl⟩
    · next hclose =>
      simp only [reads_bind, reads_ok, Reading.before] at h
      obtain ⟨_, _, hargs, rfl, rfl⟩ := h
      exact .inr ⟨mid, rfl, symbol?_eq_none_iff.mp hclose, hargs⟩
  · rintro (⟨rfl, rfl⟩ | ⟨us, rfl, hus, h⟩)
    · refine ⟨(), _, reads_expect.mpr rfl, ?_⟩
      simp only [symbol?_symbol, reads_ok, Reading.before, Reading.map]
      exact ⟨trivial, rfl⟩
    · refine ⟨(), _, reads_expect.mpr rfl, ?_⟩
      simp only [symbol?_eq_none_iff.mpr hus, reads_bind, reads_ok, Reading.before]
      exact ⟨vs, rest, h, rfl, rfl⟩

theorem reads_itemTail : Reads (itemTail context ts) vs rest ↔
    (ts = .symbol ']' :: rest ∧ [] = vs) ∨
    ts.head? ≠ some (.symbol ']') ∧
      ((∃ first mid others, Reads (sum context ts) first (.symbol ',' :: mid) ∧
        Reads (itemTail context mid) others rest ∧ first :: others = vs) ∨
      ∃ last, Reads (sum context ts) last (.symbol ']' :: rest) ∧ [last] = vs) := by
  rw [itemTail]
  constructor
  · intro h
    split at h
    · next close hclose =>
      simp only [reads_ok, Reading.map] at h
      obtain ⟨rfl, rfl⟩ := h
      exact .inl ⟨eq_of_symbol? hclose, rfl⟩
    · next hclose =>
      refine .inr ⟨symbol?_eq_none_iff.mp hclose, ?_⟩
      obtain ⟨first, mid, hfirst, h⟩ := reads_bind.mp h
      split at h
      · next comma hcomma =>
        simp only [reads_bind, reads_ok, Reading.before, Reading.map] at h
        obtain ⟨others, _, hothers, rfl, rfl⟩ := h
        exact .inl ⟨first, comma.rest, others, eq_of_symbol? hcomma ▸ hfirst, hothers, rfl⟩
      · simp only [reads_bind, reads_ok, Reading.before, Reading.map] at h
        obtain ⟨_, _, hclose, rfl, rfl⟩ := h
        rw [reads_expect.mp hclose] at hfirst
        exact .inr ⟨first, hfirst, rfl⟩
  · rintro (⟨rfl, rfl⟩ | ⟨hts, ⟨first, mid, others, hfirst, hothers, rfl⟩ | ⟨last, hlast, rfl⟩⟩)
    · simp only [symbol?_symbol, reads_ok, Reading.map]
      exact ⟨trivial, rfl⟩
    · simp only [symbol?_eq_none_iff.mpr hts, reads_bind]
      refine ⟨first, _, hfirst, ?_⟩
      simp only [symbol?_symbol, reads_bind, reads_ok, Reading.before, Reading.map]
      exact ⟨others, rest, hothers, rfl, rfl⟩
    · simp only [symbol?_eq_none_iff.mpr hts, reads_bind]
      refine ⟨last, _, hlast, ?_⟩
      simp only [symbol?, Lexeme.symbol.injEq, Char.reduceEq, if_false, reads_bind, reads_ok,
        Reading.before, Reading.map]
      exact ⟨(), rest, reads_expect.mpr rfl, trivial, rfl⟩

theorem reads_fieldTail {fields whole : Fields Value} :
    Reads (fieldTail context fields ts) whole rest ↔
      (ts = .symbol '\x7d' :: rest ∧ fields = whole) ∨
      ∃ t key us value mid, ts = t :: .symbol ':' :: us ∧ key? t = some key ∧
        Reads (sum context us) value mid ∧
        ((∃ others, mid = .symbol ',' :: others ∧
          Reads (fieldTail context (Fields.set key value fields) others) whole rest) ∨
        mid = .symbol '\x7d' :: rest ∧ Fields.set key value fields = whole) := by
  rw [fieldTail.eq_def]
  constructor
  · intro h
    split at h
    · simp only [reads_ok, Reading.leaving] at h
      obtain ⟨rfl, rfl⟩ := h
      exact .inl ⟨rfl, rfl⟩
    · next t us _ =>
      split at h
      · exact absurd h not_reads_error
      · next key hkey =>
        simp only [reads_bind] at h
        obtain ⟨_, us, hcolon, value, mid, hvalue, h⟩ := h
        obtain rfl := reads_expect.mp hcolon
        refine .inr ⟨t, key, us, value, mid, rfl, hkey, hvalue, ?_⟩
        split at h
        · next comma hcomma =>
          simp only [reads_bind, reads_ok, Reading.before, Reading.behind] at h
          obtain ⟨_, _, hothers, rfl, rfl⟩ := h
          exact .inl ⟨comma.rest, eq_of_symbol? hcomma, hothers⟩
        · simp only [reads_bind, reads_ok, Reading.before, Reading.behind, Reading.map] at h
          obtain ⟨_, _, hclose, rfl, rfl⟩ := h
          exact .inr ⟨reads_expect.mp hclose, rfl⟩
    · exact absurd h not_reads_error
  · rintro (⟨rfl, rfl⟩ | ⟨t, key, us, value, mid, rfl, hkey, hvalue, h⟩)
    · exact reads_ok.mpr ⟨rfl, rfl⟩
    · cases t <;> cases hkey
      all_goals
        simp only [key?, reads_bind]
        refine ⟨(), _, reads_expect.mpr rfl, value, mid, hvalue, ?_⟩
        obtain ⟨others, rfl, hothers⟩ | ⟨rfl, rfl⟩ := h
        · simp only [symbol?_symbol, reads_bind, reads_ok, Reading.before, Reading.behind]
          exact ⟨whole, rest, hothers, rfl, rfl⟩
        · simp only [symbol?, Lexeme.symbol.injEq, Char.reduceEq, if_false, reads_bind, reads_ok,
            Reading.before, Reading.behind, Reading.map]
          exact ⟨(), rest, reads_expect.mpr rfl, trivial, rfl⟩

inductive Begins (context : Context) : List Lexeme → Value → List Lexeme → Prop
  | number {x : Double} {v : Value} {ts : List Lexeme} (result : finite x = .ok v) :
    Begins context (.number x :: ts) v ts
  | text {s : String} {ts : List Lexeme} : Begins context (.text s :: ts) (.string s) ts
  | constant {s : String} {v : Value} {ts : List Lexeme} (known : constant? s = some v) :
    Begins context (.name s :: ts) v ts
  | value {s full : String} {v : Value} {ts rest : List Lexeme} (free : constant? s = none)
    (reaches : (extendName context s ts).pair = (full, rest))
    (bound : context.resolve? full = some (.value v)) : Begins context (.name s :: ts) v rest
  | call {s full : String} {helper : Helper} {args : List Value} {v : Value}
    {ts mid rest : List Lexeme} (free : constant? s = none)
    (reaches : (extendName context s ts).pair = (full, mid))
    (bound : context.resolve? full = some (.helper helper))
    (reads : Reads (arguments context mid) args rest) (result : helper args = .ok v) :
    Begins context (.name s :: ts) v rest
  | group {v : Value} {ts rest : List Lexeme}
    (reads : Reads (sum context ts) v (.symbol ')' :: rest)) :
    Begins context (.symbol '(' :: ts) v rest
  | array {items : List Value} {ts rest : List Lexeme}
    (reads : Reads (itemTail context ts) items rest) :
    Begins context (.symbol '[' :: ts) (.array items) rest
  | object {fields : Fields Value} {ts rest : List Lexeme}
    (reads : Reads (fieldTail context [] ts) fields rest) :
    Begins context (.symbol '\x7b' :: ts) (.object fields) rest

theorem symbol?_of_reads_arguments (h : Reads (arguments context ts) vs rest) :
    (symbol? '(' ts).isSome = true := by
  obtain ⟨rfl, -⟩ | ⟨us, rfl, -⟩ := reads_arguments.mp h <;> simp [symbol?]

theorem Begins.of_reads_named {s : String} (free : constant? s = none)
    (h : Reads (named context s ts) v rest) : Begins context (.name s :: ts) v rest := by
  rw [named] at h
  split at h
  · next value bound =>
    obtain ⟨rfl, rfl⟩ := reads_ok.mp h
    exact .value free rfl bound
  · next helper bound =>
    split at h
    · obtain ⟨args, mid, hargs, h⟩ := reads_bind.mp h
      split at h
      · next result =>
        obtain ⟨rfl, rfl⟩ := reads_ok.mp h
        exact .call free rfl bound hargs result
      · exact absurd h not_reads_error
    · exact absurd h not_reads_error
  · exact absurd h not_reads_error

theorem Begins.of_reads (h : Reads (primary context ts) v rest) : Begins context ts v rest := by
  rw [primary.eq_def] at h
  split at h
  · obtain ⟨value, result, h⟩ := reads_operate.mp h
    obtain ⟨rfl, rfl⟩ := reads_ok.mp h
    exact .number result
  · obtain ⟨rfl, rfl⟩ := reads_ok.mp h
    exact .text
  · split at h
    · next known =>
      obtain ⟨rfl, rfl⟩ := reads_ok.mp h
      exact .constant known
    · next free => exact .of_reads_named free h
  · simp only [reads_bind, reads_ok, reads_expect] at h
    obtain ⟨_, _, inner, _, _, rfl, rfl, rfl⟩ := h
    exact .group inner
  · obtain ⟨items, _, hitems, h⟩ := reads_bind.mp h
    obtain ⟨rfl, rfl⟩ := reads_ok.mp h
    exact .array hitems
  · obtain ⟨fields, _, hfields, h⟩ := reads_bind.mp h
    obtain ⟨rfl, rfl⟩ := reads_ok.mp h
    exact .object hfields
  · exact absurd h not_reads_error
  · exact absurd h not_reads_error

theorem Begins.reads (h : Begins context ts v rest) : Reads (primary context ts) v rest := by
  cases h with
  | number result =>
    rw [primary]
    exact reads_operate.mpr ⟨_, result, reads_ok.mpr ⟨rfl, rfl⟩⟩
  | text =>
    rw [primary]
    exact reads_ok.mpr ⟨rfl, rfl⟩
  | constant known =>
    rw [primary]
    simp only [known]
    exact reads_ok.mpr ⟨rfl, rfl⟩
  | value free reaches bound =>
    rw [primary]
    simp only [free]
    rw [named]
    cases reaches
    simp only [bound]
    exact reads_ok.mpr ⟨rfl, rfl⟩
  | call free reaches bound args result =>
    rw [primary]
    simp only [free]
    rw [named]
    cases reaches
    simp only [bound, symbol?_of_reads_arguments args, if_true]
    refine reads_bind.mpr ⟨_, _, args, ?_⟩
    simp only [result]
    exact reads_ok.mpr ⟨rfl, rfl⟩
  | group inner =>
    rw [primary]
    refine reads_bind.mpr ⟨_, _, inner, reads_bind.mpr ⟨(), _, reads_expect.mpr rfl, ?_⟩⟩
    exact reads_ok.mpr ⟨rfl, rfl⟩
  | array items =>
    rw [primary]
    exact reads_bind.mpr ⟨_, _, items, reads_ok.mpr ⟨rfl, rfl⟩⟩
  | object fields =>
    rw [primary]
    exact reads_bind.mpr ⟨_, _, fields, reads_ok.mpr ⟨rfl, rfl⟩⟩

theorem reads_primary_iff : Reads (primary context ts) v rest ↔ Begins context ts v rest :=
  ⟨.of_reads, Begins.reads⟩

theorem combine_eq_arithmetic {t : Lexeme} {operator : Operator}
    (h : productOperator? t = some operator) : combine operator = arithmetic operator := by
  funext left right
  unfold productOperator? at h
  split at h <;> cases h <;> simp [combine]

theorem reads_sumTail_cons {t : Lexeme} : Reads (sumTail context u (t :: ts)) v rest ↔
    (∃ whole mid, Advances context .sum u (t :: ts) whole mid ∧
      Reads (sumTail context whole mid) v rest) ∨
    ¬ Layer.sum.GoesOn t ∧ u = v ∧ t :: ts = rest := by
  rw [sumTail]
  simp only [advances_cons_iff (by decide : Layer.sum ≠ .access), Layer.GoesOn,
    Layer.operator?, Layer.below, Layer.read]
  cases sumOperator? t with
  | none => simp [reads_ok, Reading.leaving]
  | some operator =>
    simp only [reads_bind, reads_operate, reads_ok, Reading.extend, Reading.behind,
      exists_and_left, exists_prop, exists_eq_left, exists_eq_left', exists_eq_right, reduceCtorEq,
      Option.some.injEq, Option.isSome_some, not_true_eq_false, false_and, or_false]
    constructor
    · rintro ⟨right, mid, hright, whole, result, hrest⟩
      exact ⟨whole, mid, ⟨right, hright, result⟩, hrest⟩
    · rintro ⟨whole, mid, ⟨right, hright, result⟩, hrest⟩
      exact ⟨right, mid, hright, whole, result, hrest⟩

theorem reads_productTail_cons {t : Lexeme} : Reads (productTail context u (t :: ts)) v rest ↔
    (∃ whole mid, Advances context .product u (t :: ts) whole mid ∧
      Reads (productTail context whole mid) v rest) ∨
    ¬ Layer.product.GoesOn t ∧ u = v ∧ t :: ts = rest := by
  rw [productTail]
  simp only [advances_cons_iff (by decide : Layer.product ≠ .access), Layer.GoesOn,
    Layer.operator?, Layer.below, Layer.read]
  cases h : productOperator? t with
  | none => simp [reads_ok, Reading.leaving]
  | some operator =>
    simp only [← combine_eq_arithmetic h, reads_bind, reads_operate, reads_ok, Reading.extend,
      Reading.behind, exists_and_left, exists_prop, exists_eq_left, exists_eq_left',
      exists_eq_right, reduceCtorEq, Option.some.injEq, Option.isSome_some, not_true_eq_false,
      false_and, or_false]
    constructor
    · rintro ⟨right, mid, hright, whole, result, hrest⟩
      exact ⟨whole, mid, ⟨right, hright, result⟩, hrest⟩
    · rintro ⟨whole, mid, ⟨right, hright, result⟩, hrest⟩
      exact ⟨right, mid, hright, whole, result, hrest⟩

theorem Advances.of_reads_accesses (h : Reads (accesses context u ts) v rest) :
    (∃ whole mid, Advances context .access u ts whole mid ∧
      Reads (accesses context whole mid) v rest) ∨
    (∀ t ∈ ts.head?, ¬ Layer.access.GoesOn t) ∧ u = v ∧ ts = rest := by
  rw [accesses.eq_def] at h
  split at h
  · split at h
    · simp only [reads_bind, reads_operate, reads_ok, Reading.extend, Reading.behind] at h
      obtain ⟨args, mid, hargs, whole, result, _, _, hrest, rfl, rfl⟩ := h
      exact .inl ⟨whole, mid, .method hargs result, hrest⟩
    · next hopen =>
      simp only [reads_bind, reads_operate, reads_ok, Reading.behind] at h
      obtain ⟨whole, result, _, _, hrest, rfl, rfl⟩ := h
      refine .inl ⟨whole, _, .member ?_ result, hrest⟩
      simpa [← symbol?_eq_none_iff] using hopen
  · exact absurd h not_reads_error
  · exact absurd h not_reads_error
  · simp only [reads_bind, reads_operate, reads_ok, reads_expect, Reading.extend, Reading.before,
      Reading.behind] at h
    obtain ⟨index, _, hindex, _, mid, rfl, whole, result, _, _, hrest, rfl, rfl⟩ := h
    exact .inl ⟨whole, mid, .element hindex result, hrest⟩
  · next hmember hfound hend helement =>
    obtain ⟨rfl, rfl⟩ := reads_ok.mp h
    refine .inr ⟨fun t ht hgoes => ?_, rfl, rfl⟩
    obtain ⟨us, rfl⟩ := List.head?_eq_some_iff.mp ht
    obtain rfl | rfl : t = .symbol '.' ∨ t = .symbol '[' := by
      simpa [Layer.GoesOn, Layer.operator?] using hgoes
    · cases us with
      | nil => exact hend rfl
      | cons found _ => exact hfound found _ rfl
    · exact helement us rfl

theorem Advances.reads_accesses {whole : Value} {mid : List Lexeme}
    (h : Advances context .access u ts whole mid) (hr : Reads (accesses context whole mid) v rest) :
    Reads (accesses context u ts) v rest := by
  cases h with
  | operation operates => cases operates
  | member uncalled result =>
    rw [accesses]
    simp only [symbol?_eq_none_iff.mpr uncalled, Option.isSome_none, Bool.false_eq_true, if_false]
    refine reads_operate.mpr ⟨_, result, reads_bind.mpr ⟨_, _, hr, ?_⟩⟩
    exact reads_ok.mpr ⟨rfl, rfl⟩
  | method args result =>
    rw [accesses]
    simp only [symbol?_of_reads_arguments args, if_true]
    refine reads_bind.mpr ⟨_, _, args, reads_operate.mpr ⟨_, result, reads_bind.mpr ⟨_, _, hr, ?_⟩⟩⟩
    exact reads_ok.mpr ⟨rfl, rfl⟩
  | element index result =>
    rw [accesses]
    refine reads_bind.mpr ⟨_, _, index, reads_bind.mpr ⟨(), _, reads_expect.mpr rfl, ?_⟩⟩
    refine reads_operate.mpr ⟨_, result, reads_bind.mpr ⟨_, _, hr, reads_ok.mpr ⟨rfl, rfl⟩⟩⟩

theorem accesses_of_not_goesOn (h : ∀ t ∈ ts.head?, ¬ Layer.access.GoesOn t) :
    accesses context u ts = .ok (.leaving u ts) := by
  rw [accesses.eq_def]
  split
  · simp [Layer.GoesOn] at h
  · simp [Layer.GoesOn] at h
  · simp [Layer.GoesOn] at h
  · simp [Layer.GoesOn] at h
  · rfl

theorem reads_tail_iff {layer : Layer} :
    Reads (layer.tail context u ts) v rest ↔
      (∃ whole mid, Advances context layer u ts whole mid ∧
        Reads (layer.tail context whole mid) v rest) ∨
      (∀ t ∈ ts.head?, ¬ layer.GoesOn t) ∧ u = v ∧ ts = rest := by
  cases layer with
  | access =>
    refine ⟨Advances.of_reads_accesses, ?_⟩
    rintro (⟨whole, mid, step, hr⟩ | ⟨hstop, rfl, rfl⟩)
    · exact step.reads_accesses hr
    · rw [Layer.tail, accesses_of_not_goesOn hstop]
      exact reads_ok.mpr ⟨rfl, rfl⟩
  | sum =>
    cases ts with
    | nil => simp [Layer.tail, sumTail, reads_ok, Reading.leaving, not_advances_nil]
    | cons t ts => simpa [Layer.tail] using reads_sumTail_cons
  | product =>
    cases ts with
    | nil => simp [Layer.tail, productTail, reads_ok, Reading.leaving, not_advances_nil]
    | cons t ts => simpa [Layer.tail] using reads_productTail_cons
  | signed | primary =>
    cases ts with
    | nil => simp [Layer.tail, reads_ok, Reading.leaving, not_advances_nil]
    | cons t ts =>
      simp [Layer.tail, reads_ok, Reading.leaving, advances_cons_iff, Layer.GoesOn, Layer.operator?]

theorem reads_iff_tail {layer : Layer} (h : layer ≠ .signed) (hp : layer ≠ .primary) :
    Reads (layer.read context ts) v rest ↔
      ∃ u mid, Reads (layer.below.read context ts) u mid ∧
        Reads (layer.tail context u mid) v rest := by
  cases layer with
  | signed => exact absurd rfl h
  | primary => exact absurd rfl hp
  | sum =>
    rw [Layer.read, sum]
    simp [Layer.read, Layer.below, Layer.tail, reads_bind, reads_ok, Reading.extend]
  | product =>
    rw [Layer.read, product]
    simp [Layer.read, Layer.below, Layer.tail, reads_bind, reads_ok, Reading.extend]
  | access => simp [Layer.read, Layer.below, Layer.tail, reads_bind, reads_ok, Reading.extend]

theorem reads_signed : Reads (signed context ts) v rest ↔
    (∃ us u, ts = .symbol '-' :: us ∧ Reads (signed context us) u rest ∧ negate u = .ok v) ∨
    (∃ us u, ts = .symbol '!' :: us ∧ Reads (signed context us) u rest ∧ .bool (!u.isTruthy) = v) ∨
    Reads (Layer.access.read context ts) v rest := by
  constructor
  · intro h
    rw [signed.eq_def] at h
    split at h
    · simp only [reads_bind, reads_operate, reads_ok, Reading.behind, Reading.map] at h
      obtain ⟨u, _, hu, _, result, rfl, rfl⟩ := h
      exact .inl ⟨_, u, rfl, hu, result⟩
    · simp only [reads_bind, reads_ok, Reading.behind, Reading.map] at h
      obtain ⟨u, _, hu, rfl, rfl⟩ := h
      exact .inr (.inl ⟨_, u, rfl, hu, rfl⟩)
    · exact .inr (.inr h)
  · rintro (⟨us, u, rfl, hu, result⟩ | ⟨us, u, rfl, hu, rfl⟩ | h)
    · rw [signed]
      exact reads_bind.mpr ⟨_, _, hu, reads_operate.mpr ⟨_, result, reads_ok.mpr ⟨rfl, rfl⟩⟩⟩
    · rw [signed]
      exact reads_bind.mpr ⟨_, _, hu, reads_ok.mpr ⟨rfl, rfl⟩⟩
    · obtain ⟨_, _, first, -⟩ := reads_bind.mp h
      rw [signed.eq_def]
      split
      · cases reads_primary_iff.mp first
      · cases reads_primary_iff.mp first
      · exact h

end ApiContract.Expression
