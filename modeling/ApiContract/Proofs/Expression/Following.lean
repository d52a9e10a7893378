import ApiContract.Proofs.Expression.Cursor
import ApiContract.Proofs.Expression.Readers

namespace ApiContract.Expression

def Error.isEnd : Error → Bool
  | unexpectedEnd | expectedSymbol _ none | expectedProperty none | expectedKey none => true
  | _ => false

theorem isEnd_of_operate {result : Result} {e : Error} (h : operate result = .error e) :
    e.isEnd = false := by
  cases result <;> cases h
  rfl

namespace Cursor

variable {α β : Type} {k m n p : Nat} {context : Context} {ts us rest : List Lexeme} {t : Lexeme}
  {c : Char}

/-- An action of the cursor from a place comes to what a reader makes of the lexemes behind that
place. A value leaves the cursor before the lexemes that the reader leaves. -/
inductive Follows (ts : List Lexeme) (action : Action α) (p : Nat) : Read α n → Prop
  | ok {value : α} {rest : List Lexeme} {within : rest.length < n} {stop : Nat}
    (run : action p = some (.ok value, stop)) (moved : p ≤ stop) (inside : stop ≤ ts.length)
    (left : ts.drop stop = rest) : Follows ts action p (.ok ⟨value, rest, within⟩)
  | error {e : Error} {stop : Nat} (run : action p = some (.error e, stop)) (moved : p ≤ stop)
    (near : stop ≤ max p ts.length + 1) (past : ts.length < stop ↔ e.isEnd = true) :
    Follows ts action p (.error e)

namespace Follows

variable {action other yes no : Action α} {r : Read α n}

theorem of_run {q : Nat} (h : Follows ts other q r) (hrun : action p = other q) (hle : p ≤ q)
    (hin : q ≤ max p ts.length) : Follows ts action p r := by
  cases h with
  | ok run moved inside left => exact .ok (hrun.trans run) (Nat.le_trans hle moved) inside left
  | error run moved near past =>
    exact .error (hrun.trans run) (Nat.le_trans hle moved) (by omega) past

theorem bind_error {first : Action β} {e : Error} {next : β → Action α}
    (h : Follows ts first p (.error e : Read β m)) :
    Follows ts (first >>= next) p (.error e : Read α n) := by
  cases h with
  | error run moved near past => exact .error (run_bind_error run) moved near past

theorem bind_ok {first : Action β} {q : Reading Lexeme β m} {next : β → Action α}
    (h : Follows ts first p (.ok q)) (hmore : ∀ stop, stop ≤ ts.length → ts.drop stop = q.rest →
      Follows ts (next q.value) stop r) : Follows ts (first >>= next) p r := by
  cases h with
  | ok run moved inside left =>
    exact (hmore _ inside left).of_run (run_bind_ok run) moved (by omega)

theorem bind {first : Action β} {q : Read β m} {next : β → Action α}
    {more : Reading Lexeme β m → Read α n} (h : Follows ts first p q)
    (hmore : ∀ b stop, q = .ok b → stop ≤ ts.length → ts.drop stop = b.rest →
      Follows ts (next b.value) stop (more b)) :
    Follows ts (first >>= next) p (q >>= more) := by
  cases q with
  | error e => exact h.bind_error
  | ok b => exact h.bind_ok fun stop => hmore b stop rfl

theorem of_pair {q : Reading Lexeme α m} {b : Reading Lexeme α n}
    (h : Follows ts action p (.ok q)) (hb : b.pair = q.pair) : Follows ts action p (.ok b) := by
  obtain ⟨value, rest, within⟩ := b
  cases hb
  cases h with
  | ok run moved inside left => exact .ok run moved inside left

theorem congr {q : Read β k} {f : Reading Lexeme β k → Reading Lexeme α m}
    {g : Reading Lexeme β k → Reading Lexeme α n}
    (h : Follows ts action p (q >>= fun b => .ok (f b))) (hf : ∀ b, (g b).pair = (f b).pair) :
    Follows ts action p (q >>= fun b => .ok (g b)) := by
  cases q with
  | error e =>
    cases h with
    | error run moved near past => exact .error run moved near past
  | ok b =>
    have hb : Follows ts action p (.ok (f b)) := h
    exact hb.of_pair (hf b)

theorem leaving {q : Read α m} {f : Reading Lexeme α m → Reading Lexeme α n}
    (h : Follows ts action p q) (hf : ∀ b, (f b).pair = b.pair) :
    Follows ts action p (q >>= fun b => .ok (f b)) := by
  rw [← bind_pure q] at h
  exact h.congr hf

theorem pure {q : Reading Lexeme α n} {value : α} (hp : p ≤ ts.length)
    (hq : (value, ts.drop p) = q.pair) : Follows ts (Pure.pure value) p (.ok q) := by
  obtain ⟨value', rest', within'⟩ := q
  cases hq
  exact .ok rfl (Nat.le_refl p) hp rfl

theorem fail {e : Error} (hp : p ≤ ts.length) (he : e.isEnd = false) :
    Follows ts (settle (.error e)) p (.error e : Read α n) :=
  .error rfl (Nat.le_refl p) (by omega) (by simp [he, hp])

theorem settle {result : Except Error β} {next : β → Action α} {more : β → Read α n}
    (hp : p ≤ ts.length) (he : ∀ e, result = .error e → e.isEnd = false)
    (hmore : ∀ b, result = .ok b → Follows ts (next b) p (more b)) :
    Follows ts (Cursor.settle result >>= next) p (result >>= more) := by
  cases result with
  | error e =>
    have hfail : Follows ts (Cursor.settle (.error e)) p (.error e : Read α n) :=
      fail hp (he e rfl)
    exact hfail.of_run rfl (Nat.le_refl p) (by omega)
  | ok b => exact (hmore b rfl).of_run rfl (Nat.le_refl p) (by omega)

theorem settled {result : Except Error α} {f : α → Reading Lexeme α n} (hp : p ≤ ts.length)
    (he : ∀ e, result = .error e → e.isEnd = false)
    (hf : ∀ a, (f a).pair = (a, ts.drop p)) :
    Follows ts (Cursor.settle result) p (result >>= fun a => .ok (f a)) := by
  cases result with
  | error e => exact fail hp (he e rfl)
  | ok a =>
    have hpure : Follows ts (Pure.pure a) p (.ok (f a)) := pure hp (hf a).symm
    exact hpure.of_run rfl (Nat.le_refl p) (by omega)

end Follows

theorem lt_length (hus : ts.drop p = t :: rest) : p < ts.length := by
  apply Nat.lt_of_not_le
  intro hle
  rw [List.drop_eq_nil_of_le hle] at hus
  cases hus

theorem drop_succ (hus : ts.drop p = t :: rest) : ts.drop (p + 1) = rest := by
  rw [← List.drop_drop, hus]
  rfl

theorem getElem?_eq_head? (hus : ts.drop p = us) : ts[p]? = us.head? := by
  rw [← hus, List.head?_drop]

theorem isSymbol_eq (hus : ts.drop p = us) :
    isSymbol ts c p = some (.ok (us.head? == some (.symbol c)), p) := by
  rw [← getElem?_eq_head? hus]
  rfl

namespace Follows

variable {action yes no : Action α} {more : Option Lexeme → Action α} {r : Read α n}

theorem peek (hus : ts.drop p = us) (h : Follows ts (more us.head?) p r) :
    Follows ts (Cursor.peek ts >>= more) p r := by
  rw [← getElem?_eq_head? hus] at h
  exact h.of_run rfl (Nat.le_refl p) (by omega)

theorem next (hus : ts.drop p = t :: rest) (h : Follows ts (more (some t)) (p + 1) r) :
    Follows ts (Cursor.next ts >>= more) p r := by
  have hlt := lt_length hus
  have ht : some t = ts[p]? := (getElem?_eq_head? hus).symm
  rw [ht] at h
  exact h.of_run rfl (Nat.le_succ p) (by omega)

theorem next_nil {e : Error} (hus : ts.drop p = []) (hmore : more none = Cursor.settle (.error e))
    (he : e.isEnd = true) : Follows ts (Cursor.next ts >>= more) p (.error e : Read α n) := by
  have hle := List.drop_eq_nil_iff.mp hus
  have hrun : (Cursor.next ts >>= more) p = some (.error e, p + 1) := by
    change more ts[p]? (p + 1) = _
    rw [getElem?_eq_head? hus, List.head?_nil, hmore]
    rfl
  exact .error hrun (Nat.le_succ p) (by omega) (by simp [he]; omega)

theorem lookahead (hus : ts.drop p = t :: rest) (h : Follows ts (more rest.head?) p r) :
    Follows ts (Cursor.lookahead ts >>= more) p r := by
  rw [← getElem?_eq_head? (drop_succ hus)] at h
  exact h.of_run rfl (Nat.le_refl p) (by omega)

theorem skip (hus : ts.drop p = t :: rest) (h : Follows ts action (p + 1) r) :
    Follows ts (Cursor.skip >>= fun _ => action) p r := by
  have hlt := lt_length hus
  exact h.of_run rfl (Nat.le_succ p) (by omega)

theorem isSymbol (hus : ts.drop p = us) (hc : us.head? = some (.symbol c))
    (h : Follows ts yes p r) :
    Follows ts (Cursor.isSymbol ts c >>= fun b => if b = true then yes else no) p r := by
  refine h.of_run ?_ (Nat.le_refl p) (by omega)
  rw [run_bind_ok (isSymbol_eq hus), hc, if_pos (beq_self_eq_true _)]

theorem not_isSymbol (hus : ts.drop p = us) (hc : us.head? ≠ some (.symbol c))
    (h : Follows ts no p r) :
    Follows ts (Cursor.isSymbol ts c >>= fun b => if b = true then yes else no) p r := by
  refine h.of_run ?_ (Nat.le_refl p) (by omega)
  rw [run_bind_ok (isSymbol_eq hus), if_neg (by simpa using hc)]

theorem symbol? (hus : ts.drop p = us)
    (hyes : ∀ close, Expression.symbol? c us = some close → p + 1 ≤ ts.length →
      ts.drop (p + 1) = close.rest → Follows ts yes (p + 1) r)
    (hno : Expression.symbol? c us = none → Follows ts no p r) :
    Follows ts (Cursor.isSymbol ts c >>= fun b =>
      if b = true then Cursor.skip >>= fun _ => yes else no) p r := by
  cases hclose : Expression.symbol? c us with
  | none => exact not_isSymbol hus (symbol?_eq_none_iff.mp hclose) (hno hclose)
  | some close =>
    have hmid := hus.trans (eq_of_symbol? hclose)
    apply isSymbol hus (by rw [eq_of_symbol? hclose]; rfl)
    apply skip hmid
    exact hyes close hclose (lt_length hmid) (drop_succ hmid)

theorem expect (hus : ts.drop p = us) :
    Follows ts (Cursor.expect ts c) p (Expression.expect c us) := by
  rw [Cursor.expect, Expression.expect]
  cases us with
  | nil => exact next_nil hus rfl rfl
  | cons t rest =>
    have hin : p + 1 ≤ ts.length := lt_length hus
    apply next hus
    by_cases ht : t = .symbol c
    · rw [Expression.symbol?, if_pos ht]
      simp only [if_pos ht]
      exact pure hin (by rw [drop_succ hus]; rfl)
    · rw [Expression.symbol?, if_neg ht]
      simp only [if_neg ht]
      exact fail hin rfl

theorem property {name : String} (hus : ts.drop p = .name name :: rest) :
    Follows ts (Cursor.property ts) p (.ok (.leaving name rest)) := by
  apply next hus
  exact pure (lt_length hus) (by rw [drop_succ hus]; rfl)

theorem not_property (hus : ts.drop p = us) (h : ∀ name rest, us ≠ .name name :: rest) :
    Follows ts (Cursor.property ts) p
      (.error (.expectedProperty us.head?) : Read String us.length) := by
  cases us with
  | nil => exact next_nil hus rfl rfl
  | cons t rest =>
    apply next hus
    cases t with
    | name name => cases h name rest rfl
    | number _ | text _ | symbol _ => exact fail (lt_length hus) rfl

end Follows

end Cursor

end ApiContract.Expression
