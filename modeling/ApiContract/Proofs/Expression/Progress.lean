import ApiContract.Proofs.Expression.Depth
import ApiContract.Proofs.Expression.Following

namespace ApiContract.Expression.Cursor

variable {context : Context} {ts us rest : List Lexeme} {n p : Nat} {t : Lexeme} {r : Readers}

/-- Each action of the cursor comes to what its reader makes of some lexemes, wherever they are what
is left. What is behind a first part is only looked for within the lexemes. -/
structure AllFollow (context : Context) (ts : List Lexeme) (r : Readers) (us : List Lexeme) :
    Prop where
  extend {p : Nat} (name : String) : p ≤ ts.length → ts.drop p = us →
    Follows ts (r.extend name) p
      (.ok (extendName context name us) : Read String (us.length + 1))
  expression {p : Nat} : ts.drop p = us →
    Follows ts r.expression p (Expression.sum context us)
  sum {p : Nat} : ts.drop p = us → Follows ts r.sum p (Expression.sum context us)
  sumLoop {p : Nat} (left : Value) : p ≤ ts.length → ts.drop p = us →
    Follows ts (r.sumLoop left) p (sumTail context left us)
  product {p : Nat} : ts.drop p = us → Follows ts r.product p (Expression.product context us)
  productLoop {p : Nat} (left : Value) : p ≤ ts.length → ts.drop p = us →
    Follows ts (r.productLoop left) p (productTail context left us)
  signed {p : Nat} : ts.drop p = us → Follows ts r.signed p (Expression.signed context us)
  access {p : Nat} : ts.drop p = us → Follows ts r.access p (Layer.access.read context us)
  accessLoop {p : Nat} (value : Value) : p ≤ ts.length → ts.drop p = us →
    Follows ts (r.accessLoop value) p (accesses context value us)
  arguments {p : Nat} : ts.drop p = us →
    Follows ts r.arguments p (Expression.arguments context us)
  argumentLoop {p : Nat} (args : List Value) : ts.drop p = us →
    Follows ts (r.argumentLoop args) p
      (argumentTail context us >>= fun b => .ok (b.map (args ++ ·)))
  primary {p : Nat} : ts.drop p = us → Follows ts r.primary p (Expression.primary context us)
  named {p : Nat} (name : String) : p ≤ ts.length → ts.drop p = us →
    Follows ts (r.named name) p (Expression.primary context (.name name :: us))
  items {p : Nat} (found : List Value) : ts.drop p = us →
    Follows ts (r.items found) p
      (itemTail context us >>= fun b => .ok (b.map (.array <| found ++ ·)))
  fields {p : Nat} (found : Fields Value) : ts.drop p = us →
    Follows ts (r.fields found) p
      (fieldTail context found us >>= fun b => .ok (b.map .object))

theorem head?_ne (h : ∀ rest, us = t :: rest → False) : us.head? ≠ some t := by
  intro hhead
  obtain ⟨rest, hus⟩ := List.head?_eq_some_iff.mp hhead
  exact h rest hus

theorem isSome_symbol?_iff {c : Char} :
    (symbol? c us).isSome = true ↔ us.head? = some (.symbol c) := by
  rw [← Decidable.not_iff_not, Option.not_isSome_iff_eq_none, symbol?_eq_none_iff]

theorem named_follows {name : String} (hp : p ≤ ts.length) (hus : ts.drop p = us)
    (hextend : Follows ts (r.extend name) p
      (.ok (extendName context name us) : Read String (us.length + 1)))
    (harguments : ∀ others : List Lexeme, others.length ≤ us.length → ∀ stop,
      ts.drop stop = others →
        Follows ts r.arguments stop (Expression.arguments context others)) :
    Follows ts (named context ts r name) p (Expression.primary context (.name name :: us)) := by
  rw [named, Expression.primary]
  cases constant? name with
  | some value => exact .pure hp (by rw [hus]; rfl)
  | none =>
    dsimp only
    rw [Expression.named]
    refine hextend.bind_ok fun stop hin hleft => ?_
    generalize extendName context name us = full at hleft
    generalize context.resolve? full.value = binding
    rcases binding with _ | value | helper
    · exact .fail hin rfl
    · exact .pure hin (by rw [hleft]; rfl)
    · change Follows ts _ stop (if (symbol? '(' full.rest).isSome then _ else _)
      by_cases hcall : (symbol? '(' full.rest).isSome = true
      · rw [if_pos hcall]
        apply Follows.isSymbol hleft (isSome_symbol?_iff.mp hcall)
        have hrest := harguments full.rest (Nat.le_of_lt_succ full.within) stop hleft
        refine hrest.bind fun args stop _ hin hargs => ?_
        cases helper args.value with
        | error message => exact .fail hin rfl
        | ok value =>
          exact @Follows.pure _ _ _ _ _ value hin (by rw [hargs]; rfl)
      · rw [if_neg hcall]
        apply Follows.not_isSymbol hleft (mt isSome_symbol?_iff.mpr hcall)
        exact .fail hin rfl

section Readers

variable (shorter : ∀ us : List Lexeme, us.length < n → AllFollow context ts r us)

include shorter

variable (hn : us.length ≤ n)

include hn

theorem sum_follows (hproduct : Follows ts r.product p (Expression.product context us)) :
    Follows ts (sum r) p (Expression.sum context us) := by
  rw [sum, Expression.sum]
  refine hproduct.bind fun left stop _ hin hleft => ?_
  have hrest := shorter left.rest (Nat.lt_of_lt_of_le left.within hn)
  exact (hrest.sumLoop left.value hin hleft).leaving fun _ => rfl

theorem product_follows (hsigned : Follows ts r.signed p (Expression.signed context us)) :
    Follows ts (product r) p (Expression.product context us) := by
  rw [product, Expression.product]
  refine hsigned.bind fun left stop _ hin hleft => ?_
  have hrest := shorter left.rest (Nat.lt_of_lt_of_le left.within hn)
  exact (hrest.productLoop left.value hin hleft).leaving fun _ => rfl

theorem access_follows (hprimary : Follows ts r.primary p (Expression.primary context us)) :
    Follows ts (access r) p (Layer.access.read context us) := by
  rw [access, Layer.read]
  refine hprimary.bind fun first stop _ hin hfirst => ?_
  have hrest := shorter first.rest (Nat.lt_of_lt_of_le first.within hn)
  exact (hrest.accessLoop first.value hin hfirst).leaving fun _ => rfl

variable (hus : ts.drop p = us)

include hus

theorem extend_follows (name : String) (hp : p ≤ ts.length) :
    Follows ts (extend context ts r name) p
      (.ok (extendName context name us) : Read String (us.length + 1)) := by
  rw [extendName.eq_def]
  split
  · next part rest =>
    have hmid : ts.drop (p + 1) = .name part :: rest := drop_succ hus
    rw [extend]
    refine Follows.of_run ?_ (run_bind_ok (isSymbol_eq hus)) (Nat.le_refl p) (by omega)
    by_cases opens : ((context.get? name).isNone && context.isNamespace name) = true
    · simp only [opens, List.head?_cons, beq_self_eq_true, Bool.and_self, if_true]
      apply Follows.lookahead hus
      apply Follows.skip hus
      apply Follows.skip hmid
      have hrest := shorter rest (Nat.lt_of_succ_lt hn)
      exact (hrest.extend _ (lt_length hmid) (drop_succ hmid)).leaving fun _ => rfl
    · rw [if_neg (by simp [opens]), if_neg opens]
      exact .pure hp (by rw [hus]; rfl)
  · next hdot =>
    rw [extend]
    refine Follows.of_run ?_ (run_bind_ok (isSymbol_eq hus)) (Nat.le_refl p) (by omega)
    have hstay : Follows ts (Pure.pure name) p
        (.ok (.leaving name us) : Read String (us.length + 1)) := .pure hp (by rw [hus]; rfl)
    split
    · next hopens =>
      obtain ⟨-, hhead⟩ := Bool.and_eq_true_iff.mp hopens
      obtain ⟨rest, rfl⟩ := List.head?_eq_some_iff.mp (by simpa using hhead)
      apply Follows.lookahead hus
      split
      · next part hpart =>
        obtain ⟨others, rfl⟩ := List.head?_eq_some_iff.mp hpart
        cases hdot part others rfl
      · exact hstay
    · exact hstay

theorem sumLoop_follows (left : Value) (hp : p ≤ ts.length) :
    Follows ts (sumLoop ts r left) p (sumTail context left us) := by
  rw [sumLoop, sumTail.eq_def]
  apply Follows.peek hus
  cases us with
  | nil => exact .pure hp (by rw [hus]; rfl)
  | cons t rest =>
    dsimp only [List.head?_cons, Option.bind_some]
    cases sumOperator? t with
    | some operator =>
      apply Follows.skip hus
      refine ((shorter rest hn).product (drop_succ hus)).bind fun right stop _ hin hright => ?_
      refine .settle hin (fun e he => isEnd_of_operate he) fun value _ => ?_
      have hrest := shorter right.rest (Nat.lt_trans right.within hn)
      exact (hrest.sumLoop value hin hright).leaving fun _ => rfl
    | none => exact .pure hp (by rw [hus]; rfl)

theorem productLoop_follows (left : Value) (hp : p ≤ ts.length) :
    Follows ts (productLoop ts r left) p (productTail context left us) := by
  rw [productLoop, productTail.eq_def]
  apply Follows.peek hus
  cases us with
  | nil => exact .pure hp (by rw [hus]; rfl)
  | cons t rest =>
    dsimp only [List.head?_cons, Option.bind_some]
    cases productOperator? t with
    | some operator =>
      apply Follows.skip hus
      refine ((shorter rest hn).signed (drop_succ hus)).bind fun right stop _ hin hright => ?_
      refine .settle hin (fun e he => isEnd_of_operate he) fun value _ => ?_
      have hrest := shorter right.rest (Nat.lt_trans right.within hn)
      exact (hrest.productLoop value hin hright).leaving fun _ => rfl
    | none => exact .pure hp (by rw [hus]; rfl)

theorem signed_follows (haccess : Follows ts r.access p (Layer.access.read context us)) :
    Follows ts (signed ts r) p (Expression.signed context us) := by
  rw [signed, Expression.signed.eq_def]
  split
  · apply Follows.isSymbol hus rfl
    apply Follows.skip hus
    refine ((shorter _ hn).signed (drop_succ hus)).bind fun inner stop _ hin hinner => ?_
    exact .settled hin (fun e he => isEnd_of_operate he) fun value => by rw [hinner]; rfl
  · apply Follows.not_isSymbol hus (by simp)
    apply Follows.isSymbol hus rfl
    apply Follows.skip hus
    refine ((shorter _ hn).signed (drop_succ hus)).bind fun inner stop _ hin hinner => ?_
    exact .pure hin (by rw [hinner]; rfl)
  · next hminus hnot =>
    apply Follows.not_isSymbol hus (head?_ne hminus)
    apply Follows.not_isSymbol hus (head?_ne hnot)
    exact haccess

theorem accessLoop_follows (value : Value) (hp : p ≤ ts.length) :
    Follows ts (accessLoop ts r value) p (accesses context value us) := by
  rw [accessLoop, accesses.eq_def]
  split
  · next name rest =>
    apply Follows.isSymbol hus rfl
    apply Follows.skip hus
    refine (Follows.property (drop_succ hus)).bind_ok fun stop hin hleft => ?_
    have hlt := Nat.lt_of_succ_lt hn
    split
    · next hcall =>
      apply Follows.isSymbol hleft (isSome_symbol?_iff.mp hcall)
      refine ((shorter rest hlt).arguments hleft).bind fun args stop _ hin hargs => ?_
      refine .settle hin (fun e he => isEnd_of_operate he) fun result _ => ?_
      have hrest := shorter args.rest (Nat.lt_trans args.within hlt)
      exact (hrest.accessLoop result hin hargs).leaving fun _ => rfl
    · next hcall =>
      apply Follows.not_isSymbol hleft (mt isSome_symbol?_iff.mpr hcall)
      refine .settle hin (fun e he => isEnd_of_operate he) fun result _ => ?_
      exact ((shorter rest hlt).accessLoop result hin hleft).leaving fun _ => rfl
  · next found rest hname =>
    apply Follows.isSymbol hus rfl
    apply Follows.skip hus
    exact (Follows.not_property (drop_succ hus) (by simpa using hname)).bind_error
  · apply Follows.isSymbol hus rfl
    apply Follows.skip hus
    exact (Follows.not_property (drop_succ hus) (by simp)).bind_error
  · next rest =>
    apply Follows.not_isSymbol hus (by simp)
    apply Follows.isSymbol hus rfl
    apply Follows.skip hus
    refine ((shorter rest hn).expression (drop_succ hus)).bind fun index stop _ hin hindex => ?_
    refine (Follows.expect hindex).bind fun close stop _ hin hclose => ?_
    refine .settle hin (fun e he => isEnd_of_operate he) fun value _ => ?_
    have hlt := Nat.lt_trans (Nat.lt_trans close.within index.within) hn
    exact ((shorter close.rest hlt).accessLoop value hin hclose).leaving fun _ => rfl
  · next hmember hother hend helement =>
    apply Follows.not_isSymbol hus
    · apply head?_ne
      rintro (_ | ⟨found, rest⟩) rfl
      · exact hend rfl
      · exact hother found rest rfl
    apply Follows.not_isSymbol hus (head?_ne helement)
    exact .pure hp (by rw [hus]; rfl)

theorem arguments_follows :
    Follows ts (arguments ts r) p (Expression.arguments context us) := by
  rw [arguments, Expression.arguments]
  refine (Follows.expect hus).bind fun opened stop _ hin hopened => ?_
  refine .symbol? hopened (fun close hsome hin hclose => ?_) fun hnone => ?_
  · simp only [hsome]
    exact .pure hin (by rw [hclose]; rfl)
  · simp only [hnone]
    have hrest := shorter opened.rest (Nat.lt_of_lt_of_le opened.within hn)
    exact (hrest.argumentLoop [] hopened).congr fun _ => rfl

theorem primary_follows :
    Follows ts (primary ts r) p (Expression.primary context us) := by
  rw [primary, Expression.primary.eq_def]
  split
  · next x rest =>
    apply Follows.next hus
    exact .settled (lt_length hus) (fun e he => isEnd_of_operate he)
      fun value => by rw [drop_succ hus]; rfl
  · next s rest =>
    apply Follows.next hus
    exact .pure (lt_length hus) (by rw [drop_succ hus]; rfl)
  · next name rest =>
    have hname := (shorter rest hn).named name (lt_length hus) (drop_succ hus)
    rw [Expression.primary.eq_def] at hname
    exact .next hus hname
  · next rest =>
    apply Follows.next hus
    refine ((shorter rest hn).expression (drop_succ hus)).bind fun inner stop _ hin hinner => ?_
    refine (Follows.expect hinner).bind fun close stop _ hin hclose => ?_
    exact .pure hin (by rw [hclose]; rfl)
  · next rest =>
    apply Follows.next hus
    exact ((shorter rest hn).items [] (drop_succ hus)).congr fun _ => rfl
  · next rest =>
    apply Follows.next hus
    exact ((shorter rest hn).fields [] (drop_succ hus)).congr fun _ => rfl
  · next found rest hnumber htext hname hparen hbracket hbrace =>
    apply Follows.next hus
    split
    case h_7 heq =>
      cases heq
      exact .fail (lt_length hus) rfl
    all_goals simp_all
  · exact .next_nil hus rfl rfl

omit hus in
theorem argumentLoop_follows (args : List Value)
    (hexpression : Follows ts r.expression p (Expression.sum context us)) :
    Follows ts (argumentLoop ts r args) p
      (argumentTail context us >>= fun b => .ok (b.map (args ++ ·))) := by
  rw [argumentLoop, argumentTail, bind_assoc]
  refine hexpression.bind fun first stop _ hin hfirst => ?_
  refine .symbol? hfirst (fun comma hsome hin hcomma => ?_) fun hnone => ?_
  · have hlt := Nat.lt_of_lt_of_le (Nat.lt_trans comma.within first.within) hn
    have hrest := (shorter comma.rest hlt).argumentLoop (args ++ [first.value]) hcomma
    simp only [hsome, bind_assoc]
    exact hrest.congr fun more => by simp [Reading.pair, Reading.map, Reading.before]
  · simp only [hnone, bind_assoc]
    refine (Follows.expect hfirst).bind fun close stop _ hin hclose => ?_
    exact .pure hin (by rw [hclose]; rfl)

theorem items_follows (found : List Value)
    (hexpression : Follows ts r.expression p (Expression.sum context us)) :
    Follows ts (items ts r found) p
      (itemTail context us >>= fun b => .ok (b.map (.array <| found ++ ·))) := by
  rw [items, itemTail]
  refine .symbol? hus (fun close hsome hin hclose => ?_) fun hnone => ?_
  · simp only [hsome]
    exact .pure hin (by rw [hclose]; simp [Reading.pair, Reading.map])
  · simp only [hnone, bind_assoc]
    refine hexpression.bind fun first stop _ hin hfirst => ?_
    refine .symbol? hfirst (fun comma hsome hin hcomma => ?_) fun hnone => ?_
    · have hlt := Nat.lt_of_lt_of_le (Nat.lt_trans comma.within first.within) hn
      have hrest := (shorter comma.rest hlt).items (found ++ [first.value]) hcomma
      simp only [hsome, bind_assoc]
      exact hrest.congr fun more => by simp [Reading.pair, Reading.map, Reading.before]
    · simp only [hnone, bind_assoc]
      refine (Follows.expect hfirst).bind fun close stop _ hin hclose => ?_
      exact .pure hin (by rw [hclose]; rfl)

theorem fields_follows (found : Fields Value) :
    Follows ts (fields ts r found) p
      (fieldTail context found us >>= fun b => .ok (b.map .object)) := by
  rw [fields, fieldTail.eq_def]
  split
  · apply Follows.next hus
    rw [if_pos rfl]
    exact .pure (lt_length hus) (by rw [drop_succ hus]; rfl)
  · next t rest hclose =>
    apply Follows.next hus
    rw [if_neg (by simpa using hclose), Option.bind_some]
    cases key? t with
    | none => exact .fail (lt_length hus) rfl
    | some key =>
      simp only [bind_assoc]
      refine (Follows.expect (drop_succ hus)).bind fun colon stop _ hin hcolon => ?_
      have hlt := Nat.lt_trans colon.within hn
      refine ((shorter colon.rest hlt).expression hcolon).bind fun value stop _ hin hvalue => ?_
      refine .symbol? hvalue (fun comma hsome hin hcomma => ?_) fun hnone => ?_
      · have hlt := Nat.lt_trans (Nat.lt_trans comma.within value.within) hlt
        simp only [hsome, bind_assoc]
        exact ((shorter comma.rest hlt).fields _ hcomma).congr fun _ => rfl
      · simp only [hnone, bind_assoc]
        refine (Follows.expect hvalue).bind fun close stop _ hin hclose => ?_
        exact .pure hin (by rw [hclose]; rfl)
  · exact .next_nil hus rfl rfl

end Readers

/-- On lexemes that are left, the calls go seven deep until one of them is read. -/
theorem allFollow (context : Context) (ts us : List Lexeme) {calls : Nat}
    (h : 7 * (us.length + 1) ≤ calls) : AllFollow context ts (within context ts calls) us := by
  induction hk : us.length using Nat.strongRecOn generalizing us calls with
  | ind k ih =>
    obtain ⟨c, rfl⟩ := Nat.exists_eq_add_of_le' (by omega : 7 ≤ calls)
    have shorter (j : Nat) (others : List Lexeme) (hlt : others.length < k) :
        AllFollow context ts (within context ts (c + j)) others :=
      ih others.length hlt others (by omega) rfl
    have hn : us.length ≤ k := Nat.le_of_eq hk
    -- each reader of the same lexemes takes one call more than the one it begins with
    have hprimary (j : Nat) {p : Nat} (hus : ts.drop p = us) :
        Follows ts (within context ts (c + j + 1)).primary p (Expression.primary context us) :=
      primary_follows (shorter j) hn hus
    have haccess (j : Nat) {p : Nat} (hus : ts.drop p = us) :
        Follows ts (within context ts (c + j + 2)).access p (Layer.access.read context us) :=
      access_follows (shorter (j + 1)) hn (hprimary j hus)
    have hsigned (j : Nat) {p : Nat} (hus : ts.drop p = us) :
        Follows ts (within context ts (c + j + 3)).signed p (Expression.signed context us) :=
      signed_follows (shorter (j + 2)) hn hus (haccess j hus)
    have hproduct (j : Nat) {p : Nat} (hus : ts.drop p = us) :
        Follows ts (within context ts (c + j + 4)).product p (Expression.product context us) :=
      product_follows (shorter (j + 3)) hn (hsigned j hus)
    have hsum (j : Nat) {p : Nat} (hus : ts.drop p = us) :
        Follows ts (within context ts (c + j + 5)).sum p (Expression.sum context us) :=
      sum_follows (shorter (j + 4)) hn (hproduct j hus)
    have hexpression (j : Nat) {p : Nat} (hus : ts.drop p = us) :
        Follows ts (within context ts (c + j + 6)).expression p (Expression.sum context us) :=
      hsum j hus
    exact {
      extend := fun name hp hus => extend_follows (shorter 6) hn hus name hp
      expression := hexpression 1
      sum := hsum 2
      sumLoop := fun left hp hus => sumLoop_follows (shorter 6) hn hus left hp
      product := hproduct 3
      productLoop := fun left hp hus => productLoop_follows (shorter 6) hn hus left hp
      signed := hsigned 4
      access := haccess 5
      accessLoop := fun value hp hus => accessLoop_follows (shorter 6) hn hus value hp
      arguments := fun hus => arguments_follows (shorter 6) hn hus
      argumentLoop := fun args hus => argumentLoop_follows (shorter 6) hn args (hexpression 0 hus)
      primary := hprimary 6
      named := fun name hp hus => named_follows hp hus
        (extend_follows (shorter 5) hn hus name hp)
        fun others hle stop hothers =>
          arguments_follows (shorter 5) (Nat.le_trans hle hn) hothers
      items := fun found hus => items_follows (shorter 6) hn hus found (hexpression 0 hus)
      fields := fun found hus => fields_follows (shorter 6) hn hus found }

/-- Calls that go seven deep for each lexeme, and once more behind the last one. -/
def enough (ts : List Lexeme) : Nat := 7 * (ts.length + 1)

/-- A reader ends with what is found among the lexemes, once its calls may go deep enough. However
deep they go, a value leaves the cursor at `least` or behind it, and not behind the lexemes; an
error leaves it at most one place behind them, and does so if the lexemes ran out. -/
structure Progresses {α : Type} (context : Context) (ts : List Lexeme)
    (action : Readers → Action α) (p least : Nat) (found : Read α n) : Prop where
  ends : ∃ stop, ∀ calls, enough ts ≤ calls →
    action (within context ts calls) p = some (found.map (·.value), stop)
  value : ∀ calls value stop, action (within context ts calls) p = some (.ok value, stop) →
    least ≤ stop ∧ stop ≤ ts.length
  error : ∀ calls e stop, action (within context ts calls) p = some (.error e, stop) →
    p ≤ stop ∧ stop ≤ max p ts.length + 1 ∧ (ts.length < stop ↔ e.isEnd = true)

section Depth

variable {α : Type} {action : Readers → Action α}
  (keeps : ∀ {r other : Readers}, r.Kept other → Kept (action r) (action other))

include keeps

theorem eq_of_within {calls more : Nat} {answer other : Except Error α × Nat}
    (h : action (within context ts calls) p = some answer)
    (hmore : action (within context ts more) p = some other) : answer = other := by
  have hleft := keeps (within_kept (Nat.le_max_left calls more)) p answer h
  have hright := keeps (within_kept (Nat.le_max_right calls more)) p other hmore
  exact Option.some.inj (hleft.symm.trans hright)

theorem Follows.progresses {least : Nat} {found : Read α n}
    (h : Follows ts (action (within context ts (enough ts))) p found)
    (hn : n ≤ ts.length + 1 - least) : Progresses context ts action p least found := by
  cases h with
  | @ok value rest within stop run moved inside left =>
    refine ⟨⟨stop, fun calls hle => keeps (within_kept hle) p _ run⟩, ?_, ?_⟩
    · intro calls value stop hrun
      cases eq_of_within keeps run hrun
      rw [← left, List.length_drop] at within
      omega
    · intro calls e stop hrun
      cases eq_of_within keeps run hrun
  | @error e stop run moved near past =>
    refine ⟨⟨stop, fun calls hle => keeps (within_kept hle) p _ run⟩, ?_, ?_⟩
    · intro calls value stop hrun
      cases eq_of_within keeps run hrun
    · intro calls e stop hrun
      cases eq_of_within keeps run hrun
      exact ⟨moved, near, past⟩

end Depth

theorem expression_behind (hp : ts.length ≤ p) (spare : Nat) :
    (within context ts (spare + 6)).expression p = some (.error .unexpectedEnd, p + 1) := by
  have hnext : next ts p = some (.ok none, p + 1) := by
    rw [← List.getElem?_eq_none hp]
    rfl
  have hsymbol (c : Char) : isSymbol ts c p = some (.ok false, p) := by
    rw [isSymbol_eq rfl, List.drop_eq_nil_of_le hp]
    rfl
  have hprimary : (within context ts (spare + 1)).primary p = some (.error .unexpectedEnd, p + 1) :=
    run_bind_ok hnext
  have haccess : (within context ts (spare + 2)).access p = some (.error .unexpectedEnd, p + 1) :=
    run_bind_error hprimary
  have hsigned : (within context ts (spare + 3)).signed p =
      some (.error .unexpectedEnd, p + 1) := by
    change signed ts _ p = _
    rw [signed, run_bind_ok (hsymbol '-'), if_neg Bool.false_ne_true, run_bind_ok (hsymbol '!'),
      if_neg Bool.false_ne_true]
    exact haccess
  have hproduct : (within context ts (spare + 4)).product p =
      some (.error .unexpectedEnd, p + 1) := run_bind_error hsigned
  exact run_bind_error hproduct

theorem whole_eq (h : AllFollow context ts r ts) :
    ∃ stop, whole ts r 0 = some (ofLexemes context ts, stop) := by
  rw [whole, ofLexemes]
  have hexpression := h.expression List.drop_zero
  generalize Expression.sum context ts = found at hexpression
  cases hexpression with
  | error run => exact ⟨_, run_bind_error run⟩
  | @ok value rest within stop run moved inside left =>
    have hpeek : peek ts stop = some (.ok rest.head?, stop) := by
      rw [← getElem?_eq_head? left]
      rfl
    refine ⟨stop, (run_bind_ok run).trans ((run_bind_ok hpeek).trans ?_)⟩
    cases rest <;> rfl

/-- Every reader but that of a name makes progress from every place of the cursor. The reader of a
name finds its name read already, and may leave the cursor where it is. -/
structure ReadersProgress (context : Context) (ts : List Lexeme) : Prop where
  expression (p : Nat) :
    Progresses context ts Readers.expression p (p + 1) (Expression.sum context (ts.drop p))
  sum (p : Nat) : Progresses context ts Readers.sum p (p + 1) (Expression.sum context (ts.drop p))
  product (p : Nat) :
    Progresses context ts Readers.product p (p + 1) (Expression.product context (ts.drop p))
  signed (p : Nat) :
    Progresses context ts Readers.signed p (p + 1) (Expression.signed context (ts.drop p))
  access (p : Nat) :
    Progresses context ts Readers.access p (p + 1) (Layer.access.read context (ts.drop p))
  primary (p : Nat) :
    Progresses context ts Readers.primary p (p + 1) (Expression.primary context (ts.drop p))
  named (p : Nat) (name : String) : p ≤ ts.length →
    Progresses context ts (·.named name) p p
      (Expression.primary context (.name name :: ts.drop p))
  arguments (p : Nat) :
    Progresses context ts Readers.arguments p (p + 1) (Expression.arguments context (ts.drop p))
  items (p : Nat) : Progresses context ts (·.items []) p (p + 1)
    (itemTail context (ts.drop p) >>= fun b => .ok (b.map .array))
  fields (p : Nat) : Progresses context ts (·.fields []) p (p + 1)
    (fieldTail context [] (ts.drop p) >>= fun b => .ok (b.map .object))
  whole : ∃ stop, ∀ calls, enough ts ≤ calls →
    whole ts (within context ts calls) 0 = some (ofLexemes context ts, stop)
  behind (p spare : Nat) : ts.length ≤ p →
    (within context ts (spare + 6)).expression p = some (.error .unexpectedEnd, p + 1)

theorem readers_progress (context : Context) (ts : List Lexeme) : ReadersProgress context ts := by
  have hall (p : Nat) : AllFollow context ts (within context ts (enough ts)) (ts.drop p) := by
    apply allFollow
    rw [List.length_drop, enough]
    omega
  have hlength (p : Nat) : (ts.drop p).length ≤ ts.length + 1 - (p + 1) := by
    rw [List.length_drop]
    omega
  exact {
    expression := fun p => ((hall p).expression rfl).progresses (·.expression) (hlength p)
    sum := fun p => ((hall p).sum rfl).progresses (·.sum) (hlength p)
    product := fun p => ((hall p).product rfl).progresses (·.product) (hlength p)
    signed := fun p => ((hall p).signed rfl).progresses (·.signed) (hlength p)
    access := fun p => ((hall p).access rfl).progresses (·.access) (hlength p)
    primary := fun p => ((hall p).primary rfl).progresses (·.primary) (hlength p)
    named := fun p name hp => by
      have hn : (.name name :: ts.drop p).length ≤ ts.length + 1 - p := by
        rw [List.length_cons, List.length_drop]
        omega
      exact ((hall p).named name hp rfl).progresses (·.named name) hn
    arguments := fun p => ((hall p).arguments rfl).progresses (·.arguments) (hlength p)
    items := fun p => ((hall p).items [] rfl).progresses (·.items []) (hlength p)
    fields := fun p => ((hall p).fields [] rfl).progresses (·.fields []) (hlength p)
    whole := by
      obtain ⟨stop, hrun⟩ := whole_eq (hall 0)
      exact ⟨stop, fun calls hle => kept_whole (within_kept hle) 0 _ hrun⟩
    behind := fun p spare hp => expression_behind hp spare }

/-- Behind a constant that is the last lexeme, the reader of its name leaves the cursor alone. -/
theorem named_stays :
    let context := Context.ofBase .empty
    let ts : List Lexeme := [.name "true"]
    (within context ts 1).named "true" 1 = some (.ok (.bool true), 1) ∧
      ¬ ∀ calls value stop, (within context ts calls).named "true" 1 = some (.ok value, stop) →
        1 < stop ∧ stop ≤ ts.length := by
  intro context ts
  have hrun : (within context ts 1).named "true" 1 = some (.ok (.bool true), 1) := rfl
  exact ⟨hrun, fun h => absurd (h 1 _ 1 hrun).1 (Nat.lt_irrefl 1)⟩

end ApiContract.Expression.Cursor
