import ApiContract.Proofs.Expression.Agreement

namespace ApiContract.Expression

/-- Contexts with the same helpers, in which the names among some lexemes stand for the same values,
and so do all dotted names. -/
structure Alike (context other : Context) (ts : List Lexeme) : Prop where
  base : context.base = other.base
  named : ∀ s, .name s ∈ ts → context.get? s = other.get? s
  dotted : ∀ s part, context.get? (s ++ "." ++ part) = other.get? (s ++ "." ++ part)

variable {context other : Context} {c : Char} {s : String} {t : Lexeme}
  {ts us front : List Lexeme} {left : Value}

namespace Alike

theorem behind (h : Alike context other (front ++ ts)) : Alike context other ts where
  base := h.base
  named s hs := h.named s (List.mem_append_right front hs)
  dotted := h.dotted

theorem tail (h : Alike context other (t :: ts)) : Alike context other ts := by
  have hfront : Alike context other ([t] ++ ts) := h
  exact hfront.behind

theorem rest (h : Alike context other ts) (layer : Layer) {r : Reading Lexeme Value ts.length}
    (hr : layer.read context ts = .ok r) : Alike context other r.rest := by
  obtain ⟨front, tree, hts, -⟩ := sound layer ts r.value r.rest ⟨r.within, hr⟩
  rw [hts] at h
  exact h.behind

theorem rest_arguments (h : Alike context other ts) {r : Reading Lexeme (List Value) ts.length}
    (hr : arguments context ts = .ok r) : Alike context other r.rest := by
  obtain ⟨front, trees, hts, -⟩ :=
    sound_arguments (fun us _ => sound .sum us) (Nat.le_refl ts.length) ⟨r.within, hr⟩
  rw [hts] at h
  exact h.behind

theorem rest_symbol (h : Alike context other ts) {r : Reading Lexeme Unit ts.length}
    (hr : symbol? c ts = some r) : Alike context other r.rest := by
  rw [eq_of_symbol? hr] at h
  exact h.tail

theorem rest_expect (h : Alike context other ts) {r : Reading Lexeme Unit ts.length}
    (hr : expect c ts = .ok r) : Alike context other r.rest := by
  rw [reads_expect.mp ⟨r.within, hr⟩] at h
  exact h.tail

theorem rest_extendName (h : Alike context other ts) :
    Alike context other (extendName context s ts).rest := by
  obtain ⟨front, hts, -⟩ := @extends_of_extendName context s _ ts _ rfl
  rw [hts] at h
  exact h.behind

theorem isNamespace (h : Alike context other ts) :
    context.isNamespace s = other.isNamespace s := by
  rw [Context.isNamespace, Context.isNamespace, h.base]

theorem extendName (h : Alike context other us) (hs : context.get? s = other.get? s) :
    Expression.extendName context s ts = Expression.extendName other s ts ∧
      context.get? (Expression.extendName context s ts).value =
        other.get? (Expression.extendName context s ts).value := by
  fun_induction Expression.extendName context s ts with
  | case1 name part ts opens ih =>
    obtain ⟨hreading, hvalue⟩ := ih (h.dotted name part)
    rw [hs, h.isNamespace] at opens
    rw [Expression.extendName, if_pos opens, hreading]
    exact ⟨rfl, by rwa [hreading] at hvalue⟩
  | case2 name part ts closed =>
    rw [hs, h.isNamespace] at closed
    rw [Expression.extendName, if_neg closed]
    exact ⟨rfl, hs⟩
  | case3 name ts hdot =>
    rw [Expression.extendName]
    · exact ⟨rfl, hs⟩
    · exact hdot

theorem resolve? (h : Alike context other us) (hs : context.get? s = other.get? s) :
    context.resolve? s = other.resolve? s := by
  rw [Context.resolve?, Context.resolve?, hs, h.base]

end Alike

structure ReadAlike (context other : Context) (ts : List Lexeme) : Prop where
  sum : sum context ts = sum other ts
  sumTail : ∀ left, sumTail context left ts = sumTail other left ts
  product : product context ts = product other ts
  productTail : ∀ left, productTail context left ts = productTail other left ts
  signed : signed context ts = signed other ts
  accesses : ∀ value, accesses context value ts = accesses other value ts
  arguments : arguments context ts = arguments other ts
  argumentTail : argumentTail context ts = argumentTail other ts
  primary : primary context ts = primary other ts
  itemTail : itemTail context ts = itemTail other ts
  fieldTail : ∀ fields, fieldTail context fields ts = fieldTail other fields ts

section Readers

variable {n : Nat} (shorter : ∀ us : List Lexeme, us.length < n → Alike context other us →
  ReadAlike context other us)

include shorter

theorem named_alike (hn : ts.length < n) (h : Alike context other ts)
    (hs : context.get? s = other.get? s) : named context s ts = named other s ts := by
  obtain ⟨hreading, hvalue⟩ := @Alike.extendName _ _ s ts ts h hs
  have hlt := Nat.lt_of_le_of_lt (Nat.le_of_lt_succ (extendName context s ts).within) hn
  have hrest := shorter _ hlt h.rest_extendName
  rw [named, named, ← hreading, ← h.resolve? hvalue, hrest.arguments]

variable (hn : ts.length ≤ n) (h : Alike context other ts)

include hn h

theorem primary_alike : primary context ts = primary other ts := by
  rw [primary.eq_def context, primary.eq_def other]
  split
  · rfl
  · rfl
  · split
    · rfl
    · exact named_alike shorter hn h.tail (h.named _ List.mem_cons_self)
  · rw [(shorter _ hn h.tail).sum]
  · rw [(shorter _ hn h.tail).itemTail]
  · rw [(shorter _ hn h.tail).fieldTail]
  · rfl
  · rfl

theorem accesses_alike (value : Value) :
    accesses context value ts = accesses other value ts := by
  rw [accesses.eq_def context, accesses.eq_def other]
  split
  · have hlt := Nat.lt_of_succ_lt hn
    split
    · rw [← (shorter _ hlt h.tail.tail).arguments]
      apply bind_congr_ok
      intro args hargs
      have hrest := shorter _ (Nat.lt_trans args.within hlt) (h.tail.tail.rest_arguments hargs)
      simp only [hrest.accesses]
    · simp only [(shorter _ hlt h.tail.tail).accesses]
  · rfl
  · rfl
  · rw [← (shorter _ hn h.tail).sum]
    apply bind_congr_ok
    intro index hindex
    apply bind_congr_ok
    intro close hclose
    have hlt := Nat.lt_trans (Nat.lt_trans close.within index.within) hn
    have hrest := shorter _ hlt ((h.tail.rest .sum hindex).rest_expect hclose)
    simp only [hrest.accesses]
  · rfl

theorem signed_alike (hprimary : primary context ts = primary other ts) :
    signed context ts = signed other ts := by
  rw [signed.eq_def context, signed.eq_def other]
  split
  · rw [(shorter _ hn h.tail).signed]
  · rw [(shorter _ hn h.tail).signed]
  · rw [← hprimary]
    apply bind_congr_ok
    intro first hfirst
    have hrest := shorter _ (Nat.lt_of_lt_of_le first.within hn) (h.rest .primary hfirst)
    rw [hrest.accesses]

theorem productTail_alike (left : Value) :
    productTail context left ts = productTail other left ts := by
  rw [productTail.eq_def context, productTail.eq_def other]
  split
  · split
    · rw [← (shorter _ hn h.tail).signed]
      apply bind_congr_ok
      intro right hright
      have hrest := shorter _ (Nat.lt_trans right.within hn) (h.tail.rest .signed hright)
      simp only [hrest.productTail]
    · rfl
  · rfl

theorem product_alike (hsigned : signed context ts = signed other ts) :
    product context ts = product other ts := by
  rw [product, product, ← hsigned]
  apply bind_congr_ok
  intro left hleft
  have hrest := shorter _ (Nat.lt_of_lt_of_le left.within hn) (h.rest .signed hleft)
  rw [hrest.productTail]

theorem sumTail_alike (left : Value) : sumTail context left ts = sumTail other left ts := by
  rw [sumTail.eq_def context, sumTail.eq_def other]
  split
  · split
    · rw [← (shorter _ hn h.tail).product]
      apply bind_congr_ok
      intro right hright
      have hrest := shorter _ (Nat.lt_trans right.within hn) (h.tail.rest .product hright)
      simp only [hrest.sumTail]
    · rfl
  · rfl

theorem sum_alike (hproduct : product context ts = product other ts) :
    sum context ts = sum other ts := by
  rw [sum, sum, ← hproduct]
  apply bind_congr_ok
  intro left hleft
  have hrest := shorter _ (Nat.lt_of_lt_of_le left.within hn) (h.rest .product hleft)
  rw [hrest.sumTail]

theorem arguments_alike : arguments context ts = arguments other ts := by
  rw [arguments, arguments]
  apply bind_congr_ok
  intro opened hopened
  have hrest := shorter _ (Nat.lt_of_lt_of_le opened.within hn) (h.rest_expect hopened)
  rw [hrest.argumentTail]

theorem argumentTail_alike (hsum : sum context ts = sum other ts) :
    argumentTail context ts = argumentTail other ts := by
  rw [argumentTail, argumentTail, ← hsum]
  apply bind_congr_ok
  intro first hfirst
  split
  · next comma hcomma =>
    have hlt := Nat.lt_of_lt_of_le (Nat.lt_trans comma.within first.within) hn
    have hrest := shorter _ hlt ((h.rest .sum hfirst).rest_symbol hcomma)
    rw [hrest.argumentTail]
  · rfl

theorem itemTail_alike (hsum : sum context ts = sum other ts) :
    itemTail context ts = itemTail other ts := by
  rw [itemTail, itemTail, ← hsum]
  split
  · rfl
  · apply bind_congr_ok
    intro first hfirst
    split
    · next comma hcomma =>
      have hlt := Nat.lt_of_lt_of_le (Nat.lt_trans comma.within first.within) hn
      have hrest := shorter _ hlt ((h.rest .sum hfirst).rest_symbol hcomma)
      rw [hrest.itemTail]
    · rfl

theorem fieldTail_alike (fields : Fields Value) :
    fieldTail context fields ts = fieldTail other fields ts := by
  rw [fieldTail.eq_def context, fieldTail.eq_def other]
  split
  · rfl
  · split
    · rfl
    · apply bind_congr_ok
      intro colon hcolon
      have hcolon' := h.tail.rest_expect hcolon
      have hlt := Nat.lt_trans colon.within hn
      rw [← (shorter _ hlt hcolon').sum]
      apply bind_congr_ok
      intro value hvalue
      dsimp only
      split
      · next comma hcomma =>
        have hlt := Nat.lt_trans (Nat.lt_trans comma.within value.within) hlt
        have hrest := shorter _ hlt ((hcolon'.rest .sum hvalue).rest_symbol hcomma)
        rw [hrest.fieldTail]
      · rfl
  · rfl

theorem ReadAlike.of_shorter : ReadAlike context other ts := by
  have hprimary := primary_alike shorter hn h
  have hsigned := signed_alike shorter hn h hprimary
  have hproduct := product_alike shorter hn h hsigned
  have hsum := sum_alike shorter hn h hproduct
  exact {
    sum := hsum
    sumTail := sumTail_alike shorter hn h
    product := hproduct
    productTail := productTail_alike shorter hn h
    signed := hsigned
    accesses := accesses_alike shorter hn h
    arguments := arguments_alike shorter hn h
    argumentTail := argumentTail_alike shorter hn h hsum
    primary := hprimary
    itemTail := itemTail_alike shorter hn h hsum
    fieldTail := fieldTail_alike shorter hn h }

end Readers

theorem Alike.readAlike (h : Alike context other ts) : ReadAlike context other ts := by
  induction hk : ts.length using Nat.strongRecOn generalizing ts with
  | ind k ih =>
    exact .of_shorter (fun us hus halike => ih us.length hus halike rfl) (Nat.le_of_eq hk) h

def Lexeme.name? : Lexeme → Option String
  | .name s => some s
  | _ => none

def names (source : String) : List String :=
  match Lexeme.ofChars source.toList with
  | .ok ts => ts.filterMap Lexeme.name?
  | .error _ => []

theorem mem_names {source : String} (h : Lexeme.ofChars source.toList = .ok ts)
    (hs : .name s ∈ ts) : s ∈ names source := by
  rw [names, h]
  exact List.mem_filterMap.mpr ⟨.name s, hs, rfl⟩

/-- An expression has the same value or error in contexts that bind its names alike, and all dotted
names. -/
theorem evaluate_alike {source : String} (hbase : context.base = other.base)
    (hnamed : ∀ s ∈ names source, context.get? s = other.get? s)
    (hdotted : ∀ s part, context.get? (s ++ "." ++ part) = other.get? (s ++ "." ++ part)) :
    evaluate source context = evaluate source other := by
  rw [evaluate, evaluate]
  split
  · rfl
  · next ts hts =>
    have halike : Alike context other ts :=
      ⟨hbase, fun s hs => hnamed s (mem_names hts hs), hdotted⟩
    rw [ofLexemes, ofLexemes, halike.readAlike.sum]

end ApiContract.Expression
