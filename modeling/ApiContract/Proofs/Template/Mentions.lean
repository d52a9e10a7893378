import ApiContract.Proofs.Expression.Alike
import ApiContract.Proofs.Expression.Names
import ApiContract.Proofs.Template.Parts
import ApiContract.Template.Evaluation

namespace ApiContract

namespace Expression

theorem names_of_isName {s : String} (h : Lexeme.isName s.toList = true) : names s = [s] := by
  have hcut := @Lexeme.ofChars_name s.toList [] h nofun
  rw [List.append_nil, String.ofList_toList, Lexeme.ofChars_nil] at hcut
  rw [names, hcut]
  rfl

theorem names_index {position : Nat} : names (Segment.index position).text = [] := by
  let digits : Numeral := ⟨Nat.toDigits 10 position, [], none⟩
  have hdigits : digits.WellFormed :=
    ⟨Nat.toDigits_ne_nil, Numeral.isDigit_of_mem_toDigits, nofun⟩
  have htext : digits.text = (Segment.index position).text.toList := by
    simp [digits, Numeral.text, Numeral.fractionText, Numeral.exponentText, Segment.text_index]
  have hcut := (Lexeme.cuts_numeral hdigits).ofChars_eq
  rw [htext] at hcut
  rw [names, hcut]
  rfl

end Expression

namespace Template

inductive Asks (source : String) : Template → Prop
  | source : Asks source (expression source)
  | root {first : Segment} {path : Path} {removals : List Path}
    {additions : List (Path × Slot Template)} (text : first.text = source) :
    Asks source (mixin (first :: path) removals additions)
  | part {t part : Template} (mem : part ∈ t.parts) (inner : Asks source part) : Asks source t

/-- A name of an expression inside of a template, or the name that a base starts with. A key that is
no name is read as an expression where a base starts with it; no base that is read from lines
does. -/
inductive Mentions (name : String) : Template → Prop
  | source {source : String} (mem : name ∈ Expression.names source) :
    Mentions name (expression source)
  | root {first : Segment} {path : Path} {removals : List Path}
    {additions : List (Path × Slot Template)} (text : first.text = name) :
    Mentions name (mixin (first :: path) removals additions)
  | odd {key : String} {path : Path} {removals : List Path}
    {additions : List (Path × Slot Template)}
    (unnamed : Expression.Lexeme.isName key.toList = false) (mem : name ∈ Expression.names key) :
    Mentions name (mixin (.key key :: path) removals additions)
  | part {t part : Template} (mem : part ∈ t.parts) (inner : Mentions name part) : Mentions name t

variable {evaluator : Evaluator} {context other : Context} {label walked name source : String}
  {t : Template} {items : List Template} {index : Nat} {value : Value}

theorem evaluateItems_congr (h : ∀ item ∈ items, ∀ label,
      evaluate evaluator context label item = evaluate evaluator other label item) :
    evaluateItems evaluator context label index items =
      evaluateItems evaluator other label index items := by
  induction items generalizing index with
  | nil => rfl
  | cons item items ih =>
    obtain ⟨hitem, hitems⟩ := List.forall_mem_cons.mp h
    rw [evaluateItems, evaluateItems, hitem, ih hitems]

theorem evaluateEntries_congr {entries : List (String × Slot Template)}
    (h : ∀ entry ∈ entries, ∀ label,
      evaluate evaluator context label entry.2.value =
        evaluate evaluator other label entry.2.value) :
    evaluateEntries evaluator context label entries =
      evaluateEntries evaluator other label entries := by
  induction entries with
  | nil => rfl
  | cons entry entries ih =>
    obtain ⟨hentry, hentries⟩ := List.forall_mem_cons.mp h
    obtain ⟨key, optional, template⟩ := entry
    rw [evaluateEntries, evaluateEntries, hentry, ih hentries]

theorem evaluateAdditions_congr {additions : List (Path × Slot Template)}
    (h : ∀ addition ∈ additions, ∀ label,
      evaluate evaluator context label addition.2.value =
        evaluate evaluator other label addition.2.value) :
    evaluateAdditions evaluator context label walked value additions =
      evaluateAdditions evaluator other label walked value additions := by
  induction additions generalizing value with
  | nil => rfl
  | cons addition additions ih =>
    obtain ⟨haddition, hadditions⟩ := List.forall_mem_cons.mp h
    obtain ⟨path, optional, template⟩ := addition
    simp only [evaluateAdditions, haddition, ih hadditions]

/-- Contexts matter to an evaluation only where its evaluator is asked. -/
theorem evaluate_congr
    (h : ∀ source, t.Asks source → evaluator source context = evaluator source other) :
    evaluate evaluator context label t = evaluate evaluator other label t := by
  induction t using induction_on_parts generalizing label with
  | step t ih =>
    have hparts : ∀ part ∈ t.parts, ∀ label,
        evaluate evaluator context label part = evaluate evaluator other label part :=
      fun part hpart label => ih part hpart fun source hsource => h source (.part hpart hsource)
    cases t with
    | expression source =>
      rw [evaluate, evaluate, evaluateSource, evaluateSource, h source .source]
    | array items =>
      have hitems := @evaluateItems_congr evaluator context other label items 0 hparts
      rw [evaluate, evaluate, hitems]
    | object entries =>
      rw [evaluate, evaluate, evaluateEntries_congr (List.forall_mem_map.mp hparts)]
    | mixin base removals additions =>
      have hbase : evaluateBase evaluator context label base =
          evaluateBase evaluator other label base := by
        cases base with
        | nil => rfl
        | cons first path =>
          rw [evaluateBase, evaluateBase, evaluateSource, evaluateSource, h first.text (.root rfl)]
      simp only [evaluate, hbase, evaluateAdditions_congr (List.forall_mem_map.mp hparts)]

theorem Asks.mentions (h : t.Asks source) (hn : name ∈ Expression.names source) :
    t.Mentions name := by
  induction h with
  | source => exact .source hn
  | @root first path removals additions text =>
    cases first with
    | index position =>
      rw [← text, Expression.names_index] at hn
      cases hn
    | key key =>
      obtain rfl : key = source := text
      cases hkey : Expression.Lexeme.isName key.toList with
      | false => exact .odd hkey hn
      | true =>
        rw [Expression.names_of_isName hkey] at hn
        exact .root (List.mem_singleton.mp hn).symm
  | part mem _ ih => exact .part mem ih

/-- A template has the same value or error in two contexts with one base whose variables differ only
in names without a dot that the template does not mention. -/
theorem evaluate_eq_of_unmentioned (label : String) (t : Template) {hidden : Set String}
    (hbase : context.base = other.base)
    (hlocals : ∀ name ∉ hidden, context.local? name = other.local? name)
    (hhidden : ∀ name ∈ hidden, '.' ∉ name.toList ∧ ¬ t.Mentions name) :
    evaluate Expression.evaluator context label t =
      evaluate Expression.evaluator other label t := by
  have hget : ∀ name ∉ hidden, context.get? name = other.get? name := by
    intro name hname
    rw [Context.get?, Context.get?, hlocals name hname, hbase]
  apply evaluate_congr
  intro source hsource
  have hnamed : ∀ name ∈ Expression.names source, context.get? name = other.get? name :=
    fun name hname => hget name fun hmem => (hhidden name hmem).2 (hsource.mentions hname)
  have hdotted : ∀ s part, context.get? (s ++ "." ++ part) = other.get? (s ++ "." ++ part) := by
    intro s part
    apply hget
    intro hmem
    apply (hhidden _ hmem).1
    simp
  rw [Expression.evaluator, Expression.evaluator, Expression.evaluate_alike hbase hnamed hdotted]

theorem evaluate_eq_of_unmentioned_text :
    let t := mixin [.key "user"] [] [([.key "name"], ⟨false, expression "'secret'"⟩)]
    let context := (Context.ofBase .empty).set "user" (.object [])
    let other := context.set "secret" (.bool true)
    context.local? "secret" ≠ other.local? "secret" ∧ ¬ t.Mentions "secret" ∧
      evaluate Expression.evaluator context "t" t = evaluate Expression.evaluator other "t" t := by
  have hcut : Expression.Lexeme.ofChars "'secret'".toList = .ok [.text "secret"] := by
    decide +kernel
  have hnone : Expression.names "'secret'" = [] := by
    rw [Expression.names, hcut]
    rfl
  have hunmentioned : ¬ (mixin [.key "user"] []
      [([.key "name"], ⟨false, expression "'secret'"⟩)]).Mentions "secret" := by
    rintro (_ | text | ⟨unnamed, -⟩ | ⟨mem, inner⟩)
    · exact absurd text (by decide)
    · exact absurd unnamed (by decide)
    · obtain rfl := List.mem_singleton.mp mem
      obtain hmem | _ | _ | ⟨hpart, -⟩ := inner
      · rw [hnone] at hmem
        cases hmem
      · cases hpart
  intro t context other
  have hlocals : ∀ name ∉ ({"secret"} : Set String), context.local? name = other.local? name :=
    fun name hname => (Fields.get?_set_of_ne hname (Value.bool true) context.locals).symm
  have hhidden : ∀ name ∈ ({"secret"} : Set String), '.' ∉ name.toList ∧ ¬ t.Mentions name := by
    rintro name rfl
    exact ⟨by decide, hunmentioned⟩
  have hdiffer : context.local? "secret" ≠ other.local? "secret" := by
    intro hsame
    cases hsame
  exact ⟨hdiffer, hunmentioned, evaluate_eq_of_unmentioned "t" t rfl hlocals hhidden⟩

end Template

end ApiContract
