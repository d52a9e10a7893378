import Mathlib.Data.List.Induction
import ApiContract.Proofs.Template.Parts
import ApiContract.Proofs.Template.Removals
import ApiContract.Proofs.Value.Obstacles

namespace ApiContract.Template

inductive Cause
  | expression (source message : String)
  | mixin (obstacle : Value.Obstacle)

def Cause.located (label : String) : Cause → EvaluationError
  | expression source message => .expression label source message
  | mixin obstacle => .mixin label obstacle

section Walk

variable (evaluator : Evaluator) (context : Context)

def Yields (t : Template) (value : Value) : Prop :=
  ∀ label, evaluate evaluator context label t = .ok value

def Succeeds (t : Template) : Prop := ∃ value, Yields evaluator context t value

/-- A part whose turn comes: everything before it has a value. What is before an addition is the
mixin without this addition and those behind it. -/
inductive Enters : Template → String → Template → Prop
  | item {before after : List Template} {item : Template}
    (earlier : ∀ part ∈ before, Succeeds evaluator context part) :
    Enters (array (before ++ item :: after)) (toString before.length) item
  | entry {before after : List (String × Slot Template)} {key : String} {slot : Slot Template}
    (earlier : ∀ entry ∈ before, Succeeds evaluator context entry.2.value) :
    Enters (object (before ++ (key, slot) :: after)) key slot.value
  | addition {base path : Path} {removals : List Path} {before after : List (Path × Slot Template)}
    {slot : Slot Template} {left : Value}
    (earlier : Yields evaluator context (mixin base removals before) left) :
    Enters (mixin base removals (before ++ (path, slot) :: after)) path.text slot.value

/-- A walk from a template to a part of a part, with what each step adds to the label. -/
inductive Reaches : Template → List String → Template → Prop
  | here (t : Template) : Reaches t [] t
  | inward {t part inner : Template} {step : String} {steps : List String}
    (enters : Enters evaluator context t step part) (further : Reaches part steps inner) :
    Reaches t (step :: steps) inner

/-- A template that is itself at fault: the evaluator rejects its expression or the name that its
base starts with, or the navigation to the base, a removal or an addition is stopped. All that is
done before has succeeded. -/
inductive FailsHere : Template → Cause → Prop
  | source {source message : String} (rejects : evaluator source context = .error message) :
    FailsHere (expression source) (.expression source message)
  | root {name : Segment} {path : Path} {removals : List Path}
    {additions : List (Path × Slot Template)} {message : String}
    (rejects : evaluator name.text context = .error message) :
    FailsHere (mixin (name :: path) removals additions) (.expression name.text message)
  | rootless {removals : List Path} {additions : List (Path × Slot Template)} :
    FailsHere (mixin [] removals additions) (.mixin (.notNavigable ""))
  | navigation {name : Segment} {path : Path} {removals : List Path}
    {additions : List (Path × Slot Template)} {root : Value} {obstacle : Value.Obstacle}
    (earlier : evaluator name.text context = .ok root)
    (stops : root.navigate name.text path = .error obstacle) :
    FailsHere (mixin (name :: path) removals additions) (.mixin obstacle)
  | removal {base path : Path} {before after : List Path}
    {additions : List (Path × Slot Template)} {left : Value} {obstacle : Value.Obstacle}
    (earlier : Yields evaluator context (mixin base before []) left)
    (stops : left.remove base.text path = .error obstacle) :
    FailsHere (mixin base (before ++ path :: after) additions) (.mixin obstacle)
  | addition {base path : Path} {removals : List Path} {before after : List (Path × Slot Template)}
    {slot : Slot Template} {left added : Value} {obstacle : Value.Obstacle}
    (earlier : Yields evaluator context (mixin base removals before) left)
    (yields : Yields evaluator context slot.value added)
    (kept : isDropped slot.optional added = false)
    (stops : left.add base.text path added = .error obstacle) :
    FailsHere (mixin base removals (before ++ (path, slot) :: after)) (.mixin obstacle)

end Walk

variable {evaluator : Evaluator} {context : Context} {label walked step : String}
  {t part : Template} {items before after : List Template} {base : Path}
  {removals earlier later : List Path} {slot : Slot Template} {value left : Value}
  {additions done more : List (Path × Slot Template)} {steps : List String} {cause : Cause}
  {e : EvaluationError}

theorem evaluateAdditions_append :
    evaluateAdditions evaluator context label walked value (done ++ more) =
      evaluateAdditions evaluator context label walked value done >>= fun left =>
        evaluateAdditions evaluator context label walked left more := by
  induction done generalizing value with
  | nil => rfl
  | cons addition done ih =>
    obtain ⟨path, optional, template⟩ := addition
    simp only [List.cons_append, evaluateAdditions, bind_assoc]
    congr 1
    funext added
    split
    · exact ih
    · simp only [bind_assoc, ih]

theorem Yields.evaluate_additions (h : Yields evaluator context (mixin base removals done) left) :
    evaluate evaluator context label (mixin base removals (done ++ more)) =
      evaluateAdditions evaluator context label base.text left more := by
  obtain ⟨value, hvalue, hrest⟩ := bind_eq_ok_iff.mp (h label)
  obtain ⟨removed, hremoved, hdone⟩ := bind_eq_ok_iff.mp hrest
  rw [evaluate, hvalue, ok_bind, hremoved, ok_bind, evaluateAdditions_append, hdone, ok_bind]

theorem Yields.evaluate_removals (h : Yields evaluator context (mixin base earlier []) left) :
    evaluate evaluator context label (mixin base (earlier ++ later) additions) =
      removeAll label base.text later left >>= fun value =>
        evaluateAdditions evaluator context label base.text value additions := by
  obtain ⟨value, hvalue, hrest⟩ := bind_eq_ok_iff.mp (h label)
  obtain ⟨removed, hremoved, hnone⟩ := bind_eq_ok_iff.mp hrest
  obtain rfl : removed = left := by simpa [evaluateAdditions] using hnone
  rw [evaluate, hvalue, ok_bind, removeAll_append, hremoved, ok_bind]

theorem evaluateItems_eq_error {index : Nat}
    (h : ∀ item ∈ before, Succeeds evaluator context item)
    (hpart : evaluate evaluator context (extended label (toString (index + before.length))) part =
      .error e) :
    evaluateItems evaluator context label index (before ++ part :: after) = .error e := by
  induction before generalizing index with
  | nil =>
    rw [List.nil_append, evaluateItems]
    exact bind_eq_error_iff.mpr (.inl hpart)
  | cons item before ih =>
    obtain ⟨⟨value, hvalue⟩, hbefore⟩ := List.forall_mem_cons.mp h
    have hrest : evaluateItems evaluator context label (index + 1) (before ++ part :: after) =
        .error e := by
      apply ih hbefore
      rwa [List.length_cons, ← Nat.add_assoc, Nat.add_right_comm] at hpart
    rw [List.cons_append, evaluateItems, hvalue, ok_bind, hrest, error_bind]

theorem evaluateEntries_eq_error {key : String} {front back : List (String × Slot Template)}
    (h : ∀ entry ∈ front, Succeeds evaluator context entry.2.value)
    (hpart : evaluate evaluator context (extended label key) slot.value = .error e) :
    evaluateEntries evaluator context label (front ++ (key, slot) :: back) = .error e := by
  induction front with
  | nil =>
    rw [List.nil_append, evaluateEntries]
    exact bind_eq_error_iff.mpr (.inl hpart)
  | cons entry front ih =>
    obtain ⟨⟨value, hvalue⟩, hfront⟩ := List.forall_mem_cons.mp h
    rw [List.cons_append, evaluateEntries, hvalue, ok_bind, ih hfront, error_bind]

theorem Enters.evaluate_eq_error (h : Enters evaluator context t step part)
    (hpart : evaluate evaluator context (extended label step) part = .error e) :
    evaluate evaluator context label t = .error e := by
  cases h with
  | item earlier =>
    rw [← Nat.zero_add (List.length _)] at hpart
    rw [evaluate, evaluateItems_eq_error earlier hpart, error_bind]
  | entry earlier => rw [evaluate, evaluateEntries_eq_error earlier hpart, error_bind]
  | addition earlier => rw [earlier.evaluate_additions, evaluateAdditions, hpart, error_bind]

theorem FailsHere.evaluate_eq_error (h : FailsHere evaluator context t cause) :
    evaluate evaluator context label t = .error (cause.located label) := by
  cases h with
  | source rejects =>
    rw [evaluate, evaluateSource, rejects]
    rfl
  | root rejects =>
    rw [evaluate, evaluateBase, evaluateSource, rejects]
    rfl
  | rootless => rfl
  | navigation earlier stops =>
    rw [evaluate, evaluateBase, evaluateSource, earlier, Except.mapError, ok_bind, stops]
    rfl
  | removal earlier stops =>
    rw [earlier.evaluate_removals, removeAll_cons, stops]
    rfl
  | addition earlier yields kept stops =>
    rw [earlier.evaluate_additions, evaluateAdditions, yields, ok_bind, kept, stops]
    rfl

theorem Reaches.evaluate_eq_error (h : Reaches evaluator context t steps part)
    (hpart : FailsHere evaluator context part cause) :
    evaluate evaluator context label t = .error (cause.located (extendedBy label steps)) := by
  induction h generalizing label with
  | here => exact hpart.evaluate_eq_error
  | inward enters _ ih => exact enters.evaluate_eq_error (ih hpart)

section Lost

variable {α : Type}

theorem holds_or_lost {P : List α → Prop} (hnil : P []) (as : List α) :
    P as ∨ ∃ before a after, as = before ++ a :: after ∧ P before ∧ ¬ P (before ++ [a]) := by
  induction as using List.reverseRecOn with
  | nil => exact .inl hnil
  | append_singleton as a ih =>
    obtain has | ⟨before, b, after, rfl, hbefore, hb⟩ := ih
    · by_cases h : P (as ++ [a])
      · exact .inl h
      · exact .inr ⟨as, a, [], rfl, has, h⟩
    · exact .inr ⟨before, b, after ++ [a], by simp, hbefore, hb⟩

theorem forall_or_firstPast (P : α → Prop) (as : List α) :
    (∀ a ∈ as, P a) ∨ ∃ a, FirstPast P as a ∧ ¬ P a := by
  obtain h | ⟨before, a, after, rfl, hbefore, hlost⟩ :=
    @holds_or_lost _ (fun as => ∀ a ∈ as, P a) (List.forall_mem_nil _) as
  · exact .inl h
  · refine .inr ⟨a, ⟨before, after, rfl, hbefore⟩, fun ha => hlost ?_⟩
    exact List.forall_mem_append.mpr ⟨hbefore, List.forall_mem_singleton.mpr ha⟩

end Lost

def Settled (evaluator : Evaluator) (context : Context) (t : Template) : Prop :=
  Succeeds evaluator context t ∨ ∃ steps part cause,
    Reaches evaluator context t steps part ∧ FailsHere evaluator context part cause

theorem FailsHere.settled (h : FailsHere evaluator context t cause) : Settled evaluator context t :=
  .inr ⟨[], t, cause, .here t, h⟩

/-- A template is settled with a part whose turn comes and that has no value. -/
theorem Enters.settled (h : Enters evaluator context t step part)
    (hpart : Settled evaluator context part) (hnone : ¬ Succeeds evaluator context part) :
    Settled evaluator context t := by
  obtain ⟨steps, inner, cause, hsteps, hcause⟩ := hpart.resolve_left hnone
  exact .inr ⟨step :: steps, inner, cause, .inward h hsteps, hcause⟩

theorem evaluateItems_eq_ok (h : ∀ item ∈ items, Succeeds evaluator context item) :
    ∃ values, ∀ label index, evaluateItems evaluator context label index items = .ok values := by
  induction items with
  | nil => exact ⟨[], fun _ _ => rfl⟩
  | cons item items ih =>
    obtain ⟨⟨value, hvalue⟩, hitems⟩ := List.forall_mem_cons.mp h
    obtain ⟨values, hvalues⟩ := ih hitems
    refine ⟨value :: values, fun label index => ?_⟩
    rw [evaluateItems, hvalue, ok_bind, hvalues, ok_bind]

theorem settled_array (h : ∀ item ∈ items, Settled evaluator context item) :
    Settled evaluator context (array items) := by
  obtain hall | ⟨item, ⟨before, after, rfl, hbefore⟩, hnone⟩ :=
    forall_or_firstPast (Succeeds evaluator context) items
  · obtain ⟨values, hvalues⟩ := evaluateItems_eq_ok hall
    refine .inl ⟨.array values, fun label => ?_⟩
    rw [evaluate, hvalues, ok_bind]
  · exact (Enters.item hbefore).settled (h item (by simp)) hnone

theorem evaluateEntries_eq_ok {entries : List (String × Slot Template)}
    (h : ∀ entry ∈ entries, Succeeds evaluator context entry.2.value) :
    ∃ fields, ∀ label, evaluateEntries evaluator context label entries = .ok fields := by
  induction entries with
  | nil => exact ⟨[], fun _ => rfl⟩
  | cons entry entries ih =>
    obtain ⟨key, optional, template⟩ := entry
    obtain ⟨⟨value, hvalue⟩, hentries⟩ := List.forall_mem_cons.mp h
    obtain ⟨fields, hfields⟩ := ih hentries
    refine ⟨if isDropped optional value then fields else (key, value) :: fields, fun label => ?_⟩
    rw [evaluateEntries, hvalue, ok_bind, hfields, ok_bind]

theorem settled_object {entries : List (String × Slot Template)}
    (h : ∀ entry ∈ entries, Settled evaluator context entry.2.value) :
    Settled evaluator context (object entries) := by
  obtain hall | ⟨⟨key, slot⟩, ⟨before, after, rfl, hbefore⟩, hnone⟩ :=
    forall_or_firstPast (fun entry => Succeeds evaluator context entry.2.value) entries
  · obtain ⟨fields, hfields⟩ := evaluateEntries_eq_ok hall
    refine .inl ⟨.object fields, fun label => ?_⟩
    rw [evaluate, hfields, ok_bind]
  · exact (Enters.entry hbefore).settled (h (key, slot) (by simp)) hnone

theorem base_succeeds_or_failsHere (evaluator : Evaluator) (context : Context) (base : Path) :
    Succeeds evaluator context (mixin base [] []) ∨ ∀ removals additions, ∃ cause,
      FailsHere evaluator context (mixin base removals additions) cause := by
  cases base with
  | nil => exact .inr fun removals additions => ⟨_, .rootless⟩
  | cons name path =>
    cases hroot : evaluator name.text context with
    | error message => exact .inr fun removals additions => ⟨_, .root hroot⟩
    | ok root =>
      cases hvalue : root.navigate name.text path with
      | error obstacle => exact .inr fun removals additions => ⟨_, .navigation hroot hvalue⟩
      | ok value =>
        refine .inl ⟨value, fun label => ?_⟩
        rw [evaluate, evaluateBase, evaluateSource, hroot, Except.mapError, ok_bind, hvalue]
        rfl

theorem removals_succeed_or_failsHere (h : Succeeds evaluator context (mixin base [] []))
    (removals : List Path) :
    Succeeds evaluator context (mixin base removals []) ∨ ∀ additions, ∃ cause,
      FailsHere evaluator context (mixin base removals additions) cause := by
  obtain hall | ⟨before, path, after, rfl, ⟨left, hleft⟩, hlost⟩ :=
    @holds_or_lost _ (fun removals => Succeeds evaluator context (mixin base removals [])) h
      removals
  · exact .inl hall
  · cases hnext : left.remove base.text path with
    | error obstacle => exact .inr fun additions => ⟨_, .removal hleft hnext⟩
    | ok next =>
      refine absurd ⟨next, fun label => ?_⟩ hlost
      rw [hleft.evaluate_removals, removeAll_cons, hnext]
      rfl

theorem additions_settled (h : Succeeds evaluator context (mixin base removals []))
    (hadditions : ∀ addition ∈ additions, Settled evaluator context addition.2.value) :
    Settled evaluator context (mixin base removals additions) := by
  obtain hall | ⟨before, ⟨path, slot⟩, after, rfl, ⟨left, hleft⟩, hlost⟩ :=
    @holds_or_lost _ (fun additions => Succeeds evaluator context (mixin base removals additions)) h
      additions
  · exact .inl hall
  -- With this addition the mixin has no value any more: its template, or adding what it yields.
  by_cases hslot : Succeeds evaluator context slot.value
  case neg => exact (Enters.addition hleft).settled (hadditions (path, slot) (by simp)) hslot
  obtain ⟨added, hadded⟩ := hslot
  cases hkept : isDropped slot.optional added with
  | true =>
    refine absurd ⟨left, fun label => ?_⟩ hlost
    rw [hleft.evaluate_additions, evaluateAdditions, hadded, ok_bind, hkept]
    rfl
  | false =>
    cases hnext : left.add base.text path added with
    | error obstacle => exact (FailsHere.addition hleft hadded hkept hnext).settled
    | ok next =>
      refine absurd ⟨next, fun label => ?_⟩ hlost
      rw [hleft.evaluate_additions, evaluateAdditions, hadded, ok_bind, hkept, hnext]
      rfl

theorem settled_mixin (h : ∀ addition ∈ additions, Settled evaluator context addition.2.value) :
    Settled evaluator context (mixin base removals additions) := by
  obtain hbase | hbase := base_succeeds_or_failsHere evaluator context base
  · obtain hremovals | hremovals := removals_succeed_or_failsHere hbase removals
    · exact additions_settled hremovals h
    · obtain ⟨cause, hcause⟩ := hremovals additions
      exact hcause.settled
  · obtain ⟨cause, hcause⟩ := hbase removals additions
    exact hcause.settled

theorem settled (evaluator : Evaluator) (context : Context) (t : Template) :
    Settled evaluator context t := by
  induction t using induction_on_parts with
  | step t ih =>
    cases t with
    | expression source =>
      cases hvalue : evaluator source context with
      | error message => exact (FailsHere.source hvalue).settled
      | ok value =>
        refine .inl ⟨value, fun label => ?_⟩
        rw [evaluate, evaluateSource, hvalue]
        rfl
    | array items => exact settled_array ih
    | object entries => exact settled_object (List.forall_mem_map.mp ih)
    | mixin base removals additions => exact settled_mixin (List.forall_mem_map.mp ih)

theorem evaluate_eq_ok_iff :
    evaluate evaluator context label t = .ok value ↔ Yields evaluator context t value := by
  constructor
  · intro h other
    obtain ⟨value', hvalue⟩ | ⟨steps, part, cause, hsteps, hcause⟩ := settled evaluator context t
    · rw [hvalue] at h ⊢
      exact h
    · rw [hsteps.evaluate_eq_error hcause] at h
      cases h
  · exact fun h => h label

theorem evaluate_eq_error_iff : evaluate evaluator context label t = .error e ↔
    ∃ steps part cause, Reaches evaluator context t steps part ∧
      FailsHere evaluator context part cause ∧ e = cause.located (extendedBy label steps) := by
  constructor
  · intro h
    obtain ⟨value, hvalue⟩ | ⟨steps, part, cause, hsteps, hcause⟩ := settled evaluator context t
    · rw [hvalue] at h
      cases h
    · rw [hsteps.evaluate_eq_error hcause] at h
      cases h
      exact ⟨steps, part, cause, hsteps, hcause, rfl⟩
  · rintro ⟨steps, part, cause, hsteps, hcause, rfl⟩
    exact hsteps.evaluate_eq_error hcause

/-- Evaluation fails exactly when a walk leads to a part at fault with everything before it done,
and the error has the label of this walk. Another label makes no difference to a value, and to an
error only where the label stands. -/
theorem evaluate_located (evaluator : Evaluator) (context : Context) (t : Template) :
    (∀ label e, evaluate evaluator context label t = .error e ↔
      ∃ (steps : List String) (part : Template) (cause : Cause),
        Reaches evaluator context t steps part ∧ FailsHere evaluator context part cause ∧
          e = cause.located (extendedBy label steps)) ∧
    (∀ label other value, evaluate evaluator context label t = .ok value ↔
      evaluate evaluator context other t = .ok value) ∧
    ∀ label e, evaluate evaluator context label t = .error e →
      ∃ (steps : List String) (cause : Cause), e = cause.located (extendedBy label steps) ∧
        ∀ other, evaluate evaluator context other t =
          .error (cause.located (extendedBy other steps)) := by
  refine ⟨fun label e => evaluate_eq_error_iff,
    fun label other value => evaluate_eq_ok_iff.trans evaluate_eq_ok_iff.symm, fun label e h => ?_⟩
  obtain ⟨steps, part, cause, hsteps, hcause, rfl⟩ := evaluate_eq_error_iff.mp h
  exact ⟨steps, cause, rfl, fun other => hsteps.evaluate_eq_error hcause⟩

example (context : Context) :
    let evaluator : Evaluator := fun source _ =>
      if source = "nope" then .error "there is no nope" else .ok .null
    evaluate evaluator context "<post>" (object [("user", ⟨false, object
      [("tags", ⟨false, array [expression "1", expression "nope"]⟩)]⟩)]) =
        .error (.expression "<post>.user.tags.1" "nope" "there is no nope") := rfl

end ApiContract.Template
