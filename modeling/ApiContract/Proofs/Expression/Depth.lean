import ApiContract.Proofs.Expression.Cursor

namespace ApiContract.Expression.Cursor

variable {α β : Type} {context : Context} {ts : List Lexeme} {r other : Readers}

def Kept (action other : Action α) : Prop :=
  ∀ p answer, action p = some answer → other p = some answer

namespace Kept

theorem refl (action : Action α) : Kept action action := fun _ _ h => h

theorem silent (other : Action α) : Kept silent other := fun _ _ h => nomatch h

theorem bind {first other : Action β} {next more : β → Action α} (h : Kept first other)
    (hnext : ∀ b, Kept (next b) (more b)) : Kept (first >>= next) (other >>= more) := by
  intro p answer hrun
  cases hfirst : first p with
  | none =>
    change (first p).bind _ = _ at hrun
    rw [hfirst] at hrun
    cases hrun
  | some found =>
    obtain ⟨result, stop⟩ := found
    have hother := h p _ hfirst
    cases result with
    | error e => exact (run_bind_error hother).trans ((run_bind_error hfirst).symm.trans hrun)
    | ok b =>
      rw [run_bind_ok hfirst] at hrun
      rw [run_bind_ok hother]
      exact hnext b stop answer hrun

theorem after (first : Action β) {next more : β → Action α} (h : ∀ b, Kept (next b) (more b)) :
    Kept (first >>= next) (first >>= more) := (refl first).bind h

end Kept

structure Readers.Kept (r other : Readers) : Prop where
  extend : ∀ name, Cursor.Kept (r.extend name) (other.extend name)
  expression : Cursor.Kept r.expression other.expression
  sum : Cursor.Kept r.sum other.sum
  sumLoop : ∀ left, Cursor.Kept (r.sumLoop left) (other.sumLoop left)
  product : Cursor.Kept r.product other.product
  productLoop : ∀ left, Cursor.Kept (r.productLoop left) (other.productLoop left)
  signed : Cursor.Kept r.signed other.signed
  access : Cursor.Kept r.access other.access
  accessLoop : ∀ value, Cursor.Kept (r.accessLoop value) (other.accessLoop value)
  arguments : Cursor.Kept r.arguments other.arguments
  argumentLoop : ∀ args, Cursor.Kept (r.argumentLoop args) (other.argumentLoop args)
  primary : Cursor.Kept r.primary other.primary
  named : ∀ name, Cursor.Kept (r.named name) (other.named name)
  items : ∀ found, Cursor.Kept (r.items found) (other.items found)
  fields : ∀ found, Cursor.Kept (r.fields found) (other.fields found)

section Calls

variable (h : r.Kept other)

include h

theorem kept_extend (name : String) :
    Kept (extend context ts r name) (extend context ts other name) := by
  refine .after _ fun dot => ?_
  split
  · refine .after _ fun part => ?_
    split
    · exact .after _ fun _ => .after _ fun _ => h.extend _
    · exact .refl _
  · exact .refl _

theorem kept_sumLoop (left : Value) : Kept (sumLoop ts r left) (sumLoop ts other left) := by
  refine .after _ fun found => ?_
  split
  · exact .after _ fun _ => h.product.bind fun right => .after _ fun value => h.sumLoop value
  · exact .refl _

theorem kept_productLoop (left : Value) :
    Kept (productLoop ts r left) (productLoop ts other left) := by
  refine .after _ fun found => ?_
  split
  · exact .after _ fun _ => h.signed.bind fun right => .after _ fun value => h.productLoop value
  · exact .refl _

theorem kept_signed : Kept (signed ts r) (signed ts other) := by
  refine .after _ fun minus => ?_
  split
  · exact .after _ fun _ => h.signed.bind fun value => .refl _
  · refine .after _ fun mark => ?_
    split
    · exact .after _ fun _ => h.signed.bind fun value => .refl _
    · exact h.access

theorem kept_accessLoop (value : Value) :
    Kept (accessLoop ts r value) (accessLoop ts other value) := by
  refine .after _ fun dot => ?_
  split
  · refine .after _ fun _ => .after _ fun name => .after _ fun opened => ?_
    split
    · exact h.arguments.bind fun args => .after _ fun result => h.accessLoop result
    · exact .after _ fun result => h.accessLoop result
  · refine .after _ fun bracket => ?_
    split
    · exact .after _ fun _ => h.expression.bind fun index => .after _ fun _ =>
        .after _ fun result => h.accessLoop result
    · exact .refl _

theorem kept_arguments : Kept (arguments ts r) (arguments ts other) := by
  refine .after _ fun _ => .after _ fun closed => ?_
  split
  · exact .refl _
  · exact h.argumentLoop []

theorem kept_argumentLoop (args : List Value) :
    Kept (argumentLoop ts r args) (argumentLoop ts other args) := by
  refine h.expression.bind fun arg => .after _ fun comma => ?_
  split
  · exact .after _ fun _ => h.argumentLoop _
  · exact .refl _

theorem kept_primary : Kept (primary ts r) (primary ts other) := by
  refine .after _ fun found => ?_
  split
  · exact .refl _
  · exact .refl _
  · exact h.named _
  · exact h.expression.bind fun value => .refl _
  · exact h.items []
  · exact h.fields []
  · exact .refl _
  · exact .refl _

theorem kept_named (name : String) :
    Kept (named context ts r name) (named context ts other name) := by
  rw [named, named]
  split
  · exact .refl _
  · refine (h.extend name).bind fun full => ?_
    split
    · exact .refl _
    · refine .after _ fun opened => ?_
      split
      · exact h.arguments.bind fun args => .refl _
      · exact .refl _
    · exact .refl _

theorem kept_items (found : List Value) : Kept (items ts r found) (items ts other found) := by
  refine .after _ fun closed => ?_
  split
  · exact .refl _
  · refine h.expression.bind fun item => .after _ fun comma => ?_
    split
    · exact .after _ fun _ => h.items _
    · exact .refl _

theorem kept_fields (found : Fields Value) : Kept (fields ts r found) (fields ts other found) := by
  refine .after _ fun t => ?_
  split
  · exact .refl _
  · split
    · exact .refl _
    · refine .after _ fun _ => h.expression.bind fun value => .after _ fun comma => ?_
      split
      · exact .after _ fun _ => h.fields _
      · exact .refl _

theorem kept_whole : Kept (whole ts r) (whole ts other) := h.expression.bind fun _ => .refl _

theorem Readers.Kept.calling : (calling context ts r).Kept (calling context ts other) where
  extend := kept_extend h
  expression := h.sum
  sum := h.product.bind h.sumLoop
  sumLoop := kept_sumLoop h
  product := h.signed.bind h.productLoop
  productLoop := kept_productLoop h
  signed := kept_signed h
  access := h.primary.bind h.accessLoop
  accessLoop := kept_accessLoop h
  arguments := kept_arguments h
  argumentLoop := kept_argumentLoop h
  primary := kept_primary h
  named := kept_named h
  items := kept_items h
  fields := kept_fields h

end Calls

theorem endless_kept (r : Readers) : endless.Kept r := by
  constructor <;> intros <;> exact .silent _

/-- An answer stays what it is when calls may go deeper. -/
theorem within_kept {calls more : Nat} (hle : calls ≤ more) :
    (within context ts calls).Kept (within context ts more) := by
  induction calls generalizing more with
  | zero => exact endless_kept _
  | succ calls ih =>
    obtain ⟨more, rfl⟩ := Nat.exists_eq_add_of_le' hle
    exact (ih (Nat.le_add_left calls more)).calling

end ApiContract.Expression.Cursor
