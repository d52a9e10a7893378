import ApiContract.Proofs.Bind
import ApiContract.Expression.Evaluation

namespace ApiContract.Expression

theorem operate_eq_ok_iff {r : Result} {v : Value} : operate r = .ok v ↔ r = .ok v :=
  mapError_eq_ok_iff

inductive Tree
  | number (x : Double)
  | text (s : String)
  | constant (value : Value)
  | name (s : String)
  | call (s : String) (args : List Tree)
  | group (inner : Tree)
  | array (items : List Tree)
  | object (members : List (String × Tree))
  | member (tree : Tree) (s : String)
  | method (tree : Tree) (s : String) (args : List Tree)
  | element (tree index : Tree)
  | negation (tree : Tree)
  | complement (tree : Tree)
  | binary (operator : Operator) (left right : Tree)

namespace Tree

variable (context : Context)

mutual

/-- The value of a tree, whose parts are evaluated from left to right. -/
def evaluate : Tree → Except Error Value
  | number x => operate (finite x)
  | text s => .ok (.string s)
  | constant value => .ok value
  | name s =>
    match context.resolve? s with
    | some (.value value) => .ok value
    | some (.helper _) => .error (.mustBeCalled s)
    | none => .error (.notDefined s)
  | call s args =>
    match context.resolve? s with
    | some (.helper helper) => do
      let values ← evaluateAll args
      (helper values).mapError (.helper s)
    | some (.value _) => .error (.unexpected (.symbol '('))
    | none => .error (.notDefined s)
  | group inner => evaluate inner
  | array items => do .ok (.array (← evaluateAll items))
  | object members => do .ok (.object (Fields.ofList (← evaluateMembers members)))
  | member tree s => do
    let value ← evaluate tree
    operate (Expression.member value s)
  | method tree s args => do
    let value ← evaluate tree
    let values ← evaluateAll args
    operate (callMethod value s values)
  | element tree index => do
    let value ← evaluate tree
    let position ← evaluate index
    operate (Expression.element value position)
  | negation tree => do
    let value ← evaluate tree
    operate (negate value)
  | complement tree => do
    let value ← evaluate tree
    .ok (.bool (!value.isTruthy))
  | binary operator left right => do
    let a ← evaluate left
    let b ← evaluate right
    operate (combine operator a b)

def evaluateAll : List Tree → Except Error (List Value)
  | [] => .ok []
  | tree :: trees => do
    let value ← evaluate tree
    let values ← evaluateAll trees
    .ok (value :: values)

def evaluateMembers : List (String × Tree) → Except Error (List (String × Value))
  | [] => .ok []
  | (key, tree) :: members => do
    let value ← evaluate tree
    let values ← evaluateMembers members
    .ok ((key, value) :: values)

end

attribute [local simp] evaluate evaluateAll evaluateMembers

variable {context} {v : Value} {vs : List Value}

theorem evaluate_name_eq_ok_iff {s : String} :
    (name s).evaluate context = .ok v ↔ context.resolve? s = some (.value v) := by
  rw [evaluate]
  split <;> simp [*]

theorem evaluate_call_eq_ok_iff {s : String} {args : List Tree} :
    (call s args).evaluate context = .ok v ↔ ∃ helper values,
      context.resolve? s = some (.helper helper) ∧ evaluateAll context args = .ok values ∧
      helper values = .ok v := by
  rw [evaluate]
  split <;> simp [*, bind_eq_ok_iff, mapError_eq_ok_iff]

theorem evaluate_array_eq_ok_iff {items : List Tree} :
    (array items).evaluate context = .ok v ↔
      ∃ values, evaluateAll context items = .ok values ∧ .array values = v := by
  simp [bind_eq_ok_iff]

theorem evaluate_object_eq_ok_iff {members : List (String × Tree)} :
    (object members).evaluate context = .ok v ↔ ∃ values,
      evaluateMembers context members = .ok values ∧ .object (Fields.ofList values) = v := by
  simp [bind_eq_ok_iff]

theorem evaluate_member_eq_ok_iff {tree : Tree} {s : String} :
    (member tree s).evaluate context = .ok v ↔
      ∃ u, tree.evaluate context = .ok u ∧ Expression.member u s = .ok v := by
  simp [bind_eq_ok_iff, operate_eq_ok_iff]

theorem evaluate_method_eq_ok_iff {tree : Tree} {s : String} {args : List Tree} :
    (method tree s args).evaluate context = .ok v ↔ ∃ u values, tree.evaluate context = .ok u ∧
      evaluateAll context args = .ok values ∧ callMethod u s values = .ok v := by
  simp [bind_eq_ok_iff, operate_eq_ok_iff]

theorem evaluate_element_eq_ok_iff {tree index : Tree} :
    (element tree index).evaluate context = .ok v ↔ ∃ u position, tree.evaluate context = .ok u ∧
      index.evaluate context = .ok position ∧ Expression.element u position = .ok v := by
  simp [bind_eq_ok_iff, operate_eq_ok_iff]

theorem evaluate_negation_eq_ok_iff {tree : Tree} :
    (negation tree).evaluate context = .ok v ↔
      ∃ u, tree.evaluate context = .ok u ∧ negate u = .ok v := by
  simp [bind_eq_ok_iff, operate_eq_ok_iff]

theorem evaluate_complement_eq_ok_iff {tree : Tree} :
    (complement tree).evaluate context = .ok v ↔
      ∃ u, tree.evaluate context = .ok u ∧ .bool (!u.isTruthy) = v := by
  simp [bind_eq_ok_iff]

theorem evaluate_binary_eq_ok_iff {operator : Operator} {left right : Tree} :
    (binary operator left right).evaluate context = .ok v ↔ ∃ a b,
      left.evaluate context = .ok a ∧ right.evaluate context = .ok b ∧
      combine operator a b = .ok v := by
  simp [bind_eq_ok_iff, operate_eq_ok_iff]

theorem evaluateAll_cons_eq_ok_iff {tree : Tree} {trees : List Tree} :
    evaluateAll context (tree :: trees) = .ok vs ↔ ∃ u values, tree.evaluate context = .ok u ∧
      evaluateAll context trees = .ok values ∧ u :: values = vs := by
  simp [bind_eq_ok_iff]

theorem evaluateMembers_cons_eq_ok_iff {key : String} {tree : Tree}
    {members : List (String × Tree)} {fields : List (String × Value)} :
    evaluateMembers context ((key, tree) :: members) = .ok fields ↔ ∃ u values,
      tree.evaluate context = .ok u ∧ evaluateMembers context members = .ok values ∧
      (key, u) :: values = fields := by
  simp [bind_eq_ok_iff]

end Tree

/-- The layers of expressions, from the loosest to the tightest. -/
inductive Layer
  | sum | product | signed | access | primary
  deriving DecidableEq

namespace Layer

def below : Layer → Layer
  | sum => product
  | product => signed
  | signed => access
  | access | primary => primary

def operator? : Layer → Lexeme → Option Operator
  | sum => sumOperator?
  | product => productOperator?
  | _ => fun _ => none

end Layer

variable (context : Context)

/-- A name that is no value but a namespace goes on behind a dot. -/
def Opens (name : String) : Prop := context.get? name = none ∧ context.isNamespace name = true

def Tree.IsOpen : Tree → Prop
  | name s => Opens context s
  | _ => False

variable {context} in
theorem not_opens_of_resolve? {s : String} {v : Value} (h : context.resolve? s = some (.value v)) :
    ¬ Opens context s := by
  rintro ⟨hnone, -⟩
  simp [Context.resolve?, hnone] at h

variable {context} in
theorem Tree.not_isOpen_of_evaluate {tree : Tree} {v : Value} (h : tree.evaluate context = .ok v) :
    ¬ tree.IsOpen context := by
  cases tree with
  | name s =>
    rw [Tree.evaluate] at h
    split at h
    · next hbound => exact not_opens_of_resolve? hbound
    · cases h
    · cases h
  | _ => exact id

inductive Extends : String → List Lexeme → String → Prop
  | done {name : String} : Extends name [] name
  | more {name part full : String} {ts : List Lexeme} (opens : Opens context name)
    (rest : Extends (name ++ "." ++ part) ts full) :
    Extends name (.symbol '.' :: .name part :: ts) full

mutual

/-- The lexemes of an expression of some layer with its tree. -/
inductive Derives : Layer → List Lexeme → Tree → Prop
  | product {ts : List Lexeme} {t : Tree} (inner : Derives .product ts t) : Derives .sum ts t
  | signed {ts : List Lexeme} {t : Tree} (inner : Derives .signed ts t) : Derives .product ts t
  | access {ts : List Lexeme} {t : Tree} (inner : Derives .access ts t) : Derives .signed ts t
  | primary {ts : List Lexeme} {t : Tree} (inner : Derives .primary ts t) : Derives .access ts t
  | behind {layer : Layer} {ts us : List Lexeme} {left t : Tree} (first : Derives layer ts left)
    (step : Step layer left us t) : Derives layer (ts ++ us) t
  | negation {ts : List Lexeme} {t : Tree} (inner : Derives .signed ts t) :
    Derives .signed (.symbol '-' :: ts) (.negation t)
  | complement {ts : List Lexeme} {t : Tree} (inner : Derives .signed ts t) :
    Derives .signed (.symbol '!' :: ts) (.complement t)
  | number {x : Double} : Derives .primary [.number x] (.number x)
  | text {s : String} : Derives .primary [.text s] (.text s)
  | constant {s : String} {value : Value} (known : constant? s = some value) :
    Derives .primary [.name s] (.constant value)
  | name {s full : String} {ts : List Lexeme} (free : constant? s = none)
    (reaches : Extends context s ts full) : Derives .primary (.name s :: ts) (.name full)
  | call {s full : String} {ts us : List Lexeme} {args : List Tree} (free : constant? s = none)
    (reaches : Extends context s ts full) (arguments : Arguments us args) :
    Derives .primary (.name s :: (ts ++ us)) (.call full args)
  | group {ts : List Lexeme} {t : Tree} (inner : Derives .sum ts t) :
    Derives .primary (.symbol '(' :: (ts ++ [.symbol ')'])) (.group t)
  | array {ts : List Lexeme} {items : List Tree} (inner : Items ts items) :
    Derives .primary (.symbol '[' :: ts) (.array items)
  | object {ts : List Lexeme} {members : List (String × Tree)} (inner : Members ts members) :
    Derives .primary (.symbol '\x7b' :: ts) (.object members)

/-- What stands behind an expression and makes a greater one of it in the same layer. -/
inductive Step : Layer → Tree → List Lexeme → Tree → Prop
  | operation {layer : Layer} {sign : Lexeme} {operator : Operator} {ts : List Lexeme}
    {left right : Tree} (operates : layer.operator? sign = some operator)
    (operand : Derives layer.below ts right) :
    Step layer left (sign :: ts) (.binary operator left right)
  | member {left : Tree} {s : String} (closed : ¬ left.IsOpen context) :
    Step .access left [.symbol '.', .name s] (.member left s)
  | method {left : Tree} {s : String} {ts : List Lexeme} {args : List Tree}
    (closed : ¬ left.IsOpen context) (arguments : Arguments ts args) :
    Step .access left (.symbol '.' :: .name s :: ts) (.method left s args)
  | element {left index : Tree} {ts : List Lexeme} (inner : Derives .sum ts index) :
    Step .access left (.symbol '[' :: (ts ++ [.symbol ']'])) (.element left index)

inductive Arguments : List Lexeme → List Tree → Prop
  | none : Arguments [.symbol '(', .symbol ')'] []
  | some {ts : List Lexeme} {args : List Tree} (tail : ArgumentTail ts args) :
    Arguments (.symbol '(' :: ts) args

inductive ArgumentTail : List Lexeme → List Tree → Prop
  | last {ts : List Lexeme} {t : Tree} (inner : Derives .sum ts t) :
    ArgumentTail (ts ++ [.symbol ')']) [t]
  | more {ts us : List Lexeme} {t : Tree} {args : List Tree} (inner : Derives .sum ts t)
    (tail : ArgumentTail us args) : ArgumentTail (ts ++ .symbol ',' :: us) (t :: args)

inductive Items : List Lexeme → List Tree → Prop
  | none : Items [.symbol ']'] []
  | last {ts : List Lexeme} {t : Tree} (inner : Derives .sum ts t) : Items (ts ++ [.symbol ']']) [t]
  | more {ts us : List Lexeme} {t : Tree} {items : List Tree} (inner : Derives .sum ts t)
    (tail : Items us items) : Items (ts ++ .symbol ',' :: us) (t :: items)

inductive Members : List Lexeme → List (String × Tree) → Prop
  | none : Members [.symbol '\x7d'] []
  | last {k : Lexeme} {key : String} {ts : List Lexeme} {t : Tree} (named : key? k = some key)
    (inner : Derives .sum ts t) :
    Members (k :: .symbol ':' :: (ts ++ [.symbol '\x7d'])) [(key, t)]
  | more {k : Lexeme} {key : String} {ts us : List Lexeme} {t : Tree}
    {members : List (String × Tree)} (named : key? k = some key) (inner : Derives .sum ts t)
    (tail : Members us members) :
    Members (k :: .symbol ':' :: (ts ++ .symbol ',' :: us)) ((key, t) :: members)

end

end ApiContract.Expression
