import ApiContract.Context
import ApiContract.Expression.Evaluation
import ApiContract.Template.Basic
import ApiContract.Value.Edit

namespace ApiContract

abbrev Evaluator := String → Context → Except String Value

def Expression.evaluator : Evaluator := fun source context =>
  (Expression.evaluate source context).mapError Expression.Error.message

inductive EvaluationError
  | expression (label source message : String)
  | mixin (label : String) (obstacle : Value.Obstacle)
  deriving DecidableEq

namespace EvaluationError

def label : EvaluationError → String
  | expression label _ _ => label
  | mixin label _ => label

def message : EvaluationError → String
  | expression label _ message => "Could not evaluate " ++ label ++ ": " ++ message
  | mixin label obstacle => "Could not apply mixin in " ++ label ++ ": " ++ obstacle.message

end EvaluationError

namespace Template

def evaluateSource (evaluator : Evaluator) (context : Context) (label source : String) :
    Except EvaluationError Value :=
  (evaluator source context).mapError (.expression label source)

/-- The value that a mixin edits: its first segment is a name, the others lead into its value. -/
def evaluateBase (evaluator : Evaluator) (context : Context) (label : String) :
    Path → Except EvaluationError Value
  | [] => .error (.mixin label (.notNavigable ""))
  | name :: path => do
    let root ← evaluateSource evaluator context label name.text
    (root.navigate name.text path).mapError (.mixin label)

def removeAll (label walked : String) : List Path → Value → Except EvaluationError Value
  | [], value => .ok value
  | path :: paths, value =>
    match value.remove walked path with
    | .error obstacle => .error (.mixin label obstacle)
    | .ok value => removeAll label walked paths value

def isDropped (optional : Bool) (value : Value) : Bool := optional && value.isNull

variable (evaluator : Evaluator) (context : Context)

mutual

def evaluate (label : String) : Template → Except EvaluationError Value
  | expression source => evaluateSource evaluator context label source
  | array items => do .ok (.array (← evaluateItems label 0 items))
  | object entries => do .ok (.object (← evaluateEntries label entries))
  | mixin base removals additions => do
    let value ← evaluateBase evaluator context label base
    let value ← removeAll label base.text removals value
    evaluateAdditions label base.text value additions

def evaluateItems (label : String) (index : Nat) : List Template → Except EvaluationError (List Value)
  | [] => .ok []
  | item :: items => do
    let value ← evaluate (extended label (toString index)) item
    let values ← evaluateItems label (index + 1) items
    .ok (value :: values)

def evaluateEntries (label : String) :
    List (String × Slot Template) → Except EvaluationError (List (String × Value))
  | [] => .ok []
  | (key, ⟨optional, template⟩) :: entries => do
    let value ← evaluate (extended label key) template
    let fields ← evaluateEntries label entries
    .ok (if isDropped optional value then fields else (key, value) :: fields)

/-- The additions one after the other, each to the value that the ones before it have made. -/
def evaluateAdditions (label walked : String) (value : Value) :
    List (Path × Slot Template) → Except EvaluationError Value
  | [] => .ok value
  | (path, ⟨optional, template⟩) :: additions => do
    let added ← evaluate (extended label path.text) template
    if isDropped optional added then evaluateAdditions label walked value additions
    else do
      let value ← (value.add walked path added).mapError (EvaluationError.mixin label)
      evaluateAdditions label walked value additions

end

end Template

end ApiContract
