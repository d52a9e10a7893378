import ApiContract.Comparison
import ApiContract.Template.Evaluation

namespace ApiContract

inductive Failure
  | evaluation (error : EvaluationError)
  | status (expected actual : Nat) (body : Value)
  | output (mismatch : Mismatch) (post actual expected : Value)
  | missing (collection id : String)
  | findById (collection : String) (mismatch : Mismatch) (actual expected : Value)
  | notFound (collection : String) (expected : Value) (candidates : List (Value × Mismatch))
  | storage (message : String)
  | transport (message : String)

def Failure.message : Failure → String
  | evaluation error => error.message
  | status expected actual _ =>
    "Expected status code " ++ toString expected ++ " but received " ++ toString actual
  | output mismatch _ _ _ => "Unexpected response: " ++ mismatch.described
  | missing collection id => "No document with _id " ++ id ++ " in " ++ collection
  | findById collection mismatch _ _ =>
    "Document in " ++ collection ++ " does not match: " ++ mismatch.described
  | notFound collection _ candidates =>
    "No matching document in " ++ collection ++ " (" ++ toString candidates.length ++ " examined)"
  | storage message => "Storage failed: " ++ message
  | transport message => "Request failed: " ++ message

end ApiContract
