import ApiContract.Context

namespace ApiContract.Base

abbrev Draws := Nat → Nat

def pick (alphabet : List Char) (draw : Nat) : Char :=
  (alphabet[draw % alphabet.length]?).getD 'a'

def generated (draws : Draws) (alphabet : String) (start count : Nat) : String :=
  String.ofList ((List.range' start count).map fun i => pick alphabet.toList (draws i))

def lowerLetters : String := "abcdefghijklmnopqrstuvwxyz"

def alphanumerics : String := "ABCDEFGHIJKLMNOPQRSTUVWXYZabcdefghijklmnopqrstuvwxyz0123456789"

def maxLength : Nat := 4096

def requestedLength (default : Nat) : List Value → Except String Nat
  | [] | .null :: _ => .ok default
  | value :: _ =>
    match value.toDouble?.bind fun x => x.toInt?.map fun n => (x, n) with
    | some (x, .ofNat n) =>
      if maxLength < n then
        .error ("Length " ++ String.ofList (x.text Number.plainStyle) ++ " is more than the maximum of "
          ++ toString maxLength)
      else .ok n
    | _ => .error ("Expected a length, not " ++ value.text)

def randomId (draws : Draws) : Helper := fun _ =>
  .ok (.id (generated draws "0123456789abcdef" 0 24))

def randomStr (draws : Draws) : Helper := fun args => do
  .ok (.string (generated draws alphanumerics 0 (← requestedLength 8 args)))

def randomEmail (draws : Draws) : Helper := fun _ =>
  .ok (.string (generated draws lowerLetters 0 8 ++ "@" ++ generated draws lowerLetters 8 8 ++ ".com"))

def ordered : Helper
  | .array items :: _ | .ordered items :: _ => .ok (.ordered items)
  | other :: _ => .error ("ordered() expects an array, not " ++ other.typeName)
  | [] => .error "ordered() expects an array"

/-- All kinds by their names, one of them also with other capitals. -/
def kinds : Fields Value :=
  Fields.ofList (("ObjectID", .type .objectId) :: Kind.all.map fun kind => (kind.name, .type kind))

def standard (draws : Draws) : Base where
  values := kinds
  helpers := Fields.ofList [("randomId", randomId draws), ("randomStr", randomStr draws),
    ("randomEmail", randomEmail draws), ("ordered", ordered)]

end ApiContract.Base
