import ApiContract.Path
import ApiContract.Value

namespace ApiContract.Value

inductive Obstacle
  | notNavigable (place : String)
  | missingKey (place : String)
  | outOfBounds (place : String) (index length : Nat)
  | notAnIndex (place : String)
  deriving DecidableEq

def Obstacle.message : Obstacle → String
  | notNavigable place => "Cannot navigate into " ++ place ++ ", it is neither an object nor an array"
  | missingKey place => "There is no " ++ place ++ " to remove or descend into"
  | outOfBounds place index length =>
    "Index " ++ toString index ++ " is out of bounds for " ++ place ++ ", which has "
      ++ toString length ++ " elements"
  | notAnIndex place => "Expected a numeric index into the array " ++ place

def step (walked : String) (segment : Segment) (value : Value) : Except Obstacle Value :=
  match value, segment with
  | object fields, segment =>
    match Fields.get? segment.text fields with
    | some child => .ok child
    | none => .error (.missingKey (extended walked segment.text))
  | array items, .index i | ordered items, .index i =>
    match items[i]? with
    | some item => .ok item
    | none => .error (.outOfBounds walked i items.length)
  | array _, .key _ | ordered _, .key _ => .error (.notAnIndex walked)
  | _, _ => .error (.notNavigable walked)

def navigate (walked : String) : Path → Value → Except Obstacle Value
  | [], value => .ok value
  | segment :: path, value =>
    match step walked segment value with
    | .error obstacle => .error obstacle
    | .ok child => navigate (extended walked segment.text) path child

/-- What an edit does at the end of its path: to the whole value when the path is empty, to an
object under a key, and to an array at an index. It may find nothing there to work on. -/
structure Action where
  onRoot : Value → Value
  onKey : String → Fields Value → Option (Fields Value)
  onIndex : Nat → List Value → Option (List Value)

def removal : Action where
  onRoot value := value
  onKey key fields := if Fields.has key fields then some (Fields.erase key fields) else none
  onIndex i items := if i < items.length then some (items.eraseIdx i) else none

/-- Set a member, replace an item, or append one. -/
def addition (value : Value) : Action where
  onRoot _ := value
  onKey key fields := some (Fields.set key value fields)
  onIndex i items :=
    if i < items.length then some (items.set i value)
    else if i = items.length then some (items ++ [value])
    else none

def actAt (action : Action) (walked : String) (i : Nat) (items : List Value) :
    Except Obstacle (List Value) :=
  match action.onIndex i items with
  | some items => .ok items
  | none => .error (.outOfBounds walked i items.length)

def actOn (action : Action) (walked key : String) (fields : Fields Value) :
    Except Obstacle (Fields Value) :=
  match action.onKey key fields with
  | some fields => .ok fields
  | none => .error (.missingKey (extended walked key))

variable (action : Action)

mutual

/-- Act on every place that a path leads to from a value. -/
def edit (walked : String) (path : Path) (value : Value) : Except Obstacle Value :=
  match path with
  | [] => .ok (action.onRoot value)
  | head :: rest =>
    match value with
    | array items =>
      match head, rest with
      | .index i, [] => (actAt action walked i items).map array
      | head, rest => (editItems walked head rest items.length 0 items).map array
    | ordered items =>
      match head, rest with
      | .index i, [] => (actAt action walked i items).map ordered
      | head, rest => (editItems walked head rest items.length 0 items).map ordered
    | object fields =>
      match rest with
      | [] => (actOn action walked head.text fields).map object
      | rest => (editField walked head.text rest fields).map object
    | _ => .error (.notNavigable walked)

/-- Go on in every item for a key, and in one of them for an index. -/
def editItems (walked : String) (head : Segment) (rest : Path) (length position : Nat) :
    List Value → Except Obstacle (List Value)
  | [] =>
    match head with
    | .key _ => .ok []
    | .index i => .error (.outOfBounds walked i length)
  | item :: items =>
    match head with
    | .key _ => do
      let item ← edit (extended walked (toString position)) (head :: rest) item
      let items ← editItems walked head rest length (position + 1) items
      .ok (item :: items)
    | .index i =>
      if i = position then do
        let item ← edit (extended walked (toString i)) rest item
        .ok (item :: items)
      else do
        let items ← editItems walked head rest length (position + 1) items
        .ok (item :: items)

def editField (walked key : String) (rest : Path) :
    List (String × Value) → Except Obstacle (List (String × Value))
  | [] => .error (.missingKey (extended walked key))
  | (k, value) :: fields =>
    if k = key then do
      let value ← edit (extended walked key) rest value
      .ok ((k, value) :: fields)
    else do
      let fields ← editField walked key rest fields
      .ok ((k, value) :: fields)

end

def remove (walked : String) (path : Path) (value : Value) : Except Obstacle Value :=
  edit removal walked path value

def add (walked : String) (path : Path) (value new : Value) : Except Obstacle Value :=
  edit (addition new) walked path value

end ApiContract.Value
