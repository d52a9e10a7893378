import ApiContract.Json

namespace ApiContract

inductive Kind
  | string | number | boolean | object | array | date | regExp | objectId
  deriving DecidableEq

namespace Kind

def all : List Kind := [string, number, boolean, object, array, date, regExp, objectId]

def name : Kind → String
  | string => "String"
  | number => "Number"
  | boolean => "Boolean"
  | object => "Object"
  | array => "Array"
  | date => "Date"
  | regExp => "RegExp"
  | objectId => "ObjectId"

end Kind

/-- What templates describe. Beyond plain data there are identifiers, arrays whose order counts, and
kinds, which stand for every value of their kind. -/
inductive Value
  | null
  | bool (b : Bool)
  | number (n : Number)
  | string (s : String)
  | id (s : String)
  | array (items : List Value)
  | ordered (items : List Value)
  | object (fields : List (String × Value))
  | type (kind : Kind)

namespace Value

instance : Inhabited Value := ⟨null⟩

def typeName : Value → String
  | null => "null"
  | bool _ => "boolean"
  | number _ => "number"
  | string _ => "string"
  | id _ => "id"
  | array _ | ordered _ => "array"
  | object _ => "object"
  | type _ => "type"

mutual

/-- Identifiers and kinds travel as strings, and all arrays alike. -/
def toJson : Value → Json
  | null => .null
  | bool b => .bool b
  | number n => .number n
  | string s => .string s
  | id s => .string s
  | array items => .array (itemsToJson items)
  | ordered items => .array (itemsToJson items)
  | object fields => .object (fieldsToJson fields)
  | type kind => .string kind.name

def itemsToJson : List Value → List Json
  | [] => []
  | item :: items => item.toJson :: itemsToJson items

def fieldsToJson : List (String × Value) → List (String × Json)
  | [] => []
  | (key, value) :: fields => (key, value.toJson) :: fieldsToJson fields

end

mutual

def ofJson : Json → Value
  | .null => null
  | .bool b => bool b
  | .number n => number n
  | .string s => string s
  | .array items => array (itemsOfJson items)
  | .object fields => object (fieldsOfJson fields)

def itemsOfJson : List Json → List Value
  | [] => []
  | item :: items => ofJson item :: itemsOfJson items

def fieldsOfJson : List (String × Json) → List (String × Value)
  | [] => []
  | (key, value) :: fields => (key, ofJson value) :: fieldsOfJson fields

end

/-- What the store assigns: a text is an identifier, anything else is itself. -/
def ofAssigned : Json → Value
  | .string s => id s
  | json => ofJson json

/-- An identifier counts as its text. -/
def normal : Value → Value
  | id s => string s
  | value => value

def text : Value → String
  | null => "null"
  | bool b => if b then "true" else "false"
  | number n => n.text
  | string s => s
  | id s => s
  | type kind => kind.name
  | value => value.toJson.text

def toDouble? : Value → Option Double
  | number n => some n.toDouble
  | _ => none

def ofDouble? (x : Double) : Option Value := (Number.ofDouble? x).map number

def ofNat (n : Nat) : Value := ((Number.ofNat? n).map number).getD null

def isNull : Value → Bool
  | null => true
  | _ => false

def isTruthy : Value → Bool
  | null => false
  | bool b => b
  | number n => !n.toDouble.isZero
  | string s => !s.isEmpty
  | _ => true

theorem toJson_ofAssigned (json : Json) : (ofAssigned json).toJson = (ofJson json).toJson := by
  cases json <;> rfl

mutual

theorem toJson_ofJson : ∀ json : Json, (ofJson json).toJson = json
  | .null | .bool _ | .number _ | .string _ => rfl
  | .array items => by rw [ofJson, toJson, itemsToJson_itemsOfJson items]
  | .object fields => by rw [ofJson, toJson, fieldsToJson_fieldsOfJson fields]

theorem itemsToJson_itemsOfJson : ∀ items : List Json, itemsToJson (itemsOfJson items) = items
  | [] => rfl
  | item :: items => by
    rw [itemsOfJson, itemsToJson, toJson_ofJson item, itemsToJson_itemsOfJson items]

theorem fieldsToJson_fieldsOfJson :
    ∀ fields : List (String × Json), fieldsToJson (fieldsOfJson fields) = fields
  | [] => rfl
  | (key, value) :: fields => by
    rw [fieldsOfJson, fieldsToJson, toJson_ofJson value, fieldsToJson_fieldsOfJson fields]

end

end Value

end ApiContract
