import ApiContract.Proofs.Fields
import ApiContract.Proofs.Number.Equality
import ApiContract.Value

namespace ApiContract

namespace Value

theorem itemsToJson_eq_map (items : List Value) : itemsToJson items = items.map toJson := by
  induction items with
  | nil => rfl
  | cons item items ih => rw [itemsToJson, ih, List.map_cons]

theorem fieldsToJson_eq_map (fields : Fields Value) :
    fieldsToJson fields = fields.map fun m => (m.1, m.2.toJson) := by
  induction fields with
  | nil => rfl
  | cons m fields ih => rw [fieldsToJson, ih, List.map_cons]

theorem itemsOfJson_eq_map (items : List Json) : itemsOfJson items = items.map ofJson := by
  induction items with
  | nil => rfl
  | cons item items ih => rw [itemsOfJson, ih, List.map_cons]

theorem fieldsOfJson_eq_map (fields : Fields Json) :
    fieldsOfJson fields = fields.map fun m => (m.1, ofJson m.2) := by
  induction fields with
  | nil => rfl
  | cons m fields ih => rw [fieldsOfJson, ih, List.map_cons]

theorem itemsOfJson_itemsToJson (items : List Value) :
    itemsOfJson (itemsToJson items) = items.map fun item => ofJson item.toJson := by
  rw [itemsOfJson_eq_map, itemsToJson_eq_map, List.map_map]
  rfl

theorem fieldsOfJson_fieldsToJson (fields : Fields Value) :
    fieldsOfJson (fieldsToJson fields) = fields.map fun m => (m.1, ofJson m.2.toJson) := by
  rw [fieldsOfJson_eq_map, fieldsToJson_eq_map, List.map_map]
  rfl

theorem keys_fieldsToJson (fields : Fields Value) :
    Fields.keys (fieldsToJson fields) = Fields.keys fields := by
  rw [fieldsToJson_eq_map, Fields.keys, List.map_map]
  rfl

theorem get?_fieldsToJson (key : String) (fields : Fields Value) :
    Fields.get? key (fieldsToJson fields) = (Fields.get? key fields).map toJson := by
  rw [fieldsToJson_eq_map]
  exact Fields.get?_map (f := fun _ => toJson)

theorem get?_fieldsOfJson (key : String) (fields : Fields Json) :
    Fields.get? key (fieldsOfJson fields) = (Fields.get? key fields).map ofJson := by
  rw [fieldsOfJson_eq_map]
  exact Fields.get?_map (f := fun _ => ofJson)

end Value

theorem Number.same_refl (n : Number) : n.same n = true := by
  cases n with
  | integer value whole => simp [Number.same]
  | float x finite => exact Double.same_iff.mpr (.refl (Number.float x finite).toDouble_ne_nan)

namespace Json

theorem itemChars_cons_cons (item next : Json) (items : List Json) :
    itemChars (item :: next :: items) = item.chars ++ ',' :: itemChars (next :: items) := by
  rw [itemChars]
  nofun

theorem fieldChars_cons_cons (key : String) (value : Json) (next : String × Json)
    (fields : List (String × Json)) : fieldChars ((key, value) :: next :: fields) =
      quoted key ++ ':' :: value.chars ++ ',' :: fieldChars (next :: fields) := by
  rw [fieldChars]
  nofun

mutual

theorem same_refl : ∀ json : Json, json.same json = true
  | null => rfl
  | bool b => by simp [same]
  | number n => n.same_refl
  | string s => by simp [same]
  | array items => sameItems_refl items
  | object fields => sameFields_refl fields

theorem sameItems_refl : ∀ items : List Json, sameItems items items = true
  | [] => rfl
  | item :: items => by rw [sameItems, same_refl item, sameItems_refl items, Bool.and_self]

theorem sameFields_refl : ∀ fields : List (String × Json), sameFields fields fields = true
  | [] => rfl
  | (key, value) :: fields => by
    rw [sameFields, same_refl value, sameFields_refl fields, beq_self_eq_true, Bool.and_self,
      Bool.and_self]

end

end Json

end ApiContract
