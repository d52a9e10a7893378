import ApiContract.Proofs.Fields
import ApiContract.Proofs.Throughout
import ApiContract.Value

namespace ApiContract.Value

def parts : Value → List Value
  | array items => items
  | ordered items => items
  | object fields => fields.map Prod.snd
  | _ => []

theorem sizeOf_lt_of_mem_parts {value part : Value} (h : part ∈ value.parts) :
    sizeOf part < sizeOf value := by
  cases value with
  | array items =>
    have : sizeOf part < sizeOf items := List.sizeOf_lt_of_mem h
    simp
    omega
  | ordered items =>
    have : sizeOf part < sizeOf items := List.sizeOf_lt_of_mem h
    simp
    omega
  | object fields =>
    obtain ⟨⟨key, value⟩, hm, rfl⟩ := List.mem_map.mp h
    have := List.sizeOf_lt_of_mem hm
    simp at this ⊢
    omega
  | _ => cases h

theorem induction_on_parts {P : Value → Prop}
    (step : ∀ value, (∀ part ∈ value.parts, P part) → P value) (value : Value) : P value :=
  step value fun part _ => induction_on_parts step part
termination_by sizeOf value
decreasing_by exact sizeOf_lt_of_mem_parts ‹_›

section Throughout

variable {P : Value → Prop}

@[simp] theorem throughout_null : Throughout parts P null ↔ P null :=
  throughout_iff_of_leaf rfl

@[simp] theorem throughout_bool {b : Bool} : Throughout parts P (bool b) ↔ P (bool b) :=
  throughout_iff_of_leaf rfl

@[simp] theorem throughout_number {n : Number} :
    Throughout parts P (number n) ↔ P (number n) :=
  throughout_iff_of_leaf rfl

@[simp] theorem throughout_string {s : String} :
    Throughout parts P (string s) ↔ P (string s) :=
  throughout_iff_of_leaf rfl

@[simp] theorem throughout_id {s : String} : Throughout parts P (id s) ↔ P (id s) :=
  throughout_iff_of_leaf rfl

@[simp] theorem throughout_type {kind : Kind} :
    Throughout parts P (type kind) ↔ P (type kind) :=
  throughout_iff_of_leaf rfl

@[simp] theorem throughout_array {items : List Value} : Throughout parts P (array items) ↔
    P (array items) ∧ ∀ item ∈ items, Throughout parts P item :=
  throughout_iff

@[simp] theorem throughout_ordered {items : List Value} : Throughout parts P (ordered items) ↔
    P (ordered items) ∧ ∀ item ∈ items, Throughout parts P item :=
  throughout_iff

@[simp] theorem throughout_object {fields : Fields Value} : Throughout parts P (object fields) ↔
    P (object fields) ∧ ∀ m ∈ fields, Throughout parts P m.2 := by
  rw [throughout_iff, parts, List.forall_mem_map]

end Throughout

/-- The keys of an object are in order, and each is there once. -/
def Keyed : Value → Prop
  | object fields => Fields.Sorted fields
  | _ => True

/-- A value whose objects keep their keys in order, at every depth. -/
def Tidy (value : Value) : Prop := Throughout parts Keyed value

theorem tidy_object_iff {fields : Fields Value} :
    (object fields).Tidy ↔ Fields.Sorted fields ∧ ∀ m ∈ fields, m.2.Tidy :=
  throughout_object

theorem Tidy.set {fields : Fields Value} {value : Value} (hf : (object fields).Tidy)
    (hv : value.Tidy) (key : String) : (object (Fields.set key value fields)).Tidy := by
  obtain ⟨hsorted, hall⟩ := tidy_object_iff.mp hf
  refine tidy_object_iff.mpr ⟨hsorted.set key value, fun m hm => ?_⟩
  rcases Fields.mem_of_mem_set hm with rfl | hm
  · exact hv
  · exact hall m hm

def Literal : Value → Prop
  | ordered _ => False
  | type _ => False
  | _ => True

/-- A value of literals, at every depth. -/
def Plain (value : Value) : Prop := Throughout parts Literal value

theorem mem_parts_of_get? {fields : Fields Value} {key : String} {value : Value}
    (h : Fields.get? key fields = some value) : value ∈ (object fields).parts :=
  List.mem_map_of_mem (f := Prod.snd) (Fields.mem_of_get? h)

end ApiContract.Value
