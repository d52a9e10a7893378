import ApiContract.Proofs.Throughout
import ApiContract.Template.Basic

namespace ApiContract.Template

def parts : Template → List Template
  | expression _ => []
  | array items => items
  | object entries => entries.map fun entry => entry.2.value
  | mixin _ _ additions => additions.map fun addition => addition.2.value

theorem sizeOf_slot_lt {κ : Type} [SizeOf κ] {entry : κ × Slot Template} :
    sizeOf entry.2.value < sizeOf entry := by
  obtain ⟨key, optional, value⟩ := entry
  simp
  omega

theorem sizeOf_lt_of_mem_parts {t part : Template} (h : part ∈ t.parts) :
    sizeOf part < sizeOf t := by
  cases t with
  | expression source => cases h
  | array items =>
    have : sizeOf part < sizeOf items := List.sizeOf_lt_of_mem h
    simp
    omega
  | object entries =>
    obtain ⟨entry, he, rfl⟩ := List.mem_map.mp h
    have := List.sizeOf_lt_of_mem he
    have := @sizeOf_slot_lt _ _ entry
    simp
    omega
  | mixin base removals additions =>
    obtain ⟨addition, ha, rfl⟩ := List.mem_map.mp h
    have := List.sizeOf_lt_of_mem ha
    have := @sizeOf_slot_lt _ _ addition
    simp
    omega

theorem induction_on_parts {P : Template → Prop}
    (step : ∀ t, (∀ part ∈ t.parts, P part) → P t) (t : Template) : P t :=
  step t fun part _ => induction_on_parts step part
termination_by sizeOf t
decreasing_by exact sizeOf_lt_of_mem_parts ‹_›

abbrev Throughout (P : Template → Prop) (t : Template) : Prop := ApiContract.Throughout parts P t

end ApiContract.Template
