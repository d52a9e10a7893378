import ApiContract.Proofs.Comparison.Below

namespace ApiContract.Comparison

variable {s : Strictness} {path : String} {index : Nat} {actual : Value}
  {found more items : List Value}

theorem length_le_of_claim (h : claim s path index found.zipIdx items = .ok ()) :
    items.length ≤ found.length := by
  obtain ⟨left, hclaims⟩ := claim_zipIdx_eq_ok_iff.mp h
  obtain ⟨chosen, hsub, hpairs⟩ := hclaims.pairs
  rw [← hpairs.length_eq]
  exact hsub.length_le

theorem claim_of_sublist (h : claim s path index found.zipIdx items = .ok ())
    (hsub : found.Sublist more) : claim s path index more.zipIdx items = .ok () := by
  obtain ⟨left, hclaims⟩ := claim_zipIdx_eq_ok_iff.mp h
  obtain ⟨others, hothers, -⟩ := hclaims.of_sublist hsub
  exact claim_zipIdx_eq_ok_iff.mpr ⟨others, hothers⟩

/-- In loose comparison, whatever elements come in between those of a received array, and wherever
they do, what the items could claim before they can claim after, and an array of all the elements
passes. -/
theorem claim_with_surplus (hs : s.strict = false) (hsub : found.Sublist more)
    (h : claim s path 0 found.zipIdx items = .ok ()) :
    claim s path 0 more.zipIdx items = .ok () ∧
      ∀ actual, Items actual more → compareAt s path actual (.array items) = .ok () := by
  have hclaim := claim_of_sublist h hsub
  refine ⟨hclaim, fun actual hactual => compareAt_array_eq_ok_iff.mpr ⟨more, ?_, hclaim⟩⟩
  have hlength : items.length ≤ more.length := length_le_of_claim hclaim
  exact itemsFor_eq_ok_iff.mpr ⟨hactual, hlength, fun hstrict => by simp [hs] at hstrict⟩

/-- The element that comes in first is claimed by the first item, and the last item is left with the
one that was there before. -/
theorem claim_with_surplus_of_displacing :
    let found : List Value := [.string "b", .string "a"]
    let items : List Value := [.type .string, .string "a"]
    found.Sublist (.string "a" :: found) ∧
      claim ⟨false, ["_id"]⟩ "tags" 0 found.zipIdx items = .ok () ∧
      claim ⟨false, ["_id"]⟩ "tags" 0 (.string "a" :: found).zipIdx items = .ok () := by
  intro found items
  have hsub : found.Sublist (.string "a" :: found) := List.sublist_cons_self ..
  have hclaim : claim ⟨false, ["_id"]⟩ "tags" 0 found.zipIdx items = .ok () :=
    claim_eq_ok_iff.mpr ⟨[], .cons (.here rfl) (.cons (.here rfl) (.nil []))⟩
  exact ⟨hsub, hclaim, (claim_with_surplus rfl hsub hclaim).1⟩

end ApiContract.Comparison
