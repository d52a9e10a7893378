import ApiContract.Proofs.Comparison.Claims
import ApiContract.Proofs.Forall2

namespace ApiContract.Comparison

section Pairing

variable {α β : Type} {R : α → β → Prop} {as chosen left : List α} {bs : List β} {a p : α} {b : β}

/-- Every item is given a candidate of its own. -/
def Pairs (R : α → β → Prop) (as : List α) (bs : List β) : Prop :=
  ∃ chosen, chosen.Subperm as ∧ List.Forall₂ R chosen bs

def Interchangeable (R : α → β → Prop) (as : List α) (bs : List β) : Prop :=
  ∀ a ∈ as, ∀ a' ∈ as, ∀ b ∈ bs, ∀ b' ∈ bs, R a b → R a' b → R a b' → R a' b'

/-- A candidate that is given away makes room for one that fits wherever it does. -/
theorem exists_exchange (h : List.Forall₂ R chosen bs) (ha : a ∈ chosen)
    (hp : ∀ b ∈ bs, R a b → R p b) :
    ∃ others, (p :: chosen).Perm (a :: others) ∧ List.Forall₂ R others bs := by
  induction h with
  | nil => cases ha
  | @cons c b chosen bs hc h ih =>
    obtain ⟨hb, hbs⟩ := List.forall_mem_cons.mp hp
    rcases List.mem_cons.mp ha with rfl | ha
    · exact ⟨p :: chosen, .swap a p chosen, .cons (hb hc) h⟩
    · obtain ⟨others, hperm, hothers⟩ := ih ha hbs
      have hswap := ((List.Perm.swap c p chosen).trans (hperm.cons c)).trans (.swap a c others)
      exact ⟨c :: others, hswap, .cons hc hothers⟩

theorem exists_pairing_cons (h : Pairs R as (b :: bs)) (hi : Interchangeable R as (b :: bs))
    (ha : a ∈ as) (hab : R a b) :
    ∃ chosen, (a :: chosen).Subperm as ∧ List.Forall₂ R chosen bs := by
  obtain ⟨chosen, hsub, hpairs⟩ := h
  cases hpairs with
  | @cons p _ chosen _ hpb hpairs =>
    by_cases hm : a ∈ chosen
    · have hp : p ∈ as := hsub.subset (List.mem_cons_self ..)
      obtain ⟨others, hperm, hothers⟩ := exists_exchange hpairs hm fun b' hb' hab' =>
        hi a ha p hp b (List.mem_cons_self ..) b' (List.mem_cons_of_mem _ hb') hab hpb hab'
      exact ⟨others, hperm.subperm_right.mp hsub, hothers⟩
    · have htail : chosen.Subperm as := (List.sublist_cons_self p chosen).subperm.trans hsub
      exact ⟨chosen, List.cons_subperm_of_not_mem_of_mem hm ha htail, hpairs⟩

theorem Interchangeable.mono {as' : List α} {bs' : List β} (h : Interchangeable R as bs)
    (ha : as' ⊆ as) (hb : bs' ⊆ bs) : Interchangeable R as' bs' :=
  fun a hm a' hm' b hn b' hn' => h a (ha hm) a' (ha hm') b (hb hn) b' (hb hn')

theorem Claims.pairs (h : Claims R as bs left) : Pairs R as bs := by
  obtain ⟨chosen, hperm, hpairs⟩ := h.exists_chosen
  exact ⟨chosen, (List.sublist_append_left chosen left).subperm.trans hperm.subperm, hpairs⟩

theorem Claims.exists_of_pairs (hi : Interchangeable R as bs) (h : Pairs R as bs) :
    ∃ left, Claims R as bs left := by
  induction bs generalizing as with
  | nil => exact ⟨as, .nil as⟩
  | cons b bs ih =>
    obtain ⟨a, ha, hab⟩ : ∃ a ∈ as, R a b := by
      obtain ⟨chosen, hsub, hpairs⟩ := h
      cases hpairs with
      | cons hab _ => exact ⟨_, hsub.subset (List.mem_cons_self ..), hab⟩
    obtain ⟨rest, htakes⟩ := Takes.exists_of_mem ha hab
    obtain ⟨first, hfirst, hperm⟩ := htakes.exists_taken
    obtain ⟨chosen, hsub, hpairs⟩ :=
      exists_pairing_cons h hi (hperm.subset (List.mem_cons_self ..)) hfirst
    have hrest : chosen.Subperm rest :=
      (List.subperm_cons first).mp (hsub.trans hperm.symm.subperm)
    obtain ⟨left, hclaims⟩ := ih
      (hi.mono htakes.sublist.subset (List.subset_cons_self b bs)) ⟨chosen, hrest, hpairs⟩
    exact ⟨left, .cons htakes hclaims⟩

end Pairing

variable {s : Strictness} {path : String} {index : Nat} {candidates : List (Value × Nat)}
  {items : List Value} {R : Value → Value → Prop}

def Decides (s : Strictness) (path : String) (candidates : List (Value × Nat)) (items : List Value)
    (R : Value → Value → Prop) : Prop :=
  ∀ c ∈ candidates, ∀ item ∈ items,
    compareAt s (joinedPath path (toString c.2)) c.1 item = .ok () ↔ R c.1 item

/-- Where candidates stand makes no difference to what the items claim. -/
theorem claim_eq_ok_iff_of_decides (hR : Decides s path candidates items R) :
    claim s path index candidates items = .ok () ↔
      ∃ left, Claims R (candidates.map Prod.fst) items left := by
  rw [claim_eq_ok_iff]
  constructor
  · rintro ⟨left, hclaims⟩
    have hvalues : Claims (fun c => R c.1) candidates items left := hclaims.congr hR
    exact ⟨_, hvalues.map⟩
  · rintro ⟨_, hclaims⟩
    obtain ⟨left, hvalues⟩ := hclaims.of_map
    exact ⟨left, hvalues.congr fun c hc item hm => (hR c hc item hm).symm⟩

theorem pairs_of_claim (hR : Decides s path candidates items R)
    (h : claim s path index candidates items = .ok ()) :
    Pairs R (candidates.map Prod.fst) items := by
  obtain ⟨left, hclaims⟩ := (claim_eq_ok_iff_of_decides hR).mp h
  exact hclaims.pairs

theorem claim_of_pairs (hR : Decides s path candidates items R)
    (hi : Interchangeable R (candidates.map Prod.fst) items)
    (h : Pairs R (candidates.map Prod.fst) items) :
    claim s path index candidates items = .ok () :=
  (claim_eq_ok_iff_of_decides hR).mpr (Claims.exists_of_pairs hi h)

end ApiContract.Comparison
