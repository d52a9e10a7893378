import Mathlib.Data.List.Forall2
import Mathlib.Data.List.Perm.Subperm
import ApiContract.Proofs.Comparison.Outcome

namespace ApiContract.Comparison

section Run

variable {α β γ : Type} {R S : α → β → Prop} {f : γ → α} {cs : List γ}
  {as more rest left : List α} {bs : List β} {a : α} {b : β}

inductive Takes (R : α → β → Prop) : List α → β → List α → Prop
  | here {as : List α} {a : α} {b : β} (fits : R a b) : Takes R (a :: as) b as
  | later {as rest : List α} {a : α} {b : β} (passed : ¬ R a b) (takes : Takes R as b rest) :
    Takes R (a :: as) b (a :: rest)

/-- Each item takes the first candidate that fits it among those that are not claimed yet. The last
list is of the candidates that no item has claimed. -/
inductive Claims (R : α → β → Prop) : List α → List β → List α → Prop
  | nil (as : List α) : Claims R as [] as
  | cons {as rest left : List α} {b : β} {bs : List β} (takes : Takes R as b rest)
    (claims : Claims R rest bs left) : Claims R as (b :: bs) left

namespace Takes

theorem sublist (h : Takes R as b rest) : rest.Sublist as := by
  induction h with
  | here _ => exact List.sublist_cons_self ..
  | later _ _ ih => exact ih.cons_cons _

theorem exists_taken (h : Takes R as b rest) : ∃ a, R a b ∧ (a :: rest).Perm as := by
  induction h with
  | here fits => exact ⟨_, fits, .rfl⟩
  | later _ _ ih =>
    obtain ⟨a, hfits, hperm⟩ := ih
    exact ⟨a, hfits, (List.Perm.swap _ _ _).trans (hperm.cons _)⟩

theorem exists_of_mem (ha : a ∈ as) (hab : R a b) : ∃ rest, Takes R as b rest := by
  induction as with
  | nil => cases ha
  | cons c as ih =>
    by_cases hc : R c b
    · exact ⟨as, .here hc⟩
    · have hmem : a ∈ as := (List.mem_cons.mp ha).resolve_left fun e => hc (e ▸ hab)
      obtain ⟨rest, htakes⟩ := ih hmem
      exact ⟨c :: rest, .later hc htakes⟩

theorem congr (h : Takes R as b rest) (hRS : ∀ a ∈ as, (R a b ↔ S a b)) : Takes S as b rest := by
  induction h with
  | here fits => exact .here ((hRS _ (List.mem_cons_self ..)).mp fits)
  | later passed _ ih =>
    obtain ⟨ha, has⟩ := List.forall_mem_cons.mp hRS
    exact .later (fun hs => passed (ha.mpr hs)) (ih has)

theorem map {left : List γ} (h : Takes (fun c => R (f c)) cs b left) :
    Takes R (cs.map f) b (left.map f) := by
  induction h with
  | here fits => exact .here fits
  | later passed _ ih => exact .later passed ih

theorem of_map (h : Takes R (cs.map f) b rest) :
    ∃ left, Takes (fun c => R (f c)) cs b left ∧ left.map f = rest := by
  induction cs generalizing rest with
  | nil => cases h
  | cons c cs ih =>
    cases h with
    | here fits => exact ⟨cs, .here fits, rfl⟩
    | later passed takes =>
      obtain ⟨left, hleft, rfl⟩ := ih takes
      exact ⟨c :: left, .later passed hleft, rfl⟩

theorem of_sublist (h : Takes R as b rest) (hsub : as.Sublist more) :
    ∃ others, Takes R more b others ∧ rest.Sublist others := by
  induction hsub generalizing rest with
  | slnil => cases h
  | @cons as more c hsub ih =>
    by_cases hc : R c b
    · exact ⟨more, .here hc, h.sublist.trans hsub⟩
    · obtain ⟨others, hothers, hrest⟩ := ih h
      exact ⟨c :: others, .later hc hothers, hrest.cons c⟩
  | @cons_cons as more c hsub ih =>
    cases h with
    | here fits => exact ⟨more, .here fits, hsub⟩
    | later passed takes =>
      obtain ⟨others, hothers, hrest⟩ := ih takes
      exact ⟨c :: others, .later passed hothers, hrest.cons_cons c⟩

end Takes

namespace Claims

theorem left_sublist (h : Claims R as bs left) : left.Sublist as := by
  induction h with
  | nil as => exact .refl as
  | cons takes _ ih => exact ih.trans takes.sublist

theorem exists_chosen (h : Claims R as bs left) :
    ∃ chosen, (chosen ++ left).Perm as ∧ List.Forall₂ R chosen bs := by
  induction h with
  | nil as => exact ⟨[], .rfl, .nil⟩
  | cons takes _ ih =>
    obtain ⟨a, hfits, hrest⟩ := takes.exists_taken
    obtain ⟨chosen, hperm, hpairs⟩ := ih
    exact ⟨a :: chosen, (hperm.cons a).trans hrest, .cons hfits hpairs⟩

theorem congr (h : Claims R as bs left) (hRS : ∀ a ∈ as, ∀ b ∈ bs, (R a b ↔ S a b)) :
    Claims S as bs left := by
  induction h with
  | nil as => exact .nil as
  | cons takes _ ih =>
    have hfirst := takes.congr fun a ha => hRS a ha _ (List.mem_cons_self ..)
    refine .cons hfirst (ih fun a ha b hb => ?_)
    exact hRS a (takes.sublist.subset ha) b (List.mem_cons_of_mem _ hb)

theorem map {left : List γ} (h : Claims (fun c => R (f c)) cs bs left) :
    Claims R (cs.map f) bs (left.map f) := by
  induction h with
  | nil cs => exact .nil _
  | cons takes _ ih => exact .cons takes.map ih

theorem of_map (h : Claims R (cs.map f) bs left) :
    ∃ left, Claims (fun c => R (f c)) cs bs left := by
  induction bs generalizing cs with
  | nil => exact ⟨cs, .nil cs⟩
  | cons b bs ih =>
    cases h with
    | cons takes claims =>
      obtain ⟨others, hothers, rfl⟩ := takes.of_map
      obtain ⟨left, hleft⟩ := ih claims
      exact ⟨left, .cons hothers hleft⟩

/-- More candidates do no harm, wherever they come in: however the claims are shifted, whatever is
left of the fewer ones is left of the more. -/
theorem of_sublist (h : Claims R as bs left) (hsub : as.Sublist more) :
    ∃ others, Claims R more bs others ∧ left.Sublist others := by
  induction h generalizing more with
  | nil as => exact ⟨more, .nil more, hsub⟩
  | cons takes _ ih =>
    obtain ⟨rest, hrest, hsub⟩ := takes.of_sublist hsub
    obtain ⟨others, hothers, hleft⟩ := ih hsub
    exact ⟨others, .cons hrest hothers, hleft⟩

theorem all_or_stuck (R : α → β → Prop) (as : List α) (bs : List β) :
    (∃ left, Claims R as bs left) ∨ ∃ before b after left, bs = before ++ b :: after ∧
      Claims R as before left ∧ ∀ a ∈ left, ¬ R a b := by
  induction bs generalizing as with
  | nil => exact .inl ⟨as, .nil as⟩
  | cons b bs ih =>
    by_cases hfits : ∃ a ∈ as, R a b
    · obtain ⟨a, ha, hab⟩ := hfits
      obtain ⟨rest, htakes⟩ := Takes.exists_of_mem ha hab
      obtain ⟨left, hclaims⟩ | ⟨before, c, after, left, rfl, hclaims, hnone⟩ := ih rest
      · exact .inl ⟨left, .cons htakes hclaims⟩
      · exact .inr ⟨b :: before, c, after, left, rfl, .cons htakes hclaims, hnone⟩
    · exact .inr ⟨[], b, bs, as, rfl, .nil as, fun a ha hab => hfits ⟨a, ha, hab⟩⟩

end Claims

end Run

variable {s t : Strictness} {path : String} {index : Nat}
  {candidates rest left : List (Value × Nat)} {item : Value} {items before after : List Value}
  {m : Mismatch}

def FitsAt (s : Strictness) (path : String) (candidate : Value × Nat) (item : Value) : Prop :=
  compareAt s (joinedPath path (toString candidate.2)) candidate.1 item = .ok ()

theorem exists_findIdx?_of_takes (h : Takes (FitsAt s path) candidates item rest) :
    ∃ i, candidates.findIdx? (fun c =>
        (compareAt s (joinedPath path (toString c.2)) c.1 item).isOk) = some i ∧
      candidates.eraseIdx i = rest := by
  induction h with
  | here fits => exact ⟨0, by rw [List.findIdx?_cons, isOk_iff.mpr fits, if_pos rfl], rfl⟩
  | @later cs rest c item passed _ ih =>
    obtain ⟨i, hfind, herase⟩ := ih
    have hc : ¬ (compareAt s (joinedPath path (toString c.2)) c.1 item).isOk = true := fun hc =>
      passed (isOk_iff.mp hc)
    refine ⟨i + 1, ?_, congrArg (c :: ·) herase⟩
    rw [List.findIdx?_cons, if_neg hc, hfind, Option.map_some]

theorem claim_of_takes (h : Takes (FitsAt s path) candidates item rest) :
    claim s path index candidates (item :: items) = claim s path (index + 1) rest items := by
  obtain ⟨i, hfind, rfl⟩ := exists_findIdx?_of_takes h
  rw [claim, hfind]

theorem claim_of_none (h : ∀ c ∈ candidates, ¬ FitsAt s path c item) :
    claim s path index candidates (item :: items) =
      fail (joinedPath path (toString index)) (.unmatched index) := by
  have hfind : candidates.findIdx? (fun c =>
      (compareAt s (joinedPath path (toString c.2)) c.1 item).isOk) = none :=
    List.findIdx?_eq_none_iff.mpr fun c hc =>
      Bool.eq_false_iff.mpr fun hok => h c hc (isOk_iff.mp hok)
  rw [claim, hfind]

/-- Items that have claimed their candidates leave the others to the items after them. -/
theorem claim_append (h : Claims (FitsAt s path) candidates before left) :
    claim s path index candidates (before ++ after) =
      claim s path (index + before.length) left after := by
  induction h generalizing index with
  | nil cs => rfl
  | cons takes _ ih =>
    rw [List.cons_append, claim_of_takes takes, ih, List.length_cons]
    congr 1
    omega

theorem claim_of_claims (h : Claims (FitsAt s path) candidates items left) :
    claim s path index candidates items = .ok () := by
  have happend : claim s path index candidates (items ++ []) =
      claim s path (index + items.length) left [] := claim_append h
  rwa [List.append_nil, claim] at happend

theorem claim_of_stuck (h : Claims (FitsAt s path) candidates before left)
    (hnone : ∀ c ∈ left, ¬ FitsAt s path c item) :
    claim s path index candidates (before ++ item :: after) =
      fail (joinedPath path (toString (index + before.length)))
        (.unmatched (index + before.length)) := by
  rw [claim_append h, claim_of_none hnone]

theorem claim_congr (h : ∀ c ∈ candidates, ∀ item ∈ items,
      (FitsAt s path c item ↔ FitsAt t path c item)) :
    claim s path index candidates items = claim t path index candidates items := by
  obtain ⟨left, hclaims⟩ | ⟨before, item, after, left, rfl, hclaims, hnone⟩ :=
    Claims.all_or_stuck (FitsAt s path) candidates items
  · rw [claim_of_claims hclaims, claim_of_claims (hclaims.congr h)]
  · have hbefore := hclaims.congr fun c hc item hm => h c hc item (List.mem_append_left _ hm)
    have hitem : item ∈ before ++ item :: after := List.mem_append_right _ (List.mem_cons_self ..)
    have hstuck : ∀ c ∈ left, ¬ FitsAt t path c item := fun c hc hfits =>
      hnone c hc ((h c (hclaims.left_sublist.subset hc) item hitem).mpr hfits)
    rw [claim_of_stuck hclaims hnone, claim_of_stuck hbefore hstuck]

theorem claim_eq_ok_iff :
    claim s path index candidates items = .ok () ↔
      ∃ left, Claims (FitsAt s path) candidates items left := by
  refine ⟨fun h => ?_, fun ⟨_, h⟩ => claim_of_claims h⟩
  refine (Claims.all_or_stuck (FitsAt s path) candidates items).resolve_right ?_
  rintro ⟨before, item, after, left, rfl, hclaims, hnone⟩
  rw [claim_of_stuck hclaims hnone] at h
  cases h

theorem claim_eq_error_iff :
    claim s path index candidates items = .error m ↔
      ∃ before item after left, items = before ++ item :: after ∧
        Claims (FitsAt s path) candidates before left ∧ (∀ c ∈ left, ¬ FitsAt s path c item) ∧
        m = ⟨joinedPath path (toString (index + before.length)),
          .unmatched (index + before.length)⟩ := by
  constructor
  · intro h
    obtain ⟨left, hclaims⟩ | ⟨before, item, after, left, rfl, hclaims, hnone⟩ :=
      Claims.all_or_stuck (FitsAt s path) candidates items
    · rw [claim_of_claims hclaims] at h
      cases h
    · rw [claim_of_stuck hclaims hnone] at h
      cases h
      exact ⟨before, item, after, left, rfl, hclaims, hnone, rfl⟩
  · rintro ⟨before, item, after, left, rfl, hclaims, hnone, rfl⟩
    exact claim_of_stuck hclaims hnone

end ApiContract.Comparison
