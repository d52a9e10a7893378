import ApiContract.Proofs.Comparison.Verbatim

namespace ApiContract.Comparison

variable {s t : Strictness} {path path' : String} {index index' : Nat} {actual expected : Value}
  {candidates : List (Value × Nat)} {items found : List Value}

theorem joinedPath_root (segment : String) : joinedPath "" segment = segment := rfl

theorem joinedPath_index_ne_empty (path : String) (n : Nat) :
    joinedPath path (toString n) ≠ "" := by
  by_cases hp : path = ""
  · subst hp
    rw [joinedPath_root]
    intro h
    have hdigits := congrArg String.toList h
    simp [Nat.toDigits_ne_nil] at hdigits
  · exact joinedPath_ne_empty hp

def BothObjects (actual expected : Value) : Prop :=
  ∃ found fields, actual = .object found ∧ expected = .object fields

section Outcome

theorem itemsFor_congr (hst : s.strict = t.strict) (n : Nat) :
    itemsFor s actual n path = itemsFor t actual n path := by
  unfold itemsFor
  rw [hst]

theorem surplusKey?_congr {fields others : Fields Value} (hst : s.strict = t.strict)
    (hp : path ≠ "") : surplusKey? s fields others path = surplusKey? t fields others path := by
  have hpath : path.isEmpty = false := by simpa using hp
  simp [surplusKey?, hst, hpath]

theorem compareItems_congr (h : ∀ i : Nat, ∀ a, ∀ item ∈ items,
      compareAt s (joinedPath path (toString i)) a item =
        compareAt t (joinedPath path (toString i)) a item) :
    compareItems s path index found items = compareItems t path index found items := by
  induction items generalizing found index with
  | nil => rw [compareItems, compareItems] <;> simp
  | cons item items ih =>
    cases found with
    | nil => rw [compareItems, compareItems] <;> simp
    | cons a found =>
      have hfirst := h index a item (List.mem_cons_self ..)
      have hrest := @ih (index + 1) found fun i a item hm =>
        h i a item (List.mem_cons_of_mem _ hm)
      rw [compareItems, compareItems, hfirst, hrest]

theorem compareFields_congr {found fields : Fields Value} (h : ∀ m ∈ fields, ∀ a,
      compareAt s (joinedPath path m.1) a m.2 = compareAt t (joinedPath path m.1) a m.2) :
    compareFields s path found fields = compareFields t path found fields := by
  induction fields with
  | nil => rw [compareFields, compareFields]
  | cons m fields ih =>
    obtain ⟨hm, hfields⟩ := List.forall_mem_cons.mp h
    simp only [compareFields, hm, ih hfields]

theorem compareAt_congr_of_parts (hst : s.strict = t.strict)
    (hp : BothObjects actual expected → path ≠ "")
    (h : ∀ part ∈ expected.parts, ∀ path a, path ≠ "" →
      compareAt s path a part = compareAt t path a part) :
    compareAt s path actual expected = compareAt t path actual expected := by
  cases expected with
  | array items =>
    have hclaim : ∀ found : List Value, claim s path 0 found.zipIdx items =
        claim t path 0 found.zipIdx items := fun found =>
      claim_congr fun c _ item hm => by
        rw [FitsAt, FitsAt, h item hm _ c.1 (joinedPath_index_ne_empty path c.2)]
    rw [compareAt, compareAt, itemsFor_congr hst]
    simp only [hclaim]
  | ordered items =>
    have hitems : ∀ found, compareItems s path 0 found items = compareItems t path 0 found items :=
      fun found => compareItems_congr fun i a item hm =>
        h item hm _ a (joinedPath_index_ne_empty path i)
    rw [compareAt, compareAt, itemsFor_congr hst]
    simp only [hitems]
  | object fields =>
    cases actual with
    | object found =>
      have hpath := hp ⟨found, fields, rfl, rfl⟩
      have hfields := @compareFields_congr s t path found fields fun m hm a =>
        h m.2 (List.mem_map_of_mem hm) _ a (joinedPath_ne_empty hpath)
      rw [compareAt, compareAt, hfields, surplusKey?_congr hst hpath]
    | _ => rw [compareAt, compareAt] <;> simp
  | _ => rw [compareAt, compareAt]

/-- What is ignored makes no difference below the root. -/
theorem compareAt_congr (hst : s.strict = t.strict) (hp : path ≠ "") :
    compareAt s path actual expected = compareAt t path actual expected := by
  induction expected using Value.induction_on_parts generalizing path actual with
  | step expected ih =>
    exact compareAt_congr_of_parts hst (fun _ => hp) fun part hm _ _ hpath => ih part hm hpath

theorem compareAt_congr_of_not_both (hst : s.strict = t.strict)
    (hb : ¬ BothObjects actual expected) :
    compareAt s path actual expected = compareAt t path actual expected :=
  compareAt_congr_of_parts hst (fun h => absurd h hb) fun _ _ _ _ hpath => compareAt_congr hst hpath

end Outcome

section Success

theorem claim_eq_ok_congr (h : ∀ c ∈ candidates, ∀ item ∈ items,
      (compareAt s (joinedPath path (toString c.2)) c.1 item = .ok () ↔
        compareAt t (joinedPath path' (toString c.2)) c.1 item = .ok ())) :
    claim s path index candidates items = .ok () ↔
      claim t path' index' candidates items = .ok () := by
  rw [claim_eq_ok_iff, claim_eq_ok_iff]
  refine exists_congr fun left => ⟨fun hclaims => hclaims.congr h, fun hclaims => ?_⟩
  exact hclaims.congr fun c hc item hm => (h c hc item hm).symm

theorem compareItems_eq_ok_congr (h : ∀ i : Nat, ∀ a, ∀ item ∈ items,
      (compareAt s (joinedPath path (toString i)) a item = .ok () ↔
        compareAt t (joinedPath path' (toString i)) a item = .ok ())) :
    compareItems s path index found items = .ok () ↔
      compareItems t path' index found items = .ok () := by
  induction items generalizing found index with
  | nil => rw [compareItems, compareItems] <;> simp
  | cons item items ih =>
    cases found with
    | nil => rw [compareItems, compareItems] <;> simp
    | cons a found =>
      have hrest := @ih (index + 1) found fun i a item hm =>
        h i a item (List.mem_cons_of_mem _ hm)
      rw [compareItems, compareItems, seq_eq_ok_iff, seq_eq_ok_iff,
        h index a item (List.mem_cons_self ..), hrest]

theorem ne_empty_of_joinedPath {segment : String} (h : path = "" → s.ignored = []) :
    joinedPath path segment = "" → s.ignored = [] := fun he =>
  h (by_contra fun hp => joinedPath_ne_empty hp he)

theorem compareAt_eq_ok_congr (hp : path = "" → s.ignored = [])
    (hp' : path' = "" → s.ignored = []) :
    compareAt s path actual expected = .ok () ↔ compareAt s path' actual expected = .ok () := by
  induction expected using Value.induction_on_parts generalizing path path' actual with
  | step expected ih =>
    have hindex : ∀ (path : String) (n : Nat), joinedPath path (toString n) = "" → s.ignored = [] :=
      fun path n he => absurd he (joinedPath_index_ne_empty path n)
    cases expected with
    | array items =>
      simp only [compareAt_array_eq_ok_iff, itemsFor_eq_ok_iff]
      exact exists_congr fun found => and_congr_right fun _ => claim_eq_ok_congr fun c _ item hm =>
        ih item hm (hindex path c.2) (hindex path' c.2)
    | ordered items =>
      simp only [compareAt_ordered_eq_ok_iff, itemsFor_eq_ok_iff]
      exact exists_congr fun found => and_congr_right fun _ =>
        compareItems_eq_ok_congr fun i a item hm => ih item hm (hindex path i) (hindex path' i)
    | object fields =>
      have hnone : ∀ {path key : String}, (path = "" → s.ignored = []) →
          ¬ (path.isEmpty = true ∧ key ∈ s.ignored) := by
        rintro path key h ⟨he, hk⟩
        rw [h (by simpa using he)] at hk
        cases hk
      simp only [compareAt_object_eq_ok_iff, compareFields_eq_ok_iff, surplusKey?_eq_none_iff,
        hnone hp, hnone hp']
      refine exists_congr fun found => and_congr_right fun _ => and_congr_left fun _ => ?_
      refine forall_congr' fun m => forall_congr' fun hm => exists_congr fun a =>
        and_congr_right fun _ => ?_
      exact ih m.2 (List.mem_map_of_mem hm) (ne_empty_of_joinedPath hp)
        (ne_empty_of_joinedPath hp')
    | _ => simp only [compareAt, compareScalar_eq_ok_iff, compareKind_eq_ok_iff]

theorem compareAt_eq_ok_iff_matches (hp : path = "" → s.ignored = []) :
    compareAt s path actual expected = .ok () ↔ Matches s actual expected :=
  ⟨fun h => ⟨"0", by decide, (compareAt_eq_ok_congr hp (fun he => absurd he (by decide))).mp h⟩,
    fun ⟨_, hp', h⟩ => (compareAt_eq_ok_congr (fun he => absurd he hp') hp).mp h⟩

theorem compareAt_index_eq_ok_iff_matches {n : Nat} :
    compareAt s (joinedPath path (toString n)) actual expected = .ok () ↔
      Matches s actual expected :=
  compareAt_eq_ok_iff_matches fun he => absurd he (joinedPath_index_ne_empty path n)

theorem decides_matches : Decides s path candidates items (Matches s) := fun _ _ _ _ =>
  compareAt_index_eq_ok_iff_matches

theorem claim_zipIdx_eq_ok_iff : claim s path index found.zipIdx items = .ok () ↔
    ∃ left, Claims (Matches s) found items left := by
  rw [claim_eq_ok_iff_of_decides decides_matches, List.zipIdx_map_fst]

theorem matches_congr (hst : s.strict = t.strict) :
    Matches s actual expected ↔ Matches t actual expected :=
  exists_congr fun _ => and_congr_right fun hp => by rw [compareAt_congr hst hp]

end Success

end ApiContract.Comparison
