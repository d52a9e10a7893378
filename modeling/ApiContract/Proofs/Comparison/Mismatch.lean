import ApiContract.Proofs.Comparison.Failure
import ApiContract.Proofs.Comparison.Wording

namespace ApiContract

def Path.joinedTo (path : String) (segments : Path) : String :=
  segments.foldl (fun path segment => joinedPath path segment.text) path

namespace Comparison

/-- From two objects to what they have under a key, or from two arrays, the expected one ordered, to
what they have at an index, when all that is compared before has matched. -/
inductive Descends (s : Strictness) (path : String) : Value → Value → Segment → Value → Value → Prop
  | member {found before after : Fields Value} {key : String} {a e : Value}
    (passed : MembersPass s path found before) (received : Fields.get? key found = some a) :
    Descends s path (.object found) (.object (before ++ (key, e) :: after)) (.key key) a e
  | item {actual a e : Value} {found items : List Value} {i : Nat} (array : Items actual found)
    (acceptable : Acceptable s found items) (passed : ItemsPass s path found items i)
    (received : found[i]? = some a) (expected : items[i]? = some e) :
    Descends s path actual (.ordered items) (.index i) a e

inductive Reaches (s : Strictness) : String → Value → Value → Path → Value → Value → Prop
  | here (path : String) (a e : Value) : Reaches s path a e [] a e
  | onward {path : String} {actual expected a e a' e' : Value} {segment : Segment} {segments : Path}
    (descends : Descends s path actual expected segment a e)
    (reaches : Reaches s (joinedPath path segment.text) a e segments a' e') :
    Reaches s path actual expected (segment :: segments) a' e'

/-- What the comparison of two values stops at: themselves, a key that only one of them has, or an
item that matches none of the elements that the items before it have left. -/
inductive Stops (s : Strictness) (path : String) : Value → Value → Path → Conflict → Prop
  | clash {a e : Value} {conflict : Conflict} (clash : Clash s a e conflict) :
    Stops s path a e [] conflict
  | missing {found before after : Fields Value} {key : String} {e : Value}
    (passed : MembersPass s path found before) (missing : key ∉ found.keys) :
    Stops s path (.object found) (.object (before ++ (key, e) :: after)) [.key key]
      (.missingKey key)
  | unexpected {found fields : Fields Value} {before after : List String} {key : String}
    (strict : s.strict = true) (passed : MembersPass s path found fields)
    (split : found.keys = before ++ key :: after)
    (admitted : ∀ k ∈ before, Admitted s path fields k)
    (unexpected : ¬ Admitted s path fields key) :
    Stops s path (.object found) (.object fields) [.key key] (.unexpectedKey key)
  | unmatched {actual item : Value} {found before after : List Value} {left : List (Value × Nat)}
    (array : Items actual found) (acceptable : Acceptable s found (before ++ item :: after))
    (claims : Claims (FitsAt s path) found.zipIdx before left)
    (unmatched : ∀ c ∈ left, ¬ FitsAt s path c item) :
    Stops s path actual (.array (before ++ item :: after)) [.index before.length]
      (.unmatched before.length)

variable {s : Strictness} {path place : String} {conflict : Conflict} {actual expected a e : Value}
  {items : List Value}

theorem compareAt_of_scalar (h : expected.Scalar) :
    compareAt s path actual expected = compareScalar actual expected.normal path := by
  cases expected with
  | array _ => exact h.elim
  | ordered _ => exact h.elim
  | object _ => exact h.elim
  | type _ => exact h.elim
  | _ => rw [compareAt]; rfl

theorem compareAt_of_not_object {fields : Fields Value} (h : ∀ found, actual ≠ .object found) :
    compareAt s path actual (.object fields) = fail path (.notObject actual.normal) := by
  cases actual with
  | object found => exact absurd rfl (h found)
  | _ => rw [compareAt]; simp

def StopsOrDescends (s : Strictness) (path : String) (actual expected : Value) (place : String)
    (conflict : Conflict) : Prop :=
  (∃ last, Stops s path actual expected last conflict ∧ place = Path.joinedTo path last) ∨
    ∃ segment a e, Descends s path actual expected segment a e ∧
      compareAt s (joinedPath path segment.text) a e = .error ⟨place, conflict⟩

theorem StopsOrDescends.of_clash (hplace : place = path) (h : Clash s actual expected conflict) :
    StopsOrDescends s path actual expected place conflict :=
  .inl ⟨[], .clash h, hplace⟩

theorem stopsOrDescends_array
    (h : compareAt s path actual (.array items) = .error ⟨place, conflict⟩) :
    StopsOrDescends s path actual (.array items) place conflict := by
  rw [compareAt, bind_eq_error_iff, itemsFor_eq_error_iff (.inl rfl)] at h
  obtain ⟨hplace, hclash⟩ | ⟨found, hfound, hclaim⟩ := h
  · exact .of_clash hplace hclash
  · obtain ⟨harray, hacceptable⟩ := itemsFor_eq_ok_iff_acceptable.mp hfound
    obtain ⟨before, item, after, left, rfl, hclaims, hnone, hm⟩ := claim_eq_error_iff.mp hclaim
    rw [Nat.zero_add] at hm
    cases hm
    exact .inl ⟨_, .unmatched harray hacceptable hclaims hnone, rfl⟩

theorem stopsOrDescends_ordered
    (h : compareAt s path actual (.ordered items) = .error ⟨place, conflict⟩) :
    StopsOrDescends s path actual (.ordered items) place conflict := by
  rw [compareAt, bind_eq_error_iff, itemsFor_eq_error_iff (.inr rfl)] at h
  obtain ⟨hplace, hclash⟩ | ⟨found, hfound, hitems⟩ := h
  · exact .of_clash hplace hclash
  · obtain ⟨harray, hacceptable⟩ := itemsFor_eq_ok_iff_acceptable.mp hfound
    obtain ⟨i, a, e, ha, he, hpassed, hfails⟩ := compareItems_zero_eq_error_iff.mp hitems
    exact .inr ⟨_, a, e, .item harray hacceptable hpassed ha he, hfails⟩

theorem stopsOrDescends_object {found fields : Fields Value}
    (h : compareAt s path (.object found) (.object fields) = .error ⟨place, conflict⟩) :
    StopsOrDescends s path (.object found) (.object fields) place conflict := by
  rw [compareAt, seq_eq_error_iff] at h
  obtain hfields | ⟨hpassed, h⟩ := h
  · obtain ⟨before, key, e, after, rfl, hpassed, ⟨hget, hm⟩ | ⟨a, hget, hfails⟩⟩ :=
      compareFields_eq_error_iff.mp hfields
    · cases hm
      exact .inl ⟨_, .missing hpassed (Fields.get?_eq_none_iff.mp hget), rfl⟩
    · exact .inr ⟨_, a, e, .member hpassed hget, hfails⟩
  · split at h
    · rename_i key hkey
      obtain ⟨hs, before, after, hsplit, hadmitted, hsurplus⟩ := surplusKey?_eq_some_iff.mp hkey
      cases h
      exact .inl ⟨_, .unexpected hs (compareFields_eq_ok_iff.mp hpassed) hsplit hadmitted hsurplus,
        rfl⟩
    · cases h

theorem stopsOrDescends (h : compareAt s path actual expected = .error ⟨place, conflict⟩) :
    StopsOrDescends s path actual expected place conflict := by
  by_cases hs : expected.Scalar
  · rw [compareAt_of_scalar hs, compareScalar_eq_error_iff] at h
    obtain ⟨hplace, hunequal, rfl⟩ := h
    exact .of_clash hplace (.scalar hs hunequal)
  · cases expected with
    | type kind =>
      rw [compareAt, compareKind_eq_error_iff] at h
      obtain ⟨hplace, hrefused, rfl⟩ := h
      exact .of_clash hplace (.kind hrefused)
    | array items => exact stopsOrDescends_array h
    | ordered items => exact stopsOrDescends_ordered h
    | object fields =>
      by_cases ha : ∃ found, actual = .object found
      · obtain ⟨found, rfl⟩ := ha
        exact stopsOrDescends_object h
      · have hother : ∀ found, actual ≠ .object found := fun found hf => ha ⟨found, hf⟩
        rw [compareAt_of_not_object hother, fail_eq_error_iff] at h
        obtain ⟨hplace, rfl⟩ := h
        exact .of_clash hplace (.notObject hother)
    | _ => exact absurd trivial hs

theorem Descends.mem_parts {segment : Segment} (h : Descends s path actual expected segment a e) :
    e ∈ expected.parts := by
  cases h with
  | member _ _ => simp [Value.parts]
  | item _ _ _ _ expected => exact List.mem_of_getElem? expected

theorem exists_reaches (h : compareAt s path actual expected = .error ⟨place, conflict⟩) :
    ∃ segments a e last, Reaches s path actual expected segments a e ∧
      Stops s (Path.joinedTo path segments) a e last conflict ∧
      place = Path.joinedTo path (segments ++ last) := by
  induction expected using Value.induction_on_parts generalizing path actual with
  | step expected ih =>
    obtain ⟨last, hstops, hplace⟩ | ⟨segment, a, e, hdescends, hfails⟩ := stopsOrDescends h
    · exact ⟨[], actual, expected, last, .here .., hstops, hplace⟩
    · obtain ⟨segments, a', e', last, hreaches, hstops, hplace⟩ := ih e hdescends.mem_parts hfails
      exact ⟨segment :: segments, a', e', last, .onward hdescends hreaches, hstops, hplace⟩

end Comparison

open Comparison (Reaches Stops)

end ApiContract
