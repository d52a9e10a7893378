import ApiContract.Proofs.Comparison.Loosening
import ApiContract.Proofs.Comparison.Returned

namespace ApiContract

open Comparison (Matches Fits exact loose)

def Value.Ranked : Value → Prop
  | array items => items.Pairwise fun earlier later => Covers later earlier → Alike later earlier
  | _ => True

/-- A template whose arrays, at every depth, have their more demanding items first. -/
def Value.Descending (value : Value) : Prop := Throughout Value.parts Value.Ranked value

namespace Comparison

variable {path : String} {index : Nat} {a e x actual expected : Value} {found items : List Value}

theorem matches_exact_iff_alike (ha : a.Datum) (he : e.Datum) : Matches exact a e ↔ Alike a e := by
  rw [← @compareAt_eq_ok_iff_matches exact "" a e fun _ => rfl]
  exact compareAt_exact_eq_ok_iff ha.1 he.2 he.1

theorem Fits.self (h : a.Datum) : Fits loose a a := (fits_self h.1.untyped h.2).2

theorem covers_of_matches {s : Strictness} (h : Matches s a e) : Covers a e :=
  covers_of_compareAt h.choose_spec.2

theorem steady_of_descending (he : e.Datum) (h : e.Descending) : e.Steady Value.Datum := by
  induction e using Value.induction_on_parts with
  | step e ih =>
    refine .intro ?_ fun part hm => ih part hm (he.parts hm) (h.parts hm)
    cases e with
    | array items =>
      have hranked : items.Pairwise fun earlier later => Covers later earlier →
          Alike later earlier := h.here
      refine hranked.imp_of_mem fun {earlier later} hearlier hlater hrank a ha hstrict hloose => ?_
      have hitem : ∀ item ∈ items, item.Datum := fun item hm => he.parts hm
      rw [matches_exact_iff_alike ha (hitem _ hlater)] at hstrict
      rw [matches_exact_iff_alike ha (hitem _ hearlier)]
      exact hstrict.trans (hrank ((covers_of_matches hloose).of_alike_left
        (hitem _ hearlier).1 ha.1 hstrict))
    | _ => trivial

def Arrangeable (a e : Value) : Prop := ∃ x : Value, (Alike a x ∧ x.Datum) ∧ Fits loose x e

theorem arrangeable_array {chosen rest : List Value} (ha : (Value.array found).Datum)
    (hrest : found.Perm (chosen ++ rest)) (h : List.Forall₂ Arrangeable chosen items) :
    Arrangeable (.array found) (.array items) := by
  obtain ⟨between, halike, hfits⟩ := exists_between h
  have hdatum : ∀ x ∈ between, x.Datum := fun x hx => by
    obtain ⟨c, -, -, hx⟩ := exists_of_forall₂ halike hx
    exact hx
  have hothers : ∀ a ∈ rest, a.Datum := fun a hm =>
    Value.datum_array.mp ha a (hrest.mem_iff.mpr (List.mem_append_right chosen hm))
  refine ⟨.array (between ++ rest), ⟨.of_forall₂ hrest ?_, ?_⟩,
    fits_array rest (.inl rfl) hfits fun hs => (by cases hs)⟩
  · exact List.rel_append (halike.imp fun _ _ h => h.1)
      (List.forall₂_same.mpr fun a hm => .refl (hothers a hm).1)
  · exact Value.datum_array.mpr fun x hx => (List.mem_append.mp hx).elim (hdatum x) (hothers x)

theorem arrangeable_object {members fields : Fields Value} (ha : (Value.object members).Datum)
    (hf : Fields.Sorted fields)
    (h : ∀ n ∈ fields, ∃ a, Fields.get? n.1 members = some a ∧ Arrangeable a n.2) :
    Arrangeable (.object members) (.object fields) := by
  obtain ⟨hsorted, -⟩ := Value.datum_object.mp ha
  have hexists : ∀ key a, ∃ x : Value, Fields.get? key members = some a →
      (Alike a x ∧ x.Datum) ∧ ∀ b, Fields.get? key fields = some b → Fits loose x b := by
    intro key a
    by_cases hget : Fields.get? key members = some a
    · cases hb : Fields.get? key fields with
      | none =>
        have hdatum := ha.parts (Value.mem_parts_of_get? hget)
        exact ⟨a, fun _ => ⟨⟨.refl hdatum.1, hdatum⟩, fun _ h => by cases h⟩⟩
      | some b =>
        obtain ⟨a', hget', x, halike, hfits⟩ := h (key, b) (Fields.mem_of_get? hb)
        cases hget.symm.trans hget'
        exact ⟨x, fun _ => ⟨halike, fun _ h => Option.some.inj h ▸ hfits⟩⟩
    · exact ⟨a, fun h => absurd h hget⟩
  choose f hx using hexists
  have hget : ∀ key, Fields.get? key (members.map fun m => (m.1, f m.1 m.2)) =
      (Fields.get? key members).map (f key) := fun _ => Fields.get?_map
  have hkeys : Fields.keys (members.map fun m => (m.1, f m.1 m.2)) = members.keys := by
    simp [Fields.keys, Function.comp_def]
  refine ⟨.object (members.map fun m => (m.1, f m.1 m.2)), ⟨.object ?_ ?_, ?_⟩, fits_object ?_ ?_⟩
  · exact fun key => by rw [hkeys]
  · intro key a x ha hget'
    rw [hget, ha] at hget'
    cases hget'
    exact (hx key a ha).1.1
  · refine Value.datum_object.mpr ⟨by rwa [Fields.Sorted, hkeys], List.forall_mem_map.mpr ?_⟩
    exact fun m hm => (hx m.1 m.2 (Fields.get?_of_mem hsorted hm)).1.2
  · intro n hn
    obtain ⟨a, ha, -⟩ := h n hn
    refine ⟨f n.1 a, by rw [hget, ha, Option.map_some], ?_⟩
    exact (hx n.1 a ha).2 n.2 (Fields.get?_of_mem hf hn)
  · exact fun hs => by cases hs

/-- What has everything can be arranged so that the first candidates that fit are the right ones. -/
theorem arrangeable_of_covers (ha : a.Datum) (he : e.Datum) (h : Covers a e) :
    Arrangeable a e := by
  induction e using Value.induction_on_parts generalizing a with
  | step e ih =>
    cases e with
    | ordered items => exact he.1.here.elim
    | type kind => exact he.1.here.elim
    | array items =>
      obtain ⟨found, rfl, chosen, hsub, hpairs⟩ := (Covers.array_iff_of_plain ha.1).mp h
      obtain ⟨rest, hrest⟩ := exists_rest hsub
      refine arrangeable_array ha hrest (forall₂_imp_of_mem hpairs fun c hc item hm => ?_)
      exact ih item hm (ha.parts (hsub.subset hc)) (he.parts hm)
    | object fields =>
      obtain ⟨members, rfl, hkeys, hmembers⟩ := Covers.object_iff.mp h
      obtain ⟨hsorted, -⟩ := Value.datum_object.mp he
      refine arrangeable_object ha hsorted fun n hn => ?_
      obtain ⟨a, hget⟩ := Fields.mem_keys_iff.mp (hkeys n.1 (List.mem_map_of_mem hn))
      have hm : n.2 ∈ (Value.object fields).parts := List.mem_map_of_mem hn
      exact ⟨a, hget, ih n.2 hm (ha.parts (Value.mem_parts_of_get? hget)) (he.parts hm)
        (hmembers n.1 a n.2 hget (Fields.get?_of_mem hsorted hn))⟩
    | _ =>
      have halike := h.alike_of_scalar trivial
      refine ⟨a, ⟨.refl ha.1, ha⟩, fun path => ?_⟩
      have hexact := (@compareAt_exact_eq_ok_iff path a _ ha.1 he.2 he.1).mpr halike
      simpa only [compareAt] using hexact

theorem claim_ne_ok {n : Nat} {item : Value} (hfound : (Value.array (x :: found)).Datum)
    (hitems : (Value.array (item :: items)).Datum)
    (halike : Alike (.array (x :: found)) (.array (item :: items))) (hfits : Fits loose x item)
    (hnot : ¬ Alike x item) :
    claim loose path index ((x :: found).zipIdx n) (item :: items) ≠ .ok () := by
  intro h
  rw [List.zipIdx_cons, claim_cons_of_fits hfits] at h
  obtain ⟨chosen, hsub, hpairs⟩ := pairs_of_claim decides_matches h
  rw [List.zipIdx_map_fst] at hsub
  have hcovers : List.Forall₂ Covers chosen items := hpairs.imp fun _ _ => covers_of_matches
  -- all together weigh as much as the items, so that no pair may have too much
  have hall := Covers.alike_of_chosen hfound hitems halike ((List.subperm_cons x).mpr hsub)
    (.cons (covers_of_compareAt (hfits "")) hcovers)
  exact hnot (List.forall₂_cons.mp hall).1

/-- Where a later item has what an earlier one expects and is not alike, a candidate for the one can
stand first and be claimed by the other. -/
theorem exists_denied (hi : (Value.array items).Datum) (h : ¬ (Value.array items).Ranked) :
    ∃ found, (Value.array found).Datum ∧ Alike (.array found) (.array items) ∧
      ∀ path index n, claim loose path index (found.zipIdx n) items ≠ .ok () := by
  induction items with
  | nil => exact absurd List.Pairwise.nil h
  | cons item items ih =>
    obtain ⟨hitem, hitems⟩ := List.forall_mem_cons.mp (Value.datum_array.mp hi)
    by_cases hfirst : ∀ later ∈ items, Covers later item → Alike later item
    · obtain ⟨found, hfound, halike, hdenied⟩ := ih (Value.datum_array.mpr hitems) fun hr =>
        h (List.pairwise_cons.mpr ⟨hfirst, hr⟩)
      refine ⟨item :: found, ?_, .cons (.refl hitem.1) halike, fun path index n hclaim => ?_⟩
      · exact Value.datum_array.mpr (List.forall_mem_cons.mpr ⟨hitem, Value.datum_array.mp hfound⟩)
      · rw [List.zipIdx_cons, claim_cons_of_fits (Fits.self hitem)] at hclaim
        exact hdenied _ _ _ hclaim
    · push Not at hfirst
      obtain ⟨later, hlater, hcovers, hnot⟩ := hfirst
      obtain ⟨x, ⟨halike, hx⟩, hfits⟩ :=
        arrangeable_of_covers (hitems later hlater) hitem hcovers
      obtain ⟨front, back, rfl⟩ := List.append_of_mem hlater
      have hall : ∀ a ∈ item :: front ++ later :: back, a.Datum := Value.datum_array.mp hi
      have hothers : ∀ a ∈ item :: (front ++ back), a.Datum := fun a hm =>
        hall a (((List.sublist_cons_self later back).append_left (item :: front)).subset hm)
      have hwhole : Alike (.array (x :: item :: (front ++ back)))
          (.array (item :: front ++ later :: back)) :=
        .moved (item :: front) back halike.symm fun a hm => .refl (hothers a hm).1
      have hfound : (Value.array (x :: item :: (front ++ back))).Datum :=
        Value.datum_array.mpr (List.forall_mem_cons.mpr ⟨hx, hothers⟩)
      exact ⟨_, hfound, hwhole, fun path index n => claim_ne_ok hfound hi hwhole hfits fun hxi =>
        hnot (halike.trans hxi)⟩

theorem claim_of_compareAt {s : Strictness}
    (h : compareAt s path (.array found) (.array items) = .ok ()) :
    claim s path 0 found.zipIdx items = .ok () := by
  obtain ⟨others, hitems, hclaim⟩ := compareAt_array_eq_ok_iff.mp h
  obtain ⟨hothers, -, -⟩ := itemsFor_eq_ok_iff.mp hitems
  obtain rfl : found = others := by simpa [Items] using hothers
  exact hclaim

def Yielding (e : Value) : Prop := ∀ a : Value, a.Datum → Alike a e → Matches loose a e

theorem Yielding.ranked (h : Yielding e) (he : e.Datum) : e.Ranked := by
  cases e with
  | array items =>
    by_contra hranked
    obtain ⟨found, hfound, halike, hdenied⟩ := exists_denied he hranked
    obtain ⟨path, -, hcompare⟩ := h _ hfound halike
    exact hdenied _ _ _ (claim_of_compareAt hcompare)
  | _ => trivial

theorem Yielding.part_of_array (h : Yielding (.array items)) (he : (Value.array items).Datum)
    {part : Value} (hm : part ∈ items) : Yielding part := by
  classical
  intro a ha halike
  have hitems := Value.datum_array.mp he
  -- every item that the part is alike is replaced, so that no other candidate fits the part
  let found := items.map fun item => if Alike item part then a else item
  have hfound : (Value.array found).Datum := by
    refine Value.datum_array.mpr (List.forall_mem_map.mpr fun item hi => ?_)
    split
    · exact ha
    · exact hitems item hi
  have hwhole : Alike (.array found) (.array items) := by
    refine .of_forall₂ (.refl _) (List.forall₂_map_left_iff.mpr (List.forall₂_same.mpr ?_))
    intro item hi
    split
    · rename_i hp
      exact halike.trans hp.symm
    · exact .refl (hitems item hi).1
  obtain ⟨path, -, hcompare⟩ := h _ hfound hwhole
  obtain ⟨chosen, hsub, hpairs⟩ := pairs_of_claim decides_matches (claim_of_compareAt hcompare)
  rw [List.zipIdx_map_fst] at hsub
  have hall := Covers.alike_of_chosen hfound he hwhole hsub
    (hpairs.imp fun _ _ => covers_of_matches)
  obtain ⟨c, hc, hmatch, hcp⟩ := exists_of_forall₂
    (List.Forall₂.mp (fun _ _ => And.intro) hpairs hall) hm
  obtain ⟨item, -, hitem⟩ := List.mem_map.mp (hsub.subset hc)
  by_cases hp : Alike item part
  · rw [if_pos hp] at hitem
    exact hitem ▸ hmatch
  · rw [if_neg hp] at hitem
    exact absurd (hitem ▸ hcp) hp

theorem Yielding.part_of_object {fields : Fields Value} (h : Yielding (.object fields))
    (he : (Value.object fields).Datum) {m : String × Value} (hm : m ∈ fields) : Yielding m.2 := by
  intro a ha halike
  obtain ⟨hsorted, hfields⟩ := Value.datum_object.mp he
  let found := fields.map fun n => (n.1, if n.1 = m.1 then a else n.2)
  have hkeys : Fields.keys found = fields.keys := by simp [found, Fields.keys, Function.comp_def]
  have hget : ∀ key, Fields.get? key found =
      (Fields.get? key fields).map fun b => if key = m.1 then a else b := fun _ =>
    Fields.get?_map (f := fun key b => if key = m.1 then a else b)
  have hfound : (Value.object found).Datum := by
    refine Value.datum_object.mpr ⟨by rwa [Fields.Sorted, hkeys], List.forall_mem_map.mpr ?_⟩
    intro n hn
    dsimp only
    split
    · exact ha
    · exact hfields n hn
  have hpart := Fields.get?_of_mem hsorted hm
  have hwhole : Alike (.object found) (.object fields) := by
    refine .object (fun key => by rw [hkeys]) fun key x b hx hb => ?_
    rw [hget, hb, Option.map_some] at hx
    cases hx
    split
    · rename_i hk
      rw [hk, hpart] at hb
      cases hb
      exact halike
    · exact .refl (he.parts (Value.mem_parts_of_get? hb)).1
  obtain ⟨path, hp, hcompare⟩ := h _ hfound hwhole
  obtain ⟨_, ⟨⟩, hmembers, -⟩ := compareAt_object_eq_ok_iff.mp hcompare
  obtain ⟨x, hx, hcompare⟩ := compareFields_eq_ok_iff.mp hmembers m hm
  rw [hget, hpart, Option.map_some, if_pos rfl] at hx
  cases hx
  exact ⟨_, joinedPath_ne_empty hp, hcompare⟩

theorem Yielding.descending (h : Yielding e) (he : e.Datum) : e.Descending := by
  induction e using Value.induction_on_parts with
  | step e ih =>
    refine .intro (h.ranked he) fun part hm => ih part hm ?_ (he.parts hm)
    cases e with
    | array items => exact h.part_of_array he hm
    | ordered items => exact he.1.here.elim
    | object fields =>
      obtain ⟨m, hmem, rfl⟩ := List.mem_map.mp hm
      exact h.part_of_object he hmem
    | _ => cases hm

end Comparison

/-- What passes strictly has everything that is expected. It passes loosely as well if the template
is steady for what was received. For a plain template that is so whatever data was received if and
only if its arrays, at every depth, have their more demanding items first. -/
theorem compareValues_loosened {expected : Value} :
    (∀ actual ignored, compareValues ⟨true, ignored⟩ actual expected = .ok () →
      Covers actual expected ∧
        ∀ P, Throughout Value.parts P actual → expected.Steady P →
          compareValues ⟨false, ignored⟩ actual expected = .ok ()) ∧
    (expected.Datum →
      ((∀ actual ignored, actual.Datum → compareValues ⟨true, ignored⟩ actual expected = .ok () →
        compareValues ⟨false, ignored⟩ actual expected = .ok ()) ↔ expected.Descending)) := by
  refine ⟨fun actual ignored h => ?_, fun he => ⟨fun h => ?_, fun hd actual ignored ha h => ?_⟩⟩
  · exact ⟨Comparison.covers_of_compareAt h, fun P ha hs => Comparison.compareAt_loosened ha hs h⟩
  · have hyielding : Comparison.Yielding expected := fun actual ha halike => by
      have hexact : compareValues exact actual expected = .ok () :=
        (Comparison.compareAt_exact_eq_ok_iff ha.1 he.2 he.1).mpr halike
      exact (Comparison.compareAt_eq_ok_iff_matches fun _ => rfl).mp (h actual [] ha hexact)
    exact hyielding.descending he
  · exact Comparison.compareAt_loosened ha.throughout (Comparison.steady_of_descending he hd) h

theorem compareValues_loosened_of_descending :
    let few : Value := .object [("a", .null)]
    let more : Value := .object [("a", .null), ("b", .null)]
    (Value.array [more, few]).Descending ∧ Covers (.array [few, more]) (.array [more, few]) ∧
      compareValues ⟨true, ["_id"]⟩ (.array [few, more]) (.array [more, few]) = .ok () ∧
      compareValues ⟨false, ["_id"]⟩ (.array [few, more]) (.array [more, few]) = .ok () := by
  intro few more
  have hfew : few.Datum := by
    simp [few, Value.Datum, Value.Plain, Value.Tidy, Value.Literal, Value.Keyed, Fields.Sorted,
      Fields.keys]
  have hmore : more.Datum := by
    refine Value.datum_object.mpr ⟨List.pairwise_pair.mpr (by decide), ?_⟩
    simp [Value.Datum, Value.Plain, Value.Tidy, Value.Literal, Value.Keyed]
  have hdatum : (Value.array [few, more]).Datum ∧ (Value.array [more, few]).Datum := by
    simp [Value.datum_array, hfew, hmore]
  have hcovers : ¬ Covers few more := fun h => by
    obtain ⟨found, hfound, hkeys, -⟩ := Covers.object_iff.mp h
    obtain rfl : found = [("a", .null)] := (Value.object.inj hfound).symm
    simp [Fields.keys] at hkeys
  have hdescending : (Value.array [more, few]).Descending := by
    simp [Value.Descending, Value.Ranked, hcovers, few, more]
  have hstrict :
      compareValues ⟨true, ["_id"]⟩ (.array [few, more]) (.array [more, few]) = .ok () := by
    with_unfolding_all rfl
  obtain ⟨hpass, hplain⟩ := @compareValues_loosened (.array [more, few])
  exact ⟨hdescending, (hpass _ _ hstrict).1, hstrict,
    (hplain hdatum.2).mpr hdescending _ _ hdatum.1 hstrict⟩

/-- The first candidate with all that an item expects may be the only one for a later item. -/
theorem compareValues_loosened_of_ascending :
    let few : Value := .object [("a", .null)]
    let more : Value := .object [("a", .null), ("b", .null)]
    compareValues ⟨true, []⟩ (.array [more, few]) (.array [few, more]) = .ok () ∧
      compareValues ⟨false, []⟩ (.array [more, few]) (.array [few, more]) ≠ .ok () := by
  intro few more
  have hfails :
      (compareValues ⟨false, []⟩ (.array [more, few]) (.array [few, more])).isOk = false := by
    with_unfolding_all rfl
  refine ⟨by with_unfolding_all rfl, fun hpass => ?_⟩
  rw [hpass] at hfails
  cases hfails

end ApiContract
