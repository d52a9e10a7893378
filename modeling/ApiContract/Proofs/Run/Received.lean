import ApiContract.Proofs.Comparison.Mismatch
import ApiContract.Proofs.Value.Highlight
import ApiContract.Run.Explanation

namespace ApiContract

theorem Path.joinedTo_text {front path : Path} (hfront : front.Spelled) (hpath : path.Spelled) :
    joinedTo front.text path = (front ++ path).text := by
  induction path generalizing front with
  | nil => rw [List.append_nil]; rfl
  | cons segment path ih =>
    obtain ⟨hsegment, hrest⟩ := List.forall_mem_cons.mp hpath
    have hnext : joinedTo front.text (segment :: path) =
        joinedTo (joinedPath front.text segment.text) path := rfl
    rw [hnext, joinedPath_text hfront, ih (hfront.concat hsegment) hrest, List.append_assoc,
      List.singleton_append]

namespace Comparison

variable {s : Strictness} {path : String} {actual expected a e : Value} {segment : Segment}
  {segments last : Path} {conflict : Conflict}

theorem Descends.part?_actual (h : Descends s path actual expected segment a e) :
    actual.part? segment = some a := by
  cases h with
  | member _ received => exact received
  | item array _ _ received _ => obtain rfl | rfl := array <;> exact received

theorem Descends.part?_expected (h : Descends s path actual expected segment a e)
    (ht : expected.Tidy) : expected.part? segment = some e := by
  cases h with
  | member _ _ => exact Fields.get?_of_mem (Value.tidy_object_iff.mp ht).1 (by simp)
  | item _ _ _ _ expected => exact expected

theorem Reaches.at?_actual (h : Reaches s path actual expected segments a e) :
    actual.at? segments = some a := by
  induction h with
  | here => rfl
  | onward descends _ ih => rw [Value.at?_cons, descends.part?_actual, Option.bind_some, ih]

theorem Reaches.at?_expected (h : Reaches s path actual expected segments a e)
    (ht : expected.Tidy) : expected.at? segments = some e := by
  induction h with
  | here => rfl
  | onward descends _ ih =>
    rw [Value.at?_cons, descends.part?_expected ht, Option.bind_some,
      ih (ht.parts descends.mem_parts)]

theorem Stops.spelled (h : Stops s path a e last conflict) (ha : a.Named) (he : e.Named) :
    last.Spelled := by
  cases h with
  | clash _ => exact List.forall_mem_nil _
  | missing _ _ => exact List.forall_mem_singleton.mpr (he.here _ (by simp [Fields.keys]))
  | unexpected _ _ split _ _ => exact List.forall_mem_singleton.mpr (ha.here _ (by simp [split]))
  | unmatched => exact List.forall_mem_singleton.mpr (Segment.spelled_index _)

end Comparison

namespace Failure

open Value Comparison

def Behind (expected : Value) (path : String) : Prop :=
  ∃ front rest items, Path.Spelled (front ++ rest) ∧ Path.text (front ++ rest) = path ∧ rest ≠ [] ∧
    expected.at? front = some (.array items)

/-- What is singled out at a path in a received value: the value there, with its key, and nothing if
there is none or if the path does not count. -/
structure SinglesOut (actual expected : Value) (path : String) (shown : List Fragment) : Prop where
  found : ¬ Behind expected path → ∀ place part, actual.at? place = some part → place.text = path →
    Lights actual place part shown
  missing : (∀ place part, actual.at? place = some part → place.text ≠ path) →
    shown = actual.fragments none
  behind : Behind expected path → shown = actual.fragments none
  bare : Unlit (actual.fragments none)

variable {s : Strictness} {actual expected a e : Value} {items : List Value}
  {front rest segments last : Path} {segment : Segment} {path : String} {pieces : List (List Char)}
  {m : Mismatch} {conflict : Conflict}

theorem index?_text (i : Nat) : index? (Segment.index i).text.toList = some i := by
  have hdigits : ∀ c ∈ Nat.toDigits 10 i, c.isDigit = true :=
    fun c hc => Nat.isDigit_of_mem_toDigits (by decide) (by decide) hc
  have hplus : ∀ rest, Nat.toDigits 10 i ≠ '+' :: rest := fun rest hplus =>
    absurd (hdigits '+' (by simp [hplus])) (by decide)
  rw [Segment.text_index, index?, if_pos (by simpa [Nat.toDigits_ne_nil] using hdigits),
    Nat.ofDigitChars_toDigits (by decide) (by decide)]
  exact hplus

theorem passesUnordered_cons (h : expected.part? segment = some e)
    (he : ∀ items, expected ≠ .array items) :
    passesUnordered (segment.text.toList :: pieces) expected = passesUnordered pieces e := by
  cases segment with
  | key key =>
    cases expected with
    | object fields =>
      rw [part?_key_object] at h
      simp [passesUnordered, Segment.text, h]
    | _ => cases h
  | index i =>
    cases expected with
    | array items => exact absurd rfl (he items)
    | ordered items =>
      have hi : (index? (Segment.index i).text.toList).bind (items[·]?) = some e := by
        rw [index?_text]
        exact h
      rw [passesUnordered, hi]
    | _ => cases h

theorem passesUnordered_of_descends (h : Descends s path actual expected segment a e)
    (ht : expected.Tidy) :
    passesUnordered (segment.text.toList :: pieces) expected = passesUnordered pieces e := by
  refine passesUnordered_cons (h.part?_expected ht) ?_
  rintro items rfl
  cases h

theorem passesUnordered_of_reaches (h : Reaches s path actual expected segments a e)
    (ht : expected.Tidy) :
    passesUnordered ((segments.map fun segment => segment.text.toList) ++ pieces) expected =
      passesUnordered pieces e := by
  induction h with
  | here => rfl
  | onward descends _ ih =>
    rw [List.map_cons, List.cons_append, passesUnordered_of_descends descends ht,
      ih (ht.parts descends.mem_parts)]

theorem passesUnordered_of_at? (h : expected.at? front = some (.array items)) (hne : pieces ≠ []) :
    passesUnordered ((front.map fun segment => segment.text.toList) ++ pieces) expected = true := by
  induction front generalizing expected with
  | nil =>
    cases h
    obtain ⟨piece, pieces, rfl⟩ := List.exists_cons_of_ne_nil hne
    rfl
  | cons segment front ih =>
    obtain ⟨e, he, h⟩ := Option.bind_eq_some_iff.mp h
    by_cases hu : ∃ items, expected = .array items
    · obtain ⟨items, rfl⟩ := hu
      rfl
    · rw [List.map_cons, List.cons_append,
        passesUnordered_cons he fun items hitems => hu ⟨items, hitems⟩]
      exact ih h

theorem passesUnordered_of_behind (h : Behind expected path) :
    passesUnordered (Text.pieces '.' path.toList) expected = true := by
  obtain ⟨front, rest, items, hspelled, rfl, hrest, hat⟩ := h
  rw [Path.pieces_text hspelled (by simp [hrest]), List.map_append]
  exact passesUnordered_of_at? hat (by simpa using hrest)

theorem not_behind_root : ¬ Behind expected "" := by
  rintro ⟨front, rest, items, hspelled, htext, hrest, -⟩
  exact Path.text_ne_empty hspelled (by simp [hrest]) htext

/-- What the text of a path makes of the place at which a comparison stops. -/
theorem passesUnordered_of_stops (h : Stops s path a e last conflict) :
    passesUnordered (last.map fun segment => segment.text.toList) e = true ↔
      ∃ items, last ≠ [] ∧ e = .array items := by
  have hmember : ∀ {key : String} {fields : Fields Value},
      passesUnordered [key.toList] (.object fields) = false := by
    intro key fields
    rw [passesUnordered, String.ofList_toList]
    split <;> simp [passesUnordered]
  cases h with
  | clash _ => simp [passesUnordered]
  | missing _ _ => simp [Segment.text, hmember]
  | unexpected _ _ _ _ _ => simp [Segment.text, hmember]
  | unmatched _ _ _ _ => simp [passesUnordered]

theorem passesUnordered_root (he : expected.Named) :
    passesUnordered (Text.pieces '.' "".toList) expected = true ↔
      ∃ items, expected = .array items := by
  have hpieces : Text.pieces '.' "".toList = [[]] := rfl
  rw [hpieces]
  cases expected with
  | array items => simp [passesUnordered]
  | object fields =>
    have hkey : Fields.get? "" fields = none :=
      Fields.get?_eq_none_iff.mpr fun hkey => (he.here "" hkey).1 rfl
    have hempty : String.ofList [] = "" := rfl
    simp [passesUnordered, hempty, hkey]
  | ordered items => simp [passesUnordered, index?]
  | _ => simp [passesUnordered]

theorem passesUnordered_iff (ha : actual.Named) (he : expected.Named) (ht : expected.Tidy)
    (h : compareValues s actual expected = .error m) :
    passesUnordered (Text.pieces '.' m.path.toList) expected = true ↔
      Behind expected m.path ∨ m.path = "" ∧ ∃ items, expected = .array items := by
  obtain ⟨segments, a, e, last, hreaches, hstops, hpath⟩ := exists_reaches h
  have ha' : a.Named := throughout_at? ha hreaches.at?_actual
  have hat := hreaches.at?_expected ht
  have hspelled : Path.Spelled (segments ++ last) := List.forall_mem_append.mpr
    ⟨he.spelled hat, hstops.spelled ha' (throughout_at? he hat)⟩
  have htext : m.path = Path.text (segments ++ last) :=
    hpath.trans (Path.joinedTo_text (List.forall_mem_nil _) hspelled)
  by_cases hempty : segments ++ last = []
  · have hroot : m.path = "" := by rw [htext, hempty]; rfl
    rw [hroot, passesUnordered_root he]
    simp [not_behind_root]
  · have hroot : m.path ≠ "" := htext ▸ Path.text_ne_empty hspelled hempty
    constructor
    · intro hpasses
      rw [htext, Path.pieces_text hspelled hempty, List.map_append,
        passesUnordered_of_reaches hreaches ht, passesUnordered_of_stops hstops] at hpasses
      obtain ⟨items, hlast, rfl⟩ := hpasses
      exact .inl ⟨segments, last, items, hspelled, htext.symm, hlast, hat⟩
    · rintro (hbehind | ⟨hroot', -⟩)
      · exact passesUnordered_of_behind hbehind
      · exact absurd hroot' hroot

theorem receivedPath_of_passes (h : passesUnordered (Text.pieces '.' path.toList) expected = true) :
    receivedPath expected path = none := if_pos h

/-- A report of a failed comparison singles out, in the value that was received, the place where it
failed, except at the root where an array whose order does not count was expected: nothing is
singled out then. -/
theorem output_received (post : Value) (ha : actual.Named) (hta : actual.Tidy) (he : expected.Named)
    (hte : expected.Tidy) (h : compareValues s actual expected = .error m) :
    ∃ highlight, (output m post actual expected).sections =
        [⟨"Posted", post, none⟩, ⟨"Received", actual, highlight⟩,
          ⟨"Expected", expected, some m.path⟩] ∧
      (SinglesOut actual expected m.path (actual.fragments highlight) ↔
        ¬ (m.path = "" ∧ ∃ items, expected = .array items)) ∧
      (m.path = "" ∧ (∃ items, expected = .array items) → Unlit (actual.fragments highlight)) := by
  have hpasses := passesUnordered_iff ha he hte h
  refine ⟨receivedPath expected m.path, rfl, ?_⟩
  have hbare : Unlit (actual.fragments none) := unlit_fragmentsAt
  by_cases hroot : m.path = "" ∧ ∃ items, expected = .array items
  · rw [receivedPath_of_passes (hpasses.mpr (.inr hroot))]
    refine ⟨iff_of_false (fun hout => ?_) (not_not_intro hroot), fun _ => hbare⟩
    exact (hout.found (hroot.1 ▸ not_behind_root) [] actual rfl hroot.1.symm).not_unlit hbare
  · refine ⟨iff_of_true ?_ hroot, fun h => absurd h hroot⟩
    by_cases hbehind : Behind expected m.path
    · rw [receivedPath_of_passes (hpasses.mpr (.inl hbehind))]
      exact ⟨absurd hbehind, fun _ => rfl, fun _ => rfl, hbare⟩
    · have hpath : receivedPath expected m.path = some m.path :=
        if_neg fun hp => (hpasses.mp hp).elim hbehind hroot
      rw [hpath]
      exact ⟨fun _ place part hp hplace => hplace ▸ lights_fragments ha hta hp,
        fragments_elsewhere ha hta, fun h => absurd h hbehind, hbare⟩

/-- An item that reads like another one before it. -/
theorem output_received_of_item :
    let value : String → Value := fun text =>
      .object [("a", .ordered [.string "x"]), ("b", .ordered [.string text])]
    let m : Mismatch := ⟨"b.0", .unequal (.string "y") (.string "x")⟩
    compareValues ⟨true, []⟩ (value "x") (value "y") = .error m ∧
      ∃ highlight, (output m .null (value "x") (value "y")).sections =
          [⟨"Posted", .null, none⟩, ⟨"Received", value "x", highlight⟩,
            ⟨"Expected", value "y", some m.path⟩] ∧
        SinglesOut (value "x") (value "y") m.path ((value "x").fragments highlight) := by
  intro value m
  have hnamed : ∀ text, (value text).Named := fun text => by
    simp [value, Named, Spellable, Fields.keys, Segment.Spelled, Segment.text]
  have hsorted : List.Pairwise (· < ·) ["a", "b"] := by decide
  have htidy : ∀ text, (value text).Tidy := fun text =>
    tidy_object_iff.mpr ⟨hsorted, by simp [Tidy, Keyed]⟩
  have hfails : compareValues ⟨true, []⟩ (value "x") (value "y") = .error m := by rfl
  obtain ⟨highlight, hsections, hout, -⟩ :=
    output_received .null (hnamed _) (htidy _) (hnamed _) (htidy _) hfails
  exact ⟨hfails, highlight, hsections, hout.mpr fun hroot => absurd hroot.1 (by decide)⟩

/-- Something else where an array is expected. -/
theorem output_received_of_root :
    compareValues ⟨true, []⟩ .null (.array []) = .error ⟨"", .notArray .null⟩ ∧
      (output ⟨"", .notArray .null⟩ .null .null (.array [])).sections =
        [⟨"Posted", .null, none⟩, ⟨"Received", .null, none⟩, ⟨"Expected", .array [], some ""⟩] ∧
      ¬ SinglesOut .null (.array []) "" (Value.null.fragments none) := by
  refine ⟨rfl, rfl, fun hout => ?_⟩
  exact (hout.found not_behind_root [] .null rfl rfl).not_unlit hout.bare

end Failure

end ApiContract
