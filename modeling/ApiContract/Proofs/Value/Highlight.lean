import ApiContract.Proofs.Path.Spelling
import ApiContract.Proofs.Value.Owners

namespace ApiContract.Value

variable {highlight : Option String} {path text : String} {depth : Nat}
  {value part : Value} {shown : List Fragment}
  {front place other : Path} {segment segment' : Segment} {piece : Piece}

theorem marksAlong_none : marksAlong none path place = false := by
  induction place generalizing path with
  | nil => rfl
  | cons segment place ih => exact ih

theorem fragmentsAt_none :
    fragmentsAt none path depth false value = (pieces depth value).map Piece.fragment := by
  rw [fragmentsAt_eq_pieces]
  exact List.map_congr_left fun piece _ => by rw [marksAlong_none]; rfl

theorem unlit_fragmentsAt : Unlit (fragmentsAt none path depth false value) := by
  rw [fragmentsAt_none]
  exact List.forall_mem_map.mpr unlit_pieces

theorem exists_visible : ∃ fragment ∈ fragmentsAt none path depth false value,
    fragment.highlighted.tag = .highlight := by
  cases value with
  | array items | ordered items => cases items <;> exact ⟨_, .head _, rfl⟩
  | object fields => cases fields <;> exact ⟨_, .head _, rfl⟩
  | _ => exact ⟨_, .head _, rfl⟩

theorem map_text_fragments :
    (value.fragments highlight).map Fragment.text = (value.fragments none).map Fragment.text := by
  have htext : ∀ (mark : Bool) (fragment : Fragment), (lit mark fragment).text = fragment.text := by
    intro mark fragment
    rw [lit, Fragment.highlighted]
    split
    · split <;> rfl
    · rfl
  rw [fragments, fragments, fragmentsAt_none, fragmentsAt_eq_pieces, List.map_map, List.map_map]
  exact List.map_congr_left fun piece _ => htext _ piece.fragment

theorem print_plain : value.print highlight .plain = value.print none .plain := by
  have hrender : ∀ shown, Renderer.plain.render shown = String.join (shown.map Fragment.text) :=
    fun _ => rfl
  rw [print, print, hrender, hrender, map_text_fragments]

def Spellable : Value → Prop
  | object fields => ∀ key ∈ Fields.keys fields, (Segment.key key).Spelled
  | _ => True

/-- Every place inside can be told from the others by the text of its path. -/
def Named (value : Value) : Prop := Throughout parts Spellable value

theorem Named.spelled_of_part? (hv : value.Named) (hp : value.part? segment = some part) :
    segment.Spelled := by
  cases segment with
  | key key =>
    cases value with
    | object fields => exact hv.here key (Fields.mem_keys_iff.mpr ⟨part, hp⟩)
    | _ => cases hp
  | index i => exact Segment.spelled_index i

theorem Named.spelled (hv : value.Named) (hp : value.at? place = some part) : place.Spelled := by
  induction place generalizing value with
  | nil => exact List.forall_mem_nil _
  | cons segment place ih =>
    obtain ⟨inner, hinner, hp⟩ := Option.bind_eq_some_iff.mp hp
    exact List.forall_mem_cons.mpr
      ⟨hv.spelled_of_part? hinner, ih (hv.parts (mem_parts_of_part? hinner)) hp⟩

theorem segment_eq_of_text_eq {inner : Value} (hp : value.part? segment = some part)
    (hp' : value.part? segment' = some inner) (h : segment.text = segment'.text) :
    segment = segment' := by
  cases value using shapes with
  | arranged wrap items hwrap =>
    cases segment with
    | key key => rw [hwrap.part?_key] at hp; cases hp
    | index i =>
      cases segment' with
      | key key => rw [hwrap.part?_key] at hp'; cases hp'
      | index j => exact congrArg _ (Segment.index_of_text_eq h)
  | object fields =>
    cases segment with
    | index i => cases hp
    | key key =>
      cases segment' with
      | index j => cases hp'
      | key key' => exact congrArg _ h
  | leaf value hleaf => rw [part?_of_leaf hleaf] at hp; cases hp

theorem place_eq_of_texts_eq {inner : Value} (hp : value.at? place = some part)
    (hp' : value.at? other = some inner) (h : place.map Segment.text = other.map Segment.text) :
    place = other := by
  induction place generalizing value other with
  | nil => exact (List.map_eq_nil_iff.mp h.symm).symm
  | cons segment place ih =>
    cases other with
    | nil => cases h
    | cons segment' other =>
      obtain ⟨hsegment, hrest⟩ := List.cons.inj h
      obtain ⟨next, hnext, hp⟩ := Option.bind_eq_some_iff.mp hp
      obtain ⟨next', hnext', hp'⟩ := Option.bind_eq_some_iff.mp hp'
      obtain rfl := segment_eq_of_text_eq hnext hnext' hsegment
      obtain rfl : next = next' := Option.some.inj (hnext.symm.trans hnext')
      rw [ih hp hp' hrest]

theorem Named.place_eq {inner : Value} (hv : value.Named) (hp : value.at? place = some part)
    (hp' : value.at? other = some inner) (h : place.text = other.text) : place = other :=
  place_eq_of_texts_eq hp hp' (Path.texts_eq_of_text_eq (hv.spelled hp) (hv.spelled hp') h)

theorem marksAlong_iff (hfront : front.Spelled) (hplace : place.Spelled) :
    marksAlong (some text) front.text place = true ↔
      ∃ before, before <+: place ∧ Path.text (front ++ before) = text := by
  have hhere : ∀ front : Path, (some text == some front.text) = true ↔ front.text = text :=
    fun front => by rw [beq_iff_eq, Option.some.injEq, eq_comm]
  induction place generalizing front with
  | nil =>
    rw [marksAlong, hhere]
    constructor
    · exact fun h => ⟨[], List.nil_prefix, by rwa [List.append_nil]⟩
    · rintro ⟨before, hbefore, h⟩
      rwa [List.prefix_nil.mp hbefore, List.append_nil] at h
  | cons segment place ih =>
    obtain ⟨hsegment, hplace⟩ := List.forall_mem_cons.mp hplace
    have hdeeper : marksAlong (some text) (Path.text (front ++ [segment])) place = true ↔
        ∃ before, before <+: place ∧ Path.text (front ++ [segment] ++ before) = text :=
      ih (hfront.concat hsegment) hplace
    rw [marksAlong, Path.joinedPath_text hfront, Bool.or_eq_true, hhere, hdeeper]
    constructor
    · rintro (h | ⟨before, hbefore, h⟩)
      · exact ⟨[], List.nil_prefix, by rwa [List.append_nil]⟩
      · rw [List.append_assoc] at h
        exact ⟨segment :: before, List.cons_prefix_cons.mpr ⟨rfl, hbefore⟩, h⟩
    · rintro ⟨before, hbefore, h⟩
      cases before with
      | nil => exact .inl (by rwa [List.append_nil] at h)
      | cons first before =>
        obtain ⟨rfl, hprefix⟩ := List.cons_prefix_cons.mp hbefore
        exact .inr ⟨before, hprefix, by rwa [List.append_assoc]⟩

theorem marksAlong_owner_iff (hv : value.Named) (ht : value.Tidy) (h : piece ∈ pieces depth value) :
    marksAlong (some text) "" piece.owner = true ↔ ∃ (before : Path) (part : Value),
      before <+: piece.owner ∧ value.at? before = some part ∧ before.text = text := by
  obtain ⟨part, hpart⟩ := exists_at?_owner ht h
  refine Iff.trans (marksAlong_iff (List.forall_mem_nil _) (hv.spelled hpart)) ?_
  constructor
  · rintro ⟨before, ⟨after, heq⟩, htext⟩
    rw [← heq] at hpart
    obtain ⟨outer, houter, -⟩ := at?_append_eq_some_iff.mp hpart
    exact ⟨before, outer, ⟨after, heq⟩, houter, htext⟩
  · rintro ⟨before, -, hbefore, -, htext⟩
    exact ⟨before, hbefore, htext⟩

/-- With the path of a place highlighted, what belongs to this place is. -/
theorem fragments_eq_pieces (hv : value.Named) (ht : value.Tidy)
    (hp : value.at? place = some part) :
    value.fragments (some place.text) = (pieces 0 value).map fun piece =>
      lit (decide (place <+: piece.owner)) piece.fragment := by
  rw [fragments, fragmentsAt_eq_pieces]
  refine List.map_congr_left fun piece hpiece => congrArg (lit · piece.fragment) ?_
  rw [Bool.false_or, Bool.eq_iff_iff, marksAlong_owner_iff hv ht hpiece, decide_eq_true_iff]
  constructor
  · rintro ⟨before, inner, hbefore, hinner, htext⟩
    exact hv.place_eq hinner hp htext ▸ hbefore
  · exact fun hprefix => ⟨place, part, hprefix, hp, rfl⟩

theorem fragments_elsewhere (hv : value.Named) (ht : value.Tidy)
    (h : ∀ place part, value.at? place = some part → place.text ≠ text) :
    value.fragments (some text) = value.fragments none := by
  rw [fragments, fragments, fragmentsAt_none, fragmentsAt_eq_pieces]
  refine List.map_congr_left fun piece hpiece => ?_
  have hnone : ¬ marksAlong (some text) "" piece.owner = true := by
    rw [marksAlong_owner_iff hv ht hpiece]
    rintro ⟨before, part, -, hpart, htext⟩
    exact h before part hpart htext
  rw [Bool.false_or, eq_false_of_ne_true hnone]
  rfl

theorem placed_owner : ∀ piece ∈ placed depth place part, place <+: piece.owner := by
  rw [placed, List.forall_mem_append, List.forall_mem_map, List.forall_mem_map]
  exact ⟨fun _ _ => List.prefix_rfl, fun piece _ => List.prefix_append place piece.owner⟩

theorem map_fragment_placed : (placed depth place part).map Piece.fragment =
    keyed place ++ fragmentsAt none path depth false part := by
  rw [placed, fragmentsAt_none, List.map_append, List.map_map, List.map_map]
  exact congrArg (· ++ _) (List.map_id _)

theorem map_lit_of_inside {all : List Piece} (h : ∀ piece ∈ all, place <+: piece.owner) :
    (all.map fun piece => lit (decide (place <+: piece.owner)) piece.fragment) =
      (all.map Piece.fragment).map Fragment.highlighted := by
  rw [List.map_map]
  exact List.map_congr_left fun piece hpiece => by rw [decide_eq_true (h piece hpiece)]; rfl

theorem Parted.filter_eq {belonging all : List Piece} (h : Parted place belonging all)
    (hbelonging : ∀ piece ∈ belonging, place <+: piece.owner) :
    (all.filter fun piece => place <+: piece.owner) = belonging := by
  obtain ⟨before, after, rfl, hothers⟩ := h
  obtain ⟨hbefore, hafter⟩ := List.forall_mem_append.mp hothers
  have hnone : ∀ {others : List Piece}, (∀ piece ∈ others, ¬ place <+: piece.owner) →
      (others.filter fun piece => place <+: piece.owner) = [] := fun hothers =>
    List.filter_eq_nil_iff.mpr fun piece hpiece => by simpa using hothers piece hpiece
  have hall : (belonging.filter fun piece => place <+: piece.owner) = belonging :=
    List.filter_eq_self.mpr fun piece hpiece => by simpa using hbelonging piece hpiece
  rw [List.filter_append, List.filter_append, hnone hbefore, hnone hafter, hall, List.nil_append,
    List.append_nil]

/-- A layout in which one place is highlighted: all pieces that belong to it, which are its key, the
colon and its own layout, and none of the others. -/
structure Lights (value : Value) (place : Path) (part : Value) (shown : List Fragment) : Prop where
  shown : shown = (pieces 0 value).map fun piece =>
    if place <+: piece.owner then piece.fragment.highlighted else piece.fragment
  own : ((pieces 0 value).filter fun piece => place <+: piece.owner).map Piece.fragment =
    keyed place ++ fragmentsAt none place.text place.length false part

theorem lights_fragments (hv : value.Named) (ht : value.Tidy) (hp : value.at? place = some part) :
    Lights value place part (value.fragments (some place.text)) where
  shown := by
    rw [fragments_eq_pieces hv ht hp]
    simp only [lit, decide_eq_true_eq]
  own := by
    have hparted := @parted_pieces 0 value part place ht hp
    rw [hparted.filter_eq placed_owner, map_fragment_placed, Nat.zero_add]

theorem Lights.not_unlit (h : Lights value place part shown) : ¬ Unlit shown := by
  obtain ⟨fragment, hfragment, hvisible⟩ := @exists_visible place.text place.length part
  have hmem : fragment ∈ keyed place ++ fragmentsAt none place.text place.length false part :=
    List.mem_append_right _ hfragment
  rw [← h.own] at hmem
  obtain ⟨piece, hpiece, rfl⟩ := List.mem_map.mp hmem
  obtain ⟨hpiece, hprefix⟩ := List.mem_filter.mp hpiece
  intro hunlit
  apply hunlit piece.fragment.highlighted _ hvisible
  rw [h.shown]
  exact List.mem_map.mpr ⟨piece, hpiece, if_pos (by simpa using hprefix)⟩

theorem fragments_of_root (hv : value.Named) (ht : value.Tidy) :
    value.fragments (some "") = (value.fragments none).map Fragment.highlighted := by
  have hroot : value.fragments (some (Path.text [])) = _ := fragments_eq_pieces hv ht rfl
  have hnone : value.fragments none = (pieces 0 value).map Piece.fragment := fragmentsAt_none
  rw [map_lit_of_inside fun _ _ => List.nil_prefix, ← hnone] at hroot
  exact hroot

/-- A path highlights one value at most, the one at its place: of all pieces of the layout, those
that belong to it or to a value inside of it, which are its key, the colon and its own layout. For
the empty path that is everything, and without such a place it is nothing. The text never changes. -/
theorem fragments_highlighted (value : Value) (hv : value.Named) (ht : value.Tidy) (text : String) :
    (pieces 0 value).map Piece.fragment = value.fragments none ∧ Unlit (value.fragments none) ∧
    (∀ place part, value.at? place = some part → place.text = text →
      (∀ other inner, value.at? other = some inner → other.text = text → other = place) ∧
      value.fragments (some text) = ((pieces 0 value).map fun piece =>
        if place <+: piece.owner then piece.fragment.highlighted else piece.fragment) ∧
      ((pieces 0 value).filter fun piece => place <+: piece.owner).map Piece.fragment =
        keyed place ++ fragmentsAt none text place.length false part) ∧
    ((∀ place part, value.at? place = some part → place.text ≠ text) →
      value.fragments (some text) = value.fragments none) ∧
    value.fragments (some "") = (value.fragments none).map Fragment.highlighted ∧
    ∀ highlight, value.print highlight .plain = value.print none .plain := by
  refine ⟨fragmentsAt_none.symm, unlit_fragmentsAt, ?_, fragments_elsewhere hv ht,
    fragments_of_root hv ht, fun highlight => print_plain⟩
  rintro place part hp rfl
  have hlights := lights_fragments hv ht hp
  exact ⟨fun other inner hother htext => hv.place_eq hother hp htext, hlights.shown, hlights.own⟩

/-- The second of two equal items under a key. -/
theorem fragments_highlighted_of_item :
    let value : Value := .object [("items", .array [.string "x", .string "x"])]
    let place : Path := [.key "items", .index 1]
    value.Named ∧ value.Tidy ∧ place.text = "items.1" ∧
      value.fragments (some "items.1") = ((pieces 0 value).map fun piece =>
        if place <+: piece.owner then piece.fragment.highlighted else piece.fragment) := by
  intro value place
  have hv : value.Named := by
    simp [value, Named, Spellable, Fields.keys, Segment.Spelled, Segment.text]
  have ht : value.Tidy := by simp [value, Tidy, Keyed, Fields.Sorted, Fields.keys]
  have htext : place.text = "items.1" := rfl
  exact ⟨hv, ht, htext, ((fragments_highlighted value hv ht "items.1").2.2.1 place (.string "x") rfl
    htext).2.1⟩

example : (Value.object [("items", .array [.string "x", .string "x"])]).print (some "items.1")
    .bracketed = "\x7b\n  \"items\": [\n    \"x\",\n    [[\"x\"]]\n  ]\n\x7d" := by decide

end ApiContract.Value
