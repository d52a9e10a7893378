import ApiContract.Proofs.Value.Places
import ApiContract.Value.Layout

namespace ApiContract

def Fragment.highlighted (fragment : Fragment) : Fragment :=
  if fragment.tag = .indent ∨ fragment.tag = .newline then fragment
  else { fragment with tag := .highlight }

namespace Value

def entries : Value → List (Segment × Value)
  | array items => items.zipIdx.map fun item => (.index item.2, item.1)
  | ordered items => items.zipIdx.map fun item => (.index item.2, item.1)
  | object fields => fields.map fun m => (.key m.1, m.2)
  | _ => []

def keyed (place : Path) : List Fragment :=
  match place.getLast? with
  | some (.key key) => [⟨.key, quotedText key⟩, ⟨.bracket, ": "⟩]
  | _ => []

section Frame

variable {α : Type} (emit : Fragment → α)

def framedLines (depth : Nat) : List (List α) → List α
  | [] => []
  | content :: contents =>
    (indentation depth).map emit ++ content ++
      (comma false contents.isEmpty ++ [Fragment.newline]).map emit ++ framedLines depth contents

def bracketed (opening closing : String) (depth : Nat) (contents : List (List α)) : List α :=
  if contents.isEmpty then [emit ⟨.bracket, opening ++ closing⟩]
  else [emit ⟨.bracket, opening⟩, emit Fragment.newline] ++ framedLines emit (depth + 1) contents ++
    ((indentation depth).map emit ++ [emit ⟨.bracket, closing⟩])

/-- What a value adds to the layouts of its parts. -/
def framed (depth : Nat) (contents : List (List α)) : Value → List α
  | array _ => bracketed emit "[" "]" depth contents
  | ordered _ =>
    if contents.isEmpty then bracketed emit "[" "]" depth contents
    else [emit ⟨.expression, "ordered("⟩] ++ bracketed emit "[" "]" depth contents ++
      [emit ⟨.expression, ")"⟩]
  | object _ => bracketed emit "\x7b" "\x7d" depth contents
  | value => (fragmentsAt none "" depth false value).map emit

end Frame

/-- A fragment with the place of the value that it belongs to. -/
structure Piece where
  owner : Path
  fragment : Fragment

namespace Piece

def own (fragment : Fragment) : Piece := ⟨[], fragment⟩

def under (place : Path) (piece : Piece) : Piece := ⟨place ++ piece.owner, piece.fragment⟩

end Piece

theorem mem_parts_of_mem_entries {value : Value} {entry : Segment × Value}
    (h : entry ∈ value.entries) : entry.2 ∈ value.parts := by
  cases value with
  | array items | ordered items =>
    obtain ⟨item, hitem, rfl⟩ := List.mem_map.mp h
    exact List.fst_mem_of_mem_zipIdx hitem
  | object fields =>
    obtain ⟨m, hm, rfl⟩ := List.mem_map.mp h
    exact List.mem_map_of_mem hm
  | _ => cases h

def pieces (depth : Nat) (value : Value) : List Piece :=
  framed Piece.own depth (value.entries.attach.map fun entry =>
    ((keyed [entry.1.1]).map Piece.own ++ pieces (depth + 1) entry.1.2).map
      (Piece.under [entry.1.1])) value
termination_by sizeOf value
decreasing_by exact sizeOf_lt_of_mem_parts (mem_parts_of_mem_entries entry.2)

def entryPieces (depth : Nat) (entry : Segment × Value) : List Piece :=
  ((keyed [entry.1]).map Piece.own ++ pieces depth entry.2).map (Piece.under [entry.1])

variable {α β : Type} {emit : Fragment → α} {f : α → β} {highlight : Option String}
  {path text opening closing : String} {depth position : Nat} {mark outer : Bool}
  {value part : Value} {items : List Value} {fields : Fields Value} {content : List α}
  {contents before after : List (List α)} {place : Path} {segment : Segment} {piece : Piece}

theorem pieces_eq : pieces depth value =
    framed Piece.own depth (value.entries.map (entryPieces (depth + 1))) value := by
  have hparts := @List.attach_map_val _ _ value.entries (entryPieces (depth + 1))
  rw [pieces, ← hparts]
  rfl

theorem map_framedLines : (framedLines emit depth contents).map f =
    framedLines (f ∘ emit) depth (contents.map (List.map f)) := by
  induction contents with
  | nil => rfl
  | cons content contents ih =>
    simp only [framedLines, List.map_append, List.map_map, ih, List.map_cons, List.isEmpty_map]
    rfl

theorem map_bracketed : (bracketed emit opening closing depth contents).map f =
    bracketed (f ∘ emit) opening closing depth (contents.map (List.map f)) := by
  simp only [bracketed, List.isEmpty_map]
  split
  · rfl
  · simp only [List.map_append, List.map_map, map_framedLines]
    rfl

theorem map_framed : (framed emit depth contents value).map f =
    framed (f ∘ emit) depth (contents.map (List.map f)) value := by
  cases value with
  | array items | object fields => exact map_bracketed
  | ordered items =>
    simp only [framed, List.isEmpty_map]
    split
    · exact map_bracketed
    · simp only [List.map_append, map_bracketed]
      rfl
  | _ => simp only [framed, List.map_map]

def lit (mark : Bool) (fragment : Fragment) : Fragment :=
  if mark then fragment.highlighted else fragment

def marksAlong (highlight : Option String) (path : String) : Path → Bool
  | [] => highlight == some path
  | segment :: place =>
    highlight == some path || marksAlong highlight (joinedPath path segment.text) place

def entryFragments (highlight : Option String) (path : String) (depth : Nat) (mark : Bool)
    (entry : Segment × Value) : List Fragment :=
  (keyed [entry.1]).map (lit (mark || highlight == some (joinedPath path entry.1.text))) ++
    fragmentsAt highlight (joinedPath path entry.1.text) depth mark entry.2

theorem indentation_map_lit : (indentation depth).map (lit mark) = indentation depth := by
  rw [indentation]
  split
  · rfl
  · cases mark <;> rfl

theorem comma_map_lit {isLast : Bool} :
    (comma false isLast ++ [Fragment.newline]).map (lit mark) =
      comma mark isLast ++ [Fragment.newline] := by
  cases isLast <;> cases mark <;> rfl

theorem marked_eq_lit {tag : Tag} (h : tag ≠ .indent ∧ tag ≠ .newline) :
    marked mark tag text = lit mark ⟨tag, text⟩ := by
  cases mark with
  | false => rfl
  | true => simp [marked, lit, Fragment.highlighted, h]

theorem itemFragments_eq : itemFragments highlight path depth mark position items =
    framedLines (lit mark) depth ((items.zipIdx position).map fun item =>
      entryFragments highlight path depth mark (.index item.2, item.1)) := by
  induction items generalizing position with
  | nil => rfl
  | cons item items ih =>
    rw [itemFragments, ih, List.zipIdx_cons, List.map_cons, framedLines, indentation_map_lit,
      comma_map_lit]
    cases items <;> simp [entryFragments, keyed, Segment.text]

theorem fieldFragments_eq : fieldFragments highlight path depth mark fields =
    framedLines (lit mark) depth (fields.map fun m =>
      entryFragments highlight path depth mark (.key m.1, m.2)) := by
  induction fields with
  | nil => rfl
  | cons m fields ih =>
    obtain ⟨key, value⟩ := m
    rw [fieldFragments, ih, List.map_cons, framedLines, indentation_map_lit, comma_map_lit]
    simp [entryFragments, keyed, Segment.text, marked_eq_lit]

theorem enclosed_eq {contents : List (List Fragment)} (h : contents ≠ []) :
    enclosed mark opening closing depth (framedLines (lit mark) (depth + 1) contents) =
      bracketed (lit mark) opening closing depth contents := by
  have hnewline : lit mark Fragment.newline = Fragment.newline := by cases mark <;> rfl
  rw [enclosed, bracketed, if_neg (by simpa using h), indentation_map_lit, hnewline,
    marked_eq_lit (by decide), marked_eq_lit (by decide)]
  simp

theorem fragmentsAt_eq_framed : fragmentsAt highlight path depth outer value =
    framed (lit (outer || highlight == some path)) depth (value.entries.map
      (entryFragments highlight path (depth + 1) (outer || highlight == some path))) value := by
  cases value with
  | array items =>
    cases items with
    | nil => rw [fragmentsAt, marked_eq_lit (by decide)]; rfl
    | cons item items =>
      rw [fragmentsAt, itemFragments_eq, enclosed_eq (by simp), framed, entries, List.map_map]
      rfl
  | ordered items =>
    cases items with
    | nil => rw [fragmentsAt, marked_eq_lit (by decide)]; rfl
    | cons item items =>
      rw [fragmentsAt, itemFragments_eq, enclosed_eq (by simp), framed, entries, List.map_map,
        if_neg (by simp), wrapped, marked_eq_lit (by decide), marked_eq_lit (by decide)]
      rfl
  | object fields =>
    cases fields with
    | nil => rw [fragmentsAt, marked_eq_lit (by decide)]; rfl
    | cons m fields =>
      rw [fragmentsAt, fieldFragments_eq, enclosed_eq (by simp), framed, entries, List.map_map]
      rfl
  | _ =>
    simp only [fragmentsAt, framed]
    generalize (outer || highlight == some path) = mark
    cases mark <;> rfl

theorem fragmentsAt_eq_pieces : fragmentsAt highlight path depth outer value =
    (pieces depth value).map fun piece =>
      lit (outer || marksAlong highlight path piece.owner) piece.fragment := by
  induction value using induction_on_parts generalizing path depth outer with
  | step value ih =>
    rw [fragmentsAt_eq_framed, pieces_eq, map_framed, List.map_map]
    congr 1
    -- For a part, the value around it counts as an outer mark and as the first path on its way.
    refine List.map_congr_left fun entry hentry => ?_
    simp only [entryFragments, entryPieces, Function.comp_apply, List.map_append, List.map_map,
      ih _ (mem_parts_of_mem_entries hentry), Bool.or_assoc]
    rfl

def Unlit (shown : List Fragment) : Prop := ∀ fragment ∈ shown, fragment.tag ≠ .highlight

theorem unlit_indentation : Unlit (indentation depth) := by
  rw [indentation]
  split <;> simp [Unlit]

theorem unlit_comma {isLast : Bool} : Unlit (comma false isLast ++ [Fragment.newline]) := by
  cases isLast <;> simp [Unlit, comma, marked, Fragment.newline]

theorem unlit_keyed : Unlit (keyed place) := by
  rw [keyed]
  split <;> simp [Unlit]

def Around (emit : Fragment → α) (contents : List (List α)) (as : List α) : Prop :=
  ∀ a ∈ as, (∃ fragment, fragment.tag ≠ .highlight ∧ emit fragment = a) ∨
    ∃ content ∈ contents, a ∈ content

variable {as bs : List α} {shown : List Fragment}

theorem around_append_iff :
    Around emit contents (as ++ bs) ↔ Around emit contents as ∧ Around emit contents bs :=
  List.forall_mem_append

theorem around_map (h : Unlit shown) : Around emit contents (shown.map emit) := by
  intro a ha
  obtain ⟨fragment, hfragment, rfl⟩ := List.mem_map.mp ha
  exact .inl ⟨fragment, h fragment hfragment, rfl⟩

theorem Around.mono {others : List (List α)} (h : Around emit contents as)
    (hsub : ∀ content ∈ contents, content ∈ others) : Around emit others as := by
  intro a ha
  obtain hown | ⟨content, hcontent, hmem⟩ := h a ha
  · exact .inl hown
  · exact .inr ⟨content, hsub content hcontent, hmem⟩

theorem around_of_mem (h : content ∈ contents) : Around emit contents content :=
  fun _ ha => .inr ⟨content, h, ha⟩

theorem around_framedLines : Around emit contents (framedLines emit depth contents) := by
  induction contents with
  | nil => exact List.forall_mem_nil _
  | cons content contents ih =>
    simp only [framedLines, around_append_iff]
    exact ⟨⟨⟨around_map unlit_indentation, around_of_mem (.head _)⟩, around_map unlit_comma⟩,
      ih.mono fun _ h => .tail _ h⟩

theorem exists_framedLines_eq_append : ∃ front back,
    framedLines emit depth (before ++ content :: after) = front ++ content ++ back ∧
      Around emit (before ++ after) front ∧ Around emit (before ++ after) back := by
  induction before with
  | nil =>
    refine ⟨(indentation depth).map emit,
      (comma false after.isEmpty ++ [Fragment.newline]).map emit ++ framedLines emit depth after,
      by simp [framedLines], around_map unlit_indentation, ?_⟩
    exact around_append_iff.mpr ⟨around_map unlit_comma, around_framedLines⟩
  | cons first before ih =>
    obtain ⟨front, back, heq, hfront, hback⟩ := ih
    have hsub : ∀ other ∈ before ++ after, other ∈ first :: before ++ after := fun _ h => .tail _ h
    refine ⟨(indentation depth).map emit ++ first ++
      (comma false (before ++ content :: after).isEmpty ++ [Fragment.newline]).map emit ++ front,
      back, by simp [framedLines, heq], ?_, hback.mono hsub⟩
    simp only [around_append_iff]
    exact ⟨⟨⟨around_map unlit_indentation, around_of_mem (.head _)⟩, around_map unlit_comma⟩,
      hfront.mono hsub⟩

theorem exists_framed_eq_lines (hvalue : value.IsContainer) (hcontents : contents ≠ []) :
    ∃ front back, Unlit front ∧ Unlit back ∧ framed emit depth contents value =
      front.map emit ++ framedLines emit (depth + 1) contents ++ back.map emit := by
  have hopening : ∀ opening, Unlit [⟨.bracket, opening⟩, Fragment.newline] := by
    simp [Unlit, Fragment.newline]
  have hclosing : ∀ closing, Unlit (indentation depth ++ [⟨.bracket, closing⟩]) := fun closing =>
    List.forall_mem_append.mpr ⟨unlit_indentation, by simp⟩
  have hempty : contents.isEmpty = false := by simpa using hcontents
  cases value with
  | array items =>
    refine ⟨_, _, hopening "[", hclosing "]", ?_⟩
    simp [framed, bracketed, hempty]
  | ordered items =>
    refine ⟨⟨.expression, "ordered("⟩ :: _, _ ++ [⟨.expression, ")"⟩],
      List.forall_mem_cons.mpr ⟨by simp, hopening "["⟩,
      List.forall_mem_append.mpr ⟨hclosing "]", by simp⟩, ?_⟩
    simp [framed, bracketed, hempty]
  | object fields =>
    refine ⟨_, _, hopening "\x7b", hclosing "\x7d", ?_⟩
    simp [framed, bracketed, hempty]
  | _ => exact absurd hvalue not_false

theorem exists_framed_eq_map (h : ¬ value.IsContainer ∨ contents = []) :
    ∃ shown, Unlit shown ∧ framed emit depth contents value = shown.map emit := by
  cases value with
  | array items | ordered items | object fields =>
    obtain rfl : contents = [] := h.resolve_left (not_not_intro trivial)
    refine ⟨[⟨.bracket, _⟩], ?_, rfl⟩
    simp [Unlit]
  | _ =>
    refine ⟨_, ?_, rfl⟩
    simp [Unlit, fragmentsAt, marked]

theorem around_framed : Around emit contents (framed emit depth contents value) := by
  by_cases h : ¬ value.IsContainer ∨ contents = []
  · obtain ⟨shown, hshown, heq⟩ := @exists_framed_eq_map _ emit depth value contents h
    exact heq ▸ around_map hshown
  · obtain ⟨hvalue, hcontents⟩ := not_or.mp h
    obtain ⟨front, back, hfront, hback, heq⟩ :=
      @exists_framed_eq_lines _ emit depth value contents (not_not.mp hvalue) hcontents
    simp only [heq, around_append_iff]
    exact ⟨⟨around_map hfront, around_framedLines⟩, around_map hback⟩

theorem exists_framed_eq_append (hvalue : value.IsContainer) : ∃ front back,
    framed emit depth (before ++ content :: after) value = front ++ content ++ back ∧
      Around emit (before ++ after) front ∧ Around emit (before ++ after) back := by
  obtain ⟨front, back, hfront, hback, heq⟩ := @exists_framed_eq_lines _ emit depth value
    (before ++ content :: after) hvalue (by simp)
  obtain ⟨first, last, hlines, hfirst, hlast⟩ :=
    @exists_framedLines_eq_append _ emit (depth + 1) content before after
  refine ⟨front.map emit ++ first, last ++ back.map emit, by simp [heq, hlines], ?_, ?_⟩
  · exact around_append_iff.mpr ⟨around_map hfront, hfirst⟩
  · exact around_append_iff.mpr ⟨hlast, around_map hback⟩

theorem Around.exists_piece {entries : List (Segment × Value)} {shown : List Piece}
    (h : Around Piece.own (entries.map (entryPieces depth)) shown) (hpiece : piece ∈ shown) :
    (∃ fragment, fragment.tag ≠ .highlight ∧ piece = .own fragment) ∨ ∃ entry ∈ entries,
      (∃ fragment ∈ keyed [entry.1], piece = ⟨[entry.1], fragment⟩) ∨
        ∃ inner ∈ pieces depth entry.2, piece = inner.under [entry.1] := by
  obtain ⟨fragment, htag, rfl⟩ | ⟨content, hcontent, hmem⟩ := h piece hpiece
  · exact .inl ⟨fragment, htag, rfl⟩
  · obtain ⟨entry, hentry, rfl⟩ := List.mem_map.mp hcontent
    obtain ⟨inner, hinner, rfl⟩ := List.mem_map.mp hmem
    refine .inr ⟨entry, hentry, ?_⟩
    obtain hkey | hpart := List.mem_append.mp hinner
    · obtain ⟨fragment, hfragment, rfl⟩ := List.mem_map.mp hkey
      exact .inl ⟨fragment, hfragment, rfl⟩
    · exact .inr ⟨inner, hpart, rfl⟩

theorem around_pieces : Around Piece.own (value.entries.map (entryPieces (depth + 1)))
    (pieces depth value) := by
  rw [pieces_eq]
  exact around_framed

theorem unlit_pieces : ∀ piece ∈ pieces depth value, piece.fragment.tag ≠ .highlight := by
  induction value using induction_on_parts generalizing depth with
  | step value ih =>
    intro piece hpiece
    obtain ⟨fragment, htag, rfl⟩ | ⟨entry, hentry, ⟨fragment, hkey, rfl⟩ | ⟨inner, hinner, rfl⟩⟩ :=
      around_pieces.exists_piece hpiece
    · exact htag
    · exact unlit_keyed fragment hkey
    · exact ih _ (mem_parts_of_mem_entries hentry) inner hinner

theorem part?_of_mem_entries {entry : Segment × Value} (ht : value.Tidy)
    (h : entry ∈ value.entries) : value.part? entry.1 = some entry.2 := by
  cases value with
  | array items | ordered items =>
    obtain ⟨item, hitem, rfl⟩ := List.mem_map.mp h
    exact List.mem_zipIdx_iff_getElem?.mp hitem
  | object fields =>
    obtain ⟨m, hm, rfl⟩ := List.mem_map.mp h
    exact Fields.get?_of_mem (tidy_object_iff.mp ht).1 hm
  | _ => cases h

/-- A piece belongs to one of the values inside. -/
theorem exists_at?_owner (ht : value.Tidy) (h : piece ∈ pieces depth value) :
    ∃ part, value.at? piece.owner = some part := by
  induction value using induction_on_parts generalizing depth piece with
  | step value ih =>
    obtain ⟨fragment, -, rfl⟩ | ⟨entry, hentry, ⟨fragment, -, rfl⟩ | ⟨inner, hinner, rfl⟩⟩ :=
      around_pieces.exists_piece h
    · exact ⟨value, rfl⟩
    · exact ⟨entry.2, by simp [part?_of_mem_entries ht hentry]⟩
    · have hm := mem_parts_of_mem_entries hentry
      obtain ⟨part, hpart⟩ := ih _ hm (ht.parts hm) hinner
      exact ⟨part, by simp [Piece.under, part?_of_mem_entries ht hentry, hpart]⟩

theorem Arrangement.entries_eq {wrap : List Value → Value} (h : Arrangement wrap) :
    (wrap items).entries = items.zipIdx.map fun item => (.index item.2, item.1) := by
  cases h <;> rfl

theorem exists_entries_eq_append (ht : value.Tidy) (hp : value.part? segment = some part) :
    ∃ before after, value.entries = before ++ (segment, part) :: after ∧
      ∀ entry ∈ before ++ after, entry.1 ≠ segment := by
  cases value using shapes with
  | arranged wrap items hwrap =>
    cases segment with
    | key key => rw [hwrap.part?_key] at hp; cases hp
    | index i =>
      rw [hwrap.part?_index] at hp
      obtain ⟨before, after, rfl, rfl⟩ := exists_append_of_getElem? hp
      refine ⟨before.zipIdx.map fun item => (.index item.2, item.1),
        (after.zipIdx (before.length + 1)).map fun item => (.index item.2, item.1), ?_, ?_⟩
      · simp [hwrap.entries_eq, List.zipIdx_append]
      · rw [List.forall_mem_append, List.forall_mem_map, List.forall_mem_map]
        constructor
        · intro item hitem he
          have := List.snd_lt_add_of_mem_zipIdx hitem
          have := Segment.index.inj he
          omega
        · intro item hitem he
          have := List.le_snd_of_mem_zipIdx hitem
          have := Segment.index.inj he
          omega
  | object fields =>
    cases segment with
    | index i => cases hp
    | key key =>
      obtain ⟨before, after, rfl⟩ := List.append_of_mem (Fields.mem_of_get? hp)
      refine ⟨before.map fun m => (.key m.1, m.2), after.map fun m => (.key m.1, m.2),
        by simp [entries], ?_⟩
      rw [← List.map_append, List.forall_mem_map]
      intro m hm he
      exact (tidy_object_iff.mp ht).1.key_ne hm (Segment.key.inj he)
  | leaf value hleaf => rw [part?_of_leaf hleaf] at hp; cases hp

theorem keyed_cons {rest : Path} (hrest : rest ≠ []) : keyed (segment :: rest) = keyed rest := by
  cases rest with
  | nil => exact absurd rfl hrest
  | cons next rest => rfl

/-- The pieces of a value at a place, with its key and colon. -/
def placed (depth : Nat) (place : Path) (part : Value) : List Piece :=
  (keyed place).map (Piece.mk place) ++ (pieces depth part).map (Piece.under place)

/-- What belongs to a place, or to one inside of it, stands in one stretch. -/
def Parted (place : Path) (inside all : List Piece) : Prop :=
  ∃ before after, all = before ++ inside ++ after ∧
    ∀ piece ∈ before ++ after, ¬ place <+: piece.owner

theorem Parted.between {inside all front back : List Piece} (h : Parted place inside all)
    (hfront : ∀ piece ∈ front, ¬ place <+: piece.owner)
    (hback : ∀ piece ∈ back, ¬ place <+: piece.owner) :
    Parted place inside (front ++ all ++ back) := by
  obtain ⟨before, after, rfl, hothers⟩ := h
  obtain ⟨hbefore, hafter⟩ := List.forall_mem_append.mp hothers
  refine ⟨front ++ before, after ++ back, by simp, ?_⟩
  simp only [List.forall_mem_append]
  exact ⟨⟨hfront, hbefore⟩, hafter, hback⟩

variable {rest : Path} {inner : Value}

theorem parted_entry (hp : inner.at? rest = some part)
    (h : Parted rest (placed (depth + rest.length) rest part) (pieces depth inner)) :
    Parted (segment :: rest) (placed (depth + rest.length) (segment :: rest) part)
      (entryPieces depth (segment, inner)) := by
  -- The key belongs to the place where the place ends with it, and stands before it otherwise.
  by_cases hrest : rest = []
  · subst hrest
    cases hp
    refine ⟨[], [], ?_, List.forall_mem_nil _⟩
    simp only [entryPieces, List.map_append, List.map_map, List.nil_append, List.append_nil]
    rfl
  · obtain ⟨before, after, heq, hothers⟩ := h
    have hplaced : placed (depth + rest.length) (segment :: rest) part =
        (placed (depth + rest.length) rest part).map (Piece.under [segment]) := by
      simp only [placed, keyed_cons hrest, List.map_append, List.map_map]
      rfl
    refine ⟨((keyed [segment]).map Piece.own ++ before).map (Piece.under [segment]),
      after.map (Piece.under [segment]), ?_, ?_⟩
    · simp only [hplaced, entryPieces, heq, List.map_append, List.append_assoc]
    · rw [← List.map_append, List.forall_mem_map, List.append_assoc, List.forall_mem_append]
      constructor
      · rintro key hkey ⟨more, hmore⟩
        obtain ⟨fragment, -, rfl⟩ := List.mem_map.mp hkey
        exact hrest (List.append_eq_nil_iff.mp (List.cons.inj hmore).2).1
      · intro piece hpiece hprefix
        exact hothers piece hpiece (List.cons_prefix_cons.mp hprefix).2

theorem Around.not_prefix {entries : List (Segment × Value)} {shown : List Piece}
    (h : Around Piece.own (entries.map (entryPieces depth)) shown)
    (hothers : ∀ entry ∈ entries, entry.1 ≠ segment) :
    ∀ piece ∈ shown, ¬ segment :: rest <+: piece.owner := by
  intro piece hpiece hprefix
  obtain ⟨fragment, -, rfl⟩ | ⟨entry, hentry, ⟨fragment, -, rfl⟩ | ⟨inner, -, rfl⟩⟩ :=
    h.exists_piece hpiece
  · exact absurd (List.prefix_nil.mp hprefix) (List.cons_ne_nil _ _)
  · exact hothers entry hentry (List.cons_prefix_cons.mp hprefix).1.symm
  · exact hothers entry hentry (List.cons_prefix_cons.mp hprefix).1.symm

/-- The key, the colon and the layout of the value at a place are all that belongs there. -/
theorem parted_pieces (ht : value.Tidy) (hp : value.at? place = some part) :
    Parted place (placed (depth + place.length) place part) (pieces depth value) := by
  induction place generalizing value depth with
  | nil =>
    cases hp
    refine ⟨[], [], ?_, List.forall_mem_nil _⟩
    exact (List.map_id _).symm.trans (List.append_nil _).symm
  | cons segment rest ih =>
    obtain ⟨inner, hinner, hrest⟩ := Option.bind_eq_some_iff.mp hp
    obtain ⟨before, after, hentries, hothers⟩ := exists_entries_eq_append ht hinner
    have hpart := @parted_entry _ _ segment rest inner hrest
      (@ih (depth + 1) inner (ht.parts (mem_parts_of_part? hinner)) hrest)
    obtain ⟨front, back, heq, hfront, hback⟩ := @exists_framed_eq_append _ Piece.own depth value
      (entryPieces (depth + 1) (segment, inner)) (before.map (entryPieces (depth + 1)))
      (after.map (entryPieces (depth + 1))) (isContainer_of_part? hinner)
    rw [← List.map_append] at hfront hback
    rw [List.length_cons, ← Nat.add_assoc, Nat.add_right_comm, pieces_eq, hentries, List.map_append,
      List.map_cons, heq]
    exact hpart.between (hfront.not_prefix hothers) (hback.not_prefix hothers)

end Value

end ApiContract
