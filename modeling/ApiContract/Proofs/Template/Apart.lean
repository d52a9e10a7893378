import ApiContract.Proofs.Path.Padding
import ApiContract.Proofs.Template.RoundTrip

namespace ApiContract.Template

def keyTexts (texts : List (List Char)) : List (List Char) :=
  texts.filterMap fun s => (Opening.key? s).map Opening.name

namespace Group

def whole (lines : List Line) (origin : Span) : Group := ⟨[], false, origin, false, lines⟩

/-- The groups that the lines of a group are gathered into, unless something is wrong with them. -/
def gathered (group : Group) : List Group :=
  match group.lines with
  | [] => []
  | first :: more =>
    let groups : Except Fault (List Group) :=
      if first.text.head? = some '*' then bullets (first :: more)
      else if isKeyLine first.text then slots Opening.key? [] (first :: more)
      else match MixinOpening.ofChars? first.text with
        | some opening => (Draft.ofOpening opening first more group.inline).map Draft.additions
        | none => .ok []
    groups.toOption.getD []

def Contains : Group → Group → Prop :=
  Relation.ReflTransGen fun outer inner => inner ∈ outer.gathered

/-- A template read from a group, with the way in which the lines have been gathered. -/
inductive ReadAs (group : Group) : Template → Prop
  | array {items : List Template}
      (read : List.Forall₂ (fun g item => g.read = .ok item) group.gathered items) :
      ReadAs group (array items)
  | object {entries : List (String × Slot Template)}
      (slots : slots Opening.key? [] group.lines = .ok group.gathered)
      (read : List.Forall₂ (fun g entry => g.readEntry = .ok entry) group.gathered entries) :
      ReadAs group (ofGroups entries)
  | mixin {base : Path} {removals : List Path} {additions : List (Path × Slot Template)}
      {block : List Line} (slots : slots Opening.path? [] block = .ok group.gathered)
      (read : List.Forall₂ (fun g addition => g.readAddition = .ok addition) group.gathered
        additions) :
      ReadAs group (mixin base removals additions)
  | single {line : Line} {t : Template} (lines : group.lines = [line])
      (other : Opening.key? line.text = none) (read : ofLine line = .ok t) : ReadAs group t

end Group

theorem Draft.exists_slots_of_ofOpening {opening : MixinOpening} {first : Line} {more : List Line}
    {inline : Bool} {draft : Draft} (h : ofOpening opening first more inline = .ok draft) :
    ∃ block, Group.slots Opening.path? [] block = .ok draft.additions := by
  simp only [ofOpening] at h
  split at h
  · cases h
  · split at h
    · cases h
    · split at h
      · cases h
        exact ⟨[], by rw [Group.slots]⟩
      · cases h
    · split at h
      · cases h
      · rename_i block hb
        split at h
        · cases h
        · rename_i groups hs
          cases h
          exact ⟨block, hs⟩

theorem keyTexts_cons {opening : Opening} {s : List Char} {texts : List (List Char)}
    (ho : Opening.key? s = some opening) :
    keyTexts (s :: texts) = opening.name :: keyTexts texts := by
  rw [keyTexts, List.filterMap_cons, ho]
  rfl

theorem keyTexts_append (texts others : List (List Char)) :
    keyTexts (texts ++ others) = keyTexts texts ++ keyTexts others :=
  List.filterMap_append

namespace Group

variable {group : Group} {t : Template}

theorem readAs_of_read (h : group.read = .ok t) : group.ReadAs t := by
  obtain ⟨name, optional, origin, inline, lines⟩ := group
  cases lines with
  | nil =>
    rw [read, ofLines] at h
    cases h
  | cons first more =>
    cases lead first.text with
    | bullet hs =>
      obtain ⟨groups, items, hg, hi, rfl⟩ := (ofLines_array hs).mp h
      have hgathered : gathered ⟨name, optional, origin, inline, first :: more⟩ = groups := by
        simp only [gathered, hs, ↓reduceIte, hg]
        rfl
      exact .array (hgathered ▸ hi)
    | key hs hk =>
      obtain ⟨groups, entries, hg, he, rfl⟩ := (ofLines_object hs hk).mp h
      have hgathered : gathered ⟨name, optional, origin, inline, first :: more⟩ = groups := by
        simp only [gathered, hs, hk, ↓reduceIte, hg]
        rfl
      exact .object (hgathered ▸ hg) (hgathered ▸ he)
    | mixin hs hk ho =>
      obtain ⟨draft, additions, hd, ha, rfl⟩ := (ofLines_mixin hs hk ho).mp h
      have hgathered : gathered ⟨name, optional, origin, inline, first :: more⟩ =
          draft.additions := by
        simp only [gathered, hs, hk, Bool.false_eq_true, ↓reduceIte, ho, hd]
        rfl
      obtain ⟨block, hb⟩ := Draft.exists_slots_of_ofOpening hd
      exact .mixin (hgathered ▸ hb) (hgathered ▸ ha)
    | other hs hk ho =>
      obtain ⟨rfl, hl⟩ := (ofLines_single hs hk ho).mp h
      have hnone : Opening.key? first.text = none :=
        Option.eq_none_iff_forall_ne_some.mpr fun opening hkey => by
          rw [isKeyLine_of_key? hkey] at hk
          cases hk
      exact .single rfl hnone hl

/-- Every part of a template that is read has been read from one of the gathered groups. -/
theorem exists_gathered_of_mem_parts (h : group.read = .ok t) {part : Template}
    (hp : part ∈ t.parts) : ∃ g ∈ group.gathered, g.read = .ok part := by
  cases readAs_of_read h with
  | array hread =>
    exact exists_of_forall₂ hread hp
  | object _ hread =>
    obtain ⟨entry, he, rfl⟩ := List.mem_map.mp hp
    obtain ⟨g, hg, hr⟩ := exists_of_forall₂ hread (Fields.mem_of_mem_ofList he)
    exact ⟨g, hg, (readEntry_eq_ok_iff.mp hr).2.2⟩
  | mixin _ hread =>
    obtain ⟨addition, ha, rfl⟩ := List.mem_map.mp hp
    obtain ⟨g, hg, hr⟩ := exists_of_forall₂ hread ha
    exact ⟨g, hg, (readAddition_eq_ok_iff.mp hr).2.2⟩
  | single _ _ hl =>
    obtain rfl | rfl | ⟨source, rfl, -⟩ := ofLine_eq_ok hl <;> cases hp

section Slots

variable {opening? : List Char → Option Opening} {seen : List (List Char × Span)}
  {lines : List Line} {groups : List Group}

theorem nodup_names_of_slots (h : slots opening? seen lines = .ok groups) :
    (groups.map Group.name).Nodup ∧ ∀ g ∈ groups, seen.lookup g.name = none := by
  fun_induction slots opening? seen lines generalizing groups with
  | case1 =>
    cases h
    exact ⟨List.nodup_nil, by simp⟩
  | case6 seen line lines opening ho hs gs hg ih =>
    cases h
    obtain ⟨hnodup, hfresh⟩ := ih hg
    have hnames : ∀ g ∈ gs, seen.lookup g.name = none ∧ g.name ≠ opening.name := fun g hm =>
      lookup_append_eq_none.mp (hfresh g hm)
    refine ⟨List.nodup_cons.mpr ⟨fun hm => ?_, hnodup⟩,
      List.forall_mem_cons.mpr ⟨hs, fun g hm => (hnames g hm).1⟩⟩
    obtain ⟨g, hm, hname⟩ := List.mem_map.mp hm
    exact (hnames g hm).2 hname
  | _ => cases h

theorem keyTexts_beyond (lines : List Line) :
    keyTexts ((beyond lines).map Line.text) = keyTexts (lines.map Line.text) := by
  have hbelow : keyTexts ((below lines).map Line.text) = [] := by
    refine List.filterMap_eq_nil_iff.mpr fun s hs => ?_
    obtain ⟨line, hl, rfl⟩ := List.mem_map.mp hs
    have hindented : line.isIndented = true := List.mem_takeWhile_imp hl
    cases hkey : Opening.key? line.text with
    | none => rfl
    | some opening =>
      rw [not_isIndented_of_isKeyLine (isKeyLine_of_key? hkey)] at hindented
      cases hindented
  have hsplit : lines = below lines ++ beyond lines := List.takeWhile_append_dropWhile.symm
  conv_rhs => rw [hsplit, List.map_append, keyTexts_append, hbelow, List.nil_append]

theorem map_name_of_slots (h : slots Opening.key? seen lines = .ok groups) :
    groups.map Group.name = keyTexts (lines.map Line.text) := by
  fun_induction slots Opening.key? seen lines generalizing groups with
  | case1 =>
    cases h
    rfl
  | case6 seen line lines opening ho hs gs hg ih =>
    cases h
    rw [List.map_cons, List.map_cons, ih hg, keyTexts_beyond, keyTexts_cons ho]
    rfl
  | _ => cases h

theorem map_name_of_read {entries : List (String × Slot Template)}
    (h : List.Forall₂ (fun g entry => g.readEntry = .ok entry) groups entries) :
    groups.map Group.name = entries.map fun entry => entry.1.toList := by
  rw [← List.forall₂_eq_eq_eq, List.forall₂_map_left_iff, List.forall₂_map_right_iff]
  refine h.imp fun g entry hr => ?_
  rw [← (readEntry_eq_ok_iff.mp hr).1, String.toList_ofList]

theorem nodup_keys_of_read {entries : List (String × Slot Template)}
    (hg : slots opening? seen lines = .ok groups)
    (h : List.Forall₂ (fun g entry => g.readEntry = .ok entry) groups entries) :
    (entries.map Prod.fst).Nodup := by
  have hnodup : ((entries.map Prod.fst).map String.toList).Nodup := by
    rw [List.map_map]
    exact map_name_of_read h ▸ (nodup_names_of_slots hg).1
  exact .of_map _ hnodup

end Slots

/-- The members of an object are those of its key lines, each there once. The additions of a mixin
have names of their own, and so have their paths unless indices are padded. -/
def Apart (group : Group) : Template → Prop
  | .object entries => (keyTexts (group.lines.map Line.text)).Nodup ∧
      (entries.map fun entry => entry.1.toList).Perm (keyTexts (group.lines.map Line.text))
  | .mixin _ _ additions => (group.gathered.map Group.name).Nodup ∧
      List.Forall₂ (fun g addition => g.readAddition = .ok addition) group.gathered additions ∧
      ((additions.map Prod.fst).Nodup ↔
        (group.gathered.map fun g => Path.unpadded g.name).Nodup)
  | _ => True

theorem apart_of_read (h : group.read = .ok t) : group.Apart t := by
  cases readAs_of_read h with
  | array => trivial
  | @object entries hslots hread =>
    have hperm := (Fields.ofList_perm (nodup_keys_of_read hslots hread)).map fun entry =>
      entry.1.toList
    rw [← map_name_of_read hread, map_name_of_slots hslots] at hperm
    exact ⟨map_name_of_slots hslots ▸ (nodup_names_of_slots hslots).1, hperm⟩
  | mixin hslots hread =>
    refine ⟨(nodup_names_of_slots hslots).1, hread, ?_⟩
    -- a name and the path it is read as are told apart from others alike, but for padding
    refine List.rel_nodup Path.biUnique_unpadded ?_
    rw [List.forall₂_map_left_iff, List.forall₂_map_right_iff]
    refine hread.flip.imp fun addition g hr => ?_
    exact ⟨g.name, (readAddition_eq_ok_iff.mp hr).1, rfl⟩
  | @single line _ hlines hother hread =>
    obtain rfl | rfl | ⟨source, rfl, -⟩ := ofLine_eq_ok hread
    · have hnone : keyTexts (group.lines.map Line.text) = [] := by
        rw [hlines, List.map_singleton, keyTexts, List.filterMap_cons, hother]
        rfl
      rw [Apart, hnone]
      exact ⟨.nil, .refl []⟩
    · trivial
    · trivial

/-- A template is read from a group at some depth, and whichever it is, it has its places apart. -/
def KeepsApart (root : Group) (t : Template) : Prop :=
  (∃ group, root.Contains group ∧ group.read = .ok t) ∧
    ∀ group, root.Contains group → group.read = .ok t → group.Apart t

theorem throughout_keepsApart {root : Group} (hgroup : root.Contains group)
    (h : group.read = .ok t) : t.Throughout root.KeepsApart := by
  -- on the way down to the parts the group goes on to one of those gathered from it
  induction t using induction_on_parts generalizing group with
  | step t ih =>
    refine .intro ⟨⟨group, hgroup, h⟩, fun _ _ => apart_of_read⟩ fun part hp => ?_
    obtain ⟨inner, hinner, hpart⟩ := exists_gathered_of_mem_parts h hp
    exact ih part hp (hgroup.tail hinner) hpart

end Group

/-- At every depth of the template that a block is read as, no member of an object is lost, and no
addition of a mixin has the path of another one unless their names differ in padding only. -/
theorem ofBlock_apart {lines : List Line} {origin : Span} {t : Template}
    (h : ofBlock lines origin = .ok t) : t.Throughout (Group.whole lines origin).KeepsApart :=
  Group.throughout_keepsApart .refl h

theorem ofBlock_apart_of_edited :
    let lines := Line.numbered 2
      (["b: 1", "a?:", "\tu with", "\t\t0: x", "\t\t10: y"].map String.toList)
    let edited := mixin [.key "u"] [] [([.index 0], ⟨false, expression "x"⟩),
      ([.index 10], ⟨false, expression "y"⟩)]
    let t := object [("a", ⟨true, edited⟩), ("b", ⟨false, expression "1"⟩)]
    ofBlock lines ⟨2, 7⟩ = .ok t ∧ t.Throughout (Group.whole lines ⟨2, 7⟩).KeepsApart := by
  intro lines edited t
  let first : Group := ⟨"b".toList, false, Span.line 2, true, Line.numbered 2 ["1".toList]⟩
  let second : Group := ⟨"a".toList, true, Span.line 3, false,
    Line.numbered 4 (["u with", "\t0: x", "\t10: y"].map String.toList)⟩
  have hgroups : Group.slots Opening.key? [] lines = .ok [first, second] := by
    with_unfolding_all rfl
  have hfirst : first.read = .ok (expression "1") := by with_unfolding_all rfl
  have hsecond : second.read = .ok edited := by
    have ho : MixinOpening.ofChars? "u with".toList = some ⟨['u'], false, []⟩ := by
      with_unfolding_all rfl
    exact (ofLines_of_mixin (by decide) (by decide) ho).trans (by with_unfolding_all rfl)
  have hread : ofBlock lines ⟨2, 7⟩ = .ok t := by
    have hentries : List.Forall₂ (fun g entry => g.readEntry = .ok entry) [first, second]
        [("b", ⟨false, expression "1"⟩), ("a", ⟨true, edited⟩)] :=
      .cons (Group.readEntry_eq_ok_iff.mpr ⟨rfl, rfl, hfirst⟩)
        (.cons (Group.readEntry_eq_ok_iff.mpr ⟨rfl, rfl, hsecond⟩) .nil)
    refine (ofLines_object (by decide) (by decide)).mpr ⟨_, _, hgroups, hentries, ?_⟩
    refine congrArg object (?_ : _ = Fields.ofList _)
    simp [Fields.ofList, Fields.set, (by decide : "a" < "b")]
  exact ⟨hread, ofBlock_apart hread⟩

/-- Names that differ in padding are not taken for the same, but their paths are. -/
theorem ofBlock_of_padded :
    let lines := Line.numbered 0 (["u with", "\t0: a", "\t00: b"].map String.toList)
    let additions : List (Path × Slot Template) :=
      [([.index 0], ⟨false, expression "a"⟩), ([.index 0], ⟨false, expression "b"⟩)]
    ofBlock lines ⟨0, 3⟩ = .ok (mixin [.key "u"] [] additions) ∧
      ¬ (additions.map Prod.fst).Nodup := by
  intro lines additions
  have ho : MixinOpening.ofChars? "u with".toList = some ⟨['u'], false, []⟩ := by
    with_unfolding_all rfl
  exact ⟨(ofLines_of_mixin (by decide) (by decide) ho).trans (by with_unfolding_all rfl), by decide⟩

end ApiContract.Template
