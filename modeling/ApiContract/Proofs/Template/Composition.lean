import ApiContract.Proofs.Template.Apart
import ApiContract.Proofs.Template.Unplaced

namespace ApiContract.Template

/-- Wherever lines with these texts stand, the template is read from them. -/
def Describes (texts : List (List Char)) (t : Template) : Prop :=
  ∀ lines origin, lines.map Line.text = texts → ofBlock lines origin = .ok t

theorem describes_of_ofBlock {lines : List Line} {origin : Span} {t : Template}
    (h : ofBlock lines origin = .ok t) : Describes (lines.map Line.text) t :=
  fun _ _ hl => (ofLines_eq_ok_congr hl).mpr h

section Firsts

variable {first : Line} {more : List Line} {origin : Span} {inline : Bool} {t : Template}

theorem ofLines_of_not_isMixin (hm : t.isMixin = false) {other : Bool} {lines : List Line}
    (h : ofLines lines origin inline = .ok t) : ofLines lines origin other = .ok t := by
  cases lines with
  | nil =>
    rw [ofLines] at h ⊢
    exact h
  | cons first more =>
    cases lead first.text with
    | bullet hs =>
      rw [ofLines_of_bullet hs] at h ⊢
      exact h
    | key hs hk =>
      rw [ofLines_of_key hs hk] at h ⊢
      exact h
    | mixin hs hk ho =>
      obtain ⟨draft, additions, -, -, rfl⟩ := (ofLines_mixin hs hk ho).mp h
      cases hm
    | other hs hk ho =>
      rw [ofLines_of_other hs hk ho] at h ⊢
      exact h

theorem trim_ne_nil_of_ofLines (h : ofLines (first :: more) origin inline = .ok t) :
    Text.trim first.text ≠ [] := by
  cases lead first.text with
  | bullet hs => exact Text.trim_ne_nil hs (by decide)
  | key hs hk =>
    obtain ⟨c, hc, hstart⟩ := exists_start_of_isKeyLine hk
    exact Text.trim_ne_nil hc (not_isBlank_of_isStart hstart)
  | mixin hs hk ho =>
    obtain ⟨⟨c, hc, hstart⟩, -⟩ := exists_of_ofChars? ho
    exact Text.trim_ne_nil hc (not_isBlank_of_isStart hstart)
  | other hs hk ho =>
    obtain ⟨-, hl⟩ := (ofLines_single hs hk ho).mp h
    intro htrim
    simp only [ofLine, htrim] at hl
    cases hl

end Firsts

namespace Group

variable {opening : Opening} {line : Line} {lines : List Line} {texts : List (List Char)}
  {t : Template}

theorem below_tabbed (hl : lines.map Line.text = texts.map tabbed) :
    ((below lines).map Line.dedent).map Line.text = texts ∧ beyond lines = [] := by
  obtain ⟨hbelow, hbeyond⟩ := @below_texts lines texts [] (by rw [hl, List.append_nil]) (by simp)
  exact ⟨hbelow, List.map_eq_nil_iff.mp hbeyond⟩

/-- Lines below a mark are read as what they describe by themselves. -/
theorem read_below (h : Describes texts t) (ho : opening.rest = [])
    (hl : lines.map Line.text = texts.map tabbed) :
    (ofOpening opening line (below lines)).read = .ok t := by
  have he : (Text.trim opening.rest).isEmpty = true := by
    rw [ho]
    rfl
  simp only [read, ofOpening, he, Bool.not_true, Bool.false_eq_true, ↓reduceIte, List.nil_append]
  exact h _ _ (below_tabbed hl).1

theorem read_beside (h : Describes (opening.rest :: texts) t) (hm : t.isMixin = false)
    (hl : lines.map Line.text = texts.map tabbed) :
    (ofOpening opening line (below lines)).read = .ok t := by
  have hread : ofLines (⟨line.number, opening.rest⟩ :: (below lines).map Line.dedent) line.span
      false = .ok t := h _ _ (by rw [List.map_cons, (below_tabbed hl).1])
  have he : (Text.trim opening.rest).isEmpty = false := by
    simpa using trim_ne_nil_of_ofLines hread
  simp only [read, ofOpening, he, Bool.not_false, ↓reduceIte, List.singleton_append]
  exact ofLines_of_not_isMixin hm hread

theorem bullets_single {first : List Char} (ho : line.text = '*' :: '\t' :: first)
    (hl : lines.map Line.text = texts.map tabbed) :
    bullets (line :: lines) = .ok [ofOpening ⟨[], false, first⟩ line (below lines)] := by
  rw [bullets, ho]
  simp only [(below_tabbed hl).2]
  rw [bullets]

theorem slots_single {opening? : List Char → Option Opening}
    (ho : opening? line.text = some opening) (hl : lines.map Line.text = texts.map tabbed) :
    slots opening? [] (line :: lines) = .ok [ofOpening opening line (below lines)] :=
  (slots_cons ho).mpr ⟨rfl, [], by rw [(below_tabbed hl).2, slots], rfl⟩

section Append

variable {others : List Line} {groups more : List Group}

theorem below_append (h : ∀ l ∈ others.head?, l.isIndented = false) (lines : List Line) :
    below (lines ++ others) = below lines ∧ beyond (lines ++ others) = beyond lines ++ others := by
  induction lines with
  | nil =>
    exact @Text.takeWhile_append_of_head _ Line.isIndented [] others (by simp) h
  | cons line lines ih =>
    obtain ⟨hbelow, hbeyond⟩ := ih
    simp only [below, beyond, List.cons_append, List.takeWhile_cons, List.dropWhile_cons] at *
    split
    · exact ⟨congrArg _ hbelow, hbeyond⟩
    · exact ⟨rfl, rfl⟩

theorem bullets_append (hh : ∀ l ∈ others.head?, l.isIndented = false)
    (hg : bullets lines = .ok groups) (hm : bullets others = .ok more) :
    bullets (lines ++ others) = .ok (groups ++ more) := by
  fun_induction bullets lines generalizing groups with
  | case1 =>
    cases hg
    exact hm
  | case3 line lines rest hl gs hgs ih =>
    cases hg
    obtain ⟨hbelow, hbeyond⟩ := below_append hh lines
    rw [List.cons_append, bullets, hl]
    simp only [hbelow, hbeyond, ih hgs, List.cons_append]
  | _ => cases hg

variable {opening? : List Char → Option Opening} {seen : List (List Char × Span)}

def names (groups : List Group) : List (List Char × Span) := groups.map fun g => (g.name, g.origin)

theorem lookup_names_eq_none {name : List Char} (h : name ∉ groups.map Group.name) :
    (names groups).lookup name = none := by
  rw [List.lookup_eq_none_iff]
  intro pair hp
  obtain ⟨g, hg, rfl⟩ := List.mem_map.mp hp
  rw [bne_iff_ne]
  rintro rfl
  exact h (List.mem_map_of_mem hg)

theorem slots_append (hh : ∀ l ∈ others.head?, l.isIndented = false)
    (hg : slots opening? seen lines = .ok groups)
    (hm : slots opening? (seen ++ names groups) others = .ok more) :
    slots opening? seen (lines ++ others) = .ok (groups ++ more) := by
  fun_induction slots opening? seen lines generalizing groups with
  | case1 seen =>
    cases hg
    rwa [names, List.map_nil, List.append_nil] at hm
  | case6 seen line lines opening ho hs gs hgs ih =>
    cases hg
    obtain ⟨hbelow, hbeyond⟩ := below_append hh lines
    have htail : slots opening? (seen ++ [(opening.name, line.span)] ++ names gs) others =
        .ok more := by
      rw [List.append_assoc]
      exact hm
    rw [List.cons_append, slots_cons ho]
    refine ⟨hs, gs ++ more, ?_, ?_⟩
    · rw [hbeyond]
      exact ih hgs htail
    · rw [hbelow, List.cons_append]
  | _ => cases hg

theorem slots_of_seen {earlier : List (List Char × Span)}
    (h : slots opening? seen lines = .ok groups) (hfresh : ∀ g ∈ groups, earlier.lookup g.name = none) :
    slots opening? (earlier ++ seen) lines = .ok groups := by
  fun_induction slots opening? seen lines generalizing groups with
  | case1 =>
    cases h
    rw [slots]
  | case6 seen line lines opening ho hs gs hgs ih =>
    cases h
    obtain ⟨hfirst, hmore⟩ := List.forall_mem_cons.mp hfresh
    rw [slots_cons ho, List.lookup_append, Option.or_eq_none_iff, List.append_assoc]
    exact ⟨⟨hfirst, hs⟩, gs, ih hgs hmore, rfl⟩
  | _ => cases h

end Append

end Group

def OpensObject (texts : List (List Char)) : Prop := ∃ first ∈ texts.head?, isKeyLine first = true

def OpensArray (texts : List (List Char)) : Prop := ∃ first ∈ texts.head?, first.head? = some '*'

/-- What becomes of a template when its lines are put below or beside a mark, or when those of
another template follow. -/
structure Composes (texts : List (List Char)) (t : Template) : Prop where
  below_key : ∀ key optional, Identifier.isValid key = true →
    Describes (markText key optional :: texts.map tabbed)
      (object [(String.ofList key, ⟨optional, t⟩)])
  below_bullet : Describes (['*', '\t'] :: texts.map tabbed) (array [t])
  beside_bullet : t.isMixin = false → Describes (bulletTexts texts) (array [t])
  members : ∀ {others origin u}, ofBlock others origin = .ok u → OpensObject texts →
    OpensObject (others.map Line.text) →
    (keyTexts texts).Disjoint (keyTexts (others.map Line.text)) →
    ∃ entries more both, t = object entries ∧ u = object more ∧ Fields.Sorted both ∧
      both.Perm (entries ++ more) ∧ Describes (texts ++ others.map Line.text) (object both)
  items : ∀ {others origin u}, ofBlock others origin = .ok u → OpensArray texts →
    OpensArray (others.map Line.text) →
    ∃ items more, t = array items ∧ u = array more ∧
      Describes (texts ++ others.map Line.text) (array (items ++ more))

section Marks

variable {texts : List (List Char)} {t : Template}

theorem Describes.below_key (h : Describes texts t) {key : List Char}
    (hkey : Identifier.isValid key = true) (optional : Bool) :
    Describes (markText key optional :: texts.map tabbed)
      (object [(String.ofList key, ⟨optional, t⟩)]) := by
  intro lines origin hl
  obtain ⟨first, more, rfl, hfirst, hmore⟩ := List.map_eq_cons_iff.mp hl
  have ho : Opening.key? first.text = some ⟨key, optional, []⟩ :=
    hfirst ▸ (takes_key? hkey).alone optional
  have hread := @Group.read_below ⟨key, optional, []⟩ first _ _ _ h rfl hmore
  have hentry := Group.readEntry_eq_ok_iff.mpr ⟨rfl, rfl, hread⟩
  exact (ofLines_object (head_of_key? ho) (isKeyLine_of_key? ho)).mpr
    ⟨_, _, Group.slots_single ho hmore, .cons hentry .nil, rfl⟩

theorem Describes.below_bullet (h : Describes texts t) :
    Describes (['*', '\t'] :: texts.map tabbed) (array [t]) := by
  intro lines origin hl
  obtain ⟨first, more, rfl, hfirst, hmore⟩ := List.map_eq_cons_iff.mp hl
  have hread := @Group.read_below ⟨[], false, []⟩ first _ _ _ h rfl hmore
  exact (ofLines_array (by rw [hfirst]; rfl)).mpr
    ⟨_, _, Group.bullets_single hfirst hmore, .cons hread .nil, rfl⟩

theorem Describes.beside_bullet (h : Describes texts t) (hm : t.isMixin = false)
    (hne : texts ≠ []) : Describes (bulletTexts texts) (array [t]) := by
  obtain ⟨row, rows, rfl⟩ := List.exists_cons_of_ne_nil hne
  intro lines origin hl
  obtain ⟨first, more, rfl, hfirst, hmore⟩ := List.map_eq_cons_iff.mp hl
  have hread := @Group.read_beside ⟨[], false, row⟩ first _ _ _ h hm hmore
  exact (ofLines_array (by rw [hfirst]; rfl)).mpr
    ⟨_, _, Group.bullets_single hfirst hmore, .cons hread .nil, rfl⟩

end Marks

section Append

variable {lines others : List Line} {origin place : Span} {t u : Template}

theorem exists_cons_of_mem_head {s : List Char} (h : s ∈ (lines.map Line.text).head?) :
    ∃ line more, lines = line :: more ∧ line.text = s := by
  cases lines with
  | nil => cases h
  | cons line more => exact ⟨line, more, rfl, Option.some.inj h⟩

theorem ofBlock_append_items (h : ofBlock lines origin = .ok t) (hu : ofBlock others place = .ok u)
    (hs : OpensArray (lines.map Line.text)) (hs' : OpensArray (others.map Line.text)) :
    ∃ items more, t = array items ∧ u = array more ∧
      ofBlock (lines ++ others) origin = .ok (array (items ++ more)) := by
  obtain ⟨_, hhead, hs⟩ := hs
  obtain ⟨_, hhead', hs'⟩ := hs'
  obtain ⟨first, rest, rfl, rfl⟩ := exists_cons_of_mem_head hhead
  obtain ⟨next, rest', rfl, rfl⟩ := exists_cons_of_mem_head hhead'
  obtain ⟨groups, items, hg, hi, rfl⟩ := (ofLines_array hs).mp h
  obtain ⟨groups', more, hg', hi', rfl⟩ := (ofLines_array hs').mp hu
  have hnext : ∀ l ∈ (next :: rest').head?, l.isIndented = false := fun l hl => by
    obtain rfl := Option.some.inj hl
    simp [Line.isIndented, hs']
  exact ⟨items, more, rfl, rfl, (ofLines_array hs).mpr
    ⟨_, _, Group.bullets_append hnext hg hg', List.rel_append hi hi', rfl⟩⟩

theorem ofBlock_append_members (h : ofBlock lines origin = .ok t)
    (hu : ofBlock others place = .ok u) (hk : OpensObject (lines.map Line.text))
    (hk' : OpensObject (others.map Line.text))
    (hd : (keyTexts (lines.map Line.text)).Disjoint (keyTexts (others.map Line.text))) :
    ∃ entries more both, t = object entries ∧ u = object more ∧ Fields.Sorted both ∧
      both.Perm (entries ++ more) ∧ ofBlock (lines ++ others) origin = .ok (object both) := by
  obtain ⟨_, hhead, hk⟩ := hk
  obtain ⟨_, hhead', hk'⟩ := hk'
  obtain ⟨first, rest, rfl, rfl⟩ := exists_cons_of_mem_head hhead
  obtain ⟨next, rest', rfl, rfl⟩ := exists_cons_of_mem_head hhead'
  obtain ⟨groups, entries, hg, he, rfl⟩ := (ofLines_object (head_of_isKeyLine hk) hk).mp h
  obtain ⟨groups', more, hg', he', rfl⟩ := (ofLines_object (head_of_isKeyLine hk') hk').mp hu
  have hnext : ∀ l ∈ (next :: rest').head?, l.isIndented = false := fun l hl => by
    obtain rfl := Option.some.inj hl
    exact not_isIndented_of_isKeyLine hk'
  have hnames := Group.map_name_of_slots hg
  have hnames' := Group.map_name_of_slots hg'
  have hfresh : ∀ g ∈ groups', (Group.names groups).lookup g.name = none := fun g hm => by
    refine Group.lookup_names_eq_none fun hname => ?_
    exact hd (hnames ▸ hname) (hnames' ▸ List.mem_map_of_mem hm)
  -- nothing is wrong with the later names when the earlier ones have been seen before them
  have hlater := Group.slots_of_seen hg' hfresh
  rw [List.append_nil] at hlater
  have hslots : Group.slots Opening.key? [] (first :: rest ++ next :: rest') =
      .ok (groups ++ groups') :=
    Group.slots_append hnext hg hlater
  have hread := List.rel_append he he'
  refine ⟨_, _, Fields.ofList (entries ++ more), rfl, rfl, Fields.sorted_ofList _, ?_, ?_⟩
  · have hparts := (Fields.ofList_perm (Group.nodup_keys_of_read hg he)).append
      (Fields.ofList_perm (Group.nodup_keys_of_read hg' he'))
    exact (Fields.ofList_perm (Group.nodup_keys_of_read hslots hread)).trans hparts.symm
  · exact (ofLines_object (head_of_isKeyLine hk) hk).mpr ⟨_, _, hslots, hread, rfl⟩

end Append

/-- The lines of a template mean the same wherever they are put. -/
theorem ofBlock_composes {lines : List Line} {origin : Span} {t : Template}
    (h : ofBlock lines origin = .ok t) : Composes (lines.map Line.text) t where
  below_key _ optional hkey := (describes_of_ofBlock h).below_key hkey optional
  below_bullet := (describes_of_ofBlock h).below_bullet
  beside_bullet hm := (describes_of_ofBlock h).beside_bullet hm fun hnil => by
    obtain rfl := List.map_eq_nil_iff.mp hnil
    rw [ofBlock, ofLines] at h
    cases h
  members hu hk hk' hd := by
    obtain ⟨entries, more, both, ht, hmore, hsorted, hperm, hread⟩ :=
      ofBlock_append_members h hu hk hk' hd
    exact ⟨entries, more, both, ht, hmore, hsorted, hperm,
      List.map_append ▸ describes_of_ofBlock hread⟩
  items hu hs hs' := by
    obtain ⟨items, more, ht, hmore, hread⟩ := ofBlock_append_items h hu hs hs'
    exact ⟨items, more, ht, hmore, List.map_append ▸ describes_of_ofBlock hread⟩

theorem ofBlock_composes_of_pair :
    let texts := ["b: x", "a?: y"].map String.toList
    let members := [("a", ⟨true, expression "y"⟩), ("b", ⟨false, expression "x"⟩)]
    ofBlock (Line.numbered 0 texts) ⟨0, 2⟩ = .ok (object members) ∧
      Composes texts (object members) ∧
      Describes (["c:", "\tb: x", "\ta?: y"].map String.toList)
        (object [("c", ⟨false, object members⟩)]) ∧
      Describes (["*\tb: x", "\ta?: y"].map String.toList) (array [object members]) ∧
      ∃ both, both.Perm (members ++ [("_", ⟨false, expression "z"⟩)]) ∧
        Describes (["b: x", "a?: y", "_: z"].map String.toList) (object both) := by
  intro texts members
  have hread : ofBlock (Line.numbered 0 texts) ⟨0, 2⟩ = .ok (object members) :=
    (ofLines_of_key (by decide) (by decide)).trans (by with_unfolding_all rfl)
  have hthird : ofBlock [⟨7, "_: z".toList⟩] ⟨7, 8⟩ =
      .ok (object [("_", ⟨false, expression "z"⟩)]) :=
    (ofLines_of_key (by decide) (by decide)).trans (by with_unfolding_all rfl)
  have hcomposes : Composes texts (object members) := ofBlock_composes hread
  obtain ⟨_, _, both, ⟨⟩, ⟨⟩, -, hperm, hboth⟩ := hcomposes.members hthird
    ⟨"b: x".toList, rfl, by decide⟩ ⟨"_: z".toList, rfl, by decide⟩
    (List.disjoint_left.mpr (by decide))
  exact ⟨hread, hcomposes, hcomposes.below_key "c".toList false (by decide),
    hcomposes.beside_bullet rfl, both, hperm, hboth⟩

end ApiContract.Template
