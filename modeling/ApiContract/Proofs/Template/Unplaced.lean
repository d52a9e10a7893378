import ApiContract.Proofs.Bind
import ApiContract.Proofs.Source.Unplaced
import ApiContract.Proofs.Template.Reading

namespace ApiContract.Template

namespace Group

def unplaced (group : Group) : Group :=
  { group with origin := Span.line 0, lines := group.lines.map Line.unplaced }

variable {line : Line} {lines : List Line}

theorem below_unplaced (lines : List Line) :
    below (lines.map Line.unplaced) = (below lines).map Line.unplaced :=
  List.takeWhile_map

theorem beyond_unplaced (lines : List Line) :
    beyond (lines.map Line.unplaced) = (beyond lines).map Line.unplaced :=
  List.dropWhile_map

theorem ofOpening_unplaced (opening : Opening) (line : Line) (lines : List Line) :
    ofOpening opening line.unplaced (lines.map Line.unplaced) =
      (ofOpening opening line lines).unplaced := by
  simp only [ofOpening, unplaced, Line.map_dedent_unplaced, List.map_append, Line.span_unplaced]
  split <;> rfl

theorem bullets_unplaced (lines : List Line) :
    bullets (lines.map Line.unplaced) = unplacing (List.map unplaced) (bullets lines) := by
  fun_induction bullets lines with
  | case1 => rw [List.map_nil, bullets, unplacing_ok, List.map_nil]
  | case2 line lines rest hl fault he ih =>
    rw [List.map_cons, bullets]
    simp only [Line.text_unplaced, hl, beyond_unplaced, ih, he, unplacing_error]
  | case3 line lines rest hl groups hg ih =>
    rw [List.map_cons, bullets]
    simp only [Line.text_unplaced, hl, beyond_unplaced, below_unplaced, ih, hg, unplacing_ok,
      ofOpening_unplaced, List.map_cons]
  | case4 line lines rest hne hl =>
    rw [List.map_cons, bullets]
    simp only [Line.text_unplaced, hl]
    rfl
  | case5 line lines htab hstar =>
    rw [List.map_cons, bullets]
    simp only [Line.text_unplaced]
    rfl

variable {opening? : List Char → Option Opening}

def unplacedSeen (seen : List (List Char × Span)) : List (List Char × Span) :=
  seen.map fun s => (s.1, Span.line 0)

theorem lookup_unplacedSeen (name : List Char) (seen : List (List Char × Span)) :
    (unplacedSeen seen).lookup name = (seen.lookup name).map fun _ => Span.line 0 := by
  induction seen with
  | nil => rfl
  | cons s seen ih =>
    obtain ⟨other, place⟩ := s
    rw [unplacedSeen, List.map_cons, List.lookup_cons, List.lookup_cons]
    cases name == other
    · exact ih
    · rfl

theorem unplacedSeen_concat (seen : List (List Char × Span)) (name : List Char) (place : Span) :
    unplacedSeen (seen ++ [(name, place)]) = unplacedSeen seen ++ [(name, Span.line 0)] :=
  List.map_append

theorem slots_unplaced (seen : List (List Char × Span)) (lines : List Line) :
    slots opening? (unplacedSeen seen) (lines.map Line.unplaced) =
      unplacing (List.map unplaced) (slots opening? seen lines) := by
  fun_induction slots opening? seen lines with
  | case1 => rw [List.map_nil, slots, unplacing_ok, List.map_nil]
  | case2 seen line lines ho hs =>
    rw [List.map_cons, slots]
    simp only [Line.text_unplaced, ho, unplacedSeen, List.isEmpty_map, hs, ↓reduceIte]
    rfl
  | case3 seen line lines ho hs =>
    rw [List.map_cons, slots]
    simp only [Line.text_unplaced, ho, unplacedSeen, List.isEmpty_map, hs]
    rfl
  | case4 seen line lines opening ho earlier he =>
    rw [List.map_cons, slots]
    simp only [Line.text_unplaced, ho, lookup_unplacedSeen, he, Option.map_some]
    rfl
  | case5 seen line lines opening ho hs fault he ih =>
    rw [unplacedSeen_concat, ← beyond_unplaced] at ih
    rw [List.map_cons, slots]
    simp only [Line.text_unplaced, ho, lookup_unplacedSeen, hs, Option.map_none,
      Line.span_unplaced, ih, he, unplacing_error]
  | case6 seen line lines opening ho hs groups hg ih =>
    rw [unplacedSeen_concat, ← beyond_unplaced] at ih
    rw [List.map_cons, slots]
    simp only [Line.text_unplaced, ho, lookup_unplacedSeen, hs, Option.map_none,
      Line.span_unplaced, ih, hg, unplacing_ok, below_unplaced, ofOpening_unplaced, List.map_cons]

end Group

namespace Draft

def unplaced (draft : Draft) : Draft :=
  { draft with additions := draft.additions.map Group.unplaced }

theorem pathAt_unplaced (place : Span) (s : List Char) :
    pathAt (Span.line 0) s = unplacing id (pathAt place s) := by
  unfold pathAt
  split <;> rfl

theorem readRemovals_unplaced (place : Span) (rest : List Char) :
    readRemovals (Span.line 0) rest = unplacing id (readRemovals place rest) := by
  have hpaths : ∀ items, (traverse items fun item _ => pathAt (Span.line 0) (Text.trim item)) =
      unplacing id (traverse items fun item _ => pathAt place (Text.trim item)) := by
    intro items
    have h := @traverse_unplacing _ _ _ id items (fun item => pathAt place (Text.trim item))
      (fun item => pathAt (Span.line 0) (Text.trim item)) fun item _ => pathAt_unplaced place _
    rwa [List.map_id] at h
  simp only [readRemovals, hpaths]
  cases (traverse (Text.pieces ',' ((Text.cutFirst ';' rest).getD (rest, [])).1) fun item _ =>
    pathAt place (Text.trim item)) with
  | error fault => rfl
  | ok removals =>
    simp only [unplacing_ok]
    split
    · rfl
    · split <;> rfl

theorem readEdits_unplaced (place : Span) (opening : MixinOpening) :
    readEdits (Span.line 0) opening = unplacing id (readEdits place opening) := by
  unfold readEdits
  split
  · exact readRemovals_unplaced place _
  · rfl

theorem dedented_unplaced (lines : List Line) :
    dedented (lines.map Line.unplaced) = unplacing (List.map Line.unplaced) (dedented lines) := by
  fun_induction dedented lines with
  | case1 => rfl
  | case2 line lines hi fault he ih =>
    rw [List.map_cons, dedented]
    simp only [Line.isIndented_unplaced, hi, ↓reduceIte, ih, he, unplacing_error]
  | case3 line lines hi block hb ih =>
    rw [List.map_cons, dedented]
    simp only [Line.isIndented_unplaced, hi, ↓reduceIte, ih, hb, unplacing_ok, List.map_cons,
      Line.dedent_unplaced]
  | case4 line lines hi =>
    rw [List.map_cons, dedented]
    simp only [Line.isIndented_unplaced, hi]
    rfl

theorem beside_unplaced (number : Nat) (rest : List Char) :
    beside 0 rest = (beside number rest).map Line.unplaced := by
  unfold beside
  split <;> rfl

theorem block_unplaced (first : Line) (rest : List Char) (more : List Line) (inline : Bool) :
    block first.unplaced rest (more.map Line.unplaced) inline =
      unplacing (List.map Line.unplaced) (block first rest more inline) := by
  have hbelow : (if inline then .ok (more.map Line.unplaced)
      else dedented (more.map Line.unplaced)) =
      unplacing (List.map Line.unplaced) (if inline then .ok more else dedented more) := by
    cases inline
    · exact dedented_unplaced more
    · rfl
  simp only [block, hbelow]
  cases (if inline then .ok more else dedented more) with
  | error fault => rfl
  | ok below =>
    have hlines : beside first.unplaced.number rest ++ below.map Line.unplaced =
        (beside first.number rest ++ below).map Line.unplaced := by
      rw [List.map_append, ← beside_unplaced]
      rfl
    simp only [unplacing_ok, hlines, List.isEmpty_map]
    split <;> rfl

theorem ofOpening_unplaced (opening : MixinOpening) (first : Line) (more : List Line)
    (inline : Bool) :
    ofOpening opening first.unplaced (more.map Line.unplaced) inline =
      unplacing unplaced (ofOpening opening first more inline) := by
  simp only [ofOpening, Line.span_unplaced, pathAt_unplaced first.span,
    readEdits_unplaced first.span]
  cases pathAt first.span opening.base with
  | error fault => rfl
  | ok base =>
    cases readEdits first.span opening with
    | error fault => rfl
    | ok edits =>
      obtain ⟨removals, _ | rest⟩ := edits
      · simp only [unplacing_ok, id, List.isEmpty_map, Line.spanOf_unplaced]
        split <;> rfl
      · simp only [unplacing_ok, id, block_unplaced]
        cases block first rest more inline with
        | error fault => rfl
        | ok lines =>
          have hslots : Group.slots Opening.path? [] (lines.map Line.unplaced) =
              unplacing (List.map Group.unplaced) (Group.slots Opening.path? [] lines) :=
            Group.slots_unplaced [] lines
          simp only [unplacing_ok, hslots]
          cases Group.slots Opening.path? [] lines <;> rfl

end Draft

theorem ofLine_unplaced (line : Line) : ofLine line.unplaced = unplacing id (ofLine line) := by
  simp only [ofLine, Line.text_unplaced, apply_ite (unplacing id)]
  rfl

section Branches

variable {first : Line} {more : List Line} {origin : Span} {inline : Bool}

def UnplacedBelow (lines : List Line) : Prop :=
  ∀ group : Group, Line.weight group.lines < Line.weight lines →
    group.unplaced.read = unplacing id group.read

theorem ofLines_unplaced_of_bullet (hbelow : UnplacedBelow (first :: more))
    (hs : first.text.head? = some '*') :
    ofLines (first.unplaced :: more.map Line.unplaced) (Span.line 0) inline =
      unplacing id (ofLines (first :: more) origin inline) := by
  have hbullets := Group.bullets_unplaced (first :: more)
  rw [List.map_cons] at hbullets
  rw [ofLines_of_bullet hs, @ofLines_of_bullet first.unplaced _ _ _ hs, hbullets]
  refine unplacing_bind fun groups hg => ?_
  rw [traverse_unplacing fun group hm => hbelow group (Group.weight_lt_of_mem_bullets hg hm)]
  exact unplacing_bind fun items _ => rfl

theorem ofLines_unplaced_of_key (hbelow : UnplacedBelow (first :: more))
    (hs : first.text.head? ≠ some '*') (hk : isKeyLine first.text = true) :
    ofLines (first.unplaced :: more.map Line.unplaced) (Span.line 0) inline =
      unplacing id (ofLines (first :: more) origin inline) := by
  have hslots : Group.slots Opening.key? [] (first.unplaced :: more.map Line.unplaced) =
      unplacing (List.map Group.unplaced) (Group.slots Opening.key? [] (first :: more)) :=
    Group.slots_unplaced [] (first :: more)
  rw [ofLines_of_key hs hk, @ofLines_of_key first.unplaced _ _ _ hs hk, hslots]
  refine unplacing_bind fun groups hg => ?_
  have hentries : ∀ group ∈ groups, group.unplaced.readEntry = unplacing id group.readEntry := by
    intro group hm
    rw [Group.readEntry, Group.readEntry,
      hbelow group (Group.weight_lt_of_mem_slots (fun _ _ => Opening.length_key?) hg hm)]
    exact unplacing_bind fun value _ => rfl
  rw [traverse_unplacing hentries]
  exact unplacing_bind fun entries _ => rfl

theorem ofLines_unplaced_of_mixin (hbelow : UnplacedBelow (first :: more))
    (hs : first.text.head? ≠ some '*') (hk : isKeyLine first.text = false)
    {opening : MixinOpening} (ho : MixinOpening.ofChars? first.text = some opening) :
    ofLines (first.unplaced :: more.map Line.unplaced) (Span.line 0) inline =
      unplacing id (ofLines (first :: more) origin inline) := by
  rw [ofLines_of_mixin hs hk ho, @ofLines_of_mixin first.unplaced _ _ _ hs hk _ ho,
    Draft.ofOpening_unplaced]
  refine unplacing_bind fun draft hd => ?_
  have hadditions : ∀ group ∈ draft.additions,
      group.unplaced.readAddition = unplacing id group.readAddition := by
    intro group hm
    rw [Group.readAddition, Group.readAddition,
      hbelow group (Draft.weight_lt_of_mem_additions ho hd hm)]
    have hpath : Draft.pathAt group.unplaced.origin group.unplaced.name = _ :=
      Draft.pathAt_unplaced group.origin group.name
    rw [hpath]
    exact unplacing_bind fun path _ => unplacing_bind fun value _ => rfl
  have hall := traverse_unplacing hadditions
  change ((traverse (draft.additions.map Group.unplaced) fun g _ => g.readAddition) >>= _) = _
  rw [hall]
  exact unplacing_bind fun additions _ => rfl

end Branches

/-- Where lines stand makes no difference to the template read from them, nor to what is wrong with
them. -/
theorem ofLines_unplaced (lines : List Line) (origin : Span) (inline : Bool) :
    ofLines (lines.map Line.unplaced) (Span.line 0) inline =
      unplacing id (ofLines lines origin inline) := by
  cases lines with
  | nil =>
    rw [List.map_nil, ofLines, ofLines]
    rfl
  | cons first more =>
    have hbelow : UnplacedBelow (first :: more) := fun group _ =>
      ofLines_unplaced group.lines group.origin group.inline
    rw [List.map_cons]
    cases lead first.text with
    | bullet hs => exact ofLines_unplaced_of_bullet hbelow hs
    | key hs hk => exact ofLines_unplaced_of_key hbelow hs hk
    | mixin hs hk ho => exact ofLines_unplaced_of_mixin hbelow hs hk ho
    | other hs hk ho =>
      rw [ofLines_of_other hs hk ho, @ofLines_of_other first.unplaced _ _ _ hs hk ho,
        Line.spanOf_unplaced, List.isEmpty_map, ofLine_unplaced, apply_ite (unplacing id)]
      rfl
termination_by Line.weight lines

theorem ofLines_eq_ok_congr {lines others : List Line} {origin other : Span} {inline : Bool}
    {t : Template} (h : lines.map Line.text = others.map Line.text) :
    ofLines lines origin inline = .ok t ↔ ofLines others other inline = .ok t := by
  have hsame : unplacing id (ofLines lines origin inline) =
      unplacing id (ofLines others other inline) := by
    rw [← ofLines_unplaced, ← ofLines_unplaced, Line.map_unplaced_congr h]
  rw [← mapError_eq_ok_iff, ← unplacing_id, hsame, unplacing_id, mapError_eq_ok_iff]

end ApiContract.Template
