import ApiContract.Proofs.Template.Apart

namespace ApiContract

theorem exists_of_traverse_eq_error {ε α β : Type} {f : α → Except ε β} {xs : List α} {e : ε}
    (h : (traverse xs fun x _ => f x) = .error e) : ∃ x ∈ xs, f x = .error e := by
  induction xs with
  | nil => cases h
  | cons x xs ih =>
    simp only [traverse] at h
    split at h
    · cases h
      exact ⟨x, List.mem_cons_self, ‹_›⟩
    · split at h
      · cases h
        obtain ⟨y, hy, he⟩ := ih ‹_›
        exact ⟨y, List.mem_cons_of_mem x hy, he⟩
      · cases h

namespace Template.Group

variable {group inner : Group} {first : Line} {more : List Line} {fault : Fault}

theorem gathered_of_bullet (hl : group.lines = first :: more) (hs : first.text.head? = some '*') :
    group.gathered = (bullets (first :: more)).toOption.getD [] := by
  simp only [gathered, hl, hs, ↓reduceIte]

theorem gathered_of_key (hl : group.lines = first :: more) (hs : first.text.head? ≠ some '*')
    (hk : isKeyLine first.text = true) :
    group.gathered = (slots Opening.key? [] (first :: more)).toOption.getD [] := by
  simp only [gathered, hl, hs, hk, ↓reduceIte]

theorem gathered_of_mixin (hl : group.lines = first :: more) (hs : first.text.head? ≠ some '*')
    (hk : isKeyLine first.text = false) {opening : MixinOpening}
    (ho : MixinOpening.ofChars? first.text = some opening) :
    group.gathered =
      ((Draft.ofOpening opening first more group.inline).map Draft.additions).toOption.getD [] := by
  simp only [gathered, hl, hs, hk, ho, Bool.false_eq_true, ↓reduceIte]

theorem gathered_of_other (hl : group.lines = first :: more) (hs : first.text.head? ≠ some '*')
    (hk : isKeyLine first.text = false) (ho : MixinOpening.ofChars? first.text = none) :
    group.gathered = [] := by
  simp only [gathered, hl, hs, hk, ho, Bool.false_eq_true, ↓reduceIte]
  rfl

theorem mem_toOption_getD_iff {found : Except Fault (List Group)} :
    inner ∈ found.toOption.getD [] ↔ ∃ groups, found = .ok groups ∧ inner ∈ groups := by
  cases found with
  | error fault => simp [Except.toOption]
  | ok groups => simp [Except.toOption]

inductive GatheredFrom (group inner : Group) : Prop
  | bullet {first : Line} {more : List Line} {groups : List Group}
    (lines : group.lines = first :: more) (gather : bullets (first :: more) = .ok groups)
    (mem : inner ∈ groups)
  | key {first : Line} {more : List Line} {groups : List Group}
    (lines : group.lines = first :: more) (key : isKeyLine first.text = true)
    (gather : slots Opening.key? [] (first :: more) = .ok groups) (mem : inner ∈ groups)
  | mixin {first : Line} {more : List Line} {opening : MixinOpening} {draft : Draft}
    (lines : group.lines = first :: more) (opens : MixinOpening.ofChars? first.text = some opening)
    (gather : Draft.ofOpening opening first more group.inline = .ok draft)
    (mem : inner ∈ draft.additions)

theorem gatheredFrom_of_mem (h : inner ∈ group.gathered) : group.GatheredFrom inner := by
  cases hl : group.lines with
  | nil =>
    rw [gathered, hl] at h
    cases h
  | cons first more =>
    cases lead first.text with
    | bullet hs =>
      rw [gathered_of_bullet hl hs] at h
      obtain ⟨groups, hgather, hmem⟩ := mem_toOption_getD_iff.mp h
      exact .bullet hl hgather hmem
    | key hs hk =>
      rw [gathered_of_key hl hs hk] at h
      obtain ⟨groups, hgather, hmem⟩ := mem_toOption_getD_iff.mp h
      exact .key hl hk hgather hmem
    | mixin hs hk ho =>
      rw [gathered_of_mixin hl hs hk ho] at h
      obtain ⟨groups, hgather, hmem⟩ := mem_toOption_getD_iff.mp h
      obtain ⟨draft, hdraft, rfl⟩ := map_eq_ok_iff.mp hgather
      exact .mixin hl ho hdraft hmem
    | other hs hk ho =>
      rw [gathered_of_other hl hs hk ho] at h
      cases h

theorem weight_lt_of_mem_gathered (h : inner ∈ group.gathered) :
    Line.weight inner.lines < Line.weight group.lines := by
  cases gatheredFrom_of_mem h with
  | bullet hl hgather hmem =>
    rw [hl]
    exact weight_lt_of_mem_bullets hgather hmem
  | key hl _ hgather hmem =>
    rw [hl]
    exact weight_lt_of_mem_slots (fun _ _ => Opening.length_key?) hgather hmem
  | mixin hl ho hgather hmem =>
    rw [hl]
    exact Draft.weight_lt_of_mem_additions ho hgather hmem

theorem wellFounded_gathered : WellFounded fun inner outer : Group => inner ∈ outer.gathered := by
  apply Subrelation.wf (r := InvImage (· < ·) fun group : Group => Line.weight group.lines)
  · exact weight_lt_of_mem_gathered
  · exact InvImage.wf _ Nat.lt_wfRel.wf

theorem within_of_mem_gathered (h : inner ∈ group.gathered) :
    Line.Within inner.lines group.lines := by
  cases gatheredFrom_of_mem h with
  | bullet hl hgather hmem =>
    rw [hl]
    exact within_of_mem_bullets hgather hmem
  | key hl _ hgather hmem =>
    rw [hl]
    exact within_of_mem_slots (fun _ _ => Opening.suffix_key?) hgather hmem
  | mixin hl ho hgather hmem =>
    rw [hl]
    exact Draft.within_of_mem_additions ho hgather hmem

/-- At any depth all lines are parts of the lines at the top. -/
theorem within_of_contains (h : group.Contains inner) : Line.Within inner.lines group.lines := by
  induction h with
  | refl => exact .of_subset (List.Subset.refl _)
  | tail _ hmem ih => exact (within_of_mem_gathered hmem).trans ih

/-- What is wrong with the lines of a group, and not with those of a group inside of it. -/
inductive Faulty (group : Group) : Fault → Prop
  | empty (lines : group.lines = []) : Faulty group (.emptyValue group.origin)
  | bullets {first : Line} {more : List Line} {fault : Fault} (lines : group.lines = first :: more)
    (gather : bullets (first :: more) = .error fault) : Faulty group fault
  | slots {first : Line} {more : List Line} {fault : Fault} (lines : group.lines = first :: more)
    (key : isKeyLine first.text = true)
    (gather : slots Opening.key? [] (first :: more) = .error fault) : Faulty group fault
  | draft {first : Line} {more : List Line} {opening : MixinOpening} {fault : Fault}
    (lines : group.lines = first :: more) (opens : MixinOpening.ofChars? first.text = some opening)
    (gather : Draft.ofOpening opening first more group.inline = .error fault) : Faulty group fault
  | addition {first : Line} {more : List Line} {opening : MixinOpening} {draft : Draft}
    {g : Group} {fault : Fault} (lines : group.lines = first :: more)
    (opens : MixinOpening.ofChars? first.text = some opening)
    (gather : Draft.ofOpening opening first more group.inline = .ok draft)
    (mem : g ∈ draft.additions) (path : Draft.pathAt g.origin g.name = .error fault) :
    Faulty group fault
  | line {first : Line} {fault : Fault} (lines : group.lines = [first])
    (read : ofLine first = .error fault) : Faulty group fault
  | lines {first : Line} {more : List Line} (lines : group.lines = first :: more) :
    Faulty group (.invalidSyntax (Line.spanOf first more))

/-- Whatever is wrong with a group, there is a group inside of it whose own lines are at fault. -/
theorem exists_faulty_of_read_error (h : group.read = .error fault) :
    ∃ inner, group.Contains inner ∧ inner.Faulty fault := by
  induction group using wellFounded_gathered.induction with
  | _ group ih =>
    have below {g : Group} (hmem : g ∈ group.gathered) (hg : g.read = .error fault) :
        ∃ inner, group.Contains inner ∧ inner.Faulty fault := by
      obtain ⟨inner, hinner, hfault⟩ := ih g hmem hg
      exact ⟨inner, hinner.head hmem, hfault⟩
    cases hl : group.lines with
    | nil =>
      rw [read, hl, ofLines] at h
      cases h
      exact ⟨group, .refl, .empty hl⟩
    | cons first more =>
      rw [read, hl] at h
      cases lead first.text with
      | bullet hs =>
        rw [ofLines_of_bullet hs] at h
        obtain hgather | ⟨groups, hgather, h⟩ := bind_eq_error_iff.mp h
        · exact ⟨group, .refl, .bullets hl hgather⟩
        · obtain hitems | ⟨items, -, h⟩ := bind_eq_error_iff.mp h
          · obtain ⟨g, hmem, hg⟩ := exists_of_traverse_eq_error hitems
            exact below (by rw [gathered_of_bullet hl hs, hgather]; exact hmem) hg
          · cases h
      | key hs hk =>
        rw [ofLines_of_key hs hk] at h
        obtain hgather | ⟨groups, hgather, h⟩ := bind_eq_error_iff.mp h
        · exact ⟨group, .refl, .slots hl hk hgather⟩
        · obtain hentries | ⟨entries, -, h⟩ := bind_eq_error_iff.mp h
          · obtain ⟨g, hmem, hentry⟩ := exists_of_traverse_eq_error hentries
            obtain hg | ⟨value, -, hentry⟩ := bind_eq_error_iff.mp hentry
            · exact below (by rw [gathered_of_key hl hs hk, hgather]; exact hmem) hg
            · cases hentry
          · cases h
      | mixin hs hk ho =>
        rw [ofLines_of_mixin hs hk ho] at h
        obtain hgather | ⟨draft, hgather, h⟩ := bind_eq_error_iff.mp h
        · exact ⟨group, .refl, .draft hl ho hgather⟩
        · obtain hadditions | ⟨additions, -, h⟩ := bind_eq_error_iff.mp h
          · obtain ⟨g, hmem, haddition⟩ := exists_of_traverse_eq_error hadditions
            obtain hpath | ⟨path, -, haddition⟩ := bind_eq_error_iff.mp haddition
            · exact ⟨group, .refl, .addition hl ho hgather hmem hpath⟩
            · obtain hg | ⟨value, -, haddition⟩ := bind_eq_error_iff.mp haddition
              · exact below (by rw [gathered_of_mixin hl hs hk ho, hgather]; exact hmem) hg
              · cases haddition
          · cases h
      | other hs hk ho =>
        rw [ofLines_of_other hs hk ho] at h
        split at h
        · rename_i hmore
          obtain rfl := List.isEmpty_iff.mp hmore
          exact ⟨group, .refl, .line hl h⟩
        · cases h
          exact ⟨group, .refl, .lines hl⟩

end Template.Group

end ApiContract
