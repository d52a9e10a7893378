import ApiContract.Proofs.Template.Descent

namespace ApiContract

inductive Fault.IsLayout : Fault → Prop
  | tab {place : Span} : IsLayout (.expectedTab place)
  | key {place : Span} : IsLayout (.expected place "a \"key:\" line")
  | alone {place : Span} :
    IsLayout (.expected place "a single line for a mixin without additions")
  | duplicate {earlier later : Span} {key : String} : IsLayout (.duplicateKey earlier later key)
  | empty {place : Span} : IsLayout (.emptyValue place)
  | malformed {place : Span} : IsLayout (.invalidSyntax place)

namespace Template

variable {line first : Line} {lines more : List Line} {fault : Fault} {place : Span}

namespace Group

theorem isLayout_of_bullets (h : bullets lines = .error fault) : fault.IsLayout := by
  fun_induction bullets lines with
  | case1 => cases h
  | case2 line lines rest hl fault' he ih =>
    cases h
    exact ih he
  | case3 => cases h
  | case4 =>
    cases h
    exact .tab
  | case5 =>
    cases h
    exact .malformed

theorem isLayout_of_slots {opening? : List Char → Option Opening}
    {seen : List (List Char × Span)} (h : slots opening? seen lines = .error fault) :
    fault.IsLayout := by
  fun_induction slots opening? seen lines with
  | case1 => cases h
  | case2 =>
    cases h
    exact .malformed
  | case3 =>
    cases h
    exact .key
  | case4 =>
    cases h
    exact .duplicate
  | case5 seen line lines opening _ _ fault' he ih =>
    cases h
    exact ih he
  | case6 => cases h

end Group

theorem isLayout_of_ofLine (h : ofLine line = .error fault) : fault.IsLayout := by
  simp only [ofLine] at h
  split at h
  · cases h
    exact .empty
  · split at h
    · cases h
    · split at h <;> cases h

namespace MixinOpening

def removed (opening : MixinOpening) : List (List Char) :=
  let rest := Text.trim opening.rest
  (Text.pieces ',' ((Text.cutFirst ';' rest).getD (rest, [])).1).map Text.trim

end MixinOpening

namespace Draft

theorem isLayout_of_dedented (h : dedented lines = .error fault) : fault.IsLayout := by
  fun_induction dedented lines with
  | case1 => cases h
  | case2 line lines _ fault' he ih =>
    cases h
    exact ih he
  | case3 => cases h
  | case4 =>
    cases h
    exact .malformed

theorem isLayout_of_block {rest : List Char} {inline : Bool}
    (h : block first rest more inline = .error fault) : fault.IsLayout := by
  simp only [block] at h
  split at h
  · rename_i found hbelow
    cases h
    cases inline with
    | true => cases hbelow
    | false => exact isLayout_of_dedented hbelow
  · split at h
    · cases h
      exact .empty
    · cases h

theorem fault_of_readEdits {opening : MixinOpening} (h : readEdits place opening = .error fault) :
    (∃ text, fault = .trailingText place text) ∨
      opening.without = true ∧ ∃ item ∈ opening.removed, pathAt place item = .error fault := by
  unfold readEdits at h
  dsimp only at h
  split at h
  · rename_i hwithout
    simp only [readRemovals] at h
    split at h
    · rename_i found hremovals
      cases h
      obtain ⟨item, hitem, hpath⟩ := exists_of_traverse_eq_error hremovals
      exact .inr ⟨hwithout, _, List.mem_map.mpr ⟨item, hitem, rfl⟩, hpath⟩
    · split at h
      · cases h
      · split at h
        · cases h
        · cases h
          exact .inl ⟨_, rfl⟩
  · cases h

theorem fault_of_ofOpening {opening : MixinOpening} {inline : Bool}
    (h : ofOpening opening first more inline = .error fault) :
    fault.IsLayout ∨ (∃ text, fault = .trailingText first.span text) ∨
      pathAt first.span opening.base = .error fault ∨
      opening.without = true ∧ ∃ item ∈ opening.removed, pathAt first.span item = .error fault := by
  simp only [ofOpening] at h
  split at h
  · rename_i found hbase
    cases h
    exact .inr (.inr (.inl hbase))
  · split at h
    · rename_i found hedits
      cases h
      exact .inr ((fault_of_readEdits hedits).imp_right .inr)
    · left
      split at h
      · cases h
      · cases h
        exact .alone
    · left
      split at h
      · rename_i found hblock
        cases h
        exact isLayout_of_block hblock
      · split at h
        · rename_i found hslots
          cases h
          exact Group.isLayout_of_slots hslots
        · cases h

end Draft

namespace Group

/-- The paths that the lines of a group name, as they are written. -/
inductive Names (group : Group) : List Char → Prop
  | base {first : Line} {more : List Line} {opening : MixinOpening}
    (lines : group.lines = first :: more)
    (opens : MixinOpening.ofChars? first.text = some opening) : Names group opening.base
  | addition {first : Line} {more : List Line} {opening : MixinOpening} {draft : Draft}
    {g : Group} (lines : group.lines = first :: more)
    (opens : MixinOpening.ofChars? first.text = some opening)
    (gather : Draft.ofOpening opening first more group.inline = .ok draft)
    (mem : g ∈ draft.additions) : Names group g.name

def Removes (group : Group) (item : List Char) : Prop :=
  ∃ first more opening, group.lines = first :: more ∧
    MixinOpening.ofChars? first.text = some opening ∧ opening.without = true ∧
    item ∈ opening.removed

/-- What is wrong with a group is its layout, what stands behind a mixin, or a path. -/
theorem Faulty.layout_or_path {group : Group} (h : group.Faulty fault) :
    fault.IsLayout ∨ (∃ place text, fault = .trailingText place text) ∨
      ∃ place s, Draft.pathAt place s = .error fault ∧ (group.Names s ∨ group.Removes s) := by
  cases h with
  | empty => exact .inl .empty
  | bullets _ hgather => exact .inl (isLayout_of_bullets hgather)
  | slots _ _ hgather => exact .inl (isLayout_of_slots hgather)
  | draft hl ho hgather =>
    obtain hlayout | ⟨text, rfl⟩ | hbase | ⟨hwithout, item, hitem, hpath⟩ :=
      Draft.fault_of_ofOpening hgather
    · exact .inl hlayout
    · exact .inr (.inl ⟨_, text, rfl⟩)
    · exact .inr (.inr ⟨_, _, hbase, .inl (.base hl ho)⟩)
    · exact .inr (.inr ⟨_, _, hpath, .inr ⟨_, _, _, hl, ho, hwithout, hitem⟩⟩)
  | addition hl ho hgather hmem hpath =>
    exact .inr (.inr ⟨_, _, hpath, .inl (.addition hl ho hgather hmem)⟩)
  | line _ hread => exact .inl (isLayout_of_ofLine hread)
  | lines => exact .inl .malformed

end Group

end Template

end ApiContract
