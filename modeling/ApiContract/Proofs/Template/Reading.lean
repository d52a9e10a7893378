import Mathlib.Data.List.Forall2
import ApiContract.Proofs.Bind
import ApiContract.Template.Reading

namespace ApiContract

theorem traverse_eq_ok_iff {ε α β : Type} {f : α → Except ε β} {xs : List α} {ys : List β} :
    (traverse xs fun x _ => f x) = .ok ys ↔ List.Forall₂ (fun x y => f x = .ok y) xs ys := by
  induction xs generalizing ys with
  | nil =>
    rw [List.forall₂_nil_left_iff]
    exact ⟨fun h => by cases h; rfl, fun h => h ▸ rfl⟩
  | cons x xs ih =>
    rw [List.forall₂_cons_left_iff]
    simp only [traverse]
    constructor
    · intro h
      split at h
      · cases h
      · rename_i y hy
        split at h
        · cases h
        · rename_i zs hzs
          cases h
          exact ⟨y, zs, hy, ih.mp hzs, rfl⟩
    · rintro ⟨y, zs, hy, hzs, rfl⟩
      simp [hy, ih.mpr hzs]

namespace Template

def Group.read (group : Group) : Except Fault Template :=
  ofLines group.lines group.origin group.inline

def Group.readEntry (group : Group) : Except Fault (String × Slot Template) := do
  let value ← group.read
  .ok (String.ofList group.name, Slot.mk group.optional value)

def Group.readAddition (group : Group) : Except Fault (Path × Slot Template) := do
  let path ← Draft.pathAt group.origin group.name
  let value ← group.read
  .ok (path, Slot.mk group.optional value)

theorem Group.readEntry_eq_ok_iff {group : Group} {name : String} {optional : Bool}
    {value : Template} : group.readEntry = .ok (name, ⟨optional, value⟩) ↔
      String.ofList group.name = name ∧ group.optional = optional ∧ group.read = .ok value := by
  rw [Group.readEntry]
  cases group.read with
  | error fault => exact ⟨fun h => (by cases h), fun h => (by cases h.2.2)⟩
  | ok read =>
    constructor
    · intro h
      cases h
      exact ⟨rfl, rfl, rfl⟩
    · rintro ⟨rfl, rfl, h⟩
      cases h
      rfl

theorem Draft.pathAt_eq_ok_iff {place : Span} {s : List Char} {path : Path} :
    Draft.pathAt place s = .ok path ↔ Path.ofChars? s = some path := by
  rw [Draft.pathAt]
  cases Path.ofChars? s with
  | none => exact ⟨fun h => (by cases h), fun h => (by cases h)⟩
  | some read => exact ⟨fun h => by cases h; rfl, fun h => by cases h; rfl⟩

theorem Group.readAddition_eq_ok_iff {group : Group} {path : Path} {optional : Bool}
    {value : Template} : group.readAddition = .ok (path, ⟨optional, value⟩) ↔
      Path.ofChars? group.name = some path ∧ group.optional = optional ∧
        group.read = .ok value := by
  rw [← @Draft.pathAt_eq_ok_iff group.origin, Group.readAddition]
  cases Draft.pathAt group.origin group.name with
  | error fault => exact ⟨fun h => (by cases h), fun h => (by cases h.1)⟩
  | ok read =>
    cases group.read with
    | error fault => exact ⟨fun h => (by cases h), fun h => (by cases h.2.2)⟩
    | ok inner =>
      constructor
      · intro h
        cases h
        exact ⟨rfl, rfl, rfl⟩
      · rintro ⟨hp, rfl, hv⟩
        cases hp
        cases hv
        rfl

/-- What the first line of a template says about the others: it is a bullet, a key line, the first
line of a mixin, or something else. -/
inductive Lead (s : List Char) : Prop
  | bullet (star : s.head? = some '*')
  | key (star : s.head? ≠ some '*') (key : isKeyLine s = true)
  | mixin {opening : MixinOpening} (star : s.head? ≠ some '*') (key : isKeyLine s = false)
      (mixin : MixinOpening.ofChars? s = some opening)
  | other (star : s.head? ≠ some '*') (key : isKeyLine s = false)
      (mixin : MixinOpening.ofChars? s = none)

theorem lead (s : List Char) : Lead s := by
  by_cases hs : s.head? = some '*'
  · exact .bullet hs
  · cases hk : isKeyLine s with
    | true => exact .key hs hk
    | false =>
      cases ho : MixinOpening.ofChars? s with
      | some opening => exact .mixin hs hk ho
      | none => exact .other hs hk ho

variable {first : Line} {more : List Line} {origin : Span} {inline : Bool} {t : Template}

theorem ofLines_of_bullet (hs : first.text.head? = some '*') :
    ofLines (first :: more) origin inline = Group.bullets (first :: more) >>= fun groups =>
      (traverse groups fun g _ => g.read) >>= fun items => .ok (array items) := by
  rw [ofLines, if_pos hs]
  split
  · rename_i fault hg
    rw [hg]
    rfl
  · rename_i groups hg
    rw [hg]
    change _ = (traverse groups fun g _ => g.read) >>= fun items => .ok (array items)
    cases h : (traverse groups fun g _ => g.read) <;> (simp only [Group.read] at h; rw [h]; rfl)

theorem ofLines_of_key (hs : first.text.head? ≠ some '*') (hk : isKeyLine first.text = true) :
    ofLines (first :: more) origin inline =
      Group.slots Opening.key? [] (first :: more) >>= fun groups =>
        (traverse groups fun g _ => g.readEntry) >>= fun entries => .ok (ofGroups entries) := by
  rw [ofLines, if_neg hs, if_pos hk]
  split
  · rename_i fault hg
    rw [hg]
    rfl
  · rename_i groups hg
    rw [hg]
    change _ = (traverse groups fun g _ => g.readEntry) >>= fun entries => .ok (ofGroups entries)
    cases h : (traverse groups fun g _ => g.readEntry) <;>
      (simp only [Group.readEntry, Group.read] at h; rw [h]; rfl)

theorem ofLines_of_mixin (hs : first.text.head? ≠ some '*') (hk : isKeyLine first.text = false)
    {opening : MixinOpening} (ho : MixinOpening.ofChars? first.text = some opening) :
    ofLines (first :: more) origin inline =
      Draft.ofOpening opening first more inline >>= fun draft =>
        (traverse draft.additions fun g _ => g.readAddition) >>= fun additions =>
          .ok (mixin draft.base draft.removals additions) := by
  rw [ofLines, if_neg hs, if_neg (Bool.eq_false_iff.mp hk)]
  split
  · rename_i found hfound
    cases ho.symm.trans hfound
    split
    · rename_i fault hd
      rw [hd]
      rfl
    · rename_i draft hd
      rw [hd]
      change _ = (traverse draft.additions fun g _ => g.readAddition) >>= fun additions =>
        .ok (mixin draft.base draft.removals additions)
      cases h : (traverse draft.additions fun g _ => g.readAddition) <;>
        (simp only [Group.readAddition, Group.read] at h; rw [h]; rfl)
  · rename_i hnone
    cases ho.symm.trans hnone

theorem ofLines_of_other (hs : first.text.head? ≠ some '*') (hk : isKeyLine first.text = false)
    (ho : MixinOpening.ofChars? first.text = none) :
    ofLines (first :: more) origin inline =
      if more.isEmpty then ofLine first else .error (.invalidSyntax (Line.spanOf first more)) := by
  rw [ofLines, if_neg hs, if_neg (Bool.eq_false_iff.mp hk)]
  split
  · rename_i found hfound
    cases ho.symm.trans hfound
  · rfl

theorem ofLines_array (hs : first.text.head? = some '*') :
    ofLines (first :: more) origin inline = .ok t ↔
      ∃ groups items, Group.bullets (first :: more) = .ok groups ∧
        List.Forall₂ (fun group item => group.read = .ok item) groups items ∧ t = array items := by
  rw [ofLines_of_bullet hs]
  simp only [bind_eq_ok_iff, traverse_eq_ok_iff, Except.ok.injEq]
  constructor
  · rintro ⟨groups, hg, items, hi, ht⟩
    exact ⟨groups, items, hg, hi, ht.symm⟩
  · rintro ⟨groups, items, hg, hi, ht⟩
    exact ⟨groups, hg, items, hi, ht.symm⟩

theorem ofLines_object (hs : first.text.head? ≠ some '*') (hk : isKeyLine first.text = true) :
    ofLines (first :: more) origin inline = .ok t ↔
      ∃ groups entries, Group.slots Opening.key? [] (first :: more) = .ok groups ∧
        List.Forall₂ (fun group entry => group.readEntry = .ok entry) groups entries ∧
        t = ofGroups entries := by
  rw [ofLines_of_key hs hk]
  simp only [bind_eq_ok_iff, traverse_eq_ok_iff, Except.ok.injEq]
  constructor
  · rintro ⟨groups, hg, entries, he, ht⟩
    exact ⟨groups, entries, hg, he, ht.symm⟩
  · rintro ⟨groups, entries, hg, he, ht⟩
    exact ⟨groups, hg, entries, he, ht.symm⟩

theorem ofLines_mixin (hs : first.text.head? ≠ some '*') (hk : isKeyLine first.text = false)
    {opening : MixinOpening} (ho : MixinOpening.ofChars? first.text = some opening) :
    ofLines (first :: more) origin inline = .ok t ↔
      ∃ draft additions, Draft.ofOpening opening first more inline = .ok draft ∧
        List.Forall₂ (fun group addition => group.readAddition = .ok addition)
          draft.additions additions ∧
        t = mixin draft.base draft.removals additions := by
  rw [ofLines_of_mixin hs hk ho]
  simp only [bind_eq_ok_iff, traverse_eq_ok_iff, Except.ok.injEq]
  constructor
  · rintro ⟨draft, hd, additions, ha, ht⟩
    exact ⟨draft, additions, hd, ha, ht.symm⟩
  · rintro ⟨draft, additions, hd, ha, ht⟩
    exact ⟨draft, hd, additions, ha, ht.symm⟩

theorem ofLines_single (hs : first.text.head? ≠ some '*') (hk : isKeyLine first.text = false)
    (ho : MixinOpening.ofChars? first.text = none) :
    ofLines (first :: more) origin inline = .ok t ↔ more = [] ∧ ofLine first = .ok t := by
  rw [ofLines_of_other hs hk ho]
  cases more with
  | nil => simp
  | cons next more => simp

end Template

end ApiContract
