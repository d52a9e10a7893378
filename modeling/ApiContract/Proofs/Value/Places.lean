import ApiContract.Proofs.Value.Parts
import ApiContract.Value.Edit

namespace ApiContract.Value

/-- The two ways in which items make an array. -/
inductive Arrangement : (List Value → Value) → Prop
  | array : Arrangement array
  | ordered : Arrangement ordered

def IsContainer : Value → Prop
  | array _ => True
  | ordered _ => True
  | object _ => True
  | _ => False

/-- What a value is apart from the parts inside of it. -/
def shell : Value → Value
  | array _ => array []
  | ordered _ => ordered []
  | object _ => object []
  | value => value

def part? : Segment → Value → Option Value
  | .key key, object fields => Fields.get? key fields
  | .index i, array items => items[i]?
  | .index i, ordered items => items[i]?
  | _, _ => none

def at? : Path → Value → Option Value
  | [], value => some value
  | segment :: place, value => (part? segment value).bind (at? place)

mutual

/-- The places that a path means. Where it leads out of the value, the rest of it is taken as it
is. -/
def targets (path : Path) (value : Value) : List Path :=
  match path with
  | [] => [[]]
  | head :: rest =>
    match value with
    | array items => itemTargets head rest 0 items
    | ordered items => itemTargets head rest 0 items
    | object fields => memberTargets head.text rest fields
    | _ => [head :: rest]

def itemTargets (head : Segment) (rest : Path) (position : Nat) : List Value → List Path
  | [] =>
    match head with
    | .key _ => []
    | .index _ => [head :: rest]
  | item :: items =>
    match head with
    | .key _ =>
      (targets (head :: rest) item).map (.index position :: ·) ++
        itemTargets head rest (position + 1) items
    | .index i =>
      if i = position then (targets rest item).map (.index i :: ·)
      else itemTargets head rest (position + 1) items

def memberTargets (key : String) (rest : Path) : List (String × Value) → List Path
  | [] => [.key key :: rest]
  | (k, value) :: fields =>
    if k = key then (targets rest value).map (.key key :: ·) else memberTargets key rest fields

end

/-- The step by which the head of a path leads into one part of a value. An index may name a key. -/
inductive Leads : Segment → Value → Segment → Prop
  | member {head : Segment} {fields : Fields Value} : Leads head (object fields) (.key head.text)
  | item {wrap : List Value → Value} {items : List Value} {i : Nat} (arranged : Arrangement wrap) :
    Leads (.index i) (wrap items) (.index i)

variable {wrap : List Value → Value} {items : List Value} {fields : Fields Value}
  {head segment : Segment} {path rest place before : Path} {value part : Value} {key : String}
  {i : Nat}

@[elab_as_elim]
theorem shapes {motive : Value → Prop}
    (arranged : ∀ wrap items, Arrangement wrap → motive (wrap items))
    (object : ∀ fields, motive (object fields))
    (leaf : ∀ value, ¬ value.IsContainer → motive value) (value : Value) : motive value := by
  cases value with
  | array items => exact arranged _ items .array
  | ordered items => exact arranged _ items .ordered
  | object fields => exact object fields
  | _ => exact leaf _ not_false

@[simp] theorem at?_nil : value.at? [] = some value := rfl

@[simp] theorem at?_cons : value.at? (segment :: place) = (value.part? segment).bind (at? place) :=
  rfl

@[simp] theorem bind_at?_nil (found : Option Value) : found.bind (at? []) = found := by
  cases found <;> rfl

theorem at?_append : value.at? (before ++ place) = (value.at? before).bind (at? place) := by
  induction before generalizing value with
  | nil => rfl
  | cons segment before ih =>
    rw [List.cons_append, at?_cons, at?_cons, Option.bind_assoc]
    exact Option.bind_congr fun _ _ => ih

@[simp] theorem part?_key_object : (object fields).part? (.key key) = Fields.get? key fields := rfl

theorem Arrangement.part?_index (h : Arrangement wrap) : (wrap items).part? (.index i) = items[i]? := by
  cases h <;> rfl

theorem Arrangement.part?_key (h : Arrangement wrap) : (wrap items).part? (.key key) = none := by
  cases h <;> rfl

theorem Arrangement.isContainer (h : Arrangement wrap) : (wrap items).IsContainer := by
  cases h <;> trivial

theorem Arrangement.shell_eq (h : Arrangement wrap) (items items' : List Value) :
    (wrap items).shell = (wrap items').shell := by
  cases h <;> rfl

theorem Arrangement.not_object (h : Arrangement wrap) : wrap items ≠ object fields := by
  cases h <;> nofun

theorem Arrangement.inj {wrap' : List Value → Value} {items' : List Value} (h : Arrangement wrap)
    (h' : Arrangement wrap') (he : wrap items = wrap' items') : wrap = wrap' ∧ items = items' := by
  cases h <;> cases h' <;> cases he <;> exact ⟨rfl, rfl⟩

theorem Arrangement.mem_parts (h : Arrangement wrap) : part ∈ (wrap items).parts ↔ part ∈ items := by
  cases h <;> rfl

theorem part?_of_leaf (h : ¬ value.IsContainer) : value.part? segment = none := by
  cases value <;> first | exact absurd trivial h | cases segment <;> rfl

theorem at?_of_leaf (h : ¬ value.IsContainer) (hp : value.at? place = some part) :
    place = [] ∧ part = value := by
  cases place with
  | nil => exact ⟨rfl, (Option.some.inj hp).symm⟩
  | cons segment place =>
    rw [at?_cons, part?_of_leaf h] at hp
    cases hp

theorem at?_append_eq_some_iff {inner : Value} : value.at? (before ++ place) = some inner ↔
    ∃ outer, value.at? before = some outer ∧ outer.at? place = some inner := by
  rw [at?_append, Option.bind_eq_some_iff]

theorem at?_concat_eq_some_iff {inner : Value} : value.at? (before ++ [segment]) = some inner ↔
    ∃ outer, value.at? before = some outer ∧ outer.part? segment = some inner := by
  simp [at?_append_eq_some_iff]

theorem isContainer_of_part? (h : value.part? segment = some part) : value.IsContainer := by
  by_contra hleaf
  rw [part?_of_leaf hleaf] at h
  cases h

theorem mem_parts_of_part? (h : value.part? segment = some part) : part ∈ value.parts := by
  cases value using shapes with
  | arranged wrap items hwrap =>
    cases segment with
    | key key => rw [hwrap.part?_key] at h; cases h
    | index i =>
      rw [hwrap.part?_index] at h
      exact hwrap.mem_parts.mpr (List.mem_of_getElem? h)
  | object fields =>
    cases segment with
    | key key => exact mem_parts_of_get? h
    | index i => cases h
  | leaf value hleaf => rw [part?_of_leaf hleaf] at h; cases h

theorem exists_append_of_getElem? (h : items[i]? = some part) :
    ∃ before after, items = before ++ part :: after ∧ before.length = i := by
  obtain ⟨hi, rfl⟩ := List.getElem?_eq_some_iff.mp h
  exact ⟨items.take i, items.drop (i + 1),
    by rw [List.getElem_cons_drop, List.take_append_drop], by simp [hi.le]⟩

theorem throughout_at? {P : Value → Prop} (h : Throughout parts P value)
    (hp : value.at? place = some part) : Throughout parts P part := by
  induction place generalizing value with
  | nil => cases hp; exact h
  | cons segment place ih =>
    obtain ⟨inner, hinner, hp⟩ := Option.bind_eq_some_iff.mp hp
    exact ih (h.parts (mem_parts_of_part? hinner)) hp

theorem Leads.isContainer (h : Leads head value segment) : value.IsContainer := by
  cases h with
  | member => trivial
  | item arranged => exact arranged.isContainer

theorem Leads.self (h : Leads head value segment) : Leads segment value segment := by
  cases h with
  | member => exact .member
  | item arranged => exact .item arranged

theorem Leads.of_object (h : Leads head (object fields) segment) : segment = .key head.text := by
  generalize hv : object fields = value at h
  cases h with
  | member => rfl
  | item arranged => exact absurd hv.symm arranged.not_object

theorem Leads.of_items (hwrap : Arrangement wrap) (h : Leads head (wrap items) segment) :
    ∃ i, head = .index i ∧ segment = .index i := by
  generalize hv : wrap items = value at h
  cases h with
  | member => exact absurd hv hwrap.not_object
  | item _ => exact ⟨_, rfl, rfl⟩

theorem Leads.unique {other : Segment} (h : Leads head value segment)
    (h' : Leads head value other) : other = segment := by
  cases h with
  | member => exact h'.of_object
  | item arranged =>
    obtain ⟨i, hi, rfl⟩ := h'.of_items arranged
    exact hi.symm

/-- The head of a path leads into one part, or as a key into every item, or nowhere. -/
theorem leads_cases (head : Segment) (value : Value) :
    (∃ segment, Leads head value segment) ∨
      (∃ key wrap items, head = .key key ∧ Arrangement wrap ∧ value = wrap items) ∨
      ¬ value.IsContainer := by
  cases value using shapes with
  | arranged wrap items hwrap =>
    cases head with
    | key key => exact .inr (.inl ⟨key, wrap, items, rfl, hwrap, rfl⟩)
    | index i => exact .inl ⟨_, .item hwrap⟩
  | object fields => exact .inl ⟨_, .member⟩
  | leaf value hleaf => exact .inr (.inr hleaf)

@[simp] theorem targets_nil : value.targets [] = [[]] := by cases value <;> rfl

theorem targets_of_leaf (h : ¬ value.IsContainer) :
    value.targets (head :: rest) = [head :: rest] := by
  cases value <;> first | exact absurd trivial h | rfl

theorem memberTargets_eq : memberTargets key rest fields =
    match Fields.get? key fields with
    | some part => (part.targets rest).map (.key key :: ·)
    | none => [.key key :: rest] := by
  induction fields with
  | nil => rfl
  | cons m fields ih =>
    rw [memberTargets, Fields.get?]
    split
    · rfl
    · exact ih

theorem itemTargets_index (position : Nat) :
    itemTargets (.index (position + i)) rest position items =
      match items[i]? with
      | some part => (part.targets rest).map (.index (position + i) :: ·)
      | none => [.index (position + i) :: rest] := by
  induction items generalizing i position with
  | nil => rfl
  | cons item items ih =>
    cases i with
    | zero => rw [itemTargets]; simp
    | succ i =>
      have hshift : position + (i + 1) = position + 1 + i := by omega
      rw [itemTargets, if_neg (by omega), hshift, ih, List.getElem?_cons_succ]

theorem mem_itemTargets_key (position : Nat) :
    place ∈ itemTargets (.key key) rest position items ↔ ∃ i part, items[i]? = some part ∧
      ∃ inner ∈ part.targets (.key key :: rest), place = .index (position + i) :: inner := by
  induction items generalizing position with
  | nil => simp [itemTargets]
  | cons item items ih =>
    rw [itemTargets, List.mem_append, List.mem_map, ih]
    constructor
    · rintro (⟨inner, hinner, rfl⟩ | ⟨i, part, hi, inner, hinner, rfl⟩)
      · exact ⟨0, item, rfl, inner, hinner, rfl⟩
      · exact ⟨i + 1, part, hi, inner, hinner, by rw [Nat.add_right_comm]; rfl⟩
    · rintro ⟨i, part, hi, inner, hinner, rfl⟩
      cases i with
      | zero => cases hi; exact .inl ⟨inner, hinner, rfl⟩
      | succ i => exact .inr ⟨i, part, hi, inner, hinner, by rw [Nat.add_right_comm]; rfl⟩

theorem Leads.targets (h : Leads head value segment) : value.targets (head :: rest) =
    match value.part? segment with
    | some part => (part.targets rest).map (segment :: ·)
    | none => [segment :: rest] := by
  cases h with
  | member => exact memberTargets_eq
  | @item wrap items i hwrap =>
    have h : itemTargets (.index (0 + i)) rest 0 items = _ := itemTargets_index 0
    rw [Nat.zero_add] at h
    rw [hwrap.part?_index, ← h]
    cases hwrap <;> rfl

theorem Leads.targets_of_part? (h : Leads head value segment) (hp : value.part? segment = some part) :
    value.targets (head :: rest) = (part.targets rest).map (segment :: ·) := by
  rw [h.targets, hp]

theorem Leads.mem_targets (h : Leads head value segment) (hp : value.part? segment = some part) :
    place ∈ value.targets (head :: rest) ↔ ∃ inner ∈ part.targets rest, place = segment :: inner := by
  simp [h.targets_of_part? hp, eq_comm]

theorem Leads.targets_of_none (h : Leads head value segment) (hp : value.part? segment = none) :
    value.targets (head :: rest) = [segment :: rest] := by
  rw [h.targets, hp]

theorem Leads.targets_last (h : Leads head value segment) : value.targets [head] = [[segment]] := by
  rw [h.targets]
  split <;> simp

theorem Arrangement.mem_targets (h : Arrangement wrap) :
    place ∈ (wrap items).targets (.key key :: rest) ↔ ∃ i part, items[i]? = some part ∧
      ∃ inner ∈ part.targets (.key key :: rest), place = .index i :: inner := by
  have hmem : place ∈ itemTargets (.key key) rest 0 items ↔ _ := mem_itemTargets_key 0
  simp only [Nat.zero_add] at hmem
  rw [← hmem]
  cases h <;> rfl

theorem ne_nil_of_mem_targets (hpath : path ≠ []) (h : place ∈ value.targets path) : place ≠ [] := by
  obtain ⟨head, rest, rfl⟩ := List.exists_cons_of_ne_nil hpath
  obtain ⟨segment, hleads⟩ | ⟨key, wrap, items, rfl, hwrap, rfl⟩ | hleaf := leads_cases head value
  · cases hp : value.part? segment with
    | some part =>
      obtain ⟨inner, -, rfl⟩ := (hleads.mem_targets hp).mp h
      exact List.cons_ne_nil _ _
    | none =>
      obtain rfl := List.mem_singleton.mp (hleads.targets_of_none hp ▸ h)
      exact List.cons_ne_nil _ _
  · obtain ⟨i, part, -, inner, -, rfl⟩ := hwrap.mem_targets.mp h
    exact List.cons_ne_nil _ _
  · obtain rfl := List.mem_singleton.mp (targets_of_leaf hleaf ▸ h)
    exact List.cons_ne_nil _ _

theorem Leads.first_of_mem_targets {first : Segment} (h : Leads head value segment)
    (ht : first :: place ∈ value.targets (head :: rest)) : first = segment := by
  cases hp : value.part? segment with
  | none =>
    rw [h.targets_of_none hp, List.mem_singleton] at ht
    exact (List.cons.inj ht).1
  | some part =>
    obtain ⟨inner, -, ht⟩ := (h.mem_targets hp).mp ht
    exact (List.cons.inj ht).1

theorem leads_of_mem_targets {container : Value}
    (h : before ++ segment :: place ∈ value.targets path)
    (hb : value.at? before = some container) (hc : container.IsContainer) :
    Leads segment container segment := by
  induction value using induction_on_parts generalizing path before with
  | step value ih =>
    cases path with
    | nil => simp at h
    | cons head rest =>
      obtain ⟨step, hleads⟩ | ⟨key, wrap, items, rfl, hwrap, rfl⟩ | hleaf := leads_cases head value
      · cases before with
        | nil =>
          cases hb
          exact hleads.first_of_mem_targets h ▸ hleads.self
        | cons first before =>
          obtain ⟨part, hp, hb⟩ := Option.bind_eq_some_iff.mp hb
          obtain rfl := hleads.first_of_mem_targets h
          obtain ⟨inner, hinner, h⟩ := (hleads.mem_targets hp).mp h
          obtain ⟨-, rfl⟩ := List.cons.inj h
          exact ih part (mem_parts_of_part? hp) hinner hb
      · obtain ⟨i, part, hi, inner, hinner, h⟩ := hwrap.mem_targets.mp h
        cases before with
        | nil =>
          cases hb
          rw [(List.cons.inj h).1]
          exact .item hwrap
        | cons first before =>
          obtain ⟨rfl, rfl⟩ := List.cons.inj h
          rw [at?_cons, hwrap.part?_index, hi, Option.bind_some] at hb
          exact ih part (hwrap.mem_parts.mpr (List.mem_of_getElem? hi)) hinner hb
      · obtain ⟨-, rfl⟩ := at?_of_leaf hleaf hb
        exact absurd hc hleaf

end ApiContract.Value
