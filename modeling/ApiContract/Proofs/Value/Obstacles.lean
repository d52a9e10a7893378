import ApiContract.Proofs.Value.Removal

namespace ApiContract

def extendedBy (label : String) (steps : List String) : String := steps.foldl extended label

/-- An element of a list, when all elements before it have a property. -/
def FirstPast {α : Type} (P : α → Prop) (as : List α) (a : α) : Prop :=
  ∃ before after, as = before ++ a :: after ∧ ∀ b ∈ before, P b

section FirstPast

variable {α β : Type} {P Q : α → Prop} {as bs : List α} {a : α}

theorem FirstPast.mem (h : FirstPast P as a) : a ∈ as := by
  obtain ⟨before, after, rfl, -⟩ := h
  exact List.mem_append_right _ (List.mem_cons_self ..)

theorem firstPast_singleton_iff {b : α} : FirstPast P [b] a ↔ a = b := by
  constructor
  · exact fun h => List.mem_singleton.mp h.mem
  · rintro rfl
    exact ⟨[], [], rfl, List.forall_mem_nil _⟩

theorem firstPast_append_iff :
    FirstPast P (as ++ bs) a ↔ FirstPast P as a ∨ (∀ b ∈ as, P b) ∧ FirstPast P bs a := by
  constructor
  · rintro ⟨before, after, heq, hbefore⟩
    obtain ⟨middle, rfl, hbs⟩ | ⟨middle, has, hafter⟩ := List.append_eq_append_iff.mp heq
    · obtain ⟨has, hmiddle⟩ := List.forall_mem_append.mp hbefore
      exact .inr ⟨has, middle, after, hbs, hmiddle⟩
    · cases middle with
      | nil =>
        rw [List.append_nil] at has
        exact .inr ⟨has ▸ hbefore, [], after, hafter.symm, List.forall_mem_nil _⟩
      | cons first middle =>
        obtain ⟨rfl, -⟩ := List.cons.inj hafter
        exact .inl ⟨before, middle, has, hbefore⟩
  · rintro (⟨before, after, rfl, hbefore⟩ | ⟨has, before, after, rfl, hbefore⟩)
    · exact ⟨before, after ++ bs, by simp, hbefore⟩
    · exact ⟨as ++ before, after, by simp, List.forall_mem_append.mpr ⟨has, hbefore⟩⟩

theorem firstPast_map_iff {R : β → Prop} {f : α → β} {b : β} :
    FirstPast R (as.map f) b ↔ ∃ a, FirstPast (fun a => R (f a)) as a ∧ f a = b := by
  constructor
  · rintro ⟨before, after, heq, hbefore⟩
    obtain ⟨front, back, rfl, rfl, hback⟩ := List.map_eq_append_iff.mp heq
    obtain ⟨a, back, rfl, rfl, rfl⟩ := List.map_eq_cons_iff.mp hback
    exact ⟨a, ⟨front, back, rfl, List.forall_mem_map.mp hbefore⟩, rfl⟩
  · rintro ⟨a, ⟨front, back, rfl, hfront⟩, rfl⟩
    exact ⟨front.map f, back.map f, by simp, List.forall_mem_map.mpr hfront⟩

theorem firstPast_congr (h : ∀ a ∈ as, P a ↔ Q a) : FirstPast P as a ↔ FirstPast Q as a := by
  apply exists_congr
  intro before
  apply exists_congr
  intro after
  apply and_congr_right
  rintro rfl
  exact forall₂_congr fun b hb => h b (List.mem_append_left _ hb)

end FirstPast

namespace Value

def labelAt (walked : String) (place : Path) : String :=
  extendedBy walked (place.map Segment.text)

/-- What a segment cannot go on from: a value without parts, an object without the key, or an array
without the index. Where a part may be made, no key is missing, nor the index behind the last item. -/
inductive Obstructs (fresh : Prop) (label : String) : Segment → Value → Obstacle → Prop
  | leaf {segment : Segment} {value : Value} (closed : ¬ value.IsContainer) :
    Obstructs fresh label segment value (.notNavigable label)
  | member {segment : Segment} {fields : Fields Value} (absent : segment.text ∉ fields.keys)
    (needed : ¬ fresh) :
    Obstructs fresh label segment (object fields) (.missingKey (extended label segment.text))
  | item {wrap : List Value → Value} {items : List Value} {i : Nat} (arranged : Arrangement wrap)
    (outside : items.length ≤ i) (needed : fresh → i ≠ items.length) :
    Obstructs fresh label (.index i) (wrap items) (.outOfBounds label i items.length)

inductive LeadsTo : Path → Value → Path → Value → Prop
  | here (value : Value) : LeadsTo [] value [] value
  | onward {head segment : Segment} {path place : Path} {value inner found : Value}
    (leads : Leads head value segment) (part : value.part? segment = some inner)
    (further : LeadsTo path inner place found) :
    LeadsTo (head :: path) value (segment :: place) found

/-- An array is not gone on from by a key. -/
def Spread (label : String) (segment : Segment) (value : Value) (obstacle : Obstacle) : Prop :=
  ∃ key wrap items, segment = .key key ∧ Arrangement wrap ∧ value = wrap items ∧
    obstacle = .notAnIndex label

/-- A walk gets as far as a place where the next segment cannot go on, or is a key and meets an
array. -/
def Halted (walked : String) (path : Path) (value : Value) (obstacle : Obstacle) : Prop :=
  ∃ front head rest place found, path = front ++ head :: rest ∧ LeadsTo front value place found ∧
    (Obstructs False (labelAt walked place) head found obstacle ∨
      Spread (labelAt walked place) head found obstacle)

/-- On the way to a target there is a place where the next segment cannot go on. A part may be made
only at the end. -/
def Stumbles (fresh : Prop) (walked : String) (value : Value) (target : Path)
    (obstacle : Obstacle) : Prop :=
  ∃ place segment rest found, target = place ++ segment :: rest ∧ value.at? place = some found ∧
    Obstructs (fresh ∧ rest = []) (labelAt walked place) segment found obstacle

/-- Of the places that a path means, the first ones are possible and the next is not reached. -/
def Stopped (possible : Path → Prop) (fresh : Prop) (walked : String) (path : Path) (value : Value)
    (obstacle : Obstacle) : Prop :=
  ∃ target, FirstPast possible (value.targets path) target ∧
    Stumbles fresh walked value target obstacle

structure Action.Makes (action : Action) (fresh : Prop) : Prop where
  onKey_eq_none_iff : ∀ key fields,
    action.onKey key fields = none ↔ key ∉ Fields.keys fields ∧ ¬ fresh
  onIndex_eq_none_iff : ∀ i items,
    action.onIndex i items = none ↔ items.length ≤ i ∧ (fresh → i ≠ items.length)

variable {action : Action} {fresh : Prop} {walked label key : String} {head segment : Segment}
  {path rest place target : Path} {value part found : Value} {obstacle : Obstacle}
  {wrap : List Value → Value} {items : List Value} {fields : Fields Value} {i : Nat}

theorem removal_makes : removal.Makes False where
  onKey_eq_none_iff key fields := by simp [removal, ← Fields.has_iff]
  onIndex_eq_none_iff i items := by simp [removal]

theorem addition_makes {new : Value} : (addition new).Makes True where
  onKey_eq_none_iff key fields := by simp [addition]
  onIndex_eq_none_iff i items := by
    simp only [addition]
    split
    · simp
      omega
    · split <;> simp_all

theorem obstructs_object_iff : Obstructs fresh label segment (object fields) obstacle ↔
    segment.text ∉ fields.keys ∧ ¬ fresh ∧ obstacle = .missingKey (extended label segment.text) := by
  constructor
  · generalize hv : object fields = value
    rintro (closed | ⟨absent, needed⟩ | ⟨arranged, outside, needed⟩)
    · subst hv
      exact absurd trivial closed
    · cases hv
      exact ⟨absent, needed, rfl⟩
    · exact absurd hv.symm arranged.not_object
  · rintro ⟨absent, needed, rfl⟩
    exact .member absent needed

theorem Arrangement.obstructs_iff (h : Arrangement wrap) :
    Obstructs fresh label segment (wrap items) obstacle ↔ ∃ i, segment = .index i ∧
      items.length ≤ i ∧ (fresh → i ≠ items.length) ∧
      obstacle = .outOfBounds label i items.length := by
  constructor
  · generalize hv : wrap items = value
    rintro (closed | ⟨absent, needed⟩ | ⟨arranged, outside, needed⟩)
    · exact absurd h.isContainer (hv ▸ closed)
    · exact absurd hv h.not_object
    · obtain ⟨rfl, rfl⟩ := h.inj arranged hv
      exact ⟨_, rfl, outside, needed, rfl⟩
  · rintro ⟨i, rfl, outside, needed, rfl⟩
    exact .item h outside needed

theorem obstructs_iff_of_leaf (h : ¬ value.IsContainer) :
    Obstructs fresh label segment value obstacle ↔ obstacle = .notNavigable label := by
  constructor
  · rintro (closed | ⟨absent, needed⟩ | ⟨arranged, outside, needed⟩)
    · rfl
    · exact absurd trivial h
    · exact absurd arranged.isContainer h
  · rintro rfl
    exact .leaf h

theorem Obstructs.part?_eq_none (h : Obstructs fresh label segment value obstacle) :
    value.part? segment = none := by
  cases h with
  | leaf closed => exact part?_of_leaf closed
  | member absent _ =>
    cases segment with
    | key key => exact Fields.get?_eq_none_iff.mpr absent
    | index i => rfl
  | item arranged outside _ =>
    rw [arranged.part?_index]
    exact List.getElem?_eq_none outside

theorem Leads.text_eq (h : Leads head value segment) : segment.text = head.text := by
  cases h <;> rfl

theorem step_object : step walked head (object fields) =
    match Fields.get? head.text fields with
    | some part => .ok part
    | none => .error (.missingKey (extended walked head.text)) := by
  cases head <;> rfl

theorem Arrangement.step_index (h : Arrangement wrap) : step walked (.index i) (wrap items) =
    match items[i]? with
    | some part => .ok part
    | none => .error (.outOfBounds walked i items.length) := by
  cases h <;> rfl

theorem Arrangement.step_key (h : Arrangement wrap) :
    step walked (.key key) (wrap items) = .error (.notAnIndex walked) := by
  cases h <;> rfl

theorem step_of_leaf (h : ¬ value.IsContainer) :
    step walked head value = .error (.notNavigable walked) := by
  cases value <;> first | exact absurd trivial h | cases head <;> rfl

theorem Leads.step_eq_ok_iff (h : Leads head value segment) :
    step walked head value = .ok part ↔ value.part? segment = some part := by
  cases h with
  | @member head fields =>
    rw [step_object, part?_key_object]
    cases Fields.get? head.text fields <;> simp
  | @item wrap items i arranged =>
    rw [arranged.step_index, arranged.part?_index]
    cases items[i]? <;> simp

theorem Leads.step_eq_error_iff (h : Leads head value segment) :
    step walked head value = .error obstacle ↔ Obstructs False walked head value obstacle := by
  cases h with
  | @member head fields =>
    rw [step_object, obstructs_object_iff, ← Fields.get?_eq_none_iff]
    cases Fields.get? head.text fields <;> simp [eq_comm]
  | @item wrap items i arranged =>
    rw [arranged.step_index, arranged.obstructs_iff]
    cases hi : items[i]? with
    | none =>
      have hout : items.length ≤ i := List.getElem?_eq_none_iff.mp hi
      simp [hout, eq_comm]
    | some part =>
      have hin : i < items.length := (List.getElem?_eq_some_iff.mp hi).1
      simp
      omega

theorem navigate_cons_eq_ok_iff : navigate walked (head :: rest) value = .ok found ↔
    ∃ part, step walked head value = .ok part ∧
      navigate (extended walked head.text) rest part = .ok found := by
  rw [navigate]
  cases step walked head value <;> simp

theorem navigate_cons_eq_error_iff : navigate walked (head :: rest) value = .error obstacle ↔
    step walked head value = .error obstacle ∨ ∃ part, step walked head value = .ok part ∧
      navigate (extended walked head.text) rest part = .error obstacle := by
  rw [navigate]
  cases step walked head value <;> simp

theorem step_eq_ok_iff : step walked head value = .ok part ↔
    ∃ segment, Leads head value segment ∧ value.part? segment = some part := by
  obtain ⟨segment, hleads⟩ | ⟨key, wrap, items, rfl, hwrap, rfl⟩ | hleaf := leads_cases head value
  · rw [hleads.step_eq_ok_iff]
    constructor
    · exact fun hp => ⟨segment, hleads, hp⟩
    · rintro ⟨other, hother, hp⟩
      exact hleads.unique hother ▸ hp
  · rw [hwrap.step_key]
    refine iff_of_false nofun ?_
    rintro ⟨segment, hleads, -⟩
    obtain ⟨i, hi, -⟩ := hleads.of_items hwrap
    cases hi
  · rw [step_of_leaf hleaf]
    refine iff_of_false nofun ?_
    rintro ⟨segment, hleads, -⟩
    exact hleaf hleads.isContainer

theorem step_eq_error_iff : step walked head value = .error obstacle ↔
    Obstructs False walked head value obstacle ∨ Spread walked head value obstacle := by
  obtain ⟨segment, hleads⟩ | ⟨key, wrap, items, rfl, hwrap, rfl⟩ | hleaf := leads_cases head value
  · rw [hleads.step_eq_error_iff]
    refine (or_iff_left ?_).symm
    rintro ⟨key, wrap, items, rfl, hwrap, rfl, -⟩
    obtain ⟨i, hi, -⟩ := hleads.of_items hwrap
    cases hi
  · rw [hwrap.step_key, hwrap.obstructs_iff]
    constructor
    · rintro ⟨⟩
      exact .inr ⟨key, wrap, items, rfl, hwrap, rfl, rfl⟩
    · rintro (⟨i, hi, -⟩ | ⟨_, _, _, -, -, -, rfl⟩)
      · cases hi
      · rfl
  · rw [step_of_leaf hleaf, obstructs_iff_of_leaf hleaf]
    constructor
    · rintro ⟨⟩
      exact .inl rfl
    · rintro (rfl | ⟨key, wrap, items, -, hwrap, rfl, -⟩)
      · rfl
      · exact absurd hwrap.isContainer hleaf

theorem navigate_eq_ok_iff :
    navigate walked path value = .ok found ↔ ∃ place, LeadsTo path value place found := by
  induction path generalizing walked value with
  | nil =>
    constructor
    · rintro ⟨⟩
      exact ⟨[], .here found⟩
    · rintro ⟨place, ⟨⟩⟩
      rfl
  | cons head rest ih =>
    rw [navigate_cons_eq_ok_iff]
    constructor
    · rintro ⟨part, hstep, hrest⟩
      obtain ⟨segment, hleads, hp⟩ := step_eq_ok_iff.mp hstep
      obtain ⟨place, hplace⟩ := ih.mp hrest
      exact ⟨segment :: place, .onward hleads hp hplace⟩
    · rintro ⟨_, ⟨⟩ | ⟨hleads, hp, hplace⟩⟩
      exact ⟨_, hleads.step_eq_ok_iff.mpr hp, ih.mpr ⟨_, hplace⟩⟩

theorem halted_cons_iff : Halted walked (head :: rest) value obstacle ↔
    (Obstructs False walked head value obstacle ∨ Spread walked head value obstacle) ∨
      ∃ segment part, Leads head value segment ∧ value.part? segment = some part ∧
        Halted (extended walked segment.text) rest part obstacle := by
  constructor
  · rintro ⟨front, next, back, place, found, hpath, hleads, hstop⟩
    cases front with
    | nil =>
      cases hpath
      cases hleads
      exact .inl hstop
    | cons first front =>
      cases hpath
      cases hleads with
      | onward leads part further =>
        exact .inr ⟨_, _, leads, part, front, next, back, _, found, rfl, further, hstop⟩
  · rintro (hstop | ⟨segment, part, hleads, hp, front, next, back, place, found, rfl, hon, hstop⟩)
    · exact ⟨[], head, rest, [], value, rfl, .here value, hstop⟩
    · exact ⟨head :: front, next, back, segment :: place, found, rfl, .onward hleads hp hon, hstop⟩

theorem navigate_eq_error_iff :
    navigate walked path value = .error obstacle ↔ Halted walked path value obstacle := by
  induction path generalizing walked value with
  | nil =>
    refine iff_of_false nofun ?_
    rintro ⟨front, head, rest, place, found, hpath, -⟩
    simp at hpath
  | cons head rest ih =>
    rw [navigate_cons_eq_error_iff, halted_cons_iff, step_eq_error_iff]
    apply or_congr_right
    constructor
    · rintro ⟨part, hstep, hrest⟩
      obtain ⟨segment, hleads, hp⟩ := step_eq_ok_iff.mp hstep
      exact ⟨segment, part, hleads, hp, hleads.text_eq ▸ ih.mp hrest⟩
    · rintro ⟨segment, part, hleads, hp, hrest⟩
      exact ⟨part, hleads.step_eq_ok_iff.mpr hp, ih.mpr (hleads.text_eq ▸ hrest)⟩

theorem editItems_index_eq_error_iff {length : Nat} (position : Nat) :
    editItems action walked (.index (position + i)) rest length position items = .error obstacle ↔
      items[i]? = none ∧ obstacle = .outOfBounds walked (position + i) length ∨
      ∃ a, items[i]? = some a ∧
        edit action (extended walked (toString (position + i))) rest a = .error obstacle := by
  induction items generalizing i position with
  | nil => simp [editItems, eq_comm]
  | cons item items ih =>
    cases i with
    | zero =>
      rw [editItems, Nat.add_zero, if_pos rfl, bind_eq_error_iff]
      simp
    | succ i =>
      have hshift : position + (i + 1) = position + 1 + i := by omega
      rw [editItems, if_neg (by omega), bind_eq_error_iff, hshift, ih]
      simp

theorem editField_eq_error_iff :
    editField action walked key rest fields = .error obstacle ↔
      key ∉ fields.keys ∧ obstacle = .missingKey (extended walked key) ∨
      ∃ a, Fields.get? key fields = some a ∧
        edit action (extended walked key) rest a = .error obstacle := by
  rw [← Fields.get?_eq_none_iff]
  induction fields with
  | nil => simp [editField, Fields.get?, eq_comm]
  | cons m fields ih =>
    rw [editField, Fields.get?]
    split
    · rw [bind_eq_error_iff]
      simp
    · rw [bind_eq_error_iff, ih]
      simp

theorem editItems_key_eq_error_iff {length : Nat} (position : Nat) :
    editItems action walked (.key key) rest length position items = .error obstacle ↔
      ∃ before item after, items = before ++ item :: after ∧
        (∀ a ∈ before, ∃ b, Edited action (.key key :: rest) a b) ∧
        edit action (extended walked (toString (position + before.length))) (.key key :: rest) item =
          .error obstacle := by
  induction items generalizing position with
  | nil => simp [editItems]
  | cons item items ih =>
    rw [editItems, bind_eq_error_iff]
    simp only [bind_eq_error_iff, ih]
    constructor
    · rintro (hitem | ⟨b, hb, ⟨before, next, after, rfl, hbefore, hnext⟩ | ⟨_, _, hok⟩⟩)
      · exact ⟨[], item, items, rfl, List.forall_mem_nil _, hitem⟩
      · refine ⟨item :: before, next, after, rfl, List.forall_mem_cons.mpr ⟨⟨b, ?_⟩, hbefore⟩, ?_⟩
        · exact edit_eq_ok_iff.mp hb
        · rwa [List.length_cons, Nat.add_comm before.length, ← Nat.add_assoc]
      · cases hok
    · rintro ⟨before, next, after, heq, hbefore, hnext⟩
      cases before with
      | nil =>
        cases heq
        exact .inl hnext
      | cons first before =>
        cases heq
        obtain ⟨⟨b, hb⟩, hbefore⟩ := List.forall_mem_cons.mp hbefore
        refine .inr ⟨b, edit_eq_ok_iff.mpr hb, .inl ⟨before, next, after, rfl, hbefore, ?_⟩⟩
        rwa [List.length_cons, Nat.add_comm before.length, ← Nat.add_assoc] at hnext

theorem actAt_eq_error_iff : actAt action walked i items = .error obstacle ↔
    action.onIndex i items = none ∧ obstacle = .outOfBounds walked i items.length := by
  rw [actAt]
  cases action.onIndex i items <;> simp [eq_comm]

theorem actOn_eq_error_iff : actOn action walked key fields = .error obstacle ↔
    action.onKey key fields = none ∧ obstacle = .missingKey (extended walked key) := by
  rw [actOn]
  cases action.onKey key fields <;> simp [eq_comm]

theorem Leads.edit_last_eq_error_iff (h : Leads head value segment) (ha : action.Makes fresh) :
    edit action walked [head] value = .error obstacle ↔
      Obstructs fresh walked segment value obstacle := by
  cases h with
  | member =>
    rw [edit_object_last, map_eq_error_iff, actOn_eq_error_iff, ha.onKey_eq_none_iff,
      obstructs_object_iff, and_assoc]
    rfl
  | item arranged =>
    rw [arranged.edit_last, map_eq_error_iff, actAt_eq_error_iff, ha.onIndex_eq_none_iff,
      arranged.obstructs_iff]
    simp [and_assoc]

theorem Leads.edit_eq_error_iff (h : Leads head value segment) (hrest : rest ≠ []) :
    edit action walked (head :: rest) value = .error obstacle ↔
      Obstructs False walked segment value obstacle ∨ ∃ part, value.part? segment = some part ∧
        edit action (extended walked segment.text) rest part = .error obstacle := by
  cases h with
  | member =>
    rw [edit_object hrest, map_eq_error_iff, editField_eq_error_iff, obstructs_object_iff]
    simp [Segment.text]
  | @item wrap items i arranged =>
    have hitems : editItems action walked (.index (0 + i)) rest items.length 0 items =
        .error obstacle ↔ _ := editItems_index_eq_error_iff 0
    simp only [Nat.zero_add] at hitems
    rw [arranged.edit_index hrest, map_eq_error_iff, hitems, arranged.obstructs_iff,
      arranged.part?_index]
    simp [Segment.text]

theorem not_stumbles_nil : ¬ Stumbles fresh walked value [] obstacle := by
  rintro ⟨place, segment, rest, found, htarget, -⟩
  simp at htarget

theorem stumbles_cons_iff : Stumbles fresh walked value (segment :: rest) obstacle ↔
    Obstructs (fresh ∧ rest = []) walked segment value obstacle ∨
      ∃ part, value.part? segment = some part ∧
        Stumbles fresh (extended walked segment.text) part rest obstacle := by
  constructor
  · rintro ⟨place, last, back, found, htarget, hat, hstop⟩
    cases place with
    | nil =>
      cases htarget
      cases hat
      exact .inl hstop
    | cons first place =>
      cases htarget
      obtain ⟨part, hp, hat⟩ := Option.bind_eq_some_iff.mp hat
      exact .inr ⟨part, hp, place, last, back, found, rfl, hat, hstop⟩
  · rintro (hstop | ⟨part, hp, place, last, back, found, rfl, hat, hstop⟩)
    · exact ⟨[], segment, rest, value, rfl, rfl, hstop⟩
    · refine ⟨segment :: place, last, back, found, rfl, ?_, hstop⟩
      rw [at?_cons, hp, Option.bind_some, hat]

theorem stumbles_into_iff (hp : value.part? segment = some part) :
    Stumbles fresh walked value (segment :: rest) obstacle ↔
      Stumbles fresh (extended walked segment.text) part rest obstacle := by
  rw [stumbles_cons_iff, or_iff_right]
  · simp [hp]
  · intro hstop
    rw [hstop.part?_eq_none] at hp
    cases hp

theorem stumbles_out_iff (hp : value.part? segment = none) :
    Stumbles fresh walked value (segment :: rest) obstacle ↔
      Obstructs (fresh ∧ rest = []) walked segment value obstacle := by
  rw [stumbles_cons_iff, or_iff_left]
  simp [hp]

theorem stumbles_last_iff : Stumbles fresh walked value [segment] obstacle ↔
    Obstructs fresh walked segment value obstacle := by
  rw [stumbles_cons_iff, or_iff_left]
  · simp
  · rintro ⟨part, -, hstop⟩
    exact not_stumbles_nil hstop

theorem firstPast_itemTargets_iff {P : Path → Prop} (position : Nat) :
    FirstPast P (itemTargets (.key key) rest position items) target ↔
      ∃ before item after, items = before ++ item :: after ∧
        (∀ i a, before[i]? = some a → ∀ inner ∈ a.targets (.key key :: rest),
          P (.index (position + i) :: inner)) ∧
        ∃ inner, FirstPast (fun inner => P (.index (position + before.length) :: inner))
            (item.targets (.key key :: rest)) inner ∧
          .index (position + before.length) :: inner = target := by
  induction items generalizing position with
  | nil =>
    refine iff_of_false (fun h => absurd h.mem (List.not_mem_nil)) ?_
    rintro ⟨before, item, after, hitems, -⟩
    simp at hitems
  | cons item items ih =>
    rw [itemTargets, firstPast_append_iff, firstPast_map_iff, List.forall_mem_map, ih]
    have hshift : ∀ i, position + 1 + i = position + (i + 1) := fun i => by omega
    simp only [hshift]
    constructor
    · rintro (⟨inner, hinner, rfl⟩ | ⟨hitem, before, next, after, rfl, hbefore, hnext⟩)
      · exact ⟨[], item, items, rfl, fun i a ha => by simp at ha, inner, hinner, rfl⟩
      · refine ⟨item :: before, next, after, rfl, fun i a ha => ?_, hnext⟩
        cases i with
        | zero =>
          cases ha
          exact hitem
        | succ i => exact hbefore i a ha
    · rintro ⟨before, next, after, heq, hbefore, hnext⟩
      cases before with
      | nil =>
        cases heq
        exact .inl hnext
      | cons _ before =>
        cases heq
        exact .inr ⟨hbefore 0 item rfl, before, next, after, rfl,
          fun i a ha => hbefore (i + 1) a ha, hnext⟩

theorem Leads.stopped_iff (h : Leads head value segment) (hp : value.part? segment = some part)
    (hrest : rest ≠ []) :
    Stopped (Possible action value) fresh walked (head :: rest) value obstacle ↔
      Stopped (Possible action part) fresh (extended walked segment.text) rest part obstacle := by
  have hpossible : ∀ inner ∈ part.targets rest,
      Possible action value (segment :: inner) ↔ Possible action part inner :=
    fun inner hinner => possible_cons_iff hp (ne_nil_of_mem_targets hrest hinner)
  rw [Stopped, h.targets_of_part? hp]
  simp only [firstPast_map_iff, firstPast_congr hpossible]
  constructor
  · rintro ⟨_, ⟨inner, hinner, rfl⟩, hstop⟩
    exact ⟨inner, hinner, (stumbles_into_iff hp).mp hstop⟩
  · rintro ⟨inner, hinner, hstop⟩
    exact ⟨_, ⟨inner, hinner, rfl⟩, (stumbles_into_iff hp).mpr hstop⟩

theorem getElem?_front {before after : List Value} (h : before[i]? = some part) :
    (before ++ after)[i]? = some part := by
  rw [List.getElem?_append_left (List.getElem?_eq_some_iff.mp h).1, h]

theorem Arrangement.stopped_iff (h : Arrangement wrap) :
    Stopped (Possible action (wrap items)) fresh walked (.key key :: rest) (wrap items) obstacle ↔
      ∃ before item after, items = before ++ item :: after ∧
        (∀ a ∈ before, ∃ b, Edited action (.key key :: rest) a b) ∧
        Stopped (Possible action item) fresh (extended walked (toString before.length))
          (.key key :: rest) item obstacle := by
  have htargets : (wrap items).targets (.key key :: rest) =
      itemTargets (.key key) rest 0 items := by
    cases h <;> rfl
  have hpossible : ∀ {i a inner}, items[i]? = some a → inner ∈ a.targets (.key key :: rest) →
      (Possible action (wrap items) (.index i :: inner) ↔ Possible action a inner) :=
    fun hi hinner => possible_cons_iff (by rw [h.part?_index, hi])
      (ne_nil_of_mem_targets (List.cons_ne_nil _ _) hinner)
  rw [Stopped, htargets]
  simp only [firstPast_itemTargets_iff 0, Nat.zero_add]
  constructor
  · rintro ⟨_, ⟨before, item, after, rfl, hbefore, inner, hinner, rfl⟩, hstop⟩
    have hitem : (before ++ item :: after)[before.length]? = some item := by simp
    refine ⟨before, item, after, rfl, fun a ha => ?_, inner, ?_, ?_⟩
    · obtain ⟨i, hi⟩ := List.getElem?_of_mem ha
      have hi' : (before ++ item :: after)[i]? = some a := getElem?_front hi
      exact exists_edited_iff_possible.mpr fun inner hinner =>
        (hpossible hi' hinner).mp (hbefore i a hi inner hinner)
    · exact (firstPast_congr fun inner hinner => hpossible hitem hinner).mp hinner
    · exact (stumbles_into_iff (by rw [h.part?_index, hitem])).mp hstop
  · rintro ⟨before, item, after, rfl, hbefore, inner, hinner, hstop⟩
    have hitem : (before ++ item :: after)[before.length]? = some item := by simp
    refine ⟨_, ⟨before, item, after, rfl, fun i a hi inner hinner => ?_, inner, ?_, rfl⟩, ?_⟩
    · have hi' : (before ++ item :: after)[i]? = some a := getElem?_front hi
      have ha := exists_edited_iff_possible.mp (hbefore a (List.mem_of_getElem? hi))
      exact (hpossible hi' hinner).mpr (ha inner hinner)
    · exact (firstPast_congr fun inner hinner => hpossible hitem hinner).mpr hinner
    · exact (stumbles_into_iff (by rw [h.part?_index, hitem])).mpr hstop

/-- An edit reports the first place where it is stopped. -/
theorem edit_eq_error_iff (ha : action.Makes fresh) :
    edit action walked path value = .error obstacle ↔
      Stopped (Possible action value) fresh walked path value obstacle := by
  induction value using induction_on_parts generalizing path walked with
  | step value ih =>
    cases path with
    | nil =>
      rw [edit_nil]
      refine iff_of_false nofun ?_
      rintro ⟨target, hfirst, hstop⟩
      obtain rfl : target = [] := by simpa using hfirst.mem
      exact not_stumbles_nil hstop
    | cons head rest =>
      obtain ⟨segment, hleads⟩ | ⟨key, wrap, items, rfl, hwrap, rfl⟩ | hleaf :=
        leads_cases head value
      · by_cases hrest : rest = []
        · subst hrest
          rw [hleads.edit_last_eq_error_iff ha, Stopped, hleads.targets_last]
          simp only [firstPast_singleton_iff, exists_eq_left, stumbles_last_iff]
        · have hfresh : (fresh ∧ rest = []) = False := by simp [hrest]
          rw [hleads.edit_eq_error_iff hrest]
          cases hp : value.part? segment with
          | none =>
            rw [Stopped, hleads.targets_of_none hp]
            simp only [firstPast_singleton_iff, exists_eq_left, stumbles_out_iff hp, hfresh]
            simp
          | some part =>
            have hopen : ¬ Obstructs False walked segment value obstacle := fun hstop => by
              rw [hstop.part?_eq_none] at hp
              cases hp
            rw [hleads.stopped_iff hp hrest, or_iff_right hopen, ← ih part (mem_parts_of_part? hp)]
            simp
      · have hitem : ∀ a ∈ items, ∀ walked,
            edit action walked (.key key :: rest) a = .error obstacle ↔
              Stopped (Possible action a) fresh walked (.key key :: rest) a obstacle :=
          fun a ha walked => ih a (hwrap.mem_parts.mpr ha)
        rw [hwrap.edit_key, map_eq_error_iff, editItems_key_eq_error_iff, hwrap.stopped_iff]
        refine exists_congr fun before => exists_congr fun item => exists_congr fun after => ?_
        refine and_congr_right fun hitems => and_congr_right fun _ => ?_
        rw [hitem item (by simp [hitems]), Nat.zero_add]
      · rw [edit_of_leaf hleaf, Stopped, targets_of_leaf hleaf]
        simp only [firstPast_singleton_iff, exists_eq_left, stumbles_out_iff (part?_of_leaf hleaf),
          obstructs_iff_of_leaf hleaf]
        simp [eq_comm]

theorem stopped_congr {P Q : Path → Prop} (h : ∀ target ∈ value.targets path, P target ↔ Q target) :
    Stopped P fresh walked path value obstacle ↔ Stopped Q fresh walked path value obstacle :=
  exists_congr fun _ => and_congr_left fun _ => firstPast_congr h

/-- A walk, a removal and an addition each report the first place that stops them. A walk gets
there by its segments. An edit has passed all the targets before, and on the way to the next one
finds a value without parts, an object without the key, or an array without the index; only an
addition makes the key or the index behind the last item, at the end of its path. -/
theorem obstacle_found (walked : String) (path : Path) (value : Value) :
    (∀ obstacle, value.navigate walked path = .error obstacle ↔
      Halted walked path value obstacle) ∧
    (∀ obstacle, value.remove walked path = .error obstacle ↔
      Stopped (fun target => ∃ old, value.at? target = some old) False walked path value obstacle) ∧
    ∀ new obstacle, value.add walked path new = .error obstacle ↔
      Stopped value.Admits True walked path value obstacle := by
  refine ⟨fun obstacle => navigate_eq_error_iff, fun obstacle => ?_, fun new obstacle => ?_⟩
  · have hremoval : value.remove walked path = .error obstacle ↔
        Stopped (Possible removal value) False walked path value obstacle :=
      edit_eq_error_iff removal_makes
    exact hremoval.trans (stopped_congr fun target _ => possible_removal_iff)
  · have haddition : value.add walked path new = .error obstacle ↔
        Stopped (Possible (addition new) value) True walked path value obstacle :=
      edit_eq_error_iff addition_makes
    exact haddition.trans (stopped_congr fun target ht => possible_addition_iff ht)

example : let value := object [("rows", array [object [("n", null)], bool true])]
    value.remove "u" [.key "rows", .key "n"] = .error (.notNavigable "u.rows.1") := rfl

end Value

end ApiContract
