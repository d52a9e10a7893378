import ApiContract.Proofs.Bind
import ApiContract.Proofs.Forall2
import ApiContract.Proofs.Value.Places

namespace ApiContract.Value

def Action.act? (action : Action) : Segment → Value → Option Value
  | .key key, object fields => (action.onKey key fields).map object
  | .index i, array items => (action.onIndex i items).map array
  | .index i, ordered items => (action.onIndex i items).map ordered
  | _, _ => none

def withPart (segment : Segment) (value part : Value) : Value :=
  match segment, value with
  | .key key, object fields => object (Fields.replace key part fields)
  | .index i, array items => array (items.set i part)
  | .index i, ordered items => ordered (items.set i part)
  | _, value => value

/-- A path edits a value into another: at its end by the action, before that in the one part that
its head leads into, or in every item. -/
inductive Edited (action : Action) : Path → Value → Value → Prop
  | root (value : Value) : Edited action [] value (action.onRoot value)
  | last {head segment : Segment} {value result : Value} (leads : Leads head value segment)
    (acts : action.act? segment value = some result) : Edited action [head] value result
  | into {head segment : Segment} {rest : Path} {value a b : Value}
    (leads : Leads head value segment) (further : rest ≠ []) (part : value.part? segment = some a)
    (inner : Edited action rest a b) :
    Edited action (head :: rest) value (value.withPart segment b)
  | each {key : String} {rest : Path} {wrap : List Value → Value} {items items' : List Value}
    (arranged : Arrangement wrap) (length : items'.length = items.length)
    (inner : ∀ (i : Nat) (a b : Value), items[i]? = some a → items'[i]? = some b →
      Edited action (.key key :: rest) a b) :
    Edited action (.key key :: rest) (wrap items) (wrap items')

variable {action : Action} {walked : String} {wrap : List Value → Value} {items items' : List Value}
  {fields fields' : Fields Value} {head segment : Segment} {path rest place : Path}
  {value part result : Value} {key : String} {i : Nat}

theorem Arrangement.withPart (h : Arrangement wrap) :
    (wrap items).withPart (.index i) part = wrap (items.set i part) := by
  cases h <;> rfl

theorem Arrangement.act? (h : Arrangement wrap) :
    action.act? (.index i) (wrap items) = (action.onIndex i items).map wrap := by
  cases h <;> rfl

theorem act?_of_leaf (h : ¬ value.IsContainer) : action.act? segment value = none := by
  cases value <;> first | exact absurd trivial h | cases segment <;> rfl

theorem isContainer_of_act? (h : (action.act? segment value).isSome) : value.IsContainer := by
  by_contra hleaf
  rw [act?_of_leaf hleaf] at h
  cases h

theorem Leads.part?_withPart (h : Leads head value segment) {a : Value}
    (ha : value.part? segment = some a) :
    (value.withPart segment part).part? segment = some part := by
  cases h with
  | member => exact Fields.get?_replace_self ha
  | item arranged =>
    rw [arranged.part?_index] at ha
    rw [arranged.withPart, arranged.part?_index]
    exact List.getElem?_set_self (List.getElem?_eq_some_iff.mp ha).1

theorem Leads.part?_withPart_of_ne (h : Leads head value segment) {other : Segment}
    (hne : other ≠ segment) : (value.withPart segment part).part? other = value.part? other := by
  cases h with
  | member =>
    cases other with
    | key key => exact Fields.get?_replace_of_ne (fun he => hne (congrArg _ he)) _
    | index i => rfl
  | item arranged =>
    rw [arranged.withPart]
    cases other with
    | key key => rw [arranged.part?_key, arranged.part?_key]
    | index j =>
      rw [arranged.part?_index, arranged.part?_index]
      exact List.getElem?_set_ne fun he => hne (congrArg _ he.symm)

theorem Leads.shell_withPart (h : Leads head value segment) :
    (value.withPart segment part).shell = value.shell := by
  cases h with
  | member => rfl
  | item arranged => rw [arranged.withPart, arranged.shell_eq]

theorem Leads.withPart_withPart (h : Leads head value segment) {other : Value} :
    (value.withPart segment other).withPart segment part = value.withPart segment part := by
  cases h with
  | member => exact congrArg object Fields.replace_replace
  | item arranged => rw [arranged.withPart, arranged.withPart, arranged.withPart, List.set_set]

theorem Leads.withPart_self (h : Leads head value segment) (hp : value.part? segment = some part) :
    value.withPart segment part = value := by
  cases h with
  | member => exact congrArg object (Fields.replace_self hp)
  | item arranged =>
    rw [arranged.part?_index] at hp
    obtain ⟨hi, rfl⟩ := List.getElem?_eq_some_iff.mp hp
    rw [arranged.withPart, List.set_getElem_self]

theorem Leads.of_withPart (h : Leads head value segment) :
    Leads head (value.withPart segment part) segment := by
  cases h with
  | member => exact .member
  | item arranged => rw [arranged.withPart]; exact .item arranged

theorem Leads.of_act? (h : Leads head value segment) (hr : action.act? segment value = some result) :
    Leads head result segment := by
  cases h with
  | member =>
    obtain ⟨fields, -, rfl⟩ := Option.map_eq_some_iff.mp hr
    exact .member
  | item arranged =>
    rw [arranged.act?] at hr
    obtain ⟨items, -, rfl⟩ := Option.map_eq_some_iff.mp hr
    exact .item arranged

theorem Leads.shell_act? (h : Leads head value segment)
    (hr : action.act? segment value = some result) : result.shell = value.shell := by
  cases h with
  | member =>
    obtain ⟨fields, -, rfl⟩ := Option.map_eq_some_iff.mp hr
    rfl
  | item arranged =>
    rw [arranged.act?] at hr
    obtain ⟨items, -, rfl⟩ := Option.map_eq_some_iff.mp hr
    exact arranged.shell_eq ..

theorem edit_nil : edit action walked [] value = .ok (action.onRoot value) := by
  cases value <;> rw [edit]

theorem edit_of_leaf (h : ¬ value.IsContainer) :
    edit action walked (head :: rest) value = .error (.notNavigable walked) := by
  cases value <;> first | exact absurd trivial h | rw [edit] <;> nofun

theorem Arrangement.edit_last (h : Arrangement wrap) :
    edit action walked [.index i] (wrap items) = (actAt action walked i items).map wrap := by
  cases h <;> rw [edit]

theorem Arrangement.edit_index (h : Arrangement wrap) (hrest : rest ≠ []) :
    edit action walked (.index i :: rest) (wrap items) =
      (editItems action walked (.index i) rest items.length 0 items).map wrap := by
  cases rest with
  | nil => exact absurd rfl hrest
  | cons next rest => cases h <;> rw [edit] <;> simp

theorem Arrangement.edit_key (h : Arrangement wrap) :
    edit action walked (.key key :: rest) (wrap items) =
      (editItems action walked (.key key) rest items.length 0 items).map wrap := by
  cases h <;> rw [edit] <;> simp

theorem edit_object_last : edit action walked [head] (object fields) =
    (actOn action walked head.text fields).map object := by
  rw [edit]

theorem edit_object (hrest : rest ≠ []) : edit action walked (head :: rest) (object fields) =
    (editField action walked head.text rest fields).map object := by
  cases rest with
  | nil => exact absurd rfl hrest
  | cons next rest => rw [edit]; simp

theorem actAt_eq_ok_iff :
    actAt action walked i items = .ok items' ↔ action.onIndex i items = some items' := by
  rw [actAt]
  split <;> simp_all

theorem actOn_eq_ok_iff :
    actOn action walked key fields = .ok fields' ↔ action.onKey key fields = some fields' := by
  rw [actOn]
  split <;> simp_all

theorem editItems_index_eq_ok_iff {length : Nat} (position : Nat) :
    editItems action walked (.index (position + i)) rest length position items = .ok items' ↔
      ∃ a b, items[i]? = some a ∧
        edit action (extended walked (toString (position + i))) rest a = .ok b ∧
        items' = items.set i b := by
  induction items generalizing i position items' with
  | nil => simp [editItems]
  | cons item items ih =>
    cases i with
    | zero =>
      rw [editItems, Nat.add_zero, if_pos rfl, bind_eq_ok_iff]
      simp [eq_comm]
    | succ i =>
      have hshift : position + (i + 1) = position + 1 + i := by omega
      rw [editItems, if_neg (by omega), bind_eq_ok_iff, hshift]
      simp only [ih, List.getElem?_cons_succ, List.set_cons_succ, Except.ok.injEq]
      constructor
      · rintro ⟨_, ⟨a, b, ha, hb, rfl⟩, rfl⟩
        exact ⟨a, b, ha, hb, rfl⟩
      · rintro ⟨a, b, ha, hb, rfl⟩
        exact ⟨_, ⟨a, b, ha, hb, rfl⟩, rfl⟩

theorem editItems_key_eq_ok_iff {length : Nat} (position : Nat) :
    editItems action walked (.key key) rest length position items = .ok items' ↔
      items'.length = items.length ∧ ∀ i a b, items[i]? = some a → items'[i]? = some b →
        edit action (extended walked (toString (position + i))) (.key key :: rest) a = .ok b := by
  induction items generalizing position items' with
  | nil => simp [editItems, eq_comm]
  | cons item items ih =>
    rw [editItems, bind_eq_ok_iff]
    simp only [bind_eq_ok_iff, ih, Except.ok.injEq]
    constructor
    · rintro ⟨b, hb, rest', ⟨hlength, hrest⟩, rfl⟩
      refine ⟨by simp [hlength], fun i a c ha hc => ?_⟩
      cases i with
      | zero =>
        cases ha
        cases hc
        exact hb
      | succ i =>
        rw [← Nat.add_assoc, Nat.add_right_comm]
        exact hrest i a c ha hc
    · rintro ⟨hlength, hall⟩
      obtain ⟨b, rest', rfl⟩ : ∃ b rest', items' = b :: rest' :=
        List.exists_cons_of_length_eq_add_one hlength
      refine ⟨b, hall 0 item b rfl rfl, rest', ⟨by simpa using hlength, fun i a c ha hc => ?_⟩, rfl⟩
      rw [Nat.add_right_comm]
      exact hall (i + 1) a c ha hc

theorem editField_eq_ok_iff :
    editField action walked key rest fields = .ok fields' ↔ ∃ a b, Fields.get? key fields = some a ∧
      edit action (extended walked key) rest a = .ok b ∧ fields' = Fields.replace key b fields := by
  induction fields generalizing fields' with
  | nil => simp [editField, Fields.get?]
  | cons m fields ih =>
    rw [editField, Fields.get?]
    split
    · rename_i hk
      rw [bind_eq_ok_iff]
      simp [Fields.replace, hk, eq_comm]
    · rename_i hk
      rw [bind_eq_ok_iff]
      simp only [ih, Except.ok.injEq, Fields.replace, hk, ↓reduceIte]
      constructor
      · rintro ⟨_, ⟨a, b, ha, hb, rfl⟩, rfl⟩
        exact ⟨a, b, ha, hb, rfl⟩
      · rintro ⟨a, b, ha, hb, rfl⟩
        exact ⟨_, ⟨a, b, ha, hb, rfl⟩, rfl⟩

theorem Leads.edit_last_eq_ok_iff (h : Leads head value segment) :
    edit action walked [head] value = .ok result ↔ action.act? segment value = some result := by
  cases h with
  | member =>
    rw [edit_object_last, map_eq_ok_iff, Action.act?, Option.map_eq_some_iff]
    simp only [actOn_eq_ok_iff]
  | item arranged =>
    rw [arranged.edit_last, map_eq_ok_iff, arranged.act?, Option.map_eq_some_iff]
    simp only [actAt_eq_ok_iff]

theorem Leads.edit_eq_ok_iff (h : Leads head value segment) (hrest : rest ≠ []) :
    edit action walked (head :: rest) value = .ok result ↔ ∃ a b, value.part? segment = some a ∧
      edit action (extended walked segment.text) rest a = .ok b ∧
      value.withPart segment b = result := by
  cases h with
  | member =>
    rw [edit_object hrest, map_eq_ok_iff]
    simp only [editField_eq_ok_iff]
    constructor
    · rintro ⟨_, ⟨a, b, ha, hb, rfl⟩, rfl⟩
      exact ⟨a, b, ha, hb, rfl⟩
    · rintro ⟨a, b, ha, hb, rfl⟩
      exact ⟨_, ⟨a, b, ha, hb, rfl⟩, rfl⟩
  | @item wrap items i arranged =>
    have hitems : ∀ items', editItems action walked (.index (0 + i)) rest items.length 0 items =
        .ok items' ↔ _ := fun items' => editItems_index_eq_ok_iff 0
    simp only [Nat.zero_add] at hitems
    rw [arranged.edit_index hrest, map_eq_ok_iff, arranged.part?_index]
    simp only [hitems, arranged.withPart]
    constructor
    · rintro ⟨_, ⟨a, b, ha, hb, rfl⟩, rfl⟩
      exact ⟨a, b, ha, hb, rfl⟩
    · rintro ⟨a, b, ha, hb, rfl⟩
      exact ⟨_, ⟨a, b, ha, hb, rfl⟩, rfl⟩

theorem Arrangement.edit_eq_ok_iff (h : Arrangement wrap) :
    edit action walked (.key key :: rest) (wrap items) = .ok result ↔
      ∃ items', (items'.length = items.length ∧ ∀ (i : Nat) (a b : Value), items[i]? = some a →
        items'[i]? = some b →
        edit action (extended walked (toString i)) (.key key :: rest) a = .ok b) ∧
      wrap items' = result := by
  rw [h.edit_key, map_eq_ok_iff]
  simp only [editItems_key_eq_ok_iff, Nat.zero_add]

theorem edited_nil_iff : Edited action [] value result ↔ action.onRoot value = result := by
  constructor
  · rintro ⟨⟩
    rfl
  · rintro rfl
    exact .root value

theorem Leads.edited_last_iff (h : Leads head value segment) :
    Edited action [head] value result ↔ action.act? segment value = some result := by
  constructor
  · intro he
    cases he with
    | last leads acts => rw [← h.unique leads]; exact acts
    | into _ further => exact absurd rfl further
    | each arranged => obtain ⟨i, hi, -⟩ := h.of_items arranged; cases hi
  · exact .last h

theorem Leads.edited_iff (h : Leads head value segment) (hrest : rest ≠ []) :
    Edited action (head :: rest) value result ↔ ∃ a b, value.part? segment = some a ∧
      Edited action rest a b ∧ value.withPart segment b = result := by
  constructor
  · intro he
    cases he with
    | last => exact absurd rfl hrest
    | into leads _ part inner => rw [← h.unique leads]; exact ⟨_, _, part, inner, rfl⟩
    | each arranged => obtain ⟨i, hi, -⟩ := h.of_items arranged; cases hi
  · rintro ⟨a, b, ha, hb, rfl⟩
    exact .into h hrest ha hb

theorem Arrangement.edited_iff (h : Arrangement wrap) :
    Edited action (.key key :: rest) (wrap items) result ↔ ∃ items',
      (items'.length = items.length ∧ ∀ (i : Nat) (a b : Value), items[i]? = some a →
        items'[i]? = some b → Edited action (.key key :: rest) a b) ∧ wrap items' = result := by
  constructor
  · generalize hv : wrap items = value
    intro he
    cases he with
    | last leads => subst hv; obtain ⟨i, hi, -⟩ := leads.of_items h; cases hi
    | into leads => subst hv; obtain ⟨i, hi, -⟩ := leads.of_items h; cases hi
    | each arranged length inner =>
      obtain ⟨rfl, rfl⟩ := h.inj arranged hv
      exact ⟨_, ⟨length, inner⟩, rfl⟩
  · rintro ⟨items', ⟨hlength, hinner⟩, rfl⟩
    exact .each h hlength hinner

theorem not_edited_of_leaf (h : ¬ value.IsContainer) :
    ¬ Edited action (head :: rest) value result := by
  intro he
  cases he with
  | last leads => exact h leads.isContainer
  | into leads => exact h leads.isContainer
  | each arranged => exact h arranged.isContainer

theorem edit_eq_ok_iff :
    edit action walked path value = .ok result ↔ Edited action path value result := by
  induction value using induction_on_parts generalizing path walked result with
  | step value ih =>
    cases path with
    | nil => rw [edit_nil, edited_nil_iff, Except.ok.injEq]
    | cons head rest =>
      obtain ⟨segment, hleads⟩ | ⟨key, wrap, items, rfl, hwrap, rfl⟩ | hleaf :=
        leads_cases head value
      · by_cases hrest : rest = []
        · subst hrest
          rw [hleads.edit_last_eq_ok_iff, hleads.edited_last_iff]
        · rw [hleads.edit_eq_ok_iff hrest, hleads.edited_iff hrest]
          refine exists_congr fun a => exists_congr fun b => and_congr_right fun ha => ?_
          rw [ih a (mem_parts_of_part? ha)]
      · rw [hwrap.edit_eq_ok_iff, hwrap.edited_iff]
        have hitem : ∀ a ∈ items, ∀ walked b,
            edit action walked (.key key :: rest) a = .ok b ↔ Edited action (.key key :: rest) a b :=
          fun a ha walked b => ih a (hwrap.mem_parts.mpr ha)
        refine exists_congr fun items' => and_congr_left fun _ => and_congr_right fun _ => ?_
        refine forall_congr' fun i => forall_congr' fun a => forall_congr' fun b => ?_
        exact imp_congr_right fun ha => by rw [hitem a (List.mem_of_getElem? ha)]
      · rw [edit_of_leaf hleaf]
        exact ⟨nofun, fun he => absurd he (not_edited_of_leaf hleaf)⟩

theorem Edited.acted (h : Edited action path value result)
    (ht : place ++ [segment] ∈ value.targets path) : ∃ container acted,
      value.at? place = some container ∧ action.act? segment container = some acted ∧
        result.at? place = some acted := by
  induction h generalizing place with
  | root value => simp at ht
  | last leads acts =>
    rw [leads.targets_last, List.mem_singleton] at ht
    cases place with
    | nil =>
      cases ht
      exact ⟨_, _, rfl, acts, rfl⟩
    | cons first place => simp at ht
  | @into head step rest value a b leads further part _ ih =>
    obtain ⟨inner, hinner, ht⟩ := (leads.mem_targets part).mp ht
    cases place with
    | nil =>
      cases ht
      exact absurd rfl (ne_nil_of_mem_targets further hinner)
    | cons first place =>
      obtain ⟨rfl, rfl⟩ := List.cons.inj ht
      obtain ⟨container, acted, hcontainer, hacted, hresult⟩ := ih hinner
      refine ⟨container, acted, ?_, hacted, ?_⟩
      · rw [at?_cons, part, Option.bind_some, hcontainer]
      · rw [at?_cons, leads.part?_withPart part, Option.bind_some, hresult]
  | @each key rest wrap items items' arranged length _ ih =>
    obtain ⟨i, a, ha, inner, hinner, ht⟩ := arranged.mem_targets.mp ht
    cases place with
    | nil =>
      cases ht
      exact absurd rfl (ne_nil_of_mem_targets (List.cons_ne_nil _ _) hinner)
    | cons first place =>
      obtain ⟨rfl, rfl⟩ := List.cons.inj ht
      obtain ⟨b, hb⟩ := exists_getElem?_of_length_eq length ha
      obtain ⟨container, acted, hcontainer, hacted, hresult⟩ := ih i a b ha hb hinner
      refine ⟨container, acted, ?_, hacted, ?_⟩
      · rw [at?_cons, arranged.part?_index, ha, Option.bind_some, hcontainer]
      · rw [at?_cons, arranged.part?_index, hb, Option.bind_some, hresult]

theorem Edited.eq_of_no_target (h : Edited action path value result)
    (hnone : ∀ target, target ∉ value.targets path) : result = value := by
  induction h with
  | root value => exact absurd (by simp) (hnone [])
  | @last head segment value result leads _ =>
    exact absurd (leads.targets_last ▸ List.mem_singleton_self _) (hnone [segment])
  | into leads _ part _ ih =>
    have heq := ih fun inner hinner => hnone _ ((leads.mem_targets part).mpr ⟨inner, hinner, rfl⟩)
    rw [heq, leads.withPart_self part]
  | @each key rest wrap items items' arranged length _ ih =>
    refine congrArg wrap (List.ext_getElem? fun i => ?_)
    cases ha : items[i]? with
    | none =>
      rw [List.getElem?_eq_none_iff, ← length] at ha
      exact List.getElem?_eq_none ha
    | some a =>
      obtain ⟨b, hb⟩ := exists_getElem?_of_length_eq length ha
      have heq := ih i a b ha hb fun inner hinner =>
        hnone _ (arranged.mem_targets.mpr ⟨i, a, ha, inner, hinner, rfl⟩)
      rw [hb, heq]

def Allowed (action : Action) (path : Path) (value : Value) : Prop :=
  ∀ place segment, place ++ [segment] ∈ value.targets path → ∃ container,
    value.at? place = some container ∧ (action.act? segment container).isSome

def Possible (action : Action) (value : Value) (target : Path) : Prop :=
  ∀ place segment, target = place ++ [segment] → ∃ container,
    value.at? place = some container ∧ (action.act? segment container).isSome

theorem allowed_iff :
    Allowed action path value ↔ ∀ target ∈ value.targets path, Possible action value target :=
  ⟨fun h _ ht place segment he => h place segment (he ▸ ht),
    fun h place segment ht => h _ ht place segment rfl⟩

theorem possible_nil : Possible action value [] :=
  fun place segment he => absurd he.symm (by simp)

theorem possible_concat_iff : Possible action value (place ++ [segment]) ↔ ∃ container,
    value.at? place = some container ∧ (action.act? segment container).isSome := by
  constructor
  · exact fun h => h place segment rfl
  · intro h before last he
    obtain ⟨rfl, hlast⟩ := List.append_inj' he rfl
    cases hlast
    exact h

theorem possible_cons_iff (hp : value.part? segment = some part) (hplace : place ≠ []) :
    Possible action value (segment :: place) ↔ Possible action part place := by
  obtain ⟨front, last, rfl⟩ := (List.eq_nil_or_concat' place).resolve_left hplace
  rw [← List.cons_append, possible_concat_iff, possible_concat_iff, at?_cons, hp, Option.bind_some]

theorem Leads.allowed_part (hleads : Leads head value segment)
    (hp : value.part? segment = some part) (h : Allowed action (head :: rest) value) :
    Allowed action rest part := by
  intro place last ht
  have hmem : (segment :: place) ++ [last] ∈ value.targets (head :: rest) :=
    (hleads.mem_targets hp).mpr ⟨_, ht, rfl⟩
  simpa [hp] using h _ _ hmem

theorem Arrangement.allowed_item (hwrap : Arrangement wrap) (hi : items[i]? = some part)
    (h : Allowed action (.key key :: rest) (wrap items)) :
    Allowed action (.key key :: rest) part := by
  intro place last ht
  have hmem : (.index i :: place) ++ [last] ∈ (wrap items).targets (.key key :: rest) :=
    hwrap.mem_targets.mpr ⟨i, part, hi, _, ht, rfl⟩
  simpa [hwrap.part?_index, hi] using h _ _ hmem

theorem Leads.exists_part (hleads : Leads head value segment) (hrest : rest ≠ [])
    (h : Allowed action (head :: rest) value) : ∃ part, value.part? segment = some part := by
  cases hp : value.part? segment with
  | some part => exact ⟨part, rfl⟩
  | none =>
    obtain ⟨front, last, rfl⟩ := (List.eq_nil_or_concat' rest).resolve_left hrest
    obtain ⟨container, hcontainer, -⟩ := h (segment :: front) last
      (by rw [hleads.targets_of_none hp]; simp)
    rw [at?_cons, hp] at hcontainer
    cases hcontainer

theorem not_allowed_of_leaf (hleaf : ¬ value.IsContainer) :
    ¬ Allowed action (head :: rest) value := by
  intro h
  obtain ⟨front, last, hpath⟩ :=
    (List.eq_nil_or_concat' (head :: rest)).resolve_left (List.cons_ne_nil head rest)
  obtain ⟨container, hcontainer, hacts⟩ := h front last
    (by rw [targets_of_leaf hleaf, hpath]; simp)
  obtain ⟨-, rfl⟩ := at?_of_leaf hleaf hcontainer
  rw [act?_of_leaf hleaf] at hacts
  cases hacts

theorem Allowed.exists_edited (h : Allowed action path value) :
    ∃ result, Edited action path value result := by
  induction value using induction_on_parts generalizing path with
  | step value ih =>
    cases path with
    | nil => exact ⟨_, .root value⟩
    | cons head rest =>
      obtain ⟨segment, hleads⟩ | ⟨key, wrap, items, rfl, hwrap, rfl⟩ | hleaf :=
        leads_cases head value
      · by_cases hrest : rest = []
        · subst hrest
          obtain ⟨container, hvalue, hacts⟩ := h [] segment (by simp [hleads.targets_last])
          cases hvalue
          obtain ⟨result, hresult⟩ := Option.isSome_iff_exists.mp hacts
          exact ⟨result, .last hleads hresult⟩
        · obtain ⟨part, hp⟩ := hleads.exists_part hrest h
          obtain ⟨result, hresult⟩ := ih part (mem_parts_of_part? hp) (hleads.allowed_part hp h)
          exact ⟨_, .into hleads hrest hp hresult⟩
      · have hitem : ∀ a ∈ items, ∃ b, Edited action (.key key :: rest) a b := by
          intro a ha
          obtain ⟨i, hi⟩ := List.getElem?_of_mem ha
          exact ih a (hwrap.mem_parts.mpr ha) (hwrap.allowed_item hi h)
        obtain ⟨items', hitems⟩ := exists_forall₂ hitem
        exact ⟨_, hwrap.edited_iff.mpr ⟨items', forall₂_iff_getElem?.mp hitems, rfl⟩⟩
      · exact absurd h (not_allowed_of_leaf hleaf)

/-- An edit is possible exactly when its action is, on the container of every place that the path
means. -/
theorem exists_edited_iff :
    (∃ result, Edited action path value result) ↔ Allowed action path value := by
  refine ⟨?_, Allowed.exists_edited⟩
  rintro ⟨result, h⟩ place segment ht
  obtain ⟨container, acted, hcontainer, hacted, -⟩ := h.acted ht
  exact ⟨container, hcontainer, by rw [hacted]; rfl⟩

theorem exists_edited_iff_possible : (∃ result, Edited action path value result) ↔
    ∀ target ∈ value.targets path, Possible action value target := by
  rw [exists_edited_iff, allowed_iff]

end ApiContract.Value
