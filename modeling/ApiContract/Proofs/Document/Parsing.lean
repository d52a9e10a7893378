import Mathlib.Data.List.Sort
import Mathlib.Data.String.Basic
import ApiContract.Proofs.Bind
import ApiContract.Proofs.Document.Grammar
import ApiContract.Proofs.Fields
import ApiContract.Proofs.Template.Reading

namespace ApiContract.Document

open Heading

def IsVariable (text : List Char) (name : String) : Prop :=
  IsDeclaration text name ∧ name ≠ "Clear"

theorem readBlock_eq_ok_iff {place : Span} {tokens : List Token} {template : Template} :
    readBlock place tokens = .ok template ↔
      ∃ first more rest, tokens = .block first more :: rest ∧ Block first more template := by
  constructor
  · intro h
    unfold readBlock at h
    split at h
    · exact ⟨_, _, _, rfl, h⟩
    · cases h
  · rintro ⟨first, more, rest, rfl, h⟩
    exact h

theorem expand_append (known : List String) (as bs : List Setup) :
    expand known (as ++ bs) = expand known as ++ expand (known ++ touched as) bs := by
  induction as generalizing known with
  | nil => simp [expand, touched]
  | cons item as ih =>
    have ht : touched (item :: as) = item.collection?.toList ++ touched as := by
      cases hc : item.collection? <;> simp [touched, hc]
    simp [expand, ih, ht]

theorem expand_append_singleton (items : List Setup) (item : Setup) :
    expand [] (items ++ [item]) = expand [] items ++ (implied (touched items) item ++ [item]) := by
  simp [expand_append, expand]

theorem touched_append (as bs : List Setup) : touched (as ++ bs) = touched as ++ touched bs :=
  List.filterMap_append

theorem touched_singleton (item : Setup) : touched [item] = item.collection?.toList := by
  cases hc : item.collection? <;> simp [touched, hc]

theorem orderly_append_singleton {items : List Setup} {item : Setup} :
    Orderly (items ++ [item]) ↔
      Orderly items ∧ ∀ collection, item = .clear collection → collection ∉ touched items := by
  simp only [Orderly, List.pairwise_append, List.pairwise_singleton, List.mem_singleton,
    forall_eq, true_and, touched, List.mem_filterMap, not_exists, not_and]
  constructor
  · rintro ⟨h, hall⟩
    exact ⟨h, fun collection hc earlier he => hall earlier he collection hc⟩
  · rintro ⟨h, hall⟩
    exact ⟨h, fun earlier he collection hc => hall collection hc earlier he⟩

namespace Prepared

/-- The setup so far is what some items stand for, and their collections are registered. -/
structure After (prepared : Prepared) (items : List Setup) : Prop where
  setups : prepared.setups = expand [] items
  sorted : Fields.Sorted prepared.registrations
  mem : ∀ collection, collection ∈ prepared.registrations.keys ↔ collection ∈ touched items
  orderly : Orderly items

theorem after_nil : After ⟨[], []⟩ [] where
  setups := rfl
  sorted := .nil
  mem _ := by simp [Fields.keys, touched]
  orderly := .nil

variable {prepared next : Prepared} {items : List Setup}

theorem clear_eq_ok_iff {collection : String} {place : Span} :
    prepared.clear collection place = .ok next ↔
      collection ∉ prepared.registrations.keys ∧
        next = ⟨prepared.setups ++ [.clear collection],
          Fields.set collection (.cleared place) prepared.registrations⟩ := by
  rw [← Fields.get?_eq_none_iff]
  unfold clear
  constructor
  · intro h
    split at h
    · cases h
    · cases h
    · rename_i hn
      cases h
      exact ⟨hn, rfl⟩
  · rintro ⟨hn, rfl⟩
    rw [hn]

theorem mem_keys_set {collection other : String} {registration : Registration}
    {registrations : Registrations} :
    other ∈ Fields.keys (Fields.set collection registration registrations) ↔
      other = collection ∨ other ∈ Fields.keys registrations := by
  rw [← Fields.has_iff, ← Fields.has_iff, Fields.has, Fields.has]
  by_cases h : other = collection
  · subst h
    simp [Fields.get?_set_self]
  · simp [h, Fields.get?_set_of_ne]

theorem After.clear (h : After prepared items) {collection : String} (place : Span)
    (hn : collection ∉ touched items) :
    After ⟨prepared.setups ++ [.clear collection],
      Fields.set collection (.cleared place) prepared.registrations⟩
      (items ++ [.clear collection]) where
  setups := by simp [h.setups, expand_append_singleton, implied]
  sorted := h.sorted.set collection _
  mem other := by
    simp only [mem_keys_set, h.mem, touched_append, List.mem_append]
    simp [touched, Setup.collection?, or_comm]
  orderly := orderly_append_singleton.mpr ⟨h.orderly, fun other he => by
    cases he
    exact hn⟩

theorem After.declare (h : After prepared items) (name : String) (template : Template) :
    After (prepared.declare name template) (items ++ [.declaration name template]) where
  setups := by simp [Prepared.declare, h.setups, expand_append_singleton, implied]
  sorted := h.sorted
  mem other := by
    simp only [Prepared.declare, h.mem, touched_append, List.mem_append]
    simp [touched, Setup.collection?]
  orderly := orderly_append_singleton.mpr ⟨h.orderly, fun other he => by cases he⟩

theorem After.insert (h : After prepared items) (name collection : String) (template : Template)
    (place : Span) :
    After (prepared.insert name collection template place)
      (items ++ [.insertion name collection template]) where
  setups := by
    have hiff : Fields.has collection prepared.registrations = true ↔
        collection ∈ touched items := Fields.has_iff.trans (h.mem collection)
    by_cases hc : collection ∈ touched items
    · simp [Prepared.insert, h.setups, expand_append_singleton, implied, hiff.mpr hc, hc]
    · simp [Prepared.insert, h.setups, expand_append_singleton, implied, hc, hiff]
  sorted := h.sorted.set collection _
  mem other := by
    simp only [Prepared.insert, mem_keys_set, h.mem, touched_append, List.mem_append]
    simp [touched, Setup.collection?, or_comm]
  orderly := orderly_append_singleton.mpr ⟨h.orderly, fun other he => by cases he⟩

end Prepared

theorem noBlock_eq_ok_iff {tokens : List Token} :
    noBlock tokens = .ok () ↔ skipBlock tokens = tokens := by
  unfold noBlock skipBlock
  constructor
  · intro h
    split at h
    · cases h
    · rfl
  · intro h
    split
    · rename_i first more rest
      exact absurd (congrArg List.length h) (by simp)
    · rfl

open Prepared

section Setups

variable {prepared next : Prepared} {done items : List Setup} {text : List Char} {place : Span}
  {tokens rest behind : List Token}

def Fronts (text : List Char) (place : Span) (front : List Token) (item : Setup) : Prop :=
  ∀ tokens items, Items IsVariable tokens items →
    Items IsVariable (.heading 3 text place :: (front ++ tokens)) (item :: items)

theorem readSetup_clear {collection : String} (heading : IsClear text collection) :
    readSetup text place behind prepared = .ok next ↔
      collection ∉ prepared.registrations.keys ∧ skipBlock behind = behind ∧
        next = ⟨prepared.setups ++ [.clear collection],
          Fields.set collection (.cleared place) prepared.registrations⟩ := by
  rw [readSetup, clear?_eq_some_iff.mpr heading, ← noBlock_eq_ok_iff, ← and_assoc, and_right_comm,
    ← clear_eq_ok_iff]
  simp only [bind_eq_ok_iff, Except.ok.injEq]
  constructor
  · rintro ⟨cleared, hc, _, hb, rfl⟩
    exact ⟨hc, hb⟩
  · rintro ⟨hc, hb⟩
    exact ⟨next, hc, (), hb, rfl⟩

theorem readSetup_declaration {name : String} {first : Line} {more : List Line}
    (heading : IsVariable text name) :
    readSetup text place (.block first more :: tokens) prepared = .ok next ↔
      ∃ template, Block first more template ∧ next = prepared.declare name template := by
  simp only [readSetup, heading.1.clear?_eq_none heading.2,
    declaration?_eq_some_iff.mpr heading.1, readBlock, Block]
  cases Template.ofBlock (first :: more) (Line.spanOf first more) <;>
    simp [bind, Except.bind, eq_comm]

theorem readSetup_insertion {name collection : String} {first : Line} {more : List Line}
    (heading : IsInsertion text name collection) :
    readSetup text place (.block first more :: tokens) prepared = .ok next ↔
      ∃ template, Block first more template ∧
        next = prepared.insert name collection template place := by
  simp only [readSetup, heading.clear?_eq_none, heading.declaration?_eq_none,
    insertion?_eq_some_iff.mpr heading, readBlock, Block]
  cases Template.ofBlock (first :: more) (Line.spanOf first more) <;>
    simp [bind, Except.bind, eq_comm]

theorem exists_block_of_readSetup (hc : clear? text = none)
    (hr : readSetup text place behind prepared = .ok next) :
    ∃ first more tail, behind = .block first more :: tail := by
  by_contra hn
  have hb : readBlock place behind = .error (.expectedBlock place) := by
    unfold readBlock
    split
    · exact absurd ⟨_, _, _, rfl⟩ hn
    · rfl
  simp only [readSetup, hc, hb] at hr
  split at hr
  · cases hr
  · split at hr <;> cases hr

theorem exists_item_of_readSetup (h : After prepared done)
    (hr : readSetup text place behind prepared = .ok next) :
    ∃ item front, behind = front ++ skipBlock behind ∧ Fronts text place front item ∧
      After next (done ++ [item]) := by
  cases hc : clear? text with
  | some collection =>
    have heading := clear?_eq_some_iff.mp hc
    obtain ⟨hn, hb, rfl⟩ := (readSetup_clear heading).mp hr
    refine ⟨.clear collection, [], hb.symm, fun tokens items hi => .clear heading hi,
      h.clear place ?_⟩
    rwa [← h.mem]
  | none =>
    obtain ⟨first, more, tail, rfl⟩ := exists_block_of_readSetup hc hr
    cases hd : declaration? text with
    | some name =>
      have hdeclares := declaration?_eq_some_iff.mp hd
      have heading : IsVariable text name := ⟨hdeclares, hdeclares.ne_clear hc⟩
      obtain ⟨template, block, rfl⟩ := (readSetup_declaration heading).mp hr
      exact ⟨.declaration name template, [.block first more], rfl,
        fun tokens items hi => .declaration heading block hi, h.declare name template⟩
    | none =>
      cases hi : insertion? text with
      | none =>
        simp only [readSetup, hc, hd, hi] at hr
        cases hr
      | some p =>
        obtain ⟨name, collection⟩ := p
        have heading := insertion?_eq_some_iff.mp hi
        obtain ⟨template, block, rfl⟩ := (readSetup_insertion heading).mp hr
        exact ⟨.insertion name collection template, [.block first more], rfl,
          fun tokens items hi => .insertion heading block hi,
          h.insert name collection template place⟩

theorem exists_items_of_readSetups (h : After prepared done)
    (hr : readSetups prepared tokens = .ok (next, rest)) :
    ∃ front items, tokens = front ++ rest ∧ Items IsVariable front items ∧
      After next (done ++ items) ∧ ∀ token ∈ rest.head?, isTitle token = true := by
  fun_induction readSetups prepared tokens generalizing done with
  | case1 prepared =>
    cases hr
    exact ⟨[], [], rfl, .nil, by rwa [List.append_nil], by simp⟩
  | case2 prepared text place tokens =>
    cases hr
    refine ⟨[], [], rfl, .nil, by rwa [List.append_nil], fun token ht => ?_⟩
    cases ht
    rfl
  | case4 prepared text place tokens after ha _ ih =>
    obtain ⟨item, front, hfront, hitem, hafter⟩ := exists_item_of_readSetup h ha
    obtain ⟨more, items, hmore, hitems, hnext, hrest⟩ := ih hafter hr
    refine ⟨.heading 3 text place :: (front ++ more), item :: items, ?_, hitem more items hitems,
      ?_, hrest⟩
    · rw [List.cons_append, List.append_assoc, ← hmore, ← hfront]
    · rwa [List.append_assoc] at hnext
  | _ => cases hr

theorem skipBlock_eq_self (h : ∀ first more, tokens.head? ≠ some (.block first more)) :
    skipBlock tokens = tokens := by
  unfold skipBlock
  split
  · exact absurd rfl (h _ _)
  · rfl

theorem head_ne_block_of_items (hi : Items IsVariable tokens items)
    (hr : ∀ token ∈ rest.head?, isTitle token = true) :
    ∀ first more, (tokens ++ rest).head? ≠ some (.block first more) := by
  intro first more he
  cases hi with
  | nil =>
    have ht := hr _ he
    simp [isTitle] at ht
  | _ => simp at he

theorem readSetups_heading {read : Prepared × List Token} :
    readSetups prepared (.heading 3 text place :: behind) = .ok read ↔
      ∃ next, readSetup text place behind prepared = .ok next ∧
        readSetups next (skipBlock behind) = .ok read := by
  rw [readSetups, if_neg (by decide), if_pos rfl]
  cases readSetup text place behind prepared <;> simp

/-- Items are read as what they stand for. -/
theorem exists_readSetups_of_items (h : After prepared done) (hi : Items IsVariable tokens items)
    (ho : Orderly (done ++ items)) (hr : ∀ token ∈ rest.head?, isTitle token = true) :
    ∃ next, readSetups prepared (tokens ++ rest) = .ok (next, rest) ∧
      After next (done ++ items) := by
  induction hi generalizing prepared done with
  | nil =>
    refine ⟨prepared, ?_, by rwa [List.append_nil]⟩
    cases rest with
    | nil => rw [List.append_nil, readSetups]
    | cons token rest =>
      have ht := hr token (by simp)
      cases token with
      | heading level text place =>
        have hl : level = 2 := by simpa [isTitle] using ht
        rw [List.nil_append, readSetups, if_pos hl]
      | block first more => cases ht
  | @clear text place collection tokens items heading hi ih =>
    rw [List.append_cons] at ho ⊢
    have hn : collection ∉ touched done :=
      (orderly_append_singleton.mp (List.pairwise_append.mp ho).1).2 collection rfl
    have hb := skipBlock_eq_self (head_ne_block_of_items hi hr)
    obtain ⟨next, hnext, hafter⟩ := ih (h.clear place hn) ho
    rw [← hb] at hnext
    refine ⟨next, readSetups_heading.mpr ⟨_, ?_, hnext⟩, hafter⟩
    exact (readSetup_clear heading).mpr ⟨by rwa [h.mem], hb, rfl⟩
  | @declaration text place name first more template tokens items heading block _ ih =>
    rw [List.append_cons] at ho ⊢
    obtain ⟨next, hnext, hafter⟩ := ih (h.declare name template) ho
    refine ⟨next, readSetups_heading.mpr ⟨_, ?_, hnext⟩, hafter⟩
    exact (readSetup_declaration heading).mpr ⟨template, block, rfl⟩
  | @insertion text place name collection first more template tokens items heading block _ ih =>
    rw [List.append_cons] at ho ⊢
    obtain ⟨next, hnext, hafter⟩ := ih (h.insert name collection template place) ho
    refine ⟨next, readSetups_heading.mpr ⟨_, ?_, hnext⟩, hafter⟩
    exact (readSetup_insertion heading).mpr ⟨template, block, rfl⟩

end Setups

section Cases

variable {tokens rest : List Token} {registrations : Registrations}

theorem readPart_present {α : Type} {form? : List Char → Option α} {text : List Char}
    {place : Span} {a : α} (ha : form? text = some a) {first : Line} {more : List Line}
    {read : Option (α × Template) × List Token} :
    readPart form? (.heading 3 text place :: .block first more :: tokens) = .ok read ↔
      ∃ template, Block first more template ∧ read = (some (a, template), tokens) := by
  simp only [readPart, ha, readBlock, Block]
  cases Template.ofBlock (first :: more) (Line.spanOf first more) <;>
    simp [bind, Except.bind, skipBlock, eq_comm]

theorem readPart_absent {α : Type} {form? : List Char → Option α}
    (h : ∀ text place, tokens.head? = some (.heading 3 text place) → form? text = none) :
    readPart form? tokens = .ok (none, tokens) := by
  unfold readPart
  split
  · rename_i text place behind
    rw [h text place rfl]
  · rfl

theorem readPart_eq_ok_iff {α : Type} {form? : List Char → Option α}
    {Form : List Char → α → Prop} (hform : ∀ text a, form? text = some a ↔ Form text a)
    {part : Option (α × Template)} :
    readPart form? tokens = .ok (part, rest) ↔
      ∃ front, tokens = front ++ rest ∧ Part Form front part ∧
        (part = none → ∀ text place, rest.head? = some (.heading 3 text place) →
          form? text = none) := by
  constructor
  · intro h
    unfold readPart at h
    split at h
    · rename_i text place behind
      split at h
      · rename_i a ha
        cases hb : readBlock place behind with
        | error fault => simp [hb, bind, Except.bind] at h
        | ok template =>
          simp only [hb, bind, Except.bind, Except.ok.injEq, Prod.mk.injEq] at h
          obtain ⟨rfl, rfl⟩ := h
          obtain ⟨first, more, tail, rfl, hblock⟩ := readBlock_eq_ok_iff.mp hb
          exact ⟨[_, _], rfl, .present ((hform text a).mp ha) hblock, by simp⟩
      · rename_i ha
        cases h
        refine ⟨[], rfl, .absent, fun _ text place he => ?_⟩
        cases he
        exact ha
    · rename_i hn
      cases h
      refine ⟨[], rfl, .absent, fun _ text place he => ?_⟩
      obtain ⟨tail, rfl⟩ : ∃ tail, tokens = .heading 3 text place :: tail := by
        cases tokens with
        | nil => cases he
        | cons token tail =>
          cases he
          exact ⟨tail, rfl⟩
      exact absurd rfl (hn _ _ _)
  · rintro ⟨front, rfl, hpart, hn⟩
    cases hpart with
    | absent => exact readPart_absent (hn rfl)
    | present heading block =>
      exact (readPart_present ((hform _ _).mpr heading)).mpr ⟨_, block, rfl⟩

theorem finds_of_readFinds {finds : List Find} (h : readFinds registrations tokens = .ok finds) :
    Finds tokens finds ∧ ∀ find ∈ finds, find.collection ∈ registrations.keys := by
  fun_induction readFinds registrations tokens generalizing finds with
  | case1 =>
    cases h
    exact ⟨.nil, by simp⟩
  | case5 text place tokens collection hf hknown template hb finds _ ih =>
    cases h
    obtain ⟨first, more, rest, rfl, hblock⟩ := readBlock_eq_ok_iff.mp hb
    obtain ⟨hfinds, hall⟩ := ih ‹_›
    exact ⟨.cons (find?_eq_some_iff.mp hf) hblock hfinds,
      List.forall_mem_cons.mpr ⟨Fields.has_iff.mp hknown, hall⟩⟩
  | _ => cases h

theorem readFinds_of_finds {finds : List Find} (h : Finds tokens finds)
    (hall : ∀ find ∈ finds, find.collection ∈ registrations.keys) :
    readFinds registrations tokens = .ok finds := by
  induction h with
  | nil => rw [readFinds]
  | @cons text place collection first more template tokens finds heading block _ ih =>
    obtain ⟨hc, hall⟩ := List.forall_mem_cons.mp hall
    have hb := (@readBlock_eq_ok_iff place _ _).mpr ⟨first, more, tokens, rfl, block⟩
    rw [readFinds, if_pos rfl]
    simp only [find?_eq_some_iff.mpr heading, Fields.has_iff.mpr hc, ↓reduceIte, hb, skipBlock,
      ih hall]

theorem readFinds_eq_ok_iff {finds : List Find} :
    readFinds registrations tokens = .ok finds ↔
      Finds tokens finds ∧ ∀ find ∈ finds, find.collection ∈ registrations.keys :=
  ⟨finds_of_readFinds, fun h => readFinds_of_finds h.1 h.2⟩

theorem readCase_eq_caseOf {title : List Char} {c : Case} :
    readCase registrations title tokens = .ok c ↔
      ∃ post p out o finds, readPart post? tokens = .ok (post, p) ∧
        readPart out? p = .ok (out, o) ∧ readFinds registrations o = .ok finds ∧
        c = caseOf title post out finds := by
  simp only [readCase, bind_eq_ok_iff, Prod.exists, Except.ok.injEq]
  constructor
  · rintro ⟨post, p, hp, out, o, ho, finds, hf, rfl⟩
    exact ⟨post, p, out, o, finds, hp, ho, hf, rfl⟩
  · rintro ⟨post, p, out, o, finds, hp, ho, hf, rfl⟩
    exact ⟨post, p, hp, out, o, ho, finds, hf, rfl⟩

theorem head_of_finds {f : List Token} {finds : List Find} (h : Finds f finds) {text : List Char}
    {place : Span} (he : f.head? = some (.heading 3 text place)) : text.head? = some 'F' := by
  cases h with
  | nil => cases he
  | cons heading =>
    cases he
    exact heading.head

theorem head_of_out {o f : List Token} {out : Option (Option Nat × Template)} {finds : List Find}
    (ho : Part IsOut o out) (hf : Finds f finds) {text : List Char} {place : Span}
    (he : (o ++ f).head? = some (.heading 3 text place)) :
    text.head? = some 'O' ∨ text.head? = some 'F' := by
  cases ho with
  | absent => exact .inr (head_of_finds hf he)
  | present heading =>
    cases he
    exact .inl heading.head

theorem readCase_eq_ok_iff {title : List Char} {c : Case} :
    readCase registrations title tokens = .ok c ↔
      Body title tokens c ∧ ∀ find ∈ c.finds, find.collection ∈ registrations.keys := by
  rw [readCase_eq_caseOf]
  constructor
  · rintro ⟨post, p, out, o, finds, hp, ho, hf, rfl⟩
    obtain ⟨front, rfl, hpost, -⟩ := (readPart_eq_ok_iff fun text a => post?_eq_some_iff).mp hp
    obtain ⟨middle, rfl, hout, -⟩ := (readPart_eq_ok_iff fun text a => out?_eq_some_iff).mp ho
    obtain ⟨hfinds, hknown⟩ := finds_of_readFinds hf
    exact ⟨.intro hpost hout hfinds, hknown⟩
  · rintro ⟨hbody, hknown⟩
    cases hbody with
    | @intro p o f post out finds hpost hout hfinds =>
      have hp : readPart post? (p ++ (o ++ f)) = .ok (post, o ++ f) :=
        (readPart_eq_ok_iff fun text a => post?_eq_some_iff).mpr
          ⟨p, rfl, hpost, fun _ text place he => post?_eq_none (head_of_out hout hfinds he)⟩
      have ho : readPart out? (o ++ f) = .ok (out, f) :=
        (readPart_eq_ok_iff fun text a => out?_eq_some_iff).mpr
          ⟨o, rfl, hout, fun _ text place he => out?_eq_none (head_of_finds hfinds he)⟩
      exact ⟨post, o ++ f, out, f, finds, hp, ho, readFinds_of_finds hfinds hknown, rfl⟩

theorem not_isTitle_of_part {α : Type} {Form : List Char → α → Prop} {front : List Token}
    {part : Option (α × Template)} (h : Part Form front part) :
    ∀ token ∈ front, isTitle token = false := by
  cases h <;> simp [isTitle]

theorem not_isTitle_of_finds {finds : List Find} (h : Finds tokens finds) :
    ∀ token ∈ tokens, isTitle token = false := by
  induction h with
  | nil => simp
  | cons _ _ _ ih => simpa [isTitle] using ih

theorem not_isTitle_of_body {title : List Char} {c : Case} (h : Body title tokens c) :
    ∀ token ∈ tokens, isTitle token = false := by
  cases h with
  | intro hpost hout hfinds =>
    intro token ht
    simp only [List.mem_append] at ht
    rcases ht with ht | ht | ht
    · exact not_isTitle_of_part hpost token ht
    · exact not_isTitle_of_part hout token ht
    · exact not_isTitle_of_finds hfinds token ht

theorem isTitle_head_of_cases {cases : List Case} (h : Cases tokens cases) :
    ∀ token ∈ tokens.head?, isTitle token = true := by
  cases h <;> simp [isTitle]

theorem cut_at_title {front : List Token} (hf : ∀ token ∈ front, isTitle token = false)
    (hr : ∀ token ∈ rest.head?, isTitle token = true) :
    (front ++ rest).takeWhile (!isTitle ·) = front ∧
      (front ++ rest).dropWhile (!isTitle ·) = rest :=
  Text.takeWhile_append_of_head (fun token ht => by simp [hf token ht])
    fun token ht => by simp [hr token ht]

theorem readCases_cons {title : List Char} {place : Span} {cases : List Case} :
    readCases registrations (.heading 2 title place :: tokens) = .ok cases ↔
      ∃ c tail, readCase registrations title (tokens.takeWhile (!isTitle ·)) = .ok c ∧
        readCases registrations (tokens.dropWhile (!isTitle ·)) = .ok tail ∧ cases = c :: tail := by
  rw [readCases]
  constructor
  · intro h
    split at h
    · cases h
    · rename_i c hc
      split at h
      · cases h
      · rename_i tail ht
        cases h
        exact ⟨c, tail, hc, ht, rfl⟩
  · rintro ⟨c, tail, hc, ht, rfl⟩
    simp only [hc, ht]

theorem cases_of_readCases {cases : List Case} (h : readCases registrations tokens = .ok cases) :
    Cases tokens cases ∧ ∀ c ∈ cases, ∀ find ∈ c.finds, find.collection ∈ registrations.keys := by
  fun_induction readCases registrations tokens generalizing cases with
  | case1 =>
    cases h
    exact ⟨.nil, by simp⟩
  | case4 tokens text place c hc tail _ ih =>
    cases h
    obtain ⟨hbody, hknown⟩ := readCase_eq_ok_iff.mp hc
    obtain ⟨hcases, hall⟩ := ih ‹_›
    have hcons := @Cases.cons text place _ _ _ _ hbody hcases
    rw [List.takeWhile_append_dropWhile] at hcons
    exact ⟨hcons, List.forall_mem_cons.mpr ⟨hknown, hall⟩⟩
  | _ => cases h

theorem readCases_of_cases {cases : List Case} (h : Cases tokens cases)
    (hall : ∀ c ∈ cases, ∀ find ∈ c.finds, find.collection ∈ registrations.keys) :
    readCases registrations tokens = .ok cases := by
  induction h with
  | nil => rw [readCases]
  | @cons title place body tokens c cases here hcases ih =>
    obtain ⟨hc, hall⟩ := List.forall_mem_cons.mp hall
    obtain ⟨h₁, h₂⟩ := cut_at_title (not_isTitle_of_body here) (isTitle_head_of_cases hcases)
    rw [readCases_cons, h₁, h₂]
    exact ⟨c, cases, readCase_eq_ok_iff.mpr ⟨here, hc⟩, ih hall, rfl⟩

theorem readCases_eq_ok_iff {cases : List Case} :
    readCases registrations tokens = .ok cases ↔
      Cases tokens cases ∧
        ∀ c ∈ cases, ∀ find ∈ c.finds, find.collection ∈ registrations.keys :=
  ⟨cases_of_readCases, fun h => readCases_of_cases h.1 h.2⟩

end Cases

theorem skipToSetup_eq_some_iff {tokens rest : List Token} {place : Span} :
    skipToSetup tokens = some (place, rest) ↔
      ∃ prose, tokens = prose ++ .heading 2 "Setup".toList place :: rest ∧
        ∀ token ∈ prose, ¬ IsSetup token := by
  constructor
  · intro h
    fun_induction skipToSetup tokens with
    | case1 => cases h
    | case2 place tokens =>
      cases h
      exact ⟨[], rfl, by simp⟩
    | case3 token tokens hn ih =>
      obtain ⟨prose, rfl, hprose⟩ := ih h
      refine ⟨token :: prose, rfl, List.forall_mem_cons.mpr ⟨?_, hprose⟩⟩
      rintro ⟨place, rfl⟩
      exact hn place rfl
  · rintro ⟨prose, rfl, hprose⟩
    induction prose with
    | nil => rfl
    | cons token prose ih =>
      obtain ⟨htoken, hprose⟩ := List.forall_mem_cons.mp hprose
      rw [List.cons_append, skipToSetup, ih hprose]
      rintro place rfl
      exact htoken ⟨place, rfl⟩

theorem lists_keys {prepared : Prepared} {items : List Setup} (h : prepared.After items) :
    Lists prepared.registrations.keys items := ⟨h.sorted, h.mem⟩

theorem Lists.eq {as bs : List String} {items : List Setup} (ha : Lists as items)
    (hb : Lists bs items) : as = bs :=
  List.Pairwise.eq_of_mem_iff ha.sorted hb.sorted fun collection =>
    (ha.mem collection).trans (hb.mem collection).symm

theorem ofTokens_title {title : List Char} {place : Span} {tokens : List Token}
    {document : Document} :
    ofTokens (.heading 1 title place :: tokens) = .ok document ↔
      ∃ setup rest prepared front cases, skipToSetup tokens = some (setup, rest) ∧
        readSetups ⟨[], []⟩ rest = .ok (prepared, front) ∧
        readCases prepared.registrations front = .ok cases ∧ cases ≠ [] ∧
        document = ⟨String.ofList (splitSkip title).1, (splitSkip title).2, prepared.setups, cases,
          prepared.registrations.keys⟩ := by
  rw [ofTokens]
  cases hs : skipToSetup tokens with
  | none => simp
  | some found =>
    obtain ⟨setup, rest⟩ := found
    simp only [bind_eq_ok_iff, Prod.exists]
    constructor
    · rintro ⟨prepared, front, hr, cases, hc, h⟩
      split at h
      · cases h
      · rename_i hne
        cases h
        exact ⟨setup, rest, prepared, front, cases, rfl, hr, hc, by simpa using hne, rfl⟩
    · rintro ⟨_, _, prepared, front, cases, he, hr, hc, hne, rfl⟩
      cases he
      exact ⟨prepared, front, hr, cases, hc, if_neg (by simpa using hne)⟩

theorem derives_of_ofTokens {tokens : List Token} {document : Document}
    (h : ofTokens tokens = .ok document) : Derives IsVariable tokens document := by
  obtain ⟨title, place, tokens, rfl⟩ : ∃ title place rest,
      tokens = .heading 1 title place :: rest := by
    unfold ofTokens at h
    split at h
    · exact ⟨_, _, _, rfl⟩
    · cases h
    · cases h
  obtain ⟨setup, rest, prepared, front, cases, hs, hr, hc, hne, rfl⟩ := ofTokens_title.mp h
  obtain ⟨prose, rfl, hprose⟩ := skipToSetup_eq_some_iff.mp hs
  obtain ⟨s, items, rfl, hitems, hafter, -⟩ := exists_items_of_readSetups Prepared.after_nil hr
  obtain ⟨hcases, hknown⟩ := readCases_eq_ok_iff.mp hc
  rw [List.nil_append] at hafter
  rw [hafter.setups]
  exact .intro hprose hitems hafter.orderly hcases hne ⟨hafter.sorted, hafter.mem⟩ hknown

theorem ofTokens_of_derives {tokens : List Token} {document : Document}
    (h : Derives IsVariable tokens document) : ofTokens tokens = .ok document := by
  cases h with
  | @intro title place setup prose s c items cases collections hprose hitems horderly hcases hne
      hlists hknown =>
    obtain ⟨prepared, hr, hafter⟩ := exists_readSetups_of_items Prepared.after_nil hitems horderly
      (isTitle_head_of_cases hcases)
    rw [List.nil_append] at hafter
    have hkeys : prepared.registrations.keys = collections :=
      Lists.eq ⟨hafter.sorted, hafter.mem⟩ hlists
    subst hkeys
    have hs : skipToSetup (prose ++ .heading 2 "Setup".toList setup :: (s ++ c)) =
        some (setup, s ++ c) := skipToSetup_eq_some_iff.mpr ⟨prose, rfl, hprose⟩
    rw [← hafter.setups]
    exact ofTokens_title.mpr
      ⟨setup, s ++ c, prepared, c, cases, hs, hr, readCases_eq_ok_iff.mpr ⟨hcases, hknown⟩, hne,
        rfl⟩

/-- A document is read from exactly the tokens that the grammar derives it from. -/
theorem ofTokens_eq_ok_iff_derives (tokens : List Token) (document : Document) :
    ofTokens tokens = .ok document ↔ Derives IsVariable tokens document :=
  ⟨derives_of_ofTokens, ofTokens_of_derives⟩

/-- A setup whose only heading both clears `is` and declares `Clear`. -/
def clearIs : List Char := "# t\n## Setup\n### Clear is\n\t\x7b\x7d\n## c\n".toList

theorem ofChars_clearIs : Token.ofChars clearIs =
    [.heading 1 ['t'] ⟨0, 1⟩, .heading 2 "Setup".toList ⟨1, 2⟩,
      .heading 3 "Clear is".toList ⟨2, 3⟩, .block ⟨3, "\x7b\x7d".toList⟩ [],
      .heading 2 ['c'] ⟨4, 5⟩] := by
  decide

/-- The heading is taken to clear a collection, so that its block is one too many. -/
theorem clearIs_derived_and_refused :
    (∃ document, Derives IsDeclaration (Token.ofChars clearIs) document) ∧
      ofTokens (Token.ofChars clearIs) = .error (.unexpectedBlock ⟨3, 4⟩) := by
  rw [ofChars_clearIs]
  constructor
  · have hblock : Block ⟨3, "\x7b\x7d".toList⟩ [] (.object []) := by
      refine (Template.ofLines_single (by decide) (by decide) (by decide)).mpr ⟨rfl, ?_⟩
      rfl
    have hname : IsName "Clear" := by
      rw [IsName]
      decide
    have hitems : Items IsDeclaration [.heading 3 "Clear is".toList ⟨2, 3⟩,
        .block ⟨3, "\x7b\x7d".toList⟩ []] [.declaration "Clear" (.object [])] :=
      .declaration ⟨hname, rfl⟩ hblock .nil
    have hcases : Cases [.heading 2 ['c'] ⟨4, 5⟩] [caseOf ['c'] none none []] :=
      .cons (.intro .absent .absent .nil) .nil
    exact ⟨_, @Derives.intro _ ['t'] _ _ [] _ _ _ _ [] (by simp) hitems
      (List.pairwise_singleton _ _) hcases (by simp) ⟨.nil, by simp [touched, Setup.collection?]⟩
      (by simp [caseOf])⟩
  · have hs : readSetups ⟨[], []⟩ [.heading 3 "Clear is".toList ⟨2, 3⟩,
        .block ⟨3, "\x7b\x7d".toList⟩ [], .heading 2 ['c'] ⟨4, 5⟩] =
          .error (.unexpectedBlock ⟨3, 4⟩) := by
      rw [readSetups]
      rfl
    change (readSetups ⟨[], []⟩ [_, _, _] >>= _) = _
    rw [hs]
    rfl

end ApiContract.Document
