import ApiContract.Text.Letter

namespace ApiContract

inductive Pattern
  | nothing
  | one (accepts : Char → Bool)
  | seq (front back : Pattern)
  | either (left right : Pattern)
  | many (inner : Pattern)
  | group (number : Nat) (inner : Pattern)
  | boundary
  | stop

namespace Pattern

/-- The texts of the groups that took part, by their numbers. -/
abbrev Captures := List (Nat × List Char)

def captured (number : Nat) (captures : Captures) : Option (List Char) := captures.lookup number

def IsBoundary (before after : List Char) : Prop :=
  before.getLast?.any Text.isWord ≠ after.head?.any Text.isWord

/-- A pattern matches a text that stands between two others. No way of doing so is preferred, so that
what holds of every match holds of the one that is found. -/
inductive Matches : Pattern → List Char → List Char → List Char → Captures → Prop
  | nothing {before after : List Char} : Matches nothing before [] after []
  | one {accepts : Char → Bool} {c : Char} {before after : List Char} (h : accepts c = true) :
    Matches (one accepts) before [c] after []
  | seq {p q : Pattern} {before s t after : List Char} {captures others : Captures}
    (front : Matches p before s (t ++ after) captures)
    (back : Matches q (before ++ s) t after others) :
    Matches (seq p q) before (s ++ t) after (captures ++ others)
  | left {p q : Pattern} {before s after : List Char} {captures : Captures}
    (h : Matches p before s after captures) : Matches (either p q) before s after captures
  | right {p q : Pattern} {before s after : List Char} {captures : Captures}
    (h : Matches q before s after captures) : Matches (either p q) before s after captures
  | none {p : Pattern} {before after : List Char} : Matches (many p) before [] after []
  | more {p : Pattern} {before s t after : List Char} {captures others : Captures}
    (first : Matches p before s (t ++ after) captures)
    (rest : Matches (many p) (before ++ s) t after others) :
    Matches (many p) before (s ++ t) after (captures ++ others)
  | group {number : Nat} {p : Pattern} {before s after : List Char} {captures : Captures}
    (h : Matches p before s after captures) :
    Matches (group number p) before s after ((number, s) :: captures)
  | boundary {before after : List Char} (h : IsBoundary before after) :
    Matches boundary before [] after []
  | stop {before : List Char} : Matches stop before [] [] []

def Accepts (p : Pattern) (s : List Char) (captures : Captures) : Prop :=
  p.Matches [] s [] captures

def optional (p : Pattern) : Pattern := either p nothing

def repeated (p : Pattern) : Pattern := seq p (many p)

def char (c : Char) : Pattern := one (· == c)

def word (s : List Char) : Pattern := s.foldr (fun c p => seq (char c) p) nothing

variable {p q : Pattern} {accepts : Char → Bool} {before s after : List Char} {captures : Captures}
  {L M : List Char → Prop}

theorem matches_nothing_iff : Matches nothing before s after captures ↔ s = [] ∧ captures = [] := by
  constructor
  · rintro ⟨⟩
    exact ⟨rfl, rfl⟩
  · rintro ⟨rfl, rfl⟩
    exact .nothing

theorem matches_one_iff : Matches (one accepts) before s after captures ↔
    ∃ c, accepts c = true ∧ s = [c] ∧ captures = [] := by
  constructor
  · rintro ⟨⟩
    exact ⟨_, ‹_›, rfl, rfl⟩
  · rintro ⟨c, hc, rfl, rfl⟩
    exact .one hc

theorem matches_seq_iff : Matches (seq p q) before s after captures ↔
    ∃ front back own others, s = front ++ back ∧ captures = own ++ others ∧
      Matches p before front (back ++ after) own ∧
      Matches q (before ++ front) back after others := by
  constructor
  · rintro ⟨⟩
    exact ⟨_, _, _, _, rfl, rfl, ‹_›, ‹_›⟩
  · rintro ⟨front, back, own, others, rfl, rfl, hfront, hback⟩
    exact .seq hfront hback

theorem matches_either_iff : Matches (either p q) before s after captures ↔
    Matches p before s after captures ∨ Matches q before s after captures := by
  constructor
  · rintro (_ | _ | _ | h | h)
    · exact .inl h
    · exact .inr h
  · rintro (h | h)
    · exact .left h
    · exact .right h

theorem matches_group_iff {number : Nat} : Matches (group number p) before s after captures ↔
    ∃ own, captures = (number, s) :: own ∧ Matches p before s after own := by
  constructor
  · rintro ⟨⟩
    exact ⟨_, rfl, ‹_›⟩
  · rintro ⟨own, rfl, h⟩
    exact .group h

theorem matches_boundary_iff : Matches boundary before s after captures ↔
    s = [] ∧ captures = [] ∧ IsBoundary before after := by
  constructor
  · rintro ⟨⟩
    exact ⟨rfl, rfl, ‹_›⟩
  · rintro ⟨rfl, rfl, h⟩
    exact .boundary h

theorem matches_stop_iff : Matches stop before s after captures ↔
    s = [] ∧ captures = [] ∧ after = [] := by
  constructor
  · rintro ⟨⟩
    exact ⟨rfl, rfl, rfl⟩
  · rintro ⟨rfl, rfl, rfl⟩
    exact .stop

/-- A pattern without groups, which matches the texts of a language wherever they stand. -/
def Spells (p : Pattern) (L : List Char → Prop) : Prop :=
  ∀ before s after captures, Matches p before s after captures ↔ L s ∧ captures = []

theorem Spells.congr (h : Spells p L) (hL : ∀ s, L s ↔ M s) : Spells p M := by
  intro before s after captures
  rw [h, hL]

theorem spells_nothing : Spells nothing (· = []) := fun _ _ _ _ => matches_nothing_iff

theorem spells_one : Spells (one accepts) fun s => ∃ c, accepts c = true ∧ s = [c] := by
  intro before s after captures
  rw [matches_one_iff]
  constructor
  · rintro ⟨c, hc, hs, hcaptures⟩
    exact ⟨⟨c, hc, hs⟩, hcaptures⟩
  · rintro ⟨⟨c, hc, hs⟩, hcaptures⟩
    exact ⟨c, hc, hs, hcaptures⟩

theorem spells_char (c : Char) : Spells (char c) (· = [c]) := by
  apply spells_one.congr
  simp

theorem Spells.seq (hp : Spells p L) (hq : Spells q M) :
    Spells (seq p q) fun s => ∃ front back, s = front ++ back ∧ L front ∧ M back := by
  intro before s after captures
  rw [matches_seq_iff]
  constructor
  · rintro ⟨front, back, own, others, rfl, rfl, hfront, hback⟩
    obtain ⟨hl, rfl⟩ := (hp _ _ _ _).mp hfront
    obtain ⟨hm, rfl⟩ := (hq _ _ _ _).mp hback
    exact ⟨⟨front, back, rfl, hl, hm⟩, rfl⟩
  · rintro ⟨⟨front, back, rfl, hfront, hback⟩, rfl⟩
    exact ⟨front, back, [], [], rfl, rfl, (hp _ _ _ _).mpr ⟨hfront, rfl⟩,
      (hq _ _ _ _).mpr ⟨hback, rfl⟩⟩

theorem Spells.either (hp : Spells p L) (hq : Spells q M) :
    Spells (either p q) fun s => L s ∨ M s := by
  intro before s after captures
  rw [matches_either_iff, hp, hq, or_and_right]

theorem Spells.optional (hp : Spells p L) : Spells (optional p) fun s => L s ∨ s = [] :=
  hp.either spells_nothing

theorem spells_word (text : List Char) : Spells (word text) (· = text) := by
  induction text with
  | nil => exact spells_nothing
  | cons c text ih =>
    apply ((spells_char c).seq ih).congr
    simp

theorem Spells.many (hp : Spells p L) :
    Spells (many p) fun s => ∃ parts : List (List Char), s = parts.flatten ∧ ∀ t ∈ parts, L t := by
  intro before s after captures
  constructor
  · intro h
    generalize hmany : Pattern.many p = pattern at h
    induction h with
    | none =>
      exact ⟨⟨[], rfl, by simp⟩, rfl⟩
    | @more _ _ t _ _ _ _ first _ _ ih =>
      cases hmany
      obtain ⟨ht, rfl⟩ := (hp _ _ _ _).mp first
      obtain ⟨⟨parts, rfl, hparts⟩, rfl⟩ := ih rfl
      exact ⟨⟨t :: parts, rfl, List.forall_mem_cons.mpr ⟨ht, hparts⟩⟩, rfl⟩
    | _ => cases hmany
  · rintro ⟨⟨parts, rfl, hparts⟩, rfl⟩
    induction parts generalizing before with
    | nil => exact .none
    | cons t parts ih =>
      obtain ⟨ht, hparts⟩ := List.forall_mem_cons.mp hparts
      exact .more ((hp _ _ _ _).mpr ⟨ht, rfl⟩) (ih _ hparts)

theorem spells_many_one : Spells (many (one accepts)) fun s => ∀ c ∈ s, accepts c = true := by
  apply spells_one.many.congr
  intro s
  constructor
  · rintro ⟨parts, rfl, hparts⟩ c hc
    obtain ⟨part, hpart, hc⟩ := List.mem_flatten.mp hc
    obtain ⟨d, hd, rfl⟩ := hparts part hpart
    obtain rfl := List.mem_singleton.mp hc
    exact hd
  · intro h
    refine ⟨s.map fun c => [c], by rw [← List.flatMap_def, List.flatMap_singleton'], ?_⟩
    intro t ht
    obtain ⟨c, hc, rfl⟩ := List.mem_map.mp ht
    exact ⟨c, h c hc, rfl⟩

theorem spells_repeated_one :
    Spells (repeated (one accepts)) fun s => s ≠ [] ∧ ∀ c ∈ s, accepts c = true := by
  apply (spells_one.seq spells_many_one).congr
  intro s
  constructor
  · rintro ⟨front, back, rfl, ⟨c, hc, rfl⟩, hback⟩
    exact ⟨by simp, List.forall_mem_cons.mpr ⟨hc, hback⟩⟩
  · rintro ⟨hne, h⟩
    obtain ⟨c, back, rfl⟩ := List.exists_cons_of_ne_nil hne
    obtain ⟨hc, hback⟩ := List.forall_mem_cons.mp h
    exact ⟨[c], back, rfl, ⟨c, hc, rfl⟩, hback⟩

end Pattern

end ApiContract
