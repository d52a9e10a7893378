import ApiContract.Proofs.Pattern.Basic
import ApiContract.Proofs.Template.Marks

namespace ApiContract

namespace Pattern

def identifier : Pattern := seq (one Identifier.isStart) (many (one Identifier.isPart))

def digits : Pattern := repeated (one Char.isDigit)

def step : Pattern := either identifier digits

def chain (first : Pattern) : Pattern := seq first (many (seq (char '.') step))

def line : Pattern := many (one (· != '\n'))

def slot (name : Pattern) : Pattern :=
  seq (group 1 name) (seq (optional (group 2 (char '?'))) (seq (char ':')
    (seq (optional (seq (repeated (one Template.Opening.isGap)) (group 3 line))) stop)))

def entry : Pattern := slot identifier

def addition : Pattern := slot (chain step)

def mixin : Pattern :=
  seq (group 1 (chain identifier)) (seq (repeated (one Text.isBlank))
    (seq (group 2 (either (word "with".toList) (word "without".toList)))
      (seq boundary (seq (group 3 line) stop))))

def keyLine : Pattern :=
  seq identifier (seq (optional (char '?')) (seq (char ':')
    (either (one Template.Opening.isGap) stop)))

theorem spells_identifier : Spells identifier fun s => Identifier.isValid s = true := by
  apply (spells_one.seq spells_many_one).congr
  intro s
  constructor
  · rintro ⟨front, back, rfl, ⟨c, hc, rfl⟩, hback⟩
    simpa [Identifier.isValid, hc] using hback
  · intro h
    obtain ⟨c, back, rfl, hc, hback⟩ := Identifier.exists_cons_of_isValid h
    exact ⟨[c], back, rfl, ⟨c, hc, rfl⟩, hback⟩

theorem spells_step : Spells step fun s => Template.Opening.isStep s = true := by
  apply (spells_identifier.either spells_repeated_one).congr
  intro s
  simp [Template.Opening.isStep, Template.Opening.isDigits]

/-- The pieces between the dots, of which the first one may have to be of a kind of its own. -/
def Chained (L : List Char → Prop) (s : List Char) : Prop :=
  ∃ first steps, Text.pieces '.' s = first :: steps ∧ L first ∧
    ∀ word ∈ steps, Template.Opening.isStep word = true

theorem dot_notMem_of_isStep {s : List Char} (h : Template.Opening.isStep s = true) : '.' ∉ s := by
  intro hdot
  obtain hvalid | hdigits := (Bool.or_eq_true _ _).mp h
  · have hpart := Identifier.isPart_of_mem hvalid hdot
    rw [Identifier.not_isPart_dot] at hpart
    cases hpart
  · have hdigit := List.all_eq_true.mp ((Bool.and_eq_true _ _).mp hdigits).2 '.' hdot
    cases hdigit

theorem joined_cons (sep : Char) (first : List Char) (words : List (List Char)) :
    Text.joined sep (first :: words) = first ++ (words.map (sep :: ·)).flatten := by
  induction words generalizing first with
  | nil => simp [Text.joined]
  | cons word words ih =>
    rw [Text.joined, ih word, List.map_cons, List.flatten_cons, List.cons_append]
    exact List.cons_ne_nil _ _

theorem spells_chain {first : Pattern} {L : List Char → Prop} (h : Spells first L)
    (hstep : ∀ s, L s → Template.Opening.isStep s = true) :
    Spells (chain first) (Chained L) := by
  apply (h.seq ((spells_char '.').seq spells_step).many).congr
  intro s
  constructor
  · rintro ⟨front, back, rfl, hfront, parts, rfl, hparts⟩
    have hsteps : ∀ word ∈ parts.map List.tail, Template.Opening.isStep word = true := by
      intro word hword
      obtain ⟨part, hpart, rfl⟩ := List.mem_map.mp hword
      obtain ⟨dot, step, rfl, rfl, hstep⟩ := hparts part hpart
      exact hstep
    have hdots : parts = (parts.map List.tail).map ('.' :: ·) := by
      rw [List.map_map]
      refine (List.map_id parts).symm.trans (List.map_congr_left fun part hpart => ?_)
      obtain ⟨dot, step, rfl, rfl, -⟩ := hparts part hpart
      rfl
    refine ⟨front, parts.map List.tail, ?_, hfront, hsteps⟩
    rw [hdots, ← joined_cons, ← hdots]
    apply Text.pieces_joined (List.cons_ne_nil _ _)
    exact List.forall_mem_cons.mpr ⟨dot_notMem_of_isStep (hstep front hfront),
      fun word hword => dot_notMem_of_isStep (hsteps word hword)⟩
  · rintro ⟨front, steps, hpieces, hfront, hsteps⟩
    refine ⟨front, (steps.map ('.' :: ·)).flatten, ?_, hfront, _, rfl, ?_⟩
    · rw [← joined_cons, ← hpieces, Text.joined_pieces]
    · intro part hpart
      obtain ⟨word, hword, rfl⟩ := List.mem_map.mp hpart
      exact ⟨['.'], word, rfl, rfl, hsteps word hword⟩

def mark (optional : Bool) : Captures := if optional then [(2, ['?'])] else []

theorem matches_mark_iff {before s after : List Char} {captures : Captures} :
    Matches (optional (group 2 (char '?'))) before s after captures ↔
      ∃ optional, s = (if optional then ['?'] else []) ∧ captures = mark optional := by
  rw [optional, matches_either_iff, matches_group_iff, matches_nothing_iff]
  constructor
  · rintro (⟨own, rfl, h⟩ | ⟨rfl, rfl⟩)
    · obtain ⟨rfl, rfl⟩ := (spells_char '?' _ _ _ _).mp h
      exact ⟨true, rfl, rfl⟩
    · exact ⟨false, rfl, rfl⟩
  · rintro ⟨_ | _, rfl, rfl⟩
    · exact .inr ⟨rfl, rfl⟩
    · exact .inl ⟨[], rfl, (spells_char '?' _ _ _ _).mpr ⟨rfl, rfl⟩⟩

theorem spells_line : Spells line fun s => '\n' ∉ s := by
  apply spells_many_one.congr
  intro s
  simp [List.forall_mem_ne']

theorem matches_beside_iff {before s after : List Char} {captures : Captures} :
    Matches (optional (seq (repeated (one Template.Opening.isGap)) (group 3 line)))
        before s after captures ↔
      s = [] ∧ captures = [] ∨ ∃ gap rest, s = gap ++ rest ∧
        (gap ≠ [] ∧ ∀ c ∈ gap, Template.Opening.isGap c = true) ∧ '\n' ∉ rest ∧
        captures = [(3, rest)] := by
  rw [optional, matches_either_iff, matches_nothing_iff, or_comm]
  apply or_congr_right
  rw [matches_seq_iff]
  constructor
  · rintro ⟨gap, rest, own, others, rfl, rfl, hgap, hrest⟩
    obtain ⟨hl, rfl⟩ := (spells_repeated_one _ _ _ _).mp hgap
    obtain ⟨inner, rfl, hinner⟩ := matches_group_iff.mp hrest
    obtain ⟨hm, rfl⟩ := (spells_line _ _ _ _).mp hinner
    exact ⟨gap, rest, rfl, hl, hm, rfl⟩
  · rintro ⟨gap, rest, rfl, hgap, hrest, rfl⟩
    exact ⟨gap, rest, [], _, rfl, rfl, (spells_repeated_one _ _ _ _).mpr ⟨hgap, rfl⟩,
      .group ((spells_line _ _ _ _).mpr ⟨hrest, rfl⟩)⟩

inductive Slotted (L : List Char → Prop) : List Char → Captures → Prop
  | alone {name : List Char} {optional : Bool} (h : L name) :
    Slotted L (name ++ Template.colonText optional) ((1, name) :: mark optional)
  | beside {name gap rest : List Char} {optional : Bool} (h : L name)
    (hgap : gap ≠ [] ∧ ∀ c ∈ gap, Template.Opening.isGap c = true) (hline : '\n' ∉ rest) :
    Slotted L (name ++ (Template.colonText optional ++ (gap ++ rest)))
      ((1, name) :: (mark optional ++ [(3, rest)]))

theorem accepts_slot_iff {name : Pattern} {L : List Char → Prop} (h : Spells name L)
    {s : List Char} {captures : Captures} :
    Accepts (slot name) s captures ↔ Slotted L s captures := by
  constructor
  · intro hmatch
    simp only [Accepts, slot, matches_seq_iff, matches_group_iff, matches_mark_iff,
      matches_beside_iff, matches_stop_iff, h _ _ _ _, spells_char _ _ _ _ _] at hmatch
    obtain ⟨word, _, _, _, rfl, rfl, ⟨_, rfl, hname, rfl⟩, _, _, _, _, rfl, rfl,
      ⟨isOptional, rfl, rfl⟩, _, _, _, _, rfl, rfl, ⟨rfl, rfl⟩, _, _, _, _, rfl, rfl, hbeside,
      rfl, rfl, -⟩ := hmatch
    rcases hbeside with ⟨rfl, rfl⟩ | ⟨gap, rest, rfl, hgap, hrest, rfl⟩
    · simpa [Template.colonText] using @Slotted.alone L word isOptional hname
    · simpa [Template.colonText] using @Slotted.beside L word gap rest isOptional hname hgap hrest
  · have hcolon (before after : List Char) : Matches (char ':') before [':'] after [] :=
      (spells_char ':' _ _ _ _).mpr ⟨rfl, rfl⟩
    rintro (@⟨word, isOptional, hname⟩ | @⟨word, gap, rest, isOptional, hname, hgap, hline⟩)
    · have hmatch : Matches (slot name) [] _ [] _ :=
        .seq (.group ((h _ _ _ _).mpr ⟨hname, rfl⟩))
          (.seq (matches_mark_iff.mpr ⟨isOptional, rfl, rfl⟩) (.seq (hcolon _ _)
            (.seq (matches_beside_iff.mpr (.inl ⟨rfl, rfl⟩)) .stop)))
      simpa [Accepts, Template.colonText] using hmatch
    · have hmatch : Matches (slot name) [] _ [] _ :=
        .seq (.group ((h _ _ _ _).mpr ⟨hname, rfl⟩))
          (.seq (matches_mark_iff.mpr ⟨isOptional, rfl, rfl⟩) (.seq (hcolon _ _)
            (.seq (matches_beside_iff.mpr (.inr ⟨_, _, rfl, hgap, hline, rfl⟩)) .stop)))
      simpa [Accepts, Template.colonText] using hmatch

inductive Edited : List Char → Captures → Prop
  | intro {base gap keyword rest : List Char}
    (hbase : Chained (fun s => Identifier.isValid s = true) base)
    (hgap : gap ≠ [] ∧ ∀ c ∈ gap, Text.isBlank c = true)
    (hkeyword : keyword = "with".toList ∨ keyword = "without".toList)
    (hend : rest.head?.any Text.isWord = false) (hline : '\n' ∉ rest) :
    Edited (base ++ (gap ++ (keyword ++ rest))) [(1, base), (2, keyword), (3, rest)]

theorem spells_keyword : Spells (either (word "with".toList) (word "without".toList))
    fun s => s = "with".toList ∨ s = "without".toList :=
  (spells_word _).either (spells_word _)

theorem isBoundary_keyword_iff {before keyword after : List Char}
    (h : keyword = "with".toList ∨ keyword = "without".toList) :
    IsBoundary (before ++ keyword) after ↔ after.head?.any Text.isWord = false := by
  have hlast : (before ++ keyword).getLast?.any Text.isWord = true := by
    rcases h with rfl | rfl
    · rw [List.getLast?_append_of_ne_nil _ (by decide)]
      decide
    · rw [List.getLast?_append_of_ne_nil _ (by decide)]
      decide
  rw [IsBoundary, hlast, ne_comm, Ne, Bool.not_eq_true]

theorem spells_base : Spells (chain identifier) (Chained fun s => Identifier.isValid s = true) :=
  spells_chain spells_identifier fun s hs => by simp [Template.Opening.isStep, hs]

theorem accepts_mixin_iff {s : List Char} {captures : Captures} :
    Accepts mixin s captures ↔ Edited s captures := by
  constructor
  · intro hmatch
    simp only [Accepts, mixin, matches_seq_iff, matches_group_iff, matches_boundary_iff,
      matches_stop_iff, spells_base _ _ _ _, spells_repeated_one _ _ _ _, spells_keyword _ _ _ _,
      spells_line _ _ _ _] at hmatch
    obtain ⟨base, _, _, _, rfl, rfl, ⟨_, rfl, hbase, rfl⟩, gap, _, _, _, rfl, rfl, ⟨hgap, rfl⟩,
      keyword, _, _, _, rfl, rfl, ⟨_, rfl, hkeyword, rfl⟩, _, _, _, _, rfl, rfl,
      ⟨rfl, rfl, hboundary⟩, rest, _, _, _, rfl, rfl, ⟨_, rfl, hline, rfl⟩, rfl, rfl, -⟩ := hmatch
    rw [isBoundary_keyword_iff hkeyword] at hboundary
    have hend : rest.head?.any Text.isWord = false := by simpa using hboundary
    simpa using Edited.intro hbase hgap hkeyword hend hline
  · rintro @⟨base, gap, keyword, rest, hbase, hgap, hkeyword, hend, hline⟩
    have hboundary : Matches boundary ([] ++ base ++ gap ++ keyword) [] (rest ++ [] ++ []) [] := by
      apply Matches.boundary
      rw [isBoundary_keyword_iff hkeyword, List.append_nil, List.append_nil]
      exact hend
    have hmatch : Matches mixin [] _ [] _ :=
      .seq (.group ((spells_base _ _ _ _).mpr ⟨hbase, rfl⟩))
        (.seq ((spells_repeated_one _ _ _ _).mpr ⟨hgap, rfl⟩)
          (.seq (.group ((spells_keyword _ _ _ _).mpr ⟨hkeyword, rfl⟩))
            (.seq hboundary (.seq (.group ((spells_line _ _ _ _).mpr ⟨hline, rfl⟩)) .stop))))
    simpa [Accepts] using hmatch

end Pattern

end ApiContract
