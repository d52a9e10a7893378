import ApiContract.Path
import ApiContract.Text.Blank
import ApiContract.Text.Letter
import ApiContract.Text.Strip

namespace ApiContract.Template

/-- A line that opens a slot: what it is called, and what stands behind its colon. -/
structure Opening where
  name : List Char
  optional : Bool
  rest : List Char

namespace Opening

def isGap (c : Char) : Bool := c == ' ' || c == '\t'

def takeOptional : List Char → Bool × List Char
  | '?' :: s => (true, s)
  | s => (false, s)

/-- The colon behind a name, then nothing, or a gap and the rest of the line. -/
def afterColon? : List Char → Option (List Char)
  | [':'] => some []
  | ':' :: c :: s =>
    let rest := s.dropWhile isGap
    if isGap c && !rest.contains '\n' then some rest else none
  | _ => none

def behind? (name s : List Char) : Option Opening :=
  let (optional, s) := takeOptional s
  (afterColon? s).map fun rest => ⟨name, optional, rest⟩

def key? (s : List Char) : Option Opening :=
  (Identifier.take? s).bind fun (name, rest) => behind? name rest

def isPathPart (c : Char) : Bool := Identifier.isPart c || c == '.'

def isDigits (s : List Char) : Bool := !s.isEmpty && s.all Char.isDigit

def isStep (s : List Char) : Bool := Identifier.isValid s || isDigits s

/-- The longest text of path characters, if it is a chain of identifiers and of digits. -/
def takePath? (s : List Char) : Option (List Char × List Char) :=
  let path := s.takeWhile isPathPart
  if (Text.pieces '.' path).all isStep then some (path, s.dropWhile isPathPart) else none

def path? (s : List Char) : Option Opening :=
  (takePath? s).bind fun (name, rest) => behind? name rest

theorem length_takeOptional_le (s : List Char) : (takeOptional s).2.length ≤ s.length := by
  unfold takeOptional
  split <;> simp

theorem length_afterColon? {s rest : List Char} (h : afterColon? s = some rest) :
    rest.length < s.length := by
  unfold afterColon? at h
  split at h
  · cases h; simp
  · rename_i c s
    have hd : (s.dropWhile isGap).length ≤ s.length := (List.dropWhile_sublist isGap).length_le
    simp only at h
    split at h
    · cases h
      simp only [List.length_cons]
      omega
    · cases h
  · cases h

theorem length_behind? {name s : List Char} {opening : Opening}
    (h : behind? name s = some opening) : opening.rest.length < s.length := by
  obtain ⟨rest, hr, rfl⟩ := Option.map_eq_some_iff.mp h
  exact Nat.lt_of_lt_of_le (length_afterColon? hr) (length_takeOptional_le s)

theorem length_key? {s : List Char} {opening : Opening} (h : key? s = some opening) :
    opening.rest.length < s.length := by
  obtain ⟨⟨name, rest⟩, ht, hb⟩ := Option.bind_eq_some_iff.mp h
  have hl := congrArg List.length (Identifier.append_of_take? ht)
  have := length_behind? hb
  simp only [List.length_append] at hl
  omega

theorem length_path? {s : List Char} {opening : Opening} (h : path? s = some opening) :
    opening.rest.length < s.length := by
  obtain ⟨⟨name, rest⟩, ht, hb⟩ := Option.bind_eq_some_iff.mp h
  have hl : rest.length ≤ s.length := by
    simp only [takePath?] at ht
    split at ht
    · cases ht
      exact (List.dropWhile_sublist isPathPart).length_le
    · cases ht
  have := length_behind? hb
  omega

end Opening

def isKeyLine (s : List Char) : Bool :=
  match Identifier.take? s with
  | none => false
  | some (_, rest) =>
    match (Opening.takeOptional rest).2 with
    | [':'] => true
    | ':' :: c :: _ => Opening.isGap c
    | _ => false

/-- The first line of a mixin: its base, whether it goes on with removals, and the rest. -/
structure MixinOpening where
  base : List Char
  without : Bool
  rest : List Char

namespace MixinOpening

/-- A word that does not go on behind its last letter. -/
def word? (word s : List Char) : Option (List Char) :=
  match Text.strip? word s with
  | some (c :: rest) => if Text.isWord c then none else some (c :: rest)
  | rest => rest

def with? (s : List Char) : Option (List Char) := word? "with".toList s

def without? (s : List Char) : Option (List Char) := word? "without".toList s

def keyword? (s : List Char) : Option (Bool × List Char) :=
  match with? s with
  | some rest => some (false, rest)
  | none => (without? s).map fun rest => (true, rest)

/-- The base starts with an identifier, and blanks keep it apart from the keyword. -/
def ofChars? (s : List Char) : Option MixinOpening :=
  match Opening.takePath? s with
  | none => none
  | some (base, rest) =>
    if !(base.head?.any Identifier.isStart && rest.head?.any Text.isBlank) then none
    else match keyword? (Text.trimStart rest) with
      | none => none
      | some (without, rest) => if rest.contains '\n' then none else some ⟨base, without, rest⟩

theorem length_strip? {start s rest : List Char} (h : Text.strip? start s = some rest) :
    rest.length + start.length = s.length := by
  rw [← Text.append_of_strip? h, List.length_append, Nat.add_comm]

theorem length_word? {word s rest : List Char} (h : word? word s = some rest) :
    rest.length + word.length = s.length := by
  unfold word? at h
  split at h
  · rename_i hs
    split at h
    · cases h
    · cases h
      exact length_strip? hs
  · exact length_strip? h

theorem length_keyword? {s rest : List Char} {without : Bool}
    (h : keyword? s = some (without, rest)) : rest.length < s.length := by
  simp only [keyword?] at h
  split at h
  · rename_i hw
    cases h
    have : rest.length + 4 = s.length := length_word? hw
    omega
  · obtain ⟨tail, ht, he⟩ := Option.map_eq_some_iff.mp h
    cases he
    have : rest.length + 7 = s.length := length_word? ht
    omega

theorem length_ofChars? {s : List Char} {opening : MixinOpening} (h : ofChars? s = some opening) :
    opening.rest.length < s.length := by
  simp only [ofChars?] at h
  split at h
  · cases h
  · rename_i base rest ht
    have hl : rest.length ≤ s.length := by
      simp only [Opening.takePath?] at ht
      split at ht
      · cases ht
        exact (List.dropWhile_sublist Opening.isPathPart).length_le
      · cases ht
    have hb : (Text.trimStart rest).length ≤ rest.length :=
      (List.dropWhile_sublist Text.isBlank).length_le
    split at h
    · cases h
    · split at h
      · cases h
      · rename_i hk
        have := length_keyword? hk
        split at h
        · cases h
        · cases h
          simp only
          omega

end MixinOpening

end ApiContract.Template
