import ApiContract.Comparison
import ApiContract.Proofs.Number.Conversion
import ApiContract.Proofs.Path.Spelling
import ApiContract.Proofs.Text.Words

namespace ApiContract

namespace Value

variable {v w : Value} {s t : List Char} {text other : String}

/-- What messages call a value: a scalar by its text, anything else by the name of its type. -/
inductive Called : Value → String → Prop
  | null : Called .null "null"
  | yes : Called (.bool true) "true"
  | no : Called (.bool false) "false"
  | number (n : Number) : Called (.number n) n.text
  | string (text : String) : Called (.string text) (Text.shown text)
  | id (text : String) : Called (.id text) (Text.shown text)
  | type (kind : Kind) : Called (.type kind) ("type " ++ kind.name)
  | array (items : List Value) : Called (.array items) "array"
  | ordered (items : List Value) : Called (.ordered items) "array"
  | object (fields : Fields Value) : Called (.object fields) "object"

/-- The first word of a text: a quoted one goes on to its closing mark, and the name of a kind has
another word before it. -/
def firstWord : List Char → List Char × List Char
  | '\x22' :: s => ('\x22' :: (Text.closing s).1, (Text.closing s).2)
  | 't' :: 'y' :: 'p' :: 'e' :: ' ' :: s =>
    ("type ".toList ++ s.takeWhile (· ≠ ' '), s.dropWhile (· ≠ ' '))
  | s => (s.takeWhile (· ≠ ' '), s.dropWhile (· ≠ ' '))

theorem firstWord_shown (text : String) :
    firstWord ((Text.shown text).toList ++ ' ' :: s) = ((Text.shown text).toList, ' ' :: s) := by
  have hquoted : (Text.shown text).toList ++ ' ' :: s =
      '\x22' :: (text.toList.flatMap Text.visibleEscapes.write ++ '\x22' :: ' ' :: s) := by
    simp [Text.shown, Text.quote]
  rw [hquoted, firstWord, Text.closing_quoted]
  simp [Text.shown, Text.quote]

theorem firstWord_plain (hblank : ' ' ∉ text.toList) (hquote : '\x22' ∉ text.toList)
    (htype : text ≠ "type") : firstWord (text.toList ++ ' ' :: s) = (text.toList, ' ' :: s) := by
  obtain ⟨htake, hdrop⟩ := Text.span_word (s := s) hblank
  rw [firstWord, htake, hdrop]
  · intro rest h
    cases hchars : text.toList with
    | nil =>
      rw [hchars] at h
      cases h
    | cons c more =>
      rw [hchars] at h hquote
      obtain ⟨rfl, -⟩ := List.cons.inj h
      exact hquote (.head _)
  · intro rest h
    have hword : text.toList ++ ' ' :: s = "type".toList ++ ' ' :: rest := h
    exact htype (Text.word_append_inj hblank (by decide) hword).1

theorem firstWord_number (n : Number) :
    firstWord (n.text.toList ++ ' ' :: s) = (n.text.toList, ' ' :: s) := by
  have hmark : ∀ c, c.isDigit = false → c ∉ ['-', '.', 'e', '+'] → c ∉ n.text.toList := by
    intro c hdigit hmark hc
    rw [Number.text, String.toList_ofList] at hc
    obtain h | h := Number.mem_chars hc
    · rw [hdigit] at h
      cases h
    · exact hmark h
  apply firstWord_plain (hmark ' ' rfl (by decide)) (hmark '\x22' rfl (by decide))
  intro h
  exact hmark 't' rfl (by decide) (h ▸ by decide)

theorem Called.firstWord (h : v.Called text) :
    firstWord (text.toList ++ ' ' :: s) = (text.toList, ' ' :: s) := by
  have hplain : ∀ word : String, ' ' ∉ word.toList ∧ '\x22' ∉ word.toList ∧ word ≠ "type" →
      Value.firstWord (word.toList ++ ' ' :: s) = (word.toList, ' ' :: s) :=
    fun word h => firstWord_plain h.1 h.2.1 h.2.2
  cases h with
  | number n => exact firstWord_number n
  | string text | id text => exact firstWord_shown text
  | type kind => cases kind <;> rfl
  | _ => exact hplain _ (by decide)

end Value

namespace Conflict

open Value (Called)

variable {c d : Conflict} {s t : List Char} {text other : String}

/-- Conflicts of one sort about the same, but for values that messages call the same. -/
inductive Alike : Conflict → Conflict → Prop
  | notInstance {kind : Kind} {found other : Value} {text : String} (called : found.Called text)
    (called' : other.Called text) : Alike (.notInstance kind found) (.notInstance kind other)
  | notArray {found other : Value} {text : String} (called : found.Called text)
    (called' : other.Called text) : Alike (.notArray found) (.notArray other)
  | wrongLength (expected found : Nat) :
    Alike (.wrongLength expected found) (.wrongLength expected found)
  | tooShort (expected found : Nat) : Alike (.tooShort expected found) (.tooShort expected found)
  | notObject {found other : Value} {text : String} (called : found.Called text)
    (called' : other.Called text) : Alike (.notObject found) (.notObject other)
  | unequal {expected wanted found other : Value} {name text : String}
    (asked : expected.Called name) (asked' : wanted.Called name) (called : found.Called text)
    (called' : other.Called text) : Alike (.unequal expected found) (.unequal wanted other)
  | missingKey (key : String) : Alike (.missingKey key) (.missingKey key)
  | unexpectedKey (key : String) : Alike (.unexpectedKey key) (.unexpectedKey key)
  | unmatched (index : Nat) : Alike (.unmatched index) (.unmatched index)

def openings : List String :=
  ["Missing", "Unexpected", "Unordered", "Expected an instance", "Expected an object",
    "Expected an array but", "Expected an array with"]

def opening (s : List Char) : Nat := (openings.map fun o => decide (o.toList <+: s)).idxOf true

end Conflict

end ApiContract
