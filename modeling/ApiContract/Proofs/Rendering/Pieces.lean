import ApiContract.Proofs.Expression.Lexing
import ApiContract.Proofs.Number.Conversion
import ApiContract.Proofs.Rendering.Terminal
import ApiContract.Proofs.Value.Highlight

namespace ApiContract

open Graphic (Inert Shows bare)

section Pieces

variable {fragment : Fragment} {fragments others : List Fragment} {tag : Tag} {text : String}

instance (fragment : Fragment) : Decidable fragment.Inert :=
  decidable_of_iff (Inert fragment.text ∧ (fragment.tag = .newline → fragment.text = "\n"))
    ⟨fun h => ⟨h.1, h.2⟩, fun h => ⟨h.text, h.newline⟩⟩

theorem Fragment.inert_of_text (ht : tag ≠ .newline) (h : Graphic.Inert text) :
    Fragment.Inert ⟨tag, text⟩ := ⟨h, fun he => absurd he ht⟩

theorem Fragment.inert_newline : Fragment.Inert .newline := by decide

theorem Fragment.inert_blank : Fragment.Inert .blank := by decide

theorem Fragment.inert_tab : Fragment.Inert .tab := by decide

def AllInert (fragments : List Fragment) : Prop := ∀ fragment ∈ fragments, fragment.Inert

@[simp] theorem allInert_nil : AllInert [] := nofun

@[simp] theorem allInert_cons :
    AllInert (fragment :: fragments) ↔ fragment.Inert ∧ AllInert fragments :=
  List.forall_mem_cons

theorem allInert_singleton (h : fragment.Inert) : AllInert [fragment] :=
  List.forall_mem_singleton.mpr h

@[simp] theorem allInert_append :
    AllInert (fragments ++ others) ↔ AllInert fragments ∧ AllInert others :=
  List.forall_mem_append

theorem inert_append {a b : String} (ha : Inert a) (hb : Inert b) : Inert (a ++ b) := by
  rw [Inert, String.toList_append, List.mem_append]
  exact not_or.mpr ⟨ha, hb⟩

theorem inert_intercalate {separator : String} {texts : List String} (hs : Inert separator)
    (h : ∀ text ∈ texts, Inert text) : Inert (separator.intercalate texts) := by
  induction texts with
  | nil => exact (by decide : Inert "")
  | cons text texts ih =>
    obtain ⟨htext, htexts⟩ := List.forall_mem_cons.mp h
    cases texts with
    | nil => exact htext
    | cons next texts =>
      rw [String.intercalate_cons_cons]
      exact inert_append (inert_append htext hs) (ih htexts)

theorem inert_of_digits {n : Nat} : Inert (toString n) := by
  rw [Inert, Nat.toString_eq_ofList_toDigits, String.toList_ofList]
  intro h
  have hdigit := Numeral.isDigit_of_mem_toDigits _ h
  cases hdigit

theorem inert_replicate (n : Nat) {c : Char} (h : c ≠ '\x1b') :
    Inert (String.ofList (List.replicate n c)) := by
  rw [Inert, String.toList_ofList]
  intro hmem
  exact h (List.eq_of_mem_replicate hmem).symm

end Pieces

theorem Json.inert_write (c : Char) : '\x1b' ∉ Text.Escapes.write Json.escapes c := by
  have hkept : ¬ Expression.Lexeme.Kept '\x1b' := by decide
  have hescaped : ¬ Expression.Lexeme.Kept (Expression.Lexeme.escaped '\x1b') := by decide
  intro h
  unfold Text.Escapes.write at h
  obtain ⟨hnone, -, hc⟩ | ⟨d, more, hsome, hmore, hd, -⟩ := Expression.Lexeme.escapes_cases c
  · rw [hnone, Option.getD_none, List.mem_singleton] at h
    exact hkept (h ▸ hc)
  · rw [hsome, Option.getD_some, List.mem_cons, List.mem_cons] at h
    obtain h | h | h := h
    · cases h
    · exact hescaped (h ▸ hd)
    · exact hkept (hmore _ h).2

theorem Number.inert_text (n : Number) : Inert n.text := by
  rw [Inert, text, String.toList_ofList]
  intro h
  obtain hdigit | hmark := mem_chars h
  · cases hdigit
  · simp at hmark

namespace Value

variable {highlight : Option String} {path : String} {depth position : Nat} {mark isLast : Bool}
  {tag : Tag} {text opening closing : String} {fragments : List Fragment}

theorem inert_quotedText (s : String) : Inert (quotedText s) := by
  rw [Inert, quotedText, String.toList_ofList, Json.quoted, Text.quote]
  simp only [List.mem_append, List.mem_cons, List.mem_flatMap, List.not_mem_nil, or_false, not_or,
    not_exists, not_and]
  exact ⟨⟨by decide, fun c _ => Json.inert_write c⟩, by decide⟩

theorem inert_marked (ht : tag ≠ .newline) (h : Inert text) : (marked mark tag text).Inert := by
  apply Fragment.inert_of_text _ h
  split
  · decide
  · exact ht

theorem allInert_indentation : AllInert (indentation depth) := by
  rw [indentation]
  split
  · exact allInert_nil
  · exact allInert_cons.mpr
      ⟨Fragment.inert_of_text (by decide) (inert_replicate (2 * depth) (by decide)), allInert_nil⟩

theorem allInert_comma : AllInert (comma mark isLast) := by
  rw [comma]
  split
  · exact allInert_nil
  · exact allInert_cons.mpr ⟨inert_marked (by decide) (by decide), allInert_nil⟩

theorem allInert_enclosed (ho : Inert opening) (hc : Inert closing) (h : AllInert fragments) :
    AllInert (enclosed mark opening closing depth fragments) := by
  simp only [enclosed, allInert_cons, allInert_append]
  exact ⟨⟨⟨inert_marked (by decide) ho, Fragment.inert_newline, h⟩, allInert_indentation⟩,
    inert_marked (by decide) hc, allInert_nil⟩

theorem allInert_wrapped (h : AllInert fragments) : AllInert (wrapped mark fragments) := by
  simp only [wrapped, allInert_cons, allInert_append]
  exact ⟨⟨inert_marked (by decide) (by decide), h⟩, inert_marked (by decide) (by decide),
    allInert_nil⟩

mutual

theorem allInert_fragmentsAt (highlight : Option String) (path : String) (depth : Nat)
    (outer : Bool) : ∀ value : Value, AllInert (fragmentsAt highlight path depth outer value)
  | null => allInert_singleton (inert_marked (by decide) (by decide))
  | bool b => by
    apply allInert_singleton (inert_marked (by decide) _)
    cases b <;> decide
  | number n => allInert_singleton (inert_marked (by decide) n.inert_text)
  | string s => allInert_singleton (inert_marked (by decide) (inert_quotedText s))
  | id s => by
    simp only [fragmentsAt, allInert_cons, allInert_nil, and_true]
    exact ⟨inert_marked (by decide) (by decide), inert_marked (by decide) (inert_quotedText s),
      inert_marked (by decide) (by decide)⟩
  | type kind => by
    apply allInert_singleton (inert_marked (by decide) _)
    cases kind <;> decide
  | array [] | ordered [] | object [] => by
    rw [fragmentsAt]
    exact allInert_singleton (inert_marked (by decide) (by decide))
  | array (item :: items) => by
    rw [fragmentsAt]
    exact allInert_enclosed (by decide) (by decide)
      (allInert_itemFragments highlight path (depth + 1) _ 0 (item :: items))
  | ordered (item :: items) => by
    rw [fragmentsAt]
    apply allInert_wrapped
    exact allInert_enclosed (by decide) (by decide)
      (allInert_itemFragments highlight path (depth + 1) _ 0 (item :: items))
  | object (field :: fields) => by
    rw [fragmentsAt]
    exact allInert_enclosed (by decide) (by decide)
      (allInert_fieldFragments highlight path (depth + 1) _ (field :: fields))

theorem allInert_itemFragments (highlight : Option String) (path : String) (depth : Nat)
    (mark : Bool) (index : Nat) :
    ∀ items : List Value, AllInert (itemFragments highlight path depth mark index items)
  | [] => allInert_nil
  | item :: items => by
    have hitem := allInert_fragmentsAt highlight (joinedPath path (toString index)) depth mark item
    have hitems := allInert_itemFragments highlight path depth mark (index + 1) items
    simp only [itemFragments, allInert_append, allInert_cons]
    exact ⟨⟨⟨allInert_indentation, hitem⟩, allInert_comma⟩, Fragment.inert_newline, hitems⟩

theorem allInert_fieldFragments (highlight : Option String) (path : String) (depth : Nat)
    (mark : Bool) :
    ∀ fields : List (String × Value), AllInert (fieldFragments highlight path depth mark fields)
  | [] => allInert_nil
  | (key, value) :: fields => by
    have hvalue := allInert_fragmentsAt highlight (joinedPath path key) depth mark value
    have hfields := allInert_fieldFragments highlight path depth mark fields
    simp only [fieldFragments, allInert_append, allInert_cons]
    exact ⟨⟨⟨allInert_indentation, inert_marked (by decide) (inert_quotedText key),
      inert_marked (by decide) (by decide), hvalue⟩, allInert_comma⟩, Fragment.inert_newline,
      hfields⟩

end

end Value

end ApiContract
