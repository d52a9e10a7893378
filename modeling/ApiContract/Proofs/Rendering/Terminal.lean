import Mathlib.Data.List.Basic
import ApiContract.Rendering.Terminal

namespace ApiContract

namespace Graphic

def isCode (c : Char) : Bool := c.isDigit || c == ';'

def behindEscape? : List Char → Option (List Char)
  | '\x1b' :: '[' :: s =>
    match s.dropWhile isCode with
    | 'm' :: rest => some rest
    | _ => none
  | _ => none

theorem length_behindEscape? {s rest : List Char} (h : behindEscape? s = some rest) :
    rest.length < s.length := by
  unfold behindEscape? at h
  split at h
  · next s =>
    split at h
    · next hdrop =>
      cases h
      have hle : (s.dropWhile isCode).length ≤ s.length :=
        (List.dropWhile_sublist isCode).length_le
      rw [hdrop, List.length_cons] at hle
      rw [List.length_cons, List.length_cons]
      omega
    · cases h
  · cases h

/-- A text with all escapes deleted, from left to right. -/
def bare : List Char → List Char
  | [] => []
  | c :: s =>
    match _ : behindEscape? (c :: s) with
    | some rest => bare rest
    | none => c :: bare s
termination_by s => s.length
decreasing_by
  · exact length_behindEscape? ‹_›
  · exact Nat.lt_succ_self s.length

def Inert (text : String) : Prop := '\x1b' ∉ text.toList

instance (text : String) : Decidable (Inert text) := inferInstanceAs (Decidable (¬ _ ∈ _))

variable {c : Char} {codes text shown : String} {rest : List Char} {graphic : Graphic}

theorem bare_nil : bare [] = [] := by rw [bare]

theorem bare_cons {s : List Char} (h : c ≠ '\x1b') : bare (c :: s) = c :: bare s := by
  have hnone : behindEscape? (c :: s) = none := by
    unfold behindEscape?
    split
    · next heq =>
      cases heq
      exact absurd rfl h
    · rfl
  rw [bare]
  split
  · next hsome =>
    rw [hnone] at hsome
    cases hsome
  · rfl

theorem bare_append {s : List Char} (h : '\x1b' ∉ s) : bare (s ++ rest) = s ++ bare rest := by
  induction s with
  | nil => rfl
  | cons c s ih =>
    obtain ⟨hc, hs⟩ := not_or.mp (List.mem_cons.not.mp h)
    rw [List.cons_append, bare_cons (Ne.symm hc), ih hs, List.cons_append]

theorem behindEscape?_escape (h : codes.toList.all isCode = true) :
    behindEscape? ((escape codes).toList ++ rest) = some rest := by
  have hescape : (escape codes).toList ++ rest =
      '\x1b' :: '[' :: (codes.toList ++ 'm' :: rest) := by
    simp [escape]
  have hdrop : (codes.toList ++ 'm' :: rest).dropWhile isCode = 'm' :: rest := by
    rw [List.dropWhile_append_of_pos (List.all_eq_true.mp h)]
    rfl
  rw [hescape, behindEscape?, hdrop]
  rfl

theorem bare_escape (h : codes.toList.all isCode = true) :
    bare ((escape codes).toList ++ rest) = bare rest := by
  have hbehind := @behindEscape?_escape codes rest h
  cases hs : (escape codes).toList ++ rest with
  | nil =>
    rw [hs] at hbehind
    cases hbehind
  | cons c s =>
    rw [hs] at hbehind
    rw [bare]
    split
    · next hsome =>
      rw [hbehind] at hsome
      cases hsome
      rfl
    · next hnone =>
      rw [hbehind] at hnone
      cases hnone

/-- A text shows another if that is what is left of it, whatever comes behind. -/
def Shows (shown text : String) : Prop :=
  ∀ rest, bare (shown.toList ++ rest) = text.toList ++ bare rest

def Coded (graphic : Graphic) : Prop :=
  graphic.on.toList.all isCode = true ∧ graphic.off.toList.all isCode = true

instance (graphic : Graphic) : Decidable graphic.Coded := inferInstanceAs (Decidable (_ ∧ _))

theorem shows_inert (h : Inert text) : Shows text text := fun _ => bare_append h

theorem shows_apply (hg : graphic.Coded) (h : Shows shown text) :
    Shows (graphic.apply shown) text := by
  intro rest
  rw [apply, String.toList_append, String.toList_append, List.append_assoc, List.append_assoc,
    bare_escape hg.1, h, bare_escape hg.2]

theorem shows_foldl {graphics : List Graphic} (hg : ∀ graphic ∈ graphics, graphic.Coded)
    (h : Shows shown text) :
    Shows (graphics.foldl (fun text graphic => graphic.apply text) shown) text := by
  induction graphics generalizing shown with
  | nil => exact h
  | cons graphic graphics ih =>
    obtain ⟨hgraphic, hgraphics⟩ := List.forall_mem_cons.mp hg
    rw [List.foldl_cons]
    exact ih hgraphics (shows_apply hgraphic h)

theorem coded_of_tag {tag : Tag} : ∀ graphic ∈ tag.graphics, graphic.Coded := by
  cases tag <;> decide

theorem shows_append {shown' text' : String} (h : Shows shown text) (h' : Shows shown' text') :
    Shows (shown ++ shown') (text ++ text') := by
  intro rest
  rw [String.toList_append, String.toList_append, List.append_assoc, List.append_assoc, h, h']

end Graphic

open Graphic

structure Fragment.Inert (fragment : Fragment) : Prop where
  text : Graphic.Inert fragment.text
  newline : fragment.tag = .newline → fragment.text = "\n"

theorem Fragment.Inert.shows {fragment : Fragment} (h : fragment.Inert) :
    Shows (Renderer.terminal fragment.tag fragment.text) fragment.text := by
  rw [Renderer.terminal]
  split
  · next htag =>
    rw [h.newline htag]
    exact shows_inert (by decide)
  · exact shows_foldl coded_of_tag (shows_inert h.text)

theorem Renderer.shows_terminal {fragments : List Fragment}
    (h : ∀ fragment ∈ fragments, fragment.Inert) :
    Shows (Renderer.terminal.render fragments) (Renderer.plain.render fragments) := by
  induction fragments with
  | nil =>
    rw [render_nil, render_nil]
    exact shows_inert (by decide)
  | cons fragment fragments ih =>
    obtain ⟨hfragment, hfragments⟩ := List.forall_mem_cons.mp h
    have hcons : ∀ renderer : Renderer, renderer.render (fragment :: fragments) =
        renderer fragment.tag fragment.text ++ renderer.render fragments := by
      intro renderer
      rw [render, List.map_cons, String.join_cons]
      rfl
    rw [hcons, hcons]
    exact shows_append hfragment.shows (ih hfragments)

end ApiContract
