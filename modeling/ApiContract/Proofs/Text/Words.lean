import ApiContract.Proofs.Text.Ends
import ApiContract.Text.Quoted

namespace ApiContract.Text

variable {c : Char} {s t rest : List Char} {word other gap text text' : String}

theorem span_word (h : ' ' ∉ word.toList) :
    (word.toList ++ ' ' :: s).takeWhile (· ≠ ' ') = word.toList ∧
      (word.toList ++ ' ' :: s).dropWhile (· ≠ ' ') = ' ' :: s :=
  takeWhile_append_of_head (fun _ hc => decide_eq_true fun heq => h (heq ▸ hc)) (by simp)

theorem word_append_inj (hword : ' ' ∉ word.toList) (hother : ' ' ∉ other.toList)
    (h : word.toList ++ ' ' :: s = other.toList ++ ' ' :: t) : word = other ∧ s = t := by
  obtain ⟨htake, hdrop⟩ := span_word (s := s) hword
  obtain ⟨htake', hdrop'⟩ := span_word (s := t) hother
  rw [h] at htake hdrop
  exact ⟨String.toList_inj.mp (htake.symm.trans htake'),
    (List.cons.inj (hdrop.symm.trans hdrop')).2⟩

theorem bare_of_mem_hexDigits {n : Nat} (h : c ∈ hexDigits n) : c ≠ '\x22' ∧ c ≠ '\\' := by
  have hdigit : ∀ d < 16, d.digitChar ≠ '\x22' ∧ d.digitChar ≠ '\\' := by decide
  induction n using Nat.strongRecOn with
  | ind n ih =>
    rw [hexDigits, Nat.toDigits_eq_if (by decide)] at h
    split at h
    · next hn => exact List.mem_singleton.mp h ▸ hdigit n hn
    · next hn =>
      obtain h | h := List.mem_append.mp h
      · exact ih (n / 16) (by omega) h
      · exact List.mem_singleton.mp h ▸ hdigit (n % 16) (Nat.mod_lt n (by decide))

/-- A quoted text behind its opening mark, up to the closing one, and what follows that. -/
def closing : List Char → List Char × List Char
  | [] => ([], [])
  | '\x22' :: s => (['\x22'], s)
  | '\\' :: c :: s => ('\\' :: c :: (closing s).1, (closing s).2)
  | c :: s => (c :: (closing s).1, (closing s).2)

theorem closing_bare (h : ∀ c ∈ s, c ≠ '\x22' ∧ c ≠ '\\') :
    closing (s ++ rest) = (s ++ (closing rest).1, (closing rest).2) := by
  induction s with
  | nil => rfl
  | cons c s ih =>
    obtain ⟨hc, hs⟩ := List.forall_mem_cons.mp h
    rw [List.cons_append, closing, ih hs]
    · rfl
    · exact hc.1
    · exact fun _ _ hb _ => hc.2 hb

theorem closing_write : closing (visibleEscapes.write c ++ s) =
    (visibleEscapes.write c ++ (closing s).1, (closing s).2) := by
  unfold Escapes.write visibleEscapes
  split_ifs with hquote hbackslash htab hreturn hline hzero hvisible
  · rfl
  · rfl
  · rfl
  · rfl
  · rfl
  · rfl
  · exact closing_bare (List.forall_mem_singleton.mpr ⟨hquote, hbackslash⟩)
  · have hdigits : ∀ d ∈ '\x7b' :: hexDigits c.toNat ++ ['\x7d'], d ≠ '\x22' ∧ d ≠ '\\' := by
      simp only [List.cons_append, List.forall_mem_cons, List.forall_mem_append]
      exact ⟨by decide, fun d hd => bare_of_mem_hexDigits hd, by decide, List.forall_mem_nil _⟩
    have hfront : (some ("\\u\x7b".toList ++ hexDigits c.toNat ++ ['\x7d'])).getD [c] ++ s =
        '\\' :: 'u' :: ('\x7b' :: hexDigits c.toNat ++ ['\x7d'] ++ s) := rfl
    rw [hfront, closing, closing_bare hdigits]
    rfl

theorem closing_quoted (cs : List Char) :
    closing (cs.flatMap visibleEscapes.write ++ '\x22' :: s) =
      (cs.flatMap visibleEscapes.write ++ ['\x22'], s) := by
  induction cs with
  | nil => rfl
  | cons c cs ih =>
    rw [List.flatMap_cons, List.append_assoc, closing_write, ih, List.append_assoc]

end ApiContract.Text
