import ApiContract.Proofs.Expression.Completeness
import ApiContract.Proofs.Expression.Soundness
import ApiContract.Proofs.Expression.Uniqueness

namespace ApiContract.Expression

variable {context : Context} {ts : List Lexeme} {v : Value}

theorem ofLexemes_eq_ok_iff_reads : ofLexemes context ts = .ok v ↔ Reads (sum context ts) v [] := by
  constructor
  · intro h
    obtain ⟨⟨value, rest, within⟩, hsum, hrest⟩ := bind_eq_ok_iff.mp h
    cases rest with
    | nil =>
      cases hrest
      exact ⟨within, hsum⟩
    | cons => cases hrest
  · rintro ⟨within, hsum⟩
    exact bind_eq_ok_iff.mpr ⟨_, hsum, rfl⟩

theorem ofLexemes_eq_ok_iff : ofLexemes context ts = .ok v ↔
    ∃ tree, Derives context .sum ts tree ∧ tree.evaluate context = .ok v := by
  rw [ofLexemes_eq_ok_iff_reads]
  constructor
  · intro h
    obtain ⟨front, tree, rfl, hfront, htree⟩ := sound .sum ts v [] h
    exact ⟨tree, by simpa using hfront, htree⟩
  · rintro ⟨tree, htree, hv⟩
    rw [← List.append_nil ts]
    exact complete htree v [] hv Layer.ends_nil

theorem Derives.tree_unique {tree tree' : Tree} (h : Derives context .sum ts tree)
    (h' : Derives context .sum ts tree') : tree = tree' :=
  (unique h ts tree' [] [] h' rfl ⟨Layer.ends_nil, nofun⟩ ⟨Layer.ends_nil, nofun⟩).1

/-- Some lexemes have a value exactly if the grammar derives all of them and the tree has that
value, and the grammar derives them in one way at most. -/
theorem ofLexemes_agrees_with_derivation (context : Context) (ts : List Lexeme) :
    (∀ v, ofLexemes context ts = .ok v ↔
      ∃ tree, Derives context .sum ts tree ∧ tree.evaluate context = .ok v) ∧
    ∀ tree tree', Derives context .sum ts tree → Derives context .sum ts tree' → tree = tree' :=
  ⟨fun _ => ofLexemes_eq_ok_iff, fun _ _ => Derives.tree_unique⟩

theorem evaluate_eq_ok_iff {source : String} : evaluate source context = .ok v ↔
    ∃ ts tree, Lexeme.ofChars source.toList = .ok ts ∧ Derives context .sum ts tree ∧
      tree.evaluate context = .ok v := by
  rw [evaluate]
  split
  · next h => simp [h]
  · next ts h => simp [h, ofLexemes_eq_ok_iff]

end ApiContract.Expression
