import ApiContract.Proofs.Document.Setups

namespace ApiContract

def Setup.cleared? : Setup → Option String
  | clear collection => some collection
  | _ => none

namespace Document

def cleared (items : List Setup) : List String := items.filterMap Setup.cleared?

theorem mem_cleared {items : List Setup} {collection : String} :
    collection ∈ cleared items ↔ .clear collection ∈ items := by
  rw [cleared, List.mem_filterMap]
  constructor
  · rintro ⟨item, hm, hc⟩
    cases item with
    | clear other =>
      cases hc
      exact hm
    | _ => cases hc
  · exact fun hm => ⟨_, hm, rfl⟩

theorem mem_touched_of_insertion {items : List Setup} {name collection : String}
    {template : Template} (h : .insertion name collection template ∈ items) :
    collection ∈ touched items := List.mem_filterMap.mpr ⟨_, h, rfl⟩

theorem Orderly.nodup_cleared {items : List Setup} (h : Orderly items) : (cleared items).Nodup := by
  refine List.Pairwise.filterMap _ ?_ h
  intro earlier later hlater c hearlier d hd
  cases later with
  | clear collection =>
    cases hd
    cases earlier with
    | clear other =>
      cases hearlier
      exact fun he => hlater d rfl (congrArg some he)
    | _ => cases hearlier
  | _ => cases hd

theorem Orderly.clear_lt_insertion {items : List Setup} (h : Orderly items) {i j : Nat}
    {name collection : String} {template : Template} (hi : items[i]? = some (.clear collection))
    (hj : items[j]? = some (.insertion name collection template)) : i < j := by
  obtain ⟨hil, hi⟩ := List.getElem?_eq_some_iff.mp hi
  obtain ⟨hjl, hj⟩ := List.getElem?_eq_some_iff.mp hj
  have hne : i ≠ j := by
    rintro rfl
    rw [hi] at hj
    cases hj
  by_contra hle
  have hlt : j < i := by omega
  have hpair := List.pairwise_iff_getElem.mp h j i hjl hil hlt
  rw [hi, hj] at hpair
  exact hpair collection rfl rfl

theorem mem_cleared_expand {items : List Setup} (h : Orderly items) {collection : String} :
    collection ∈ cleared (expand [] items) ↔ collection ∈ touched items := by
  rw [mem_cleared]
  constructor
  · intro hm
    exact mem_touched_expand.mp (List.mem_filterMap.mpr ⟨_, hm, rfl⟩)
  · intro hm
    obtain ⟨before, after, he, -, -⟩ := exists_clear_of_touched h hm
    rw [he]
    exact List.mem_append_right _ (List.mem_cons_self ..)

/-- How a document deals with collections. -/
structure Disciplined (document : Document) : Prop where
  /-- Its own collections are cleared once, and no others are. -/
  cleared : ∀ collection, (Document.cleared document.setups).count collection =
    if collection ∈ document.collections then 1 else 0
  first : ∀ {i j : Nat} {name collection : String} {template : Template},
    document.setups[i]? = some (.clear collection) →
      document.setups[j]? = some (.insertion name collection template) → i < j
  inserted : ∀ {name collection : String} {template : Template},
    .insertion name collection template ∈ document.setups → collection ∈ document.collections
  found : ∀ c ∈ document.cases, ∀ find ∈ c.finds, find.collection ∈ document.collections
  tried : document.cases ≠ []

theorem Derives.disciplined {Declares : List Char → String → Prop} {tokens : List Token}
    {document : Document} (h : Derives Declares tokens document) : Disciplined document := by
  cases h with
  | @intro _ _ _ _ _ _ items cases collections _ _ horderly _ hne hlists hknown =>
    have hexpand := orderly_expand horderly
    refine ⟨fun collection => ?_, hexpand.clear_lt_insertion, fun hm => ?_, hknown, hne⟩
    · have hiff : collection ∈ Document.cleared (expand [] items) ↔ collection ∈ collections :=
        (mem_cleared_expand horderly).trans (hlists.mem collection).symm
      simp only [hexpand.nodup_cleared.count, hiff]
    · exact (hlists.mem _).mpr (mem_touched_expand.mp (mem_touched_of_insertion hm))

/-- Every document that was read clears each of its collections once and before it inserts into it,
and has no business with any other. It has at least one case. -/
theorem ofString_disciplined {text : String} {document : Document}
    (h : ofString text = .ok document) : Disciplined document :=
  (derives_of_ofTokens h).disciplined

def stockedText : String :=
  "# t\n## Setup\n### Clear b\n### x in a\n\t\x7b\x7d\n### y in b\n\t\x7b\x7d\n### z in a\n" ++
    "\t\x7b\x7d\n## c\n### Find in a\n\tz\n"

def stocked : Document :=
  ⟨"t", false, [.clear "b", .clear "a", .insertion "x" "a" (.object []),
      .insertion "y" "b" (.object []), .insertion "z" "a" (.object [])],
    [⟨"c", false, none, .empty, 200, none, [⟨"a", .expression "z"⟩]⟩], ["a", "b"]⟩

theorem ofString_disciplined_of_stocked : ofString stockedText = .ok stocked ∧
    (cleared stocked.setups).count "a" = 1 ∧ (cleared stocked.setups).count "d" = 0 := by
  have hread : ofString stockedText = .ok stocked := by with_unfolding_all rfl
  have hdisciplined := ofString_disciplined hread
  exact ⟨hread, hdisciplined.cleared "a", hdisciplined.cleared "d"⟩

end Document

end ApiContract
