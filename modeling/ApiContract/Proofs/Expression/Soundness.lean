import ApiContract.Proofs.Expression.Readers

namespace ApiContract.Expression

variable {context : Context} {ts rest : List Lexeme} {u v : Value} {vs : List Value}

/-- Whatever a layer makes of these lexemes is the value of a derivation. -/
def Sound (context : Context) (layer : Layer) (ts : List Lexeme) : Prop :=
  ∀ v rest, Reads (layer.read context ts) v rest →
    ∃ front tree, ts = front ++ rest ∧ Derives context layer front tree ∧
      tree.evaluate context = .ok v

theorem extends_of_extendName {s full : String} {ts rest : List Lexeme}
    (h : (extendName context s ts).pair = (full, rest)) :
    ∃ front, ts = front ++ rest ∧ Extends context s front full := by
  fun_induction extendName context s ts with
  | case1 name part ts opens ih =>
    obtain ⟨front, rfl, hfront⟩ := ih h
    refine ⟨_, rfl, .more ?_ hfront⟩
    simpa [Opens] using opens
  | case2 =>
    cases h
    exact ⟨[], rfl, .done⟩
  | case3 =>
    cases h
    exact ⟨[], rfl, .done⟩

section Parts

variable {n : Nat} (sound : ∀ us : List Lexeme, us.length < n → Sound context .sum us)

include sound

theorem sound_argumentTail (hn : ts.length < n) (h : Reads (argumentTail context ts) vs rest) :
    ∃ front args, ts = front ++ rest ∧ ArgumentTail context front args ∧
      Tree.evaluateAll context args = .ok vs := by
  induction hk : ts.length using Nat.strongRecOn generalizing ts vs with
  | ind k ih =>
    obtain ⟨first, mid, others, hfirst, hothers, rfl⟩ | ⟨last, hlast, rfl⟩ :=
      reads_argumentTail.mp h
    · have hmid := hfirst.length_lt
      rw [List.length_cons] at hmid
      obtain ⟨front, tree, rfl, hfront, htree⟩ := sound ts hn _ _ hfirst
      obtain ⟨more, args, rfl, hmore, hargs⟩ := ih mid.length (by omega) (by omega) hothers rfl
      refine ⟨front ++ .symbol ',' :: more, tree :: args, by simp, .more hfront hmore, ?_⟩
      exact Tree.evaluateAll_cons_eq_ok_iff.mpr ⟨_, _, htree, hargs, rfl⟩
    · obtain ⟨front, tree, rfl, hfront, htree⟩ := sound ts hn _ _ hlast
      refine ⟨front ++ [.symbol ')'], [tree], by simp, .last hfront, ?_⟩
      exact Tree.evaluateAll_cons_eq_ok_iff.mpr ⟨_, _, htree, rfl, rfl⟩

theorem sound_arguments (hn : ts.length ≤ n) (h : Reads (arguments context ts) vs rest) :
    ∃ front args, ts = front ++ rest ∧ Arguments context front args ∧
      Tree.evaluateAll context args = .ok vs := by
  obtain ⟨rfl, rfl⟩ | ⟨us, rfl, -, hus⟩ := reads_arguments.mp h
  · exact ⟨_, [], rfl, .none, rfl⟩
  · obtain ⟨front, args, rfl, hfront, hargs⟩ := sound_argumentTail sound hn hus
    exact ⟨_, args, rfl, .some hfront, hargs⟩

theorem sound_itemTail (hn : ts.length < n) (h : Reads (itemTail context ts) vs rest) :
    ∃ front items, ts = front ++ rest ∧ Items context front items ∧
      Tree.evaluateAll context items = .ok vs := by
  induction hk : ts.length using Nat.strongRecOn generalizing ts vs with
  | ind k ih =>
    obtain ⟨rfl, rfl⟩ | ⟨-, ⟨first, mid, others, hfirst, hothers, rfl⟩ | ⟨last, hlast, rfl⟩⟩ :=
      reads_itemTail.mp h
    · exact ⟨_, [], rfl, .none, rfl⟩
    · have hmid := hfirst.length_lt
      rw [List.length_cons] at hmid
      obtain ⟨front, tree, rfl, hfront, htree⟩ := sound ts hn _ _ hfirst
      obtain ⟨more, items, rfl, hmore, hitems⟩ := ih mid.length (by omega) (by omega) hothers rfl
      refine ⟨front ++ .symbol ',' :: more, tree :: items, by simp, .more hfront hmore, ?_⟩
      exact Tree.evaluateAll_cons_eq_ok_iff.mpr ⟨_, _, htree, hitems, rfl⟩
    · obtain ⟨front, tree, rfl, hfront, htree⟩ := sound ts hn _ _ hlast
      refine ⟨front ++ [.symbol ']'], [tree], by simp, .last hfront, ?_⟩
      exact Tree.evaluateAll_cons_eq_ok_iff.mpr ⟨_, _, htree, rfl, rfl⟩

theorem sound_fieldTail {fields whole : Fields Value} (hn : ts.length < n)
    (h : Reads (fieldTail context fields ts) whole rest) :
    ∃ front members values, ts = front ++ rest ∧ Members context front members ∧
      Tree.evaluateMembers context members = .ok values ∧
      values.foldl (fun fields m => Fields.set m.1 m.2 fields) fields = whole := by
  induction hk : ts.length using Nat.strongRecOn generalizing ts fields with
  | ind k ih =>
    obtain ⟨rfl, rfl⟩ | ⟨t, key, us, value, mid, rfl, hkey, hvalue, hmore⟩ :=
      reads_fieldTail.mp h
    · exact ⟨_, [], [], rfl, .none, rfl, rfl⟩
    · have hmid := hvalue.length_lt
      simp only [List.length_cons] at hn hk
      obtain ⟨front, tree, rfl, hfront, htree⟩ := sound us (by omega) _ _ hvalue
      obtain ⟨others, rfl, hothers⟩ | ⟨rfl, rfl⟩ := hmore
      · rw [List.length_cons] at hmid
        obtain ⟨more, members, values, rfl, hmore, hvalues, rfl⟩ :=
          ih others.length (by omega) (by omega) hothers rfl
        refine ⟨t :: .symbol ':' :: (front ++ .symbol ',' :: more), (key, tree) :: members,
          (key, value) :: values, by simp, .more hkey hfront hmore, ?_, rfl⟩
        exact Tree.evaluateMembers_cons_eq_ok_iff.mpr ⟨_, _, htree, hvalues, rfl⟩
      · refine ⟨t :: .symbol ':' :: (front ++ [.symbol '\x7d']), [(key, tree)], [(key, value)],
          by simp, .last hkey hfront, ?_, rfl⟩
        exact Tree.evaluateMembers_cons_eq_ok_iff.mpr ⟨_, _, htree, rfl, rfl⟩

theorem sound_primary (hn : ts.length ≤ n) : Sound context .primary ts := by
  intro v rest h
  cases reads_primary_iff.mp h with
  | number result =>
    exact ⟨_, _, rfl, .number, operate_eq_ok_iff.mpr result⟩
  | text => exact ⟨_, _, rfl, .text, rfl⟩
  | constant known => exact ⟨_, _, rfl, .constant known, rfl⟩
  | value free reaches bound =>
    obtain ⟨front, rfl, hfront⟩ := extends_of_extendName reaches
    exact ⟨_, _, rfl, .name free hfront, Tree.evaluate_name_eq_ok_iff.mpr bound⟩
  | @call s full helper args v us mid rest free reaches bound reads result =>
    obtain ⟨front, rfl, hfront⟩ := extends_of_extendName reaches
    rw [List.length_cons, List.length_append] at hn
    obtain ⟨behind, trees, rfl, hbehind, htrees⟩ := sound_arguments sound (by omega) reads
    refine ⟨_, _, by simp, .call free hfront hbehind, ?_⟩
    exact Tree.evaluate_call_eq_ok_iff.mpr ⟨helper, args, bound, htrees, result⟩
  | group reads =>
    obtain ⟨front, tree, rfl, hfront, htree⟩ := sound _ hn _ _ reads
    exact ⟨_, _, by simp, .group hfront, htree⟩
  | array reads =>
    obtain ⟨front, items, rfl, hfront, hitems⟩ := sound_itemTail sound hn reads
    exact ⟨_, _, rfl, .array hfront, Tree.evaluate_array_eq_ok_iff.mpr ⟨_, hitems, rfl⟩⟩
  | object reads =>
    obtain ⟨front, members, values, rfl, hfront, hvalues, rfl⟩ := sound_fieldTail sound hn reads
    exact ⟨_, _, rfl, .object hfront, Tree.evaluate_object_eq_ok_iff.mpr ⟨values, hvalues, rfl⟩⟩

end Parts

section Tails

variable {n : Nat} (sound : ∀ us : List Lexeme, us.length < n → ∀ layer, Sound context layer us)

include sound

theorem sound_advances {layer : Layer} {left : Tree} {mid : List Lexeme} (hn : ts.length ≤ n)
    (hleft : left.evaluate context = .ok u) (h : Advances context layer u ts v mid) :
    ∃ front tree, ts = front ++ mid ∧ Step context layer left front tree ∧
      tree.evaluate context = .ok v := by
  cases h with
  | operation operates reads result =>
    obtain ⟨front, tree, rfl, hfront, htree⟩ := sound _ hn _ _ _ reads
    refine ⟨_, _, rfl, .operation operates hfront, ?_⟩
    exact Tree.evaluate_binary_eq_ok_iff.mpr ⟨_, _, hleft, htree, result⟩
  | member uncalled result =>
    refine ⟨[_, _], _, rfl, .member (Tree.not_isOpen_of_evaluate hleft), ?_⟩
    exact Tree.evaluate_member_eq_ok_iff.mpr ⟨_, hleft, result⟩
  | method reads result =>
    simp only [List.length_cons] at hn
    obtain ⟨front, args, rfl, hfront, hargs⟩ :=
      sound_arguments (fun us hus => sound us hus .sum) (by omega) reads
    refine ⟨_, _, rfl, .method (Tree.not_isOpen_of_evaluate hleft) hfront, ?_⟩
    exact Tree.evaluate_method_eq_ok_iff.mpr ⟨_, _, hleft, hargs, result⟩
  | element reads result =>
    obtain ⟨front, tree, rfl, hfront, htree⟩ := sound _ hn .sum _ _ reads
    refine ⟨_, _, by simp, .element hfront, ?_⟩
    exact Tree.evaluate_element_eq_ok_iff.mpr ⟨_, _, hleft, htree, result⟩

theorem sound_tail {layer : Layer} {left : Tree} {first : List Lexeme} (hn : ts.length ≤ n)
    (hfirst : Derives context layer first left) (hleft : left.evaluate context = .ok u)
    (h : Reads (layer.tail context u ts) v rest) :
    ∃ front tree, ts = front ++ rest ∧ Derives context layer (first ++ front) tree ∧
      tree.evaluate context = .ok v := by
  induction hk : ts.length using Nat.strongRecOn generalizing ts u first left with
  | ind k ih =>
    obtain ⟨whole, mid, step, reads⟩ | ⟨-, rfl, rfl⟩ := reads_tail_iff.mp h
    · obtain ⟨front, tree, rfl, hstep, htree⟩ := sound_advances sound hn hleft step
      have hpos : 0 < front.length := hstep.length_pos
      rw [List.length_append] at hn hk
      obtain ⟨behind, last, rfl, hlast, hvalue⟩ :=
        ih mid.length (by omega) (by omega) (.behind hfirst hstep) htree reads rfl
      exact ⟨front ++ behind, last, by simp, by simpa using hlast, hvalue⟩
    · exact ⟨[], left, rfl, by simpa using hfirst, hleft⟩

theorem Sound.of_below {layer : Layer} (h : layer ≠ .signed) (hp : layer ≠ .primary)
    (lifts : ∀ front tree, Derives context layer.below front tree →
      Derives context layer front tree)
    (hn : ts.length ≤ n) (below : Sound context layer.below ts) : Sound context layer ts := by
  intro v rest hr
  obtain ⟨u, mid, hu, htail⟩ := (reads_iff_tail h hp).mp hr
  obtain ⟨front, left, rfl, hfront, hleft⟩ := below _ _ hu
  rw [List.length_append] at hn
  obtain ⟨behind, tree, rfl, htree, hvalue⟩ :=
    sound_tail sound (by omega) (lifts _ _ hfront) hleft htail
  exact ⟨front ++ behind, tree, by simp, htree, hvalue⟩

theorem sound_signed (hn : ts.length ≤ n) (access : Sound context .access ts) :
    Sound context .signed ts := by
  intro v rest hr
  obtain ⟨us, u, rfl, hu, result⟩ | ⟨us, u, rfl, hu, rfl⟩ | h := reads_signed.mp hr
  · obtain ⟨front, tree, rfl, hfront, htree⟩ := sound us hn .signed _ _ hu
    exact ⟨_, _, rfl, .negation hfront, Tree.evaluate_negation_eq_ok_iff.mpr ⟨_, htree, result⟩⟩
  · obtain ⟨front, tree, rfl, hfront, htree⟩ := sound us hn .signed _ _ hu
    exact ⟨_, _, rfl, .complement hfront, Tree.evaluate_complement_eq_ok_iff.mpr ⟨_, htree, rfl⟩⟩
  · obtain ⟨front, tree, rfl, hfront, htree⟩ := access _ _ h
    exact ⟨front, tree, rfl, .access hfront, htree⟩

end Tails

/-- What the readers take in has a derivation with the value that they find. -/
theorem sound (layer : Layer) (ts : List Lexeme) : Sound context layer ts := by
  induction hk : ts.length using Nat.strongRecOn generalizing ts layer with
  | ind k ih =>
    subst hk
    have shorter (us : List Lexeme) (hus : us.length < ts.length) (layer : Layer) :
        Sound context layer us := ih us.length hus layer us rfl
    have primary : Sound context .primary ts :=
      sound_primary (fun us hus => shorter us hus .sum) (Nat.le_refl _)
    have access : Sound context .access ts :=
      .of_below shorter nofun nofun (fun _ _ => .primary) (Nat.le_refl _) primary
    have signed : Sound context .signed ts := sound_signed shorter (Nat.le_refl _) access
    have product : Sound context .product ts :=
      .of_below shorter nofun nofun (fun _ _ => .signed) (Nat.le_refl _) signed
    cases layer with
    | primary => exact primary
    | access => exact access
    | signed => exact signed
    | product => exact product
    | sum => exact .of_below shorter nofun nofun (fun _ _ => .product) (Nat.le_refl _) product

end ApiContract.Expression
