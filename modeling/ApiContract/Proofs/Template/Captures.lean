import ApiContract.Proofs.Template.Groups
import ApiContract.Proofs.Template.Mixins
import ApiContract.Proofs.Template.Patterns

namespace ApiContract.Template

open Pattern (Captures captured Slotted Edited Chained)

variable {s : List Char} {captures : Captures} {L : List Char → Prop} {place : Span}

namespace Opening

def ofCaptures (place : Span) (captures : Captures) : Except Fault Opening :=
  match captured 1 captures with
  | some name => .ok ⟨name, (captured 2 captures).isSome, (captured 3 captures).getD []⟩
  | none => .error (.invalidSyntax place)

def ungapped (opening : Opening) : Opening := { opening with rest := opening.rest.dropWhile isGap }

/-- A recogniser finds a slot where a pattern matches, and the slot that the groups make. The gap
behind the colon may be cut in several ways, and the recogniser takes all of it. -/
structure Recognises (pattern : Pattern) (opening? : List Char → Option Opening) : Prop where
  found : ∀ s opening, opening? s = some opening →
    ∃ captures, pattern.Accepts s captures ∧ ∀ place, ofCaptures place captures = .ok opening
  matched : ∀ s captures, pattern.Accepts s captures →
    ∃ opening, (∀ place, ofCaptures place captures = .ok opening) ∧
      opening? s = some opening.ungapped

structure TakesLongest (take? : List Char → Option (List Char × List Char))
    (L : List Char → Prop) : Prop where
  taken : ∀ s name rest, take? s = some (name, rest) → name ++ rest = s ∧ L name
  longest : ∀ name optional rest, L name →
    take? (name ++ (colonText optional ++ rest)) = some (name, colonText optional ++ rest)

theorem behind?_gap (name : List Char) (optional : Bool) {gap rest : List Char}
    (hgap : gap ≠ [] ∧ ∀ c ∈ gap, isGap c = true) (hline : '\n' ∉ rest) :
    behind? name (colonText optional ++ (gap ++ rest)) =
      some ⟨name, optional, rest.dropWhile isGap⟩ := by
  obtain ⟨hne, hall⟩ := hgap
  obtain ⟨c, gap, rfl⟩ := List.exists_cons_of_ne_nil hne
  obtain ⟨hc, hall⟩ := List.forall_mem_cons.mp hall
  have hdrop : (gap ++ rest).dropWhile isGap = rest.dropWhile isGap :=
    List.dropWhile_append_of_pos hall
  have hrest : '\n' ∉ rest.dropWhile isGap := fun h =>
    hline ((List.dropWhile_sublist isGap).subset h)
  rw [behind?, takeOptional_colonText]
  simp [afterColon?, hc, hdrop, hrest]

theorem exists_of_takeOptional (t : List Char) :
    ∃ optional rest, takeOptional t = (optional, rest) ∧
      t = (if optional then ['?'] else []) ++ rest := by
  unfold takeOptional
  split
  · exact ⟨true, _, rfl, rfl⟩
  · exact ⟨false, _, rfl, rfl⟩

theorem afterColon?_eq_some {t rest : List Char} (h : afterColon? t = some rest) :
    t = [':'] ∧ rest = [] ∨ ∃ gap, t = ':' :: (gap ++ rest) ∧
      (gap ≠ [] ∧ ∀ c ∈ gap, isGap c = true) ∧ '\n' ∉ rest := by
  unfold afterColon? at h
  split at h
  · cases h
    exact .inl ⟨rfl, rfl⟩
  · rename_i c tail
    dsimp only at h
    split at h
    · rename_i hgap
      cases h
      obtain ⟨hc, hline⟩ := (Bool.and_eq_true _ _).mp hgap
      refine .inr ⟨c :: tail.takeWhile isGap, ?_, ⟨List.cons_ne_nil _ _, ?_⟩, by simpa using hline⟩
      · rw [List.cons_append, List.takeWhile_append_dropWhile]
      · exact List.forall_mem_cons.mpr ⟨hc, fun d hd => List.mem_takeWhile_imp hd⟩
    · cases h
  · cases h

theorem exists_slotted_of_behind? {name t : List Char} {opening : Opening} (hname : L name)
    (h : behind? name t = some opening) : ∃ captures, Slotted L (name ++ t) captures ∧
      ∀ place, ofCaptures place captures = .ok opening := by
  obtain ⟨optional, colon, htake, rfl⟩ := exists_of_takeOptional t
  rw [behind?, htake] at h
  obtain ⟨rest, hcolon, rfl⟩ := Option.map_eq_some_iff.mp h
  obtain ⟨rfl, rfl⟩ | ⟨gap, rfl, hgap, hline⟩ := afterColon?_eq_some hcolon
  · exact ⟨_, .alone hname, fun place => by cases optional <;> rfl⟩
  · have hslot := @Slotted.beside L name gap rest optional hname hgap hline
    rw [colonText, List.append_assoc] at hslot
    exact ⟨_, hslot, fun place => by cases optional <;> rfl⟩

theorem exists_opening_of_slotted (h : Slotted L s captures) :
    ∃ opening t, (∀ place, ofCaptures place captures = .ok opening) ∧ L opening.name ∧
      s = opening.name ++ (colonText opening.optional ++ t) ∧
      behind? opening.name (colonText opening.optional ++ t) = some opening.ungapped := by
  cases h with
  | @alone name optional hname =>
    refine ⟨⟨name, optional, []⟩, [], fun place => ?_, hname, by rw [List.append_nil], ?_⟩
    · cases optional <;> rfl
    · rw [List.append_nil]
      exact behind?_alone name optional
  | @beside name gap rest optional hname hgap hline =>
    refine ⟨⟨name, optional, rest⟩, gap ++ rest, fun place => ?_, hname, rfl, ?_⟩
    · cases optional <;> rfl
    · exact behind?_gap name optional hgap hline

theorem recognises_slot {name : Pattern} {take? : List Char → Option (List Char × List Char)}
    (h : name.Spells L) (ht : TakesLongest take? L) :
    Recognises name.slot fun s => (take? s).bind fun (name, rest) => behind? name rest := by
  constructor
  · intro s opening hopening
    obtain ⟨⟨name, rest⟩, htake, hbehind⟩ := Option.bind_eq_some_iff.mp hopening
    obtain ⟨rfl, hname⟩ := ht.taken s name rest htake
    obtain ⟨captures, hslot, hread⟩ := exists_slotted_of_behind? hname hbehind
    exact ⟨captures, (Pattern.accepts_slot_iff h).mpr hslot, hread⟩
  · intro s captures hmatch
    obtain ⟨opening, t, hread, hname, rfl, hbehind⟩ :=
      exists_opening_of_slotted ((Pattern.accepts_slot_iff h).mp hmatch)
    refine ⟨opening, hread, ?_⟩
    rw [ht.longest _ _ _ hname]
    exact hbehind

theorem takesLongest_identifier :
    TakesLongest Identifier.take? fun s => Identifier.isValid s = true where
  taken _ _ _ h := ⟨Identifier.append_of_take? h, Identifier.isValid_of_take? h⟩
  longest name optional rest h := by
    apply Identifier.take?_append h
    intro c hc
    rcases head_colonText optional rest c hc with rfl | rfl <;> decide

theorem chained_isStep_iff : Chained (fun s => isStep s = true) s ↔
    (Text.pieces '.' s).all isStep = true := by
  rw [Chained, List.all_eq_true]
  constructor
  · rintro ⟨first, steps, hpieces, hfirst, hsteps⟩
    rw [hpieces]
    exact List.forall_mem_cons.mpr ⟨hfirst, hsteps⟩
  · intro h
    obtain ⟨first, steps, hpieces⟩ := List.exists_cons_of_ne_nil (Text.pieces_ne_nil '.' s)
    rw [hpieces] at h
    obtain ⟨hfirst, hsteps⟩ := List.forall_mem_cons.mp h
    exact ⟨first, steps, hpieces, hfirst, hsteps⟩

theorem isPathPart_of_isStep (h : isStep s = true) {c : Char} (hc : c ∈ s) :
    isPathPart c = true := by
  rw [isPathPart, Bool.or_eq_true]
  left
  obtain hvalid | hdigits := (Bool.or_eq_true _ _).mp h
  · exact Identifier.isPart_of_mem hvalid hc
  · exact Identifier.isPart_of_isDigit
      (List.all_eq_true.mp ((Bool.and_eq_true _ _).mp hdigits).2 c hc)

theorem takePath?_of_steps {path rest : List Char} (h : (Text.pieces '.' path).all isStep = true)
    (hrest : ∀ c ∈ rest.head?, isPathPart c = false) :
    takePath? (path ++ rest) = some (path, rest) := by
  have hparts : ∀ c ∈ path, isPathPart c = true := by
    intro c hc
    rw [← Text.joined_pieces '.' path] at hc
    obtain rfl | ⟨word, hword, hc⟩ := mem_joined hc
    · decide
    · exact isPathPart_of_isStep (List.all_eq_true.mp h word hword) hc
  obtain ⟨htake, hdrop⟩ := Text.takeWhile_append_of_head hparts hrest
  simp only [takePath?, htake, hdrop, h, ↓reduceIte]

theorem takesLongest_path : TakesLongest takePath? (Chained fun s => isStep s = true) where
  taken s name rest h := by
    rw [chained_isStep_iff]
    exact takePath?_eq_some h
  longest name optional rest h := by
    apply takePath?_of_steps (chained_isStep_iff.mp h)
    intro c hc
    rcases head_colonText optional rest c hc with rfl | rfl <;> decide

theorem recognises_entry : Recognises Pattern.entry key? :=
  recognises_slot Pattern.spells_identifier takesLongest_identifier

theorem recognises_addition : Recognises Pattern.addition path? :=
  recognises_slot (Pattern.spells_chain Pattern.spells_step fun _ h => h) takesLongest_path

end Opening

theorem isKeyLine_colon {name t : List Char} (optional : Bool)
    (hname : Identifier.isValid name = true) (ht : ∀ c ∈ t.head?, Opening.isGap c = true) :
    isKeyLine (name ++ (colonText optional ++ t)) = true := by
  rw [isKeyLine, Opening.takesLongest_identifier.longest name optional t hname]
  dsimp only
  rw [takeOptional_colonText]
  cases t with
  | nil => rfl
  | cons c t => exact ht c rfl

theorem exists_colon_of_isKeyLine (h : isKeyLine s = true) :
    ∃ name optional t, s = name ++ (colonText optional ++ t) ∧ Identifier.isValid name = true ∧
      ∀ c ∈ t.head?, Opening.isGap c = true := by
  unfold isKeyLine at h
  split at h
  · cases h
  · rename_i name rest htake
    obtain ⟨optional, colon, hcolon, rfl⟩ := Opening.exists_of_takeOptional rest
    obtain ⟨rfl, hname⟩ := Opening.takesLongest_identifier.taken s name _ htake
    rw [hcolon] at h
    dsimp only at h
    split at h
    · exact ⟨name, optional, [], by simp [colonText], hname, by simp⟩
    · rename_i c t
      refine ⟨name, optional, c :: t, by simp [colonText], hname, ?_⟩
      rintro d ⟨⟩
      exact h
    · cases h

theorem spells_question : Pattern.Spells (Pattern.optional (Pattern.char '?'))
    fun s => ∃ optional : Bool, s = if optional then ['?'] else [] := by
  apply (Pattern.spells_char '?').optional.congr
  intro s
  rw [Bool.exists_bool, or_comm]
  rfl

theorem isKeyLine_iff : isKeyLine s = true ↔ ∃ front after captures, s = front ++ after ∧
    Pattern.keyLine.Matches [] front after captures := by
  constructor
  · intro h
    obtain ⟨name, optional, t, rfl, hname, ht⟩ := exists_colon_of_isKeyLine h
    have hmatch (last after : List Char)
        (hlast : ∀ before,
          (Pattern.either (.one Opening.isGap) .stop).Matches before last after []) :
        Pattern.keyLine.Matches [] (name ++ ((if optional then ['?'] else []) ++ ([':'] ++ last)))
          after [] :=
      .seq ((Pattern.spells_identifier _ _ _ []).mpr ⟨hname, rfl⟩)
        (.seq ((spells_question _ _ _ []).mpr ⟨⟨optional, rfl⟩, rfl⟩)
          (.seq ((Pattern.spells_char ':' _ _ _ []).mpr ⟨rfl, rfl⟩) (hlast _)))
    cases t with
    | nil => exact ⟨_, [], [], by simp [colonText], hmatch [] [] fun _ => .right .stop⟩
    | cons c t =>
      exact ⟨_, t, [], by simp [colonText], hmatch [c] t fun _ => .left (.one (ht c rfl))⟩
  · rintro ⟨front, after, captures, rfl, hmatch⟩
    simp only [Pattern.keyLine, Pattern.matches_seq_iff, Pattern.matches_either_iff,
      Pattern.matches_one_iff, Pattern.matches_stop_iff, Pattern.spells_identifier _ _ _ _,
      spells_question _ _ _ _, Pattern.spells_char _ _ _ _ _] at hmatch
    obtain ⟨name, _, _, _, rfl, rfl, ⟨hname, rfl⟩, _, _, _, _, rfl, rfl, ⟨⟨optional, rfl⟩, rfl⟩,
      _, last, _, _, rfl, rfl, ⟨rfl, rfl⟩, hlast⟩ := hmatch
    have hgap : ∀ c ∈ (last ++ after).head?, Opening.isGap c = true := by
      rcases hlast with ⟨c, hc, rfl, rfl⟩ | ⟨rfl, rfl, rfl⟩
      · rintro d ⟨⟩
        exact hc
      · rintro d ⟨⟩
    simpa [colonText] using isKeyLine_colon optional hname hgap

theorem exists_key?_of_isKeyLine (h : isKeyLine s = true) (hline : '\n' ∉ s) :
    ∃ opening, Opening.key? s = some opening := by
  obtain ⟨name, optional, t, rfl, hname, ht⟩ := exists_colon_of_isKeyLine h
  rw [Opening.key?, Opening.takesLongest_identifier.longest name optional t hname]
  cases t with
  | nil =>
    rw [List.append_nil]
    exact ⟨_, behind?_alone name optional⟩
  | cons c t =>
    have hgap : ∀ d ∈ [c], Opening.isGap d = true := List.forall_mem_singleton.mpr (ht c rfl)
    have ht : '\n' ∉ t := fun hm => hline (by simp [hm])
    exact ⟨_, Opening.behind?_gap name optional ⟨List.cons_ne_nil c [], hgap⟩ ht⟩

namespace MixinOpening

def ofCaptures (place : Span) (captures : Captures) : Except Fault MixinOpening :=
  match captured 1 captures, captured 2 captures, captured 3 captures with
  | some base, some keyword, some rest => .ok ⟨base, keyword == "without".toList, rest⟩
  | _, _, _ => .error (.invalidSyntax place)

theorem chained_isValid_iff : Chained (fun s => Identifier.isValid s = true) s ↔
    (Text.pieces '.' s).all Opening.isStep = true ∧ s.head?.any Identifier.isStart = true := by
  have hs := Text.joined_pieces '.' s
  constructor
  · rintro ⟨first, steps, hpieces, hfirst, hsteps⟩
    rw [hpieces, Pattern.joined_cons] at hs
    have hstep : Opening.isStep first = true := by simp [Opening.isStep, hfirst]
    obtain ⟨c, t, rfl, hc, -⟩ := Identifier.exists_cons_of_isValid hfirst
    rw [hpieces, ← hs]
    exact ⟨List.all_eq_true.mpr (List.forall_mem_cons.mpr ⟨hstep, hsteps⟩), hc⟩
  · rintro ⟨hall, hstart⟩
    obtain ⟨first, steps, hpieces⟩ := List.exists_cons_of_ne_nil (Text.pieces_ne_nil '.' s)
    rw [hpieces] at hall
    rw [hpieces, Pattern.joined_cons] at hs
    obtain ⟨hfirst, hsteps⟩ := List.forall_mem_cons.mp (List.all_eq_true.mp hall)
    refine ⟨first, steps, hpieces, ?_, hsteps⟩
    obtain hvalid | hdigits := (Bool.or_eq_true _ _).mp hfirst
    · exact hvalid
    · cases first with
      | nil => cases hdigits
      | cons c t =>
        -- no digit starts an identifier
        have hdigit := List.all_eq_true.mp ((Bool.and_eq_true _ _).mp hdigits).2 c (by simp)
        rw [← hs] at hstart
        cases (Identifier.isStart_of_isDigit hdigit).symm.trans hstart

theorem word?_eq_some_iff {word rest : List Char} : word? word s = some rest ↔
    s = word ++ rest ∧ rest.head?.any Text.isWord = false := by
  unfold word?
  constructor
  · intro h
    split at h
    · rename_i c tail hstrip
      split at h
      · cases h
      · rename_i hc
        cases h
        exact ⟨Text.strip?_eq_some_iff.mp hstrip, by simpa using hc⟩
    · rename_i hmore
      refine ⟨Text.strip?_eq_some_iff.mp h, ?_⟩
      cases rest with
      | nil => rfl
      | cons c tail => exact (hmore c tail h).elim
  · rintro ⟨rfl, hend⟩
    rw [Text.strip?_append]
    cases rest with
    | nil => rfl
    | cons c tail =>
      have hc : Text.isWord c = false := hend
      simp [hc]

def keywordText (without : Bool) : List Char := if without then "without".toList else "with".toList

theorem keyword?_eq_some_iff {without : Bool} {rest : List Char} :
    keyword? s = some (without, rest) ↔
      s = keywordText without ++ rest ∧ rest.head?.any Text.isWord = false := by
  simp only [keyword?]
  constructor
  · intro h
    split at h
    · rename_i tail hwith
      cases h
      exact word?_eq_some_iff.mp hwith
    · obtain ⟨tail, hwithout, htail⟩ := Option.map_eq_some_iff.mp h
      cases htail
      exact word?_eq_some_iff.mp hwithout
  · rintro ⟨rfl, hend⟩
    cases without with
    | false =>
      have hwith : with? (keywordText false ++ rest) = some rest :=
        word?_eq_some_iff.mpr ⟨rfl, hend⟩
      rw [hwith]
    | true =>
      have hwith : with? (keywordText true ++ rest) = none := with?_without rest
      have hwithout : without? (keywordText true ++ rest) = some rest :=
        word?_eq_some_iff.mpr ⟨rfl, hend⟩
      rw [hwith, hwithout]
      rfl

theorem edited_of_ofChars? {opening : MixinOpening} (h : ofChars? s = some opening) :
    Edited s [(1, opening.base), (2, keywordText opening.without), (3, opening.rest)] := by
  simp only [ofChars?] at h
  split at h
  · cases h
  · rename_i base behind htake
    obtain ⟨rfl, hsteps⟩ := Opening.takePath?_eq_some htake
    split at h
    · cases h
    · rename_i hends
      simp only [Bool.not_eq_true, Bool.not_eq_false', Bool.and_eq_true] at hends
      split at h
      · cases h
      · rename_i without rest hkeyword
        split at h
        · cases h
        · rename_i hline
          cases h
          obtain ⟨htail, hend⟩ := keyword?_eq_some_iff.mp hkeyword
          have hbehind :
              behind = behind.takeWhile Text.isBlank ++ (keywordText without ++ rest) := by
            rw [← htail]
            exact List.takeWhile_append_dropWhile.symm
          have hne : behind.takeWhile Text.isBlank ≠ [] := by
            obtain ⟨c, hc, hblank⟩ := (Option.any_eq_true _ _).mp hends.2
            obtain ⟨tail, rfl⟩ := List.head?_eq_some_iff.mp hc
            rw [List.takeWhile_cons_of_pos hblank]
            exact List.cons_ne_nil _ _
          rw [hbehind]
          refine .intro (chained_isValid_iff.mpr ⟨hsteps, hends.1⟩)
            ⟨hne, fun c hc => List.mem_takeWhile_imp hc⟩ ?_ hend (by simpa using hline)
          cases without with
          | false => exact .inl rfl
          | true => exact .inr rfl

theorem ofChars?_of_edited (h : Edited s captures) :
    ∃ opening, ofChars? s = some opening ∧ ∀ place, ofCaptures place captures = .ok opening := by
  cases h with
  | @intro base gap keyword rest hbase hgap hkeyword hend hline =>
    obtain ⟨without, rfl⟩ : ∃ without, keyword = keywordText without := by
      rcases hkeyword with rfl | rfl
      · exact ⟨false, rfl⟩
      · exact ⟨true, rfl⟩
    obtain ⟨hne, hblanks⟩ := hgap
    obtain ⟨hsteps, hstart⟩ := chained_isValid_iff.mp hbase
    have hmark : ∀ c ∈ (keywordText without ++ rest).head?, Text.isBlank c = false := by
      cases without <;> (rintro c ⟨⟩; rfl)
    obtain ⟨-, htrim⟩ := Text.takeWhile_append_of_head hblanks hmark
    obtain ⟨c, gap, rfl⟩ := List.exists_cons_of_ne_nil hne
    have hblank : Text.isBlank c = true := hblanks c (by simp)
    have hpart : Opening.isPathPart c = false := by
      apply Bool.eq_false_of_not_eq_true
      intro hpart
      cases hblank.symm.trans (not_isBlank_of_isPathPart hpart)
    have htake := @Opening.takePath?_of_steps base (c :: gap ++ (keywordText without ++ rest))
      hsteps (by rintro d ⟨⟩; exact hpart)
    refine ⟨⟨base, without, rest⟩, ?_, fun place => by cases without <;> rfl⟩
    have hkeyword : keyword? (keywordText without ++ rest) = some (without, rest) :=
      keyword?_eq_some_iff.mpr ⟨rfl, hend⟩
    simp only [ofChars?, htake, Text.trimStart, htrim, hkeyword]
    simp [hstart, hblank, hline]

/-- A recogniser of mixins finds one where the pattern matches, and the one that the groups make. -/
theorem ofChars?_eq_some_iff {opening : MixinOpening} : ofChars? s = some opening ↔
    ∃ captures, Pattern.mixin.Accepts s captures ∧
      ∀ place, ofCaptures place captures = .ok opening := by
  simp only [Pattern.accepts_mixin_iff]
  constructor
  · intro h
    refine ⟨_, edited_of_ofChars? h, fun place => ?_⟩
    obtain ⟨base, without, rest⟩ := opening
    cases without <;> rfl
  · rintro ⟨captures, hedited, hread⟩
    obtain ⟨found, hfound, hmade⟩ := ofChars?_of_edited hedited
    cases (hread (Span.line 0)).symm.trans (hmade (Span.line 0))
    exact hfound

theorem exists_of_accepts_mixin (h : Pattern.mixin.Accepts s captures) :
    ∃ opening, ofChars? s = some opening ∧ ∀ place, ofCaptures place captures = .ok opening := by
  exact ofChars?_of_edited (Pattern.accepts_mixin_iff.mp h)

end MixinOpening

end ApiContract.Template
