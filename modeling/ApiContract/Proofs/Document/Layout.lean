import ApiContract.Proofs.Document.Sections

namespace ApiContract

theorem Renderer.toList_render_plain (fragments : List Fragment) :
    (Renderer.plain.render fragments).toList = Template.chars fragments := by
  induction fragments with
  | nil => rfl
  | cons fragment fragments ih =>
    have happ := Renderer.render_append .plain [fragment] fragments
    rw [List.singleton_append] at happ
    rw [happ, String.toList_append, ih]
    simp [Renderer.render, Renderer.plain]

namespace Document

open Template (chars)

def caption (name : String) (skip : Bool) : List Char :=
  name.toList ++ if skip then " (skip)".toList else []

def postText (url : Option String) : List Char :=
  "Post".toList ++ (url.map fun url => ' ' :: url.toList).getD []

def outText (status : Nat) : List Char :=
  "Out".toList ++ if status = 200 then [] else ' ' :: (toString status).toList

def setupSection : Setup → Section
  | .clear collection => ⟨true, 3, "Clear ".toList ++ collection.toList, []⟩
  | .insertion name collection template =>
    ⟨true, 3, name.toList ++ " in ".toList ++ collection.toList, template.texts⟩
  | .declaration name template => ⟨true, 3, name.toList ++ " is".toList, template.texts⟩

def postSections (c : Case) : List Section :=
  if c.url.isSome || !c.post.isEmpty then [⟨false, 3, postText c.url, c.post.texts⟩] else []

def outSections (c : Case) : List Section :=
  (c.out.map fun template => ⟨false, 3, outText c.status, template.texts⟩).toList

def findSection (find : Find) : Section :=
  ⟨false, 3, "Find in ".toList ++ find.collection.toList, find.template.texts⟩

def caseSections (c : Case) : List Section :=
  ⟨true, 2, caption c.name c.skip, []⟩ ::
    (postSections c ++ (outSections c ++ c.finds.map findSection))

def sections (document : Document) : List Section :=
  ⟨false, 1, caption document.name document.skip, []⟩ :: ⟨true, 2, "Setup".toList, []⟩ ::
    (document.setups.map setupSection ++ document.cases.flatMap caseSections)

theorem flat_cons (row : List Char) (rows : List (List Char)) :
    Text.flat (row :: rows) = row ++ '\n' :: Text.flat rows := by
  simp [Text.flat]

theorem chars_blockFragments (template : Template) :
    chars (blockFragments template) = Text.flat (template.texts.map Template.tabbed) := by
  unfold blockFragments Template.texts
  induction template.rows with
  | nil => rfl
  | cons row rows ih =>
    rw [List.flatMap_cons, Template.chars_append, ih, List.map_cons, List.map_cons, flat_cons]
    simp [Template.tabbed, Fragment.tab, Fragment.newline]

theorem chars_mark (level : Nat) : chars (mark level) = List.replicate level '#' ++ [' '] := by
  simp [mark, Fragment.blank]

theorem chars_skipMark (name : String) (skip : Bool) (tag : Tag) :
    chars (⟨tag, name⟩ :: skipMark skip) = caption name skip := by
  cases skip <;> simp [skipMark, caption]

theorem chars_setupFragments (setup : Setup) :
    chars (setupFragments setup) = Text.flat (setupSection setup).texts := by
  cases setup <;>
    simp [setupFragments, setupSection, Section.texts, Section.heading, chars_mark,
      chars_blockFragments, Fragment.newline, Fragment.blank, Text.flat]

theorem chars_postFragments (c : Case) :
    chars (postFragments c) = Text.flat ((postSections c).flatMap Section.texts) := by
  unfold postFragments postSections
  cases c.url with
  | none =>
    cases c.post.isEmpty
    · simp [Section.texts, Section.heading, postText, flat_cons, chars_mark,
        chars_blockFragments, Fragment.newline]
    · rfl
  | some url =>
    simp [Section.texts, Section.heading, postText, flat_cons, chars_mark,
      chars_blockFragments, Fragment.newline, Fragment.blank]

theorem chars_outFragments (c : Case) :
    chars (outFragments c) = Text.flat ((outSections c).flatMap Section.texts) := by
  unfold outFragments outSections
  cases c.out with
  | none => rfl
  | some template =>
    by_cases h : c.status = 200 <;>
      simp [h, Section.texts, Section.heading, outText, flat_cons, chars_mark,
        chars_blockFragments, Fragment.newline, Fragment.blank]

theorem chars_findFragments (find : Find) :
    chars (findFragments find) = Text.flat (findSection find).texts := by
  simp [findFragments, findSection, Section.texts, Section.heading, flat_cons, chars_mark,
    chars_blockFragments, Fragment.newline, Fragment.blank]

theorem chars_flatMap {α : Type} {fragments : α → List Fragment} {texts : α → List (List Char)}
    (h : ∀ a, chars (fragments a) = Text.flat (texts a)) (as : List α) :
    chars (as.flatMap fragments) = Text.flat (as.flatMap texts) := by
  induction as with
  | nil => rfl
  | cons a as ih =>
    rw [List.flatMap_cons, List.flatMap_cons, Template.chars_append, Text.flat_append, h, ih]

theorem flat_caption (level : Nat) (name : String) (skip : Bool) :
    Text.flat (Section.texts ⟨true, level, caption name skip, []⟩) =
      '\n' :: (List.replicate level '#' ++ ' ' :: (caption name skip ++ ['\n'])) := by
  simp [Section.texts, Section.heading, Text.flat]

theorem chars_caseFragments (c : Case) :
    chars (caseFragments c) = Text.flat ((caseSections c).flatMap Section.texts) := by
  have hfinds : chars (c.finds.flatMap findFragments) =
      Text.flat ((c.finds.map findSection).flatMap Section.texts) := by
    rw [List.flatMap_map]
    exact chars_flatMap chars_findFragments c.finds
  have htitle : chars (Fragment.newline :: mark 2 ++ ⟨.caption, c.name⟩ :: skipMark c.skip ++
      [Fragment.newline]) = Text.flat (Section.texts ⟨true, 2, caption c.name c.skip, []⟩) := by
    rw [flat_caption, Template.chars_append, Template.chars_append, chars_skipMark]
    simp [Fragment.newline, chars_mark]
  rw [caseFragments, Template.chars_append, Template.chars_append, Template.chars_append, htitle,
    chars_postFragments, chars_outFragments, hfinds, caseSections, List.flatMap_cons,
    List.flatMap_append, List.flatMap_append, Text.flat_append, Text.flat_append,
    Text.flat_append, List.append_assoc, List.append_assoc]

theorem chars_fragments (document : Document) :
    chars document.fragments = Text.flat (document.sections.flatMap Section.texts) := by
  have hsetups : chars (document.setups.flatMap setupFragments) =
      Text.flat ((document.setups.map setupSection).flatMap Section.texts) := by
    rw [List.flatMap_map]
    exact chars_flatMap chars_setupFragments document.setups
  have hcases : chars (document.cases.flatMap caseFragments) =
      Text.flat ((document.cases.flatMap caseSections).flatMap Section.texts) := by
    rw [List.flatMap_assoc]
    exact chars_flatMap chars_caseFragments document.cases
  have htitle : chars (mark 1 ++ ⟨.title, document.name⟩ :: skipMark document.skip ++
      [Fragment.newline]) =
        Text.flat (Section.texts ⟨false, 1, caption document.name document.skip, []⟩) := by
    rw [Template.chars_append, Template.chars_append, chars_skipMark]
    simp [Fragment.newline, chars_mark, Section.texts, Section.heading, Text.flat]
  rw [fragments, Template.chars_append, Template.chars_append, Template.chars_append, htitle,
    hsetups, hcases, sections, List.flatMap_cons, List.flatMap_cons, List.flatMap_append,
    Text.flat_append, Text.flat_append, Text.flat_append, List.append_assoc, List.append_assoc]
  rfl

/-- The plain rendering is the lines of the sections and nothing else. -/
theorem toList_render_plain (document : Document) :
    (document.render .plain).toList = Text.flat (document.sections.flatMap Section.texts) := by
  have hchars := Renderer.toList_render_plain document.fragments
  rw [chars_fragments] at hchars
  have hlast : (Text.flat (document.sections.flatMap Section.texts)).getLast? = some '\n' := by
    apply Text.getLast?_flat
    intro he
    rw [sections, List.flatMap_cons, List.append_eq_nil_iff] at he
    exact absurd he.1 (by simp [Section.texts])
  rw [render, endLine, hchars, hlast]
  simpa using hchars

end Document

end ApiContract
