import ApiContract.Proofs.Document.Regular
import ApiContract.Proofs.Rendering.Pieces

namespace ApiContract

open Graphic (Inert bare)

theorem Renderer.bare_render_terminal {fragments : List Fragment} (h : AllInert fragments) :
    bare (terminal.render fragments).toList = (plain.render fragments).toList := by
  have hshows := shows_terminal h []
  rwa [List.append_nil, Graphic.bare_nil, List.append_nil] at hshows

namespace Template

def strings : Template → List String
  | expression source => [source]
  | array _ => []
  | object entries => entries.map Prod.fst
  | mixin base removals additions =>
    base.text :: (removals.map Path.text ++ additions.map fun addition => addition.1.text)

abbrev Unescaped (t : Template) : Prop := Throughout (fun t => ∀ s ∈ t.strings, Inert s) t

def RowsInert (rows : List Row) : Prop := ∀ row ∈ rows, AllInert row

variable {name : String} {optional isMixin : Bool} {row mark : Row} {rows others : List Row}

theorem rowsInert_nil : RowsInert [] := nofun

@[simp] theorem rowsInert_cons : RowsInert (row :: rows) ↔ AllInert row ∧ RowsInert rows :=
  List.forall_mem_cons

theorem rowsInert_singleton (h : AllInert row) : RowsInert [row] := List.forall_mem_singleton.mpr h

theorem RowsInert.append (h : RowsInert rows) (h' : RowsInert others) :
    RowsInert (rows ++ others) :=
  List.forall_mem_append.mpr ⟨h, h'⟩

theorem RowsInert.indented (h : RowsInert rows) : RowsInert (rows.map indented) := by
  intro row hrow
  obtain ⟨inner, hinner, rfl⟩ := List.mem_map.mp hrow
  exact allInert_cons.mpr ⟨Fragment.inert_tab, h inner hinner⟩

theorem RowsInert.bulleted (h : RowsInert rows) : RowsInert (bulleted isMixin rows) := by
  cases rows with
  | nil => exact rowsInert_nil
  | cons row rows =>
    obtain ⟨hrow, hrows⟩ := rowsInert_cons.mp h
    rw [Template.bulleted, rowsInert_cons, allInert_cons, allInert_cons]
    refine ⟨⟨by decide, Fragment.inert_tab, hrow⟩, ?_⟩
    rw [continued]
    split
    · exact hrows
    · exact hrows.indented

theorem allInert_slotMark (h : Inert name) : AllInert (slotMark name optional) := by
  have hcolon : Fragment.Inert ⟨.operator, ":"⟩ := by decide
  have hkey : Fragment.Inert ⟨.key, name⟩ := Fragment.inert_of_text (by decide) h
  cases optional with
  | false => exact allInert_cons.mpr ⟨hkey, allInert_singleton hcolon⟩
  | true =>
    have hoptional : Fragment.Inert ⟨.operator, "?"⟩ := by decide
    exact allInert_cons.mpr ⟨hkey, allInert_cons.mpr ⟨hoptional, allInert_singleton hcolon⟩⟩

theorem allInert_beside (hm : AllInert mark) (hr : AllInert row) :
    AllInert (mark ++ Fragment.blank :: row) :=
  allInert_append.mpr ⟨hm, allInert_cons.mpr ⟨Fragment.inert_blank, hr⟩⟩

theorem RowsInert.slotRows (hn : Inert name) (h : RowsInert rows) :
    RowsInert (slotRows name optional isMixin rows) := by
  have hmark := @allInert_slotMark name optional hn
  unfold Template.slotRows
  split
  · next row =>
    exact rowsInert_singleton (allInert_beside hmark (rowsInert_cons.mp h).1)
  · next row rows _ =>
    obtain ⟨hrow, hrows⟩ := rowsInert_cons.mp h
    split
    · exact rowsInert_cons.mpr ⟨allInert_beside hmark hrow, hrows⟩
    · exact rowsInert_cons.mpr ⟨hmark, h.indented⟩
  · exact rowsInert_singleton hmark

theorem allInert_removalsRow {removals : List Path} (h : ∀ path ∈ removals, Inert path.text) :
    AllInert (removalsRow removals) := by
  rw [removalsRow]
  split
  · exact allInert_nil
  · have hpaths : Inert (", ".intercalate (removals.map Path.text)) := by
      apply inert_intercalate (by decide)
      exact List.forall_mem_map.mpr h
    simp only [allInert_cons]
    exact ⟨Fragment.inert_blank, by decide, Fragment.inert_blank,
      Fragment.inert_of_text (by decide) hpaths, allInert_nil⟩

theorem allInert_mixinMark {base : Path} {removals : List Path} {adds : Bool}
    (hb : Inert base.text) (h : ∀ path ∈ removals, Inert path.text) :
    AllInert (mixinMark base removals adds) := by
  have hsemicolon : Fragment.Inert ⟨.operator, ";"⟩ := by decide
  have hwith : Fragment.Inert ⟨.keyword, "with"⟩ := by decide
  rw [mixinMark, allInert_append, allInert_cons]
  refine ⟨⟨Fragment.inert_of_text (by decide) hb, allInert_removalsRow h⟩, ?_⟩
  split
  · apply allInert_append.mpr
    refine ⟨?_, allInert_cons.mpr ⟨Fragment.inert_blank, allInert_singleton hwith⟩⟩
    split
    · exact allInert_nil
    · exact allInert_singleton hsemicolon
  · exact allInert_nil

theorem RowsInert.mixinRows (hm : AllInert mark) (h : RowsInert rows) :
    RowsInert (mixinRows mark rows) := by
  unfold Template.mixinRows
  split
  · exact rowsInert_singleton (allInert_beside hm (rowsInert_cons.mp h).1)
  · exact rowsInert_cons.mpr ⟨hm, h.indented⟩

mutual

theorem rowsInert_rows : ∀ t : Template, t.Unescaped → RowsInert t.rows
  | expression source, h => by
    have hsource : Inert source := h.here source List.mem_cons_self
    rw [rows]
    refine rowsInert_singleton (allInert_singleton (Fragment.inert_of_text ?_ hsource))
    rw [sourceTag]
    split
    · decide
    · decide
    · split <;> decide
  | array [], _ | object [], _ => by
    rw [rows]
    exact rowsInert_singleton (allInert_singleton (by decide))
  | array (item :: items), h => by
    rw [rows]
    exact rowsInert_itemRows (item :: items) fun _ => h.parts
  | object (entry :: entries), h => by
    rw [rows]
    apply rowsInert_entryRows (entry :: entries)
    · exact List.forall_mem_map.mp h.here
    · exact fun entry hentry => h.parts (List.mem_map_of_mem hentry)
  | mixin base removals additions, h => by
    obtain ⟨hbase, hpaths⟩ := List.forall_mem_cons.mp h.here
    obtain ⟨hremovals, hadditions⟩ := List.forall_mem_append.mp hpaths
    rw [rows]
    apply RowsInert.mixinRows (allInert_mixinMark hbase (List.forall_mem_map.mp hremovals))
    apply rowsInert_additionRows additions (List.forall_mem_map.mp hadditions)
    exact fun addition haddition => h.parts (List.mem_map_of_mem haddition)

theorem rowsInert_itemRows : ∀ items : List Template, (∀ item ∈ items, item.Unescaped) →
    RowsInert (itemRows items)
  | [], _ => rowsInert_nil
  | item :: items, h => by
    obtain ⟨hitem, hitems⟩ := List.forall_mem_cons.mp h
    rw [itemRows]
    exact (rowsInert_rows item hitem).bulleted.append (rowsInert_itemRows items hitems)

theorem rowsInert_entryRows : ∀ entries : List (String × Slot Template),
    (∀ entry ∈ entries, Inert entry.1) → (∀ entry ∈ entries, entry.2.value.Unescaped) →
      RowsInert (entryRows entries)
  | [], _, _ => rowsInert_nil
  | (key, ⟨optional, value⟩) :: entries, hk, h => by
    obtain ⟨hkey, hkeys⟩ := List.forall_mem_cons.mp hk
    obtain ⟨hvalue, hvalues⟩ := List.forall_mem_cons.mp h
    rw [entryRows]
    exact (RowsInert.slotRows hkey (rowsInert_rows value hvalue)).append
      (rowsInert_entryRows entries hkeys hvalues)

theorem rowsInert_additionRows : ∀ additions : List (Path × Slot Template),
    (∀ addition ∈ additions, Inert addition.1.text) →
      (∀ addition ∈ additions, addition.2.value.Unescaped) → RowsInert (additionRows additions)
  | [], _, _ => rowsInert_nil
  | (path, ⟨optional, value⟩) :: additions, hp, h => by
    obtain ⟨hpath, hpaths⟩ := List.forall_mem_cons.mp hp
    obtain ⟨hvalue, hvalues⟩ := List.forall_mem_cons.mp h
    rw [additionRows]
    exact (RowsInert.slotRows hpath (rowsInert_rows value hvalue)).append
      (rowsInert_additionRows additions hpaths hvalues)

end

end Template

def Setup.strings : Setup → List String
  | clear collection => [collection]
  | insertion name collection _ => [name, collection]
  | declaration name _ => [name]

def Case.strings (c : Case) : List String :=
  c.name :: (c.url.toList ++ c.finds.map Find.collection)

namespace Document

/-- No text in a document has an escape. -/
structure Unescaped (document : Document) : Prop where
  name : Inert document.name
  setups : ∀ setup ∈ document.setups, (∀ s ∈ setup.strings, Inert s) ∧
    ∀ template ∈ setup.template?, template.Unescaped
  cases : ∀ c ∈ document.cases, (∀ s ∈ c.strings, Inert s) ∧
    ∀ template ∈ c.templates, template.Unescaped

variable {level : Nat} {skip : Bool} {fragments others : List Fragment}

def Closed (fragments : List Fragment) : Prop :=
  ∀ fragment ∈ fragments.getLast?, fragment = Fragment.newline

structure Lines (fragments : List Fragment) : Prop where
  inert : AllInert fragments
  closed : Closed fragments

theorem Lines.nil : Lines [] := ⟨allInert_nil, nofun⟩

theorem Lines.append (h : Lines fragments) (h' : Lines others) : Lines (fragments ++ others) := by
  refine ⟨allInert_append.mpr ⟨h.inert, h'.inert⟩, ?_⟩
  cases others with
  | nil =>
    rw [List.append_nil]
    exact h.closed
  | cons fragment others =>
    intro last hlast
    rw [List.getLast?_append_of_ne_nil _ (List.cons_ne_nil fragment others)] at hlast
    exact h'.closed last hlast

theorem Lines.flatMap {α : Type} {lines : α → List Fragment} {as : List α}
    (h : ∀ a ∈ as, Lines (lines a)) : Lines (as.flatMap lines) := by
  induction as with
  | nil => exact .nil
  | cons a as ih =>
    obtain ⟨ha, has⟩ := List.forall_mem_cons.mp h
    rw [List.flatMap_cons]
    exact ha.append (ih has)

theorem lines_heading (h : AllInert fragments)
    (hlast : fragments.getLast? = some Fragment.newline) : Lines fragments := by
  refine ⟨h, ?_⟩
  intro last hmem
  rw [hlast] at hmem
  exact (Option.some.inj hmem).symm

theorem lines_line (h : AllInert fragments) : Lines (fragments ++ [Fragment.newline]) := by
  apply lines_heading
  · exact allInert_append.mpr ⟨h, allInert_singleton Fragment.inert_newline⟩
  · exact List.getLast?_concat

theorem allInert_mark : AllInert (mark level) :=
  allInert_cons.mpr ⟨Fragment.inert_of_text (by decide) (inert_replicate level (by decide)),
    allInert_singleton Fragment.inert_blank⟩

theorem allInert_skipMark : AllInert (skipMark skip) := by
  cases skip with
  | false => exact allInert_nil
  | true => exact allInert_singleton (by decide)

theorem lines_blockFragments {template : Template} (h : template.Unescaped) :
    Lines (blockFragments template) := by
  apply Lines.flatMap
  intro row hrow
  have hinert : AllInert row := Template.rowsInert_rows template h row hrow
  exact lines_line (allInert_cons.mpr ⟨Fragment.inert_tab, hinert⟩)

theorem lines_setupFragments {setup : Setup} (hs : ∀ s ∈ setup.strings, Inert s)
    (ht : ∀ template ∈ setup.template?, template.Unescaped) : Lines (setupFragments setup) := by
  cases setup with
  | clear collection =>
    rw [setupFragments]
    apply lines_heading _ rfl
    simp only [allInert_append, allInert_cons]
    exact ⟨⟨Fragment.inert_newline, allInert_mark⟩, by decide, Fragment.inert_blank,
      Fragment.inert_of_text (by decide) (hs _ List.mem_cons_self), Fragment.inert_newline,
      allInert_nil⟩
  | insertion name collection template =>
    obtain ⟨hname, hcollection⟩ := List.forall_mem_cons.mp hs
    refine Lines.append (lines_heading ?_ rfl) (lines_blockFragments (ht template rfl))
    simp only [allInert_append, allInert_cons]
    exact ⟨⟨Fragment.inert_newline, allInert_mark⟩, Fragment.inert_of_text (by decide) hname,
      Fragment.inert_blank, by decide, Fragment.inert_blank,
      Fragment.inert_of_text (by decide) (hcollection _ List.mem_cons_self),
      Fragment.inert_newline, allInert_nil⟩
  | declaration name template =>
    refine Lines.append (lines_heading ?_ rfl) (lines_blockFragments (ht template rfl))
    simp only [allInert_append, allInert_cons]
    exact ⟨⟨Fragment.inert_newline, allInert_mark⟩,
      Fragment.inert_of_text (by decide) (hs _ List.mem_cons_self), Fragment.inert_blank,
      by decide, Fragment.inert_newline, allInert_nil⟩

theorem lines_part {template : Template} (h : AllInert fragments) (ht : template.Unescaped) :
    Lines (mark 3 ++ fragments ++ Fragment.newline :: blockFragments template) := by
  have hline := lines_line (allInert_append.mpr ⟨@allInert_mark 3, h⟩)
  have hlines := hline.append (lines_blockFragments ht)
  rwa [List.append_assoc, List.singleton_append] at hlines

theorem lines_postFragments {c : Case} (hu : ∀ url ∈ c.url, Inert url)
    (ht : c.post.Unescaped) : Lines (postFragments c) := by
  have hpost : Fragment.Inert ⟨.keyword, "Post"⟩ := by decide
  have hpart : ∀ url, AllInert url → Lines (mark 3 ++ ⟨.keyword, "Post"⟩ :: url ++
      Fragment.newline :: blockFragments c.post) :=
    fun url h => lines_part (allInert_cons.mpr ⟨hpost, h⟩) ht
  simp only [postFragments]
  split
  · apply hpart
    split
    · next url hurl =>
      exact allInert_cons.mpr ⟨Fragment.inert_blank,
        allInert_singleton (Fragment.inert_of_text (by decide) (hu url hurl))⟩
    · exact allInert_nil
  · exact .nil

theorem lines_outFragments {c : Case} (ht : ∀ template ∈ c.out, template.Unescaped) :
    Lines (outFragments c) := by
  have hout : Fragment.Inert ⟨.keyword, "Out"⟩ := by decide
  have hstatus : AllInert (if c.status = 200 then [] else
      [Fragment.blank, ⟨.numeric, toString c.status⟩]) := by
    split
    · exact allInert_nil
    · exact allInert_cons.mpr ⟨Fragment.inert_blank,
        allInert_singleton (Fragment.inert_of_text (by decide) inert_of_digits)⟩
  cases htemplate : c.out with
  | none =>
    simp only [outFragments, htemplate]
    exact .nil
  | some template =>
    simp only [outFragments, htemplate]
    exact lines_part (allInert_cons.mpr ⟨hout, hstatus⟩) (ht template htemplate)

theorem lines_findFragments {find : Find} (hs : Inert find.collection)
    (ht : find.template.Unescaped) : Lines (findFragments find) := by
  refine Lines.append (lines_heading ?_ rfl) (lines_blockFragments ht)
  simp only [allInert_append, allInert_cons]
  exact ⟨allInert_mark, by decide, Fragment.inert_blank,
    Fragment.inert_of_text (by decide) hs, Fragment.inert_newline, allInert_nil⟩

theorem lines_caseFragments {c : Case} (hs : ∀ s ∈ c.strings, Inert s)
    (ht : ∀ template ∈ c.templates, template.Unescaped) : Lines (caseFragments c) := by
  obtain ⟨hname, hbeside⟩ := List.forall_mem_cons.mp hs
  obtain ⟨hurl, hcollections⟩ := List.forall_mem_append.mp hbeside
  obtain ⟨hpost, hothers⟩ := List.forall_mem_cons.mp ht
  obtain ⟨hout, htemplates⟩ := List.forall_mem_append.mp hothers
  have hcaption : Lines (Fragment.newline :: mark 2 ++ ⟨.caption, c.name⟩ :: skipMark c.skip ++
      [Fragment.newline]) := by
    apply lines_line
    simp only [allInert_append, allInert_cons]
    exact ⟨⟨Fragment.inert_newline, allInert_mark⟩, Fragment.inert_of_text (by decide) hname,
      allInert_skipMark⟩
  have hfinds : Lines (c.finds.flatMap findFragments) := by
    apply Lines.flatMap
    intro find hfind
    exact lines_findFragments (hcollections _ (List.mem_map_of_mem hfind))
      (htemplates _ (List.mem_map_of_mem hfind))
  have hanswer : Lines (outFragments c) :=
    lines_outFragments fun template h => hout template (Option.mem_toList.mpr h)
  have hrequest : Lines (postFragments c) :=
    lines_postFragments (fun url h => hurl url (Option.mem_toList.mpr h)) hpost
  exact ((hcaption.append hrequest).append hanswer).append hfinds

theorem lines_fragments {document : Document} (h : document.Unescaped) :
    Lines document.fragments := by
  have htitle : Lines (mark 1 ++ ⟨.title, document.name⟩ :: skipMark document.skip ++
      [Fragment.newline]) := by
    apply lines_line
    simp only [allInert_append, allInert_cons]
    exact ⟨allInert_mark, Fragment.inert_of_text (by decide) h.name, allInert_skipMark⟩
  have hsetup : Lines (Fragment.newline :: mark 2 ++ [⟨.caption, "Setup"⟩, Fragment.newline]) := by
    apply lines_heading _ rfl
    simp only [allInert_append, allInert_cons]
    exact ⟨⟨Fragment.inert_newline, allInert_mark⟩, by decide, Fragment.inert_newline,
      allInert_nil⟩
  have hsetups : Lines (document.setups.flatMap setupFragments) :=
    Lines.flatMap fun setup hs => lines_setupFragments (h.setups setup hs).1 (h.setups setup hs).2
  have hcases : Lines (document.cases.flatMap caseFragments) :=
    Lines.flatMap fun c hc => lines_caseFragments (h.cases c hc).1 (h.cases c hc).2
  exact ((htitle.append hsetup).append hsetups).append hcases

theorem Closed.endLine_render {renderer : Renderer} (h : Closed fragments)
    (hn : renderer .newline "\n" = "\n") :
    endLine (renderer.render fragments) = renderer.render fragments := by
  cases hlast : fragments.getLast? with
  | none =>
    rw [List.getLast?_eq_none_iff.mp hlast, Renderer.render_nil]
    rfl
  | some last =>
    obtain ⟨front, rfl⟩ := List.getLast?_eq_some_iff.mp hlast
    have hnewline : renderer.render [Fragment.newline] = "\n" := by
      rw [Renderer.render, List.map_singleton, String.join_cons, String.join_nil,
        String.append_empty]
      exact hn
    have hend : (renderer.render (front ++ [last])).toList.getLast? = some '\n' := by
      rw [h last hlast, Renderer.render_append, hnewline, String.toList_append]
      exact List.getLast?_concat
    rw [endLine, hend]
    simp

end Document

/-- Colours never change a text. With all escapes deleted, a document whose texts have none looks on
a terminal as it does plain, and so does any value, whatever is highlighted in it. -/
theorem bare_on_terminal :
    (∀ document : Document, document.Unescaped →
      bare (document.render .terminal).toList = (document.render .plain).toList) ∧
    ∀ (value : Value) (highlight : Option String),
      bare (value.print highlight .terminal).toList = (value.print none .plain).toList := by
  constructor
  · intro document h
    have hlines := Document.lines_fragments h
    have hterminal : Renderer.terminal .newline "\n" = "\n" := rfl
    rw [Document.render, Document.render, hlines.closed.endLine_render hterminal,
      hlines.closed.endLine_render rfl]
    exact Renderer.bare_render_terminal hlines.inert
  · intro value highlight
    have hinert : AllInert (value.fragments highlight) :=
      Value.allInert_fragmentsAt highlight "" 0 false value
    have hplain : value.print highlight .plain = value.print none .plain := Value.print_plain
    rw [← hplain]
    exact Renderer.bare_render_terminal hinert

/-- Escapes in the key and in the text of a highlighted member. -/
theorem bare_on_terminal_of_escapes :
    let document : Document := ⟨"Things", false, [.clear "things"],
      [⟨"One", true, none, .empty, 200, some (.expression "1"), []⟩], ["things"]⟩
    let value : Value := .object [("\x1b[1m", .string "\x1b[0m")]
    document.Unescaped ∧
      bare (document.render .terminal).toList = (document.render .plain).toList ∧
      bare (value.print (some "\x1b[1m") .terminal).toList = (value.print none .plain).toList := by
  intro document value
  have hclear : ∀ s ∈ (Setup.clear "things").strings, Inert s :=
    List.forall_mem_singleton.mpr (by decide)
  have hpost : Template.empty.Unescaped := .intro nofun nofun
  have hout : (Template.expression "1").Unescaped :=
    .intro (List.forall_mem_singleton.mpr (by decide)) nofun
  have hunescaped : document.Unescaped := {
    name := by decide
    setups := List.forall_mem_singleton.mpr ⟨hclear, nofun⟩
    cases := List.forall_mem_singleton.mpr ⟨List.forall_mem_singleton.mpr (by decide),
      List.forall_mem_cons.mpr ⟨hpost, List.forall_mem_singleton.mpr hout⟩⟩ }
  exact ⟨hunescaped, bare_on_terminal.1 document hunescaped,
    bare_on_terminal.2 value (some "\x1b[1m")⟩

end ApiContract
