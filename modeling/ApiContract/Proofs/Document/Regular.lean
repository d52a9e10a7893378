import ApiContract.Proofs.Document.Layout
import ApiContract.Proofs.Document.Setups
import ApiContract.Proofs.Template.RoundTrip

namespace ApiContract

def Setup.template? : Setup → Option Template
  | clear _ => none
  | insertion _ _ template => some template
  | declaration _ template => some template

def Case.templates (c : Case) : List Template :=
  c.post :: (c.out.toList ++ c.finds.map Find.template)

namespace Document

open Heading

def RegularSetup : Setup → Prop
  | .clear collection => IsName collection
  | .insertion name collection template =>
    IsName name ∧ IsName collection ∧ template.WellFormed
  | .declaration name template => IsName name ∧ name ≠ "Clear" ∧ template.WellFormed

structure Captioned (name : String) (skip : Bool) : Prop where
  trim : Text.trim (caption name skip) = caption name skip
  newline : '\n' ∉ caption name skip
  split : splitSkip (caption name skip) = (name.toList, skip)

structure RegularCase (c : Case) : Prop where
  caption : Captioned c.name c.skip
  url : ∀ url, c.url = some url → Text.Tight url.toList ∧ '\n' ∉ url.toList
  status : c.status < 1000
  silent : c.out = none → c.status = 200
  finds : ∀ find ∈ c.finds, IsName find.collection
  templates : ∀ template ∈ c.templates, template.WellFormed

structure Regular (document : Document) : Prop where
  caption : Captioned document.name document.skip
  setups : ∀ setup ∈ document.setups, RegularSetup setup
  explicit : expand [] document.setups = document.setups
  orderly : Orderly document.setups
  lists : Lists document.collections document.setups
  nonempty : document.cases ≠ []
  cases : ∀ c ∈ document.cases, RegularCase c
  known : ∀ c ∈ document.cases, ∀ find ∈ c.finds, find.collection ∈ document.collections

theorem captioned_of_trim {title : List Char} (ht : Text.trim title = title) (hn : '\n' ∉ title) :
    Captioned (String.ofList (splitSkip title).1) (splitSkip title).2 := by
  unfold splitSkip
  split
  · rename_i front hs
    have htitle := stripEnd?_eq_some_iff.mp hs
    have hhead : ∀ c ∈ title.head?, Text.isBlank c = false := ht ▸ Text.head_trim title
    have hstart := Text.trimEnd_isPrefix front
    have hne : Text.trimEnd front ≠ [] := by
      intro he
      rw [Text.trimEnd_eq_rdropWhile, List.rdropWhile_eq_nil_iff] at he
      cases front with
      | nil => exact absurd (hhead ' ' (by rw [htitle]; rfl)) (by decide)
      | cons c front =>
        have hc := hhead c (by rw [htitle]; rfl)
        rw [he c (by simp)] at hc
        cases hc
    have hcaption : caption (String.ofList (Text.trimEnd front)) true =
        Text.trimEnd front ++ " (skip)".toList := by
      simp [caption]
    constructor
    · rw [hcaption]
      refine Text.trim_eq_self (fun c hc => hhead c ?_) fun c hc => ?_
      · rw [List.head?_append_of_ne_nil _ hne] at hc
        have hfront := Text.head_of_isPrefix hstart c hc
        rw [htitle]
        cases front with
        | nil => cases hfront
        | cons d front => exact hfront
      · rw [List.getLast?_append_of_ne_nil _ (by simp)] at hc
        cases hc
        decide
    · rw [hcaption]
      intro hm
      rcases List.mem_append.mp hm with hm | hm
      · exact hn (by rw [htitle]; exact List.mem_append_left _ (hstart.mem hm))
      · exact absurd hm (by decide)
    · rw [hcaption, splitSkip, stripEnd?_eq_some_iff.mpr rfl]
      simp only [String.toList_ofList, Text.trimEnd_eq_self (Text.last_trimEnd front)]
  · rename_i hs
    have hcaption : caption (String.ofList title) false = title := by simp [caption]
    constructor
    · rw [hcaption, ht]
    · rwa [hcaption]
    · rw [hcaption, splitSkip, hs, String.toList_ofList]

theorem wellFormed_empty : Template.empty.WellFormed :=
  .intro ⟨.nil, by simp⟩ (by simp [Template.empty, Template.parts])

theorem wellFormed_of_block {first : Line} {more : List Line} {template : Template}
    (hp : (Token.block first more).Plain) (h : Block first more template) : template.WellFormed :=
  Template.wellFormed_of_ofLines hp h

theorem regular_of_items {tokens : List Token} {items : List Setup}
    (h : Items IsVariable tokens items) (hp : ∀ token ∈ tokens, token.Plain) :
    ∀ item ∈ items, RegularSetup item := by
  induction h with
  | nil => simp
  | clear heading _ ih =>
    obtain ⟨-, hp⟩ := List.forall_mem_cons.mp hp
    exact List.forall_mem_cons.mpr ⟨heading.1, ih hp⟩
  | declaration heading block _ ih =>
    obtain ⟨-, hp⟩ := List.forall_mem_cons.mp hp
    obtain ⟨hb, hp⟩ := List.forall_mem_cons.mp hp
    exact List.forall_mem_cons.mpr
      ⟨⟨heading.1.1, heading.2, wellFormed_of_block hb block⟩, ih hp⟩
  | insertion heading block _ ih =>
    obtain ⟨-, hp⟩ := List.forall_mem_cons.mp hp
    obtain ⟨hb, hp⟩ := List.forall_mem_cons.mp hp
    exact List.forall_mem_cons.mpr
      ⟨⟨heading.1, heading.2.1, wellFormed_of_block hb block⟩, ih hp⟩

theorem regular_of_finds {tokens : List Token} {finds : List Find} (h : Finds tokens finds)
    (hp : ∀ token ∈ tokens, token.Plain) :
    ∀ find ∈ finds, IsName find.collection ∧ find.template.WellFormed := by
  induction h with
  | nil => simp
  | cons heading block _ ih =>
    obtain ⟨-, hp⟩ := List.forall_mem_cons.mp hp
    obtain ⟨hb, hp⟩ := List.forall_mem_cons.mp hp
    exact List.forall_mem_cons.mpr ⟨⟨heading.1, wellFormed_of_block hb block⟩, ih hp⟩

theorem regular_of_part {α : Type} {Form : List Char → α → Prop} {front : List Token} {a : α}
    {template : Template} (h : Part Form front (some (a, template)))
    (hp : ∀ token ∈ front, token.Plain) :
    (∃ text, Form text a ∧ Text.trim text = text) ∧ template.WellFormed := by
  cases h with
  | present heading block =>
    obtain ⟨hh, hp⟩ := List.forall_mem_cons.mp hp
    obtain ⟨hb, -⟩ := List.forall_mem_cons.mp hp
    exact ⟨⟨_, heading, hh.1⟩, wellFormed_of_block hb block⟩

theorem tight_of_isPost {text : List Char} {url : String} (h : IsPost text (some url))
    (ht : Text.trim text = text) : Text.Tight url.toList ∧ '\n' ∉ url.toList := by
  cases h with
  | @endpoint gap url hne hgap hurl hhead hline =>
    have hlast := Text.last_trim ("Post".toList ++ gap ++ url.toList)
    rw [ht, List.getLast?_append_of_ne_nil _ hurl] at hlast
    exact ⟨⟨hurl, hhead, hlast⟩, hline⟩

theorem regular_of_body {title : List Char} {tokens : List Token} {c : Case}
    (h : Body title tokens c) (ht : Text.trim title = title) (hn : '\n' ∉ title)
    (hp : ∀ token ∈ tokens, token.Plain) : RegularCase c := by
  cases h with
  | @intro p o f post out finds hpost hout hfinds =>
    have hp' : (∀ token ∈ p, token.Plain) ∧ (∀ token ∈ o, token.Plain) ∧
        ∀ token ∈ f, token.Plain := by
      simpa [or_imp, forall_and] using hp
    obtain ⟨hpp, hpo, hpf⟩ := hp'
    have hf := regular_of_finds hfinds hpf
    refine {
      caption := captioned_of_trim ht hn
      url := fun url hu => ?_
      status := ?_
      silent := fun ho => ?_
      finds := fun find hm => (hf find hm).1
      templates := fun template hm => ?_ }
    · cases post with
      | none => cases hu
      | some part =>
        obtain ⟨endpoint, template⟩ := part
        obtain rfl : endpoint = some url := hu
        obtain ⟨⟨text, hheading, htrim⟩, -⟩ := regular_of_part hpost hpp
        exact tight_of_isPost hheading htrim
    · have husual : 200 < 1000 := by decide
      cases out with
      | none => exact husual
      | some part =>
        obtain ⟨status, template⟩ := part
        obtain ⟨⟨text, hheading, -⟩, -⟩ := regular_of_part hout hpo
        cases status with
        | none => exact husual
        | some status => exact hheading.status_lt
    · cases out with
      | none => rfl
      | some part => cases ho
    · rcases List.mem_cons.mp hm with rfl | hm
      · cases post with
        | none => exact wellFormed_empty
        | some part => exact (regular_of_part hpost hpp).2
      · rcases List.mem_append.mp hm with hm | hm
        · cases out with
          | none => cases hm
          | some part =>
            obtain rfl := List.mem_singleton.mp hm
            exact (regular_of_part hout hpo).2
        · obtain ⟨find, hfind, rfl⟩ := List.mem_map.mp hm
          exact (hf find hfind).2

theorem regular_of_cases {tokens : List Token} {cases : List Case} (h : Cases tokens cases)
    (hp : ∀ token ∈ tokens, token.Plain) : ∀ c ∈ cases, RegularCase c := by
  induction h with
  | nil => simp
  | cons here _ ih =>
    obtain ⟨ht, hp⟩ := List.forall_mem_cons.mp hp
    obtain ⟨hb, hp⟩ := List.forall_mem_append.mp hp
    exact List.forall_mem_cons.mpr ⟨regular_of_body here ht.1 ht.2 hb, ih hp⟩

theorem regular_of_implied {known : List String} {item : Setup} (h : RegularSetup item) :
    ∀ setup ∈ implied known item, RegularSetup setup := by
  obtain hi | ⟨name, collection, template, rfl, -, hi⟩ := implied_cases known item
  · simp [hi]
  · rw [hi]
    simpa [RegularSetup] using h.2.1

theorem regular_of_expand {known : List String} {items : List Setup}
    (h : ∀ item ∈ items, RegularSetup item) :
    ∀ setup ∈ expand known items, RegularSetup setup := by
  induction items generalizing known with
  | nil => simp [expand]
  | cons item items ih =>
    obtain ⟨hitem, hitems⟩ := List.forall_mem_cons.mp h
    rw [expand]
    exact List.forall_mem_append.mpr
      ⟨regular_of_implied hitem, List.forall_mem_cons.mpr ⟨hitem, ih hitems⟩⟩

theorem regular_of_derives {tokens : List Token} {document : Document}
    (h : Derives IsVariable tokens document) (hp : ∀ token ∈ tokens, token.Plain) :
    document.Regular := by
  cases h with
  | @intro title place setup prose s c items cases collections hprose hitems horderly hcases hne
      hlists hknown =>
    obtain ⟨htitle, hp⟩ := List.forall_mem_cons.mp hp
    obtain ⟨-, hp⟩ := List.forall_mem_append.mp hp
    obtain ⟨-, hp⟩ := List.forall_mem_cons.mp hp
    obtain ⟨hps, hpc⟩ := List.forall_mem_append.mp hp
    exact {
      caption := captioned_of_trim htitle.1 htitle.2
      setups := regular_of_expand (regular_of_items hitems hps)
      explicit := expand_expand items
      orderly := orderly_expand horderly
      lists := ⟨hlists.sorted, fun collection =>
        (hlists.mem collection).trans mem_touched_expand.symm⟩
      nonempty := hne
      cases := regular_of_cases hcases hpc
      known := hknown }

theorem regular_of_ofString {text : String} {document : Document}
    (h : ofString text = .ok document) : document.Regular :=
  regular_of_derives (derives_of_ofTokens h) (Token.plain_ofChars text.toList)

end Document

end ApiContract
