import ApiDoc.Proofs.Mentions
import ApiDoc.Proofs.Seams

/-!
# What becomes of examples

An example is put into a text as inline code, and the text goes on to the steps that put links into
texts and settle internal text. Both read the whole text, the example included. So an example is
shown as it was found if and only if these steps leave it alone, provided that nothing is begun
before or in it that they would close behind it. They leave every example alone in which no brace
stands before an at sign; an inline tag in an example becomes a link and internal text in it goes as
in any other text.
-/

namespace ApiDoc

namespace Compile

open InlineTag (tick)

section Texts

variable (router : Router) (s : ApiSet) (scope : Scope) (unwrap : Bool)

/-- A text with its links, character by character. -/
def linkedText (cs : List Char) : List Char :=
  (Segment.ofChars cs).flatMap (InlineTag.written (linkFor router s scope))

/-- A text as it is shown in the end. -/
def finalText (cs : List Char) : List Char :=
  settleInternal unwrap (linkedText router s scope cs)

/-- Texts that begin nothing that is still to be closed behind them. -/
structure Complete (cs : List Char) : Prop where
  tags : Segment.leavesBegun (Segment.ofChars cs) = false
  internal : leavesInternal (linkedText router s scope cs) = false

theorem toList_withLinks (text : String) :
    (withLinks router s scope text).toList = linkedText router s scope text.toList :=
  InlineTag.toList_substitute ..

variable {router s scope}

theorem linkedText_append_tick {cs : List Char}
    (h : Segment.leavesBegun (Segment.ofChars cs) = false) (more : List Char) :
    linkedText router s scope (cs ++ tick :: more) =
      linkedText router s scope cs ++ tick :: linkedText router s scope more := by
  rw [linkedText, Segment.ofChars_append_tick h, List.flatMap_append, List.flatMap_cons]
  rfl

/-- A text is shown up to a backtick and behind it on its own. -/
theorem finalText_append_tick {cs : List Char} (h : Complete router s scope cs)
    (more : List Char) : finalText router s scope unwrap (cs ++ tick :: more) =
      finalText router s scope unwrap cs ++ tick :: finalText router s scope unwrap more := by
  rw [finalText, linkedText_append_tick h.tags, settleInternal_append_tick h.internal]
  rfl

theorem linkedText_of_isPlain {cs : List Char} (h : IsPlain cs) :
    linkedText router s scope cs = cs := by
  rw [linkedText, (ofChars_of_isPlain h).1, List.flatMap_map]
  exact List.flatMap_singleton' cs

/-- A text without a brace before an at sign is shown as it is. -/
theorem finalText_of_isPlain {cs : List Char} (h : IsPlain cs) :
    Complete router s scope cs ∧ finalText router s scope unwrap cs = cs := by
  have hlinked : linkedText router s scope cs = cs := linkedText_of_isPlain h
  obtain ⟨hsettled, hleaves⟩ := settleInternal_of_isPlain h unwrap
  refine ⟨⟨(ofChars_of_isPlain h).2, ?_⟩, ?_⟩
  · rw [hlinked, hleaves]
  · rw [finalText, hlinked, hsettled]

/-- Inline code between texts is shown as it is if and only if these steps leave it alone. -/
theorem finalText_code {before content : List Char} (hbefore : Complete router s scope before)
    (hcontent : Complete router s scope content) (behind : List Char) :
    let final := finalText router s scope unwrap
    final (before ++ tick :: (content ++ tick :: behind)) =
        final before ++ tick :: (final content ++ tick :: final behind) ∧
      (final (before ++ tick :: (content ++ tick :: behind)) =
          final before ++ tick :: (content ++ tick :: final behind) ↔ final content = content) := by
  intro final
  have hshown : final (before ++ tick :: (content ++ tick :: behind)) =
      final before ++ tick :: (final content ++ tick :: final behind) := by
    simp only [final, finalText_append_tick unwrap hbefore, finalText_append_tick unwrap hcontent]
  refine ⟨hshown, ?_⟩
  rw [hshown, List.append_right_inj, List.cons_inj_right, List.append_left_inj]

end Texts

/-! ### Examples in a text -/

/-- The text before the inline code of an example. -/
def exampleLead (request : ExampleRequest) : String :=
  if request.description.isEmpty then "" else "*" ++ request.description ++ "*"

theorem toList_withExampleTexts (finder : ExampleFinder) (text : String) :
    (withExampleTexts finder text).toList =
      (InlineTag.segments text).flatMap (InlineTag.written (exampleText finder)) := by
  rw [InlineTag.withExampleTexts_eq, InlineTag.toList_substitute]

/-- What is put in the place of a tag whose example is found. -/
theorem written_example {finder : ExampleFinder} {tag : InlineTag} (hname : tag.name = "example")
    {request : ExampleRequest} (hrequest : ExampleRequest.parse? tag.argument = some request)
    {content : String} (hfound : finder request = .ok content) :
    InlineTag.written (exampleText finder) (.tag tag) =
      (exampleLead request).toList ++ tick :: (content.toList ++ [tick]) := by
  have htick : "\x60".toList = [tick] := by decide
  have htext : exampleText finder tag =
      some (exampleLead request ++ "\x60" ++ content ++ "\x60") := by
    rw [exampleText, if_neg (not_not.mpr hname), hrequest, Option.map_some, Lookup.text, hfound]
    rfl
  rw [InlineTag.written, htext, Option.map_some, Option.getD_some]
  simp only [String.toList_append, htick, List.append_assoc, List.cons_append, List.nil_append]

/-! ### The texts of an element, step by step -/

/-- Both texts of an element, edited. -/
def editedTexts (edit : String → String) (texts : String × String) : String × String :=
  (edit texts.1, edit texts.2)

theorem exists_editAllTexts (edit : Scope → String → String) {s : ApiSet} (hs : s.Keyed)
    {ref : ElementRef} {p : Spot} {old : Item} (hspot : s.spotOf ref = some p)
    (hold : s.at? ref.file p = some old) :
    (∃ item, (editAllTexts edit s).at? ref.file p = some item ∧
      item.texts = editedTexts (edit (s.scopeOf ref)) old.texts) ∧
    (editAllTexts edit s).Keyed ∧ (editAllTexts edit s).spotOf ref = some p := by
  have hretouch := (retouch_editAllTexts edit s).1
  exact ⟨⟨_, at?_editAllTexts edit hs hspot hold, rfl⟩, hretouch.keyed hs,
    (hretouch.spotOf_eq ref).trans hspot⟩

section Steps

variable {ref : ElementRef} {p : Spot}

/-- The steps before the examples leave texts alone. -/
theorem retouch_marked_texts (settings : Settings) (s : ApiSet) :
    s.Retouch Item.texts (marked settings s) := by
  have hindexes : s.Retouch Item.texts (withIndexes s) := .of_files_eq (files_withIndexes s)
  exact (hindexes.trans (retouch_linked _)).trans ((retouch_marked settings s).1.coarsen Prod.snd)

/-- So do those between the links and the last step. -/
theorem retouch_ready_texts (services : Services) (settings : Settings) (s : ApiSet) :
    (worded services settings s).Retouch Item.texts (ready services settings s) := by
  have hlinked := (retouch_backLink (worded services settings s)).coarsen Prod.snd
  rw [ready]
  exact hlinked.files_congr (files_apiContents services.router _).1

/-- The texts of an element before the last step. -/
theorem exists_ready (services : Services) (settings : Settings) {s : ApiSet} (hs : s.Keyed)
    {old : Item} (hspot : s.spotOf ref = some p) (hold : s.at? ref.file p = some old) :
    ∃ item, (ready services settings s).at? ref.file p = some item ∧
      item.texts = editedTexts (fun text =>
        withLinks services.router (arranged services settings s)
          ((arranged services settings s).scopeOf ref)
          (withExampleTexts services.finder text)) old.texts := by
  have hmarked := retouch_marked_texts settings s
  obtain ⟨first, hfirst, -, hsame⟩ := hmarked.exists_new hold
  obtain ⟨⟨second, hsecond, hexamples⟩, hkeyed, hleads⟩ :=
    exists_editAllTexts (fun _ => withExampleTexts services.finder) (hmarked.keyed hs)
      ((hmarked.spotOf_eq ref).trans hspot) hfirst
  obtain ⟨⟨third, hthird, hlinks⟩, -, -⟩ :=
    exists_editAllTexts (withLinks services.router (arranged services settings s)) hkeyed hleads
      hsecond
  obtain ⟨item, hitem, -, htexts⟩ := (retouch_ready_texts services settings s).exists_new hthird
  refine ⟨item, hitem, ?_⟩
  rw [← htexts, hlinks, hexamples, ← hsame]
  rfl

/-- The last step settles internal text in the texts of what it keeps. -/
theorem exists_of_kept (settings : Settings) {v : ApiSet} (hv : v.Keyed)
    (hspot : v.spotOf ref = some p) {new : Item}
    (hnew : (filterSet settings v).state.at? ref.file p = some new) :
    ∃ item, v.at? ref.file p = some item ∧ new.texts = editedTexts (fun text =>
      String.ofList (settleInternal settings.visibility.allowsInternal text.toList)) item.texts := by
  have hstart := retouch_filterStart v Item.texts settings
  have hreduces := reduces_shown settings v
  have hunlinked : (settled settings v).Retouch Item.texts
      (unlinkRemoved (pruned (settled settings v))).1 :=
    .trans (.of_files_eq (files_pruned _)) ((retouch_unlinkRemoved _).1.coarsen Prod.snd)
  rw [state_filterSet] at hnew
  obtain ⟨last, hsettled, -, hsame⟩ := hunlinked.exists_at? hnew
  obtain ⟨item, hitem, -, -⟩ := (retouch_settled settings v).exists_at? hsettled
  have hshownSpot := hreduces.spotOf_eq ((hstart.spotOf_eq ref).trans hspot)
    (by rw [hitem]; rfl)
  obtain ⟨⟨edited, hedited, htexts⟩, -, -⟩ := exists_editAllTexts (fun _ text =>
    String.ofList (settleInternal settings.visibility.allowsInternal text.toList))
    (hreduces.keyed (hstart.keyed hv)) hshownSpot hitem
  obtain rfl : edited = last := Option.some.inj (hedited.symm.trans hsettled)
  obtain ⟨old, hold, -, hread⟩ := hstart.exists_at? (hreduces.at?_eq hitem)
  refine ⟨old, hold, ?_⟩
  rw [hread, ← htexts, hsame]

end Steps

end Compile

namespace Compiler

open InlineTag (tick)
open Compile (finalText Complete IsPlain)

/-- In a compiled project, the description of an element that was kept is the one it was read with,
with its examples put in, as links and internal text then leave it. An example that was found stands
in it as inline code in the place of its tag; provided that nothing is begun before or in it, it
stands there as it was found if and only if it does not change as a text of its own. No text without
a brace before an at sign changes or begins anything. -/
theorem description_with_example {services : Services} {p : Project} (hp : p.Fresh)
    (hok : (standard.compile services p).failure = none) {v i : Nat} {s u t : ApiSet}
    (hs : p.apiSet? v i = some s)
    (hu : ((standard.before Compile.inlineLinksPass).compile services p).state.apiSet? v i = some u)
    (ht : (standard.compile services p).state.apiSet? v i = some t)
    {ref : ElementRef} {spot : Spot} (hspot : s.spotOf ref = some spot) {old new : Item}
    (hold : s.at? ref.file spot = some old) (hnew : t.at? ref.file spot = some new) :
    let final := finalText services.router u (u.scopeOf ref) p.settings.visibility.allowsInternal
    let written := InlineTag.written (Compile.exampleText services.finder)
    new.info.description.toList =
        final (Compile.withExampleTexts services.finder old.info.description).toList ∧
      (∀ found ∈ InlineTag.scan old.info.description, found.tag.name = "example" →
        ∀ request, ExampleRequest.parse? found.tag.argument = some request →
        ∀ content, services.finder request = .ok content →
        ∃ front back, InlineTag.segments old.info.description = front ++ .tag found.tag :: back ∧
          InlineTag.byteLength (front.flatMap Segment.raw) = found.start ∧
          let before := front.flatMap written ++ (Compile.exampleLead request).toList
          let behind := back.flatMap written
          (Complete services.router u (u.scopeOf ref) before →
            Complete services.router u (u.scopeOf ref) content.toList →
            new.info.description.toList =
                final before ++ tick :: (final content.toList ++ tick :: final behind) ∧
              (new.info.description.toList =
                  final before ++ tick :: (content.toList ++ tick :: final behind) ↔
                final content.toList = content.toList))) ∧
      ∀ cs, IsPlain cs → Complete services.router u (u.scopeOf ref) cs ∧ final cs = cs := by
  intro final written
  have hfresh : s.Fresh := hp s (Project.mem_apiSets_iff_apiSet?.mpr ⟨v, i, hs⟩)
  rw [Compile.apiSet?_before_inlineLinksPass hok, hs, Option.map_some, Option.some.injEq] at hu
  rw [Compile.apiSet?_compile hok, hs, Option.map_some, Option.some.injEq] at ht
  subst hu ht
  have hcourse := (Compile.course_ready services p.settings s).retouch
  obtain ⟨item, hitem, hprepared⟩ :=
    Compile.exists_ready services p.settings hfresh.keyed hspot hold
  obtain ⟨item', hitem', hsettled⟩ := Compile.exists_of_kept p.settings
    (hcourse.keyed hfresh.keyed) ((hcourse.spotOf_eq ref).trans hspot) hnew
  obtain rfl := Option.some.inj (hitem'.symm.trans hitem)
  rw [hprepared] at hsettled
  have hdescription : new.info.description.toList =
      final (Compile.withExampleTexts services.finder old.info.description).toList := by
    rw [(Prod.mk.inj hsettled).2, String.toList_ofList]
    simp only [Compile.editedTexts, Compile.toList_withLinks]
    rfl
  refine ⟨hdescription, fun found hfound hname request hrequest content hcontent => ?_,
    fun cs hplain => Compile.finalText_of_isPlain _ hplain⟩
  obtain ⟨front, back, hpieces, hstart⟩ := InlineTag.exists_split_of_mem_foundFrom hfound
  refine ⟨front, back, hpieces, by rw [hstart, Nat.zero_add], fun hbefore hinner => ?_⟩
  rw [hdescription, Compile.toList_withExampleTexts, hpieces, List.flatMap_append, List.flatMap_cons,
    Compile.written_example hname hrequest hcontent]
  have hcode := Compile.finalText_code p.settings.visibility.allowsInternal hbefore hinner
    (back.flatMap (InlineTag.written (Compile.exampleText services.finder)))
  simpa only [List.append_assoc, List.cons_append, List.nil_append] using hcode

/-- A class whose description is an inline example tag. -/
def exampleSource : SourceText where
  path := "a.php"
  content := "<?php /**\n * A.\n *\n * \x7b@example e.php\x7d\n */ class A \x7b\x7d"

/-- A project with that class alone, without packages and markers. -/
def exampleProject : Project := .ofSources { defaultPackage := "", markers := [] } [exampleSource]

/-- What every example holds: an inline tag. -/
def exampleContent : String := "\x7b@see A\x7d"

/-- Services that find the same example everywhere. -/
def exampleServices : Services := ⟨.standard, fun _ => .ok exampleContent⟩

/-- The set of that class, as the step that puts links into texts finds it. -/
def exampleSet : ApiSet :=
  Compile.arranged exampleServices exampleProject.settings (.ofSources [exampleSource])

def exampleTag : InlineTag := ⟨"example", "e.php", "\x7b@example e.php\x7d".toList⟩

def exampleRef : ElementRef := ⟨0, .class, ⟨"\\A"⟩⟩

/-- The class as it was read. -/
theorem exists_exampleClass :
    (ApiSet.ofSources [exampleSource]).spotOf exampleRef = some (.top .class "\\A") ∧
      ∃ old, (ApiSet.ofSources [exampleSource]).at? 0 (.top .class "\\A") = some old ∧
        InlineTag.segments old.info.description = [.tag exampleTag] := by
  decide +kernel

/-- The class is kept. -/
theorem isSome_exampleClass :
    ((Compile.filterSet exampleProject.settings (Compile.ready exampleServices
      exampleProject.settings (.ofSources [exampleSource]))).state.at? 0
        (.top .class "\\A")).isSome := by
  decide +kernel

/-- Nothing is begun in the example, and on its own it becomes a link. -/
theorem final_exampleContent :
    Complete exampleServices.router exampleSet (exampleSet.scopeOf exampleRef)
        exampleContent.toList ∧
      finalText exampleServices.router exampleSet (exampleSet.scopeOf exampleRef) false
        exampleContent.toList = "[\\A](/classes/A.html)".toList :=
  ⟨⟨by decide +kernel, by decide +kernel⟩, by decide +kernel⟩

/-- The example is shown as a link, and not as it was found. -/
theorem example_shown_as_link : ∃ t new,
    (standard.compile exampleServices exampleProject).state.apiSet? 0 0 = some t ∧
    t.at? 0 (.top .class "\\A") = some new ∧
    new.info.description = "\x60[\\A](/classes/A.html)\x60" ∧
    new.info.description.toList ≠ tick :: (exampleContent.toList ++ [tick]) := by
  have hok : (standard.compile exampleServices exampleProject).failure = none :=
    failure_standard Router.exists_page_standard rfl rfl
  have hs : exampleProject.apiSet? 0 0 = some (.ofSources [exampleSource]) := rfl
  have hu : ((standard.before Compile.inlineLinksPass).compile exampleServices
      exampleProject).state.apiSet? 0 0 = some exampleSet := by
    rw [Compile.apiSet?_before_inlineLinksPass hok, hs, Option.map_some, exampleSet]
  have ht := Compile.apiSet?_compile hok 0 0
  rw [hs, Option.map_some] at ht
  obtain ⟨hspot, old, hold, hpieces⟩ := exists_exampleClass
  obtain ⟨new, hnew⟩ := Option.isSome_iff_exists.mp isSome_exampleClass
  obtain ⟨-, hexamples, hplain⟩ := description_with_example (Project.fresh_ofSources _ _) hok hs hu
    ht hspot hold hnew
  have hfound : ⟨exampleTag, 0, InlineTag.byteLength exampleTag.raw⟩ ∈
      InlineTag.scan old.info.description := by
    rw [InlineTag.scan, hpieces, InlineTag.foundFrom, Nat.zero_add]
    exact List.mem_cons_self
  have hrequest : ExampleRequest.parse? exampleTag.argument = some { path := "e.php" } := by
    decide +kernel
  obtain ⟨front, back, hsplit, -, hcode⟩ :=
    hexamples _ hfound rfl _ hrequest exampleContent rfl
  obtain ⟨rfl, rfl⟩ : front = [] ∧ back = [] := by
    rw [hpieces] at hsplit
    cases front with
    | nil => exact ⟨rfl, (List.cons.inj hsplit).2.symm⟩
    | cons p rest => simp at hsplit
  have hbare : [].flatMap (InlineTag.written (Compile.exampleText exampleServices.finder)) ++
      (Compile.exampleLead { path := "e.php" }).toList = [] := by decide
  have hbefore := hplain [] (by decide)
  obtain ⟨hcomplete, hlink⟩ := final_exampleContent
  have hshown := (hcode (hbare ▸ hbefore.1) hcomplete).1
  rw [hbare, List.flatMap_nil, hbefore.2, List.nil_append] at hshown
  have hlinked : new.info.description.toList =
      tick :: ("[\\A](/classes/A.html)".toList ++ [tick]) :=
    hshown.trans (congrArg (fun shown => tick :: (shown ++ [tick])) hlink)
  refine ⟨_, new, ht, hnew, ?_, ?_⟩
  · rw [← String.toList_inj, hlinked]
    decide
  · rw [hlinked]
    decide

end Compiler

end ApiDoc
