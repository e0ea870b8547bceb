import ApiDoc.Collection
import ApiDoc.Proofs.Indexes
import ApiDoc.Proofs.Lookups
import ApiDoc.Proofs.Reader

/-!
# The course of a compilation

A run of the compiler that does not fail takes every API set through all steps, one after the other.
`Pass.Takes` says what one step does to the sets of a project, and `Compiler.Runs` puts the steps
together; a set keeps its place in the project. The outcome for the standard compiler is
`Compile.Course`: what a set has become when it reaches the last step, in terms of the set that was
read. What a step in the middle finds is what the steps before it, `Compiler.before`, leave.
-/

namespace ApiDoc

/-! ### Sets as they are read -/

/-- What the reader gives for some source, with or without the text of the source. -/
def File.Reflected (f : File) : Prop :=
  ∃ (text : SourceText) (g : File), text.read = .ok g ∧ f = { g with source := f.source }

theorem File.Reflected.asRead {f : File} (h : f.Reflected) : f.AsRead := by
  obtain ⟨text, g, hread, heq⟩ := h
  rw [SourceText.read] at hread
  split at hread
  · next file hfile =>
    cases hread
    have hg := File.asRead_ofSource hfile
    rw [heq]
    exact hg.congr rfl rfl rfl rfl rfl hg.tags hg.aliases
  · simp at hread

/-- A set to which files were added as the reader gave them. -/
def ApiSet.Fresh (s : ApiSet) : Prop :=
  ∃ name files, (∀ f ∈ files, f.Reflected) ∧ s = ApiSet.ofFiles name files

def Project.Fresh (p : Project) : Prop := ∀ s ∈ p.apiSets, s.Fresh

theorem ApiSet.mem_files_addFile {s : ApiSet} {f g : File} (h : g ∈ (s.addFile f).1.files) :
    g = f ∨ g ∈ s.files := by
  rw [addFile] at h
  split at h
  · exact (List.mem_or_eq_of_mem_set h).symm
  · rcases List.mem_append.mp h with h | h
    · exact .inr h
    · exact .inl (List.mem_singleton.mp h)

theorem ApiSet.frame_addFile (s : ApiSet) (f : File) : (s.addFile f).1.frame = s.frame := by
  rw [addFile]
  split <;> rfl

theorem ApiSet.mem_files_ofFiles {name : String} {files : List File} {f : File}
    (h : f ∈ (ApiSet.ofFiles name files).files) : f ∈ files := by
  have hfold (files : List File) (s : ApiSet)
      (h : f ∈ (files.foldl (fun s f => (s.addFile f).1) s).files) : f ∈ files ∨ f ∈ s.files := by
    induction files generalizing s with
    | nil => exact .inr h
    | cons g rest ih =>
      rcases ih _ h with h | h
      · exact .inl (List.mem_cons_of_mem _ h)
      · rcases mem_files_addFile h with rfl | h
        · exact .inl List.mem_cons_self
        · exact .inr h
  rcases hfold files _ h with h | h
  · exact h
  · simp at h

namespace ApiSet.Fresh

variable {s : ApiSet} (hs : s.Fresh)
include hs

theorem asRead {id : Nat} {f : File} (hf : s.file? id = some f) : f.AsRead := by
  obtain ⟨name, files, hfiles, rfl⟩ := hs
  exact (hfiles f (mem_files_ofFiles (List.mem_of_getElem? hf))).asRead

theorem keyed : s.Keyed := fun _ _ hf => (hs.asRead hf).keyed

theorem frame_eq : s.frame = (.empty, .fresh .namespaces, .fresh .packages) := by
  obtain ⟨name, files, -, rfl⟩ := hs
  exact frame_foldl (fun s f => frame_addFile s f) files { name := name }

theorem namespaces_eq : s.namespaces = .fresh .namespaces :=
  (Prod.mk.inj (Prod.mk.inj hs.frame_eq).2).1

theorem packages_eq : s.packages = .fresh .packages :=
  (Prod.mk.inj (Prod.mk.inj hs.frame_eq).2).2

end ApiSet.Fresh

/-- The set of all the sources that can be read. -/
def ApiSet.ofSources (sources : List SourceText) : ApiSet :=
  .ofFiles Collection.setName (sources.filterMap fun t => t.read.toOption)

theorem ApiSet.fresh_ofSources (sources : List SourceText) : (ApiSet.ofSources sources).Fresh := by
  refine ⟨_, _, fun f hf => ?_, rfl⟩
  obtain ⟨text, -, hread⟩ := List.mem_filterMap.mp hf
  refine ⟨text, f, ?_, rfl⟩
  cases h : text.read with
  | ok g => simpa [h, Except.toOption] using hread
  | error e => simp [h, Except.toOption] at hread

def Project.ofSources (settings : Settings) (sources : List SourceText) : Project where
  title := settings.title
  settings := settings
  versions := [{ number := "1.0.0", sets := [.api (.ofSources sources)] }]

theorem Project.fresh_ofSources (settings : Settings) (sources : List SourceText) :
    (Project.ofSources settings sources).Fresh := by
  intro s hs
  obtain rfl : s = .ofSources sources := by
    simpa [ofSources, apiSets, Version.apiSets, DocSet.api?] using hs
  exact ApiSet.fresh_ofSources sources

/-! ### Visits -/

theorem Attempt.state_visit {α : Type} {step : α → Attempt α} {xs : List α}
    (h : (Attempt.visit step xs).failure = none) :
    (Attempt.visit step xs).state = xs.map (fun x => (step x).state) ∧
      ∀ x ∈ xs, (step x).failure = none := by
  induction xs with
  | nil => simp [visit]
  | cons x rest ih =>
    cases hx : (step x).failure with
    | some e => simp [visit, hx] at h
    | none =>
      simp only [visit, hx] at h ⊢
      obtain ⟨hstate, hrest⟩ := ih h
      exact ⟨congrArg _ hstate, List.forall_mem_cons.mpr ⟨hx, hrest⟩⟩

theorem Project.mem_apiSets_iff {p : Project} {s : ApiSet} :
    s ∈ p.apiSets ↔ ∃ v ∈ p.versions, .api s ∈ v.sets := by
  simp only [apiSets, List.mem_flatMap, Version.apiSets, List.mem_filterMap]
  refine exists_congr fun v => and_congr_right fun _ => ?_
  constructor
  · rintro ⟨d, hd, hapi⟩
    cases d with
    | api set =>
      obtain rfl : set = s := by simpa [DocSet.api?] using hapi
      exact hd
    | guide set => simp [DocSet.api?] at hapi
  · intro hd
    exact ⟨.api s, hd, rfl⟩

/-- The API set at a place: the position of its version and its position there. -/
def Project.apiSet? (p : Project) (v i : Nat) : Option ApiSet :=
  p.versions[v]?.bind fun version => version.sets[i]?.bind DocSet.api?

theorem Project.apiSet?_eq_some_iff {p : Project} {v i : Nat} {s : ApiSet} :
    p.apiSet? v i = some s ↔
      ∃ version, p.versions[v]? = some version ∧ version.sets[i]? = some (.api s) := by
  simp only [apiSet?, Option.bind_eq_some_iff]
  refine exists_congr fun version => and_congr_right fun _ => ?_
  constructor
  · rintro ⟨d, hd, hapi⟩
    cases d with
    | api set =>
      obtain rfl : set = s := by simpa [DocSet.api?] using hapi
      exact hd
    | guide set => simp [DocSet.api?] at hapi
  · intro hd
    exact ⟨.api s, hd, rfl⟩

theorem Project.mem_apiSets_iff_apiSet? {p : Project} {s : ApiSet} :
    s ∈ p.apiSets ↔ ∃ v i, p.apiSet? v i = some s := by
  simp only [apiSet?_eq_some_iff, mem_apiSets_iff]
  constructor
  · rintro ⟨version, hversion, hs⟩
    obtain ⟨v, hv⟩ := List.getElem?_of_mem hversion
    obtain ⟨i, hi⟩ := List.getElem?_of_mem hs
    exact ⟨v, i, version, hv, hi⟩
  · rintro ⟨v, i, version, hv, hi⟩
    exact ⟨version, List.mem_of_getElem? hv, List.mem_of_getElem? hi⟩

/-- Sets that are changed one by one keep their places. -/
theorem Project.apiSet?_map {f : DocSet → DocSet} {g : ApiSet → ApiSet} {p q : Project}
    (hq : q.versions = p.versions.map fun version => { version with sets := version.sets.map f })
    {v i : Nat} (hf : ∀ version, p.versions[v]? = some version → ∀ d ∈ version.sets,
      (f d).api? = d.api?.map g) :
    q.apiSet? v i = (p.apiSet? v i).map g := by
  rw [apiSet?, apiSet?, hq, List.getElem?_map]
  cases hv : p.versions[v]? with
  | none => rfl
  | some version =>
    simp only [Option.map_some, Option.bind_some, List.getElem?_map]
    cases hi : version.sets[i]? with
    | none => rfl
    | some d => exact hf version hv d (List.mem_of_getElem? hi)

/-- What a step on all sets that does not fail makes of the API set at a place. -/
theorem Project.apiSet?_visitSets {step : DocSet → Attempt DocSet} {g : ApiSet → ApiSet}
    (hstep : ∀ d, (step d).failure = none → (step d).state.api? = d.api?.map g) {p : Project}
    (h : (p.visitSets step).failure = none) (v i : Nat) :
    (p.visitSets step).state.apiSet? v i = (p.apiSet? v i).map g := by
  obtain ⟨hversions, hnone⟩ := Attempt.state_visit h
  refine apiSet?_map (f := fun d => (step d).state) (hversions.trans ?_) ?_
  · refine List.map_congr_left fun version hversion => ?_
    have hsets := (Attempt.state_visit (hnone version hversion)).1
    simp only [Attempt.map, hsets]
  · intro version hversion d hd
    have hfine := Attempt.state_visit (hnone version (List.mem_of_getElem? hversion))
    exact hstep d (hfine.2 d hd)

/-! ### Steps and runs -/

/-- A step that does not fail keeps the settings and changes every API set as the function says. -/
def Pass.Takes (pass : Pass) (f : Services → Settings → ApiSet → ApiSet) : Prop :=
  ∀ services p, (pass.run services p).failure = none →
    (pass.run services p).state.settings = p.settings ∧
      ∀ v i, (pass.run services p).state.apiSet? v i = (p.apiSet? v i).map (f services p.settings)

theorem Pass.takes_onApiSets {description : String} {priority : Int}
    {step : Services → Settings → ApiSet → Attempt ApiSet}
    {f : Services → Settings → ApiSet → ApiSet}
    (h : ∀ services settings s, (step services settings s).failure = none →
      (step services settings s).state = f services settings s) :
    (Pass.onApiSets description priority step).Takes f := by
  intro services p hfailure
  refine ⟨rfl, Project.apiSet?_visitSets (fun d hd => ?_) hfailure⟩
  cases d with
  | api s => exact congrArg some (h services p.settings s hd)
  | guide g => rfl

namespace Compiler

/-- Steps that run one after the other without failing. -/
inductive Runs (services : Services) : List Pass → Project → Project → Prop
  | nil (p : Project) : Runs services [] p p
  | cons {pass : Pass} {rest : List Pass} {p q : Project}
      (ok : (pass.run services p).failure = none)
      (next : Runs services rest (pass.run services p).state q) : Runs services (pass :: rest) p q

theorem runs_of_compile {c : Compiler} {services : Services} {p : Project}
    (h : (c.compile services p).failure = none) :
    Runs services c.passes p (c.compile services p).state := by
  have hfold (passes : List Pass) (acc : Attempt Project)
      (h : (passes.foldl (fun done q => done.andThen (runPass services q)) acc).failure = none) :
      acc.failure = none ∧ Runs services passes acc.state
        (passes.foldl (fun done q => done.andThen (runPass services q)) acc).state := by
    induction passes generalizing acc with
    | nil => exact ⟨h, .nil _⟩
    | cons pass rest ih =>
      obtain ⟨hstep, hrest⟩ := ih _ h
      cases hacc : acc.failure with
      | some e => simp [Attempt.andThen, hacc] at hstep
      | none =>
        simp only [Attempt.andThen, hacc] at hstep
        refine ⟨rfl, .cons hstep ?_⟩
        rw [List.foldl_cons]
        have hstate : (acc.andThen (runPass services pass)).state = (pass.run services acc.state).state := by
          simp only [Attempt.andThen, hacc, runPass]
        rwa [← hstate]
  exact (hfold c.passes { state := p } h).2

theorem compile_of_runs {passes : List Pass} {services : Services} {p q : Project}
    (h : Runs services passes p q) :
    ((Compiler.mk passes).compile services p).failure = none ∧
      ((Compiler.mk passes).compile services p).state = q := by
  have hfold (acc : Attempt Project) (hacc : acc.failure = none) (hp : acc.state = p) :
      (passes.foldl (fun done q => done.andThen (runPass services q)) acc).failure = none ∧
        (passes.foldl (fun done q => done.andThen (runPass services q)) acc).state = q := by
    induction h generalizing acc with
    | nil p => exact ⟨hacc, hp⟩
    | cons ok next ih =>
      subst hp
      refine ih _ ?_ ?_
      · simpa only [Attempt.andThen, hacc, runPass] using ok
      · simp only [Attempt.andThen, hacc, runPass]
  exact hfold { state := p } rfl rfl

/-- How a sequence of steps changes the API sets of a project, whose settings it keeps. -/
def Leads (passes : List Pass) (f : Services → Settings → ApiSet → ApiSet) : Prop :=
  ∀ services p q, Runs services passes p q →
    q.settings = p.settings ∧ ∀ v i, q.apiSet? v i = (p.apiSet? v i).map (f services p.settings)

theorem leads_nil : Leads [] fun _ _ s => s := by
  intro services p q hruns
  cases hruns
  exact ⟨rfl, fun v i => Option.map_id'.symm⟩

theorem leads_cons {pass : Pass} {rest : List Pass} {f g : Services → Settings → ApiSet → ApiSet}
    (hpass : pass.Takes f) (hrest : Leads rest g) :
    Leads (pass :: rest) fun services settings s =>
      g services settings (f services settings s) := by
  intro services p q hruns
  cases hruns with
  | cons ok next =>
    obtain ⟨hsettings, hsets⟩ := hpass services p ok
    obtain ⟨hkept, hlater⟩ := hrest services _ q next
    refine ⟨hkept.trans hsettings, fun v i => ?_⟩
    rw [hlater, hsets, hsettings, Option.map_map]
    rfl

/-- The steps of the standard compiler before the last one. -/
def preparing : List Pass :=
  [Compile.elementsPass, Compile.linkPass, Compile.spacesPass, Compile.packagesPass,
    Compile.markersPass, Compile.examplesPass, Compile.inlineLinksPass, Compile.backLinksPass,
    Compile.contentsPass]

theorem runs_append {services : Services} {first later : List Pass} {p q : Project}
    (h : Runs services (first ++ later) p q) :
    ∃ mid, Runs services first p mid ∧ Runs services later mid q := by
  induction first generalizing p with
  | nil => exact ⟨p, .nil p, h⟩
  | cons pass rest ih =>
    cases h with
    | cons ok next =>
      obtain ⟨mid, hfirst, hlater⟩ := ih next
      exact ⟨mid, .cons ok hfirst, hlater⟩

theorem passes_standard : standard.passes =
    [Compile.elementsPass, Compile.linkPass, Compile.spacesPass, Compile.packagesPass,
      Compile.markersPass, Compile.examplesPass, Compile.inlineLinksPass, Compile.backLinksPass,
      Compile.contentsPass, Compile.filterPass] := by
  simp [standard, standardPasses, insert, insertPass, empty, Compile.elementsPass,
    Compile.linkPass, Compile.spacesPass, Compile.packagesPass, Compile.markersPass,
    Compile.examplesPass, Compile.inlineLinksPass, Compile.backLinksPass, Compile.contentsPass,
    Compile.filterPass, Pass.onApiSets]

/-- The steps of a compiler that run before a step of the given one's priority. -/
def before (c : Compiler) (pass : Pass) : Compiler :=
  ⟨c.passes.takeWhile fun q => pass.priority < q.priority⟩

theorem runs_before {c : Compiler} {services : Services} {p : Project}
    (h : (c.compile services p).failure = none) (pass : Pass) :
    Runs services (c.before pass).passes p ((c.before pass).compile services p).state := by
  have hruns := runs_of_compile h
  rw [← List.takeWhile_append_dropWhile (p := fun q : Pass => decide (pass.priority < q.priority))
    (l := c.passes)] at hruns
  obtain ⟨mid, hfirst, -⟩ := runs_append hruns
  have hstate : ((c.before pass).compile services p).state = mid := (compile_of_runs hfirst).2
  rwa [hstate]

theorem passes_before_inlineLinksPass :
    (standard.before Compile.inlineLinksPass).passes =
      [Compile.elementsPass, Compile.linkPass, Compile.spacesPass, Compile.packagesPass,
        Compile.markersPass, Compile.examplesPass] := by
  rw [before, passes_standard]
  rfl

end Compiler

namespace Compile

/-! ### The steps before the last one -/

theorem takes_elementsPass : elementsPass.Takes fun _ _ => withIndexes := by
  refine Pass.takes_onApiSets fun services settings s h => ?_
  unfold buildIndexes at h ⊢
  cases hstrict : settings.strictNames with
  | false => rfl
  | true =>
    cases hpairs : repeats .empty s.allElements with
    | nil => rfl
    | cons pair rest => simp [hstrict, hpairs, Attempt.fail] at h

theorem takes_linkPass : linkPass.Takes fun _ _ => linked :=
  Pass.takes_onApiSets fun _ _ _ _ => rfl

theorem takes_spacesPass : spacesPass.Takes fun _ _ => withSpaces :=
  Pass.takes_onApiSets fun _ _ _ _ => rfl

theorem takes_packagesPass :
    packagesPass.Takes fun _ settings => withPackages settings.defaultPackage :=
  Pass.takes_onApiSets fun _ _ _ _ => rfl

theorem takes_markersPass :
    markersPass.Takes fun _ settings s => (mark settings.markers s).state :=
  Pass.takes_onApiSets fun _ _ _ _ => rfl

theorem takes_inlineLinksPass :
    inlineLinksPass.Takes fun services _ s => editAllTexts (withLinks services.router s) s :=
  Pass.takes_onApiSets fun _ _ _ _ => rfl

theorem takes_backLinksPass : backLinksPass.Takes fun _ _ s => (backLink s).state :=
  Pass.takes_onApiSets fun _ _ _ _ => rfl

/-- A set with its examples, each looked up anew. -/
def exampled (finder : ExampleFinder) : ApiSet → ApiSet :=
  editAllTexts fun _ => withExampleTexts finder

/-- A documentation set with its examples; a guide has none. -/
def exampledSet (finder : ExampleFinder) : DocSet → DocSet
  | .api s => .api (exampled finder s)
  | .guide g => .guide g

theorem exampleSets_eq {finder : ExampleFinder} (sets : List DocSet) {done : List Lookup}
    (hdone : AllOwn finder done) :
    (exampleSets finder sets done).1 = sets.map (exampledSet finder) ∧
      AllOwn finder (exampleSets finder sets done).2 := by
  induction sets generalizing done with
  | nil => exact ⟨rfl, hdone⟩
  | cons d rest ih =>
    cases d with
    | guide g =>
      obtain ⟨hothers, hlast⟩ := ih hdone
      exact ⟨congrArg _ hothers, hlast⟩
    | api s =>
      obtain ⟨hnew, hnext⟩ := editAllTextsWith_withExamples s hdone
      obtain ⟨hothers, hlast⟩ := ih hnext
      exact ⟨congrArg₂ List.cons (congrArg DocSet.api hnew) hothers, hlast⟩

theorem exampleVersions_eq {finder : ExampleFinder} (versions : List Version)
    {done : List Lookup} (hdone : AllOwn finder done) :
    (exampleVersions finder versions done).1 =
      versions.map fun v => { v with sets := v.sets.map (exampledSet finder) } := by
  induction versions generalizing done with
  | nil => rfl
  | cons v rest ih =>
    obtain ⟨hsets, hnext⟩ := exampleSets_eq v.sets hdone
    have hothers := ih hnext
    simp only [exampleVersions, List.map_cons, hsets, hothers]

theorem takes_examplesPass : examplesPass.Takes fun services _ => exampled services.finder := by
  intro services p _
  refine ⟨rfl, fun v i => ?_⟩
  refine Project.apiSet?_map (exampleVersions_eq p.versions (allOwn_nil services.finder))
    fun version _ d _ => ?_
  cases d <;> rfl

theorem takes_contentsPass :
    contentsPass.Takes fun services _ s => (apiContents services.router s).state := by
  intro services p hfailure
  refine ⟨rfl, Project.apiSet?_visitSets (fun d _ => ?_) hfailure⟩
  cases d <;> rfl

theorem takes_filterPass : filterPass.Takes fun _ settings s => (filterSet settings s).state :=
  Pass.takes_onApiSets fun _ _ _ _ => rfl

/-! ### The course of a set -/

/-- What a set has become when examples are put into its texts. -/
def marked (settings : Settings) (s : ApiSet) : ApiSet :=
  (mark settings.markers
    (withPackages settings.defaultPackage (withSpaces (linked (withIndexes s))))).state

/-- What a set has become when links are put into its texts. -/
def arranged (services : Services) (settings : Settings) (s : ApiSet) : ApiSet :=
  exampled services.finder (marked settings s)

/-- What a set has become before back links are made. -/
def worded (services : Services) (settings : Settings) (s : ApiSet) : ApiSet :=
  editAllTexts (withLinks services.router (arranged services settings s))
    (arranged services settings s)

/-- What the step that puts links into texts finds at a place. -/
theorem apiSet?_before_inlineLinksPass {services : Services} {p : Project}
    (h : (Compiler.standard.compile services p).failure = none) (v i : Nat) :
    ((Compiler.standard.before inlineLinksPass).compile services p).state.apiSet? v i =
      (p.apiSet? v i).map (arranged services p.settings) := by
  have hruns := Compiler.runs_before h inlineLinksPass
  rw [Compiler.passes_before_inlineLinksPass] at hruns
  have hleads := Compiler.leads_cons takes_elementsPass <|
    Compiler.leads_cons takes_linkPass <| Compiler.leads_cons takes_spacesPass <|
    Compiler.leads_cons takes_packagesPass <| Compiler.leads_cons takes_markersPass <|
    Compiler.leads_cons takes_examplesPass <| Compiler.leads_nil
  exact (hleads services p _ hruns).2 v i

structure Prepared (settings : Settings) (s u : ApiSet) : Prop where
  retouch : (linked (withIndexes s)).Retouch Item.tags u
  frame_eq : u.frame =
    (withPackages settings.defaultPackage (withSpaces (linked (withIndexes s)))).frame

/-- What a set has become when it reaches the last step. -/
structure Course (settings : Settings) (s v : ApiSet) : Prop where
  exists_prepared : ∃ u, Prepared settings s u ∧ v.files = (backLink u).state.files ∧
    v.frame = u.frame

theorem Course.retouch {settings : Settings} {s v : ApiSet} (h : Course settings s v) :
    s.Retouch (fun _ => ()) v := by
  obtain ⟨u, hu, hfiles, -⟩ := h.exists_prepared
  have hindexes : s.Retouch (fun _ => ()) (withIndexes s) := .of_files_eq (files_withIndexes s)
  exact (((hindexes.trans (retouch_linked _).unit).trans hu.retouch.unit).trans
    (retouch_backLink u).unit).files_congr hfiles

theorem retouch_marked (settings : Settings) (s : ApiSet) :
    (linked (withIndexes s)).Retouch tagsAndTexts (marked settings s) ∧
      (marked settings s).frame =
        (withPackages settings.defaultPackage (withSpaces (linked (withIndexes s)))).frame := by
  have hspaces : (linked (withIndexes s)).Retouch tagsAndTexts
      (withSpaces (linked (withIndexes s))) := .of_files_eq (files_withSpaces _)
  have hpackages :=
    retouch_withPackages settings.defaultPackage (withSpaces (linked (withIndexes s)))
  obtain ⟨hmarked, hframe⟩ := retouch_mark settings.markers
    (withPackages settings.defaultPackage (withSpaces (linked (withIndexes s))))
  exact ⟨(hspaces.trans hpackages).trans hmarked, hframe⟩

/-- Packing, marking and showing examples retouch what was linked. -/
theorem prepared_arranged (services : Services) (settings : Settings) (s : ApiSet) :
    Prepared settings s (arranged services settings s) := by
  obtain ⟨hmarked, hmarkedFrame⟩ := retouch_marked settings s
  obtain ⟨hexamples, hexamplesFrame⟩ := retouch_editAllTexts
    (fun _ => withExampleTexts services.finder) (marked settings s)
  exact ⟨(hmarked.coarsen Prod.fst).trans hexamples, hexamplesFrame.trans hmarkedFrame⟩

theorem prepared_worded (services : Services) (settings : Settings) (s : ApiSet) :
    Prepared settings s (worded services settings s) := by
  have harranged := prepared_arranged services settings s
  obtain ⟨hlinks, hframe⟩ := retouch_editAllTexts
    (withLinks services.router (arranged services settings s)) (arranged services settings s)
  exact ⟨harranged.retouch.trans hlinks, hframe.trans harranged.frame_eq⟩

/-- What the steps before the last one make of a set. -/
def ready (services : Services) (settings : Settings) (s : ApiSet) : ApiSet :=
  (apiContents services.router (backLink (worded services settings s)).state).state

theorem leads_preparing : Compiler.Leads Compiler.preparing ready := by
  have hleads := Compiler.leads_cons takes_elementsPass <|
    Compiler.leads_cons takes_linkPass <| Compiler.leads_cons takes_spacesPass <|
    Compiler.leads_cons takes_packagesPass <| Compiler.leads_cons takes_markersPass <|
    Compiler.leads_cons takes_examplesPass <| Compiler.leads_cons takes_inlineLinksPass <|
    Compiler.leads_cons takes_backLinksPass <| Compiler.leads_cons takes_contentsPass <|
    Compiler.leads_nil
  exact hleads

theorem course_ready (services : Services) (settings : Settings) (s : ApiSet) :
    Course settings s (ready services settings s) := by
  rw [ready]
  obtain ⟨hfiles, hframe⟩ :=
    files_apiContents services.router (backLink (worded services settings s)).state
  exact ⟨worded services settings s, prepared_worded services settings s, hfiles,
    hframe.trans (frame_backLink _)⟩

/-- What the API sets of a project have become when they reach the last step. -/
theorem exists_course_of_runs {services : Services} {p q : Project}
    (h : Compiler.Runs services Compiler.preparing p q) :
    q.settings = p.settings ∧ ∀ v ∈ q.apiSets, ∃ s ∈ p.apiSets, Course p.settings s v := by
  obtain ⟨hsettings, hsets⟩ := leads_preparing services p q h
  refine ⟨hsettings, fun u hu => ?_⟩
  obtain ⟨v, i, hplace⟩ := Project.mem_apiSets_iff_apiSet?.mp hu
  rw [hsets] at hplace
  obtain ⟨s, hs, rfl⟩ := Option.map_eq_some_iff.mp hplace
  exact ⟨s, Project.mem_apiSets_iff_apiSet?.mpr ⟨v, i, hs⟩, course_ready services p.settings s⟩

/-- What the compiler makes of the API set at a place. -/
theorem apiSet?_compile {services : Services} {p : Project}
    (h : (Compiler.standard.compile services p).failure = none) (v i : Nat) :
    (Compiler.standard.compile services p).state.apiSet? v i = (p.apiSet? v i).map fun s =>
      (filterSet p.settings (ready services p.settings s)).state := by
  have hruns := Compiler.runs_of_compile h
  rw [Compiler.passes_standard] at hruns
  obtain ⟨mid, hbefore, hlast⟩ : ∃ mid, Compiler.Runs services Compiler.preparing p mid ∧
      Compiler.Runs services [filterPass] mid _ := Compiler.runs_append hruns
  obtain ⟨hsettings, hsets⟩ := leads_preparing services p mid hbefore
  obtain ⟨-, hfiltered⟩ :=
    Compiler.leads_cons takes_filterPass Compiler.leads_nil services mid _ hlast
  rw [hfiltered, hsets, hsettings, Option.map_map]
  rfl

/-- Every API set of a compiled project has gone through all steps. -/
theorem exists_course {services : Services} {p : Project}
    (h : (Compiler.standard.compile services p).failure = none) {t : ApiSet}
    (ht : t ∈ (Compiler.standard.compile services p).state.apiSets) :
    ∃ s ∈ p.apiSets, ∃ v, Course p.settings s v ∧ t = (filterSet p.settings v).state := by
  obtain ⟨v, i, hplace⟩ := Project.mem_apiSets_iff_apiSet?.mp ht
  rw [apiSet?_compile h] at hplace
  obtain ⟨s, hs, rfl⟩ := Option.map_eq_some_iff.mp hplace
  exact ⟨s, Project.mem_apiSets_iff_apiSet?.mpr ⟨v, i, hs⟩, _,
    course_ready services p.settings s, rfl⟩

end Compile

/-! ### Runs that do not fail -/

theorem Attempt.failure_visit {α : Type} {step : α → Attempt α} {xs : List α}
    (h : ∀ x ∈ xs, (step x).failure = none) : (Attempt.visit step xs).failure = none := by
  induction xs with
  | nil => rfl
  | cons x rest ih =>
    have hx := h x List.mem_cons_self
    simpa only [visit, hx] using ih fun y hy => h y (List.mem_cons_of_mem _ hy)

theorem Project.failure_visitSets {step : DocSet → Attempt DocSet}
    (h : ∀ d, (step d).failure = none) (p : Project) : (p.visitSets step).failure = none :=
  Attempt.failure_visit fun _ _ => Attempt.failure_visit fun d _ => h d

theorem Project.failure_visitApis {step : ApiSet → Attempt ApiSet}
    (h : ∀ s, (step s).failure = none) (p : Project) : (p.visitApis step).failure = none := by
  refine failure_visitSets (fun d => ?_) p
  cases d with
  | api s => exact h s
  | guide g => rfl

theorem Router.exists_page_standard (d : Destination) : ∃ page, standard.page d = .ok page := by
  cases d <;> exact ⟨_, rfl⟩

namespace Compile

/-- With a page for everything, every table can be made. -/
theorem exists_addNodes {router : Router} (hr : ∀ d, ∃ page, router.page d = .ok page)
    (t : Taxonomy) (depth : Nat) (parent : Option String) (nodes : List Node) (toc : Toc) :
    ∃ filled, addNodes router t parent depth nodes toc = .ok filled := by
  induction depth generalizing parent nodes toc with
  | zero =>
    induction nodes generalizing toc with
    | nil => exact ⟨toc, by rw [addNodes]⟩
    | cons n rest ih =>
      rw [addNodes, addNode]
      exact ih toc
  | succ depth ihDepth =>
    induction nodes generalizing toc with
    | nil => exact ⟨toc, by rw [addNodes]⟩
    | cons n rest ih =>
      obtain ⟨page, hpage⟩ := hr (nodeDestination t.kind n)
      obtain ⟨below, hbelow⟩ := ihDepth (some (relativeUrl page)) (t.children n.id)
        (toc.add { url := relativeUrl page, title := n.fullName.text, parent := parent })
      obtain ⟨filled, hfilled⟩ := ih below
      refine ⟨filled, ?_⟩
      rw [addNodes, addNode, hpage]
      simpa [bind, Except.bind, hbelow] using hfilled

theorem failure_apiContents {router : Router} (hr : ∀ d, ∃ page, router.page d = .ok page)
    (s : ApiSet) : (apiContents router s).failure = none := by
  have htable (name : String) (t : Taxonomy) : ∃ tables, treeTable router name t = .ok tables := by
    rw [treeTable]
    split
    · obtain ⟨toc, htoc⟩ := exists_addNodes hr t t.size none (t.children Taxonomy.rootId)
        { name := name }
      exact ⟨[toc], by rw [htoc]; rfl⟩
    · exact ⟨[], rfl⟩
  obtain ⟨spaces, hspaces⟩ := htable "Namespaces" s.namespaces
  obtain ⟨packages, hpackages⟩ := htable "Packages" s.packages
  rw [apiContents, apiTables, hspaces, hpackages]
  rfl

theorem failure_walk {router : Router} (hr : ∀ d, ∃ page, router.page d = .ok page)
    (docs : NameMap Document) (steps : Nat) (listed : List Listing) (w : GuideWalk) :
    (walk router docs steps listed w).failure = w.failure := by
  fun_induction walk router docs steps listed w with
  | case1 => rfl
  | case2 => rfl
  | case3 => assumption
  | case4 => assumption
  | case5 steps l rest w key child hchild hseen e he =>
    obtain ⟨page, hpage⟩ := hr (.document child.path)
    simp [hpage] at he
  | case6 => assumption

theorem failure_guideContents {router : Router} (hr : ∀ d, ∃ page, router.page d = .ok page)
    (g : GuideSet) : (guideContents router g).failure = none := by
  unfold guideContents
  cases g.documents.get? guideIndex with
  | none => rfl
  | some index => simp only [failure_walk hr]

end Compile

/-- A step that does not fail on projects of a kind, and leads to projects of that kind. -/
def Pass.Succeeds (P : Project → Prop) (services : Services) (pass : Pass) : Prop :=
  ∀ p, P p → (pass.run services p).failure = none ∧ P (pass.run services p).state

namespace Compiler

theorem failure_foldl_of_succeeds {P : Project → Prop} {services : Services} {passes : List Pass}
    (h : ∀ pass ∈ passes, pass.Succeeds P services) {acc : Attempt Project}
    (hacc : acc.failure = none) (hp : P acc.state) :
    (passes.foldl (fun done q => done.andThen (runPass services q)) acc).failure = none := by
  induction passes generalizing acc with
  | nil => exact hacc
  | cons pass rest ih =>
    obtain ⟨hfailure, hstate⟩ := h pass List.mem_cons_self acc.state hp
    refine ih (fun q hq => h q (List.mem_cons_of_mem _ hq)) ?_ ?_
    · simpa only [Attempt.andThen, hacc, runPass] using hfailure
    · simpa only [Attempt.andThen, hacc, runPass] using hstate

/-- With a page for everything and without markers, no step behind the first one fails. -/
theorem succeeds_of_mem_tail {services : Services}
    (hr : ∀ d, ∃ page, services.router.page d = .ok page) {settings : Settings}
    (hmarkers : settings.markers = []) {pass : Pass} (hpass : pass ∈ standard.passes.tail) :
    pass.Succeeds (fun q => q.settings = settings) services := by
  have hapi (description : String) (priority : Int)
      (step : Services → Settings → ApiSet → Attempt ApiSet)
      (h : ∀ s, (step services settings s).failure = none) :
      (Pass.onApiSets description priority step).Succeeds (fun q => q.settings = settings)
        services := by
    intro q hq
    refine ⟨Project.failure_visitApis (fun s => ?_) q, hq⟩
    rw [hq]
    exact h s
  simp only [passes_standard, List.tail_cons, List.mem_cons, List.not_mem_nil, or_false] at hpass
  rcases hpass with rfl | rfl | rfl | rfl | rfl | rfl | rfl | rfl | rfl
  · exact hapi _ _ _ fun _ => rfl
  · exact hapi _ _ _ fun _ => rfl
  · exact hapi _ _ _ fun _ => rfl
  · refine hapi _ _ _ fun s => ?_
    simp only [Compile.mark, hmarkers]
    rfl
  · exact fun q hq => ⟨rfl, hq⟩
  · exact hapi _ _ _ fun _ => rfl
  · exact hapi _ _ _ fun _ => rfl
  · refine fun q hq => ⟨Project.failure_visitSets (fun d => ?_) q, hq⟩
    cases d with
    | api s => exact Compile.failure_apiContents hr s
    | guide g => exact Compile.failure_guideContents hr g
  · refine hapi _ _ _ fun s => ?_
    simp only [Compile.filterSet]

/-- With a page for everything and without markers, nothing fails if no index does. -/
theorem failure_standard_of_buildIndexes {services : Services}
    (hr : ∀ d, ∃ page, services.router.page d = .ok page) {p : Project}
    (hindexes : ∀ s, .api s ∈ p.versions.flatMap Version.sets →
      (Compile.buildIndexes p.settings.strictNames s).failure = none)
    (hmarkers : p.settings.markers = []) : (standard.compile services p).failure = none := by
  have hfirst : (Compile.elementsPass.run services p).failure = none := by
    refine Attempt.failure_visit fun v hv => Attempt.failure_visit fun d hd => ?_
    cases d with
    | api s => exact hindexes s (List.mem_flatMap.mpr ⟨v, hv, hd⟩)
    | guide g => rfl
  have hpasses : standard.passes = Compile.elementsPass :: standard.passes.tail := by
    rw [passes_standard, List.tail_cons]
  rw [compile, hpasses, List.foldl_cons]
  exact failure_foldl_of_succeeds (fun pass => succeeds_of_mem_tail hr hmarkers) hfirst rfl

/-- Without strict names and markers, and with a page for everything, nothing fails. -/
theorem failure_standard {services : Services}
    (hr : ∀ d, ∃ page, services.router.page d = .ok page) {p : Project}
    (hstrict : p.settings.strictNames = false) (hmarkers : p.settings.markers = []) :
    (standard.compile services p).failure = none := by
  refine failure_standard_of_buildIndexes hr (fun s _ => ?_) hmarkers
  simp only [Compile.buildIndexes, hstrict]

end Compiler

end ApiDoc
