import ApiDoc.Proofs.FileOrder

/-!
# Sets by themselves

A step of the compiler does the same to a set whatever other sets a project has: it fails if it
fails on one of them, and otherwise it changes every set in its place. What was looked up for the
examples of one set is kept for the next, but a kept look-up gives what a new one would give. Steps
of this kind in a row are again of this kind, so a project is compiled set by set.
-/

namespace ApiDoc

/-! ### Steps on items -/

/-- The attempt does not fail and leads to a state. -/
structure Attempt.Yields {α : Type} (a : Attempt α) (x : α) : Prop where
  failure : a.failure = none
  state : a.state = x

namespace Attempt

variable {α : Type} {step : α → Attempt α}

theorem exists_yields_iff {a : Attempt α} : (∃ x, a.Yields x) ↔ a.failure = none :=
  ⟨fun ⟨_, h⟩ => h.failure, fun h => ⟨_, h, rfl⟩⟩

theorem failure_visit_iff {xs : List α} :
    (visit step xs).failure = none ↔ ∀ x ∈ xs, (step x).failure = none :=
  ⟨fun h => (state_visit h).2, failure_visit⟩

theorem failure_andThen_iff {a : Attempt α} :
    (a.andThen step).failure = none ↔ a.failure = none ∧ (step a.state).failure = none := by
  rw [andThen]
  cases ha : a.failure with
  | none => simp
  | some e => simp [ha]

theorem state_andThen {a : Attempt α} (h : a.failure = none) :
    (a.andThen step).state = (step a.state).state := by
  rw [andThen, h]

end Attempt

namespace Project

def sets (p : Project) : List DocSet := p.versions.flatMap Version.sets

def mapSets (f : DocSet → DocSet) (p : Project) : Project :=
  { p with versions := p.versions.map fun v => { v with sets := v.sets.map f } }

variable {p q r : Project} {f g : DocSet → DocSet}

theorem sets_mapSets : (p.mapSets f).sets = p.sets.map f := by
  simp only [sets, mapSets, List.flatMap_map, List.map_flatMap]

theorem mapSets_mapSets : (p.mapSets f).mapSets g = p.mapSets (g ∘ f) := by
  simp only [mapSets, List.map_map, Function.comp_def]

theorem mapSets_congr (h : ∀ d ∈ p.sets, f d = g d) : p.mapSets f = p.mapSets g := by
  refine congrArg (fun versions => { p with versions := versions }) ?_
  refine List.map_congr_left fun v hv => ?_
  rw [List.map_congr_left fun d hd => h d (List.mem_flatMap.mpr ⟨v, hv, hd⟩)]

theorem mapSets_id : p.mapSets id = p := by
  simp only [mapSets, List.map_id, List.map_id']

/-- A project comes from another one set by set: the step fails on none of the sets, and each has
become what the step makes of it. -/
structure SetBySet (step : DocSet → Attempt DocSet) (p q : Project) : Prop where
  failure : ∀ d ∈ p.sets, (step d).failure = none
  eq : q = p.mapSets fun d => (step d).state

theorem setBySet_andThen_iff {first later : DocSet → Attempt DocSet} :
    p.SetBySet (fun d => (first d).andThen later) q ↔
      ∃ r, p.SetBySet first r ∧ r.SetBySet later q := by
  have hstate (hfirst : ∀ d ∈ p.sets, (first d).failure = none) :
      (p.mapSets fun d => ((first d).andThen later).state) =
        (p.mapSets fun d => (first d).state).mapSets fun d => (later d).state := by
    rw [mapSets_mapSets]
    exact mapSets_congr fun d hd => Attempt.state_andThen (hfirst d hd)
  constructor
  · rintro ⟨hfailure, rfl⟩
    have hboth d hd := Attempt.failure_andThen_iff.mp (hfailure d hd)
    refine ⟨_, ⟨fun d hd => (hboth d hd).1, rfl⟩, fun d hd => ?_, ?_⟩
    · rw [sets_mapSets] at hd
      obtain ⟨old, hold, rfl⟩ := List.mem_map.mp hd
      exact (hboth old hold).2
    · exact hstate fun d hd => (hboth d hd).1
  · rintro ⟨_, ⟨hfirst, rfl⟩, hlater, rfl⟩
    rw [sets_mapSets, List.forall_mem_map] at hlater
    refine ⟨fun d hd => ?_, (hstate hfirst).symm⟩
    exact Attempt.failure_andThen_iff.mpr ⟨hfirst d hd, hlater d hd⟩

theorem yields_visitSets_iff {step : DocSet → Attempt DocSet} :
    (p.visitSets step).Yields q ↔ p.SetBySet step q := by
  have hnone : (p.visitSets step).failure = none ↔ ∀ d ∈ p.sets, (step d).failure = none := by
    simp only [visitSets, Attempt.map, Attempt.failure_visit_iff, sets, List.mem_flatMap]
    constructor
    · rintro h d ⟨v, hv, hd⟩
      exact h v hv d hd
    · intro h v hv d hd
      exact h d ⟨v, hv, hd⟩
  have hstate (h : (p.visitSets step).failure = none) :
      (p.visitSets step).state = p.mapSets fun d => (step d).state := by
    obtain ⟨hversions, hsets⟩ := Attempt.state_visit h
    refine congrArg (fun versions => { p with versions := versions }) (hversions.trans ?_)
    refine List.map_congr_left fun v hv => ?_
    exact congrArg (fun sets => { v with sets := sets }) (Attempt.state_visit (hsets v hv)).1
  constructor
  · rintro ⟨hfailure, rfl⟩
    exact ⟨hnone.mp hfailure, hstate hfailure⟩
  · rintro ⟨hfailure, rfl⟩
    exact ⟨hnone.mpr hfailure, hstate (hnone.mpr hfailure)⟩

/-- What there is to say of an attempt that leads on set by set. -/
theorem SetBySet.outcome {a : Attempt Project} {step : DocSet → Attempt DocSet}
    (h : ∀ q, a.Yields q ↔ p.SetBySet step q) :
    (a.failure = none ↔ ∀ d ∈ p.sets, (step d).failure = none) ∧
      (a.failure = none → a.state = p.mapSets fun d => (step d).state) := by
  refine ⟨?_, fun hnone => ((h a.state).mp ⟨hnone, rfl⟩).eq⟩
  rw [← Attempt.exists_yields_iff, exists_congr h]
  exact ⟨fun ⟨_, hq⟩ => hq.failure, fun hall => ⟨_, hall, rfl⟩⟩

theorem sets_holding (title number : String) (settings : Settings) (d : DocSet) :
    (holding title settings number d).sets = [d] := rfl

end Project

/-! ### Steps of the compiler -/

/-- The step works on every set by itself, in the same way in every project with the same
settings. -/
def Pass.Apart (pass : Pass) : Prop :=
  ∀ services settings, ∃ step : DocSet → Attempt DocSet, ∀ p q : Project, p.settings = settings →
    ((pass.run services p).Yields q ↔ p.SetBySet step q)

/-- A step on API sets, which leaves guides alone. -/
def DocSet.onApi (step : ApiSet → Attempt ApiSet) : DocSet → Attempt DocSet
  | .api s => (step s).map .api
  | .guide g => { state := .guide g }

theorem Pass.apart_onApiSets {description : String} {priority : Int}
    {step : Services → Settings → ApiSet → Attempt ApiSet} :
    (onApiSets description priority step).Apart := by
  refine fun services settings => ⟨DocSet.onApi (step services settings), fun p q hp => ?_⟩
  subst hp
  exact Project.yields_visitSets_iff

namespace Compile

theorem apart_contentsPass : contentsPass.Apart := fun _ _ =>
  ⟨_, fun _ _ _ => Project.yields_visitSets_iff⟩

/-- What was looked up for other sets does not matter. -/
theorem apart_examplesPass : examplesPass.Apart := by
  refine fun services settings =>
    ⟨fun d => { state := exampledSet services.finder d }, fun p q _ => ?_⟩
  have hstate : (examplesPass.run services p).state =
      p.mapSets (exampledSet services.finder) :=
    congrArg (fun versions => { p with versions := versions })
      (exampleVersions_eq p.versions (allOwn_nil services.finder))
  constructor
  · rintro ⟨-, rfl⟩
    exact ⟨fun _ _ => rfl, hstate⟩
  · rintro ⟨-, rfl⟩
    exact ⟨rfl, hstate⟩

end Compile

namespace Compiler

theorem apart_standard : ∀ pass ∈ standard.passes, pass.Apart := by
  simp only [passes_standard, List.forall_mem_cons]
  exact ⟨Pass.apart_onApiSets, Pass.apart_onApiSets, Pass.apart_onApiSets, Pass.apart_onApiSets,
    Pass.apart_onApiSets, Compile.apart_examplesPass, Pass.apart_onApiSets, Pass.apart_onApiSets,
    Compile.apart_contentsPass, Pass.apart_onApiSets, by simp⟩

variable {services : Services} {p q : Project}

theorem runs_cons_iff {pass : Pass} {rest : List Pass} : Runs services (pass :: rest) p q ↔
    ∃ r, (pass.run services p).Yields r ∧ Runs services rest r q := by
  constructor
  · rintro (_ | ⟨ok, next⟩)
    exact ⟨_, ⟨ok, rfl⟩, next⟩
  · rintro ⟨_, ⟨ok, rfl⟩, next⟩
    exact .cons ok next

theorem yields_compile_iff {c : Compiler} :
    (c.compile services p).Yields q ↔ Runs services c.passes p q := by
  constructor
  · rintro ⟨hfailure, rfl⟩
    exact runs_of_compile hfailure
  · intro hruns
    exact ⟨(compile_of_runs hruns).1, (compile_of_runs hruns).2⟩

/-- Steps that work on every set by itself do so one after the other. -/
theorem exists_setBySet {passes : List Pass} (h : ∀ pass ∈ passes, pass.Apart)
    (services : Services) (settings : Settings) : ∃ step : DocSet → Attempt DocSet,
      ∀ p q : Project, p.settings = settings → (Runs services passes p q ↔ p.SetBySet step q) := by
  induction passes with
  | nil =>
    refine ⟨fun d => { state := d }, fun p q _ => ?_⟩
    have hsame : (p.mapSets fun d => d) = p := Project.mapSets_id
    constructor
    · rintro ⟨⟩
      exact ⟨fun _ _ => rfl, hsame.symm⟩
    · rintro ⟨-, rfl⟩
      rw [hsame]
      exact .nil p
  | cons pass rest ih =>
    obtain ⟨hpass, hrest⟩ := List.forall_mem_cons.mp h
    obtain ⟨first, hfirst⟩ := hpass services settings
    obtain ⟨later, hlater⟩ := ih hrest
    refine ⟨fun d => (first d).andThen later, fun p q hp => ?_⟩
    rw [runs_cons_iff, Project.setBySet_andThen_iff]
    refine exists_congr fun r => ?_
    rw [hfirst p r hp]
    refine and_congr_right fun hr => hlater r q ?_
    rw [hr.eq]
    exact hp

/-- A set is compiled as if it were the only one. A project fails to compile if one of its sets does
by itself; otherwise every set stays in its place and becomes what it is compiled to by itself. -/
theorem compile_alone (services : Services) (p : Project) (title number : String) :
    ((standard.compile services p).failure = none ↔ ∀ d ∈ p.sets,
      (standard.compile services (.holding title p.settings number d)).failure = none) ∧
    ((standard.compile services p).failure = none → ∃ alone : DocSet → DocSet,
      (standard.compile services p).state = p.mapSets alone ∧ ∀ d ∈ p.sets,
        (standard.compile services (.holding title p.settings number d)).state =
          .holding title p.settings number (alone d)) := by
  obtain ⟨step, hstep⟩ := exists_setBySet apart_standard services p.settings
  have houtcome (q : Project) (hq : q.settings = p.settings) :=
    Project.SetBySet.outcome fun r => yields_compile_iff.trans (hstep q r hq)
  obtain ⟨hfailure, hstate⟩ := houtcome p rfl
  have halone (d : DocSet) :
      (standard.compile services (.holding title p.settings number d)).failure = none ↔
        (step d).failure = none := by
    rw [(houtcome (.holding title p.settings number d) rfl).1, Project.sets_holding,
      List.forall_mem_singleton]
  constructor
  · simp only [hfailure, halone]
  · intro hnone
    refine ⟨fun d => (step d).state, hstate hnone, fun d hd => ?_⟩
    have hfine := (halone d).mpr (hfailure.mp hnone d hd)
    exact (houtcome (.holding title p.settings number d) rfl).2 hfine

/-- A source of a class that shows an example. -/
def shownSource : SourceText := ⟨"a.php", "<?php /** \x7b@example e.php\x7d */ class A \x7b\x7d"⟩

/-- The same source with another name of the class. -/
def renamedSource : SourceText := ⟨"b.php", "<?php /** \x7b@example e.php\x7d */ class B \x7b\x7d"⟩

def manual : GuideSet := .addDocument { name := "guide" } { path := "index", title := "Manual" }

/-- A project with two versions, both of which show the example, and with a guide in the second. -/
def editions : Project where
  title := "Editions"
  settings := { markers := [] }
  versions := [{ number := "1", sets := [.api (.ofSources [shownSource])] },
    { number := "2", sets := [.api (.ofSources [renamedSource]), .guide manual] }]

/-- The sets of both versions and the guide become what they are compiled to by themselves. -/
theorem compile_alone_editions :
    (standard.compile ⟨.standard, .none⟩ editions).failure = none ∧ ∃ alone : DocSet → DocSet,
      (standard.compile ⟨.standard, .none⟩ editions).state = editions.mapSets alone ∧
      ∀ d ∈ [.api (.ofSources [shownSource]), .api (.ofSources [renamedSource]), .guide manual],
        (standard.compile ⟨.standard, .none⟩ (.holding "" { markers := [] } "1" d)).state =
          .holding "" { markers := [] } "1" (alone d) := by
  have hdone : (standard.compile ⟨.standard, .none⟩ editions).failure = none :=
    failure_standard Router.exists_page_standard rfl rfl
  exact ⟨hdone, (compile_alone ⟨.standard, .none⟩ editions "" "1").2 hdone⟩

end Compiler

end ApiDoc
