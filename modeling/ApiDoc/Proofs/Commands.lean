import ApiDoc.Command
import ApiDoc.Proofs.Damage
import ApiDoc.Proofs.FileOrder
import ApiDoc.Proofs.ProblemOrder
import ApiDoc.Proofs.SaveTimes
import ApiDoc.Proofs.Success

/-!
# Reading the sources and building

The commands `parse` and `run` begin with the same steps: they settle the configuration, find the
sources, load the cache, collect the files and save the cache. A build compiles what was collected
and assembles its problems in another order. The main statement says that none of this shows: where
a build succeeds, reading the sources from the same disk succeeds as well, counts the same, lists the
same problems and leaves the same disk but for the time of the save.

Jobs are taken apart by what it means that they succeed (`Job.Runs`), one lemma for each way they are
made. What the compiler adds is left out of the problems because it keeps the paths and problems of
files and reports no file as left out.
-/

namespace ApiDoc

/-! ### Jobs that succeed -/

namespace Job

variable {α β : Type}

/-- A job on a workspace succeeds, with a result and another workspace. -/
def Runs (x : Job α) (w : Workspace) (a : α) (next : Workspace) : Prop :=
  (x.run).run w = (.ok a, next)

theorem runs_bind_iff {x : Job α} {f : α → Job β} {w next : Workspace} {b : β} :
    (x >>= f).Runs w b next ↔ ∃ a between, x.Runs w a between ∧ (f a).Runs between b next := by
  have hbind : ((x >>= f).run).run w =
      match (x.run).run w with
      | (.ok a, between) => ((f a).run).run between
      | (.error e, between) => (.error e, between) := by
    show ExceptT.bindCont f ((x.run).run w).1 ((x.run).run w).2 = _
    rcases (x.run).run w with ⟨result, between⟩
    cases result <;> rfl
  rw [Runs, hbind]
  constructor
  · intro h
    rcases hx : (x.run).run w with ⟨result, between⟩
    rw [hx] at h
    cases result with
    | ok a => exact ⟨a, between, hx, h⟩
    | error e => cases (Prod.mk.inj h).1
  · rintro ⟨a, between, hx, hf⟩
    rw [hx]
    exact hf

theorem runs_pure_iff {w next : Workspace} {a b : α} :
    (pure a : Job α).Runs w b next ↔ a = b ∧ w = next := by
  show (Except.ok a, w) = (Except.ok b, next) ↔ _
  simp

theorem runs_ofExcept_iff {ε : Type} {failure : ε → BuildError} {result : Except ε α}
    {w next : Workspace} {a : α} :
    (ofExcept failure result).Runs w a next ↔ result = .ok a ∧ w = next := by
  cases result with
  | ok b => simpa [ofExcept] using runs_pure_iff
  | error e =>
    show (Except.error (failure e), w) = (Except.ok a, next) ↔ _
    simp

theorem runs_disk_iff {w next : Workspace} {d : Disk} :
    disk.Runs w d next ↔ w.disk = d ∧ w = next := by
  show (Except.ok w.disk, w) = (Except.ok d, next) ↔ _
  simp

theorem runs_setDisk_iff {w next : Workspace} {d : Disk} {u : Unit} :
    (setDisk d).Runs w u next ↔ { w with disk := d } = next := by
  show (Except.ok (), { w with disk := d }) = (Except.ok (), next) ↔ _
  simp

theorem runs_report_iff {w next : Workspace} {events : List Event} {u : Unit} :
    (report events).Runs w u next ↔ { w with events := w.events ++ events } = next := by
  show (Except.ok (), { w with events := w.events ++ events }) = (Except.ok (), next) ↔ _
  simp

theorem not_runs_throw {e : BuildError} {w next : Workspace} {a : α} :
    ¬ (throw e : Job α).Runs w a next := by
  show ¬ (Except.error e, w) = (Except.ok a, next)
  simp

end Job

/-! ### Gathering -/

namespace Builder

variable {b : Builder}

/-- What a builder collects from some paths of a disk over a cache. -/
def collected (b : Builder) (d : Disk) (paths : List String) (cache : FileCache) : Collection :=
  Collection.ofPaths (SourceText.load d b.root) b.read b.settings.force paths cache

/-- A builder gathers the files of some paths over a cache: these are the paths that are found and
the cache that is loaded, and what was collected is saved, unless the cache is not used. -/
structure Gathers (b : Builder) (d : Disk) (paths : List String) (cache : FileCache)
    (saved : Option SaveCounts) (final : Disk) : Prop where
  found : discover d b.root b.settings = .ok paths
  loaded : if b.useCache then b.store.load d Collection.setName = .ok cache else cache = {}
  saved : if b.useCache then
      ∃ counts, saved = some counts ∧
        (b.store.save d Collection.setName (b.collected d paths cache).cache b.now).outcome =
          .ok counts ∧
        final = (b.store.save d Collection.setName (b.collected d paths cache).cache b.now).disk
    else saved = none ∧ final = d

theorem Gathers.of_save {d : Disk} {paths : List String} {cache : FileCache} {counts : SaveCounts}
    (huse : b.useCache = true) (hfound : discover d b.root b.settings = .ok paths)
    (hloaded : b.store.load d Collection.setName = .ok cache)
    (hsaved : (b.store.save d Collection.setName (b.collected d paths cache).cache b.now).outcome =
      .ok counts) :
    b.Gathers d paths cache (some counts)
      (b.store.save d Collection.setName (b.collected d paths cache).cache b.now).disk := by
  refine ⟨hfound, ?_, ?_⟩
  · rw [if_pos huse]
    exact hloaded
  · rw [if_pos huse]
    exact ⟨counts, rfl, hsaved, rfl⟩

theorem runs_loadCache_iff {w next : Workspace} {cache : FileCache} :
    b.loadCache.Runs w cache next ↔
      (if b.useCache then b.store.load w.disk Collection.setName = .ok cache else cache = {}) ∧
        w = next := by
  rw [loadCache]
  split
  · simp only [Job.runs_bind_iff, Job.runs_disk_iff, Job.runs_ofExcept_iff]
    constructor
    · rintro ⟨_, _, ⟨rfl, rfl⟩, hload, rfl⟩
      exact ⟨hload, rfl⟩
    · rintro ⟨hload, rfl⟩
      exact ⟨_, _, ⟨rfl, rfl⟩, hload, rfl⟩
  · rw [Job.runs_pure_iff, eq_comm]

theorem runs_collect_iff {w next : Workspace} {paths : List String} {cache : FileCache}
    {c : Collection} : (b.collect paths cache).Runs w c next ↔
      c = b.collected w.disk paths cache ∧ next = { w with events := w.events ++ c.events } := by
  simp only [collect, Job.runs_bind_iff, Job.runs_disk_iff, Job.runs_report_iff, Job.runs_pure_iff]
  constructor
  · rintro ⟨_, _, ⟨rfl, rfl⟩, _, _, rfl, rfl, rfl⟩
    exact ⟨rfl, rfl⟩
  · rintro ⟨rfl, rfl⟩
    exact ⟨_, _, ⟨rfl, rfl⟩, (), _, rfl, rfl, rfl⟩

theorem runs_saveCache_iff {w next : Workspace} {cache : FileCache} {saved : Option SaveCounts} :
    (b.saveCache cache).Runs w saved next ↔
      (if b.useCache then
        ∃ counts, saved = some counts ∧
          (b.store.save w.disk Collection.setName cache b.now).outcome = .ok counts ∧
          next.disk = (b.store.save w.disk Collection.setName cache b.now).disk
      else saved = none ∧ next.disk = w.disk) ∧ next.events = w.events := by
  rw [saveCache]
  split
  · simp only [Job.runs_bind_iff, Job.runs_disk_iff, Job.runs_setDisk_iff, Job.runs_ofExcept_iff,
      Job.runs_pure_iff]
    constructor
    · rintro ⟨_, _, ⟨rfl, rfl⟩, _, _, rfl, counts, _, ⟨hcounts, rfl⟩, rfl, rfl⟩
      exact ⟨⟨counts, rfl, hcounts, rfl⟩, rfl⟩
    · rintro ⟨⟨counts, rfl, hcounts, hdisk⟩, hevents⟩
      refine ⟨_, _, ⟨rfl, rfl⟩, (), _, rfl, counts, _, ⟨hcounts, rfl⟩, rfl, ?_⟩
      obtain ⟨disk, events⟩ := next
      simp_all
  · rw [Job.runs_pure_iff]
    obtain ⟨disk, events⟩ := next
    obtain ⟨old, before⟩ := w
    simp only [Workspace.mk.injEq]
    constructor
    · rintro ⟨rfl, rfl, rfl⟩
      exact ⟨⟨rfl, rfl⟩, rfl⟩
    · rintro ⟨⟨rfl, rfl⟩, rfl⟩
      exact ⟨rfl, rfl, rfl⟩

/-- Gathering succeeds exactly if all of its steps do, and gives what was collected. -/
theorem runs_gather_iff {w next : Workspace} {result : ApiSet × Report} :
    b.gather.Runs w result next ↔ ∃ paths cache saved, b.Gathers w.disk paths cache saved next.disk ∧
      result = ((b.collected w.disk paths cache).set,
        { (b.collected w.disk paths cache).report with cache := saved }) ∧
      next.events = w.events ++ (b.collected w.disk paths cache).events := by
  simp only [gather, Job.runs_bind_iff, Job.runs_disk_iff, Job.runs_ofExcept_iff,
    runs_loadCache_iff, runs_collect_iff, runs_saveCache_iff, Job.runs_pure_iff]
  constructor
  · rintro ⟨_, _, ⟨rfl, rfl⟩, paths, _, ⟨hfound, rfl⟩, cache, _, ⟨hloaded, rfl⟩, _, _, ⟨rfl, rfl⟩,
      saved, _, ⟨hsaved, hevents⟩, rfl, rfl⟩
    exact ⟨paths, cache, saved, ⟨hfound, hloaded, hsaved⟩, rfl, hevents⟩
  · rintro ⟨paths, cache, saved, ⟨hfound, hloaded, hsaved⟩, rfl, hevents⟩
    exact ⟨_, _, ⟨rfl, rfl⟩, paths, _, ⟨hfound, rfl⟩, cache, _, ⟨hloaded, rfl⟩, _, _, ⟨rfl, rfl⟩,
      saved, _, ⟨hsaved, hevents⟩, rfl, rfl⟩

/-- At another time a builder gathers the same, and leaves the same but for that time. -/
theorem Gathers.later {d final : Disk} {paths : List String} {cache : FileCache}
    {saved : Option SaveCounts} (h : b.Gathers d paths cache saved final) (later : String) :
    ∃ last, { b with now := later }.Gathers d paths cache saved last ∧
      b.store.SameContent b.now later final last := by
  obtain ⟨hfound, hloaded, hsaved⟩ := h
  by_cases huse : b.useCache = true
  · rw [if_pos huse] at hsaved
    obtain ⟨counts, rfl, hcounts, rfl⟩ := hsaved
    obtain ⟨hsame, hcontent⟩ := CacheStore.save_later hcounts later
    exact ⟨_, ⟨hfound, hloaded, by rw [if_pos huse]; exact ⟨counts, rfl, hsame, rfl⟩⟩, hcontent⟩
  · rw [if_neg huse] at hsaved
    obtain ⟨rfl, rfl⟩ := hsaved
    exact ⟨_, ⟨hfound, hloaded, by rw [if_neg huse]; exact ⟨rfl, rfl⟩⟩, .refl ..⟩

/-- Paths are found once each. -/
theorem Gathers.nodup {d final : Disk} {paths : List String} {cache : FileCache}
    {saved : Option SaveCounts} (h : b.Gathers d paths cache saved final) : paths.Nodup := by
  have hfound := h.found
  rw [discover] at hfound
  cases hselection : Selection.ofSettings b.settings with
  | error e => simp [hselection, bind, Except.bind] at hfound
  | ok selection =>
    simp only [hselection, bind, Except.bind, pure, Except.pure, Except.ok.injEq] at hfound
    exact hfound ▸ NameMap.nodup_keys _

/-- The cache that is loaded has every file under its own path. -/
theorem Gathers.keyed {d final : Disk} {paths : List String} {cache : FileCache}
    {saved : Option SaveCounts} (h : b.Gathers d paths cache saved final) : cache.Keyed := by
  have hloaded := h.loaded
  split at hloaded
  · exact fun path file hget => ((CacheStore.get?_of_load hloaded path file).mp hget).1
  · exact hloaded ▸ FileCache.keyed_empty

/-- The accounts of what was gathered. -/
theorem Gathers.accounts {d final : Disk} {paths : List String} {cache : FileCache}
    {saved : Option SaveCounts} (h : b.Gathers d paths cache saved final) :
    (b.collected d paths cache).Accounts (SourceText.load d b.root)
      (Fate.ofPath (SourceText.load d b.root) b.read b.settings.force cache) paths cache :=
  Collection.accounts_ofPaths (SourceText.keyed_load d b.root) h.keyed h.nodup

end Builder

/-! ### Compiling leaves the problems alone -/

/-- A step that reports no file as left out. -/
def Attempt.Silent {α : Type} (a : Attempt α) : Prop := ∀ e ∈ a.events, Problem.ofEvent? e = none

namespace Attempt.Silent

variable {α β : Type}

theorem of_events_eq_nil {a : Attempt α} (h : a.events = []) : a.Silent := by simp [Silent, h]

theorem map {a : Attempt α} (h : a.Silent) (f : α → β) : (a.map f).Silent := h

theorem visit {step : α → Attempt α} (h : ∀ x, (step x).Silent) (xs : List α) :
    (Attempt.visit step xs).Silent := by
  induction xs with
  | nil => simp [Silent, Attempt.visit]
  | cons x rest ih =>
    rw [Attempt.visit]
    split
    · exact h x
    · intro e he
      rcases List.mem_append.mp he with he | he
      · exact h x e he
      · exact ih e he

theorem andThen {a : Attempt α} {next : α → Attempt α} (ha : a.Silent)
    (hnext : ∀ x, (next x).Silent) : (a.andThen next).Silent := by
  rw [Attempt.andThen]
  split
  · exact ha
  · intro e he
    rcases List.mem_append.mp he with he | he
    · exact ha e he
    · exact hnext _ e he

end Attempt.Silent

def Pass.Silent (pass : Pass) : Prop := ∀ services p, (pass.run services p).Silent

theorem Project.silent_visitSets {step : DocSet → Attempt DocSet} (h : ∀ d, (step d).Silent)
    (p : Project) : (p.visitSets step).Silent := by
  have hversion (v : Version) :
      ((Attempt.visit step v.sets).map fun sets => { v with sets := sets }).Silent :=
    .visit h v.sets
  exact Attempt.Silent.visit hversion p.versions

theorem Pass.silent_onApiSets {description : String} {priority : Int}
    {step : Services → Settings → ApiSet → Attempt ApiSet}
    (h : ∀ services settings s, (step services settings s).Silent) :
    (onApiSets description priority step).Silent := by
  intro services p
  refine Project.silent_visitSets (fun d => ?_) p
  cases d with
  | api s => exact (h services p.settings s).map _
  | guide g => exact .of_events_eq_nil rfl

namespace Compile

theorem silent_buildIndexes (strict : Bool) (s : ApiSet) : (buildIndexes strict s).Silent := by
  unfold buildIndexes
  dsimp only
  split
  · exact .of_events_eq_nil rfl
  · intro e he
    obtain ⟨pair, -, rfl⟩ := List.mem_map.mp he
    rfl

theorem silent_link (s : ApiSet) : (link s).Silent := by
  intro e he
  simp only [link, List.mem_ite_nil_left, List.mem_singleton] at he
  rw [he.2]
  rfl

theorem silent_mark (keywords : List String) (s : ApiSet) : (mark keywords s).Silent :=
  .of_events_eq_nil (events_mark s keywords)

theorem silent_examplesPass : examplesPass.Silent := by
  intro services p e he
  obtain ⟨l, -, hl⟩ := List.mem_filterMap.mp he
  rw [Lookup.warning?] at hl
  split at hl
  · simp at hl
  · rw [← Option.some.inj hl]
    rfl

theorem silent_backLink (s : ApiSet) : (backLink s).Silent := by
  intro e he
  simp only [backLink, List.mem_ite_nil_left, List.mem_singleton] at he
  rw [he.2]
  rfl

theorem silent_walk (router : Router) (docs : NameMap Document) (steps : Nat)
    (listings : List Listing) (w : GuideWalk) (h : ∀ e ∈ w.events, Problem.ofEvent? e = none) :
    ∀ e ∈ (walk router docs steps listings w).events, Problem.ofEvent? e = none := by
  induction steps generalizing listings w with
  | zero => exact h
  | succ steps ih =>
    cases listings with
    | nil => exact h
    | cons l rest =>
      rw [walk]
      split
      · refine ih _ _ fun e he => ?_
        rcases List.mem_append.mp he with he | he
        · exact h e he
        · rw [List.mem_singleton.mp he]
          rfl
      · split
        · exact ih _ _ h
        · split
          · exact h
          · exact ih _ _ h

theorem silent_guideContents (router : Router) (g : GuideSet) : (guideContents router g).Silent := by
  rw [guideContents]
  split
  · exact .of_events_eq_nil rfl
  · dsimp only
    split <;> exact silent_walk _ _ _ _ _ (by simp)

theorem silent_apiContents (router : Router) (s : ApiSet) : (apiContents router s).Silent := by
  rw [apiContents]
  split <;> exact .of_events_eq_nil rfl

theorem silent_filterSet (settings : Settings) (s : ApiSet) : (filterSet settings s).Silent := by
  intro e he
  simp only [filterSet, List.mem_ite_nil_left, List.mem_singleton] at he
  rw [he.2]
  rfl

end Compile

namespace Compiler

theorem silent_of_passes {c : Compiler} (h : ∀ pass ∈ c.passes, pass.Silent) (services : Services)
    (p : Project) : (c.compile services p).Silent := by
  have hpass (pass : Pass) (hpass : pass.Silent) (p : Project) : (runPass services pass p).Silent := by
    rw [runPass]
    intro e he
    dsimp only at he
    rcases List.mem_cons.mp he with rfl | he
    · rfl
    · rcases List.mem_append.mp he with he | he
      · exact hpass services p e he
      · split at he
        · simp at he
        · rw [List.mem_singleton.mp he]
          rfl
  have hfold (passes : List Pass) (hpasses : ∀ pass ∈ passes, pass.Silent) (acc : Attempt Project)
      (hacc : acc.Silent) :
      (passes.foldl (fun done q => done.andThen (runPass services q)) acc).Silent := by
    induction passes generalizing acc with
    | nil => exact hacc
    | cons pass rest ih =>
      exact ih (fun q hq => hpasses q (List.mem_cons_of_mem _ hq)) _
        (hacc.andThen (hpass pass (hpasses pass List.mem_cons_self)))
  exact hfold c.passes h { state := p } (.of_events_eq_nil rfl)

/-- A compilation reports no file as left out. -/
theorem silent_of_compile (services : Services) (p : Project) :
    (standard.compile services p).Silent := by
  refine silent_of_passes (fun pass hpass => ?_) services p
  simp only [passes_standard, List.mem_cons, List.not_mem_nil, or_false] at hpass
  rcases hpass with rfl | rfl | rfl | rfl | rfl | rfl | rfl | rfl | rfl | rfl
  · exact Pass.silent_onApiSets fun _ settings s => Compile.silent_buildIndexes settings.strictNames s
  · exact Pass.silent_onApiSets fun _ _ s => Compile.silent_link s
  · exact Pass.silent_onApiSets fun _ _ _ => .of_events_eq_nil rfl
  · exact Pass.silent_onApiSets fun _ _ _ => .of_events_eq_nil rfl
  · exact Pass.silent_onApiSets fun _ settings s => Compile.silent_mark settings.markers s
  · exact Compile.silent_examplesPass
  · exact Pass.silent_onApiSets fun _ _ _ => .of_events_eq_nil rfl
  · exact Pass.silent_onApiSets fun _ _ s => Compile.silent_backLink s
  · intro services p
    refine Project.silent_visitSets (fun d => ?_) p
    cases d with
    | api s => exact (Compile.silent_apiContents services.router s).map _
    | guide g => exact (Compile.silent_guideContents services.router g).map _
  · exact Pass.silent_onApiSets fun _ settings s => Compile.silent_filterSet settings s

end Compiler

/-- A compilation keeps the problems of the lines of a set. -/
theorem ApiSet.Keeps.lineProblems_eq {s t : ApiSet} (h : s.Keeps t) :
    t.lineProblems = s.lineProblems := by
  have hfiles := h.map_files
    (fun f => f.problems.map fun p => Problem.mk f.path (some p.line) p.message)
    fun f g hkeeps => by rw [hkeeps.path, hkeeps.problems]
  rw [lineProblems, lineProblems, List.flatMap_def, List.flatMap_def, hfiles]

/-- What keeps a project with one set is a project with one set, which keeps the set. -/
theorem Project.Keeps.exists_lone {title number : String} {settings : Settings} {s : ApiSet}
    {q : Project} (h : (Project.lone title settings number s).Keeps q) :
    ∃ t, q = .lone title settings number t ∧ s.Keeps t := by
  obtain ⟨ownTitle, ownSettings, versions⟩ := q
  obtain ⟨rfl, rfl, hversions⟩ := h
  rw [lone] at hversions
  cases hversions with
  | cons hversion hrest =>
    cases hrest
    next v =>
      obtain ⟨ownNumber, sets⟩ := v
      obtain ⟨rfl, hsets⟩ := hversion
      cases hsets with
      | cons hset hnone =>
        cases hnone
        cases hset with
        | api hst => exact ⟨_, rfl, hst⟩

/-- Compiling succeeds with what the compiler leaves of the project of the set. -/
theorem Builder.runs_compile_iff {b : Builder} {w next : Workspace} {set : ApiSet} {p : Project} :
    (b.compile set).Runs w p next ↔
      let done := b.compiler.compile ⟨b.router, b.finder w.disk⟩
        (.lone b.settings.title b.settings versionNumber set)
      done.failure = none ∧ done.state = p ∧
        next = { w with events := w.events ++ done.events } := by
  have hproject : Project.addVersion { title := b.settings.title, settings := b.settings }
      { number := versionNumber, sets := [.api set] } =
        .ok (.lone b.settings.title b.settings versionNumber set) := rfl
  simp only [compile, hproject, Job.runs_bind_iff, Job.runs_ofExcept_iff, Job.runs_disk_iff,
    Job.runs_report_iff]
  constructor
  · rintro ⟨_, _, ⟨hp, rfl⟩, _, _, ⟨rfl, rfl⟩, _, _, rfl, hend⟩
    obtain rfl := Except.ok.inj hp
    split at hend
    · exact absurd hend Job.not_runs_throw
    · next hnone =>
      obtain ⟨hstate, rfl⟩ := Job.runs_pure_iff.mp hend
      exact ⟨hnone, hstate, rfl⟩
  · rintro ⟨hnone, hstate, rfl⟩
    refine ⟨_, _, ⟨rfl, rfl⟩, _, _, ⟨rfl, rfl⟩, (), _, rfl, ?_⟩
    rw [hnone]
    exact Job.runs_pure_iff.mpr ⟨hstate, rfl⟩

/-- A build succeeds if gathering and compiling do. -/
theorem Builder.runs_build_iff {b : Builder} {w next : Workspace} {result : Project × Report} :
    b.build.Runs w result next ↔ ∃ set between,
      b.gather.Runs w (set, result.2) between ∧ (b.compile set).Runs between result.1 next := by
  simp only [build, Job.runs_bind_iff, Job.runs_pure_iff]
  constructor
  · rintro ⟨⟨set, report⟩, between, hgather, p, _, hcompile, rfl, rfl⟩
    exact ⟨set, between, hgather, hcompile⟩
  · rintro ⟨set, between, hgather, hcompile⟩
    exact ⟨_, between, hgather, _, _, hcompile, rfl, rfl⟩

/-- The problems that are listed after a build are those of the set that was gathered for it. -/
theorem Builder.problems_of_build {b : Builder} (hstandard : b.compiler = .standard)
    {w next : Workspace} {result : Project × Report} (h : b.build.Runs w result next) :
    ∃ set between, b.gather.Runs w (set, result.2) between ∧ between.disk = next.disk ∧
      Problem.sort (result.1.apiSets.flatMap (·.problems []) ++
        next.events.filterMap Problem.ofEvent?) =
          set.problems (between.events.filterMap Problem.ofEvent?) := by
  obtain ⟨set, between, hgather, hcompile⟩ := runs_build_iff.mp h
  obtain ⟨-, hstate, rfl⟩ := runs_compile_iff.mp hcompile
  rw [hstandard] at hstate ⊢
  refine ⟨set, between, hgather, rfl, ?_⟩
  obtain ⟨t, hlone, hkeeps⟩ := (Compiler.keeps_of_compile ⟨b.router, b.finder between.disk⟩
    (.lone b.settings.title b.settings versionNumber set)).exists_lone
  rw [← hstate, hlone]
  have hset : (Project.lone b.settings.title b.settings versionNumber t).apiSets.flatMap
      (·.problems []) = Problem.sort set.lineProblems := by
    rw [← hkeeps.lineProblems_eq]
    simp [Project.lone, Project.apiSets, Version.apiSets, DocSet.api?, ApiSet.problems]
  have hsilent : (Compiler.standard.compile ⟨b.router, b.finder between.disk⟩
      (.lone b.settings.title b.settings versionNumber set)).events.filterMap
        Problem.ofEvent? = [] :=
    List.filterMap_eq_nil_iff.mpr (Compiler.silent_of_compile _ _)
  rw [hset, List.filterMap_append, hsilent, List.append_nil, ApiSet.problems]
  exact Problem.sort_append_comm (fun _ => Problem.line_of_ofEvent?)
    fun _ => ApiSet.line_of_lineProblems

/-! ### The commands -/

namespace Site

variable {s : Site} {o : Overrides}

/-- A site settles on some settings: its root is a folder, and its configuration gives them. -/
structure Settles (s : Site) (o : Overrides) (d : Disk) (settings : Settings) : Prop where
  root : d.hasFolder s.root = true
  config : (s.config o d).bind Config.toSettings = .ok settings

def builderWith (s : Site) (settings : Settings) (useCache : Bool) : Builder :=
  { root := s.root, settings := settings, now := s.now, useCache := useCache }

theorem runs_checkRoot_iff {w next : Workspace} {u : Unit} :
    s.checkRoot.Runs w u next ↔ w.disk.hasFolder s.root = true ∧ w = next := by
  simp only [checkRoot, Job.runs_bind_iff, Job.runs_disk_iff]
  constructor
  · rintro ⟨_, _, ⟨rfl, rfl⟩, hroot⟩
    split at hroot
    · next h => exact ⟨h, (Job.runs_pure_iff.mp hroot).2⟩
    · exact absurd hroot Job.not_runs_throw
  · rintro ⟨hroot, rfl⟩
    refine ⟨_, _, ⟨rfl, rfl⟩, ?_⟩
    rw [if_pos hroot]
    exact Job.runs_pure_iff.mpr ⟨rfl, rfl⟩

theorem runs_builder_iff {w next : Workspace} {useCache : Bool} {b : Builder} :
    (s.builder o useCache).Runs w b next ↔
      (∃ settings, s.Settles o w.disk settings ∧ b = s.builderWith settings useCache) ∧
        w = next := by
  simp only [builder, resolve, Job.runs_bind_iff, runs_checkRoot_iff, Job.runs_disk_iff,
    Job.runs_ofExcept_iff, Job.runs_pure_iff]
  constructor
  · rintro ⟨_, _, ⟨_, _, ⟨hroot, rfl⟩, _, _, ⟨rfl, rfl⟩, config, _, ⟨hconfig, rfl⟩, settings, _,
      ⟨hsettings, rfl⟩, rfl, rfl⟩, rfl, rfl⟩
    exact ⟨⟨settings, ⟨hroot, by rw [hconfig]; exact hsettings⟩, rfl⟩, rfl⟩
  · rintro ⟨⟨settings, ⟨hroot, hboth⟩, rfl⟩, rfl⟩
    cases hconfig : s.config o w.disk with
    | error e => simp [hconfig, Except.bind] at hboth
    | ok config =>
      have hsettings : config.toSettings = .ok settings := by rwa [hconfig] at hboth
      exact ⟨_, _, ⟨(), _, ⟨hroot, rfl⟩, _, _, ⟨rfl, rfl⟩, config, _, ⟨hconfig, rfl⟩, settings, _,
        ⟨hsettings, rfl⟩, rfl, rfl⟩, rfl, rfl⟩

theorem runs_failures_iff {w next : Workspace} {problems : List Problem} :
    failures.Runs w problems next ↔ w.events.filterMap Problem.ofEvent? = problems ∧ w = next := by
  have hread : (failures.run).run w = (.ok (w.events.filterMap Problem.ofEvent?), w) := by
    refine congrArg (fun f => (Except.ok (w.events.filterMap f), w)) (funext fun e => ?_)
    cases e <;> rfl
  rw [Job.Runs, hread]
  show (Except.ok (w.events.filterMap Problem.ofEvent?), w) = (Except.ok problems, next) ↔ _
  simp

/-- Reading the sources succeeds if gathering does. -/
theorem runs_parse_iff {w next : Workspace} {useCache : Bool} {response : Json} :
    (s.parse o useCache).Runs w response next ↔ ∃ settings set report,
      s.Settles o w.disk settings ∧
      (s.builderWith settings useCache).gather.Runs w (set, report) next ∧
      Response.parsed report (set.problems (next.events.filterMap Problem.ofEvent?)) = response := by
  simp only [parse, Job.runs_bind_iff, runs_builder_iff, runs_failures_iff, Job.runs_pure_iff]
  constructor
  · rintro ⟨_, _, ⟨⟨settings, hsettles, rfl⟩, rfl⟩, ⟨set, report⟩, _, hgather, _, _, ⟨rfl, rfl⟩,
      rfl, rfl⟩
    exact ⟨settings, set, report, hsettles, hgather, rfl⟩
  · rintro ⟨settings, set, report, hsettles, hgather, rfl⟩
    exact ⟨_, _, ⟨⟨settings, hsettles, rfl⟩, rfl⟩, _, _, hgather, _, _, ⟨rfl, rfl⟩, rfl, rfl⟩

theorem runs_parse_of_gathers {w : Workspace} {final : Disk} {useCache : Bool}
    {settings : Settings} {paths : List String} {cache : FileCache} {saved : Option SaveCounts}
    (hsettles : s.Settles o w.disk settings)
    (h : (s.builderWith settings useCache).Gathers w.disk paths cache saved final) :
    let c := (s.builderWith settings useCache).collected w.disk paths cache
    (s.parse o useCache).Runs w
      (Response.parsed { c.report with cache := saved }
        (c.set.problems ((w.events ++ c.events).filterMap Problem.ofEvent?)))
      ⟨final, w.events ++ c.events⟩ :=
  runs_parse_iff.mpr ⟨settings, _, _, hsettles,
    Builder.runs_gather_iff.mpr ⟨paths, cache, saved, h, rfl, rfl⟩, rfl⟩

/-- Building without an output succeeds if gathering and compiling do. -/
theorem runs_build_iff {w next : Workspace} {useCache : Bool} {response : Json} :
    (s.build o useCache none).Runs w response next ↔ ∃ settings project report,
      s.Settles o w.disk settings ∧
      (s.builderWith settings useCache).build.Runs w (project, report) next ∧
      Response.built project report (Problem.sort (project.apiSets.flatMap (·.problems []) ++
        next.events.filterMap Problem.ofEvent?)) none = response := by
  simp only [build, Job.runs_bind_iff, runs_builder_iff, runs_failures_iff, Job.runs_pure_iff]
  constructor
  · rintro ⟨_, _, ⟨⟨settings, hsettles, rfl⟩, rfl⟩, ⟨project, report⟩, _, hbuild, _, _, ⟨rfl, rfl⟩,
      rfl, rfl⟩
    exact ⟨settings, project, report, hsettles, hbuild, rfl⟩
  · rintro ⟨settings, project, report, hsettles, hbuild, rfl⟩
    exact ⟨_, _, ⟨⟨settings, hsettles, rfl⟩, rfl⟩, _, _, hbuild, _, _, ⟨rfl, rfl⟩, rfl,
      rfl⟩

/-- Where building without an output succeeds, reading the sources from the same disk succeeds at
any time: it counts the same, lists the same problems and leaves the same disk but for the time of
the save. The problems are sorted; there is one for each file that was left out and one for each
problem that the file of another path records. -/
theorem parse_of_build {useCache : Bool} {d : Disk} {response : Json} {built : Workspace}
    (h : (s.build o useCache none).Runs ⟨d, []⟩ response built) (later : String) :
    ∃ settings paths cache project report problems parsed,
      response = Response.built project report problems none ∧
      (({ s with now := later } : Site).parse o useCache).Runs ⟨d, []⟩
        (Response.parsed report problems) parsed ∧
      (⟨Path.join s.root settings.cacheDir⟩ : CacheStore).SameContent s.now later
        built.disk parsed.disk ∧
      s.Settles o d settings ∧
      (s.builderWith settings useCache).Gathers d paths cache report.cache built.disk ∧
      problems.Pairwise Problem.Before ∧
      problems.Perm (paths.flatMap fun path =>
        (Fate.ofPath (SourceText.load d s.root) SourceText.read settings.force cache path).problems
          path) := by
  obtain ⟨settings, project, report, hsettles, hbuild, rfl⟩ := runs_build_iff.mp h
  obtain ⟨set, between, hgather, hdisk, hproblems⟩ := Builder.problems_of_build rfl hbuild
  obtain ⟨paths, cache, saved, hgathers, hresult, hevents⟩ := Builder.runs_gather_iff.mp hgather
  obtain ⟨rfl, rfl⟩ := Prod.mk.inj hresult
  obtain ⟨last, hlast, hsame⟩ := hgathers.later later
  have hparse := runs_parse_of_gathers (s := { s with now := later }) (w := ⟨d, []⟩) (o := o)
    ⟨hsettles.root, hsettles.config⟩ hlast
  rw [hproblems, hevents]
  refine ⟨settings, paths, cache, project, _, _, _, rfl, hparse, hdisk ▸ hsame, hsettles,
    hdisk ▸ hgathers, Problem.pairwise_sort _, (Problem.perm_sort _).trans ?_⟩
  exact hgathers.accounts.perm_problems fun path file hfile =>
    (Fate.of_file? (SourceText.keyed_load d s.root) hgathers.keyed hfile).1

/-- Without strict names and markers, building succeeds where reading the sources does. -/
theorem exists_build_of_parse {w next : Workspace} {useCache : Bool} {response : Json}
    (h : (s.parse o useCache).Runs w response next) {settings : Settings}
    (hsettles : s.Settles o w.disk settings) (hstrict : settings.strictNames = false)
    (hmarkers : settings.markers = []) :
    ∃ response built, (s.build o useCache none).Runs w response built := by
  obtain ⟨own, set, report, hown, hgather, rfl⟩ := runs_parse_iff.mp h
  obtain rfl := Except.ok.inj (hsettles.config.symm.trans hown.config)
  have hfine : (Compiler.standard.compile
      ⟨.standard, (s.builderWith settings useCache).finder next.disk⟩
      (.lone settings.title settings Builder.versionNumber set)).failure = none :=
    Compiler.failure_standard Router.exists_page_standard hstrict hmarkers
  exact ⟨_, _, runs_build_iff.mpr ⟨settings, _, report, hsettles, Builder.runs_build_iff.mpr
    ⟨set, next, hgather, Builder.runs_compile_iff.mpr ⟨hfine, rfl, rfl⟩⟩, rfl⟩⟩

end Site

/-- A project folder with a file whose class is not closed and a file that is no text. -/
def Disk.flawedSources : Disk where
  entries := .ofList [("/p", .folder), ("/p/a.php", .file "<?php class A \x7b".toUTF8),
    ("/p/b.php", .file ⟨#[0xff]⟩)]

def Disk.flawedWithFolders : Disk where
  entries := (Disk.flawedSources.entries.insert "/p/.docblox" .folder).insert
    "/p/.docblox/files" .folder

def Site.ofFlawedSources : Site where
  root := "/p"
  environment := .ofList [("DOCBLOX_MARKERS", "")]
  now := "earlier"

/-- Both commands list the two problems of the folder. -/
theorem Site.parse_of_build_flawed : ∃ response built report problems parsed,
    (ofFlawedSources.build {} true none).Runs ⟨.flawedSources, []⟩ response built ∧
    (({ ofFlawedSources with now := "later" } : Site).parse {} true).Runs ⟨.flawedSources, []⟩
      (Response.parsed report problems) parsed ∧
    (⟨Path.join "/p" ".docblox"⟩ : CacheStore).SameContent "earlier" "later"
      built.disk parsed.disk ∧
    problems.map (·.path) = ["a.php", "b.php"] := by
  have hsettles : ofFlawedSources.Settles {} .flawedSources { markers := [] } :=
    ⟨by decide +kernel, by decide +kernel⟩
  let b := ofFlawedSources.builderWith { markers := [] } true
  have hstore : b.store = ⟨"/p/.docblox"⟩ := by decide +kernel
  have hmade : b.store.makeFolders .flawedSources = .ok .flawedWithFolders := by
    rw [hstore]
    rfl
  have htakes : b.store.TakesFiles .flawedWithFolders := by
    rw [hstore]
    exact .of_no_entries (by decide +kernel) (by decide +kernel) (by decide) (by decide +kernel)
      (by decide +kernel)
  have hloaded : b.store.load .flawedSources Collection.setName = .ok {} := by
    rw [hstore]
    exact CacheStore.load_of_not_has (by decide +kernel) _
  obtain ⟨counts, hsaved, -⟩ := CacheStore.exists_save_of_makeFolders hmade htakes
    Collection.setName b.now (b.collected .flawedSources ["a.php", "b.php"] {}).cache
  have hgathers := Builder.Gathers.of_save rfl (by decide +kernel) hloaded hsaved
  have hread := runs_parse_of_gathers (w := ⟨.flawedSources, []⟩) hsettles hgathers
  obtain ⟨response, built, hbuild⟩ := exists_build_of_parse hread hsettles rfl rfl
  obtain ⟨settings, paths, cache, -, report, problems, parsed, -, hparse, hsame, hown, hgathers,
    hsorted, hperm⟩ := parse_of_build hbuild "later"
  obtain rfl := Except.ok.inj (hown.config.symm.trans hsettles.config)
  obtain rfl : paths = ["a.php", "b.php"] :=
    Except.ok.inj (hgathers.found.symm.trans (by decide +kernel))
  obtain rfl : cache = {} :=
    Except.ok.inj (hgathers.loaded.symm.trans (CacheStore.load_of_not_has (by decide +kernel) _))
  refine ⟨response, built, report, problems, parsed, hbuild, hparse, hsame, ?_⟩
  have hpaths : (problems.map (·.path)).Perm ["a.php", "b.php"] :=
    (hperm.map (·.path)).trans (.of_eq (by decide +kernel))
  have hordered : (problems.map (·.path)).Pairwise (· ≤ ·) :=
    List.pairwise_map.mpr (hsorted.imp fun h => h.elim le_of_lt fun h => h.1.le)
  exact hpaths.eq_of_pairwise (fun _ _ _ _ => le_antisymm) hordered (by decide)

end ApiDoc
