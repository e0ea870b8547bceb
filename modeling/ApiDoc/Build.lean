import ApiDoc.Collection
import ApiDoc.Compiler
import ApiDoc.Discovery
import ApiDoc.ExampleFolders

/-!
# Builds

A build finds the sources of a project, loads the cache, collects the files, saves the cache and
compiles the project. The cache is saved before compiling, so it only ever holds files as they were
read. A build works on a disk and reports events; both stay when it fails.
-/

namespace ApiDoc

/-- What a job works on: the disk, and the events reported so far. -/
structure Workspace where
  disk : Disk
  events : List Event := []

/-- Work on a disk that reports events and may fail; what it did before it failed stays done. -/
abbrev Job := ExceptT BuildError (StateM Workspace)

namespace Job

def disk : Job Disk := return (← get).disk

def setDisk (d : Disk) : Job Unit := modify fun w => { w with disk := d }

def report (events : List Event) : Job Unit :=
  modify fun w => { w with events := w.events ++ events }

def ofExcept {ε α : Type} (failure : ε → BuildError) : Except ε α → Job α
  | .ok a => pure a
  | .error e => throw (failure e)

/-- A change of the disk that may fail. -/
def change (f : Disk → Except Disk.Fault Disk) : Job Unit := do
  setDisk (← ofExcept .io (f (← disk)))

end Job

/-- What a build is made with. -/
structure Builder where
  root : String
  settings : Settings
  now : String
  read : SourceReader := SourceText.read
  router : Router := .standard
  compiler : Compiler := .standard
  finder : Disk → ExampleFinder := (ExampleFolders.ofSettings root settings).finder
  useCache : Bool := true

namespace Builder

def versionNumber : String := "latest"

def store (b : Builder) : CacheStore := ⟨Path.join b.root b.settings.cacheDir⟩

def loadCache (b : Builder) : Job FileCache := do
  if b.useCache then Job.ofExcept .cache (b.store.load (← Job.disk) Collection.setName)
  else return {}

/-- Saves the cache of a build, if it uses one. -/
def saveCache (b : Builder) (cache : FileCache) : Job (Option SaveCounts) := do
  if b.useCache then
    let saved := b.store.save (← Job.disk) Collection.setName cache b.now
    Job.setDisk saved.disk
    return some (← Job.ofExcept .cache saved.outcome)
  else return none

def collect (b : Builder) (paths : List String) (cache : FileCache) : Job Collection := do
  let load := SourceText.load (← Job.disk) b.root
  let collected := Collection.ofPaths load b.read b.settings.force paths cache
  Job.report collected.events
  return collected

/-- Everything up to compiling: the set of files and the counts. -/
def gather (b : Builder) : Job (ApiSet × Report) := do
  let paths ← Job.ofExcept .config (discover (← Job.disk) b.root b.settings)
  let collected ← b.collect paths (← b.loadCache)
  let saved ← b.saveCache collected.cache
  return (collected.set, { collected.report with cache := saved })

def compile (b : Builder) (set : ApiSet) : Job Project := do
  let project : Project := { title := b.settings.title, settings := b.settings }
  let project ← Job.ofExcept id
    (project.addVersion { number := versionNumber, sets := [.api set] })
  let done := b.compiler.compile ⟨b.router, b.finder (← Job.disk)⟩ project
  Job.report done.events
  match done.failure with
  | some e => throw e
  | none => return done.state

/-- The whole build. -/
def build (b : Builder) : Job (Project × Report) := do
  let (set, report) ← b.gather
  return (← b.compile set, report)

end Builder

end ApiDoc
