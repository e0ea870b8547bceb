import ApiDoc.Build
import ApiDoc.Response

/-!
# Commands

What a user can ask for: reading the sources, building the project, inspecting or removing the
cache, and showing the configuration. A command resolves the configuration of the project by itself,
works on the disk and answers with a JSON document.
-/

namespace ApiDoc

/-- A command with the values the command line provides for it. -/
inductive Command
  | parse (overrides : Overrides) (useCache : Bool)
  | build (overrides : Overrides) (useCache : Bool) (output : Option String)
  | cacheStatus (overrides : Overrides)
  | cacheClear (overrides : Overrides)
  | config (overrides : Overrides)
deriving DecidableEq

/-- Where a command runs: the project root, the environment and the time. -/
structure Site where
  root : String
  environment : Config.Environment := .empty
  now : String := ""

def ConfigFile.load (d : Disk) (path : String) : Except ConfigError ConfigFile :=
  match d.readText path with
  | .error e => .error (.unreadable path e)
  | .ok text =>
    match (Json.skim? text).bind Codec.configFile? with
    | some file => .ok file
    | none => .error (.malformed path)

namespace Site

/-- The path of the configuration file: the one the command line names, or that of the root. -/
def configPath (s : Site) (o : Overrides) : String :=
  o.configFile.getD (Path.join s.root Config.fileName)

/-- The configuration of the project. A configuration file that does not exist provides nothing. -/
def config (s : Site) (o : Overrides) (d : Disk) : Except ConfigError Config := do
  let path := s.configPath o
  let file ← if d.has path then (ConfigFile.load d path).map some else .ok none
  Config.ofLayers file s.environment o

/-- Makes sure that the root is a folder. -/
def checkRoot (s : Site) : Job Unit := do
  if (← Job.disk).hasFolder s.root then return
  else throw (.invalidArguments ("project root '" ++ s.root ++ "' is not a directory"))

def resolve (s : Site) (o : Overrides) : Job (Config × Settings) := do
  s.checkRoot
  let config ← Job.ofExcept .config (s.config o (← Job.disk))
  return (config, ← Job.ofExcept .config config.toSettings)

def builder (s : Site) (o : Overrides) (useCache : Bool) : Job Builder := do
  let (_, settings) ← s.resolve o
  return { root := s.root, settings := settings, now := s.now, useCache := useCache }

/-- The files that were left out so far. -/
def failures : Job (List Problem) := do
  return (← get).events.filterMap fun
    | .failed path message => some { path := path, message := message }
    | _ => none

/-- Reads the sources and refreshes the cache. -/
def parse (s : Site) (o : Overrides) (useCache : Bool) : Job Json := do
  let (set, report) ← (← s.builder o useCache).gather
  return Response.parsed report (set.problems (← failures))

/-- Writes a project to a file, in a folder that is made if it does not exist. -/
def writeProject (path : String) (p : Project) : Job Unit := do
  match Path.parent? path with
  | some holder => if !holder.isEmpty then Job.change fun d => d.makeFolders holder
  | none => pure ()
  Job.change fun d => d.writeText path (Codec.project p).pretty

/-- Builds the project, and writes it to the output if there is one. -/
def build (s : Site) (o : Overrides) (useCache : Bool) (output : Option String) : Job Json := do
  let (project, report) ← (← s.builder o useCache).build
  let found := project.apiSets.flatMap (fun set => set.problems [])
  let problems := Problem.sort (found ++ (← failures))
  match output with
  | some path => writeProject path project
  | none => pure ()
  return Response.built project report problems output

def store (s : Site) (o : Overrides) : Job CacheStore := do
  let (_, settings) ← s.resolve o
  return ⟨Path.join s.root settings.cacheDir⟩

def cacheStatus (s : Site) (o : Overrides) : Job Json := do
  let store ← s.store o
  return Response.cacheStatus store.dir (← Job.ofExcept .cache (store.manifest? (← Job.disk)))

def cacheClear (s : Site) (o : Overrides) : Job Json := do
  let store ← s.store o
  let (disk, removed) := store.clear (← Job.disk)
  Job.setDisk disk
  return Response.cacheCleared store.dir (← Job.ofExcept .cache removed)

def showConfig (s : Site) (o : Overrides) : Job Json := do
  let (config, _) ← s.resolve o
  let path := s.configPath o
  return Response.config (if (← Job.disk).has path then some path else none) config

end Site

def Command.run (s : Site) : Command → Job Json
  | .parse o useCache => s.parse o useCache
  | .build o useCache output => s.build o useCache output
  | .cacheStatus o => s.cacheStatus o
  | .cacheClear o => s.cacheClear o
  | .config o => s.showConfig o

end ApiDoc
