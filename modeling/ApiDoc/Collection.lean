import ApiDoc.ApiSet
import ApiDoc.Cache.Store
import ApiDoc.Event
import ApiDoc.Source

/-!
# Collecting the files of a set

The files of a set are taken from the cache where their content is unchanged and read from their
source otherwise. A file whose source cannot be loaded or read is reported and left out, and it
leaves the cache, as do files that are not asked for any more.
-/

namespace ApiDoc

/-- The counts of a build: paths found, files read, files taken from the cache, files left out,
cached files that were dropped, and what saving the cache did. -/
structure Report where
  discovered : Nat := 0
  parsed : Nat := 0
  skipped : Nat := 0
  failed : Nat := 0
  removed : Nat := 0
  cache : Option SaveCounts := none
deriving DecidableEq, Inhabited

/-- What collecting has reached: the set, the cache, the counts and the events. -/
structure Collection where
  set : ApiSet
  cache : FileCache
  report : Report := {}
  events : List Event := []
deriving Inhabited

/-- How the source of a path is loaded. -/
abbrev SourceLoader := String → Except SourceError SourceText

namespace Collection

/-- The name of the set that is built from the source paths. -/
def setName : String := "api"

/-- A path whose file is left out. -/
def leaveOut (c : Collection) (path : String) (e : SourceError) : Collection where
  set := c.set
  cache := c.cache.erase path
  report := { c.report with failed := c.report.failed + 1 }
  events := c.events ++ [.failed path e.message]

/-- A path whose file is taken from the cache. -/
def reuse (c : Collection) (path : String) (file : File) : Collection where
  set := (c.set.addFile file).1
  cache := c.cache
  report := { c.report with skipped := c.report.skipped + 1 }
  events := c.events ++ [.skipped path]

/-- A path whose file was read from its source. -/
def accept (c : Collection) (path : String) (file : File) : Collection where
  set := (c.set.addFile file).1
  cache := c.cache.insert file
  report := { c.report with parsed := c.report.parsed + 1 }
  events := c.events ++ [.parsed path]

/-- The file of a source text, together with that text. -/
def readFile (read : SourceReader) (source : SourceText) : Except SourceError File := do
  let file ← read source
  return { file with path := source.path, hash := source.hash, source := some source.content }

def add (load : SourceLoader) (read : SourceReader) (force : Bool) (c : Collection)
    (path : String) : Collection :=
  match load path with
  | .error e => c.leaveOut path e
  | .ok source =>
    match c.cache.unchanged? path source.hash force with
    | some file => c.reuse path file
    | none =>
      match readFile read source with
      | .ok file => c.accept path file
      | .error e => c.leaveOut path e

/-- Drops the cached files of other paths. -/
def prune (c : Collection) (paths : List String) : Collection :=
  let removed := (c.cache.stale paths).length
  { c with cache := c.cache.retain paths, report := { c.report with removed := removed } }

def ofPaths (load : SourceLoader) (read : SourceReader) (force : Bool) (paths : List String)
    (cache : FileCache) : Collection :=
  let start : Collection := {
    set := { name := setName }
    cache := cache
    report := { discovered := paths.length } }
  (paths.foldl (add load read force) start).prune paths

end Collection

end ApiDoc
