import ApiDoc.Cache.Error
import ApiDoc.Cache.FileCache
import ApiDoc.Cache.Manifest
import ApiDoc.Codec.Element
import ApiDoc.Disk
import ApiDoc.Json.Parser
import ApiDoc.Json.Printer

/-!
# The cache on disk

A cache directory holds the manifest and a folder `files` with one entry per cached file, named by
the key of the file. Loading a set takes the entries that the manifest lists for it and that can be
read; a damaged manifest or entry only makes the loaded cache smaller. Saving a set writes the
entries that are fresh or missing, then the manifest, and then removes the entries that no set lists
any more.
-/

namespace ApiDoc

/-- A cache directory, by its path. -/
structure CacheStore where
  dir : String
deriving DecidableEq, Inhabited

/-- What saving a set did: entries written, entries that were there already, and entries removed. -/
structure SaveCounts where
  written : Nat := 0
  kept : Nat := 0
  collected : Nat := 0
deriving DecidableEq, Inhabited

/-- The counts with one more entry, written or kept. -/
def SaveCounts.tally (c : SaveCounts) (written : Bool) : SaveCounts :=
  if written then { c with written := c.written + 1 } else { c with kept := c.kept + 1 }

/-- What saving leaves: the disk and the cache as they are afterwards, also when it failed. -/
structure Saved where
  disk : Disk
  cache : FileCache
  outcome : Except CacheError SaveCounts

namespace CacheStore

def manifestPath (s : CacheStore) : String := Path.join s.dir "manifest.json"

def filesPath (s : CacheStore) : String := Path.join s.dir "files"

def entryPath (s : CacheStore) (key : String) : String := Path.join s.filesPath (key ++ ".json")

/-! ### Loading -/

def manifest? (s : CacheStore) (d : Disk) : Except CacheError (Option Manifest) :=
  if d.has s.manifestPath then
    match d.readText s.manifestPath with
    | .error e => .error (.io e)
    | .ok text =>
      match (Json.skim? text).bind Codec.manifest? with
      | some m => .ok (some m)
      | none => .error (.corruptManifest s.manifestPath)
  else .ok none

def entry? (s : CacheStore) (d : Disk) (key : String) : Option File :=
  match d.readText (s.entryPath key) with
  | .ok text => (Json.skim? text).bind Codec.file?
  | .error _ => none

/-- The cache with the file of an entry, if the entry holds the file of the path it is listed
under. -/
def loadEntry (s : CacheStore) (d : Disk) (cache : FileCache) (listed : String × String) :
    FileCache :=
  match s.entry? d listed.2 with
  | some file => if file.path = listed.1 then cache.insertSaved file else cache
  | none => cache

def load (s : CacheStore) (d : Disk) (set : String) : Except CacheError FileCache :=
  match s.manifest? d with
  | .error (.corruptManifest _) => .ok {}
  | .error e => .error e
  | .ok none => .ok {}
  | .ok (some m) =>
    if m.schema = Manifest.currentSchema then
      .ok (((m.sets.get? set).getD .empty).entries.foldl (s.loadEntry d) {})
    else .ok {}

/-! ### Saving -/

def makeFolders (s : CacheStore) (d : Disk) : Except CacheError Disk :=
  if d.has s.dir && !d.hasFolder s.dir then .error (.notADirectory s.dir)
  else
    match d.makeFolders s.filesPath with
    | .ok made => .ok made
    | .error e => .error (.io e)

/-- The manifest that a save continues: that on disk, unless it is missing, damaged or of another
form. -/
def continued (s : CacheStore) (d : Disk) (now : String) : Manifest :=
  match s.manifest? d with
  | .ok (some m) => if m.schema = Manifest.currentSchema then m else .blank now
  | _ => .blank now

/-- Writes one entry of a set if it is fresh or missing, and says whether it did. -/
def writeEntry (s : CacheStore) (set path : String) (cached : CachedFile) (d : Disk) :
    Except Disk.Fault (Disk × Bool) :=
  let target := s.entryPath (Manifest.entryKey set path)
  if cached.fresh || !d.has target then
    (d.writeText target (Codec.file cached.file).compact).map (·, true)
  else .ok (d, false)

/-- Writes the entries of a set that are fresh or missing, up to the first that cannot be written,
and counts those written and kept. -/
def writeEntries (s : CacheStore) (set : String) :
    List (String × CachedFile) → Disk → Disk × Except Disk.Fault SaveCounts
  | [], d => (d, .ok {})
  | (path, cached) :: rest, d =>
    match s.writeEntry set path cached d with
    | .error e => (d, .error e)
    | .ok (next, written) =>
      let (final, counts) := writeEntries s set rest next
      (final, counts.map (·.tally written))

/-- The names in the folder of entries that are names of entries. -/
def entryNames (s : CacheStore) (d : Disk) : Except Disk.Fault (List String) :=
  if d.has s.filesPath then do
    return (← d.list s.filesPath).filter fun name => Path.extension? name = some "json"
  else .ok []

/-- Removes the entries whose key is not listed, up to the first that cannot be removed, and counts
them. -/
def collect (s : CacheStore) (live : List String) :
    List String → Disk → Disk × Except Disk.Fault Nat
  | [], d => (d, .ok 0)
  | name :: rest, d =>
    if live.contains ((Path.stem? name).getD "") then collect s live rest d
    else
      match d.removeFile (Path.join s.filesPath name) with
      | .error e => (d, .error e)
      | .ok next =>
        let (final, count) := collect s live rest next
        (final, count.map (· + 1))

/-- The manifest with the paths of a cache as those of a set. -/
def listed (m : Manifest) (set : String) (cache : FileCache) (now : String) : Manifest :=
  { m with
    writtenAt := now
    sets := m.sets.insert set (cache.entries.mapEntries fun path _ => Manifest.entryKey set path) }

def collectUnlisted (s : CacheStore) (m : Manifest) (d : Disk) : Disk × Except Disk.Fault Nat :=
  match s.entryNames d with
  | .error e => (d, .error e)
  | .ok names => s.collect m.keys names d

def save (s : CacheStore) (d : Disk) (set : String) (cache : FileCache) (now : String) : Saved :=
  match s.makeFolders d with
  | .error e => ⟨d, cache, .error e⟩
  | .ok made =>
    let manifest := listed (s.continued made now) set cache now
    match s.writeEntries set cache.entries.entries made with
    | (written, .error e) => ⟨written, cache, .error (.io e)⟩
    | (written, .ok counts) =>
      match written.writeText s.manifestPath (Codec.manifest manifest).pretty with
      | .error e => ⟨written, cache.allSaved, .error (.io e)⟩
      | .ok stored =>
        match s.collectUnlisted manifest stored with
        | (final, .error e) => ⟨final, cache.allSaved, .error (.io e)⟩
        | (final, .ok n) => ⟨final, cache.allSaved, .ok { counts with collected := n }⟩

/-! ### Clearing -/

/-- The disk without the cache directory, and the number of entries it held. -/
def clear (s : CacheStore) (d : Disk) : Disk × Except CacheError Nat :=
  if !d.has s.dir then (d, .ok 0)
  else if !d.hasFolder s.dir then (d, .error (.notADirectory s.dir))
  else
    match s.entryNames d with
    | .error e => (d, .error (.io e))
    | .ok names =>
      match d.removeTree s.dir with
      | (final, some e) => (final, .error (.io e))
      | (final, none) => (final, .ok names.length)

end CacheStore

end ApiDoc
