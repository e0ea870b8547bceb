import ApiDoc.Build
import ApiDoc.Proofs.Places
import Mathlib.Data.List.Nodup

/-!
# The accounts of collecting files

Collecting goes through the paths one after the other and keeps a set, a cache, five counts and the
reports side by side. What becomes of a path (`Fate`) depends on its source and on the cache that
collecting started with, not on the paths before it, because the paths are different and each of
them touches the cache under itself only. That is the step; `Reached` is what it keeps.

The main statement reads everything that collecting leaves off the fates of the paths: the reports,
the counts, the files of the set in the order of the paths, and the cache, which holds the files of
the set and nothing else.
-/

namespace ApiDoc

theorem Collection.readFile_ok {read : SourceReader} {source : SourceText} {f : File}
    (h : Collection.readFile read source = .ok f) : f.path = source.path ∧ f.hash = source.hash := by
  rw [Collection.readFile] at h
  cases hr : read source with
  | error e => simp [hr, bind, Except.bind] at h
  | ok file =>
    simp only [hr, bind, Except.bind, pure, Except.pure, Except.ok.injEq] at h
    subst h
    exact ⟨rfl, rfl⟩

/-- What becomes of a path: its file is read, or taken from the cache, or left out. -/
inductive Fate
  | parsed (file : File)
  | skipped (file : File)
  | failed (cause : SourceError)

namespace Fate

/-- What becomes of a path whose source may be loaded and read, over the cache as it was before
anything was collected. -/
def ofPath (load : SourceLoader) (read : SourceReader) (force : Bool) (cache : FileCache)
    (path : String) : Fate :=
  match load path with
  | .error e => .failed e
  | .ok source =>
    match cache.unchanged? path source.hash force with
    | some file => .skipped file
    | none =>
      match Collection.readFile read source with
      | .ok file => .parsed file
      | .error e => .failed e

def event (path : String) : Fate → Event
  | .parsed _ => .parsed path
  | .skipped _ => .skipped path
  | .failed cause => .failed path cause.message

/-- The file that the set gets. -/
def file? : Fate → Option File
  | .parsed file => some file
  | .skipped file => some file
  | .failed _ => none

/-- What the cache holds of a path afterwards, if it held `old` before. -/
def cached? (old : Option CachedFile) : Fate → Option CachedFile
  | .parsed file => some ⟨file, true⟩
  | .skipped _ => old
  | .failed _ => none

def isParsed : Fate → Bool
  | .parsed _ => true
  | _ => false

def isSkipped : Fate → Bool
  | .skipped _ => true
  | _ => false

def isFailed : Fate → Bool
  | .failed _ => true
  | _ => false

theorem isSome_file? (f : Fate) : f.file?.isSome = !f.isFailed := by cases f <;> rfl

/-- Every path has one of the three fates. -/
theorem countP_add (fate : String → Fate) (paths : List String) :
    paths.countP (fun path => (fate path).isParsed) +
      paths.countP (fun path => (fate path).isSkipped) +
      paths.countP (fun path => (fate path).isFailed) = paths.length := by
  induction paths with
  | nil => rfl
  | cons path rest ih =>
    have hone : (if (fate path).isParsed then 1 else 0) + (if (fate path).isSkipped then 1 else 0) +
        (if (fate path).isFailed then 1 else 0) = 1 := by
      cases fate path <;> rfl
    simp only [List.countP_cons, List.length_cons]
    omega

end Fate

/-! ### Files under their own paths -/

/-- Every file is cached under its own path. -/
def FileCache.Keyed (c : FileCache) : Prop :=
  ∀ path file, c.get? path = some file → file.path = path

theorem FileCache.keyed_empty : FileCache.Keyed {} := by
  intro path file h
  simp [get?, NameMap.get?, NameMap.empty, NameMap.lookupIn] at h

theorem FileCache.Keyed.insertSaved {c : FileCache} (h : c.Keyed) (f : File) :
    (c.insertSaved f).Keyed := by
  intro path file hget
  rw [get?, FileCache.insertSaved, NameMap.get?_insert] at hget
  split at hget
  · next heq =>
    obtain rfl : f = file := by simpa using hget
    exact heq
  · exact h path file hget

/-- What is loaded for a path is a source of this path. -/
def SourceLoader.Keyed (load : SourceLoader) : Prop :=
  ∀ path source, load path = .ok source → source.path = path

theorem SourceText.keyed_load (d : Disk) (root : String) :
    SourceLoader.Keyed (SourceText.load d root) := by
  intro path source h
  delta load at h
  split at h
  · simp at h
  · split at h
    · rw [← Except.ok.inj h]
    · simp at h

/-- A cached file that counts as unchanged is the cached file of the path, with the given hash. -/
theorem FileCache.unchanged?_eq_some {c : FileCache} {path hash : String} {force : Bool}
    {file : File} (h : c.unchanged? path hash force = some file) :
    c.get? path = some file ∧ file.hash = hash := by
  rw [unchanged?] at h
  split at h
  · simp at h
  · obtain ⟨hget, hhash⟩ := Option.filter_eq_some_iff.mp h
    exact ⟨hget, of_decide_eq_true hhash⟩

/-- Caches that agree on all other paths have the same of them to drop. -/
theorem FileCache.stale_congr {c e : FileCache} {present : List String}
    (h : ∀ path, path ∉ present → c.entries.get? path = e.entries.get? path) :
    c.stale present = e.stale present := by
  have hkeys (cache : FileCache) : cache.stale present =
      (cache.entries.filter fun path _ => !present.contains path).keys := by
    rw [stale, FileCache.paths, NameMap.keys, List.filter_map]
    rfl
  rw [hkeys, hkeys]
  congr 1
  refine NameMap.ext_get? fun path => ?_
  rw [NameMap.get?_filter, NameMap.get?_filter]
  by_cases hmem : path ∈ present
  · simp [hmem]
  · rw [h path hmem]

/-- The file that is kept for a path is a file of this path, with the hash of its source. -/
theorem Fate.of_file? {load : SourceLoader} {read : SourceReader} {force : Bool}
    {cache : FileCache} (hload : load.Keyed) (hcache : cache.Keyed) {path : String} {file : File}
    (h : (Fate.ofPath load read force cache path).file? = some file) :
    file.path = path ∧ ∃ source, load path = .ok source ∧ file.hash = source.hash := by
  rw [ofPath] at h
  split at h
  · simp [file?] at h
  · next source hsource =>
    split at h
    · next cached hcached =>
      obtain rfl : cached = file := by simpa [file?] using h
      obtain ⟨hget, hhash⟩ := FileCache.unchanged?_eq_some hcached
      exact ⟨hcache path cached hget, source, hsource, hhash⟩
    · split at h
      · next found hfound =>
        obtain rfl : found = file := by simpa [file?] using h
        obtain ⟨hpath, hhash⟩ := Collection.readFile_ok hfound
        exact ⟨hpath.trans (hload path source hsource), source, hsource, hhash⟩
      · simp [file?] at h

theorem Fate.get?_of_skipped {load : SourceLoader} {read : SourceReader} {force : Bool}
    {cache : FileCache} {path : String} {file : File}
    (h : Fate.ofPath load read force cache path = .skipped file) : cache.get? path = some file := by
  rw [ofPath] at h
  split at h
  · simp at h
  · split at h
    · next cached hcached =>
      obtain rfl : cached = file := by simpa using h
      exact (FileCache.unchanged?_eq_some hcached).1
    · split at h <;> simp at h

/-! ### One path after the other -/

namespace Collection

/-- What a path with a fate changes: it is reported and counted, its file comes last in the set, and
the cache changes under the path only. -/
structure Took (fate : Fate) (path : String) (c next : Collection) : Prop where
  events : next.events = c.events ++ [fate.event path]
  files : next.set.files = c.set.files ++ fate.file?.toList
  discovered : next.report.discovered = c.report.discovered
  parsed : next.report.parsed = c.report.parsed + if fate.isParsed then 1 else 0
  skipped : next.report.skipped = c.report.skipped + if fate.isSkipped then 1 else 0
  failed : next.report.failed = c.report.failed + if fate.isFailed then 1 else 0
  own : next.cache.entries.get? path = fate.cached? (c.cache.entries.get? path)
  others : ∀ other, other ≠ path → next.cache.entries.get? other = c.cache.entries.get? other

/-- What collecting has reached behind the paths `done` of a list of `size` paths. -/
structure Reached (fate : String → Fate) (cache : FileCache) (size : Nat) (done : List String)
    (c : Collection) : Prop where
  events : c.events = done.map fun path => (fate path).event path
  files : c.set.files = done.filterMap fun path => (fate path).file?
  discovered : c.report.discovered = size
  parsed : c.report.parsed = done.countP fun path => (fate path).isParsed
  skipped : c.report.skipped = done.countP fun path => (fate path).isSkipped
  failed : c.report.failed = done.countP fun path => (fate path).isFailed
  own : ∀ path ∈ done, c.cache.entries.get? path = (fate path).cached? (cache.entries.get? path)
  others : ∀ path, path ∉ done → c.cache.entries.get? path = cache.entries.get? path

theorem took_accept {c : Collection} {path : String} {file : File} (hpath : file.path = path)
    (hnew : path ∉ c.set.files.map File.path) :
    Took (.parsed file) path c (c.accept path file) := by
  have hfiles : (c.set.addFile file).1.files = c.set.files ++ [file] := by
    rw [ApiSet.addFile_of_new (hpath ▸ hnew)]
  constructor <;> try rfl
  · exact hfiles
  · rw [accept, FileCache.insert, hpath]
    exact NameMap.get?_insert_self ..
  · intro other hne
    rw [accept, FileCache.insert, hpath]
    exact NameMap.get?_insert_of_ne _ (Ne.symm hne) _

theorem took_reuse {c : Collection} {path : String} {file : File} (hpath : file.path = path)
    (hnew : path ∉ c.set.files.map File.path) :
    Took (.skipped file) path c (c.reuse path file) := by
  have hfiles : (c.set.addFile file).1.files = c.set.files ++ [file] := by
    rw [ApiSet.addFile_of_new (hpath ▸ hnew)]
  constructor <;> try rfl
  · exact hfiles
  · exact fun _ _ => rfl

theorem took_leaveOut (c : Collection) (path : String) (e : SourceError) :
    Took (.failed e) path c (c.leaveOut path e) := by
  constructor <;> try rfl
  · exact (List.append_nil _).symm
  · exact NameMap.get?_erase_self ..
  · exact fun other hne => NameMap.get?_erase_of_ne _ hne

section Steps

variable {load : SourceLoader} {read : SourceReader} {force : Bool} {cache : FileCache}

/-- A path that is not in the set has its fate, whatever was collected before, as long as the cache
still holds under it what it held at the start. -/
theorem took_add (read : SourceReader) (force : Bool) (hload : load.Keyed) (hcache : cache.Keyed)
    {c : Collection} {path : String}
    (hsame : c.cache.entries.get? path = cache.entries.get? path)
    (hnew : path ∉ c.set.files.map File.path) :
    Took (Fate.ofPath load read force cache path) path c (add load read force c path) := by
  have hkey {file : File} (h : (Fate.ofPath load read force cache path).file? = some file) :
      file.path = path := (Fate.of_file? hload hcache h).1
  have hunchanged (hash : String) :
      c.cache.unchanged? path hash force = cache.unchanged? path hash force := by
    rw [FileCache.unchanged?, FileCache.unchanged?, FileCache.get?, FileCache.get?, hsame]
  rw [Fate.ofPath] at hkey ⊢
  rw [add]
  cases hsource : load path with
  | error e => exact took_leaveOut c path e
  | ok source =>
    simp only [hsource, hunchanged] at hkey ⊢
    cases hcached : cache.unchanged? path source.hash force with
    | some file =>
      rw [hcached] at hkey
      exact took_reuse (hkey rfl) hnew
    | none =>
      cases hread : readFile read source with
      | ok file =>
        simp only [hcached, hread] at hkey
        exact took_accept (hkey rfl) hnew
      | error e => exact took_leaveOut c path e

theorem Reached.snoc {fate : String → Fate} {size : Nat} {done : List String} {c next : Collection}
    {path : String} (h : Reached fate cache size done c) (hnew : path ∉ done)
    (ht : Took (fate path) path c next) : Reached fate cache size (done ++ [path]) next where
  events := by rw [ht.events, h.events, List.map_append]; rfl
  files := by
    rw [ht.files, h.files, List.filterMap_append]
    cases hfile : (fate path).file? <;> simp [hfile]
  discovered := ht.discovered.trans h.discovered
  parsed := by rw [ht.parsed, h.parsed, List.countP_append, List.countP_singleton]
  skipped := by rw [ht.skipped, h.skipped, List.countP_append, List.countP_singleton]
  failed := by rw [ht.failed, h.failed, List.countP_append, List.countP_singleton]
  own other hother := by
    rcases List.mem_append.mp hother with hdone | hlast
    · have hne : other ≠ path := fun he => hnew (he ▸ hdone)
      rw [ht.others other hne, h.own other hdone]
    · obtain rfl := List.mem_singleton.mp hlast
      rw [ht.own, h.others other hnew]
  others other hother := by
    have hne : other ≠ path := fun he => hother (by simp [he])
    have hdone : other ∉ done := fun hmem => hother (List.mem_append_left _ hmem)
    rw [ht.others other hne, h.others other hdone]

/-- A path that is not done is not in the set. -/
theorem Reached.not_mem_files (hload : load.Keyed) (hcache : cache.Keyed) {size : Nat}
    {done : List String} {c : Collection}
    (h : Reached (Fate.ofPath load read force cache) cache size done c) {path : String}
    (hnew : path ∉ done) : path ∉ c.set.files.map File.path := by
  intro hmem
  obtain ⟨file, hfile, rfl⟩ := List.mem_map.mp hmem
  rw [h.files] at hfile
  obtain ⟨other, hother, hkept⟩ := List.mem_filterMap.mp hfile
  exact hnew ((Fate.of_file? hload hcache hkept).1 ▸ hother)

/-- Any number of different paths more. -/
theorem Reached.foldl (hload : load.Keyed) (hcache : cache.Keyed) {size : Nat}
    {done rest : List String} {c : Collection}
    (h : Reached (Fate.ofPath load read force cache) cache size done c)
    (hdistinct : (done ++ rest).Nodup) :
    Reached (Fate.ofPath load read force cache) cache size (done ++ rest)
      (rest.foldl (add load read force) c) := by
  induction rest generalizing done c with
  | nil => simpa using h
  | cons path rest ih =>
    have happend : done ++ path :: rest = (done ++ [path]) ++ rest := by simp
    rw [happend] at hdistinct ⊢
    have hnew : path ∉ done := by
      have hfront := (List.nodup_append.mp hdistinct).1
      exact fun hmem => (List.nodup_append.mp hfront).2.2 path hmem path (by simp) rfl
    have htook := took_add read force hload hcache (h.others path hnew)
      (h.not_mem_files hload hcache hnew)
    exact ih (h.snoc hnew htook) hdistinct

end Steps

/-! ### What collecting leaves -/

/-- The paths whose file is read or taken from the cache. -/
def kept (fate : String → Fate) (paths : List String) : List String :=
  paths.filter fun path => !(fate path).isFailed

/-- The accounts of a collection: what its parts say of the fates of the paths and of the cache that
it started with. -/
structure Accounts (load : SourceLoader) (fate : String → Fate) (paths : List String)
    (cache : FileCache) (c : Collection) : Prop where
  /-- Every path is reported once, in order, as what became of it. -/
  events : c.events = paths.map fun path => (fate path).event path
  discovered : c.report.discovered = paths.length
  total : c.report.parsed + c.report.skipped + c.report.failed = paths.length
  parsed : c.report.parsed = paths.countP fun path => (fate path).isParsed
  skipped : c.report.skipped = paths.countP fun path => (fate path).isSkipped
  failed : c.report.failed = paths.countP fun path => (fate path).isFailed
  /-- The set holds the files of the kept paths, in their order. -/
  files : c.set.files = paths.filterMap fun path => (fate path).file?
  named : c.set.files.map File.path = kept fate paths
  /-- The kept paths are numbered from zero. -/
  numbered : ∀ path id, c.set.fileId? path = some id ↔ (kept fate paths)[id]? = some path
  /-- The cache holds the files of the set under their paths, and nothing else. -/
  cached : ∀ path file, c.cache.get? path = some file ↔ file ∈ c.set.files ∧ file.path = path
  /-- Every file of the set has the hash of what its path holds. -/
  hashes : ∀ file ∈ c.set.files, ∃ source, load file.path = .ok source ∧ file.hash = source.hash
  removed : c.report.removed = (cache.paths.filter fun path => !paths.contains path).length

section Whole

variable {load : SourceLoader} {read : SourceReader} {force : Bool} {cache : FileCache}
variable {paths : List String}

/-- All paths. -/
theorem reached_foldl (read : SourceReader) (force : Bool) (hload : load.Keyed)
    (hcache : cache.Keyed) (hdistinct : paths.Nodup) :
    Reached (Fate.ofPath load read force cache) cache paths.length paths
      (paths.foldl (add load read force)
        { set := { name := setName }, cache := cache, report := { discovered := paths.length } }) :=
  have hstart : Reached (Fate.ofPath load read force cache) cache paths.length []
      { set := { name := setName }, cache := cache, report := { discovered := paths.length } } :=
    ⟨rfl, rfl, rfl, rfl, rfl, rfl, by simp, fun _ _ => rfl⟩
  hstart.foldl hload hcache hdistinct

theorem map_path_filterMap {fate : String → Fate}
    (h : ∀ path file, (fate path).file? = some file → file.path = path) (paths : List String) :
    (paths.filterMap fun path => (fate path).file?).map File.path = kept fate paths := by
  induction paths with
  | nil => rfl
  | cons path rest ih =>
    rw [kept] at ih ⊢
    rw [List.filterMap_cons, List.filter_cons, ← Fate.isSome_file?]
    cases hfile : (fate path).file? with
    | none => simpa using ih
    | some file => simpa [h path file hfile] using ih

/-- In a set whose files have different paths the number of a path is its place among them. -/
theorem fileId?_eq_some_iff {s : ApiSet} (h : (s.files.map File.path).Nodup) {path : String}
    {id : Nat} : s.fileId? path = some id ↔ (s.files.map File.path)[id]? = some path := by
  rw [ApiSet.fileId?, List.findIdx?_eq_some_iff_getElem]
  constructor
  · rintro ⟨hlt, hpath, -⟩
    rw [List.getElem?_map, List.getElem?_eq_getElem hlt]
    simpa using hpath
  · intro hget
    obtain ⟨hlt, hpath⟩ := List.getElem?_eq_some_iff.mp hget
    rw [List.length_map] at hlt
    refine ⟨hlt, by simpa using hpath, fun j hj hother => ?_⟩
    have hj' : j < (s.files.map File.path).length := by simp; omega
    have hid : id < (s.files.map File.path).length := by simpa using hlt
    have hsame : (s.files.map File.path)[j] = (s.files.map File.path)[id] := by
      rw [hpath]
      simpa using hother
    have := (List.Nodup.getElem_inj_iff h).mp hsame
    omega

/-- The cache that is left, path by path. -/
theorem get?_ofPaths (hload : load.Keyed) (hcache : cache.Keyed) (hdistinct : paths.Nodup)
    (path : String) :
    (ofPaths load read force paths cache).cache.get? path =
      if path ∈ paths then (Fate.ofPath load read force cache path).file? else none := by
  have hreached := reached_foldl read force hload hcache hdistinct
  rw [ofPaths, prune, FileCache.get?, FileCache.retain, NameMap.get?_filter]
  by_cases hmem : path ∈ paths
  · rw [if_pos hmem, hreached.own path hmem]
    cases hfate : Fate.ofPath load read force cache path with
    | parsed file => simp [Fate.cached?, Fate.file?, hmem]
    | skipped file =>
      have hget := Fate.get?_of_skipped hfate
      rw [FileCache.get?] at hget
      simpa [Fate.cached?, Fate.file?, hmem] using hget
    | failed e => simp [Fate.cached?, Fate.file?]
  · simp [hmem]

/-- The cache holds the files of the set. -/
theorem get?_ofPaths_iff (hload : load.Keyed) (hcache : cache.Keyed) (hdistinct : paths.Nodup)
    (path : String) (file : File) :
    (ofPaths load read force paths cache).cache.get? path = some file ↔
      file ∈ (ofPaths load read force paths cache).set.files ∧ file.path = path := by
  have hfiles : (ofPaths load read force paths cache).set.files =
      paths.filterMap fun path => (Fate.ofPath load read force cache path).file? :=
    (reached_foldl read force hload hcache hdistinct).files
  rw [get?_ofPaths hload hcache hdistinct, hfiles, List.mem_filterMap]
  constructor
  · intro h
    split at h
    · next hmem => exact ⟨⟨path, hmem, h⟩, (Fate.of_file? hload hcache h).1⟩
    · simp at h
  · rintro ⟨⟨other, hmem, hkept⟩, rfl⟩
    obtain rfl := (Fate.of_file? hload hcache hkept).1
    rw [if_pos hmem, hkept]

/-- The files that collecting drops at the end are those of other paths that were cached before. -/
theorem removed_ofPaths (hload : load.Keyed) (hcache : cache.Keyed) (hdistinct : paths.Nodup) :
    (ofPaths load read force paths cache).report.removed =
      (cache.paths.filter fun path => !paths.contains path).length := by
  have hreached := reached_foldl read force hload hcache hdistinct
  exact congrArg List.length (FileCache.stale_congr hreached.others)

/-- Collecting different paths over a cache of files under their own paths keeps its accounts. -/
theorem accounts_ofPaths (hload : load.Keyed) (hcache : cache.Keyed) (hdistinct : paths.Nodup) :
    Accounts load (Fate.ofPath load read force cache) paths cache
      (ofPaths load read force paths cache) := by
  have hreached := reached_foldl read force hload hcache hdistinct
  have hown (path : String) (file : File)
      (h : (Fate.ofPath load read force cache path).file? = some file) : file.path = path :=
    (Fate.of_file? hload hcache h).1
  have hnamed := map_path_filterMap hown paths
  have hfiles : (ofPaths load read force paths cache).set.files = _ := hreached.files
  constructor
  case events => exact hreached.events
  case discovered => exact hreached.discovered
  case parsed => exact hreached.parsed
  case skipped => exact hreached.skipped
  case failed => exact hreached.failed
  case total =>
    have htotal := Fate.countP_add (Fate.ofPath load read force cache) paths
    rwa [← hreached.parsed, ← hreached.skipped, ← hreached.failed] at htotal
  case files => exact hreached.files
  case named => rw [hfiles, hnamed]
  case numbered =>
    intro path id
    have hnodup : ((ofPaths load read force paths cache).set.files.map File.path).Nodup := by
      rw [hfiles, hnamed]
      exact hdistinct.filter _
    rw [fileId?_eq_some_iff hnodup, hfiles, hnamed]
  case cached => exact get?_ofPaths_iff hload hcache hdistinct
  case hashes =>
    intro file hfile
    rw [hfiles] at hfile
    obtain ⟨path, -, hkept⟩ := List.mem_filterMap.mp hfile
    obtain ⟨rfl, hhash⟩ := Fate.of_file? hload hcache hkept
    exact hhash
  case removed => exact removed_ofPaths hload hcache hdistinct

end Whole

end Collection

/-- A build keeps its accounts: collecting different paths over a cache of files under their own
paths always comes to an end, reports what it did and leaves the disk as it is. What was found is
what was parsed, skipped and failed; the set holds the parsed and the skipped files, numbered in the
order of the paths, with the hash of what their paths hold; the cache holds the same files; and what
was removed from it are the other paths that were cached before. -/
theorem Builder.accounts_collect (b : Builder) (w : Workspace) {paths : List String}
    (hdistinct : paths.Nodup) {cache : FileCache} (hkeyed : cache.Keyed) :
    ∃ c : Collection, ((b.collect paths cache).run).run w =
        (.ok c, { w with events := w.events ++ c.events }) ∧
      c.Accounts (SourceText.load w.disk b.root)
        (Fate.ofPath (SourceText.load w.disk b.root) b.read b.settings.force cache) paths cache :=
  ⟨_, rfl, Collection.accounts_ofPaths (SourceText.keyed_load w.disk b.root) hkeyed hdistinct⟩

def Disk.twoSources : Disk where
  entries := .ofList [("/p", .folder), ("/p/a.php", .file "<?php class A \x7b\x7d".toUTF8),
    ("/p/b.php", .file "<?php class B \x7b\x7d".toUTF8)]

/-- A cache that knows the first of the two files, and one that is not there any more. -/
def FileCache.ofEarlier : FileCache :=
  (FileCache.insertSaved {} { path := "a.php", hash := Digest.ofText "<?php class A \x7b\x7d" }).insertSaved
    { path := "d.php", hash := "" }

def Builder.ofTwoSources : Builder where
  root := "/p"
  settings := {}
  now := ""

/-- One file is taken from the cache, one is read, one is missing, and one leaves the cache. -/
theorem Builder.accounts_collect_mixed : ∃ c : Collection,
    ((ofTwoSources.collect ["a.php", "b.php", "c.php"] .ofEarlier).run).run ⟨.twoSources, []⟩ =
      (.ok c, ⟨.twoSources, c.events⟩) ∧
    (c.report.discovered, c.report.parsed, c.report.skipped, c.report.failed, c.report.removed) =
      (3, 1, 1, 1, 1) ∧
    c.set.files.map File.path = ["a.php", "b.php"] ∧ c.set.fileId? "b.php" = some 1 ∧
    c.cache.get? "d.php" = none := by
  have hdistinct : ["a.php", "b.php", "c.php"].Nodup := by decide
  obtain ⟨c, hrun, h⟩ := ofTwoSources.accounts_collect ⟨.twoSources, []⟩ hdistinct
    ((FileCache.keyed_empty.insertSaved _).insertSaved _ : FileCache.ofEarlier.Keyed)
  have hkept : c.set.files.map File.path = ["a.php", "b.php"] := by
    rw [h.named]
    decide +kernel
  refine ⟨c, hrun, ?_, hkept, ?_, ?_⟩
  · rw [h.discovered, h.parsed, h.skipped, h.failed, h.removed]
    decide +kernel
  · rw [h.numbered, ← h.named, hkept]
    rfl
  · rw [Option.eq_none_iff_forall_ne_some]
    intro file hfile
    obtain ⟨hmem, hpath⟩ := (h.cached "d.php" file).mp hfile
    have hnamed : file.path ∈ c.set.files.map File.path := List.mem_map_of_mem hmem
    rw [hkept, hpath] at hnamed
    revert hnamed
    decide

end ApiDoc
