import ApiDoc.Build
import ApiDoc.Proofs.Accounting
import ApiDoc.Proofs.Isolation

/-!
# Builds over a cache and builds from nothing

A history is a sequence of rounds on one cache directory. Each round loads the cache, collects the
files of its paths and saves the cache; between rounds the rest of the disk may change in any way.
The main statement: in every round of every history the collected set is the one that collecting
with an empty cache gives, if no two of the contents seen have the same digest.

What carries the proof is that a file is never kept without the source it was read from: `IsReadOf`
holds of every file in memory (`FileCache.Faithful`) and of every file that the directory can give
back (`CacheStore.Faithful`). Saving and loading only ever move such files.
-/

namespace ApiDoc

/-! ### Rounds and histories -/

/-- What one round finds and is asked for: the paths, what each of them holds or why it cannot be
loaded, whether every file is to be read again, and the time. -/
structure Round where
  paths : List String
  contents : String → Except SourceError String
  force : Bool
  now : String

namespace Round

def load (r : Round) : SourceLoader := fun path => (r.contents path).map (SourceText.mk path)

def collect (r : Round) (read : SourceReader) (cache : FileCache) : Collection :=
  Collection.ofPaths r.load read r.force r.paths cache

/-- The contents that the round can load. -/
def Holds (r : Round) (content : String) : Prop := ∃ path ∈ r.paths, r.contents path = .ok content

end Round

/-- The rounds done on a cache directory, the latest first, each with what it collected, and the
disk they lead to. -/
inductive History (read : SourceReader) (s : CacheStore) :
    List (Round × Collection) → Disk → Prop
  | start {d : Disk} : d.AbsentBelow (s.place d.current) → History read s [] d
  | others {done : List (Round × Collection)} {d next : Disk} : History read s done d →
      Disk.SameBelow (s.place d.current) d next → History read s done next
  | round {done : List (Round × Collection)} {d : Disk} (r : Round) {cache : FileCache} :
      History read s done d → s.load d Collection.setName = .ok cache →
      History read s ((r, r.collect read cache) :: done)
        (s.save d Collection.setName (r.collect read cache).cache r.now).disk

/-- The contents that the rounds of a history could load. -/
def Seen (done : List (Round × Collection)) (content : String) : Prop :=
  ∃ rc ∈ done, rc.1.Holds content

/-- No two different texts with a property have the same digest. -/
def Digest.Separates (seen : String → Prop) : Prop :=
  ∀ a b, seen a → seen b → Digest.ofText a = Digest.ofText b → a = b

/-! ### Files and the sources they were read from -/

/-- A file that was read from one of the contents. -/
def IsReadOf (read : SourceReader) (seen : String → Prop) (f : File) : Prop :=
  ∃ content, seen content ∧ Collection.readFile read ⟨f.path, content⟩ = .ok f

/-- Every cached file is listed under its own path and was read from one of the contents. -/
def FileCache.Faithful (read : SourceReader) (seen : String → Prop) (c : FileCache) : Prop :=
  ∀ e ∈ c.entries.entries, e.2.file.path = e.1 ∧ IsReadOf read seen e.2.file

/-- The set with the file of one path as its source gives it, or as it is if there is none. -/
def Collection.taken (load : SourceLoader) (read : SourceReader) (set : ApiSet) (path : String) :
    ApiSet :=
  match load path with
  | .error _ => set
  | .ok source =>
    match Collection.readFile read source with
    | .error _ => set
    | .ok file => (set.addFile file).1

section Collecting

variable {read : SourceReader} {seen : String → Prop}

namespace FileCache.Faithful

variable {c : FileCache}

theorem empty : FileCache.Faithful read seen {} := by
  intro e h
  simp [NameMap.empty] at h

theorem insertAny (h : c.Faithful read seen) {f : File} (hf : IsReadOf read seen f)
    (fresh : Bool) : FileCache.Faithful read seen ⟨c.entries.insert f.path ⟨f, fresh⟩⟩ := by
  intro e he
  rcases NameMap.mem_insertIn he with rfl | he
  · exact ⟨rfl, hf⟩
  · exact h e he

theorem erase (h : c.Faithful read seen) (path : String) : (c.erase path).Faithful read seen :=
  fun e he => h e (List.mem_filter.mp he).1

theorem retain (h : c.Faithful read seen) (present : List String) :
    (c.retain present).Faithful read seen :=
  fun e he => h e (List.mem_filter.mp he).1

/-- A cached file that counts as unchanged is what reading the source gives: it was read from a
content with the same digest. -/
theorem readFile_of_unchanged? (h : c.Faithful read seen) (hsep : Digest.Separates seen)
    {path content : String} {force : Bool} {f : File} (hseen : seen content)
    (hf : c.unchanged? path (SourceText.mk path content).hash force = some f) :
    Collection.readFile read ⟨path, content⟩ = .ok f := by
  rw [FileCache.unchanged?] at hf
  split at hf
  · simp at hf
  · obtain ⟨hget, hhash⟩ := Option.filter_eq_some_iff.mp hf
    obtain ⟨cached, hcached, rfl⟩ := Option.map_eq_some_iff.mp hget
    obtain ⟨hpath, old, hold, hread⟩ := h _ (NameMap.mem_entries_iff.mpr hcached)
    have hdigest : Digest.ofText old = Digest.ofText content :=
      (Collection.readFile_ok hread).2.symm.trans (of_decide_eq_true hhash)
    have hpath : cached.file.path = path := hpath
    rw [← hsep old content hold hseen hdigest, ← hpath]
    exact hread

end FileCache.Faithful

namespace Collection

/-- One path: whatever faithful cache is used, the set gets the file that the source gives, and the
cache stays faithful. -/
theorem add_of_faithful (hsep : Digest.Separates seen) {r : Round} {path : String}
    (hseen : ∀ content, r.contents path = .ok content → seen content) {c : Collection}
    (hc : c.cache.Faithful read seen) :
    (add r.load read r.force c path).set = taken r.load read c.set path ∧
      (add r.load read r.force c path).cache.Faithful read seen := by
  rw [add, taken]
  cases hcontent : r.contents path with
  | error e =>
    have hload : r.load path = .error e := by simp [Round.load, hcontent, Except.map]
    rw [hload]
    exact ⟨rfl, hc.erase path⟩
  | ok content =>
    have hload : r.load path = .ok ⟨path, content⟩ := by simp [Round.load, hcontent, Except.map]
    rw [hload]
    dsimp only
    split
    · next file hfile =>
      have hread := hc.readFile_of_unchanged? hsep (hseen content hcontent) hfile
      rw [hread]
      exact ⟨rfl, hc⟩
    · cases hread : readFile read ⟨path, content⟩ with
      | error e => exact ⟨rfl, hc.erase path⟩
      | ok file =>
        have hpath : file.path = path := (readFile_ok hread).1
        refine ⟨rfl, hc.insertAny ⟨content, hseen content hcontent, ?_⟩ true⟩
        rw [hpath]
        exact hread

theorem foldl_add_of_faithful (hsep : Digest.Separates seen) {r : Round} {paths : List String}
    (hseen : ∀ path ∈ paths, ∀ content, r.contents path = .ok content → seen content)
    {c : Collection} (hc : c.cache.Faithful read seen) :
    (paths.foldl (add r.load read r.force) c).set = paths.foldl (taken r.load read) c.set ∧
      (paths.foldl (add r.load read r.force) c).cache.Faithful read seen := by
  induction paths generalizing c with
  | nil => exact ⟨rfl, hc⟩
  | cons path rest ih =>
    obtain ⟨hset, hcache⟩ := add_of_faithful hsep (hseen path List.mem_cons_self) hc
    rw [List.foldl_cons, List.foldl_cons, ← hset]
    exact ih (fun other hother => hseen other (List.mem_cons_of_mem _ hother)) hcache

end Collection

/-- A round over a faithful cache collects what its sources give, and leaves a faithful cache. -/
theorem Round.collect_of_faithful (hsep : Digest.Separates seen) {r : Round}
    (hseen : ∀ content, r.Holds content → seen content) {cache : FileCache}
    (hc : cache.Faithful read seen) :
    (r.collect read cache).set =
        r.paths.foldl (Collection.taken r.load read) { name := Collection.setName } ∧
      (r.collect read cache).cache.Faithful read seen := by
  have hheld : ∀ path ∈ r.paths, ∀ content, r.contents path = .ok content → seen content :=
    fun path hpath content hcontent => hseen content ⟨path, hpath, hcontent⟩
  rw [Round.collect, Collection.ofPaths]
  obtain ⟨hset, hcache⟩ := Collection.foldl_add_of_faithful hsep hheld
    (c := { set := { name := Collection.setName }, cache := cache,
            report := { discovered := r.paths.length } }) hc
  exact ⟨hset, hcache.retain r.paths⟩

end Collecting

/-! ### What the directory can give back -/

/-- Every key that the manifest lists is one piece of a path. -/
def Manifest.Plain (m : Manifest) : Prop :=
  ∀ e ∈ m.sets.entries, ∀ l ∈ e.2.entries, '/' ∉ l.2.toList

namespace CacheStore

/-- What a cache directory gives back: a manifest with plain keys, and under plain keys files that
were read from the contents. -/
structure Faithful (read : SourceReader) (seen : String → Prop) (s : CacheStore) (d : Disk) :
    Prop where
  manifest : ∀ content text m, d.entries.get? (s.manifestPlace d.current) = some (.file content) →
    String.fromUTF8? content = some text → (Json.skim? text).bind Codec.manifest? = some m →
    m.Plain
  entry : ∀ key content text f, d.entries.get? (s.entryPlace d.current key) = some (.file content) →
    String.fromUTF8? content = some text → (Json.skim? text).bind Codec.file? = some f →
    IsReadOf read seen f

variable {read : SourceReader} {seen : String → Prop} {s : CacheStore} {d : Disk}

namespace Faithful

theorem of_absentBelow (h : d.AbsentBelow (s.place d.current)) : s.Faithful read seen d := by
  constructor
  · intro content text m hget
    rw [manifestPlace_eq_child, h] at hget
    simp at hget
  · intro key content text f hget
    rw [entryPlace_eq_child, h] at hget
    simp at hget

theorem of_sameBelow (h : s.Faithful read seen d) {next : Disk}
    (hsame : Disk.SameBelow (s.place d.current) d next) : s.Faithful read seen next := by
  constructor
  · intro content text m hget
    rw [hsame.current_eq, manifestPlace_eq_child, hsame.entries] at hget
    exact h.manifest content text m hget
  · intro key content text f hget
    rw [hsame.current_eq, entryPlace_eq_child, hsame.entries, ← entryPlace_eq_child] at hget
    exact h.entry key content text f hget

theorem of_noNewFiles (h : s.Faithful read seen d) {next : Disk}
    (hnext : Disk.NoNewFiles d next) : s.Faithful read seen next := by
  constructor
  · intro content text m hget
    rw [hnext.current_eq] at hget
    exact h.manifest content text m (hnext.files _ _ hget)
  · intro key content text f hget
    rw [hnext.current_eq] at hget
    exact h.entry key content text f (hnext.files _ _ hget)

/-- A written entry reads back as the file it was made from, or not at all. -/
theorem writeFile (h : s.Faithful read seen d) {f : File} (hf : IsReadOf read seen f)
    {set path : String} {next : Disk}
    (hnext : d.writeText (s.entryPath (Manifest.entryKey set path)) (Codec.file f).compact =
      .ok next) : s.Faithful read seen next := by
  have hput := Disk.write_ok hnext
  rw [s.placeOf_entryPath d.current (Manifest.slash_not_mem_entryKey set path)] at hput
  subst hput
  constructor
  · intro content text m hget
    rw [Disk.put, NameMap.get?_insert_of_ne _ (s.manifestPlace_ne_entryPlace _ _).symm] at hget
    exact h.manifest content text m hget
  · intro key content text g hget htext hg
    by_cases he : s.entryPlace d.current (Manifest.entryKey set path) = s.entryPlace d.current key
    · simp only [Disk.put, he, NameMap.get?_insert_self, Option.some.injEq,
        Disk.Entry.file.injEq] at hget
      rw [← hget, Text.fromUTF8?_toUTF8] at htext
      cases htext
      rw [Codec.eq_of_file?_skim? hg]
      exact hf
    · rw [Disk.put, NameMap.get?_insert_of_ne _ he] at hget
      exact h.entry key content text g hget htext hg

/-- A written manifest reads back as it was, or not at all. -/
theorem writeManifest (h : s.Faithful read seen d) {m : Manifest} (hm : m.Plain) {next : Disk}
    (hnext : d.writeText s.manifestPath (Codec.manifest m).pretty = .ok next) :
    s.Faithful read seen next := by
  have hput := Disk.write_ok hnext
  rw [s.placeOf_manifestPath d.current] at hput
  subst hput
  constructor
  · intro content text n hget htext hn
    simp only [Disk.put, NameMap.get?_insert_self, Option.some.injEq,
      Disk.Entry.file.injEq] at hget
    rw [← hget, Text.fromUTF8?_toUTF8] at htext
    cases htext
    rw [Codec.eq_of_manifest?_skim? hn]
    exact hm
  · intro key content text f hget
    rw [Disk.put, NameMap.get?_insert_of_ne _ (s.manifestPlace_ne_entryPlace _ _)] at hget
    exact h.entry key content text f hget

end Faithful

/-! ### Loading -/

theorem Faithful.manifest_plain (h : s.Faithful read seen d) {m : Manifest}
    (hm : s.manifest? d = .ok (some m)) : m.Plain := by
  rw [manifest?] at hm
  split at hm
  · cases htext : d.readText s.manifestPath with
    | error e => simp [htext] at hm
    | ok text =>
      obtain ⟨content, hget, hutf⟩ := Disk.readText_ok htext
      rw [s.placeOf_manifestPath] at hget
      cases hparse : (Json.skim? text).bind Codec.manifest? with
      | none => simp [htext, hparse] at hm
      | some parsed =>
        simp only [htext, hparse, Except.ok.injEq, Option.some.injEq] at hm
        subst hm
        exact h.manifest content text parsed hget hutf hparse
  · simp at hm

theorem Faithful.entry_isReadOf (h : s.Faithful read seen d) {key : String}
    (hkey : '/' ∉ key.toList) {f : File} (hf : s.entry? d key = some f) :
    IsReadOf read seen f := by
  delta CacheStore.entry? at hf
  cases htext : d.readText (s.entryPath key) with
  | error e => simp [htext] at hf
  | ok text =>
    obtain ⟨content, hget, hutf⟩ := Disk.readText_ok htext
    rw [s.placeOf_entryPath _ hkey] at hget
    rw [htext] at hf
    exact h.entry key content text f hget hutf hf

theorem Faithful.loadEntries (h : s.Faithful read seen d) {listed : List (String × String)}
    (hplain : ∀ l ∈ listed, '/' ∉ l.2.toList) {cache : FileCache}
    (hc : cache.Faithful read seen) :
    (listed.foldl (s.loadEntry d) cache).Faithful read seen := by
  induction listed generalizing cache with
  | nil => exact hc
  | cons l rest ih =>
    refine ih (fun other hother => hplain other (List.mem_cons_of_mem _ hother)) ?_
    delta loadEntry
    split
    · next file hfile =>
      split
      · exact hc.insertAny (h.entry_isReadOf (hplain l List.mem_cons_self) hfile) false
      · exact hc
    · exact hc

/-- What is loaded was read from the contents. -/
theorem Faithful.load (h : s.Faithful read seen d) {set : String} {cache : FileCache}
    (hload : s.load d set = .ok cache) : cache.Faithful read seen := by
  rw [CacheStore.load] at hload
  split at hload
  · cases hload
    exact FileCache.Faithful.empty
  · simp at hload
  · cases hload
    exact FileCache.Faithful.empty
  · next m hm =>
    split at hload
    · simp only [Except.ok.injEq] at hload
      subst hload
      refine h.loadEntries (fun l hl => ?_) FileCache.Faithful.empty
      cases hset : m.sets.get? set with
      | none => simp [hset, NameMap.empty] at hl
      | some keys =>
        rw [hset] at hl
        exact h.manifest_plain hm _ (NameMap.mem_entries_iff.mpr hset) l hl
    · cases hload
      exact FileCache.Faithful.empty

/-- Loading fails only if there is a manifest that cannot be read as a text. -/
theorem exists_load_of_readText (h : (d.readText s.manifestPath).isOk = true) (set : String) :
    ∃ cache, s.load d set = .ok cache := by
  rw [CacheStore.load]
  split
  · exact ⟨_, rfl⟩
  · next e hne hm =>
    rw [manifest?] at hm
    split at hm
    · split at hm
      · next fault hfault =>
        rw [hfault] at h
        exact absurd h Bool.false_ne_true
      · split at hm
        · simp at hm
        · exact absurd (Except.error.inj hm).symm (hne _)
    · simp at hm
  · exact ⟨_, rfl⟩
  · split <;> exact ⟨_, rfl⟩

/-! ### Saving -/

theorem Faithful.makeFolders (h : s.Faithful read seen d) {made : Disk}
    (hmade : s.makeFolders d = .ok made) : s.Faithful read seen made := by
  rw [CacheStore.makeFolders] at hmade
  split at hmade
  · simp at hmade
  · split at hmade
    · next next hnext =>
      cases hmade
      exact h.of_noNewFiles (Disk.noNewFiles_makeFirst hnext)
    · simp at hmade

theorem Faithful.continued_plain (h : s.Faithful read seen d) (now : String) :
    (s.continued d now).Plain := by
  have hblank : (Manifest.blank now).Plain := by
    intro e he
    simp [Manifest.blank, NameMap.empty] at he
  rw [continued]
  split
  · next m hm =>
    split
    · exact h.manifest_plain hm
    · exact hblank
  · exact hblank

theorem listed_plain {m : Manifest} (hm : m.Plain) (set : String) (cache : FileCache)
    (now : String) : (listed m set cache now).Plain := by
  intro e he l hl
  rcases NameMap.mem_insertIn he with heq | he
  · rw [heq] at hl
    simp only [NameMap.mapEntries, List.mem_map] at hl
    obtain ⟨entry, -, hentry⟩ := hl
    rw [← hentry]
    exact Manifest.slash_not_mem_entryKey set entry.1
  · exact hm e he l hl

theorem Faithful.writeEntry (h : s.Faithful read seen d) {set path : String}
    {cached : CachedFile} (hf : IsReadOf read seen cached.file) {next : Disk} {written : Bool}
    (hnext : s.writeEntry set path cached d = .ok (next, written)) : s.Faithful read seen next := by
  rw [CacheStore.writeEntry] at hnext
  split at hnext
  · cases hw : d.writeText (s.entryPath (Manifest.entryKey set path))
        (Codec.file cached.file).compact with
    | error e => simp [hw, Except.map] at hnext
    | ok stored =>
      simp only [hw, Except.map, Except.ok.injEq, Prod.mk.injEq] at hnext
      exact hnext.1 ▸ h.writeFile hf hw
  · cases hnext
    exact h

theorem Faithful.writeEntries (h : s.Faithful read seen d) (set : String)
    {entries : List (String × CachedFile)} (he : ∀ e ∈ entries, IsReadOf read seen e.2.file) :
    s.Faithful read seen (s.writeEntries set entries d).1 := by
  induction entries generalizing d with
  | nil => exact h
  | cons e rest ih =>
    have hrest : ∀ e ∈ rest, IsReadOf read seen e.2.file :=
      fun e hmem => he e (List.mem_cons_of_mem _ hmem)
    rw [CacheStore.writeEntries]
    split
    · exact h
    · next next written hnext =>
      exact ih (h.writeEntry (he e List.mem_cons_self) hnext) hrest

theorem noNewFiles_collect (s : CacheStore) (live names : List String) (d : Disk) :
    Disk.NoNewFiles d (s.collect live names d).1 := by
  induction names generalizing d with
  | nil => exact .refl d
  | cons name rest ih =>
    rw [collect]
    split
    · exact ih d
    · split
      · exact .refl d
      · next next hnext => exact (Disk.noNewFiles_removeFile hnext).trans (ih next)

theorem noNewFiles_collectUnlisted (s : CacheStore) (m : Manifest) (d : Disk) :
    Disk.NoNewFiles d (s.collectUnlisted m d).1 := by
  rw [collectUnlisted]
  split
  · exact .refl d
  · exact s.noNewFiles_collect _ _ d

/-- Saving files that were read from the contents keeps the directory faithful, however far it
gets. -/
theorem Faithful.save (h : s.Faithful read seen d) {cache : FileCache}
    (hc : cache.Faithful read seen) (set now : String) :
    s.Faithful read seen (s.save d set cache now).disk := by
  rw [CacheStore.save]
  split
  · exact h
  · next made hmade =>
    have hmade : s.Faithful read seen made := h.makeFolders hmade
    have hplain := listed_plain (hmade.continued_plain now) set cache now
    have hwritten := hmade.writeEntries set fun e he => (hc e he).2
    dsimp only
    split
    · next written e hw =>
      rw [hw] at hwritten
      exact hwritten
    · next written counts hw =>
      rw [hw] at hwritten
      split
      · exact hwritten
      · next stored hstored =>
        have hstored := hwritten.writeManifest hplain hstored
        have hfinal := hstored.of_noNewFiles (s.noNewFiles_collectUnlisted
          (listed (s.continued made now) set cache now) stored)
        split
        · next final e hcollect =>
          rw [hcollect] at hfinal
          exact hfinal
        · next final n hcollect =>
          rw [hcollect] at hfinal
          exact hfinal

end CacheStore

/-! ### Histories -/

section Histories

variable {read : SourceReader} {s : CacheStore} {done : List (Round × Collection)} {d : Disk}

/-- Along a history whose contents are all among the given ones the directory stays faithful, and
every round collects what its sources give. -/
theorem History.faithful {seen : String → Prop} (hsep : Digest.Separates seen)
    (h : History read s done d) (hseen : ∀ content, Seen done content → seen content) :
    s.Faithful read seen d ∧ ∀ rc ∈ done, rc.2.set = (rc.1.collect read {}).set := by
  induction h with
  | start habsent => exact ⟨.of_absentBelow habsent, by simp⟩
  | others _ hsame ih => exact ⟨(ih hseen).1.of_sameBelow hsame, (ih hseen).2⟩
  | @round done d r cache _ hload ih =>
    have hround : ∀ content, r.Holds content → seen content :=
      fun content hr => hseen content ⟨_, List.mem_cons_self, hr⟩
    obtain ⟨hdisk, hdone⟩ := ih fun content ⟨rc, hrc, hheld⟩ =>
      hseen content ⟨rc, List.mem_cons_of_mem _ hrc, hheld⟩
    obtain ⟨hset, hcache⟩ := Round.collect_of_faithful hsep hround (hdisk.load hload)
    refine ⟨hdisk.save hcache _ _, fun rc hrc => ?_⟩
    rcases List.mem_cons.mp hrc with rfl | hrc
    · exact hset.trans (Round.collect_of_faithful hsep hround .empty).1.symm
    · exact hdone rc hrc

/-- Incremental builds equal builds from nothing: in every round of every history on a cache
directory that starts absent and that nobody else writes, the collected set, and with it the
project that any builder compiles from it, is the one that an empty cache gives. -/
theorem History.collected_eq_from_empty (h : History read s done d)
    (hsep : Digest.Separates (Seen done)) :
    ∀ rc ∈ done, rc.2.set = (rc.1.collect read {}).set ∧
      ∀ b : Builder, b.compile rc.2.set = b.compile (rc.1.collect read {}).set := by
  intro rc hrc
  have hset := (h.faithful hsep fun _ hcontent => hcontent).2 rc hrc
  exact ⟨hset, fun b => by rw [hset]⟩

end Histories

/-! ### Two rounds -/

def Round.ofSources (sources : List (String × String)) (now : String) : Round where
  paths := sources.map Prod.fst
  contents path :=
    match sources.lookup path with
    | some content => .ok content
    | none => .error (.unreadable path .notFound)
  force := false
  now := now

theorem Round.holds_ofSources {sources : List (String × String)} {now content : String}
    (h : (Round.ofSources sources now).Holds content) :
    ∃ path, sources.lookup path = some content := by
  obtain ⟨path, -, hcontent⟩ := h
  refine ⟨path, ?_⟩
  simp only [ofSources] at hcontent
  split at hcontent
  · next found hfound => rw [hfound, Except.ok.inj hcontent]
  · simp at hcontent

theorem Digest.separates_pair {a b : String} (hne : Digest.ofText a ≠ Digest.ofText b)
    {seen : String → Prop} (h : ∀ content, seen content → content = a ∨ content = b) :
    Digest.Separates seen := by
  intro x y hx hy hxy
  rcases h x hx with rfl | rfl <;> rcases h y hy with rfl | rfl
  · rfl
  · exact absurd hxy hne
  · exact absurd hxy.symm hne
  · rfl

/-- Two rounds: one file, and then the same file unchanged with a second one beside it. -/
theorem History.collected_eq_from_empty_two_rounds :
    ∃ one two d, History SourceText.read ⟨"/cache"⟩
        [(.ofSources [("a.php", "<?php class A {}"), ("b.php", "<?php class B {}")] "2", two),
          (.ofSources [("a.php", "<?php class A {}")] "1", one)] d ∧
      two.set = ((Round.ofSources [("a.php", "<?php class A {}"), ("b.php", "<?php class B {}")]
        "2").collect SourceText.read {}).set := by
  have hblank : CacheStore.load ⟨"/cache"⟩ {} Collection.setName = .ok {} :=
    CacheStore.load_of_not_has (by decide +kernel) _
  have hone : History SourceText.read ⟨"/cache"⟩ _ _ :=
    .round (.ofSources [("a.php", "<?php class A {}")] "1") (.start fun _ => rfl) hblank
  -- the directory can be made and takes files, so the first save succeeds whatever is saved
  let made : Disk := { entries := .ofList [("/cache", .folder), ("/cache/files", .folder)] }
  have hmade : (CacheStore.mk "/cache").makeFolders {} = .ok made := rfl
  have htakes : (CacheStore.mk "/cache").TakesFiles made :=
    .of_no_entries (by decide +kernel) (by decide +kernel) (by decide) (by decide +kernel)
      (by decide +kernel)
  obtain ⟨counts, hsaved, -⟩ := CacheStore.exists_save_of_makeFolders hmade htakes
    Collection.setName "1" ((Round.ofSources [("a.php", "<?php class A {}")] "1").collect
      SourceText.read {}).cache
  obtain ⟨cache, hload⟩ := CacheStore.exists_load_of_readText
    (congrArg Except.isOk (CacheStore.readText_manifest_of_save hmade hsaved)) Collection.setName
  have htwo := History.round
    (.ofSources [("a.php", "<?php class A {}"), ("b.php", "<?php class B {}")] "2") hone hload
  refine ⟨_, _, _, htwo, (htwo.collected_eq_from_empty (Digest.separates_pair
    (a := "<?php class A {}") (b := "<?php class B {}") (by decide +kernel) ?_) _
    List.mem_cons_self).1⟩
  rintro content ⟨rc, hrc, hheld⟩
  simp only [List.mem_cons, List.not_mem_nil, or_false] at hrc
  rcases hrc with rfl | rfl
  · obtain ⟨path, hpath⟩ := Round.holds_ofSources hheld
    simp only [List.lookup_cons, List.lookup_nil] at hpath
    split at hpath
    · exact .inl (Option.some.inj hpath).symm
    · split at hpath
      · exact .inr (Option.some.inj hpath).symm
      · simp at hpath
  · obtain ⟨path, hpath⟩ := Round.holds_ofSources hheld
    simp only [List.lookup_cons, List.lookup_nil] at hpath
    split at hpath
    · exact .inl (Option.some.inj hpath).symm
    · simp at hpath

end ApiDoc
