import ApiDoc.Proofs.RoundTrip
import ApiDoc.Proofs.Success

/-!
# Sets that share a cache directory

All sets of a cache directory keep their entries in one folder. An entry is named by the digest of
the name of the set followed by the path, with nothing in between, so two sets meet in one entry
exactly if these texts are equal. Then the later save takes the entry, and the other set finds the
file of another path in it, which it leaves aside.

The main statement says what loading gives after any number of saves: the files that were saved last
under the set, apart from those whose entry a later save of another set has taken. What carries it is
`CacheStore.Holds`, which says of every listed entry which of the two files it holds. No save hurts
it: what a save writes are its own entries and the manifest, and what it removes is not listed.
-/

namespace ApiDoc

/-! ### Saves -/

/-- Every file of the cache is fresh, listed under its own path, and can be stored. -/
def FileCache.Filled (c : FileCache) : Prop :=
  ∀ e ∈ c.entries.entries, e.2.fresh = true ∧ e.2.file.path = e.1 ∧ e.2.file.fits = true

/-- The successful saves on a cache directory that was absent, the latest first, each with its set
and its cache, and the disk they lead to. -/
inductive Saves (s : CacheStore) : List (String × FileCache) → Disk → Prop
  | start {d : Disk} : d.AbsentBelow (s.place d.current) → Saves s [] d
  | save {done : List (String × FileCache)} {d : Disk} {set now : String} {cache : FileCache}
      {counts : SaveCounts} : Saves s done d → cache.Filled →
      (s.save d set cache now).outcome = .ok counts →
      Saves s ((set, cache) :: done) (s.save d set cache now).disk

namespace Saves

/-- The messages whose digests name the entries of some saves. -/
def hashed (done : List (String × FileCache)) : List (List UInt8) :=
  done.flatMap fun r => r.2.paths.map fun path => Digest.utf8 r.1 ++ Digest.utf8 path

/-- The saves after the last one of a set. -/
def sinceLast (done : List (String × FileCache)) (set : String) : List (String × FileCache) :=
  done.takeWhile fun r => r.1 != set

/-- Whether one of the saves uses the entry of a path of a set for a path of its own: both make the
same text with their set. -/
def reuse (saves : List (String × FileCache)) (set path : String) : Bool :=
  saves.any fun r => r.2.paths.any fun other => r.1 ++ other == set ++ path

end Saves

/-- No two of the messages have the same digest. -/
def Digest.InjectiveOn (messages : List (List UInt8)) : Prop :=
  ∀ a ∈ messages, ∀ b ∈ messages, Digest.sha256 a = Digest.sha256 b → a = b

/-! ### Keys of entries -/

namespace Digest

theorem toList_loop (bytes : ByteArray) (i : Nat) (read : List UInt8) :
    ByteArray.toList.loop bytes i read = read.reverse ++ bytes.data.toList.drop i := by
  induction i, read using ByteArray.toList.loop.induct bytes with
  | case1 i read hlt ih =>
    have hget : bytes.data.toList.drop i = bytes.get! i :: bytes.data.toList.drop (i + 1) := by
      have hlen : i < bytes.data.toList.length := hlt
      rw [List.drop_eq_getElem_cons hlen]
      congr 1
      exact (getElem!_pos bytes.data i hlt).symm
    rw [ByteArray.toList.loop, if_pos hlt, ih, hget, List.reverse_cons, List.append_assoc]
    rfl
  | case2 i read hge =>
    have hlen : bytes.data.toList.length ≤ i := Nat.le_of_not_lt hge
    rw [ByteArray.toList.loop, if_neg hge, List.drop_eq_nil_of_le hlen, List.append_nil]

theorem utf8_eq (s : String) : utf8 s = s.toUTF8.data.toList := by
  rw [utf8, ByteArray.toList, toList_loop]
  rfl

theorem utf8_append (a b : String) : utf8 (a ++ b) = utf8 a ++ utf8 b := by
  simp [utf8_eq]

theorem utf8_inj {a b : String} (h : utf8 a = utf8 b) : a = b := by
  rw [utf8_eq, utf8_eq, Array.toList_inj] at h
  exact String.toByteArray_inj.mp (ByteArray.ext h)

end Digest

namespace Saves

variable {done : List (String × FileCache)}

theorem mem_hashed {set path : String} {cache : FileCache} (h : (set, cache) ∈ done)
    (hpath : path ∈ cache.paths) : Digest.utf8 (set ++ path) ∈ hashed done :=
  List.mem_flatMap.mpr
    ⟨(set, cache), h, List.mem_map.mpr ⟨path, hpath, (Digest.utf8_append set path).symm⟩⟩

theorem entryKey_eq (set path : String) :
    Manifest.entryKey set path = Digest.sha256 (Digest.utf8 (set ++ path)) := by
  rw [Manifest.entryKey, Digest.utf8_append]

/-- Entries of saved paths have the same key only if set and path make the same text. -/
theorem append_eq_of_entryKey (hinj : Digest.InjectiveOn (hashed done)) {a b p q : String}
    {c d : FileCache} (ha : (a, c) ∈ done) (hp : p ∈ c.paths) (hb : (b, d) ∈ done)
    (hq : q ∈ d.paths) (h : Manifest.entryKey a p = Manifest.entryKey b q) : a ++ p = b ++ q := by
  rw [entryKey_eq, entryKey_eq] at h
  exact Digest.utf8_inj (hinj _ (mem_hashed ha hp) _ (mem_hashed hb hq) h)

theorem reuse_iff {set path : String} : reuse done set path = true ↔
    ∃ r ∈ done, ∃ other ∈ r.2.paths, r.1 ++ other = set ++ path := by
  simp [reuse]

theorem reuse_cons (r : String × FileCache) (saves : List (String × FileCache))
    (set path : String) : reuse (r :: saves) set path = (reuse [r] set path || reuse saves set path) := by
  simp [reuse]

theorem mem_of_lookup {set : String} {cache : FileCache} (h : done.lookup set = some cache) :
    (set, cache) ∈ done := by
  obtain ⟨before, behind, rfl, -⟩ := List.lookup_eq_some_iff.mp h
  simp

theorem sinceLast_cons_self (set : String) (cache : FileCache) :
    sinceLast ((set, cache) :: done) set = [] := by
  simp [sinceLast]

theorem sinceLast_cons_of_ne {set other : String} (h : set ≠ other) (cache : FileCache) :
    sinceLast ((set, cache) :: done) other = (set, cache) :: sinceLast done other := by
  simp [sinceLast, h]

end Saves

/-! ### What a directory holds -/

/-- The keys under which a save lists the paths of a cache. -/
def FileCache.keyed (c : FileCache) (set : String) : NameMap String :=
  c.entries.mapEntries fun path _ => Manifest.entryKey set path

/-- A manifest lists for every set the paths of its last save. -/
structure Manifest.Lists (m : Manifest) (done : List (String × FileCache)) : Prop where
  schema_eq : m.schema = currentSchema
  sets : ∀ set, m.sets.get? set = (done.lookup set).map fun cache => cache.keyed set

/-- What a directory holds after some saves: a manifest that lists them, and under every listed key
the saved file, or the file of another path if a later save has reused the entry. -/
structure CacheStore.Holds (s : CacheStore) (done : List (String × FileCache)) (d : Disk) :
    Prop where
  vacant : done = [] → ∀ content,
    d.entries.get? (s.manifestPlace d.current) ≠ some (.file content)
  manifest : done ≠ [] →
    ∃ m, d.readText s.manifestPath = .ok (Codec.manifest m).pretty ∧ m.Lists done
  entry : ∀ set cache, done.lookup set = some cache → ∀ e ∈ cache.entries.entries, ∃ f : File,
    d.readText (s.entryPath (Manifest.entryKey set e.1)) = .ok (Codec.file f).compact ∧
      f.fits = true ∧
      if Saves.reuse (Saves.sinceLast done set) set e.1 then f.path ≠ e.1 else f = e.2.file

namespace Manifest.Lists

variable {m : Manifest} {done : List (String × FileCache)}

theorem blank (now : String) : (Manifest.blank now).Lists [] := ⟨rfl, fun _ => rfl⟩

theorem listed (h : m.Lists done) (set : String) (cache : FileCache) (now : String) :
    (CacheStore.listed m set cache now).Lists ((set, cache) :: done) where
  schema_eq := h.schema_eq
  sets other := by
    rw [CacheStore.listed, NameMap.get?_insert, List.lookup_cons]
    by_cases he : set = other
    · subst he
      simp [FileCache.keyed]
    · have hne : (other == set) = false := beq_false_of_ne (Ne.symm he)
      rw [if_neg he, h.sets, hne]

/-- Every path of the last save of a set has its key listed. -/
theorem mem_keys (h : m.Lists done) {set : String} {cache : FileCache}
    (hset : done.lookup set = some cache) {e : String × CachedFile}
    (he : e ∈ cache.entries.entries) : entryKey set e.1 ∈ m.keys := by
  have hget : m.sets.get? set = some (cache.keyed set) := by rw [h.sets, hset, Option.map_some]
  refine List.mem_flatMap.mpr ⟨_, NameMap.mem_values_iff.mpr ⟨set, hget⟩, ?_⟩
  rw [FileCache.keyed, NameMap.values, NameMap.mapEntries, List.map_map]
  exact List.mem_map.mpr ⟨e, he, rfl⟩

end Manifest.Lists

namespace CacheStore

variable {s : CacheStore} {done : List (String × FileCache)} {d : Disk}

/-- A manifest that was written is read again. -/
theorem manifest?_of_readText {m : Manifest} (hschema : m.schema = Manifest.currentSchema)
    (h : d.readText s.manifestPath = .ok (Codec.manifest m).pretty) :
    s.manifest? d = .ok (some m) := by
  have hfits : m.fits = true := by rw [Manifest.fits, hschema]; decide
  rw [manifest?, if_pos (Disk.has_of_readText h), h]
  simp only [(Codec.manifest_lossless m hfits).2.2]

/-- A file that was written is read again. -/
theorem entry?_of_readText {f : File} (hfits : f.fits = true) {key : String}
    (h : d.readText (s.entryPath key) = .ok (Codec.file f).compact) : s.entry? d key = some f := by
  delta CacheStore.entry?
  rw [h]
  exact (Codec.file_lossless f hfits).2.1

/-- There is a manifest only if there is a file for it. -/
theorem exists_file_of_manifest? {m : Manifest} (h : s.manifest? d = .ok (some m)) :
    ∃ content, d.entries.get? (s.manifestPlace d.current) = some (.file content) := by
  rw [manifest?] at h
  split at h
  · cases htext : d.readText s.manifestPath with
    | error e => simp [htext] at h
    | ok text =>
      obtain ⟨content, hget, -⟩ := Disk.readText_ok htext
      rw [s.placeOf_manifestPath] at hget
      exact ⟨content, hget⟩
  · simp at h

theorem noNewFiles_makeFolders {made : Disk} (h : s.makeFolders d = .ok made) :
    Disk.NoNewFiles d made := by
  rw [makeFolders] at h
  split at h
  · simp at h
  · split at h
    · next next hnext => exact Except.ok.inj h ▸ Disk.noNewFiles_makeFirst hnext
    · simp at h

namespace Holds

theorem of_absentBelow (h : d.AbsentBelow (s.place d.current)) : s.Holds [] d where
  vacant _ content := by
    rw [manifestPlace_eq_child, h]
    simp
  manifest hne := absurd rfl hne
  entry set cache hset := by simp at hset

/-- The manifest that a save continues lists the saves so far. -/
theorem continued_lists (h : s.Holds done d) {made : Disk} (hmade : s.makeFolders d = .ok made)
    (now : String) : (s.continued made now).Lists done := by
  by_cases hdone : done = []
  · have hnone : ∀ m, s.manifest? made ≠ .ok (some m) := by
      intro m hm
      obtain ⟨content, hget⟩ := exists_file_of_manifest? hm
      have hnew := noNewFiles_makeFolders hmade
      rw [hnew.current_eq] at hget
      exact h.vacant hdone content (hnew.files _ _ hget)
    subst hdone
    rw [continued]
    split
    · next m hm => exact absurd hm (hnone m)
    · exact .blank now
  · obtain ⟨m, hread, hlists⟩ := h.manifest hdone
    have hkept := (changesOnly_makeFolders hmade fun _ => False).readText_ok id hread
    rw [continued, manifest?_of_readText hlists.schema_eq hkept]
    simp only [if_pos hlists.schema_eq]
    exact hlists

end Holds

/-! ### One save -/

/-- Fresh entries with different keys all stand in the directory when they have been written. -/
theorem readText_of_writeEntries {set : String} {entries : List (String × CachedFile)}
    {written : Disk} {counts : SaveCounts}
    (h : s.writeEntries set entries d = (written, .ok counts))
    (hfresh : ∀ e ∈ entries, e.2.fresh = true)
    (hkeys : entries.Pairwise fun a b => Manifest.entryKey set a.1 ≠ Manifest.entryKey set b.1) :
    ∀ e ∈ entries, written.readText (s.entryPath (Manifest.entryKey set e.1)) =
      .ok (Codec.file e.2.file).compact := by
  induction entries generalizing d counts with
  | nil => simp
  | cons first rest ih =>
    obtain ⟨hfirst, hrest⟩ := List.pairwise_cons.mp hkeys
    rw [writeEntries] at h
    split at h
    · simp at h
    · next next wrote hnext =>
      cases hothers : s.writeEntries set rest next with
      | mk final outcome =>
        rw [hothers] at h
        cases outcome with
        | error e => simp [Except.map] at h
        | ok others =>
          simp only [Except.map, Prod.mk.injEq] at h
          rw [h.1] at hothers
          intro e he
          rcases List.mem_cons.mp he with rfl | he
          · have hread : next.readText (s.entryPath (Manifest.entryKey set e.1)) =
                .ok (Codec.file e.2.file).compact := by
              rw [writeEntry, hfresh e List.mem_cons_self, Bool.true_or, if_pos rfl] at hnext
              cases hw : d.writeText (s.entryPath (Manifest.entryKey set e.1))
                  (Codec.file e.2.file).compact with
              | error fault => simp [hw, Except.map] at hnext
              | ok stored =>
                simp only [hw, Except.map, Except.ok.injEq, Prod.mk.injEq] at hnext
                exact hnext.1 ▸ Disk.readText_of_writeText hw
            have hchange := s.changesOnly_writeEntries set rest next
            rw [hothers] at hchange
            refine hchange.readText_ok ?_ hread
            rw [s.placeOf_entryPath _ (Manifest.slash_not_mem_entryKey set e.1)]
            rintro ⟨path, hpath, hplace⟩
            obtain ⟨other, hother, rfl⟩ := List.mem_map.mp hpath
            exact hfirst other hother (entryPlace_inj hplace)
          · exact ih hothers (fun e he => hfresh e (List.mem_cons_of_mem _ he)) hrest e he

/-- The entries of one save have different keys. -/
theorem pairwise_entryKey {set : String} {cache : FileCache}
    (hinj : Digest.InjectiveOn (Saves.hashed ((set, cache) :: done))) :
    cache.entries.entries.Pairwise fun a b =>
      Manifest.entryKey set a.1 ≠ Manifest.entryKey set b.1 := by
  have hself : (set, cache) ∈ (set, cache) :: done := List.mem_cons_self
  refine cache.entries.sorted.imp_of_mem fun {a b} ha hb hlt hkey => ?_
  have heq := Saves.append_eq_of_entryKey hinj hself (List.mem_map_of_mem ha) hself
    (List.mem_map_of_mem hb) hkey
  rw [String.append_right_inj] at heq
  exact String.lt_irrefl b.1 (heq ▸ hlt)

/-- Writing entries leaves an entry of another key as it was. -/
theorem readText_of_writeEntries_of_ne {set key text : String}
    {entries : List (String × CachedFile)} {made written : Disk} {counts : SaveCounts}
    (hmade : s.makeFolders d = .ok made)
    (hwritten : s.writeEntries set entries made = (written, .ok counts))
    (hslash : '/' ∉ key.toList) (hne : ∀ e ∈ entries, Manifest.entryKey set e.1 ≠ key)
    (hread : d.readText (s.entryPath key) = .ok text) :
    written.readText (s.entryPath key) = .ok text := by
  have hmaderead := (changesOnly_makeFolders hmade fun _ => False).readText_ok id hread
  have hchange := s.changesOnly_writeEntries set entries made
  rw [hwritten] at hchange
  refine hchange.readText_ok ?_ hmaderead
  rw [s.placeOf_entryPath _ hslash]
  rintro ⟨path, hpath, hplace⟩
  obtain ⟨e, he, rfl⟩ := List.mem_map.mp hpath
  exact hne e he (entryPlace_inj hplace).symm

/-- What is listed after a save was not touched by writing the manifest and by collecting. -/
theorem readText_entry_of_stored {m : Manifest} {written stored : Disk} {set : String}
    {cache : FileCache} (hlists : m.Lists done) (hset : done.lookup set = some cache)
    (hstored : written.writeText s.manifestPath (Codec.manifest m).pretty = .ok stored)
    {e : String × CachedFile} (he : e ∈ cache.entries.entries) {text : String}
    (hread : written.readText (s.entryPath (Manifest.entryKey set e.1)) = .ok text) :
    (s.collectUnlisted m stored).1.readText (s.entryPath (Manifest.entryKey set e.1)) =
      .ok text := by
  have hslash := Manifest.slash_not_mem_entryKey set e.1
  have hkept : stored.readText (s.entryPath (Manifest.entryKey set e.1)) = .ok text := by
    refine (Disk.changesOnly_writeText hstored).readText_ok ?_ hread
    rw [s.placeOf_entryPath _ hslash, s.placeOf_manifestPath]
    exact (s.manifestPlace_ne_entryPlace _ _).symm
  refine (s.changesOnly_collectUnlisted m stored).readText_ok ?_ hkept
  rw [s.placeOf_entryPath _ hslash]
  exact s.not_isUnlisted_entryPlace hslash (hlists.mem_keys hset he)

theorem readText_manifest_of_stored {m : Manifest} {written stored : Disk}
    (hstored : written.writeText s.manifestPath (Codec.manifest m).pretty = .ok stored) :
    (s.collectUnlisted m stored).1.readText s.manifestPath = .ok (Codec.manifest m).pretty := by
  refine (s.changesOnly_collectUnlisted m stored).readText_ok ?_
    (Disk.readText_of_writeText hstored)
  rw [s.placeOf_manifestPath]
  exact s.not_isUnlisted_manifestPlace _ _

/-- A save leaves the manifest with the new list. -/
theorem readText_manifest_of_save {made : Disk} {set now : String} {cache : FileCache}
    {counts : SaveCounts} (hmade : s.makeFolders d = .ok made)
    (h : (s.save d set cache now).outcome = .ok counts) :
    (s.save d set cache now).disk.readText s.manifestPath =
      .ok (Codec.manifest (listed (s.continued made now) set cache now)).pretty := by
  obtain ⟨folders, written, stored, tallied, n, hfolders, -, hstored, hcollect, -⟩ := save_steps h
  obtain rfl : folders = made := Except.ok.inj (hfolders.symm.trans hmade)
  have htext := readText_manifest_of_stored hstored
  rwa [hcollect] at htext

/-- A save leaves the directory holding what it should: its own entries are written, an entry of
another set is either reused or not touched. -/
theorem Holds.save (h : s.Holds done d) {set now : String} {cache : FileCache}
    {counts : SaveCounts} (hfilled : cache.Filled)
    (hinj : Digest.InjectiveOn (Saves.hashed ((set, cache) :: done)))
    (hok : (s.save d set cache now).outcome = .ok counts) :
    s.Holds ((set, cache) :: done) (s.save d set cache now).disk := by
  obtain ⟨made, written, stored, tallied, hmade, hwritten, hstored, hdisk⟩ := save_ok hok
  have hlists := (h.continued_lists hmade now).listed set cache now
  have hself : (set, cache) ∈ (set, cache) :: done := List.mem_cons_self
  have hfresh : ∀ e ∈ cache.entries.entries, e.2.fresh = true := fun e he => (hfilled e he).1
  have hnew := readText_of_writeEntries hwritten hfresh (pairwise_entryKey hinj)
  rw [hdisk]
  refine ⟨fun hnil => by simp at hnil,
    fun _ => ⟨_, readText_manifest_of_stored hstored, hlists⟩, ?_⟩
  intro other saved hlookup e he
  have hfinal {text : String}
      (hread : written.readText (s.entryPath (Manifest.entryKey other e.1)) = .ok text) :=
    readText_entry_of_stored hlists hlookup hstored he hread
  by_cases hother : set = other
  · -- the set that is saved: its entries were just written
    subst hother
    rw [List.lookup_cons_self, Option.some.injEq] at hlookup
    subst hlookup
    refine ⟨e.2.file, hfinal (hnew e he), (hfilled e he).2.2, ?_⟩
    simp [Saves.sinceLast_cons_self, Saves.reuse]
  · have hold : done.lookup other = some saved := by
      have hne : (other == set) = false := beq_false_of_ne (Ne.symm hother)
      rwa [List.lookup_cons, hne] at hlookup
    have hmem := List.mem_cons_of_mem (set, cache) (Saves.mem_of_lookup hold)
    obtain ⟨f, hread, hfits, hwhich⟩ := h.entry other saved hold e he
    rw [Saves.sinceLast_cons_of_ne hother, Saves.reuse_cons]
    by_cases hreuse : Saves.reuse [(set, cache)] other e.1 = true
    · -- the entry now holds the file of another path
      obtain ⟨r, hr, path, hmempath, heq⟩ := Saves.reuse_iff.mp hreuse
      obtain rfl := List.mem_singleton.mp hr
      obtain ⟨taker, htaker, rfl⟩ := List.mem_map.mp hmempath
      have hkey : Manifest.entryKey other e.1 = Manifest.entryKey set taker.1 := by
        rw [Saves.entryKey_eq, Saves.entryKey_eq, heq]
      refine ⟨taker.2.file, hfinal (hkey ▸ hnew taker htaker), (hfilled taker htaker).2.2, ?_⟩
      rw [hreuse, Bool.true_or, if_pos rfl, (hfilled taker htaker).2.1]
      intro hpaths
      rw [hpaths, String.append_left_inj] at heq
      exact hother heq
    · -- no path of this save has the key of the entry
      have hne (taker : String × CachedFile) (htaker : taker ∈ cache.entries.entries)
          (hkey : Manifest.entryKey set taker.1 = Manifest.entryKey other e.1) : False := by
        have hpath : taker.1 ∈ cache.paths := List.mem_map_of_mem htaker
        have heq := Saves.append_eq_of_entryKey hinj hself hpath hmem (List.mem_map_of_mem he) hkey
        exact hreuse (Saves.reuse_iff.mpr ⟨_, List.mem_singleton_self _, taker.1, hpath, heq⟩)
      rw [Bool.eq_false_iff.mpr hreuse, Bool.false_or]
      exact ⟨f, hfinal (readText_of_writeEntries_of_ne hmade hwritten
        (Manifest.slash_not_mem_entryKey other e.1) hne hread), hfits, hwhich⟩

/-! ### Loading -/

theorem loadEntry_of_entry? {key : String} {f : File} (h : s.entry? d key = some f)
    (acc : FileCache) (path : String) :
    s.loadEntry d acc (path, key) = if f.path = path then acc.insertSaved f else acc := by
  delta loadEntry
  rw [h]

/-- The listed files whose entry was not reused are loaded, and no others. -/
theorem foldl_loadEntry {set : String} {later : List (String × FileCache)}
    {entries : List (String × CachedFile)}
    (h : ∀ e ∈ entries, ∃ f : File, s.entry? d (Manifest.entryKey set e.1) = some f ∧
      if Saves.reuse later set e.1 then f.path ≠ e.1 else f = e.2.file)
    (hown : ∀ e ∈ entries, e.2.file.path = e.1) (acc : FileCache) :
    ((entries.map fun e => (e.1, Manifest.entryKey set e.1)).foldl (s.loadEntry d) acc).entries =
      ((entries.map fun e => (e.1, { e.2 with fresh := false })).filter fun e =>
        !Saves.reuse later set e.1).foldl (fun m e => m.insert e.1 e.2) acc.entries := by
  induction entries generalizing acc with
  | nil => rfl
  | cons e rest ih =>
    obtain ⟨f, hf, hwhich⟩ := h e List.mem_cons_self
    have hpath := hown e List.mem_cons_self
    have hrest := ih (fun e he => h e (List.mem_cons_of_mem _ he))
      fun e he => hown e (List.mem_cons_of_mem _ he)
    rw [List.map_cons, List.foldl_cons, hrest, loadEntry_of_entry? hf, List.map_cons]
    by_cases hreuse : Saves.reuse later set e.1 = true
    · rw [if_pos hreuse] at hwhich
      rw [List.filter_cons_of_neg (by simp [hreuse])]
      rw [if_neg hwhich]
    · rw [if_neg hreuse] at hwhich
      subst hwhich
      rw [List.filter_cons_of_pos (by simpa using hreuse), List.foldl_cons, if_pos hpath,
        FileCache.insertSaved, hpath]

/-- Loading a set that was saved gives the files of its last save whose entry was not reused. -/
theorem Holds.load (h : s.Holds done d) {set : String} {cache : FileCache}
    (hset : done.lookup set = some cache) (hfilled : cache.Filled) :
    s.load d set = .ok ⟨cache.allSaved.entries.filter fun path _ =>
      !Saves.reuse (Saves.sinceLast done set) set path⟩ := by
  have hdone : done ≠ [] := by
    rintro rfl
    simp at hset
  obtain ⟨m, hread, hlists⟩ := h.manifest hdone
  have hget : m.sets.get? set = some (cache.keyed set) := by
    rw [hlists.sets, hset, Option.map_some]
  have hentries : ∀ e ∈ cache.entries.entries, ∃ f : File,
      s.entry? d (Manifest.entryKey set e.1) = some f ∧
        if Saves.reuse (Saves.sinceLast done set) set e.1 then f.path ≠ e.1
        else f = e.2.file := by
    intro e he
    obtain ⟨f, hf, hfits, hwhich⟩ := h.entry set cache hset e he
    exact ⟨f, entry?_of_readText hfits hf, hwhich⟩
  have hfold := foldl_loadEntry hentries (fun e he => (hfilled e he).2.1) {}
  rw [CacheStore.load, manifest?_of_readText hlists.schema_eq hread]
  simp only [if_pos hlists.schema_eq, hget, Option.getD_some]
  congr 1
  refine congrArg FileCache.mk (Eq.trans hfold ?_)
  exact NameMap.ofList_entries (cache.allSaved.entries.filter fun path _ =>
    !Saves.reuse (Saves.sinceLast done set) set path)

end CacheStore

/-! ### Any number of saves -/

namespace Saves

variable {s : CacheStore} {done : List (String × FileCache)} {d : Disk}

theorem filled (h : Saves s done d) : ∀ r ∈ done, r.2.Filled := by
  induction h with
  | start => simp
  | save _ hfilled _ ih =>
    intro r hr
    rcases List.mem_cons.mp hr with rfl | hr
    · exact hfilled
    · exact ih r hr

/-- After any number of saves the directory holds what it should. -/
theorem holds (h : Saves s done d) (hinj : Digest.InjectiveOn (hashed done)) :
    s.Holds done d := by
  induction h with
  | start habsent => exact .of_absentBelow habsent
  | @save done d set now cache counts _ hfilled hok ih =>
    have hbefore : Digest.InjectiveOn (hashed done) := fun a ha b hb =>
      hinj a (List.mem_append_right _ ha) b (List.mem_append_right _ hb)
    exact (ih hbefore).save hfilled hinj hok

/-- Sets are isolated as far as the texts that name their entries differ: loading a set gives the
files of its last save, all of them marked as saved, apart from those whose path makes the same text
with the set as a path of another set that was saved later. So it gives the whole last save exactly
if there is no such path. -/
theorem load_eq (h : Saves s done d) (hinj : Digest.InjectiveOn (hashed done)) {set : String}
    {cache : FileCache} (hset : done.lookup set = some cache) :
    s.load d set = .ok ⟨cache.allSaved.entries.filter fun path _ =>
        !reuse (sinceLast done set) set path⟩ ∧
      (s.load d set = .ok cache.allSaved ↔
        ∀ path ∈ cache.paths, ¬ ∃ r ∈ sinceLast done set, ∃ other ∈ r.2.paths,
          r.1 ++ other = set ++ path) := by
  have hfilled : cache.Filled := h.filled _ (mem_of_lookup hset)
  have hload := (h.holds hinj).load hset hfilled
  refine ⟨hload, ?_⟩
  have hwhole : s.load d set = .ok cache.allSaved ↔
      cache.allSaved.entries.entries.filter
        (fun e => !reuse (sinceLast done set) set e.1) = cache.allSaved.entries.entries := by
    rw [hload, Except.ok.injEq]
    constructor
    · intro heq
      exact congrArg (fun c => c.entries.entries) heq
    · intro heq
      exact congrArg FileCache.mk (NameMap.ext heq)
  have hpaths : cache.allSaved.entries.entries.map Prod.fst = cache.paths := by
    rw [FileCache.paths, NameMap.keys, FileCache.allSaved, NameMap.map, NameMap.mapEntries,
      List.map_map]
    rfl
  rw [hwhole, List.filter_eq_self, ← hpaths]
  simp only [List.forall_mem_map, ← reuse_iff, Bool.not_eq_true', Bool.not_eq_true]

theorem exists_ok_of_isOk {e α : Type} {outcome : Except e α} (h : outcome.isOk = true) :
    ∃ a, outcome = .ok a := by
  cases outcome with
  | ok a => exact ⟨a, rfl⟩
  | error e => simp [Except.isOk, Except.toBool] at h

/-- A save that is known to succeed. -/
theorem save_of_isOk (h : Saves s done d) {set now : String} {cache : FileCache}
    (hfilled : cache.Filled) (hok : (s.save d set cache now).outcome.isOk = true) :
    Saves s ((set, cache) :: done) (s.save d set cache now).disk := by
  obtain ⟨counts, hcounts⟩ := exists_ok_of_isOk hok
  exact .save h hfilled hcounts

/-- A cache of files without content. -/
def cacheOf (paths : List String) : FileCache :=
  paths.foldl (fun c path => c.insert { path := path, hash := "" }) {}

theorem filled_cacheOf_one (path : String) : (cacheOf [path]).Filled := by
  intro e he
  obtain rfl := List.mem_singleton.mp he
  exact ⟨rfl, rfl, rfl⟩

theorem isOk_two_saves :
    ((CacheStore.mk "/c").save {} "a" (cacheOf ["bc"]) "").outcome.isOk = true ∧
      ((CacheStore.mk "/c").save ((CacheStore.mk "/c").save {} "a" (cacheOf ["bc"]) "").disk "ab"
        (cacheOf ["c"]) "").outcome.isOk = true := by
  let made : Disk := { entries := .ofList [("/c", .folder), ("/c/files", .folder)] }
  have hmade : (CacheStore.mk "/c").makeFolders {} = .ok made := rfl
  have htakes : (CacheStore.mk "/c").TakesFiles made :=
    .of_no_entries (by decide +kernel) (by decide +kernel) (by decide) (by decide +kernel)
      (by decide +kernel)
  obtain ⟨first, hfirst, hnext⟩ :=
    CacheStore.exists_save_of_makeFolders hmade htakes "a" "" (cacheOf ["bc"])
  obtain ⟨second, hsecond, -⟩ := hnext.exists_save "ab" "" (cacheOf ["c"])
  exact ⟨by rw [hfirst]; rfl, by rw [hsecond]; rfl⟩

/-- The set `a` loses its only file `bc` to the file `c` of the set `ab`. -/
theorem load_eq_meeting_sets : ∃ d,
    Saves ⟨"/c"⟩ [("ab", cacheOf ["c"]), ("a", cacheOf ["bc"])] d ∧
      CacheStore.load ⟨"/c"⟩ d "a" = .ok {} ∧
      CacheStore.load ⟨"/c"⟩ d "a" ≠ .ok (cacheOf ["bc"]).allSaved := by
  have hstart : Saves ⟨"/c"⟩ [] {} := .start fun _ => rfl
  have hone := hstart.save_of_isOk (filled_cacheOf_one "bc") isOk_two_saves.1
  have htwo := hone.save_of_isOk (filled_cacheOf_one "c") isOk_two_saves.2
  have hinj : Digest.InjectiveOn (hashed [("ab", cacheOf ["c"]), ("a", cacheOf ["bc"])]) := by
    have hsame : hashed [("ab", cacheOf ["c"]), ("a", cacheOf ["bc"])] =
        [Digest.utf8 "abc", Digest.utf8 "abc"] := by decide +kernel
    rw [hsame]
    intro a ha b hb _
    simp only [List.mem_cons, List.not_mem_nil, or_false, or_self] at ha hb
    rw [ha, hb]
  have hset : List.lookup "a" [("ab", cacheOf ["c"]), ("a", cacheOf ["bc"])] =
      some (cacheOf ["bc"]) := by
    decide +kernel
  obtain ⟨hload, hiff⟩ := htwo.load_eq hinj hset
  have hempty : FileCache.mk ((cacheOf ["bc"]).allSaved.entries.filter fun path _ =>
      !reuse (sinceLast [("ab", cacheOf ["c"]), ("a", cacheOf ["bc"])] "a") "a" path) = {} := by
    decide +kernel
  refine ⟨_, htwo, hload.trans (congrArg Except.ok hempty), fun hwhole => ?_⟩
  exact hiff.mp hwhole "bc" (by decide) ⟨("ab", cacheOf ["c"]), by decide +kernel, "c", by decide,
    by decide⟩

end Saves

end ApiDoc
