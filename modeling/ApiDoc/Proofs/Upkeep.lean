import ApiDoc.Proofs.Entries
import ApiDoc.Proofs.Isolation

/-!
# What a cache directory contains

A cache directory is kept by loads, saves and clears alone. A save adds entries before it writes the
manifest and removes entries behind it, and both are decided from what is there: an entry is written
if it is fresh or missing, and removed if the new manifest does not list its key. The main statement
says that the two meet. After every save the entries in the directory are those of the listed keys,
the lists of the other sets are those of before, and the counts tell what happened.

What carries it through a run is `CacheStore.Tidy`: there is nothing in the directory, or there is a
manifest of the present form that lists exactly the entries. The entries are looked at by their names
in the folder, so the results do not depend on the digests of different paths being different.
-/

namespace ApiDoc

namespace CacheStore

variable {s : CacheStore} {d : Disk}

/-! ### Lists of keys -/

theorem mem_keys_iff {m : Manifest} {key : String} : key ∈ m.keys ↔
    ∃ set paths path, m.sets.get? set = some paths ∧ paths.get? path = some key := by
  rw [Manifest.keys, List.mem_flatMap]
  simp only [NameMap.mem_values_iff]
  constructor
  · rintro ⟨paths, ⟨set, hset⟩, path, hpath⟩
    exact ⟨set, paths, path, hset, hpath⟩
  · rintro ⟨set, paths, path, hset, hpath⟩
    exact ⟨paths, ⟨set, hset⟩, path, hpath⟩

/-- The keys of a set that is saved. -/
theorem get?_keyed_iff {cache : FileCache} {set path key : String} :
    (cache.keyed set).get? path = some key ↔
      path ∈ cache.paths ∧ key = Manifest.entryKey set path := by
  rw [FileCache.keyed, NameMap.get?_mapEntries, FileCache.paths, NameMap.mem_keys_iff,
    Option.map_eq_some_iff]
  constructor
  · rintro ⟨cached, hcached, rfl⟩
    exact ⟨⟨cached, hcached⟩, rfl⟩
  · rintro ⟨⟨cached, hcached⟩, rfl⟩
    exact ⟨cached, hcached, rfl⟩

theorem keys_keyed (cache : FileCache) (set : String) : (cache.keyed set).keys = cache.paths := by
  rw [FileCache.keyed, NameMap.keys, NameMap.mapEntries, List.map_map]
  rfl

theorem get?_listed (m : Manifest) (set : String) (cache : FileCache) (now other : String) :
    (listed m set cache now).sets.get? other =
      if set = other then some (cache.keyed set) else m.sets.get? other :=
  NameMap.get?_insert ..

/-- A key is listed after a save if the saved set has it, or another set had it before. -/
theorem mem_keys_listed {m : Manifest} {set now key : String} {cache : FileCache}
    (h : key ∈ (listed m set cache now).keys) :
    (∃ path ∈ cache.paths, key = Manifest.entryKey set path) ∨ key ∈ m.keys := by
  obtain ⟨other, paths, path, hother, hpath⟩ := mem_keys_iff.mp h
  rw [get?_listed] at hother
  split at hother
  · rw [← Option.some.inj hother, get?_keyed_iff] at hpath
    exact .inl ⟨path, hpath⟩
  · exact .inr (mem_keys_iff.mpr ⟨other, paths, path, hother, hpath⟩)

theorem entryKey_mem_keys_listed (m : Manifest) {set path : String} (now : String)
    {cache : FileCache} (h : path ∈ cache.paths) :
    Manifest.entryKey set path ∈ (listed m set cache now).keys := by
  refine mem_keys_iff.mpr ⟨set, cache.keyed set, path, ?_, get?_keyed_iff.mpr ⟨h, rfl⟩⟩
  rw [get?_listed, if_pos rfl]

/-! ### A directory in order -/

/-- The directory holds a manifest of the present form, and the entries that it lists and no
others. -/
structure Settled (s : CacheStore) (m : Manifest) (d : Disk) : Prop where
  schema_eq : m.schema = Manifest.currentSchema
  hashed : ∀ key ∈ m.keys, ∃ set path, key = Manifest.entryKey set path
  text : d.readText s.manifestPath = .ok (Codec.manifest m).pretty
  folder : d.hasFolder s.filesPath = true
  entries : ∀ name, s.IsEntryName d name ↔ ∃ key ∈ m.keys, name = key ++ ".json"

/-- The directory has nothing in it, or it holds a manifest with its entries. -/
def Tidy (s : CacheStore) : Option Manifest → Disk → Prop
  | none, d => d.AbsentBelow (s.place d.current)
  | some m, d => s.Settled m d

namespace Tidy

variable {old : Option Manifest}

theorem manifest?_eq (h : s.Tidy old d) : s.manifest? d = .ok old := by
  cases old with
  | none => exact manifest?_of_absentBelow h
  | some m => exact manifest?_of_readText h.schema_eq h.text

theorem isEntryName_iff (h : s.Tidy old d) {name : String} (now : String) :
    s.IsEntryName d name ↔ ∃ key ∈ (old.getD (.blank now)).keys, name = key ++ ".json" := by
  cases old with
  | none =>
    refine ⟨fun ⟨_, _, e, he⟩ => ?_, fun ⟨key, hkey, _⟩ => by simp [Manifest.blank, Manifest.keys,
      NameMap.values, NameMap.empty] at hkey⟩
    have hvacant : d.AbsentBelow (s.place d.current) := h
    rw [namePlace_eq_child, Disk.entry?_child, hvacant] at he
    simp at he
  | some m => exact h.entries name

theorem entryNames_eq (h : s.Tidy old d) : ∃ names, s.entryNames d = .ok names ∧ names.Nodup ∧
    ∀ name, name ∈ names ↔ s.IsEntryName d name := by
  cases old with
  | none =>
    refine ⟨[], entryNames_of_absentBelow h, List.nodup_nil, fun name => ?_⟩
    simp [h.isEntryName_iff "", Manifest.blank, Manifest.keys, NameMap.values, NameMap.empty]
  | some m => exact entryNames_of_hasFolder h.folder

/-- A save goes on from the manifest that is there. -/
theorem continued_eq (h : s.Tidy old d) {made : Disk} (hmade : s.makeFolders d = .ok made)
    (now : String) : s.continued made now = old.getD (.blank now) := by
  cases old with
  | none =>
    rw [continued]
    split
    · next m hm =>
      obtain ⟨content, hfile⟩ := exists_file_of_manifest? hm
      have hnew := noNewFiles_makeFolders hmade
      have hvacant : d.AbsentBelow (s.place d.current) := h
      rw [hnew.current_eq] at hfile
      have hthere := hnew.files _ _ hfile
      rw [manifestPlace_eq_child, hvacant] at hthere
      simp at hthere
    · rfl
  | some m =>
    have hkept := (changesOnly_makeFolders hmade fun _ => False).readText_ok id h.text
    rw [continued, manifest?_of_readText h.schema_eq hkept]
    exact if_pos h.schema_eq

end Tidy

/-! ### One save -/

/-- What a save of a set has done before it collects: the new manifest is there, no entry is lost,
those of the set are there, and the only new files are entries that the manifest lists. -/
structure Staged (s : CacheStore) (m : Manifest) (set : String) (paths : List String)
    (old new : Disk) : Prop where
  current_eq : new.current = old.current
  text : new.readText s.manifestPath = .ok (Codec.manifest m).pretty
  folder : new.hasFolder s.filesPath = true
  kept : ∀ name e, old.entry? (s.namePlace old.current name) = some e →
    ∃ e, new.entry? (s.namePlace old.current name) = some e
  present : ∀ path ∈ paths, ∃ e,
    new.entry? (s.entryPlace old.current (Manifest.entryKey set path)) = some e
  files : ∀ name content, (∀ path ∈ paths, name ≠ Manifest.entryKey set path ++ ".json") →
    new.entry? (s.namePlace old.current name) = some (.file content) →
    old.entry? (s.namePlace old.current name) = some (.file content)

theorem staged_of_writeText {m : Manifest} {set : String} {entries : List (String × CachedFile)}
    {made written stored : Disk} {counts : SaveCounts} (hmade : s.makeFolders d = .ok made)
    (hwritten : s.writeEntries set entries made = (written, .ok counts))
    (hstored : written.writeText s.manifestPath (Codec.manifest m).pretty = .ok stored) :
    s.Staged m set (entries.map Prod.fst) d stored := by
  have hfolders := changesOnly_makeFolders hmade fun _ => False
  have hentries := s.changesOnly_writeEntries set entries made
  have hwrote := wrote_writeEntries hwritten
  have hmanifest := Disk.changesOnly_writeText hstored
  rw [hwritten] at hentries
  dsimp only at hentries
  rw [hentries.current_eq, s.placeOf_manifestPath] at hmanifest
  obtain ⟨hpresent, hfiles, -⟩ := hwrote
  have hcurrent := hfolders.current_eq
  rw [hcurrent] at hentries hmanifest hpresent hfiles
  have hpast {name : String} {e : Disk.Entry}
      (he : written.entry? (s.namePlace d.current name) = some e) :
      stored.entry? (s.namePlace d.current name) = some e :=
    hmanifest.others _ _ (fun heq => s.manifestPlace_ne_namePlace _ _ heq.symm) he
  refine ⟨hmanifest.current_eq.trans (hentries.current_eq.trans hcurrent),
    Disk.readText_of_writeText hstored,
    hmanifest.hasFolder (hentries.hasFolder (hasFolder_filesPath_of_makeFolders hmade)),
    fun name e he => ?_, fun path hpath => ?_, fun name content hname hfile => ?_⟩
  · by_cases hown : s.IsEntryOf d.current set (entries.map Prod.fst) (s.namePlace d.current name)
    · obtain ⟨path, hpath, hplace⟩ := hown
      obtain ⟨e, he⟩ := hpresent path hpath
      rw [← hplace] at he
      exact ⟨e, hpast he⟩
    · exact ⟨e, hpast (hentries.others _ _ hown (hfolders.others _ _ id he))⟩
  · obtain ⟨e, he⟩ := hpresent path hpath
    exact ⟨e, hpast he⟩
  · have hother : ¬ s.IsEntryOf d.current set (entries.map Prod.fst)
        (s.namePlace d.current name) := by
      rintro ⟨path, hpath, hplace⟩
      exact hname path hpath (namePlace_inj hplace)
    rw [Disk.write_ok hstored, Disk.entry?_put written
      (Disk.ne_top_of_not_folder (Disk.locate_of_write hstored).2), s.placeOf_manifestPath,
      hentries.current_eq, hcurrent, if_neg (s.manifestPlace_ne_namePlace _ _)] at hfile
    have hmadefile := hfiles _ content hother hfile
    rw [namePlace, Disk.entry?_child] at hmadefile ⊢
    exact (noNewFiles_makeFolders hmade).files _ _ hmadefile

/-- The entries that are listed are there before a save collects. -/
theorem Staged.exists_entry {old : Option Manifest} {set now : String} {cache : FileCache}
    {stored : Disk}
    (h : s.Staged (listed (old.getD (.blank now)) set cache now) set cache.paths d stored)
    (hold : s.Tidy old d) {key : String}
    (hkey : key ∈ (listed (old.getD (.blank now)) set cache now).keys) :
    ∃ e, stored.entry? (s.entryPlace d.current key) = some e := by
  rcases mem_keys_listed hkey with ⟨path, hpath, rfl⟩ | hbefore
  · exact h.present path hpath
  · obtain ⟨-, -, e, he⟩ := (hold.isEntryName_iff now).mpr ⟨key, hbefore, rfl⟩
    exact h.kept _ e he

/-- Every key that is listed is the digest of a path. -/
theorem Tidy.exists_entryKey {old : Option Manifest} (h : s.Tidy old d) {set now : String}
    {cache : FileCache} {key : String}
    (hkey : key ∈ (listed (old.getD (.blank now)) set cache now).keys) :
    ∃ set path, key = Manifest.entryKey set path := by
  rcases mem_keys_listed hkey with ⟨path, -, rfl⟩ | hbefore
  · exact ⟨set, path, rfl⟩
  · cases old with
    | none => simp [Manifest.blank, Manifest.keys, NameMap.values, NameMap.empty] at hbefore
    | some m => exact h.hashed key hbefore

section Collecting

variable {old : Option Manifest} {set now : String} {cache : FileCache} {stored final : Disk}
  {names : List String} {n : Nat}

/-- When a save has collected, the entries are those of the listed keys. -/
theorem Staged.isEntryName_iff
    (h : s.Staged (listed (old.getD (.blank now)) set cache now) set cache.paths d stored)
    (hold : s.Tidy old d)
    (hcollected : s.Collected (listed (old.getD (.blank now)) set cache now).keys names stored final
      n)
    (hnames : ∀ name, name ∈ names ↔ s.IsEntryName stored name) (name : String) :
    s.IsEntryName final name ↔
      ∃ key ∈ (listed (old.getD (.blank now)) set cache now).keys, name = key ++ ".json" := by
  rw [hcollected.isEntryName_iff hnames]
  constructor
  · rintro ⟨⟨hslash, hext, -⟩, hlive⟩
    exact (isLive_iff hslash hext).mp hlive
  · rintro ⟨key, hkey, rfl⟩
    obtain ⟨e, he⟩ := h.exists_entry hold hkey
    rw [← h.current_eq] at he
    obtain ⟨keyset, path, rfl⟩ := hold.exists_entryKey hkey
    have hslash := Manifest.slash_not_mem_entryName keyset path
    have hext := Manifest.extension?_entryName keyset path
    exact ⟨⟨hslash, hext, e, he⟩, (isLive_iff hslash hext).mpr ⟨_, hkey, rfl⟩⟩

/-- What a save collects is what was there before it and is not there behind it. -/
theorem Staged.collects_iff
    (h : s.Staged (listed (old.getD (.blank now)) set cache now) set cache.paths d stored)
    (hcollected : s.Collected (listed (old.getD (.blank now)) set cache now).keys names stored final
      n)
    (hnames : ∀ name, name ∈ names ↔ s.IsEntryName stored name) (name : String) :
    s.IsEntryName stored name ∧
        ¬ IsLive (listed (old.getD (.blank now)) set cache now).keys name ↔
      s.IsEntryName d name ∧ ¬ s.IsEntryName final name := by
  rw [hcollected.isEntryName_iff hnames]
  constructor
  · -- what was collected is no entry of this save, so it was there before
    rintro ⟨hstood, hdead⟩
    obtain ⟨⟨content, hfile⟩, -⟩ := hcollected.gone name ((hnames name).mpr hstood) hdead
    rw [h.current_eq] at hfile
    refine ⟨⟨hstood.1, hstood.2.1, _, h.files name content (fun path hpath heq => ?_) hfile⟩,
      fun hlive => hdead hlive.2⟩
    exact hdead ((isLive_iff hstood.1 hstood.2.1).mpr
      ⟨_, entryKey_mem_keys_listed _ now hpath, heq⟩)
  · rintro ⟨⟨hslash, hext, e, he⟩, hgone⟩
    obtain ⟨later, hlater⟩ := h.kept name e he
    rw [← h.current_eq] at hlater
    have hstood : s.IsEntryName stored name := ⟨hslash, hext, later, hlater⟩
    exact ⟨hstood, fun hlive => hgone ⟨hstood, hlive⟩⟩

end Collecting

/-- What a save leaves and what it counts, from a directory in order: the directory is in order
again, under the manifest with the new list. -/
theorem Tidy.save {old : Option Manifest} (h : s.Tidy old d) {set now : String}
    {cache : FileCache} {counts : SaveCounts}
    (hok : (s.save d set cache now).outcome = .ok counts) :
    s.Settled (listed (old.getD (.blank now)) set cache now) (s.save d set cache now).disk ∧
      counts.written + counts.kept = cache.size ∧
      ∀ before after, s.entryNames d = .ok before →
        s.entryNames (s.save d set cache now).disk = .ok after →
        counts.collected = (before.filter fun name => name ∉ after).length := by
  obtain ⟨made, written, stored, tallied, n, hmade, hwritten, hstored, hcollect, hcounts⟩ :=
    save_steps hok
  have htext := readText_manifest_of_save hmade hok
  generalize (s.save d set cache now).disk = final at hcollect htext ⊢
  rw [h.continued_eq hmade now] at hstored hcollect htext
  have hstaged : s.Staged (listed (old.getD (.blank now)) set cache now) set cache.paths d stored :=
    staged_of_writeText hmade hwritten hstored
  have hchange := s.changesOnly_collectUnlisted (listed (old.getD (.blank now)) set cache now) stored
  rw [hcollect] at hchange
  have hfolder := hchange.hasFolder hstaged.folder
  obtain ⟨names, hnames, hnodup, hmem⟩ := entryNames_of_hasFolder hstaged.folder
  simp only [collectUnlisted, hnames] at hcollect
  have hcollected := collected_collect hcollect (fun name hname => mem_entryNames hnames hname)
    hnodup
  refine ⟨⟨?_, fun key => h.exists_entryKey, htext, hfolder,
    hstaged.isEntryName_iff h hcollected hmem⟩, ?_, ?_⟩
  · cases old with
    | none => rfl
    | some m => exact h.schema_eq
  · rw [hcounts]
    have hcounted := (wrote_writeEntries hwritten).counted
    rwa [List.length_map] at hcounted
  · intro before after hbefore hafter
    obtain ⟨left, hleft, -, hleftmem⟩ := entryNames_of_hasFolder hfolder
    obtain rfl : left = after := Except.ok.inj (hleft.symm.trans hafter)
    obtain ⟨first, hfirst, hfirstnodup, hfirstmem⟩ := h.entryNames_eq
    obtain rfl : first = before := Except.ok.inj (hfirst.symm.trans hbefore)
    rw [hcounts]
    refine hcollected.counted.trans (List.Perm.length_eq ?_)
    refine (List.perm_ext_iff_of_nodup (hnodup.filter _) (hfirstnodup.filter _)).mpr fun name => ?_
    rw [List.mem_filter, List.mem_filter, decide_eq_true_eq, decide_eq_true_eq, hleftmem, hmem,
      hfirstmem]
    exact hstaged.collects_iff hcollected hmem name

/-! ### Clearing, and what others do -/

/-- Clearing leaves nothing in the directory, or finds none and does nothing. -/
theorem Tidy.clear {old : Option Manifest} (h : s.Tidy old d) {n : Nat}
    (hok : (s.clear d).2 = .ok n) : ∃ new, s.Tidy new (s.clear d).1 := by
  rw [CacheStore.clear] at hok ⊢
  by_cases hmissing : (!d.has s.dir) = true
  · rw [if_pos hmissing]
    exact ⟨old, h⟩
  · rw [if_neg hmissing] at hok ⊢
    split at hok
    · simp at hok
    · next hfolder =>
      rw [if_neg hfolder]
      split at hok
      · simp at hok
      · split at hok
        · simp at hok
        · next final hremoved =>
          obtain ⟨hcurrent, habsent⟩ := Disk.absentBelow_of_removeTree hremoved
          refine ⟨none, ?_⟩
          rw [Tidy, hcurrent]
          exact habsent

/-- What others do elsewhere leaves the directory in order, as long as the folders stay. -/
theorem Tidy.of_sameBelow {old : Option Manifest} (h : s.Tidy old d) {next : Disk}
    (hsame : Disk.SameBelow (s.place d.current) d next)
    (hfolders : ∀ place, d.entry? place = some .folder → next.entry? place = some .folder) :
    s.Tidy old next := by
  have hbelow (rest : String) : next.entry? (Disk.child (s.place d.current) rest) =
      d.entry? (Disk.child (s.place d.current) rest) := by
    rw [Disk.entry?_child, Disk.entry?_child, hsame.entries]
  cases old with
  | none =>
    intro rest
    rw [hsame.current_eq, hsame.entries]
    exact h rest
  | some m =>
    have hchange : Disk.ChangesOnly
        (fun place => ¬ ∃ rest, place = Disk.child (s.place d.current) rest) d next := by
      refine ⟨hsame.current_eq, hfolders, fun place e hplace he => ?_⟩
      obtain ⟨rest, rfl⟩ := not_not.mp hplace
      rw [hbelow]
      exact he
    refine ⟨h.schema_eq, h.hashed, hchange.readText_ok ?_ h.text, hchange.hasFolder h.folder,
      fun name => ?_⟩
    · rw [not_not, s.placeOf_manifestPath]
      exact ⟨_, s.manifestPlace_eq_child _⟩
    · rw [IsEntryName, hsame.current_eq, namePlace_eq_child, hbelow, ← namePlace_eq_child]
      exact h.entries name

end CacheStore

/-! ### Any number of calls -/

/-- The disks that loads, saves and clears lead to which all succeed, on a cache directory that was
absent. Others may write elsewhere in between, and may add folders. -/
inductive Upkeep (s : CacheStore) : Disk → Prop
  | start {d : Disk} : d.AbsentBelow (s.place d.current) → Upkeep s d
  | load {d : Disk} {set : String} {cache : FileCache} :
      Upkeep s d → s.load d set = .ok cache → Upkeep s d
  | save {d : Disk} {set now : String} {cache : FileCache} {counts : SaveCounts} :
      Upkeep s d → (s.save d set cache now).outcome = .ok counts →
      Upkeep s (s.save d set cache now).disk
  | clear {d : Disk} {n : Nat} : Upkeep s d → (s.clear d).2 = .ok n → Upkeep s (s.clear d).1
  | others {d next : Disk} : Upkeep s d → Disk.SameBelow (s.place d.current) d next →
      (∀ place, d.entry? place = some .folder → next.entry? place = some .folder) → Upkeep s next

namespace Upkeep

variable {s : CacheStore} {d : Disk}

/-- The directory is in order after any number of calls. -/
theorem tidy (h : Upkeep s d) : ∃ old, s.Tidy old d := by
  induction h with
  | start habsent => exact ⟨none, habsent⟩
  | load _ _ ih => exact ih
  | save _ hok ih =>
    obtain ⟨old, hold⟩ := ih
    exact ⟨some _, (hold.save hok).1⟩
  | clear _ hok ih =>
    obtain ⟨old, hold⟩ := ih
    exact hold.clear hok
  | others _ hsame hfolders ih =>
    obtain ⟨old, hold⟩ := ih
    exact ⟨old, hold.of_sameBelow hsame hfolders⟩

/-- After every save the entries in the directory are those of the keys that the manifest lists over
all sets. The manifest lists exactly the paths of the cache for the saved set, each with its key,
and for every other set what the manifest before it listed. The entries written and kept are as many
as the cached files, and those collected are as many as the entries that are gone. -/
theorem entries_listed_of_save (h : Upkeep s d) {set now : String} {cache : FileCache}
    {counts : SaveCounts} (hok : (s.save d set cache now).outcome = .ok counts) :
    ∃ old m before after,
      s.manifest? d = .ok old ∧ s.entryNames d = .ok before ∧
      s.manifest? (s.save d set cache now).disk = .ok (some m) ∧
      s.entryNames (s.save d set cache now).disk = .ok after ∧
      (∀ name, name ∈ after ↔ ∃ key ∈ m.keys, name = key ++ ".json") ∧
      (∃ listed, m.sets.get? set = some listed ∧ listed.keys = cache.paths ∧
        ∀ path ∈ cache.paths, listed.get? path = some (Manifest.entryKey set path)) ∧
      (∀ other, other ≠ set → m.sets.get? other = old.bind fun o => o.sets.get? other) ∧
      counts.written + counts.kept = cache.size ∧
      counts.collected = (before.filter fun name => name ∉ after).length := by
  obtain ⟨old, hold⟩ := h.tidy
  obtain ⟨hsettled, hkept, hcollected⟩ := hold.save hok
  obtain ⟨before, hbefore, -, -⟩ := hold.entryNames_eq
  obtain ⟨after, hafter, -, hmem⟩ := CacheStore.entryNames_of_hasFolder hsettled.folder
  refine ⟨old, _, before, after, hold.manifest?_eq, hbefore,
    CacheStore.manifest?_of_readText hsettled.schema_eq hsettled.text, hafter,
    fun name => (hmem name).trans (hsettled.entries name), ⟨cache.keyed set, ?_,
      CacheStore.keys_keyed cache set, fun path hpath => ?_⟩, fun other hne => ?_, hkept,
    hcollected before after hbefore hafter⟩
  · rw [CacheStore.get?_listed, if_pos rfl]
  · exact CacheStore.get?_keyed_iff.mpr ⟨hpath, rfl⟩
  · rw [CacheStore.get?_listed, if_neg hne.symm]
    cases old <;> rfl

/-- The set `ab` is saved behind the set `a`, with a file whose entry they share. -/
theorem entries_listed_of_meeting_sets :
    ∃ (d : Disk) (counts : SaveCounts) (old : Option Manifest) (m : Manifest)
      (before after : List String),
      Upkeep ⟨"/c"⟩ d ∧
      (CacheStore.save ⟨"/c"⟩ d "ab" (Saves.cacheOf ["c"]) "").outcome = .ok counts ∧
      CacheStore.manifest? ⟨"/c"⟩ d = .ok old ∧ CacheStore.entryNames ⟨"/c"⟩ d = .ok before ∧
      (∀ name, name ∈ after ↔ ∃ key ∈ m.keys, name = key ++ ".json") ∧
      (∃ listed, m.sets.get? "ab" = some listed ∧ listed.keys = ["c"]) ∧
      m.sets.get? "a" = old.bind (fun o => o.sets.get? "a") ∧
      counts.written + counts.kept = 1 ∧
      counts.collected = (before.filter fun name => name ∉ after).length := by
  obtain ⟨hfirst, hsecond⟩ := Saves.isOk_two_saves
  obtain ⟨first, hfirst⟩ := Saves.exists_ok_of_isOk hfirst
  obtain ⟨counts, hsecond⟩ := Saves.exists_ok_of_isOk hsecond
  have hrun : Upkeep ⟨"/c"⟩ (CacheStore.save ⟨"/c"⟩ {} "a" (Saves.cacheOf ["bc"]) "").disk :=
    (Upkeep.start fun _ => rfl).save hfirst
  obtain ⟨old, m, before, after, hold, hbefore, -, -, hmem, ⟨listed, hlisted, hpaths, -⟩, hothers,
    hkept, hcollected⟩ := hrun.entries_listed_of_save hsecond
  exact ⟨_, counts, old, m, before, after, hrun, hsecond, hold, hbefore, hmem,
    ⟨listed, hlisted, hpaths⟩, hothers "a" (by decide), hkept, hcollected⟩

end Upkeep

end ApiDoc
