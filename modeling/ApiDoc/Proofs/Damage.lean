import ApiDoc.Proofs.Places
import ApiDoc.Proofs.RoundTrip
import Mathlib.Data.List.Induction
import Mathlib.Data.List.Nodup

/-!
# Damaged cache directories

A cache directory can hold anything: a manifest and entries that are missing, or that are bytes of
any kind. What is loaded from it is described here by the bytes alone (`CacheStore.HoldsManifest`,
`CacheStore.HoldsFile`), whatever is wrong with the others.

The main statement: loading gives exactly the files whose entries are listed for the set and hold a
file of the path they are listed under. It fails for one kind of damage only, a manifest that is not
a text; every other damage makes the loaded cache smaller.
-/

namespace ApiDoc

/-! ### Reading texts -/

namespace Disk

variable {d : Disk} {path : String}

theorem readText_eq_ok_iff {text : String} : d.readText path = .ok text ↔
    ∃ bytes, d.read path = .ok bytes ∧ String.fromUTF8? bytes = some text := by
  rw [readText]
  cases d.read path with
  | error e => simp [bind, Except.bind]
  | ok bytes => cases h : String.fromUTF8? bytes <;> simp [bind, Except.bind, h]

theorem readText_eq_error_iff {e : Fault} : d.readText path = .error e ↔
    d.read path = .error e ∨
      e = .notText ∧ ∃ bytes, d.read path = .ok bytes ∧ String.fromUTF8? bytes = none := by
  rw [readText]
  cases d.read path with
  | error fault => simp [bind, Except.bind]
  | ok bytes => cases h : String.fromUTF8? bytes <;> simp [bind, Except.bind, h, eq_comm]

/-- What is there and is no folder can be read. -/
theorem exists_read_of_has (h : d.has path = true) (hfolder : d.hasFolder path = false) :
    ∃ bytes, d.read path = .ok bytes := by
  rw [has] at h
  rw [hasFolder] at hfolder
  rw [read]
  cases hfind : d.find path with
  | error e => simp [hfind] at h
  | ok entry =>
    cases entry with
    | folder => simp [hfind] at hfolder
    | file bytes => exact ⟨bytes, rfl⟩

theorem read_of_entry? (place : String) {content : ByteArray} (hplace : d.locate path = .ok place)
    (h : d.entry? place = some (.file content)) : d.read path = .ok content := by
  rw [read, find, hplace]
  simp only [bind, Except.bind, h]

theorem has_of_read {bytes : ByteArray} (h : d.read path = .ok bytes) : d.has path = true := by
  rw [read] at h
  rw [has]
  cases hfind : d.find path with
  | error e => simp [hfind, bind, Except.bind] at h
  | ok entry => rfl

end Disk

namespace CacheStore

variable {s : CacheStore} {d : Disk}

/-! ### What the bytes of a directory hold -/

def HoldsManifest (s : CacheStore) (d : Disk) (m : Manifest) : Prop :=
  ∃ bytes text, d.read s.manifestPath = .ok bytes ∧ String.fromUTF8? bytes = some text ∧
    (Json.skim? text).bind Codec.manifest? = some m ∧ m.schema = Manifest.currentSchema

def HoldsFile (s : CacheStore) (d : Disk) (key : String) (f : File) : Prop :=
  ∃ bytes text, d.read (s.entryPath key) = .ok bytes ∧ String.fromUTF8? bytes = some text ∧
    (Json.skim? text).bind Codec.file? = some f

/-- A path of a set is listed with the key of an entry. -/
def Lists (s : CacheStore) (d : Disk) (set path key : String) : Prop :=
  ∃ m listed, s.HoldsManifest d m ∧ m.sets.get? set = some listed ∧ listed.get? path = some key

theorem entry?_eq_some_iff {key : String} {f : File} :
    s.entry? d key = some f ↔ s.HoldsFile d key f := by
  delta CacheStore.entry? HoldsFile
  constructor
  · intro h
    split at h
    · next text htext =>
      obtain ⟨bytes, hread, hutf⟩ := Disk.readText_eq_ok_iff.mp htext
      exact ⟨bytes, text, hread, hutf, h⟩
    · simp at h
  · rintro ⟨bytes, text, hread, hutf, h⟩
    rw [Disk.readText_eq_ok_iff.mpr ⟨bytes, hread, hutf⟩]
    exact h

theorem manifest?_eq_some_iff {m : Manifest} (hschema : m.schema = Manifest.currentSchema) :
    s.manifest? d = .ok (some m) ↔ s.HoldsManifest d m := by
  rw [manifest?]
  constructor
  · intro h
    split at h
    · split at h
      · simp at h
      · next text htext =>
        obtain ⟨bytes, hread, hutf⟩ := Disk.readText_eq_ok_iff.mp htext
        split at h
        · next found hfound =>
          obtain rfl : found = m := by simpa using h
          exact ⟨bytes, text, hread, hutf, hfound, hschema⟩
        · simp at h
    · simp at h
  · rintro ⟨bytes, text, hread, hutf, hm, -⟩
    rw [if_pos (Disk.has_of_read hread), Disk.readText_eq_ok_iff.mpr ⟨bytes, hread, hutf⟩]
    simp only [hm]

/-! ### The entries of a set -/

/-- One listed entry: it adds the file of its path, if it holds it. -/
theorem get?_loadEntry {cache : FileCache} {listed key : String} (hnew : cache.get? listed = none)
    (path : String) (file : File) :
    (s.loadEntry d cache (listed, key)).get? path = some file ↔
      cache.get? path = some file ∨
        path = listed ∧ file.path = path ∧ s.HoldsFile d key file := by
  delta loadEntry
  rw [← entry?_eq_some_iff]
  cases hentry : s.entry? d key with
  | none => simp
  | some found =>
    dsimp only
    split
    · next hpath =>
      rw [FileCache.insertSaved, FileCache.get?, NameMap.get?_insert, hpath]
      by_cases hsame : listed = path
      · subst hsame
        simp only [if_true, Option.map_some, Option.some.injEq, true_and, hnew, reduceCtorEq,
          false_or]
        constructor
        · rintro rfl
          exact ⟨hpath, rfl⟩
        · exact fun h => h.2
      · simp [hsame, Ne.symm hsame, FileCache.get?]
    · next hpath =>
      constructor
      · exact .inl
      · rintro (h | ⟨rfl, hown, hfound⟩)
        · exact h
        · rw [Option.some.inj hfound] at hpath
          exact absurd hown hpath

/-- All listed entries: what is loaded are the files that stand under the key of their own path. -/
theorem get?_foldl_loadEntry {listed : List (String × String)}
    (hdistinct : (listed.map Prod.fst).Nodup) (path : String) (file : File) :
    (listed.foldl (s.loadEntry d) {}).get? path = some file ↔
      file.path = path ∧ ∃ key, (path, key) ∈ listed ∧ s.HoldsFile d key file := by
  induction listed using List.reverseRecOn generalizing path file with
  | nil => simp [FileCache.get?, NameMap.get?, NameMap.empty, NameMap.lookupIn]
  | append_singleton front last ih =>
    rw [List.map_append, List.nodup_append] at hdistinct
    obtain ⟨hfront, -, hlast⟩ := hdistinct
    have hnew : (front.foldl (s.loadEntry d) {}).get? last.1 = none := by
      rw [Option.eq_none_iff_forall_ne_some]
      intro other hother
      obtain ⟨-, key, hmem, -⟩ := (ih hfront last.1 other).mp hother
      exact hlast last.1 (List.mem_map.mpr ⟨_, hmem, rfl⟩) last.1 (by simp) rfl
    rw [List.foldl_append, List.foldl_cons, List.foldl_nil, get?_loadEntry hnew,
      ih hfront path file]
    simp only [List.mem_append, List.mem_singleton]
    constructor
    · rintro (⟨hpath, key, hmem, hheld⟩ | ⟨rfl, hpath, hheld⟩)
      · exact ⟨hpath, key, .inl hmem, hheld⟩
      · exact ⟨hpath, last.2, .inr rfl, hheld⟩
    · rintro ⟨hpath, key, hmem | rfl, hheld⟩
      · exact .inl ⟨hpath, key, hmem, hheld⟩
      · exact .inr ⟨rfl, hpath, hheld⟩

/-! ### Loading -/

theorem HoldsManifest.schema_eq {m : Manifest} (h : s.HoldsManifest d m) :
    m.schema = Manifest.currentSchema := by
  obtain ⟨_, _, _, _, _, hschema⟩ := h
  exact hschema

/-- There is one manifest at most. -/
theorem HoldsManifest.unique {m n : Manifest} (hm : s.HoldsManifest d m)
    (hn : s.HoldsManifest d n) : m = n := by
  have h := (manifest?_eq_some_iff hm.schema_eq).mpr hm
  rw [(manifest?_eq_some_iff hn.schema_eq).mpr hn] at h
  simpa [eq_comm] using h

theorem load_of_holdsManifest {m : Manifest} (h : s.HoldsManifest d m) (set : String) :
    s.load d set =
      .ok (((m.sets.get? set).getD .empty).entries.foldl (s.loadEntry d) {}) := by
  rw [load, (manifest?_eq_some_iff h.schema_eq).mpr h]
  simp only [if_pos h.schema_eq]

theorem load_of_no_manifest (h : ∀ m, ¬ s.HoldsManifest d m) {set : String} {cache : FileCache}
    (hload : s.load d set = .ok cache) : cache = {} := by
  rw [load] at hload
  split at hload
  · exact (Except.ok.inj hload).symm
  · simp at hload
  · exact (Except.ok.inj hload).symm
  · next m hm =>
    split at hload
    · next hschema => exact absurd ((manifest?_eq_some_iff hschema).mp hm) (h m)
    · exact (Except.ok.inj hload).symm

/-- What is loaded is what is listed for the set and held under its own path. -/
theorem get?_of_load {set : String} {cache : FileCache} (h : s.load d set = .ok cache)
    (path : String) (file : File) :
    cache.get? path = some file ↔
      file.path = path ∧ ∃ key, s.Lists d set path key ∧ s.HoldsFile d key file := by
  by_cases hm : ∃ m, s.HoldsManifest d m
  · obtain ⟨m, hm⟩ := hm
    rw [load_of_holdsManifest hm, Except.ok.injEq] at h
    subst h
    have hlists (key : String) : s.Lists d set path key ↔
        (path, key) ∈ ((m.sets.get? set).getD .empty).entries := by
      rw [NameMap.mem_entries_iff]
      constructor
      · rintro ⟨other, listed, hother, hset, hkey⟩
        rwa [hm.unique hother, hset]
      · intro hkey
        cases hset : m.sets.get? set with
        | none => simp [hset] at hkey
        | some listed => exact ⟨m, listed, hm, hset, by simpa [hset] using hkey⟩
    simp only [get?_foldl_loadEntry (NameMap.nodup_keys _), hlists]
  · have hnone : ∀ m, ¬ s.HoldsManifest d m := fun m hheld => hm ⟨m, hheld⟩
    obtain rfl := load_of_no_manifest hnone h
    constructor
    · intro hget
      simp [FileCache.get?, NameMap.get?, NameMap.empty, NameMap.lookupIn] at hget
    · rintro ⟨-, key, ⟨m, listed, hheld, -⟩, -⟩
      exact absurd hheld (hnone m)

/-- Loading fails only because of a manifest that cannot be read as a text. -/
theorem load_eq_error_iff {set : String} {e : CacheError} : s.load d set = .error e ↔
    d.has s.manifestPath = true ∧ ∃ fault, d.readText s.manifestPath = .error fault ∧
      e = .io fault := by
  rw [load, manifest?]
  cases d.has s.manifestPath with
  | false => simp
  | true =>
    cases d.readText s.manifestPath with
    | error fault => simp [eq_comm]
    | ok text =>
      cases hm : (Json.skim? text).bind Codec.manifest? with
      | none => simp [hm]
      | some m =>
        simp only [if_true, hm]
        split <;> simp

/-- The manifest file is no text. -/
def Garbled (s : CacheStore) (d : Disk) : Prop :=
  ∃ bytes, d.read s.manifestPath = .ok bytes ∧ String.fromUTF8? bytes = none

theorem HoldsManifest.not_garbled {m : Manifest} (h : s.HoldsManifest d m) : ¬ s.Garbled d := by
  obtain ⟨bytes, text, hread, hutf, -⟩ := h
  rintro ⟨others, hothers, htext⟩
  rw [hread] at hothers
  rw [← Except.ok.inj hothers, hutf] at htext
  simp at htext

theorem load_eq_error_iff_garbled (hfile : d.hasFolder s.manifestPath = false) {set : String}
    {e : CacheError} : s.load d set = .error e ↔ s.Garbled d ∧ e = .io .notText := by
  rw [load_eq_error_iff]
  constructor
  · rintro ⟨hhas, fault, hfault, rfl⟩
    obtain ⟨bytes, hread⟩ := Disk.exists_read_of_has hhas hfile
    rcases Disk.readText_eq_error_iff.mp hfault with herror | ⟨rfl, hgarbled⟩
    · simp [hread] at herror
    · exact ⟨hgarbled, rfl⟩
  · rintro ⟨⟨bytes, hread, htext⟩, rfl⟩
    exact ⟨Disk.has_of_read hread, _,
      Disk.readText_eq_error_iff.mpr (.inr ⟨rfl, bytes, hread, htext⟩), rfl⟩

/-- A damaged cache stops a build only by a manifest that is no text. Whatever bytes the manifest
and the entries are made of, and whichever of them are missing, loading a set fails exactly if the
manifest is there and is no text, as a text that cannot be read. Otherwise it gives, of the paths
that a manifest of the current form lists for the set, exactly those whose entry holds a file of
that path, each with the file that its entry holds. -/
theorem load_of_any_content (hfile : d.hasFolder s.manifestPath = false) (set : String) :
    ((∃ cache, s.load d set = .ok cache) ↔ ¬ s.Garbled d) ∧
      (s.Garbled d → s.load d set = .error (.io .notText)) ∧
      ∀ cache, s.load d set = .ok cache → ∀ path file, cache.get? path = some file ↔
        file.path = path ∧ ∃ key, s.Lists d set path key ∧ s.HoldsFile d key file := by
  refine ⟨⟨?_, ?_⟩, fun h => (load_eq_error_iff_garbled hfile).mpr ⟨h, rfl⟩,
    fun cache => get?_of_load⟩
  · rintro ⟨cache, hload⟩ hgarbled
    rw [(load_eq_error_iff_garbled hfile).mpr ⟨hgarbled, rfl⟩] at hload
    simp at hload
  · intro hgarbled
    cases hload : s.load d set with
    | ok cache => exact ⟨cache, rfl⟩
    | error e => exact absurd ((load_eq_error_iff_garbled hfile).mp hload).1 hgarbled

/-- A cached file without content. -/
def storedFile : File where
  path := "a.php"
  hash := ""

def listingManifest : Manifest where
  schema := 1
  writtenAt := ""
  sets := .ofList [("api", .ofList [("a.php", "k"), ("b.php", "l")])]

/-- A cache directory whose manifest is the given bytes, with one sound entry and one damaged one. -/
def damagedDisk (manifest : ByteArray) : Disk where
  entries := .ofList [("/c", .folder), ("/c/files", .folder),
    ("/c/files/k.json", .file (Codec.file storedFile).compact.toUTF8),
    ("/c/files/l.json", .file ⟨#[0xff]⟩), ("/c/manifest.json", .file manifest)]

/-- The cache directory with its manifest as it was written. -/
def damagedEntry : Disk := damagedDisk (Codec.manifest listingManifest).pretty.toUTF8

theorem holdsManifest_damagedEntry : (CacheStore.mk "/c").HoldsManifest damagedEntry listingManifest :=
  ⟨(Codec.manifest listingManifest).pretty.toUTF8, (Codec.manifest listingManifest).pretty,
    Disk.read_of_entry? "/c/manifest.json" (by decide +kernel)
      (by simp [damagedEntry, damagedDisk, Disk.entry?, NameMap.ofList]),
    Text.fromUTF8?_toUTF8 _, (Codec.manifest_lossless listingManifest (by decide +kernel)).2.2, rfl⟩

theorem holdsFile_damagedEntry : (CacheStore.mk "/c").HoldsFile damagedEntry "k" storedFile :=
  ⟨(Codec.file storedFile).compact.toUTF8, (Codec.file storedFile).compact,
    Disk.read_of_entry? "/c/files/k.json" (by decide +kernel)
      (by simp [damagedEntry, damagedDisk, Disk.entry?, NameMap.ofList, NameMap.get?_insert]),
    Text.fromUTF8?_toUTF8 _, (Codec.file_lossless storedFile (by decide +kernel)).2.1⟩

/-- A damaged entry is left aside, but a manifest that is a single byte stops a build. -/
theorem load_of_any_content_damaged :
    (∃ cache, (CacheStore.mk "/c").load damagedEntry "api" = .ok cache ∧
      cache.get? "a.php" = some storedFile ∧ cache.get? "b.php" = none) ∧
    (CacheStore.mk "/c").load (damagedDisk ⟨#[0xff]⟩) "api" = .error (.io .notText) := by
  constructor
  · obtain ⟨hok, -, hcontent⟩ := load_of_any_content (s := ⟨"/c"⟩) (d := damagedEntry)
      (by decide +kernel) "api"
    obtain ⟨cache, hload⟩ := hok.mpr holdsManifest_damagedEntry.not_garbled
    refine ⟨cache, hload, ?_, ?_⟩
    · refine (hcontent cache hload "a.php" storedFile).mpr ?_
      exact ⟨rfl, "k", ⟨_, _, holdsManifest_damagedEntry, rfl, by decide⟩, holdsFile_damagedEntry⟩
    · rw [Option.eq_none_iff_forall_ne_some]
      intro file hfile
      obtain ⟨-, key, ⟨m, listed, hm, hset, hkey⟩, bytes, text, hread, htext, -⟩ :=
        (hcontent cache hload "b.php" file).mp hfile
      obtain rfl := hm.unique holdsManifest_damagedEntry
      obtain rfl : NameMap.ofList [("a.php", "k"), ("b.php", "l")] = listed := Option.some.inj hset
      obtain rfl : "l" = key := Option.some.inj hkey
      have hbytes : damagedEntry.read ((CacheStore.mk "/c").entryPath "l") = .ok ⟨#[0xff]⟩ := by
        decide +kernel
      obtain rfl := Except.ok.inj (hbytes.symm.trans hread)
      have hnone : String.fromUTF8? ⟨#[0xff]⟩ = none := by decide +kernel
      exact absurd (hnone.symm.trans htext) nofun
  · have hgarbled : (CacheStore.mk "/c").Garbled (damagedDisk ⟨#[0xff]⟩) :=
      ⟨⟨#[0xff]⟩, by decide +kernel, by decide +kernel⟩
    exact (load_of_any_content (by decide +kernel) "api").2.1 hgarbled

end CacheStore

end ApiDoc
