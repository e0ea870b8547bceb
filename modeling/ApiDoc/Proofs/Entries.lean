import Mathlib.Data.List.Nodup
import ApiDoc.Proofs.ReadBack

/-!
# The folder of entries

An entry of a cache directory is known by its name in the folder of entries: a key with the
extension of entries. A folder that can be followed can be listed, and the list has every name in it
once. Writing the entries of a set leaves all of them there, whether they are written or were there
already, and brings no other file. Collecting takes exactly the names whose key is not listed, and
succeeds only if all of them are files. `CacheStore.Wrote` and `CacheStore.Collected` say what the
two steps do, with what they count.
-/

namespace ApiDoc

/-! ### Names of entries -/

/-- A digest has two digits for each of its 32 bytes. -/
theorem Digest.length_sha256 (message : List UInt8) : (sha256 message).length = 64 := by
  have hbytes (s : Words) : s.bytes.length = 32 := by
    simp [Words.bytes, length_bigEndian]
  simp [sha256, List.length_flatMap, Text.hexByte, List.map_const', hbytes]

/-- Every digit is a single byte. -/
theorem Digest.utf8ByteSize_sha256 (message : List UInt8) : (sha256 message).utf8ByteSize = 64 := by
  have hsize (cs : List Char) (h : ∀ c ∈ cs, ∃ n < 16, c = Nat.digitChar n) :
      (String.ofList cs).utf8ByteSize = cs.length := by
    induction cs with
    | nil => rfl
    | cons c cs ih =>
      obtain ⟨⟨n, hn, rfl⟩, hrest⟩ := List.forall_mem_cons.mp h
      have hdigit : ∀ n < 16, (Nat.digitChar n).utf8Size = 1 := by decide
      have hcons : String.ofList (Nat.digitChar n :: cs) =
          String.singleton (Nat.digitChar n) ++ String.ofList cs := by
        rw [← String.toList_inj]
        simp
      rw [hcons, String.utf8ByteSize_append, String.utf8ByteSize_singleton, hdigit n hn, ih hrest,
        List.length_cons, Nat.add_comm]
  have hwhole := hsize (sha256 message).toList fun c hc => exists_digit hc
  rwa [String.ofList_toList, String.length_toList, length_sha256] at hwhole

namespace Path

/-- A path that does not end with a slash is bare. -/
theorem bare_of_getLast? {path : String} {c : Char} (h : path.toList.getLast? = some c)
    (hc : c ≠ '/') : bare path = path := by
  obtain ⟨front, hfront⟩ := List.getLast?_eq_some_iff.mp h
  have htrail : Text.dropTrailChar '/' path.toList = path.toList := by
    rw [hfront, Text.dropTrailChar]
    simp [hc]
  rw [bare, htrail]
  split
  · next hnil => simp [hnil] at hfront
  · exact String.ofList_toList

/-- A path followed by a name does not end with a slash. -/
theorem bare_join {name : String} (h : IsName name) (base : String) :
    bare (join base name) = join base name := by
  have hfront : ∃ front, join base name = front ++ name := by
    rw [join, if_neg (lead_ne_top h.head?_ne)]
    split
    · exact ⟨base, rfl⟩
    · exact ⟨base ++ "/", rfl⟩
  obtain ⟨front, hfront⟩ := hfront
  cases hlast : name.toList.getLast? with
  | none => exact absurd (String.toList_eq_nil_iff.mp (List.getLast?_eq_none_iff.mp hlast)) h.1
  | some c =>
    refine bare_of_getLast? (c := c) ?_ fun hc => h.2 (hc ▸ List.mem_of_getLast? hlast)
    rw [hfront, String.toList_append, List.getLast?_append, hlast]
    rfl

/-- A name with the extension of entries is a key with it. -/
theorem eq_append_of_extension? {name : String} (hslash : '/' ∉ name.toList)
    (h : extension? name = some "json") : ∃ key, name = key ++ ".json" ∧ stem? name = some key := by
  have hfile := (fileName?_of_extension? hslash h).1
  rw [extension?, stemAndExtension?, hfile] at h
  rw [stem?, stemAndExtension?, hfile]
  simp only [Option.bind_eq_bind, Option.bind_some] at h ⊢
  cases hcut : Text.cutLast? '.' name.toList with
  | none => simp [hcut] at h
  | some parts =>
    obtain ⟨stem, extension⟩ := parts
    simp only [hcut] at h ⊢
    split at h
    · simp at h
    · next hstem =>
      have hext : String.ofList extension = "json" := by simpa using h
      refine ⟨String.ofList stem, ?_, by simp [hstem]⟩
      have hlist : extension = "json".toList := by rw [← hext, String.toList_ofList]
      rw [← String.toList_inj, ← Text.append_of_cutLast? hcut, hlist]
      simp

/-- A key with the extension of entries is a name with it. -/
theorem extension?_entryName {key : String} (hslash : '/' ∉ key.toList) (hempty : key ≠ "") :
    extension? (key ++ ".json") = some "json" := by
  have hne (short : String) (hlen : short.length < 5) : key ++ ".json" ≠ short := by
    rintro rfl
    have hext : ".json".length = 5 := by decide
    rw [String.length_append, hext] at hlen
    omega
  have hname : '/' ∉ (key ++ ".json").toList := by simpa using hslash
  have hidle : isIdle (key ++ ".json") = false := by
    simp [isIdle, hne "" (by decide), hne "." (by decide)]
  have hfile : fileName? (key ++ ".json") = some (key ++ ".json") := by
    rw [fileName?, moves, pieces_name hname]
    simp [hidle, hne ".." (by decide)]
  have hcut : Text.cutLast? '.' (key ++ ".json").toList = some (key.toList, "json".toList) := by
    rw [String.toList_append]
    exact Text.cutLast?_append key.toList (by decide)
  have hstem : key.toList.isEmpty = false := by simpa using hempty
  rw [extension?, stemAndExtension?, hfile]
  simp only [Option.bind_eq_bind, Option.bind_some, hcut, hstem]
  simp

end Path

theorem Manifest.slash_not_mem_entryName (set path : String) :
    '/' ∉ (Manifest.entryKey set path ++ ".json").toList := by
  simpa using Manifest.slash_not_mem_entryKey set path

theorem Manifest.extension?_entryName (set path : String) :
    Path.extension? (Manifest.entryKey set path ++ ".json") = some "json" := by
  refine Path.extension?_entryName (Manifest.slash_not_mem_entryKey set path) fun hempty => ?_
  have hlength := congrArg String.length hempty
  rw [Manifest.entryKey, Digest.length_sha256] at hlength
  exact absurd hlength (by decide)

/-! ### What a listing shows -/

namespace Disk

theorem child_ne_top (place name : String) : child place name ≠ "" := by
  intro h
  simpa [child] using congrArg String.toList h

theorem entry?_child (d : Disk) (place name : String) :
    d.entry? (child place name) = d.entries.get? (child place name) := by
  rw [ entry?, if_neg (child_ne_top place name)]

theorem child_right_inj {place name other : String} (h : child place name = child place other) :
    name = other := by
  rw [← String.toList_inj] at h ⊢
  simpa [child] using h

theorem toList_child (place name : String) :
    (child place name).toList = (place ++ "/").toList ++ name.toList := by
  simp [child]

theorem namesBelow?_child (place rest : String) :
    namesBelow? place (child place rest) = some (Path.pieces rest) := by
  rw [namesBelow?, toList_child, Text.after?_append, Option.map_some, String.ofList_toList]

theorem namesBelow?_eq_singleton_iff {place other name : String} :
    namesBelow? place other = some [name] ↔ '/' ∉ name.toList ∧ other = child place name := by
  constructor
  · intro h
    obtain ⟨rest, hrest, hpieces⟩ := Option.map_eq_some_iff.mp h
    have hslash : '/' ∉ name.toList :=
      Path.slash_not_mem_of_mem_pieces (hpieces ▸ List.mem_singleton_self name)
    obtain ⟨part, hpart, hname⟩ : ∃ part, Text.splitOn '/' rest = [part] ∧
        String.ofList part = name := by
      rw [Path.pieces, Text.parts, String.toList_ofList, List.map_eq_singleton_iff] at hpieces
      exact hpieces
    have hjoin := Text.joinWith_splitOn '/' rest
    rw [hpart] at hjoin
    refine ⟨hslash, ?_⟩
    rw [← String.toList_inj, toList_child, ← hname, String.toList_ofList, ← Text.append_of_after? hrest,
      ← hjoin]
    rfl
  · rintro ⟨hslash, rfl⟩
    rw [namesBelow?_child, Path.pieces_name hslash]

theorem hasFolder_iff {d : Disk} {path : String} : d.hasFolder path = true ↔
    d.locate path = .ok (placeOf d.current path) ∧
      d.entry? (placeOf d.current path) = some .folder := by
  rw [hasFolder, find]
  cases hl : d.locate path with
  | error e => simp [bind, Except.bind]
  | ok place =>
    rw [← locate_eq_placeOf hl]
    cases he : d.entry? place with
    | none => simp [he, bind, Except.bind]
    | some e => cases e <;> simp [he, bind, Except.bind]

theorem has_of_hasFolder {d : Disk} {path : String} (h : d.hasFolder path = true) :
    d.has path = true := by
  obtain ⟨hl, he⟩ := hasFolder_iff.mp h
  simp [has, find, hl, he, bind, Except.bind]

/-- A path leads to nothing if its place is vacant. -/
theorem has_of_vacant {d : Disk} {path : String}
    (h : d.entry? (placeOf d.current path) = none) : d.has path = false := by
  rw [has, find]
  cases hl : d.locate path with
  | error e => rfl
  | ok place =>
    rw [← locate_eq_placeOf hl] at h
    simp [h, bind, Except.bind]

theorem ChangesOnly.hasFolder {touched : String → Prop} {old new : Disk}
    (h : ChangesOnly touched old new) {path : String} (hfolder : old.hasFolder path = true) :
    new.hasFolder path = true := by
  obtain ⟨hl, he⟩ := hasFolder_iff.mp hfolder
  rw [hasFolder_iff, h.current_eq]
  exact ⟨h.locate_ok hl, h.folders _ he⟩

/-- A folder can be listed, and its list has the names of what is in it, each once. -/
theorem list_of_hasFolder {d : Disk} {path : String} (h : d.hasFolder path = true) :
    ∃ names, d.list path = .ok names ∧ names.Nodup ∧ ∀ name, name ∈ names ↔
      '/' ∉ name.toList ∧ ∃ e, d.entry? (child (placeOf d.current path) name) = some e := by
  obtain ⟨nameOf, hlist, hname⟩ : ∃ nameOf : String → Option String,
      d.list path = .ok (d.entries.keys.filterMap nameOf) ∧ ∀ other name,
        nameOf other = some name ↔
          '/' ∉ name.toList ∧ other = child (placeOf d.current path) name := by
    obtain ⟨hl, he⟩ := hasFolder_iff.mp h
    refine ⟨_, by simp only [list, hl, he, bind, Except.bind]; rfl, fun other name => ?_⟩
    rw [← namesBelow?_eq_singleton_iff]
    split
    · next single hsingle => simp [hsingle]
    · next hnone =>
      exact ⟨fun hcontra => by simp at hcontra, fun hcontra => absurd hcontra (hnone name)⟩
  refine ⟨_, hlist, ?_, fun name => ?_⟩
  · refine List.Nodup.filterMap (fun a b name ha hb => ?_) d.entries.nodup_keys
    rw [((hname a name).mp ha).2, ((hname b name).mp hb).2]
  · rw [List.mem_filterMap]
    simp only [hname, entry?_child]
    constructor
    · rintro ⟨other, hother, hslash, rfl⟩
      exact ⟨hslash, NameMap.mem_keys_iff.mp hother⟩
    · rintro ⟨hslash, hget⟩
      exact ⟨_, NameMap.mem_keys_iff.mpr hget, hslash, rfl⟩

/-! ### Folders that are made -/

theorem hasFolder_of_makeFolder {d made : Disk} {path : String} (hbare : Path.bare path = path)
    (h : d.makeFolder path = .ok made) : made.hasFolder path = true := by
  have hchange := changesOnly_makeFolder h fun _ => False
  obtain ⟨place, hl, hvacant, hput⟩ := makeFolder_ok h
  rw [hbare] at hl
  have hplace := locate_eq_placeOf hl
  rw [hplace] at hl hput hvacant
  rw [hasFolder_iff, hchange.current_eq]
  refine ⟨hchange.locate_ok hl, ?_⟩
  have hfolder : d.entry? (placeOf d.current path) ≠ some .folder := by simp [hvacant]
  rw [hput, entry?_put d (ne_top_of_not_folder hfolder), if_pos rfl]

theorem hasFolder_of_makeFolders {d made : Disk} {path : String} (hbare : Path.bare path = path)
    (hempty : path ≠ "") (h : d.makeFolders path = .ok made) : made.hasFolder path = true := by
  rw [makeFolders, Path.ancestors, makeFirst, if_neg (by simpa using hempty)] at h
  split at h
  · next first hfirst =>
    exact Except.ok.inj h ▸ hasFolder_of_makeFolder hbare hfirst
  · cases hheld : d.makeFirst ((List.range (Path.moves path).length).map fun n =>
        Path.ofMoves (Path.lead path) ((Path.moves path).take n)).reverse with
    | error e => simp [hheld, bind, Except.bind] at h
    | ok held =>
      simp only [hheld, bind, Except.bind] at h
      split at h
      · next second hsecond =>
        exact Except.ok.inj h ▸ hasFolder_of_makeFolder hbare hsecond
      · split at h
        · next hthere => exact Except.ok.inj h ▸ hthere
        · simp at h
  · split at h
    · next hthere => exact Except.ok.inj h ▸ hthere
    · simp at h

/-- Nothing is left below a folder that was removed. -/
theorem absentBelow_of_removeTree {d final : Disk} {path : String}
    (h : d.removeTree path = (final, none)) :
    final.current = d.current ∧ final.AbsentBelow (placeOf d.current path) := by
  have hcleared (place rest : String) :
      (d.clearBelow place).entries.get? (child place rest) = none := by
    rw [clearBelow, NameMap.get?_filter, namesBelow?_child]
    simp
  rw [removeTree] at h
  cases hl : d.locate path with
  | error e => simp [hl] at h
  | ok place =>
    rw [← locate_eq_placeOf hl]
    simp only [hl] at h
    split at h
    · simp at h
    · simp at h
    · split at h
      · rw [← (Prod.mk.inj h).1]
        exact ⟨rfl, hcleared place⟩
      · split at h
        · simp at h
        · rw [← (Prod.mk.inj h).1]
          refine ⟨rfl, fun rest => ?_⟩
          rw [NameMap.get?_erase, hcleared place rest, ite_self]

end Disk

namespace CacheStore

variable {s : CacheStore} {d : Disk}

/-! ### The folder of entries -/

/-- The place of a name in the folder of entries. -/
def namePlace (s : CacheStore) (current name : String) : String :=
  Disk.child (Disk.child (s.place current) "files") name

theorem namePlace_inj {current name other : String}
    (h : s.namePlace current name = s.namePlace current other) : name = other :=
  Disk.child_right_inj h

theorem namePlace_eq_child (s : CacheStore) (current name : String) :
    s.namePlace current name = Disk.child (s.place current) (Disk.child "files" name) := by
  simp only [namePlace, Disk.child, String.append_assoc]

theorem manifestPlace_ne_namePlace (s : CacheStore) (current name : String) :
    s.manifestPlace current ≠ s.namePlace current name := by
  intro h
  have := congrArg String.toList h
  simp [manifestPlace, namePlace, Disk.child] at this

theorem placeOf_filesPath (s : CacheStore) (current : String) :
    Disk.placeOf current s.filesPath = Disk.child (s.place current) "files" := by
  rw [filesPath, Disk.placeOf_join current s.dir ⟨by decide, by decide⟩,
    Disk.move_name (by decide) (by decide) (by decide)]
  rfl

theorem bare_filesPath (s : CacheStore) : Path.bare s.filesPath = s.filesPath :=
  Path.bare_join ⟨by decide, by decide⟩ s.dir

theorem filesPath_ne_empty (s : CacheStore) : s.filesPath ≠ "" := by
  intro h
  have hplace := s.placeOf_filesPath ""
  rw [h] at hplace
  exact Disk.child_ne_top _ _ hplace.symm

theorem hasFolder_filesPath_of_makeFolders {made : Disk} (h : s.makeFolders d = .ok made) :
    made.hasFolder s.filesPath = true := by
  rw [makeFolders] at h
  split at h
  · simp at h
  · split at h
    · next next hnext =>
      exact Except.ok.inj h ▸
        Disk.hasFolder_of_makeFolders s.bare_filesPath s.filesPath_ne_empty hnext
    · simp at h

/-- Whether some name is that of an entry in the directory. -/
def IsEntryName (s : CacheStore) (d : Disk) (name : String) : Prop :=
  '/' ∉ name.toList ∧ Path.extension? name = some "json" ∧
    ∃ e, d.entry? (s.namePlace d.current name) = some e

/-- The names of the entries in a folder, each once. -/
theorem entryNames_of_hasFolder (h : d.hasFolder s.filesPath = true) :
    ∃ names, s.entryNames d = .ok names ∧ names.Nodup ∧
      ∀ name, name ∈ names ↔ s.IsEntryName d name := by
  obtain ⟨all, hlist, hnodup, hall⟩ := Disk.list_of_hasFolder h
  refine ⟨all.filter fun name => Path.extension? name = some "json", ?_, hnodup.filter _,
    fun name => ?_⟩
  · rw [entryNames, if_pos (Disk.has_of_hasFolder h), hlist]
    rfl
  · rw [List.mem_filter, hall, placeOf_filesPath, decide_eq_true_eq, and_right_comm, and_assoc]
    rfl

/-- There are no entries where there is no directory. -/
theorem entryNames_of_absentBelow (h : d.AbsentBelow (s.place d.current)) :
    s.entryNames d = .ok [] := by
  have hnone : d.entry? (Disk.placeOf d.current s.filesPath) = none := by
    rw [placeOf_filesPath, Disk.entry?_child, h]
  rw [entryNames, Disk.has_of_vacant hnone]
  rfl

theorem load_of_not_has (h : d.has s.manifestPath = false) (set : String) :
    s.load d set = .ok {} := by
  rw [CacheStore.load, manifest?, h]
  rfl

theorem manifest?_of_absentBelow (h : d.AbsentBelow (s.place d.current)) :
    s.manifest? d = .ok none := by
  have hnone : d.entry? (Disk.placeOf d.current s.manifestPath) = none := by
    rw [placeOf_manifestPath, manifestPlace_eq_child, Disk.entry?_child, h]
  rw [manifest?, Disk.has_of_vacant hnone]
  rfl

/-! ### Entries that are written -/

theorem IsEntryOf.tail {current set path place : String} {paths : List String}
    (h : s.IsEntryOf current set paths place) : s.IsEntryOf current set (path :: paths) place := by
  obtain ⟨p, hp, hplace⟩ := h
  exact ⟨p, List.mem_cons_of_mem _ hp, hplace⟩

/-- Writing an entry leaves it in the directory, whether it was written or there already. -/
theorem entry?_of_writeEntry {set path : String} {cached : CachedFile} {next : Disk}
    {written : Bool} (h : s.writeEntry set path cached d = .ok (next, written)) :
    ∃ e, next.entry? (s.entryPlace d.current (Manifest.entryKey set path)) = some e := by
  rw [← s.placeOf_entryPath _ (Manifest.slash_not_mem_entryKey set path)]
  rw [writeEntry] at h
  split at h
  · cases hw : d.writeText (s.entryPath (Manifest.entryKey set path))
        (Codec.file cached.file).compact with
    | error e => simp [hw, Except.map] at h
    | ok stored =>
      simp only [hw, Except.map, Except.ok.injEq, Prod.mk.injEq] at h
      rw [← h.1, Disk.write_ok hw,
        Disk.entry?_put d (Disk.ne_top_of_not_folder (Disk.locate_of_write hw).2), if_pos rfl]
      exact ⟨_, rfl⟩
  · next hskip =>
    simp only [Except.ok.injEq, Prod.mk.injEq] at h
    have hhas : d.has (s.entryPath (Manifest.entryKey set path)) = true := by
      simp only [Bool.or_eq_true, not_or, Bool.not_eq_true, Bool.not_eq_false'] at hskip
      exact hskip.2
    rw [← h.1]
    by_contra hnone
    rw [not_exists, ← Option.eq_none_iff_forall_ne_some] at hnone
    simp [Disk.has_of_vacant hnone] at hhas

/-- The files of the new disk were there before, apart from the entry that was written. -/
theorem file_of_writeEntry {set path : String} {cached : CachedFile} {next : Disk}
    {written : Bool} (h : s.writeEntry set path cached d = .ok (next, written)) {place : String}
    {content : ByteArray} (hplace : ¬ s.IsEntryOf d.current set [path] place)
    (hfile : next.entry? place = some (.file content)) : d.entry? place = some (.file content) := by
  rw [writeEntry] at h
  split at h
  · cases hw : d.writeText (s.entryPath (Manifest.entryKey set path))
        (Codec.file cached.file).compact with
    | error e => simp [hw, Except.map] at h
    | ok stored =>
      simp only [hw, Except.map, Except.ok.injEq, Prod.mk.injEq] at h
      have hne : s.entryPlace d.current (Manifest.entryKey set path) ≠ place :=
        fun heq => hplace ⟨path, List.mem_singleton_self path, heq.symm⟩
      rw [← h.1, Disk.write_ok hw,
        Disk.entry?_put d (Disk.ne_top_of_not_folder (Disk.locate_of_write hw).2),
        s.placeOf_entryPath _ (Manifest.slash_not_mem_entryKey set path), if_neg hne] at hfile
      exact hfile
  · simp only [Except.ok.injEq, Prod.mk.injEq] at h
    exact h.1 ▸ hfile

/-- What writing the entries of a set does: every one of them is there, no other file is new, and
every one of them is counted. -/
structure Wrote (s : CacheStore) (set : String) (paths : List String) (old new : Disk)
    (counts : SaveCounts) : Prop where
  present : ∀ path ∈ paths, ∃ e,
    new.entry? (s.entryPlace old.current (Manifest.entryKey set path)) = some e
  files : ∀ place content, ¬ s.IsEntryOf old.current set paths place →
    new.entry? place = some (.file content) → old.entry? place = some (.file content)
  counted : counts.written + counts.kept = paths.length

theorem wrote_writeEntries {set : String} {entries : List (String × CachedFile)} {written : Disk}
    {counts : SaveCounts} (h : s.writeEntries set entries d = (written, .ok counts)) :
    s.Wrote set (entries.map Prod.fst) d written counts := by
  induction entries generalizing d counts with
  | nil =>
    simp only [writeEntries, Prod.mk.injEq, Except.ok.injEq] at h
    obtain ⟨rfl, rfl⟩ := h
    exact ⟨by simp, fun _ _ _ hfile => hfile, rfl⟩
  | cons first rest ih =>
    obtain ⟨path, cached⟩ := first
    rw [writeEntries] at h
    split at h
    · simp at h
    · next next wrote hnext =>
      cases hothers : s.writeEntries set rest next with
      | mk final outcome =>
        rw [hothers] at h
        cases outcome with
        | error e => simp [Except.map] at h
        | ok others =>
          simp only [Except.map, Prod.mk.injEq, Except.ok.injEq] at h
          obtain ⟨rfl, rfl⟩ := h
          have hrest := ih hothers
          have hcurrent := (changesOnly_writeEntry hnext).current_eq
          have hchange := s.changesOnly_writeEntries set rest next
          rw [hothers, hcurrent] at hchange
          obtain ⟨hpresent, hfiles, hcounted⟩ := hrest
          rw [hcurrent] at hpresent hfiles
          refine ⟨fun p hp => ?_, fun place content hplace hfile => ?_, ?_⟩
          · -- an entry that is written again later is there then as well
            rcases List.mem_cons.mp hp with rfl | hp
            · obtain ⟨e, he⟩ := entry?_of_writeEntry hnext
              by_cases hagain : s.IsEntryOf d.current set (rest.map Prod.fst)
                  (s.entryPlace d.current (Manifest.entryKey set p))
              · obtain ⟨other, hother, heq⟩ := hagain
                exact heq ▸ hpresent other hother
              · exact ⟨e, hchange.others _ _ hagain he⟩
            · exact hpresent p hp
          · refine file_of_writeEntry hnext (fun hfirst => hplace ?_)
              (hfiles place content (fun htail => hplace htail.tail) hfile)
            obtain ⟨p, hp, heq⟩ := hfirst
            exact ⟨p, List.mem_cons.mpr (.inl (List.mem_singleton.mp hp)), heq⟩
          · rw [List.map_cons, List.length_cons, ← hcounted, SaveCounts.tally]
            split
            · exact Nat.add_right_comm _ _ _
            · exact (Nat.add_assoc _ _ _).symm

/-! ### Entries that are collected -/

/-- Whether the key in a name is listed. -/
def IsLive (live : List String) (name : String) : Prop := (Path.stem? name).getD "" ∈ live

instance (live : List String) : DecidablePred (IsLive live) := fun _ =>
  inferInstanceAs (Decidable (_ ∈ live))

/-- The name of an entry is live exactly if it is made from a listed key. -/
theorem isLive_iff {live : List String} {name : String} (hslash : '/' ∉ name.toList)
    (hext : Path.extension? name = some "json") :
    IsLive live name ↔ ∃ key ∈ live, name = key ++ ".json" := by
  obtain ⟨key, rfl, hstem⟩ := Path.eq_append_of_extension? hslash hext
  rw [IsLive, hstem, Option.getD_some]
  constructor
  · intro h
    exact ⟨key, h, rfl⟩
  · rintro ⟨other, hother, heq⟩
    rw [String.append_left_inj] at heq
    exact heq ▸ hother

/-- What collecting does: the names that are not live stood for files and are gone, the others are
as they were. -/
structure Collected (s : CacheStore) (live names : List String) (old new : Disk) (count : Nat) :
    Prop where
  current_eq : new.current = old.current
  gone : ∀ name ∈ names, ¬ IsLive live name →
    (∃ content, old.entry? (s.namePlace old.current name) = some (.file content)) ∧
      new.entry? (s.namePlace old.current name) = none
  others : ∀ place, (∀ name ∈ names, ¬ IsLive live name → place ≠ s.namePlace old.current name) →
    new.entry? place = old.entry? place
  counted : count = (names.filter fun name => ¬ IsLive live name).length

theorem entry?_of_removeFile {left : Disk} {path : String} (h : d.removeFile path = .ok left) :
    left.current = d.current ∧
      (∃ content, d.entry? (Disk.placeOf d.current path) = some (.file content)) ∧
      left.entry? (Disk.placeOf d.current path) = none ∧
      ∀ place, place ≠ Disk.placeOf d.current path → left.entry? place = d.entry? place := by
  obtain ⟨⟨content, hfile⟩, rfl⟩ := Disk.removeFile_ok h
  have htop : Disk.placeOf d.current path ≠ "" :=
    Disk.ne_top_of_not_folder (by rw [hfile]; simp)
  refine ⟨rfl, ⟨content, hfile⟩, ?_, fun other hne => ?_⟩
  · rw [ Disk.entry?, if_neg htop, NameMap.get?_erase_self]
  · rw [ Disk.entry?, Disk.entry?, NameMap.get?_erase_of_ne _ hne]

theorem collected_collect {live names : List String} {final : Disk} {count : Nat}
    (h : s.collect live names d = (final, .ok count))
    (hnames : ∀ name ∈ names, '/' ∉ name.toList ∧ Path.extension? name = some "json")
    (hnodup : names.Nodup) : s.Collected live names d final count := by
  induction names generalizing d count with
  | nil =>
    simp only [collect, Prod.mk.injEq, Except.ok.injEq] at h
    obtain ⟨rfl, rfl⟩ := h
    exact ⟨rfl, by simp, fun _ _ => rfl, rfl⟩
  | cons name rest ih =>
    obtain ⟨hnotin, hrestnodup⟩ := List.nodup_cons.mp hnodup
    have hrestnames := fun other hother => hnames other (List.mem_cons_of_mem _ hother)
    rw [collect] at h
    split at h
    · next hlive =>
      have hlive : IsLive live name := by simpa [IsLive] using hlive
      obtain ⟨hcurrent, hgone, hothers, hcounted⟩ := ih h hrestnames hrestnodup
      refine ⟨hcurrent, fun other hother hdead => ?_, fun place hplace => ?_, ?_⟩
      · rcases List.mem_cons.mp hother with rfl | hother
        · exact absurd hlive hdead
        · exact hgone other hother hdead
      · exact hothers place fun other hother => hplace other (List.mem_cons_of_mem _ hother)
      · rw [List.filter_cons_of_neg (by simpa using hlive)]
        exact hcounted
    · next hdead =>
      have hdead : ¬ IsLive live name := by simpa [IsLive] using hdead
      split at h
      · simp at h
      · next next hnext =>
        obtain ⟨hslash, hext⟩ := hnames name List.mem_cons_self
        obtain ⟨hnextcurrent, hfile, hnone, hkept⟩ := entry?_of_removeFile hnext
        rw [s.placeOf_name d.current hslash hext] at hfile hnone hkept
        cases hothers : s.collect live rest next with
        | mk left outcome =>
          rw [hothers] at h
          cases outcome with
          | error e => simp [Except.map] at h
          | ok n =>
            simp only [Except.map, Prod.mk.injEq, Except.ok.injEq] at h
            obtain ⟨rfl, rfl⟩ := h
            obtain ⟨hcurrent, hgone, hunchanged, hcounted⟩ := ih hothers hrestnames hrestnodup
            rw [hnextcurrent] at hcurrent hgone hunchanged
            have hne : ∀ other ∈ rest, s.namePlace d.current other ≠ s.namePlace d.current name :=
              fun other hother heq => hnotin (namePlace_inj heq ▸ hother)
            refine ⟨hcurrent, fun other hother hotherdead => ?_, fun place hplace => ?_, ?_⟩
            · rcases List.mem_cons.mp hother with rfl | hother
              · refine ⟨hfile, ?_⟩
                rw [hunchanged _ fun later hlater _ => (hne later hlater).symm]
                exact hnone
              · obtain ⟨⟨content, hcontent⟩, hleft⟩ := hgone other hother hotherdead
                rw [hkept _ (hne other hother)] at hcontent
                exact ⟨⟨content, hcontent⟩, hleft⟩
            · rw [hunchanged place fun other hother =>
                hplace other (List.mem_cons_of_mem _ hother)]
              exact hkept place (hplace name List.mem_cons_self hdead)
            · rw [List.filter_cons_of_pos (by simpa using hdead), List.length_cons, hcounted]

/-- Collecting leaves the names that are live. -/
theorem Collected.isEntryName_iff {live names : List String} {final : Disk} {count : Nat}
    (h : s.Collected live names d final count)
    (hnames : ∀ name, name ∈ names ↔ s.IsEntryName d name) {name : String} :
    s.IsEntryName final name ↔ s.IsEntryName d name ∧ IsLive live name := by
  constructor
  · rintro ⟨hslash, hext, e, he⟩
    rw [h.current_eq] at he
    have hstood : d.entry? (s.namePlace d.current name) = some e := by
      rw [← h.others _ fun other hother hdead heq => ?_]
      · exact he
      · simp [heq, (h.gone other hother hdead).2] at he
    refine ⟨⟨hslash, hext, e, hstood⟩, ?_⟩
    by_contra hdead
    simp [(h.gone name ((hnames name).mpr ⟨hslash, hext, e, hstood⟩) hdead).2] at he
  · rintro ⟨⟨hslash, hext, e, he⟩, hlive⟩
    refine ⟨hslash, hext, e, ?_⟩
    rw [h.current_eq, h.others _ fun other _ hdead heq => ?_]
    · exact he
    · exact hdead (namePlace_inj heq ▸ hlive)

end CacheStore

end ApiDoc
