import ApiDoc.Proofs.Entries

/-!
# Saves that succeed

A save goes through if nothing on the disk stands in its way. `CacheStore.TakesFiles` says what this
means: the folders are there, paths in them are not too long, the manifest is no folder, and every
entry is a file under a key. Every step of a save goes through in such a directory and leaves it so.
Main statement: where the folders can be made and take files, a save succeeds whatever is saved, and
so does the next one.
-/

namespace ApiDoc

/-! ### Names behind folders -/

theorem Path.utf8ByteSize_join_le (base sub : String) :
    (join base sub).utf8ByteSize ≤ base.utf8ByteSize + 1 + sub.utf8ByteSize := by
  have hslash : "/".utf8ByteSize = 1 := by decide
  rw [join]
  split
  · omega
  · split
    · rw [String.utf8ByteSize_append]
      omega
    · exact Nat.le_of_eq (by rw [String.utf8ByteSize_append, String.utf8ByteSize_append, hslash])

namespace Disk

variable {d : Disk}

/-- A name that can be followed from any folder. -/
structure IsPlain (name : String) : Prop where
  isName : Path.IsName name
  ne_here : name ≠ "."
  ne_up : name ≠ ".."
  short : name.utf8ByteSize ≤ nameLimit
  nul : '\x00' ∉ name.toList

theorem step_of_isPlain {place name : String} (hfolder : d.entry? place = some .folder)
    (hname : IsPlain name) : d.step place name = .ok (child place name) := by
  have hidle : Path.isIdle name = false := by simp [Path.isIdle, hname.isName.1, hname.ne_here]
  rw [step, hfolder]
  simp only [hidle, Bool.false_eq_true, if_false, if_neg hname.ne_up,
    if_neg (Nat.not_lt.mpr hname.short)]

/-- A plain name behind a path to a folder leads one piece further. -/
theorem locate_join {base name : String} (hfolder : d.hasFolder base = true) (hname : IsPlain name)
    (hshort : (Path.join base name).utf8ByteSize ≤ pathLimit) :
    d.locate (Path.join base name) = .ok (child (placeOf d.current base) name) := by
  obtain ⟨hl, he⟩ := hasFolder_iff.mp hfolder
  generalize placeOf d.current base = place at hl he
  rw [locate, follow] at hl
  split at hl
  · simp at hl
  · next hempty =>
    split at hl
    · simp at hl
    · next hzero =>
      split at hl
      · simp at hl
      · have hb : base ≠ "" := by simpa using hempty
        obtain ⟨front, hfront, hjoin⟩ :=
          Path.exists_fronts hb (Path.lead_ne_top hname.isName.head?_ne)
        -- a slash at the end of the base stays in place
        have hreach : (Path.pieces front).foldlM d.step
            (if Path.lead base = .top then "" else d.current) = .ok place := by
          rcases hfront with rfl | rfl
          · exact hl
          · have hslash : front ++ "/" = front ++ "/" ++ "" := by simp
            have hpieces : Path.pieces (front ++ "/") = Path.pieces front ++ [""] := by
              rw [hslash, Path.pieces_append]
              rfl
            rw [hpieces, List.foldlM_append] at hl
            cases hp : (Path.pieces front).foldlM d.step
                (if Path.lead (front ++ "/") = .top then "" else d.current) with
            | error e => simp [hp, bind, Except.bind] at hl
            | ok p =>
              have hlast : [""].foldlM d.step p = .ok place := by rwa [hp] at hl
              rw [foldlM_step_eq_move hlast]
              rfl
        have hnone : ¬ (Path.join base name).isEmpty = true := by
          rw [hjoin]
          simp
        have hplain : ¬ (Path.join base name).toList.contains '\x00' = true := by
          have hnul := hname.nul
          rcases hfront with rfl | rfl <;> simp_all
        have hlead : (Path.lead (Path.join base name) = .top) = (Path.lead base = .top) :=
          propext (Path.lead_join_iff hname.isName hb)
        rw [locate, follow, if_neg hnone, if_neg hplain, if_neg (Nat.not_lt.mpr hshort)]
        simp only [hlead]
        rw [hjoin, Path.pieces_append, List.foldlM_append, hreach,
          Path.pieces_name hname.isName.2]
        show ([name] : List String).foldlM d.step place = _
        rw [List.foldlM_cons, step_of_isPlain he hname]
        rfl

/-- A file can be written to a path that leads to no folder. -/
theorem writeText_of_locate {path place : String} (hbare : Path.bare path = path)
    (hl : d.locate path = .ok place) (hfolder : d.entry? place ≠ some .folder) (text : String) :
    d.writeText path text = .ok (d.put place (.file text.toUTF8)) := by
  have hslash : Path.hasTrailingSlash path = false := by simp [Path.hasTrailingSlash, hbare]
  rw [writeText, write, hslash]
  simp only [Bool.false_eq_true, if_false, hl, bind, Except.bind]

theorem makeFolders_of_hasFolder {path : String} (hbare : Path.bare path = path) (hempty : path ≠ "")
    (h : d.hasFolder path = true) : d.makeFolders path = .ok d := by
  obtain ⟨hl, he⟩ := hasFolder_iff.mp h
  have hthere : d.makeFolder path = .error .alreadyExists := by
    rw [makeFolder, hbare, hl]
    simp only [bind, Except.bind, he]
  rw [makeFolders, Path.ancestors, makeFirst, if_neg (by simpa using hempty), hthere]
  simp only [h, if_true]

end Disk

/-! ### Names of entries -/

theorem Manifest.utf8ByteSize_entryName (set path : String) :
    (Manifest.entryKey set path ++ ".json").utf8ByteSize = 69 := by
  rw [String.utf8ByteSize_append, Manifest.entryKey, Digest.utf8ByteSize_sha256]
  decide

theorem Manifest.isPlain_entryName (set path : String) :
    Disk.IsPlain (Manifest.entryKey set path ++ ".json") := by
  have hsize := Manifest.utf8ByteSize_entryName set path
  have hne (short : String) (hshort : short.utf8ByteSize ≠ 69) :
      Manifest.entryKey set path ++ ".json" ≠ short := fun heq => hshort (heq ▸ hsize)
  refine ⟨⟨hne _ (by decide), ?_⟩, hne _ (by decide), hne _ (by decide), ?_, ?_⟩
  · exact Manifest.slash_not_mem_entryName set path
  · rw [hsize]
    decide
  · rw [String.toList_append, List.mem_append]
    rintro (hkey | hext)
    · obtain ⟨n, hn, hdigit⟩ := Digest.exists_digit hkey
      have hnul : ∀ n < 16, '\x00' ≠ Nat.digitChar n := by decide
      exact hnul n hn hdigit
    · revert hext
      decide

namespace CacheStore

variable {s : CacheStore} {d : Disk}

/-! ### Directories that take files -/

/-- Nothing in a cache directory stands in the way of a save. The longest paths are those of entries:
they add two slashes, the folder of entries and a name of 69 bytes. -/
structure TakesFiles (s : CacheStore) (d : Disk) : Prop where
  dir : d.hasFolder s.dir = true
  folder : d.hasFolder s.filesPath = true
  short : s.dir.utf8ByteSize + 76 ≤ Disk.pathLimit
  manifest : d.entry? (s.manifestPlace d.current) ≠ some .folder
  entries : ∀ name, s.IsEntryName d name → ∃ set path content,
    name = Manifest.entryKey set path ++ ".json" ∧
      d.entry? (s.namePlace d.current name) = some (.file content)

namespace TakesFiles

/-- A directory without entries takes files. -/
theorem of_no_entries (hdir : d.hasFolder s.dir = true) (hfolder : d.hasFolder s.filesPath = true)
    (hshort : s.dir.utf8ByteSize + 76 ≤ Disk.pathLimit)
    (hmanifest : d.entry? (s.manifestPlace d.current) ≠ some .folder)
    (hnone : s.entryNames d = .ok []) : s.TakesFiles d := by
  refine ⟨hdir, hfolder, hshort, hmanifest, fun name hname => ?_⟩
  obtain ⟨names, hnames, -, hmem⟩ := entryNames_of_hasFolder hfolder
  obtain rfl : names = [] := Except.ok.inj (hnames.symm.trans hnone)
  simpa using (hmem name).mpr hname

theorem makeFolders_eq (h : s.TakesFiles d) : s.makeFolders d = .ok d := by
  rw [makeFolders, h.dir, Disk.makeFolders_of_hasFolder s.bare_filesPath s.filesPath_ne_empty h.folder]
  simp

theorem locate_manifestPath (h : s.TakesFiles d) :
    d.locate s.manifestPath = .ok (s.manifestPlace d.current) := by
  have hshort := h.short
  have hsize := Path.utf8ByteSize_join_le s.dir "manifest.json"
  have hname : "manifest.json".utf8ByteSize = 13 := by decide
  exact Disk.locate_join h.dir ⟨⟨by decide, by decide⟩, by decide, by decide, by decide, by decide⟩
    (by omega)

theorem locate_name (h : s.TakesFiles d) (set path : String) :
    d.locate (Path.join s.filesPath (Manifest.entryKey set path ++ ".json")) =
      .ok (s.namePlace d.current (Manifest.entryKey set path ++ ".json")) := by
  have hshort := h.short
  have hfiles := Path.utf8ByteSize_join_le s.dir "files"
  have hsize := Path.utf8ByteSize_join_le s.filesPath (Manifest.entryKey set path ++ ".json")
  have hname := Manifest.utf8ByteSize_entryName set path
  have hfolder : "files".utf8ByteSize = 5 := by decide
  rw [← filesPath] at hfiles
  rw [namePlace, ← placeOf_filesPath]
  exact Disk.locate_join h.folder (Manifest.isPlain_entryName set path) (by omega)

/-- No folder stands at the place of an entry. -/
theorem entry?_name_ne_folder (h : s.TakesFiles d) (set path : String) :
    d.entry? (s.namePlace d.current (Manifest.entryKey set path ++ ".json")) ≠ some .folder := by
  intro hfolder
  have hplain := Manifest.isPlain_entryName set path
  obtain ⟨-, -, content, -, hfile⟩ :=
    h.entries _ ⟨hplain.isName.2, Manifest.extension?_entryName set path, _, hfolder⟩
  simp [hfile] at hfolder

/-- A file that takes the place of the manifest or of an entry leaves the directory so. -/
theorem put (h : s.TakesFiles d) {place : String}
    (hplace : place = s.manifestPlace d.current ∨
      ∃ set path, place = s.namePlace d.current (Manifest.entryKey set path ++ ".json"))
    (hfolder : d.entry? place ≠ some .folder) (content : ByteArray) :
    s.TakesFiles (d.put place (.file content)) := by
  have hchange := Disk.changesOnly_put_file hfolder content
  have hentry := Disk.entry?_put d (Disk.ne_top_of_not_folder hfolder) (.file content)
  refine ⟨hchange.hasFolder h.dir, hchange.hasFolder h.folder, h.short, ?_, ?_⟩
  · rw [hchange.current_eq, hentry]
    split
    · simp
    · exact h.manifest
  · rintro name ⟨hslash, hext, e, he⟩
    rw [hchange.current_eq, hentry] at he
    rw [hchange.current_eq, hentry]
    by_cases hown : place = s.namePlace d.current name
    · rcases hplace with hmanifest | ⟨set, path, hname⟩
      · exact absurd (hmanifest.symm.trans hown) (s.manifestPlace_ne_namePlace _ _)
      · exact ⟨set, path, content, namePlace_inj (hown.symm.trans hname), if_pos hown⟩
    · rw [if_neg hown] at he ⊢
      exact h.entries name ⟨hslash, hext, e, he⟩

/-- An entry that is removed leaves the directory so. -/
theorem removeFile (h : s.TakesFiles d) {name : String} (hslash : '/' ∉ name.toList)
    (hext : Path.extension? name = some "json") {left : Disk}
    (hleft : d.removeFile (Path.join s.filesPath name) = .ok left) : s.TakesFiles left := by
  have hchange := Disk.changesOnly_removeFile hleft
  obtain ⟨hcurrent, -, hgone, hkept⟩ := entry?_of_removeFile hleft
  rw [s.placeOf_name d.current hslash hext] at hgone hkept
  refine ⟨hchange.hasFolder h.dir, hchange.hasFolder h.folder, h.short, ?_, ?_⟩
  · rw [hcurrent, hkept _ (s.manifestPlace_ne_namePlace _ _)]
    exact h.manifest
  · rintro other ⟨hother, hotherext, e, he⟩
    rw [hcurrent] at he ⊢
    have hne : s.namePlace d.current other ≠ s.namePlace d.current name := by
      intro heq
      rw [heq] at he
      exact absurd (hgone.symm.trans he) nofun
    rw [hkept _ hne] at he ⊢
    exact h.entries other ⟨hother, hotherext, e, he⟩

/-! ### The steps of a save -/

theorem exists_writeEntry (h : s.TakesFiles d) (set path : String) (cached : CachedFile) :
    ∃ next written, s.writeEntry set path cached d = .ok (next, written) ∧ s.TakesFiles next := by
  rw [writeEntry]
  split
  · have hfolder := h.entry?_name_ne_folder set path
    have hbare := Path.bare_join (Manifest.isPlain_entryName set path).isName s.filesPath
    rw [entryPath, Disk.writeText_of_locate hbare (h.locate_name set path) hfolder]
    exact ⟨_, true, rfl, h.put (.inr ⟨set, path, rfl⟩) hfolder _⟩
  · exact ⟨d, false, rfl, h⟩

theorem exists_writeEntries (h : s.TakesFiles d) (set : String)
    (entries : List (String × CachedFile)) : ∃ written counts,
      s.writeEntries set entries d = (written, .ok counts) ∧ s.TakesFiles written := by
  induction entries generalizing d with
  | nil => exact ⟨d, {}, rfl, h⟩
  | cons entry rest ih =>
    obtain ⟨path, cached⟩ := entry
    obtain ⟨next, wrote, hnext, htakes⟩ := h.exists_writeEntry set path cached
    obtain ⟨written, counts, hrest, hwritten⟩ := ih htakes
    refine ⟨written, counts.tally wrote, ?_, hwritten⟩
    rw [writeEntries, hnext]
    simp only [hrest, Except.map]

theorem exists_writeText_manifest (h : s.TakesFiles d) (text : String) :
    ∃ stored, d.writeText s.manifestPath text = .ok stored ∧ s.TakesFiles stored := by
  have hname : Path.IsName "manifest.json" := ⟨by decide, by decide⟩
  have hbare := Path.bare_join hname s.dir
  exact ⟨_, Disk.writeText_of_locate hbare h.locate_manifestPath h.manifest text,
    h.put (.inl rfl) h.manifest _⟩

theorem exists_collect (h : s.TakesFiles d) (live : List String) {names : List String}
    (hnodup : names.Nodup) (hnames : ∀ name ∈ names, s.IsEntryName d name) :
    ∃ final count, s.collect live names d = (final, .ok count) ∧ s.TakesFiles final := by
  induction names generalizing d with
  | nil => exact ⟨d, 0, rfl, h⟩
  | cons name rest ih =>
    obtain ⟨hnew, hrest⟩ := List.nodup_cons.mp hnodup
    rw [collect]
    split
    · exact ih h hrest fun other hother => hnames other (List.mem_cons_of_mem _ hother)
    · obtain ⟨hslash, hext, e, he⟩ := hnames name List.mem_cons_self
      obtain ⟨set, path, content, rfl, hfile⟩ := h.entries name ⟨hslash, hext, e, he⟩
      have hremoved : ∃ left, d.removeFile
          (Path.join s.filesPath (Manifest.entryKey set path ++ ".json")) = .ok left := by
        rw [Disk.removeFile, h.locate_name]
        simp only [bind, Except.bind, hfile]
        exact ⟨_, rfl⟩
      obtain ⟨left, hleft⟩ := hremoved
      obtain ⟨hcurrent, -, -, hkept⟩ := entry?_of_removeFile hleft
      rw [s.placeOf_name d.current hslash hext] at hkept
      obtain ⟨final, count, hcollect, hfinal⟩ := ih (h.removeFile hslash hext hleft) hrest
        fun other hother => by
          obtain ⟨hslash, hext, e, he⟩ := hnames other (List.mem_cons_of_mem _ hother)
          refine ⟨hslash, hext, e, ?_⟩
          rwa [hcurrent, hkept]
          exact fun heq => hnew (namePlace_inj heq ▸ hother)
      refine ⟨final, count + 1, ?_, hfinal⟩
      rw [hleft]
      simp only [hcollect, Except.map]

theorem exists_collectUnlisted (h : s.TakesFiles d) (m : Manifest) :
    ∃ final count, s.collectUnlisted m d = (final, .ok count) ∧ s.TakesFiles final := by
  obtain ⟨names, hnames, hnodup, hmem⟩ := entryNames_of_hasFolder h.folder
  rw [collectUnlisted, hnames]
  exact h.exists_collect m.keys hnodup fun name => (hmem name).mp

end TakesFiles

/-- Where the folders can be made and take files, a save succeeds, and the directory still takes
files. -/
theorem exists_save_of_makeFolders {made : Disk} (hmade : s.makeFolders d = .ok made)
    (h : s.TakesFiles made) (set now : String) (cache : FileCache) :
    ∃ counts, (s.save d set cache now).outcome = .ok counts ∧
      s.TakesFiles (s.save d set cache now).disk := by
  obtain ⟨written, tallied, hwritten, htakes⟩ := h.exists_writeEntries set cache.entries.entries
  obtain ⟨stored, hstored, hfiles⟩ := htakes.exists_writeText_manifest
    (Codec.manifest (listed (s.continued made now) set cache now)).pretty
  obtain ⟨final, count, hcollect, hfinal⟩ := hfiles.exists_collectUnlisted
    (listed (s.continued made now) set cache now)
  rw [save, hmade]
  simp only [hwritten, hstored, hcollect]
  exact ⟨_, rfl, hfinal⟩

/-- One save after another. -/
theorem TakesFiles.exists_save (h : s.TakesFiles d) (set now : String) (cache : FileCache) :
    ∃ counts, (s.save d set cache now).outcome = .ok counts ∧
      s.TakesFiles (s.save d set cache now).disk :=
  exists_save_of_makeFolders h.makeFolders_eq h set now cache

end CacheStore

end ApiDoc
