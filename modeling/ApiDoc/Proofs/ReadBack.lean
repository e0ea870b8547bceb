import ApiDoc.Proofs.Places

/-!
# What was written can be read

A text that is written is read back from its path, until its place is written again or erased. The
reason is that operations on a disk never turn a folder into anything else: a path that could be
followed when its file was written can be followed for ever after. `Disk.ChangesOnly` says this
together with the places an operation may touch, so that a sequence of operations is described by
the union of theirs.

For a cache directory the places are those of the manifest and of the entries: a save touches the
manifest, the entries of the saved paths, and the entries that no set lists, and nothing else.
-/

namespace ApiDoc

/-! ### Names and their extensions -/

namespace Path

theorem slash_not_mem_of_mem_pieces {path piece : String} (h : piece ∈ pieces path) :
    '/' ∉ piece.toList := by
  obtain ⟨cs, hcs, rfl⟩ := List.mem_map.mp h
  rw [String.toList_ofList]
  exact Text.not_mem_of_mem_splitOn hcs

/-- A name with an extension is one step down, and its own last name. -/
theorem fileName?_of_extension? {name extension : String} (hslash : '/' ∉ name.toList)
    (h : extension? name = some extension) :
    fileName? name = some name ∧ name ≠ "" ∧ name ≠ "." ∧ name ≠ ".." := by
  have hsome : fileName? name ≠ none := by
    intro hnone
    simp [extension?, stemAndExtension?, hnone] at h
  have hmoves : moves name = [name].filter fun p => !isIdle p := by
    rw [moves, pieces_name hslash]
  have hidle : isIdle name = false := by
    by_contra hidle
    rw [Bool.not_eq_false] at hidle
    simp [fileName?, hmoves, hidle] at hsome
  have hlast : moves name = [name] := by simp [hmoves, hidle]
  have hup : name ≠ ".." := by
    rintro rfl
    simp [fileName?, hlast] at hsome
  have hne : name ≠ "" ∧ name ≠ "." := by simpa [isIdle] using hidle
  refine ⟨?_, hne.1, hne.2, hup⟩
  rw [fileName?, hlast]
  simp [hup]

/-- What stands before the extension of an entry is its key. -/
theorem stem?_entryName {key extension : String} (hslash : '/' ∉ key.toList)
    (h : extension? (key ++ ".json") = some extension) : stem? (key ++ ".json") = some key := by
  have hname : '/' ∉ (key ++ ".json").toList := by simpa using hslash
  have hfile := (fileName?_of_extension? hname h).1
  have hcut : Text.cutLast? '.' (key ++ ".json").toList = some (key.toList, "json".toList) := by
    rw [String.toList_append]
    exact Text.cutLast?_append key.toList (by decide)
  rw [extension?, stemAndExtension?, hfile] at h
  rw [stem?, stemAndExtension?, hfile]
  simp only [Option.bind_eq_bind, Option.bind_some, hcut] at h ⊢
  split at h
  · simp at h
  · next hempty => simp [hempty]

end Path

/-! ### Operations that touch some places -/

namespace Disk

/-- A disk that differs from an older one in the given places at most, and there only in that files
came, went or changed. -/
structure ChangesOnly (touched : String → Prop) (old new : Disk) : Prop where
  current_eq : new.current = old.current
  folders : ∀ place, old.entry? place = some .folder → new.entry? place = some .folder
  others : ∀ place e, ¬ touched place → old.entry? place = some e → new.entry? place = some e

namespace ChangesOnly

variable {touched more : String → Prop} {a b c : Disk}

theorem refl (touched : String → Prop) (d : Disk) : ChangesOnly touched d d :=
  ⟨rfl, fun _ h => h, fun _ _ _ h => h⟩

theorem trans (hab : ChangesOnly touched a b) (hbc : ChangesOnly touched b c) :
    ChangesOnly touched a c where
  current_eq := hbc.current_eq.trans hab.current_eq
  folders place h := hbc.folders place (hab.folders place h)
  others place e ht h := hbc.others place e ht (hab.others place e ht h)

theorem mono (h : ChangesOnly touched a b) (hle : ∀ place, touched place → more place) :
    ChangesOnly more a b where
  current_eq := h.current_eq
  folders := h.folders
  others place e ht := h.others place e fun htouched => ht (hle place htouched)

theorem step_ok (h : ChangesOnly touched a b) {place piece next : String}
    (hs : a.step place piece = .ok next) : b.step place piece = .ok next := by
  have hfolder : a.entry? place = some .folder := by
    rw [step] at hs
    split at hs
    · simp at hs
    · simp at hs
    · next he => exact he
  rw [step, hfolder] at hs
  rw [step, h.folders place hfolder]
  exact hs

theorem foldlM_step_ok (h : ChangesOnly touched a b) {pieces : List String} {start place : String}
    (hs : pieces.foldlM a.step start = .ok place) : pieces.foldlM b.step start = .ok place := by
  induction pieces generalizing start with
  | nil => exact hs
  | cons piece rest ih =>
    rw [List.foldlM_cons] at hs ⊢
    cases hstep : a.step start piece with
    | error e => simp [hstep, bind, Except.bind] at hs
    | ok next =>
      rw [hstep] at hs
      rw [h.step_ok hstep]
      exact ih hs

/-- A path that could be followed can still be followed, to the same place. -/
theorem locate_ok (h : ChangesOnly touched a b) {path place : String}
    (hl : a.locate path = .ok place) : b.locate path = .ok place := by
  rw [locate, follow] at hl ⊢
  rw [h.current_eq]
  split at hl
  · simp at hl
  · split at hl
    · simp at hl
    · split at hl
      · simp at hl
      · next hempty hnul hlong =>
        rw [if_neg hempty, if_neg hnul, if_neg hlong]
        exact h.foldlM_step_ok hl

end ChangesOnly

/-- A text is read from a path that leads to a file with it. -/
theorem readText_iff {d : Disk} {path text : String} :
    d.readText path = .ok text ↔ ∃ content, d.locate path = .ok (placeOf d.current path) ∧
      d.entry? (placeOf d.current path) = some (.file content) ∧
      String.fromUTF8? content = some text := by
  constructor
  · intro h
    rw [readText, read, find] at h
    cases hl : d.locate path with
    | error e => simp [hl, bind, Except.bind] at h
    | ok place =>
      rw [← locate_eq_placeOf hl]
      simp only [hl, bind, Except.bind] at h
      cases he : d.entry? place with
      | none => simp [he] at h
      | some entry =>
        cases entry with
        | folder => simp [he] at h
        | file content =>
          refine ⟨content, rfl, rfl, ?_⟩
          simp only [he] at h
          split at h
          · next s hs => rw [hs, Except.ok.inj h]
          · simp at h
  · rintro ⟨content, hl, he, htext⟩
    simp [readText, read, find, hl, he, htext, bind, Except.bind]

/-- A text stays readable as long as its place is not touched. -/
theorem ChangesOnly.readText_ok {touched : String → Prop} {old new : Disk}
    (h : ChangesOnly touched old new) {path text : String}
    (hplace : ¬ touched (placeOf old.current path)) (hread : old.readText path = .ok text) :
    new.readText path = .ok text := by
  obtain ⟨content, hl, he, htext⟩ := readText_iff.mp hread
  refine readText_iff.mpr ⟨content, ?_, ?_, htext⟩
  · rw [h.current_eq]
    exact h.locate_ok hl
  · rw [h.current_eq]
    exact h.others _ _ hplace he

theorem has_of_readText {d : Disk} {path text : String} (h : d.readText path = .ok text) :
    d.has path = true := by
  obtain ⟨content, hl, he, -⟩ := readText_iff.mp h
  simp [has, find, hl, he, bind, Except.bind]

/-! ### Each operation -/

theorem entry?_put (d : Disk) {place : String} (hplace : place ≠ "") (e : Entry) (other : String) :
    Disk.entry? (d.put place e) other = if place = other then some e else d.entry? other := by
  rw [ entry?, entry?, put, NameMap.get?_insert]
  by_cases ho : other = ""
  · subst ho
    rw [if_pos rfl, if_neg hplace, if_pos rfl]
  · rw [if_neg ho, if_neg ho]

theorem ne_top_of_not_folder {d : Disk} {place : String} (h : d.entry? place ≠ some .folder) :
    place ≠ "" := by
  rintro rfl
  exact h rfl

/-- A file at a place that is no folder touches only this place. -/
theorem changesOnly_put_file {d : Disk} {place : String} (h : d.entry? place ≠ some .folder)
    (content : ByteArray) : ChangesOnly (· = place) d (d.put place (.file content)) where
  current_eq := rfl
  folders other hother := by
    have hne : place ≠ other := fun he => h (he ▸ hother)
    rw [ entry?_put d (ne_top_of_not_folder h), if_neg hne]
    exact hother
  others other e hne hother := by
    rw [ entry?_put d (ne_top_of_not_folder h), if_neg (Ne.symm hne)]
    exact hother

/-- A folder at a vacant place touches nothing that was there. -/
theorem changesOnly_put_folder {d : Disk} {place : String} (h : d.entry? place = none)
    (touched : String → Prop) : ChangesOnly touched d (d.put place .folder) := by
  have hfolder : d.entry? place ≠ some .folder := by simp [h]
  have hplace : place ≠ "" := ne_top_of_not_folder hfolder
  have hkept : ∀ other e, d.entry? other = some e → Disk.entry? (d.put place .folder) other = some e := by
    intro other e hother
    have hne : place ≠ other := by
      rintro rfl
      simp [h] at hother
    rw [ entry?_put d hplace, if_neg hne]
    exact hother
  exact ⟨rfl, fun other => hkept other _, fun other e _ => hkept other e⟩

/-- A write leads to a place that is no folder, and puts the file there. -/
theorem locate_of_write {d made : Disk} {path : String} {content : ByteArray}
    (h : d.write path content = .ok made) : d.locate path = .ok (placeOf d.current path) ∧
      d.entry? (placeOf d.current path) ≠ some .folder := by
  rw [write] at h
  split at h
  · cases hf : d.follow path (Path.pieces (Path.bare path)).dropLast with
    | error e => simp [hf, bind, Except.bind] at h
    | ok holder =>
      cases hs : d.step holder "" with
      | error e => simp [hf, hs, bind, Except.bind] at h
      | ok place => simp [hf, hs, bind, Except.bind] at h
  · cases hl : d.locate path with
    | error e => simp [hl, bind, Except.bind] at h
    | ok place =>
      rw [← locate_eq_placeOf hl]
      simp only [hl, bind, Except.bind] at h
      split at h
      · simp at h
      · next hne => exact ⟨rfl, fun he => hne he⟩

theorem changesOnly_writeText {d made : Disk} {path text : String}
    (h : d.writeText path text = .ok made) :
    ChangesOnly (· = placeOf d.current path) d made := by
  rw [write_ok h]
  exact changesOnly_put_file (locate_of_write h).2 _

/-- What was just written is read. -/
theorem readText_of_writeText {d made : Disk} {path text : String}
    (h : d.writeText path text = .ok made) : made.readText path = .ok text := by
  have hchange := changesOnly_writeText h
  obtain ⟨hl, hfolder⟩ := locate_of_write h
  have hput := write_ok h
  refine readText_iff.mpr ⟨text.toUTF8, ?_, ?_, Text.fromUTF8?_toUTF8 text⟩
  · rw [hchange.current_eq]
    exact hchange.locate_ok hl
  · rw [hchange.current_eq, hput, entry?_put d (ne_top_of_not_folder hfolder), if_pos rfl]

theorem changesOnly_makeFolder {d made : Disk} {path : String} (h : d.makeFolder path = .ok made)
    (touched : String → Prop) : ChangesOnly touched d made := by
  obtain ⟨place, -, hvacant, rfl⟩ := makeFolder_ok h
  exact changesOnly_put_folder hvacant touched

theorem changesOnly_makeFirst {d made : Disk} {paths : List String}
    (h : d.makeFirst paths = .ok made) (touched : String → Prop) : ChangesOnly touched d made := by
  induction paths generalizing made with
  | nil => exact Except.ok.inj h ▸ .refl touched d
  | cons path holders ih =>
    rw [makeFirst] at h
    split at h
    · exact Except.ok.inj h ▸ .refl touched d
    · split at h
      · next first hfirst => exact Except.ok.inj h ▸ changesOnly_makeFolder hfirst touched
      · cases hheld : d.makeFirst holders with
        | error e => simp [hheld, bind, Except.bind] at h
        | ok held =>
          simp only [hheld, bind, Except.bind] at h
          split at h
          · next second hsecond =>
            exact Except.ok.inj h ▸ (ih hheld).trans (changesOnly_makeFolder hsecond touched)
          · split at h
            · exact Except.ok.inj h ▸ ih hheld
            · simp at h
      · split at h
        · exact Except.ok.inj h ▸ .refl touched d
        · simp at h

theorem changesOnly_removeFile {d left : Disk} {path : String} (h : d.removeFile path = .ok left) :
    ChangesOnly (· = placeOf d.current path) d left := by
  obtain ⟨⟨content, hfile⟩, rfl⟩ := removeFile_ok h
  have hkept : ∀ other e, other ≠ placeOf d.current path → d.entry? other = some e →
      entry? { d with entries := d.entries.erase (placeOf d.current path) } other = some e := by
    intro other e hne hother
    rw [ entry?] at hother ⊢
    split
    · next htop => rwa [if_pos htop] at hother
    · next htop =>
      rw [if_neg htop] at hother
      rw [NameMap.get?_erase_of_ne _ hne]
      exact hother
  refine ⟨rfl, fun other hother => hkept other _ ?_ hother, fun other e => hkept other e⟩
  rintro rfl
  simp [hfile] at hother

/-- What a listing shows are single names. -/
theorem slash_not_mem_of_mem_list {d : Disk} {path name : String} {names : List String}
    (h : d.list path = .ok names) (hname : name ∈ names) : '/' ∉ name.toList := by
  rw [list] at h
  cases hl : d.locate path with
  | error e => simp [hl, bind, Except.bind] at h
  | ok place =>
    simp only [hl, bind, Except.bind] at h
    split at h
    · simp at h
    · simp at h
    · rw [← Except.ok.inj h] at hname
      obtain ⟨other, -, hother⟩ := List.mem_filterMap.mp hname
      split at hother
      · next found hfound =>
        obtain ⟨rest, -, hrest⟩ := Option.map_eq_some_iff.mp hfound
        rw [← Option.some.inj hother]
        exact Path.slash_not_mem_of_mem_pieces (hrest ▸ List.mem_cons_self)
      · simp at hother

end Disk

/-! ### Steps of a save -/

namespace CacheStore

variable {s : CacheStore}

theorem entryPlace_inj {current key other : String}
    (h : s.entryPlace current key = s.entryPlace current other) : key = other := by
  rw [← String.toList_inj] at h ⊢
  simpa [entryPlace, Disk.child] using h

/-- The places of the entries of some paths of a set. -/
def IsEntryOf (s : CacheStore) (current set : String) (paths : List String) (place : String) :
    Prop :=
  ∃ path ∈ paths, place = s.entryPlace current (Manifest.entryKey set path)

/-- The places of names in the folder of entries whose key is not listed. -/
def IsUnlisted (s : CacheStore) (current : String) (live : List String) (place : String) : Prop :=
  ∃ name, (Path.stem? name).getD "" ∉ live ∧ (∃ extension, Path.extension? name = some extension) ∧
    place = Disk.child (Disk.child (s.place current) "files") name

theorem not_isUnlisted_manifestPlace (s : CacheStore) (current : String) (live : List String) :
    ¬ s.IsUnlisted current live (s.manifestPlace current) := by
  rintro ⟨name, -, -, h⟩
  have := congrArg String.toList h
  simp [manifestPlace, Disk.child] at this

/-- A listed entry is not collected. -/
theorem not_isUnlisted_entryPlace (s : CacheStore) {current key : String} {live : List String}
    (hslash : '/' ∉ key.toList) (hlive : key ∈ live) :
    ¬ s.IsUnlisted current live (s.entryPlace current key) := by
  rintro ⟨name, hname, ⟨extension, hext⟩, h⟩
  have heq : name = key ++ ".json" := by
    rw [← String.toList_inj] at h ⊢
    simpa [entryPlace, Disk.child, eq_comm] using h
  subst heq
  rw [Path.stem?_entryName hslash hext] at hname
  exact hname hlive

theorem changesOnly_makeFolders {d made : Disk} (h : s.makeFolders d = .ok made)
    (touched : String → Prop) : Disk.ChangesOnly touched d made := by
  rw [makeFolders] at h
  split at h
  · simp at h
  · split at h
    · next next hnext => exact Except.ok.inj h ▸ Disk.changesOnly_makeFirst hnext touched
    · simp at h

theorem changesOnly_writeEntry {set path : String} {cached : CachedFile} {d next : Disk}
    {written : Bool} (h : s.writeEntry set path cached d = .ok (next, written)) :
    Disk.ChangesOnly (s.IsEntryOf d.current set [path]) d next := by
  rw [writeEntry] at h
  split at h
  · cases hw : d.writeText (s.entryPath (Manifest.entryKey set path))
        (Codec.file cached.file).compact with
    | error e => simp [hw, Except.map] at h
    | ok stored =>
      simp only [hw, Except.map, Except.ok.injEq, Prod.mk.injEq] at h
      rw [← h.1]
      refine (Disk.changesOnly_writeText hw).mono fun place hplace => ?_
      rw [s.placeOf_entryPath _ (Manifest.slash_not_mem_entryKey set path)] at hplace
      exact ⟨path, List.mem_cons_self, hplace⟩
  · simp only [Except.ok.injEq, Prod.mk.injEq] at h
    exact h.1 ▸ .refl _ d

theorem changesOnly_writeEntries (s : CacheStore) (set : String)
    (entries : List (String × CachedFile)) (d : Disk) :
    Disk.ChangesOnly (s.IsEntryOf d.current set (entries.map Prod.fst)) d
      (s.writeEntries set entries d).1 := by
  induction entries generalizing d with
  | nil => exact .refl _ d
  | cons e rest ih =>
    rw [writeEntries]
    split
    · exact .refl _ d
    · next next written hnext =>
      have hfirst := changesOnly_writeEntry hnext
      have hrest := ih next
      rw [hfirst.current_eq] at hrest
      refine (hfirst.mono ?_).trans (hrest.mono ?_)
      · rintro place ⟨path, hpath, hplace⟩
        exact ⟨path, List.mem_cons.mpr (.inl (List.mem_singleton.mp hpath)), hplace⟩
      · rintro place ⟨path, hpath, hplace⟩
        exact ⟨path, List.mem_cons_of_mem _ hpath, hplace⟩

/-- The names of entries are names in a folder, with an extension. -/
theorem mem_entryNames {d : Disk} {names : List String} (h : s.entryNames d = .ok names)
    {name : String} (hname : name ∈ names) :
    '/' ∉ name.toList ∧ Path.extension? name = some "json" := by
  rw [entryNames] at h
  split at h
  · cases hlist : d.list s.filesPath with
    | error e => simp [hlist, bind, Except.bind] at h
    | ok all =>
      simp only [hlist, bind, Except.bind, pure, Except.pure, Except.ok.injEq] at h
      subst h
      obtain ⟨hall, hext⟩ := List.mem_filter.mp hname
      exact ⟨Disk.slash_not_mem_of_mem_list hlist hall, of_decide_eq_true hext⟩
  · simp only [Except.ok.injEq] at h
    subst h
    simp at hname

theorem placeOf_name (s : CacheStore) (current : String) {name extension : String}
    (hslash : '/' ∉ name.toList) (hext : Path.extension? name = some extension) :
    Disk.placeOf current (Path.join s.filesPath name) =
      Disk.child (Disk.child (s.place current) "files") name := by
  obtain ⟨-, hempty, hdot, hup⟩ := Path.fileName?_of_extension? hslash hext
  rw [Disk.placeOf_join current _ ⟨hempty, hslash⟩, Disk.move_name hempty hdot hup, filesPath,
    Disk.placeOf_join current s.dir ⟨by decide, by decide⟩,
    Disk.move_name (by decide) (by decide) (by decide)]
  rfl

/-- Collecting removes files that are not listed, however far it gets. -/
theorem changesOnly_collect (s : CacheStore) (live : List String) {names : List String} (d : Disk)
    (hnames : ∀ name ∈ names, '/' ∉ name.toList ∧ Path.extension? name = some "json") :
    Disk.ChangesOnly (s.IsUnlisted d.current live) d (s.collect live names d).1 := by
  induction names generalizing d with
  | nil => exact .refl _ d
  | cons name rest ih =>
    have hrest := fun other hother => hnames other (List.mem_cons_of_mem _ hother)
    rw [collect]
    split
    · exact ih d hrest
    · next hunlisted =>
      split
      · exact .refl _ d
      · next next hnext =>
        obtain ⟨hslash, hext⟩ := hnames name List.mem_cons_self
        have hfirst := Disk.changesOnly_removeFile hnext
        have hothers := ih next hrest
        rw [hfirst.current_eq] at hothers
        refine (hfirst.mono fun place hplace => ?_).trans hothers
        rw [s.placeOf_name d.current hslash hext] at hplace
        exact ⟨name, by simpa using hunlisted, ⟨_, hext⟩, hplace⟩

theorem changesOnly_collectUnlisted (s : CacheStore) (m : Manifest) (d : Disk) :
    Disk.ChangesOnly (s.IsUnlisted d.current m.keys) d (s.collectUnlisted m d).1 := by
  rw [collectUnlisted]
  split
  · exact .refl _ d
  · next names hnames => exact s.changesOnly_collect m.keys d fun name => mem_entryNames hnames

/-! ### What a save leaves -/

/-- A save that succeeds goes through all its steps, and its counts come from them. -/
theorem save_steps {d : Disk} {set now : String} {cache : FileCache} {counts : SaveCounts}
    (h : (s.save d set cache now).outcome = .ok counts) :
    ∃ made written stored tallied collected, s.makeFolders d = .ok made ∧
      s.writeEntries set cache.entries.entries made = (written, .ok tallied) ∧
      written.writeText s.manifestPath
        (Codec.manifest (listed (s.continued made now) set cache now)).pretty = .ok stored ∧
      s.collectUnlisted (listed (s.continued made now) set cache now) stored =
        ((s.save d set cache now).disk, .ok collected) ∧
      counts = { tallied with collected := collected } := by
  rw [save] at h ⊢
  split at h
  · simp at h
  · next made hmade =>
    dsimp only at h ⊢
    split at h
    · simp at h
    · next written tallied hwritten =>
      split at h
      · simp at h
      · next stored hstored =>
        split at h
        · simp at h
        · next final n hcollect =>
          refine ⟨made, written, stored, tallied, n, hmade, hwritten, hstored, ?_, ?_⟩
          · simp only [hcollect]
          · exact (Except.ok.inj h).symm

/-- The disk that a save leaves which succeeds. -/
theorem save_ok {d : Disk} {set now : String} {cache : FileCache} {counts : SaveCounts}
    (h : (s.save d set cache now).outcome = .ok counts) :
    ∃ made written stored tallied, s.makeFolders d = .ok made ∧
      s.writeEntries set cache.entries.entries made = (written, .ok tallied) ∧
      written.writeText s.manifestPath
        (Codec.manifest (listed (s.continued made now) set cache now)).pretty = .ok stored ∧
      (s.save d set cache now).disk =
        (s.collectUnlisted (listed (s.continued made now) set cache now) stored).1 := by
  obtain ⟨made, written, stored, tallied, n, hmade, hwritten, hstored, hcollect, -⟩ := save_steps h
  exact ⟨made, written, stored, tallied, hmade, hwritten, hstored, by rw [hcollect]⟩

end CacheStore

end ApiDoc
