import ApiDoc.Proofs.Entries

/-!
# Saves at different times

The time of a save is written into the manifest and used for nothing else. So two saves of the same
cache from the same disk, at different times, go through the same steps, end in the same way and
leave the same disk but for that time. What has to be shown is that nothing a save does behind the
manifest looks at the content of a file: `Disk.AlikeBut` relates disks that differ in the content of
one file, and every operation that decides something gives the same on both.
-/

namespace ApiDoc

namespace Disk

/-- Disks that differ at most in the content of one file. -/
structure AlikeBut (top : String) (a b : Disk) : Prop where
  current_eq : b.current = a.current
  others : ∀ place, place ≠ top → b.entries.get? place = a.entries.get? place
  first : ∃ content, a.entries.get? top = some (.file content)
  second : ∃ content, b.entries.get? top = some (.file content)

namespace AlikeBut

variable {top : String} {a b : Disk}

/-- What stands at a place is the same, or it is the file at either side. -/
theorem entry?_cases (h : AlikeBut top a b) (place : String) :
    b.entry? place = a.entry? place ∨
      ∃ x y, a.entry? place = some (.file x) ∧ b.entry? place = some (.file y) := by
  rw [ entry?, entry?]
  by_cases hroot : place = ""
  · exact .inl (by rw [if_pos hroot, if_pos hroot])
  · rw [if_neg hroot, if_neg hroot]
    by_cases htop : place = top
    · obtain ⟨x, hx⟩ := h.first
      obtain ⟨y, hy⟩ := h.second
      exact .inr ⟨x, y, by rw [htop, hx], by rw [htop, hy]⟩
    · exact .inl (h.others place htop)

theorem step_eq (h : AlikeBut top a b) : b.step = a.step := by
  funext place piece
  rw [step, step]
  rcases h.entry?_cases place with hsame | ⟨x, y, hx, hy⟩
  · rw [hsame]
  · rw [hx, hy]

/-- A path leads to the same place on both disks, or to none for the same reason. -/
theorem locate_eq (h : AlikeBut top a b) (path : String) : b.locate path = a.locate path := by
  rw [locate, locate, follow, follow, h.step_eq, h.current_eq]

theorem has_eq (h : AlikeBut top a b) (path : String) : b.has path = a.has path := by
  rw [has, has, find, find, h.locate_eq]
  cases a.locate path with
  | error e => rfl
  | ok place =>
    rcases h.entry?_cases place with hsame | ⟨x, y, hx, hy⟩
    · simp only [bind, Except.bind, hsame]
    · simp only [bind, Except.bind, hx, hy]

theorem keys_eq (h : AlikeBut top a b) : b.entries.keys = a.entries.keys := by
  have hkeys (m : NameMap Entry) : (m.map fun _ => ()).keys = m.keys := by
    rw [NameMap.keys, NameMap.map, NameMap.mapEntries, List.map_map]
    rfl
  rw [← hkeys a.entries, ← hkeys b.entries]
  refine congrArg NameMap.keys (NameMap.ext_get? fun place => ?_)
  rw [NameMap.get?_map, NameMap.get?_map]
  by_cases htop : place = top
  · obtain ⟨x, hx⟩ := h.first
    obtain ⟨y, hy⟩ := h.second
    rw [htop, hx, hy]
    rfl
  · rw [h.others place htop]

theorem list_eq (h : AlikeBut top a b) (path : String) : b.list path = a.list path := by
  rw [list, list, h.locate_eq, h.keys_eq]
  cases a.locate path with
  | error e => rfl
  | ok place =>
    rcases h.entry?_cases place with hsame | ⟨x, y, hx, hy⟩
    · simp only [bind, Except.bind, hsame]
    · simp only [bind, Except.bind, hx, hy]

/-- Another file is removed from both disks, or from none for the same reason. -/
theorem removeFile (h : AlikeBut top a b) {path : String} (hpath : placeOf a.current path ≠ top) :
    (∃ e, a.removeFile path = .error e ∧ b.removeFile path = .error e) ∨
      ∃ x y, a.removeFile path = .ok x ∧ b.removeFile path = .ok y ∧ AlikeBut top x y := by
  simp only [Disk.removeFile, h.locate_eq path]
  cases hl : a.locate path with
  | error e => exact .inl ⟨e, rfl, rfl⟩
  | ok place =>
    rw [← locate_eq_placeOf hl] at hpath
    have hsame : b.entry? place = a.entry? place := by
      rw [ entry?, entry?, h.others place hpath]
    simp only [bind, Except.bind, hsame]
    split
    · exact .inl ⟨_, rfl, rfl⟩
    · exact .inl ⟨_, rfl, rfl⟩
    · refine .inr ⟨_, _, rfl, rfl, h.current_eq, fun other hother => ?_, ?_, ?_⟩
      · rw [NameMap.get?_erase, NameMap.get?_erase, h.others other hother]
      · rw [NameMap.get?_erase_of_ne _ hpath.symm]
        exact h.first
      · rw [NameMap.get?_erase_of_ne _ hpath.symm]
        exact h.second

end AlikeBut

/-- Whether a file can be written does not depend on its content. -/
theorem write_other {d made : Disk} {path : String} {content : ByteArray}
    (h : d.write path content = .ok made) (other : ByteArray) :
    d.write path other = .ok (d.put (placeOf d.current path) (.file other)) := by
  rw [write] at h ⊢
  split at h
  · cases hf : d.follow path (Path.pieces (Path.bare path)).dropLast with
    | error e => simp [hf, bind, Except.bind] at h
    | ok holder =>
      cases hs : d.step holder "" with
      | error e => simp [hf, hs, bind, Except.bind] at h
      | ok place => simp [hf, hs, bind, Except.bind] at h
  · next hslash =>
    rw [if_neg hslash]
    cases hl : d.locate path with
    | error e => simp [hl, bind, Except.bind] at h
    | ok place =>
      rw [← locate_eq_placeOf hl]
      simp only [hl, bind, Except.bind] at h ⊢
      split at h
      · simp at h
      · rfl

theorem alikeBut_put (d : Disk) (place : String) (x y : ByteArray) :
    AlikeBut place (d.put place (.file x)) (d.put place (.file y)) where
  current_eq := rfl
  others other hother := by
    rw [put, put, NameMap.get?_insert_of_ne _ hother.symm, NameMap.get?_insert_of_ne _ hother.symm]
  first := ⟨x, NameMap.get?_insert_self ..⟩
  second := ⟨y, NameMap.get?_insert_self ..⟩

end Disk

namespace CacheStore

variable {s : CacheStore} {d : Disk}

/-- Collecting goes the same way whatever the manifest holds. -/
theorem collect_alikeBut {a b : Disk} (h : Disk.AlikeBut (s.manifestPlace a.current) a b)
    (live : List String) {names : List String}
    (hnames : ∀ name ∈ names, '/' ∉ name.toList ∧ Path.extension? name = some "json") :
    (s.collect live names b).2 = (s.collect live names a).2 ∧
      Disk.AlikeBut (s.manifestPlace a.current) (s.collect live names a).1
        (s.collect live names b).1 := by
  induction names generalizing a b with
  | nil => exact ⟨rfl, h⟩
  | cons name rest ih =>
    have hrest := fun other hother => hnames other (List.mem_cons_of_mem _ hother)
    obtain ⟨hslash, hext⟩ := hnames name List.mem_cons_self
    have hplace : Disk.placeOf a.current (Path.join s.filesPath name) ≠ s.manifestPlace a.current := by
      rw [s.placeOf_name a.current hslash hext]
      exact fun heq => s.manifestPlace_ne_namePlace a.current name heq.symm
    simp only [collect]
    split
    · exact ih h hrest
    · rcases h.removeFile hplace with ⟨e, ha, hb⟩ | ⟨x, y, ha, hb, hxy⟩
      · rw [ha, hb]
        exact ⟨rfl, h⟩
      · have hcurrent : x.current = a.current := (Disk.changesOnly_removeFile ha).current_eq
        rw [← hcurrent] at hxy ⊢
        obtain ⟨hout, halike⟩ := ih hxy hrest
        rw [ha, hb]
        exact ⟨by simp only [hout], halike⟩

theorem collectUnlisted_alikeBut {a b : Disk} (h : Disk.AlikeBut (s.manifestPlace a.current) a b)
    {m n : Manifest} (hkeys : n.keys = m.keys) :
    (s.collectUnlisted n b).2 = (s.collectUnlisted m a).2 ∧
      Disk.AlikeBut (s.manifestPlace a.current) (s.collectUnlisted m a).1
        (s.collectUnlisted n b).1 := by
  have hentries : s.entryNames b = s.entryNames a := by
    rw [entryNames, entryNames, h.has_eq, h.list_eq]
  rw [collectUnlisted, collectUnlisted, hentries, hkeys]
  cases hnames : s.entryNames a with
  | error e => exact ⟨rfl, h⟩
  | ok names => exact collect_alikeBut h m.keys fun name => mem_entryNames hnames

/-! ### The manifest of a save -/

def withManifest (s : CacheStore) (d : Disk) (m : Manifest) : Disk :=
  d.put (s.manifestPlace d.current) (.file (Codec.manifest m).pretty.toUTF8)

theorem manifestPlace_ne_top (s : CacheStore) (current : String) : s.manifestPlace current ≠ "" :=
  Disk.child_ne_top _ _

/-- Where one manifest can be written, any other can. -/
theorem writeText_manifest {m : Manifest} {stored : Disk}
    (h : d.writeText s.manifestPath (Codec.manifest m).pretty = .ok stored) (n : Manifest) :
    d.writeText s.manifestPath (Codec.manifest n).pretty = .ok (s.withManifest d n) := by
  rw [withManifest, ← s.placeOf_manifestPath]
  exact Disk.write_other h _

theorem alikeBut_withManifest (s : CacheStore) (d : Disk) (m n : Manifest) :
    Disk.AlikeBut (s.manifestPlace (s.withManifest d m).current) (s.withManifest d m)
      (s.withManifest d n) :=
  Disk.alikeBut_put d (s.manifestPlace d.current) _ _

/-- Collecting keeps the manifest that was just written. -/
theorem get?_collectUnlisted_withManifest (s : CacheStore) (d : Disk) (m : Manifest) :
    (s.collectUnlisted m (s.withManifest d m)).1.entries.get? (s.manifestPlace d.current) =
      some (.file (Codec.manifest m).pretty.toUTF8) := by
  have hput : Disk.entry? (s.withManifest d m) (s.manifestPlace d.current) =
      some (.file (Codec.manifest m).pretty.toUTF8) := by
    rw [withManifest, Disk.entry?_put d (s.manifestPlace_ne_top _), if_pos rfl]
  have hkept := (s.changesOnly_collectUnlisted m (s.withManifest d m)).others _ _
    (s.not_isUnlisted_manifestPlace d.current m.keys) hput
  rwa [manifestPlace_eq_child, Disk.entry?_child] at hkept

/-- The manifest that is written at another time. -/
theorem listed_continued_later (s : CacheStore) (d : Disk) (set : String) (cache : FileCache)
    (now later : String) : listed (s.continued d later) set cache later =
      { listed (s.continued d now) set cache now with writtenAt := later } := by
  rw [continued, continued]
  split
  · split <;> rfl
  · rfl

/-- Disks that hold the same but for the time in the manifest of a cache directory. -/
structure SameContent (s : CacheStore) (now later : String) (a b : Disk) : Prop where
  current_eq : b.current = a.current
  others : ∀ place, place ≠ s.manifestPlace a.current →
    b.entries.get? place = a.entries.get? place
  manifest : b.entries.get? (s.manifestPlace a.current) =
      a.entries.get? (s.manifestPlace a.current) ∨
    ∃ m : Manifest, a.entries.get? (s.manifestPlace a.current) =
        some (.file (Codec.manifest { m with writtenAt := now }).pretty.toUTF8) ∧
      b.entries.get? (s.manifestPlace a.current) =
        some (.file (Codec.manifest { m with writtenAt := later }).pretty.toUTF8)

theorem SameContent.refl (s : CacheStore) (now later : String) (d : Disk) :
    s.SameContent now later d d := ⟨rfl, fun _ _ => rfl, .inl rfl⟩

/-- A save that succeeds does so at any other time, counts the same and leaves the same but for the
time. -/
theorem save_later {set now : String} {cache : FileCache} {counts : SaveCounts}
    (h : (s.save d set cache now).outcome = .ok counts) (later : String) :
    (s.save d set cache later).outcome = .ok counts ∧
      s.SameContent now later (s.save d set cache now).disk (s.save d set cache later).disk := by
  obtain ⟨made, written, stored, tallied, n, hmade, hwritten, hstored, hcollect, rfl⟩ :=
    save_steps h
  have hlater := s.listed_continued_later made set cache now later
  generalize hnew : listed (s.continued made later) set cache later = new at hlater
  generalize hold : listed (s.continued made now) set cache now = old at hstored hcollect hlater
  have hnow : old = { old with writtenAt := now } := by
    rw [← hold]
    rfl
  obtain rfl : stored = s.withManifest written old :=
    Except.ok.inj (hstored.symm.trans (writeText_manifest hstored old))
  have hkeys : new.keys = old.keys := by rw [hlater, Manifest.keys, Manifest.keys]
  obtain ⟨hout, halike⟩ := collectUnlisted_alikeBut (s.alikeBut_withManifest written old new) hkeys
  have hfirst := s.get?_collectUnlisted_withManifest written old
  have hsecond := s.get?_collectUnlisted_withManifest written new
  have hcurrent := (s.changesOnly_collectUnlisted old (s.withManifest written old)).current_eq
  rw [hcollect] at hout halike hfirst hcurrent
  -- the later save goes through the same steps
  have hsave : s.save d set cache later = ⟨(s.collectUnlisted new (s.withManifest written new)).1,
      cache.allSaved, .ok { tallied with collected := n }⟩ := by
    rw [CacheStore.save, hmade]
    simp only [hwritten, hnew, writeText_manifest hstored new]
    cases hcase : s.collectUnlisted new (s.withManifest written new) with
    | mk final outcome =>
      rw [hcase] at hout
      obtain rfl : outcome = .ok n := hout
      rfl
  rw [hsave]
  refine ⟨rfl, halike.current_eq, ?_, .inr ⟨old, ?_, ?_⟩⟩
  · rw [hcurrent]
    exact halike.others
  · rw [hcurrent, ← hnow]
    exact hfirst
  · rw [hcurrent, ← hlater]
    exact hsecond

end CacheStore

end ApiDoc
