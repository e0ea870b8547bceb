import ApiDoc.Cache.Store
import Mathlib.Data.List.TakeDrop

/-!
# Places of paths

There are no links on a disk, so what a disk holds decides whether a path can be followed, but not
where it leads: `Disk.placeOf` is that place, computed from the text of the path alone. The files of
a cache directory have places of their own below it.
-/

namespace ApiDoc

/-! ### Texts and their pieces -/

namespace Text

theorem splitOn_append (sep : Char) (a b : List Char) :
    splitOn sep (a ++ sep :: b) = splitOn sep a ++ splitOn sep b := by
  induction a with
  | nil => simp [splitOn]
  | cons c a ih =>
    rw [List.cons_append, splitOn, splitOn, ih]
    by_cases h : (c == sep) = true
    · simp [h]
    · simp only [h, Bool.false_eq_true, if_false]
      cases hs : splitOn sep a with
      | nil => exact absurd hs (splitOn_ne_nil sep a)
      | cons part parts => rfl

theorem splitOn_of_not_mem {sep : Char} {cs : List Char} (h : sep ∉ cs) :
    splitOn sep cs = [cs] := by
  induction cs with
  | nil => rfl
  | cons c cs ih =>
    obtain ⟨hc, hcs⟩ := not_or.mp (mt List.mem_cons.mpr h)
    have hne : (c == sep) = false := by simpa using Ne.symm hc
    rw [splitOn, hne, ih hcs]
    rfl

theorem not_mem_of_mem_splitOn {sep : Char} {cs part : List Char} (h : part ∈ splitOn sep cs) :
    sep ∉ part := by
  induction cs generalizing part with
  | nil => simp_all [splitOn]
  | cons c cs ih =>
    rw [splitOn] at h
    split at h
    · rcases List.mem_cons.mp h with rfl | h
      · simp
      · exact ih h
    · next hc =>
      have hne : sep ≠ c := fun heq => hc (by simp [heq])
      cases hs : splitOn sep cs with
      | nil => exact absurd hs (splitOn_ne_nil sep cs)
      | cons first parts =>
        rw [hs] at h ih
        rcases List.mem_cons.mp h with rfl | h
        · simpa [hne] using ih List.mem_cons_self
        · exact ih (List.mem_cons_of_mem _ h)

theorem cutLast?_append {sep : Char} (front : List Char) {back : List Char} (h : sep ∉ back) :
    cutLast? sep (front ++ sep :: back) = some (front, back) := by
  have hback : ∀ c ∈ back.reverse, (c != sep) = true := by
    intro c hc
    rw [bne_iff_ne]
    rintro rfl
    exact h (List.mem_reverse.mp hc)
  have hspan : (back.reverse ++ sep :: front.reverse).span (· != sep) =
      (back.reverse, sep :: front.reverse) := by
    rw [List.span_eq_takeWhile_dropWhile, List.takeWhile_append_of_pos hback,
      List.dropWhile_append_of_pos hback]
    simp
  rw [cutLast?]
  simp only [List.reverse_append, List.reverse_cons, List.append_assoc, List.singleton_append,
    hspan, List.reverse_reverse]

theorem append_of_cutLast? {sep : Char} {cs front back : List Char}
    (h : cutLast? sep cs = some (front, back)) : front ++ sep :: back = cs := by
  rw [cutLast?, List.span_eq_takeWhile_dropWhile] at h
  split at h
  · simp at h
  · next taken c dropped heq =>
    obtain ⟨htake, hdrop⟩ := Prod.mk.inj heq
    cases h
    have hsep : c = sep := by
      have hne : cs.reverse.dropWhile (· != sep) ≠ [] := by simp [hdrop]
      simpa [hdrop] using List.head_dropWhile_not (· != sep) hne
    have hwhole := List.takeWhile_append_dropWhile (p := (· != sep)) (l := cs.reverse)
    rw [htake, hdrop, hsep] at hwhole
    have := congrArg List.reverse hwhole
    simpa using this

theorem fromUTF8?_toUTF8 (s : String) : String.fromUTF8? s.toUTF8 = some s := by
  have hvalid : s.toUTF8.IsValidUTF8 := s.isValidUTF8
  rw [String.fromUTF8?, dif_pos hvalid]
  rfl

end Text

namespace Path

/-- A text that can be one piece of a path. -/
def IsName (name : String) : Prop := name ≠ "" ∧ '/' ∉ name.toList

theorem IsName.head?_ne {name : String} (h : IsName name) : name.toList.head? ≠ some '/' := by
  intro he
  cases hn : name.toList with
  | nil => simp [hn] at he
  | cons c cs =>
    have hc : c = '/' := by simpa [hn] using he
    exact h.2 (by simp [hn, hc])

theorem lead_ne_top {name : String} (h : name.toList.head? ≠ some '/') : lead name ≠ .top := by
  rw [lead, if_neg h]
  split <;> simp

variable {front base sub : String}

theorem pieces_append (a b : String) :
    pieces (a ++ "/" ++ b) = pieces a ++ pieces b := by
  simp [pieces, Text.parts, Text.splitOn_append]

theorem pieces_name {name : String} (h : '/' ∉ name.toList) : pieces name = [name] := by
  simp [pieces, Text.parts, Text.splitOn_of_not_mem h]

theorem pieces_ne_nil (path : String) : pieces path ≠ [] := by
  rw [pieces, Text.parts, ne_eq, List.map_eq_nil_iff]
  exact Text.splitOn_ne_nil '/' path.toList

theorem moves_append (front back : String) :
    moves (front ++ "/" ++ back) = moves front ++ moves back := by
  rw [moves, pieces_append, List.filter_append, ← moves, ← moves]

theorem empty_join (hsub : lead sub ≠ .top) : join "" sub = sub := by
  rw [join, if_neg hsub]
  simp

/-- The text in front of the slash that a path is followed by. -/
def Fronts (front base : String) : Prop := base = front ∨ base = front ++ "/"

theorem exists_fronts (hb : base ≠ "") (hsub : lead sub ≠ .top) :
    ∃ front, Fronts front base ∧ join base sub = front ++ "/" ++ sub := by
  rw [join, if_neg hsub]
  by_cases hlast : base.toList.getLast? = some '/'
  · obtain ⟨front, hfront⟩ := List.getLast?_eq_some_iff.mp hlast
    have hbase : base = String.ofList front ++ "/" := by
      rw [← String.toList_inj]
      simpa using hfront
    refine ⟨String.ofList front, .inr hbase, ?_⟩
    rw [if_pos (by simp [hlast]), hbase]
  · refine ⟨base, .inl rfl, ?_⟩
    rw [if_neg (by simp [hlast, hb])]

theorem Fronts.moves_eq (h : Fronts front base) : moves base = moves front := by
  rcases h with rfl | rfl
  · rfl
  · have hslash : front ++ "/" = front ++ "/" ++ "" := by simp
    rw [hslash, moves_append]
    exact List.append_nil _

theorem Fronts.lead_eq (h : Fronts front base) (hb : base ≠ "") (back : String) :
    lead (front ++ "/" ++ back) = lead base := by
  have hhead : (front ++ "/" ++ back).toList.head? = base.toList.head? := by
    rcases h with rfl | rfl
    · cases hl : base.toList with
      | nil => exact absurd (String.toList_eq_nil_iff.mp hl) hb
      | cons c cs => simp [hl]
    · cases hl : front.toList <;> simp [hl]
  have hpiece : (pieces (front ++ "/" ++ back)).head? = (pieces base).head? := by
    have hfront (more : List String) : (pieces front ++ more).head? = (pieces front).head? := by
      obtain ⟨first, rest, hpieces⟩ := List.exists_cons_of_ne_nil (pieces_ne_nil front)
      rw [hpieces]
      rfl
    rw [pieces_append, hfront]
    rcases h with rfl | rfl
    · rfl
    · have hslash : front ++ "/" = front ++ "/" ++ "" := by simp
      rw [hslash, pieces_append, hfront]
  rw [lead, lead, hhead, hpiece]

/-- A path followed by a name starts where the path does. -/
theorem lead_join_iff {name : String} (h : IsName name) (hb : base ≠ "") :
    lead (join base name) = .top ↔ lead base = .top := by
  obtain ⟨front, hfront, hjoin⟩ := exists_fronts hb (lead_ne_top h.head?_ne)
  rw [hjoin, hfront.lead_eq hb]

end Path

/-! ### Where paths lead -/

namespace Disk

/-- The place one piece further, whatever the disk holds. -/
def move (place piece : String) : String :=
  if Path.isIdle piece then place else if piece = ".." then above place else child place piece

/-- The place a path leads to, if it leads anywhere. -/
def placeOf (current path : String) : String :=
  (Path.pieces path).foldl move (if Path.lead path = .top then "" else current)

theorem step_eq_move {d : Disk} {place piece next : String} (h : d.step place piece = .ok next) :
    next = move place piece := by
  rw [step] at h
  split at h
  · simp at h
  · simp at h
  · rw [move]
    split at h
    · next hidle => simpa [hidle, eq_comm] using h
    · next hidle =>
      rw [if_neg hidle]
      split at h
      · next hup => simpa [hup, eq_comm] using h
      · next hup =>
        rw [if_neg hup]
        split at h
        · simp at h
        · simpa [eq_comm] using h

theorem foldlM_step_eq_move {d : Disk} {pieces : List String} {start place : String}
    (h : pieces.foldlM d.step start = .ok place) : place = pieces.foldl move start := by
  induction pieces generalizing start with
  | nil => simpa [eq_comm, pure, Except.pure] using h
  | cons piece rest ih =>
    rw [List.foldlM_cons] at h
    cases hs : d.step start piece with
    | error e => simp [hs, bind, Except.bind] at h
    | ok next =>
      rw [hs] at h
      rw [List.foldl_cons, ← step_eq_move hs]
      exact ih h

/-- A path that can be followed leads to its place. -/
theorem locate_eq_placeOf {d : Disk} {path place : String} (h : d.locate path = .ok place) :
    place = placeOf d.current path := by
  rw [locate, follow] at h
  split at h
  · simp at h
  · split at h
    · simp at h
    · split at h
      · simp at h
      · exact foldlM_step_eq_move h

/-- Pieces that stay in place may be left out. -/
theorem foldl_move_filter (pieces : List String) (place : String) :
    (pieces.filter fun p => !Path.isIdle p).foldl move place = pieces.foldl move place := by
  induction pieces generalizing place with
  | nil => rfl
  | cons piece pieces ih =>
    cases hidle : Path.isIdle piece with
    | true =>
      have hstay : move place piece = place := by rw [move, if_pos hidle]
      rw [List.filter_cons_of_neg (by simp [hidle]), ih, List.foldl_cons, hstay]
    | false =>
      rw [List.filter_cons_of_pos (by simp [hidle]), List.foldl_cons, List.foldl_cons, ih]

/-- A path leads on from where the path in front of it leads. -/
theorem placeOf_append {front base : String} (h : Path.Fronts front base) (hb : base ≠ "")
    (current path : String) : placeOf current (front ++ "/" ++ path) =
      (Path.moves path).foldl move (placeOf current base) := by
  have hplace (p : String) : placeOf current p =
      (Path.moves p).foldl move (if Path.lead p = .top then "" else current) := by
    rw [placeOf, Path.moves, foldl_move_filter]
  rw [hplace, hplace, h.lead_eq hb, Path.moves_append, List.foldl_append, h.moves_eq]

/-- A name behind a path leads one piece further. -/
theorem placeOf_join (current base : String) {name : String} (h : Path.IsName name) :
    placeOf current (Path.join base name) = move (placeOf current base) name := by
  have hlead := Path.lead_ne_top h.head?_ne
  by_cases hb : base = ""
  · have hplain : Path.lead "" ≠ .top := by decide
    rw [hb, Path.empty_join hlead, placeOf, placeOf, if_neg hlead, if_neg hplain,
      Path.pieces_name h.2]
    rfl
  · obtain ⟨front, hfront, hjoin⟩ := Path.exists_fronts hb hlead
    rw [hjoin, placeOf_append hfront hb, Path.moves, foldl_move_filter, Path.pieces_name h.2]
    rfl

theorem move_name {name : String} (h1 : name ≠ "") (h2 : name ≠ ".") (h3 : name ≠ "..")
    (place : String) : move place name = child place name := by
  simp [move, Path.isIdle, h1, h2, h3]

/-! ### Files that operations leave -/

theorem find_file {d : Disk} {path : String} {content : ByteArray}
    (h : d.find path = .ok (.file content)) :
    d.entries.get? (placeOf d.current path) = some (.file content) := by
  rw [find] at h
  cases hl : d.locate path with
  | error e => simp [hl, bind, Except.bind] at h
  | ok place =>
    simp only [hl, bind, Except.bind] at h
    rw [← locate_eq_placeOf hl]
    cases he : d.entry? place with
    | none => simp [he] at h
    | some entry =>
      simp only [he, Except.ok.injEq] at h
      subst h
      rw [ entry?] at he
      split at he
      · simp at he
      · exact he

/-- A text that is read stands at the place of its path. -/
theorem readText_ok {d : Disk} {path text : String} (h : d.readText path = .ok text) :
    ∃ content, d.entries.get? (placeOf d.current path) = some (.file content) ∧
      String.fromUTF8? content = some text := by
  rw [readText, read] at h
  cases hf : d.find path with
  | error e => simp [hf, bind, Except.bind] at h
  | ok entry =>
    cases entry with
    | folder => simp [hf, bind, Except.bind] at h
    | file content =>
      refine ⟨content, find_file hf, ?_⟩
      simp only [hf, bind, Except.bind] at h
      split at h
      · next s hs => simpa [hs] using h
      · simp at h

/-- Writing sets the file at the place of the path. -/
theorem write_ok {d made : Disk} {path : String} {content : ByteArray}
    (h : d.write path content = .ok made) :
    made = d.put (placeOf d.current path) (.file content) := by
  rw [write] at h
  split at h
  · cases hf : d.follow path (Path.pieces (Path.bare path)).dropLast with
    | error e => simp [hf, bind, Except.bind] at h
    | ok holder =>
      cases hs : d.step holder "" with
      | error e => simp [hf, hs, bind, Except.bind] at h
      | ok place => simp [hf, hs, bind, Except.bind] at h
  · cases hl : d.locate path with
    | error e => simp [hl, bind, Except.bind] at h
    | ok place =>
      simp only [hl, bind, Except.bind] at h
      rw [← locate_eq_placeOf hl]
      split at h
      · simp at h
      · simpa [eq_comm] using h

/-- A folder is made at the place of its path, where nothing was. -/
theorem makeFolder_ok {d made : Disk} {path : String} (h : d.makeFolder path = .ok made) :
    ∃ place, d.locate (Path.bare path) = .ok place ∧ d.entry? place = none ∧
      made = d.put place .folder := by
  rw [makeFolder] at h
  cases hl : d.locate (Path.bare path) with
  | error e => simp [hl, bind, Except.bind] at h
  | ok place =>
    simp only [hl, bind, Except.bind] at h
    split at h
    · simp at h
    · next hvacant => exact ⟨place, rfl, hvacant, (Except.ok.inj h).symm⟩

/-- A file is removed from the place of its path, where it was. -/
theorem removeFile_ok {d left : Disk} {path : String} (h : d.removeFile path = .ok left) :
    (∃ content, d.entry? (placeOf d.current path) = some (.file content)) ∧
      left = { d with entries := d.entries.erase (placeOf d.current path) } := by
  rw [removeFile] at h
  cases hl : d.locate path with
  | error e => simp [hl, bind, Except.bind] at h
  | ok place =>
    rw [← locate_eq_placeOf hl]
    simp only [hl, bind, Except.bind] at h
    split at h
    · simp at h
    · simp at h
    · next content hfile => exact ⟨⟨content, hfile⟩, (Except.ok.inj h).symm⟩

/-- Every file of the new disk was there before, with the same content. -/
structure NoNewFiles (old new : Disk) : Prop where
  current_eq : new.current = old.current
  files : ∀ place content, new.entries.get? place = some (.file content) →
    old.entries.get? place = some (.file content)

theorem NoNewFiles.refl (d : Disk) : NoNewFiles d d := ⟨rfl, fun _ _ h => h⟩

theorem NoNewFiles.trans {a b c : Disk} (hab : NoNewFiles a b) (hbc : NoNewFiles b c) :
    NoNewFiles a c :=
  ⟨hbc.current_eq.trans hab.current_eq,
    fun place content h => hab.files place content (hbc.files place content h)⟩

theorem noNewFiles_put_folder (d : Disk) (place : String) :
    NoNewFiles d (d.put place .folder) := by
  refine ⟨rfl, fun other content h => ?_⟩
  by_cases he : place = other
  · subst he
    simp [put] at h
  · rwa [put, NameMap.get?_insert_of_ne _ he] at h

theorem get?_of_get?_erase {d : Disk} {place other : String} {e : Entry}
    (h : (d.entries.erase other).get? place = some e) : d.entries.get? place = some e := by
  rw [NameMap.get?_erase] at h
  split at h
  · cases h
  · exact h

theorem noNewFiles_erase (d : Disk) (place : String) :
    NoNewFiles d { d with entries := d.entries.erase place } :=
  ⟨rfl, fun _ _ => get?_of_get?_erase⟩

theorem noNewFiles_makeFolder {d made : Disk} {path : String} (h : d.makeFolder path = .ok made) :
    NoNewFiles d made := by
  obtain ⟨place, -, -, rfl⟩ := makeFolder_ok h
  exact noNewFiles_put_folder d place

theorem noNewFiles_makeFirst {d made : Disk} {paths : List String}
    (h : d.makeFirst paths = .ok made) : NoNewFiles d made := by
  induction paths generalizing made with
  | nil =>
    simp only [makeFirst, Except.ok.injEq] at h
    exact h ▸ .refl d
  | cons path holders ih =>
    rw [makeFirst] at h
    split at h
    · simp only [Except.ok.injEq] at h
      exact h ▸ .refl d
    · split at h
      · next first hfirst =>
        simp only [Except.ok.injEq] at h
        exact h ▸ noNewFiles_makeFolder hfirst
      · cases hheld : d.makeFirst holders with
        | error e => simp [hheld, bind, Except.bind] at h
        | ok held =>
          simp only [hheld, bind, Except.bind] at h
          split at h
          · next second hsecond =>
            simp only [Except.ok.injEq] at h
            exact h ▸ (ih hheld).trans (noNewFiles_makeFolder hsecond)
          · split at h
            · simp only [Except.ok.injEq] at h
              exact h ▸ ih hheld
            · simp at h
      · split at h
        · simp only [Except.ok.injEq] at h
          exact h ▸ .refl d
        · simp at h

theorem noNewFiles_removeFile {d left : Disk} {path : String} (h : d.removeFile path = .ok left) :
    NoNewFiles d left := by
  obtain ⟨-, rfl⟩ := removeFile_ok h
  exact noNewFiles_erase d _

/-! ### What is below a place -/

/-- Nothing is at or below a place. -/
def AbsentBelow (d : Disk) (top : String) : Prop :=
  ∀ rest, d.entries.get? (child top rest) = none

/-- Two disks that hold the same below a place. -/
structure SameBelow (top : String) (old new : Disk) : Prop where
  current_eq : new.current = old.current
  entries : ∀ rest, new.entries.get? (child top rest) = old.entries.get? (child top rest)

end Disk

/-! ### Keys of entries -/

/-- A digest is written in hexadecimal digits. -/
theorem Digest.exists_digit {message : List UInt8} {c : Char} (h : c ∈ (sha256 message).toList) :
    ∃ n < 16, c = Nat.digitChar n := by
  rw [sha256, String.toList_ofList] at h
  obtain ⟨byte, -, hbyte⟩ := List.mem_flatMap.mp h
  have hlt : byte.toNat < 256 := byte.toNat_lt
  simp only [Text.hexByte, List.mem_cons, List.not_mem_nil, or_false] at hbyte
  rcases hbyte with rfl | rfl
  · exact ⟨byte.toNat / 16, by omega, rfl⟩
  · exact ⟨byte.toNat % 16, by omega, rfl⟩

/-- A key is one piece of a path. -/
theorem Manifest.slash_not_mem_entryKey (set path : String) :
    '/' ∉ (Manifest.entryKey set path).toList := by
  intro h
  obtain ⟨n, hn, hdigit⟩ := Digest.exists_digit h
  have hslash : ∀ n < 16, '/' ≠ Nat.digitChar n := by decide
  exact hslash n hn hdigit

/-! ### Places of a cache directory -/

namespace CacheStore

/-- The place of a cache directory. -/
def place (s : CacheStore) (current : String) : String := Disk.placeOf current s.dir

def manifestPlace (s : CacheStore) (current : String) : String :=
  Disk.child (s.place current) "manifest.json"

def entryPlace (s : CacheStore) (current key : String) : String :=
  Disk.child (Disk.child (s.place current) "files") (key ++ ".json")

theorem manifestPlace_eq_child (s : CacheStore) (current : String) :
    s.manifestPlace current = Disk.child (s.place current) "manifest.json" := rfl

theorem entryPlace_eq_child (s : CacheStore) (current key : String) :
    s.entryPlace current key =
      Disk.child (s.place current) (Disk.child "files" (key ++ ".json")) := by
  simp only [entryPlace, Disk.child, String.append_assoc]

theorem placeOf_manifestPath (s : CacheStore) (current : String) :
    Disk.placeOf current s.manifestPath = s.manifestPlace current := by
  rw [manifestPath, Disk.placeOf_join current s.dir ⟨by decide, by decide⟩,
    Disk.move_name (by decide) (by decide) (by decide)]
  rfl

theorem placeOf_entryPath (s : CacheStore) (current : String) {key : String}
    (h : '/' ∉ key.toList) : Disk.placeOf current (s.entryPath key) = s.entryPlace current key := by
  have hne (short : String) (hlen : short.length < 5) : key ++ ".json" ≠ short := by
    rintro rfl
    have hext : ".json".length = 5 := by decide
    rw [String.length_append, hext] at hlen
    omega
  have hname : Path.IsName (key ++ ".json") := by
    refine ⟨hne "" (by decide), ?_⟩
    simpa using h
  rw [entryPath, Disk.placeOf_join current _ hname,
    Disk.move_name (hne _ (by decide)) (hne _ (by decide)) (hne _ (by decide)), filesPath,
    Disk.placeOf_join current s.dir ⟨by decide, by decide⟩,
    Disk.move_name (by decide) (by decide) (by decide)]
  rfl

theorem manifestPlace_ne_entryPlace (s : CacheStore) (current key : String) :
    s.manifestPlace current ≠ s.entryPlace current key := by
  intro h
  have := congrArg String.toList h
  simp [manifestPlace, entryPlace, Disk.child] at this

end CacheStore

end ApiDoc
