import ApiDoc.Discovery
import ApiDoc.Proofs.Entries
import ApiDoc.Proofs.Words

/-!
# What is found below a root

The files that are found are listed by the paths that lead to them: the moves of a source path and
the names below it. `Discovered` says which paths these are, that they come in order and each once,
and when two of them lead to one file. Two dots are the only reason: a path without them spells out
the place of its file, but `src/../src/a.php` is a second path of `src/a.php`.
-/

namespace ApiDoc

/-- The keys of a map that was made from a list. -/
theorem NameMap.mem_keys_ofList {α : Type} {entries : List (String × α)} {key : String} :
    key ∈ (ofList entries).keys ↔ ∃ value, (key, value) ∈ entries := by
  have hfold (m : NameMap α) : key ∈ (entries.foldl (fun m e => m.insert e.1 e.2) m).keys ↔
      key ∈ m.keys ∨ ∃ value, (key, value) ∈ entries := by
    induction entries generalizing m with
    | nil => simp
    | cons e entries ih =>
      rw [List.foldl_cons, ih, mem_keys_iff, mem_keys_iff, get?_insert]
      by_cases he : e.1 = key
      · rw [if_pos he]
        exact iff_of_true (.inl ⟨e.2, rfl⟩) (.inr ⟨e.2, by simp [← he]⟩)
      · rw [if_neg he]
        have hne (value : α) : (key, value) ≠ e := fun heq => he (heq ▸ rfl)
        simp [hne]
  rw [ofList, hfold]
  simp [mem_keys_iff]

/-! ### Paths and their moves -/

namespace Path

/-- A name that a file or folder can have. -/
structure IsEntryName (name : String) : Prop where
  slashless : '/' ∉ name.toList
  moves : isIdle name = false
  below : name ≠ ".."

variable {front base sub : String} {parts names : List String}

theorem IsEntryName.isName {name : String} (h : IsEntryName name) : IsName name := by
  refine ⟨?_, h.slashless⟩
  rintro rfl
  exact absurd h.moves (by decide)

theorem join_pieces (path : String) : Text.join "/" (pieces path) = path := by
  rw [← String.toList_inj, Text.toList_join, pieces, Text.parts, List.map_map]
  have hparts : (Text.splitOn '/' path.toList).map (String.toList ∘ String.ofList) =
      Text.splitOn '/' path.toList := by
    simp
  rw [hparts]
  exact Text.joinWith_splitOn '/' path.toList

theorem pieces_join (hne : parts ≠ []) (h : ∀ part ∈ parts, '/' ∉ part.toList) :
    pieces (Text.join "/" parts) = parts := by
  have hsplit : Text.splitOn '/' (Text.joinWith ['/'] (parts.map String.toList)) =
      parts.map String.toList := by
    apply Text.splitOn_joinWith_of_ne_nil
    · simpa using hne
    · simpa using h
  rw [pieces, Text.parts, Text.toList_join]
  show (Text.splitOn '/' (Text.joinWith ['/'] (parts.map String.toList))).map String.ofList = parts
  rw [hsplit, List.map_map]
  simp [Function.comp_def]

theorem moves_join (h : ∀ part ∈ parts, '/' ∉ part.toList) :
    moves (Text.join "/" parts) = parts.filter fun p => !isIdle p := by
  by_cases hne : parts = []
  · rw [hne]
    rfl
  · rw [moves, pieces_join hne h]

theorem slashless_of_mem_moves {path move : String} (h : move ∈ moves path) :
    '/' ∉ move.toList := slash_not_mem_of_mem_pieces (List.mem_filter.mp h).1

theorem filter_moves (path : String) :
    (moves path).filter (fun p => !isIdle p) = moves path := by
  rw [moves, List.filter_filter]
  simp only [Bool.and_self]

theorem filter_names (h : ∀ name ∈ names, IsEntryName name) :
    names.filter (fun p => !isIdle p) = names := by
  apply List.filter_eq_self.mpr
  intro name hname
  rw [(h name hname).moves]
  rfl

/-- A path that moves starts with a move, so not at the top. -/
theorem lead_join_ne_top (h : ∀ part ∈ parts, '/' ∉ part.toList ∧ isIdle part = false) :
    lead (Text.join "/" parts) ≠ .top := by
  apply lead_ne_top
  cases parts with
  | nil => decide
  | cons part rest =>
    obtain ⟨hslash, hidle⟩ := h part List.mem_cons_self
    have hne : part.toList ≠ [] := by
      intro hnil
      rw [String.toList_eq_nil_iff.mp hnil] at hidle
      exact absurd hidle (by decide)
    rw [Text.toList_join, List.map_cons, Text.head?_joinWith _ hne]
    intro hhead
    exact hslash (List.mem_of_mem_head? hhead)

/-- A name goes behind the last slash of a path, wherever the path starts. -/
theorem join_append (front : String) {name : String} (h : IsName name) (path : String) :
    join (front ++ "/" ++ path) name = front ++ "/" ++ join path name := by
  have hlead := lead_ne_top h.head?_ne
  have hwhole : (front ++ "/" ++ path).isEmpty = false := by
    rw [String.isEmpty_eq_false_iff]
    intro hempty
    simpa using congrArg String.toList hempty
  rw [join, join, if_neg hlead, if_neg hlead, hwhole, Bool.false_or]
  by_cases hpath : path = ""
  · subst hpath
    simp
  · have hlast : (front ++ "/" ++ path).toList.getLast? = path.toList.getLast? := by
      rw [String.toList_append, List.getLast?_append_of_ne_nil]
      exact fun hnil => hpath (String.toList_eq_nil_iff.mp hnil)
    have hfull : path.isEmpty = false := by rwa [String.isEmpty_eq_false_iff]
    rw [hlast, hfull, Bool.false_or]
    split <;> simp [String.append_assoc]

theorem foldl_join_append (front : String) (h : ∀ name ∈ names, IsEntryName name) (path : String) :
    names.foldl join (front ++ "/" ++ path) = front ++ "/" ++ names.foldl join path := by
  induction names generalizing path with
  | nil => rfl
  | cons name names ih =>
    obtain ⟨hname, hnames⟩ := List.forall_mem_cons.mp h
    rw [List.foldl_cons, join_append front hname.isName, ih hnames]
    rfl

theorem moves_foldl_join (h : ∀ name ∈ names, IsEntryName name) (path : String) :
    moves (names.foldl join path) = moves path ++ names := by
  induction names generalizing path with
  | nil => exact (List.append_nil _).symm
  | cons name names ih =>
    obtain ⟨hname, hnames⟩ := List.forall_mem_cons.mp h
    have hmove : moves name = [name] := by
      rw [moves, pieces_name hname.slashless]
      simp [hname.moves]
    have hjoin : moves (join path name) = moves path ++ [name] := by
      by_cases hpath : path = ""
      · rw [hpath, empty_join (lead_ne_top hname.isName.head?_ne), hmove]
        rfl
      · obtain ⟨front, hfront, heq⟩ := exists_fronts hpath (lead_ne_top hname.isName.head?_ne)
        rw [heq, moves_append, hmove, hfront.moves_eq]
    rw [List.foldl_cons, ih hnames, hjoin, List.append_assoc]
    rfl

theorem after?_cons_of_idle {piece : String} (h : isIdle piece = true) (ms rest : List String) :
    after? ms (piece :: rest) = after? ms rest := by
  cases ms with
  | nil => rw [after?, after?, List.dropWhile_cons_of_pos h]
  | cons move ms => rw [after?, after?, List.dropWhile_cons_of_pos h]

/-- The moves of what is in front are taken off. -/
theorem after?_append (front rest : List String) :
    after? (front.filter fun p => !isIdle p) (front ++ rest) = some (rest.dropWhile isIdle) := by
  induction front with
  | nil => rfl
  | cons piece front ih =>
    cases hidle : isIdle piece with
    | true =>
      rw [List.filter_cons_of_neg (by simp [hidle]), List.cons_append, after?_cons_of_idle hidle]
      exact ih
    | false =>
      rw [List.filter_cons_of_pos (by simp [hidle]), List.cons_append, after?,
        List.dropWhile_cons_of_neg (by simp [hidle])]
      simp only [if_true]
      exact ih

/-- The text by which a path below another one is known there: pieces in front that stay in place
are left out. -/
def spelled (path : String) : String := Text.join "/" ((pieces path).dropWhile isIdle)

theorem Fronts.below?_eq (h : Fronts front base) (hb : base ≠ "") (path : String) :
    below? base (front ++ "/" ++ path) = some (spelled path) := by
  rw [below?, h.lead_eq hb, if_pos rfl, pieces_append, h.moves_eq, moves, after?_append]
  rfl

theorem slashed_spelled (path : String) : slashed (spelled path) = Text.join "/" (moves path) := by
  have hparts : ∀ part ∈ (pieces path).dropWhile isIdle, '/' ∉ part.toList := fun part hpart =>
    slash_not_mem_of_mem_pieces ((List.dropWhile_sublist _).subset hpart)
  rw [slashed, spelled, moves_join hparts, moves]
  apply congrArg (Text.join "/")
  generalize pieces path = parts
  induction parts with
  | nil => rfl
  | cons part parts ih =>
    cases hidle : isIdle part with
    | true =>
      rw [List.dropWhile_cons_of_pos hidle, ih, List.filter_cons_of_neg (by simp [hidle])]
    | false => rw [List.dropWhile_cons_of_neg (by simp [hidle])]

end Path

/-! ### Walks -/

namespace Disk

open ApiDoc.Path (IsEntryName Fronts)

variable {d : Disk} {place other path source : String} {names : List String}

/-- The place of names below the top, or the top itself. -/
def IsNamed (place : String) : Prop :=
  ∃ names : List String, (∀ name ∈ names, IsEntryName name) ∧ place = names.foldl child ""

/-- Every place on a disk is that of names below the top. -/
def HasNames (d : Disk) : Prop :=
  ∀ place e, d.entries.get? place = some e → place ≠ "" ∧ IsNamed place

/-- A walk from a path comes to the file at a place: it is at the path itself, or in the folder
there, below no folder that is not entered. -/
inductive Walks (d : Disk) (source : String) : List String → String → Prop
  | file {place : String} {content : ByteArray} : d.locate source = .ok place →
    d.entry? place = some (.file content) → Walks d source [] place
  | below {place : String} {names : List String} {content : ByteArray} :
    d.locate source = .ok place → d.entry? place = some .folder → names ≠ [] →
    (∀ name ∈ names, IsEntryName name) → (∀ name ∈ names.dropLast, name ∉ foreignFolders) →
    d.entry? (names.foldl child place) = some (.file content) →
    Walks d source names (names.foldl child place)

/-- Names below a place are one text behind it. -/
theorem foldl_child (hne : names ≠ []) (place : String) :
    names.foldl child place = child place (Text.join "/" names) := by
  induction names generalizing place with
  | nil => exact absurd rfl hne
  | cons name names ih =>
    cases names with
    | nil => rfl
    | cons next names =>
      rw [List.foldl_cons, ih (List.cons_ne_nil _ _), ← String.toList_inj, toList_child,
        toList_child, child, Text.toList_join, Text.toList_join]
      simp [Text.joinWith_cons_cons]

/-! #### Disks that are made step by step -/

theorem isNamed_top : IsNamed "" := ⟨[], by simp, rfl⟩

theorem isNamed_child {name : String} (h : IsNamed place) (hname : IsEntryName name) :
    IsNamed (child place name) := by
  obtain ⟨names, hnames, rfl⟩ := h
  refine ⟨names ++ [name], ?_, by rw [List.foldl_append]; rfl⟩
  simpa [or_imp, forall_and] using ⟨hnames, hname⟩

theorem isNamed_above (h : IsNamed place) : IsNamed (above place) := by
  obtain ⟨names, hnames, rfl⟩ := h
  rcases List.eq_nil_or_concat names with rfl | ⟨front, last, rfl⟩
  · exact isNamed_top
  · rw [List.concat_eq_append] at hnames ⊢
    obtain ⟨hfront, hlast⟩ := List.forall_mem_append.mp hnames
    have hslash := (hlast last (List.mem_singleton_self last)).slashless
    have hcut : Text.cutLast? '/' (child (front.foldl child "") last).toList =
        some ((front.foldl child "").toList, last.toList) := by
      rw [toList_child, String.toList_append, List.append_assoc]
      exact Text.cutLast?_append _ hslash
    refine ⟨front, hfront, ?_⟩
    rw [List.foldl_append, List.foldl_cons, List.foldl_nil, above, hcut]
    exact String.ofList_toList

theorem isNamed_move {piece : String} (h : IsNamed place) (hslash : '/' ∉ piece.toList) :
    IsNamed (move place piece) := by
  rw [move]
  split
  · exact h
  · next hidle =>
    split
    · exact isNamed_above h
    · next hup => exact isNamed_child h ⟨hslash, Bool.eq_false_iff.mpr hidle, hup⟩

/-- A path leads to a place of names, from wherever there are names. -/
theorem isNamed_placeOf {current : String} (h : IsNamed current) (path : String) :
    IsNamed (placeOf current path) := by
  have hmoves (pieces : List String) (hpieces : ∀ piece ∈ pieces, '/' ∉ piece.toList)
      (place : String) (hplace : IsNamed place) : IsNamed (pieces.foldl move place) := by
    induction pieces generalizing place with
    | nil => exact hplace
    | cons piece pieces ih =>
      obtain ⟨hpiece, hrest⟩ := List.forall_mem_cons.mp hpieces
      exact ih hrest _ (isNamed_move hplace hpiece)
  apply hmoves _ fun piece => Path.slash_not_mem_of_mem_pieces
  split
  · exact isNamed_top
  · exact h

/-- What comes to a disk comes to places of names below the top. -/
theorem HasNames.put (hd : d.HasNames) (h : IsNamed place) (hne : place ≠ "") (e : Entry) :
    (d.put place e).HasNames := by
  intro other e' hget
  by_cases heq : place = other
  · exact heq ▸ ⟨hne, h⟩
  · rw [Disk.put, NameMap.get?_insert_of_ne _ heq] at hget
    exact hd other e' hget

theorem HasNames.mono {left : Disk} (hd : d.HasNames)
    (h : ∀ place e, left.entries.get? place = some e → d.entries.get? place = some e) :
    left.HasNames := fun place e hget => hd place e (h place e hget)

/-- What is left of a disk without a folder was there before. -/
theorem removeTree_left (d : Disk) (path : String) : (d.removeTree path).1.current = d.current ∧
    ∀ place e, (d.removeTree path).1.entries.get? place = some e →
      d.entries.get? place = some e := by
  have hcleared (place other : String) (e : Entry)
      (h : (d.clearBelow place).entries.get? other = some e) : d.entries.get? other = some e := by
    rw [clearBelow, NameMap.get?_filter] at h
    exact (Option.filter_eq_some_iff.mp h).1
  rw [removeTree]
  split
  · exact ⟨rfl, fun _ _ h => h⟩
  · next top htop =>
    split
    · exact ⟨rfl, fun _ _ h => h⟩
    · exact ⟨rfl, fun _ _ h => h⟩
    · dsimp only
      split
      · exact ⟨rfl, hcleared top⟩
      · split
        · exact ⟨rfl, hcleared top⟩
        · exact ⟨rfl, fun place e h => hcleared top place e (get?_of_get?_erase h)⟩

/-- What a disk comes to from nothing, as files are written, folders are made and both are
removed. -/
inductive Made (current : String) : Disk → Prop
  | empty : Made current { current := current }
  | write {d made : Disk} {path : String} {content : ByteArray} : Made current d →
    d.write path content = .ok made → Made current made
  | makeFolder {d made : Disk} {path : String} : Made current d → d.makeFolder path = .ok made →
    Made current made
  | removeFile {d left : Disk} {path : String} : Made current d → d.removeFile path = .ok left →
    Made current left
  | removeTree {d : Disk} (path : String) : Made current d → Made current (d.removeTree path).1

/-- Every place on a disk that is made step by step is that of names below the top. -/
theorem Made.hasNames {current : String} (h : Made current d) (hcurrent : IsNamed current) :
    d.current = current ∧ d.HasNames := by
  induction h with
  | empty => exact ⟨rfl, fun place e hget => by cases hget⟩
  | @write d made path content _ hwrite ih =>
    obtain ⟨hd, hnames⟩ := ih
    have hne := ne_top_of_not_folder (locate_of_write hwrite).2
    rw [write_ok hwrite]
    exact ⟨hd, hnames.put (isNamed_placeOf (hd ▸ hcurrent) path) hne _⟩
  | @makeFolder d made path _ hmade ih =>
    obtain ⟨hd, hnames⟩ := ih
    obtain ⟨place, hplace, hvacant, rfl⟩ := makeFolder_ok hmade
    have hne : place ≠ "" := ne_top_of_not_folder fun hfolder => by cases hvacant.symm.trans hfolder
    rw [locate_eq_placeOf hplace] at hne ⊢
    exact ⟨hd, hnames.put (isNamed_placeOf (hd ▸ hcurrent) _) hne _⟩
  | @removeFile d left path _ hremoved ih =>
    obtain ⟨-, rfl⟩ := removeFile_ok hremoved
    exact ⟨ih.1, ih.2.mono fun place e => get?_of_get?_erase⟩
  | @removeTree d path _ ih =>
    obtain ⟨hcurrent', hleft⟩ := removeTree_left d path
    exact ⟨hcurrent'.trans ih.1, ih.2.mono hleft⟩

/-! #### Files that are walked to -/

theorem HasNames.exists_names (hd : d.HasNames) {e : Entry} (h : d.entries.get? place = some e) :
    ∃ names : List String, names ≠ [] ∧ (∀ name ∈ names, IsEntryName name) ∧
      place = names.foldl child "" := by
  obtain ⟨hne, names, hnames, rfl⟩ := hd place e h
  refine ⟨names, ?_, hnames, rfl⟩
  rintro rfl
  exact hne rfl

theorem foldl_move_names (h : ∀ name ∈ names, IsEntryName name) (place : String) :
    names.foldl move place = names.foldl child place := by
  induction names generalizing place with
  | nil => rfl
  | cons name names ih =>
    obtain ⟨hname, hnames⟩ := List.forall_mem_cons.mp h
    have hidle := hname.moves
    rw [Path.isIdle, Bool.or_eq_false_iff, beq_eq_false_iff_ne, beq_eq_false_iff_ne] at hidle
    rw [List.foldl_cons, List.foldl_cons, move_name hidle.1 hidle.2 hname.below, ih hnames]

theorem namesBelow?_eq_some_iff (hd : d.HasNames) {e : Entry}
    (hother : d.entries.get? other = some e) :
    namesBelow? place other = some names ↔
      names ≠ [] ∧ (∀ name ∈ names, IsEntryName name) ∧ other = names.foldl child place := by
  constructor
  · intro h
    obtain ⟨rest, hrest, rfl⟩ := Option.map_eq_some_iff.mp h
    have hsplit : other = child place (String.ofList rest) := by
      rw [← String.toList_inj, toList_child, String.toList_ofList, Text.append_of_after? hrest]
    obtain ⟨all, hall, hnames, heq⟩ := hd.exists_names hother
    -- the pieces below the place are the last ones of all names
    have hpieces : Path.pieces place ++ Path.pieces (String.ofList rest) = "" :: all := by
      rw [← Path.pieces_append, ← child, ← hsplit, heq, foldl_child hall, child,
        Path.pieces_append, Path.pieces_join hall fun name hname => (hnames name hname).slashless]
      rfl
    have hmem : ∀ name ∈ Path.pieces (String.ofList rest), IsEntryName name := by
      obtain ⟨first, more, hfirst⟩ := List.exists_cons_of_ne_nil (Path.pieces_ne_nil place)
      rw [hfirst, List.cons_append] at hpieces
      intro name hname
      apply hnames
      rw [← (List.cons.inj hpieces).2]
      exact List.mem_append_right more hname
    refine ⟨Path.pieces_ne_nil _, hmem, ?_⟩
    rw [foldl_child (Path.pieces_ne_nil _), Path.join_pieces]
    exact hsplit
  · rintro ⟨hne, hnames, rfl⟩
    rw [foldl_child hne, namesBelow?_child,
      Path.pieces_join hne fun name hname => (hnames name hname).slashless]

theorem mem_filesBelow_iff (hd : d.HasNames) : names ∈ d.filesBelow place ↔
    names ≠ [] ∧ (∀ name ∈ names, IsEntryName name) ∧
      ∃ content, d.entry? (names.foldl child place) = some (.file content) := by
  have hentry (hne : names ≠ []) : d.entry? (names.foldl child place) =
      d.entries.get? (names.foldl child place) := by
    rw [foldl_child hne, entry?_child]
  rw [filesBelow, List.mem_filterMap]
  constructor
  · rintro ⟨⟨other, e⟩, hmem, hnames⟩
    have hget := NameMap.mem_entries_iff.mp hmem
    cases e with
    | folder => cases hnames
    | file content =>
      obtain ⟨hne, hall, rfl⟩ := (namesBelow?_eq_some_iff hd hget).mp hnames
      exact ⟨hne, hall, content, (hentry hne).trans hget⟩
  · rintro ⟨hne, hall, content, hfile⟩
    have hget := (hentry hne).symm.trans hfile
    exact ⟨(_, .file content), NameMap.mem_entries_iff.mpr hget,
      (namesBelow?_eq_some_iff hd hget).mpr ⟨hne, hall, rfl⟩⟩

/-- A walk gives the files that it comes to, by their paths. -/
theorem mem_walk_iff (hd : d.HasNames) : path ∈ d.walk source ↔
    ∃ names place, d.Walks source names place ∧ path = names.foldl Path.join source := by
  rw [walk]
  constructor
  · intro h
    split at h
    · cases h
    · next place hplace =>
      split at h
      · cases h
      · next content hentry => exact ⟨[], place, .file hplace hentry, List.mem_singleton.mp h⟩
      · next hentry =>
        obtain ⟨names, hnames, rfl⟩ := List.mem_map.mp h
        obtain ⟨hbelow, hentered⟩ := List.mem_filter.mp hnames
        obtain ⟨hne, hall, content, hget⟩ := (mem_filesBelow_iff hd).mp hbelow
        have hforeign : ∀ name ∈ names.dropLast, name ∉ foreignFolders := by
          simpa using hentered
        exact ⟨names, _, .below hplace hentry hne hall hforeign hget, rfl⟩
  · rintro ⟨names, reached, hwalks, rfl⟩
    cases hwalks with
    | file hplace hfile =>
      rw [hplace]
      dsimp only
      rw [hfile]
      exact List.mem_singleton_self source
    | @below place _ content hplace hentry hne hall hforeign hget =>
      rw [hplace]
      dsimp only
      rw [hentry]
      dsimp only
      apply List.mem_map_of_mem
      apply List.mem_filter.mpr
      refine ⟨(mem_filesBelow_iff hd).mpr ⟨hne, hall, content, hget⟩, ?_⟩
      simpa using hforeign

theorem Walks.names_eq (h : d.Walks source names place) : ∀ name ∈ names, IsEntryName name := by
  cases h with
  | file => simp
  | below _ _ _ hall => exact hall

theorem Walks.place_eq (h : d.Walks source names place) :
    place = names.foldl child (placeOf d.current source) := by
  cases h with
  | file hplace => exact locate_eq_placeOf hplace
  | below hplace => rw [locate_eq_placeOf hplace]

theorem Walks.entry?_eq (h : d.Walks source names place) :
    ∃ content, d.entry? place = some (.file content) := by
  cases h with
  | file _ hfile => exact ⟨_, hfile⟩
  | below _ _ _ _ _ hfile => exact ⟨_, hfile⟩

theorem ne_empty_of_hasFolder {root : String} (h : d.hasFolder root = true) : root ≠ "" := by
  rintro rfl
  have hlocate := (hasFolder_iff.mp h).1
  rw [locate, follow] at hlocate
  simp at hlocate

/-- Moves behind a root lead on from its place. -/
theorem placeOf_join_moves {root : String} (hroot : root ≠ "") {moves : List String}
    (h : ∀ move ∈ moves, '/' ∉ move.toList ∧ Path.isIdle move = false) (current : String) :
    placeOf current (Path.join root (Text.join "/" moves)) =
      moves.foldl move (placeOf current root) := by
  obtain ⟨front, hfront, hjoin⟩ := Path.exists_fronts hroot (Path.lead_join_ne_top h)
  rw [hjoin, placeOf_append hfront hroot, Path.moves_join fun move hmove => (h move hmove).1,
    foldl_move_filter]

/-- Names that lead from one place to the same place are the same names. -/
theorem join_names_inj {others : List String} (h : ∀ name ∈ names, IsEntryName name)
    (h' : ∀ name ∈ others, IsEntryName name)
    (heq : names.foldl move place = others.foldl move place) :
    Text.join "/" names = Text.join "/" others := by
  have hbelow (rest : String) : child place rest ≠ place := by
    intro hsame
    have hlength := congrArg (List.length ∘ String.toList) hsame
    simp only [Function.comp_apply, toList_child, String.toList_append,
      List.length_append] at hlength
    have hslash : "/".toList.length = 1 := rfl
    omega
  rw [foldl_move_names h, foldl_move_names h'] at heq
  by_cases hnames : names = []
  · by_cases hothers : others = []
    · rw [hnames, hothers]
    · rw [hnames, foldl_child hothers] at heq
      exact absurd heq.symm (hbelow _)
  · by_cases hothers : others = []
    · rw [hothers, foldl_child hnames] at heq
      exact absurd heq (hbelow _)
    · rw [foldl_child hnames, foldl_child hothers] at heq
      exact child_right_inj heq

end Disk

/-! ### What is found -/

/-- The paths that are walked, and what each of them adds to the root. -/
inductive Settings.Source (s : Settings) (root : String) : String → String → Prop
  | whole : s.sourcePaths = [] → Source s root root ""
  | part {path : String} : path ∈ s.sourcePaths → Source s root (Path.join root path) path

/-- Which paths are listed for the files below a root. -/
structure Discovered (d : Disk) (root : String) (s : Settings) (selection : Selection)
    (found : List String) : Prop where
  increasing : found.Pairwise (· < ·)
  listed : ∀ path, path ∈ found ↔ ∃ source part names place, s.Source root source part ∧
    d.Walks source names place ∧
    selection.accepts (Path.spelled (names.foldl Path.join part)) = true ∧
    path = Text.join "/" (Path.moves part ++ names)
  files : ∀ path ∈ found, ∃ content,
    d.entry? (Disk.placeOf d.current (Path.join root path)) = some (.file content)
  once : ∀ path ∈ found, ∀ other ∈ found,
    Disk.placeOf d.current (Path.join root path) = Disk.placeOf d.current (Path.join root other) →
    path = other ∨ ".." ∈ Path.pieces path ∨ ".." ∈ Path.pieces other

section Sources

open Disk ApiDoc.Path

variable {d : Disk} {root source part place : String} {names : List String} {s : Settings}

theorem Settings.mem_sources_iff :
    source ∈ s.sources root ↔ ∃ part, s.Source root source part := by
  rw [Settings.sources]
  constructor
  · intro h
    split at h
    · next hempty =>
      rw [List.mem_singleton.mp h]
      exact ⟨"", .whole (List.isEmpty_iff.mp hempty)⟩
    · obtain ⟨part, hpart, rfl⟩ := List.mem_map.mp h
      exact ⟨part, .part hpart⟩
  · rintro ⟨part, hsource⟩
    cases hsource with
    | whole hnone =>
      rw [if_pos (List.isEmpty_iff.mpr hnone)]
      exact List.mem_singleton_self root
    | part hpart =>
      rw [if_neg fun hempty => List.ne_nil_of_mem hpart (List.isEmpty_iff.mp hempty)]
      exact List.mem_map_of_mem hpart

namespace Settings.Source

/-- A source leads where the moves of its part of the path lead from the root. -/
theorem placeOf_eq (h : s.Source root source part) (hroot : root ≠ "")
    (hrelative : ∀ path ∈ s.sourcePaths, lead path ≠ .top) (current : String) :
    placeOf current source = (moves part).foldl move (placeOf current root) := by
  cases h with
  | whole => rfl
  | part hpart =>
    obtain ⟨front, hfront, hjoin⟩ := exists_fronts hroot (hrelative part hpart)
    rw [hjoin, placeOf_append hfront hroot]

/-- The path of a file that is walked to is the root, a slash and the rest. -/
theorem exists_fronts_walked (h : s.Source root source part) (hroot : d.hasFolder root = true)
    (hrelative : ∀ path ∈ s.sourcePaths, lead path ≠ .top) (hwalks : d.Walks source names place) :
    ∃ front, Fronts front root ∧
      names.foldl join source = front ++ "/" ++ names.foldl join part := by
  have hne := ne_empty_of_hasFolder hroot
  cases h with
  | whole =>
    cases hwalks with
    | file hplace hfile =>
      have hfolder := (hasFolder_iff.mp hroot).2
      rw [← locate_eq_placeOf hplace, hfile] at hfolder
      cases hfolder
    | below _ _ hnames hall =>
      obtain ⟨name, rest, rfl⟩ := List.exists_cons_of_ne_nil hnames
      obtain ⟨hname, hrest⟩ := List.forall_mem_cons.mp hall
      have hlead := lead_ne_top hname.isName.head?_ne
      obtain ⟨front, hfront, hjoin⟩ := exists_fronts hne hlead
      refine ⟨front, hfront, ?_⟩
      rw [List.foldl_cons, List.foldl_cons, hjoin, foldl_join_append front hrest,
        empty_join hlead]
  | part hpart =>
    obtain ⟨front, hfront, hjoin⟩ := exists_fronts hne (hrelative part hpart)
    refine ⟨front, hfront, ?_⟩
    rw [hjoin, foldl_join_append front hwalks.names_eq]

/-- A file that is walked to is listed by its moves below the root, if it is selected. -/
theorem relative?_eq (h : s.Source root source part) (hroot : d.hasFolder root = true)
    (hrelative : ∀ path ∈ s.sourcePaths, lead path ≠ .top) (hwalks : d.Walks source names place)
    (selection : Selection) : selection.relative? root (names.foldl join source) =
      if selection.accepts (spelled (names.foldl join part)) then
        some (Text.join "/" (moves part ++ names)) else none := by
  obtain ⟨front, hfront, hpath⟩ := h.exists_fronts_walked hroot hrelative hwalks
  rw [Selection.relative?, hpath, hfront.below?_eq (ne_empty_of_hasFolder hroot)]
  dsimp only
  rw [slashed_spelled, moves_foldl_join hwalks.names_eq]

end Settings.Source

theorem slashless_moves_append (part : String) (h : ∀ name ∈ names, IsEntryName name) :
    ∀ move ∈ moves part ++ names, '/' ∉ move.toList ∧ isIdle move = false := by
  intro move hmove
  rcases List.mem_append.mp hmove with hmove | hmove
  · refine ⟨slashless_of_mem_moves hmove, ?_⟩
    simpa using (List.mem_filter.mp hmove).2
  · exact ⟨(h move hmove).slashless, (h move hmove).moves⟩

/-- The list of what is found for a selection. -/
def Selection.listing (selection : Selection) (d : Disk) (root : String) (s : Settings) :
    List String :=
  (NameMap.ofList ((((s.sources root).flatMap d.walk).filterMap
    (selection.relative? root)).map fun path => (path, ()))).keys

theorem discover_eq (d : Disk) (root : String) (s : Settings) : discover d root s =
    (Selection.ofSettings s).map fun selection => selection.listing d root s := by
  rw [discover]
  cases Selection.ofSettings s <;> rfl

theorem pairwise_listing (selection : Selection) (d : Disk) (root : String) (s : Settings) :
    (selection.listing d root s).Pairwise (· < ·) := by
  rw [Selection.listing, NameMap.keys, List.pairwise_map]
  exact NameMap.sorted _

/-- What is listed comes from the walks of the sources. -/
theorem mem_listing_iff (hd : d.HasNames) (hroot : d.hasFolder root = true)
    (hrelative : ∀ path ∈ s.sourcePaths, lead path ≠ .top) {selection : Selection}
    {path : String} : path ∈ selection.listing d root s ↔ ∃ source part names place,
      s.Source root source part ∧ d.Walks source names place ∧
        selection.accepts (spelled (names.foldl join part)) = true ∧
        path = Text.join "/" (moves part ++ names) := by
  rw [Selection.listing, NameMap.mem_keys_ofList]
  constructor
  · rintro ⟨value, hmem⟩
    obtain ⟨listed, hlisted, heq⟩ := List.mem_map.mp hmem
    obtain ⟨walked, hwalked, hrelated⟩ := List.mem_filterMap.mp hlisted
    obtain ⟨source, hsource, hwalk⟩ := List.mem_flatMap.mp hwalked
    obtain ⟨part, hpart⟩ := Settings.mem_sources_iff.mp hsource
    obtain ⟨names, place, hwalks, rfl⟩ := (mem_walk_iff hd).mp hwalk
    rw [hpart.relative?_eq hroot hrelative hwalks] at hrelated
    split at hrelated
    · next haccepts =>
      rw [← (Prod.mk.inj heq).1, ← Option.some.inj hrelated]
      exact ⟨source, part, names, place, hpart, hwalks, haccepts, rfl⟩
    · cases hrelated
  · rintro ⟨source, part, names, place, hpart, hwalks, haccepts, rfl⟩
    refine ⟨(), List.mem_map_of_mem (List.mem_filterMap.mpr ⟨names.foldl join source, ?_, ?_⟩)⟩
    · exact List.mem_flatMap.mpr ⟨source, Settings.mem_sources_iff.mpr ⟨part, hpart⟩,
        (mem_walk_iff hd).mpr ⟨names, place, hwalks, rfl⟩⟩
    · rw [hpart.relative?_eq hroot hrelative hwalks, if_pos haccepts]

/-- A path without two dots goes down by names only. -/
theorem isEntryName_of_mem_moves {path : String} (hup : ".." ∉ pieces path) :
    ∀ name ∈ moves path, IsEntryName name := by
  intro name hname
  obtain ⟨hpiece, hidle⟩ := List.mem_filter.mp hname
  refine ⟨slash_not_mem_of_mem_pieces hpiece, by simpa using hidle, ?_⟩
  rintro rfl
  exact hup hpiece

section Listed

variable (hroot : d.hasFolder root = true) (hrelative : ∀ path ∈ s.sourcePaths, lead path ≠ .top)
  {path : String} (hpart : s.Source root source part) (hwalks : d.Walks source names place)
  (hpath : path = Text.join "/" (moves part ++ names))

include hwalks hpath

/-- A listed path is put together from its own moves. -/
theorem moves_listed : moves path = moves part ++ names := by
  rw [hpath, moves_join fun m hm => (slashless_moves_append part hwalks.names_eq m hm).1,
    List.filter_append, filter_moves, filter_names hwalks.names_eq]

include hroot

theorem placeOf_listed : placeOf d.current (join root path) =
    (moves path).foldl move (placeOf d.current root) := by
  rw [moves_listed hwalks hpath, hpath]
  exact placeOf_join_moves (ne_empty_of_hasFolder hroot)
    (slashless_moves_append part hwalks.names_eq) d.current

include hrelative hpart

/-- It leads to the file that was walked to. -/
theorem placeOf_listed_eq : placeOf d.current (join root path) = place := by
  rw [placeOf_listed hroot hwalks hpath, moves_listed hwalks hpath, List.foldl_append,
    ← hpart.placeOf_eq (ne_empty_of_hasFolder hroot) hrelative, foldl_move_names hwalks.names_eq,
    ← hwalks.place_eq]

end Listed

/-- The files that are found below a folder are listed as `Discovered` says, or a pattern of the
settings is refused. -/
theorem discovered_of_hasFolder (hd : d.HasNames) (hroot : d.hasFolder root = true)
    (hrelative : ∀ path ∈ s.sourcePaths, lead path ≠ .top) :
    (∃ e, Selection.ofSettings s = .error e ∧ discover d root s = .error e) ∨
      ∃ selection found, Selection.ofSettings s = .ok selection ∧
        discover d root s = .ok found ∧ Discovered d root s selection found := by
  rw [discover_eq]
  cases Selection.ofSettings s with
  | error e => exact .inl ⟨e, rfl, rfl⟩
  | ok selection =>
    refine .inr ⟨selection, selection.listing d root s, rfl, rfl,
      pairwise_listing selection d root s, fun path => mem_listing_iff hd hroot hrelative, ?_, ?_⟩
    · intro path hfound
      obtain ⟨source, part, names, place, hpart, hwalks, -, hpath⟩ :=
        (mem_listing_iff hd hroot hrelative).mp hfound
      rw [placeOf_listed_eq hroot hrelative hpart hwalks hpath]
      exact hwalks.entry?_eq
    · intro path hfound other hfound' hsame
      by_cases hup : ".." ∈ pieces path
      · exact .inr (.inl hup)
      by_cases hup' : ".." ∈ pieces other
      · exact .inr (.inr hup')
      obtain ⟨_, _, _, _, -, hwalks, -, hpath⟩ := (mem_listing_iff hd hroot hrelative).mp hfound
      obtain ⟨_, _, _, _, -, hwalks', -, hpath'⟩ := (mem_listing_iff hd hroot hrelative).mp hfound'
      rw [placeOf_listed hroot hwalks hpath, placeOf_listed hroot hwalks' hpath'] at hsame
      have hjoin := join_names_inj (isEntryName_of_mem_moves hup) (isEntryName_of_mem_moves hup')
        hsame
      rw [moves_listed hwalks hpath, moves_listed hwalks' hpath', ← hpath, ← hpath'] at hjoin
      exact .inl hjoin

/-- Where no source path goes up, every file is listed once. -/
theorem Discovered.nodup_places {selection : Selection} {found : List String}
    (h : Discovered d root s selection found)
    (hplain : ∀ path ∈ s.sourcePaths, ".." ∉ pieces path) :
    (found.map fun path => placeOf d.current (join root path)).Nodup := by
  have hup : ∀ path ∈ found, ".." ∉ pieces path := by
    intro path hpath hmem
    obtain ⟨source, part, names, place, hpart, hwalks, -, heq⟩ := (h.listed path).mp hpath
    have hmove : ".." ∈ moves path := List.mem_filter.mpr ⟨hmem, by decide⟩
    rw [moves_listed hwalks heq] at hmove
    rcases List.mem_append.mp hmove with hpiece | hname
    · cases hpart with
      | whole => cases hpiece
      | part hsource => exact hplain part hsource (List.mem_filter.mp hpiece).1
    · exact (hwalks.names_eq _ hname).below rfl
  apply List.Nodup.map_on
  · intro path hpath other hother hsame
    rcases h.once path hpath other hother hsame with heq | hmem | hmem
    · exact heq
    · exact absurd hmem (hup path hpath)
    · exact absurd hmem (hup other hother)
  · exact h.increasing.imp String.ne_of_lt

/-- A folder below a root, and a file in it. -/
def oneSource : Disk where
  entries := .ofList [("/p", .folder), ("/p/src", .folder), ("/p/src/a.php", .file "<?php".toUTF8)]

/-- The folder by two paths, of which one leaves it and comes back. -/
def roundabout : Settings := { sourcePaths := ["src", "src/../src"] }

theorem hasNames_oneSource : oneSource.HasNames := by
  intro place e hget
  have hentries : oneSource.entries.entries = [("/p", .folder), ("/p/src", .folder),
      ("/p/src/a.php", .file "<?php".toUTF8)] := by
    decide +kernel
  have hmem := NameMap.mem_entries_iff.mpr hget
  rw [hentries] at hmem
  simp only [List.mem_cons, Prod.mk.injEq, List.not_mem_nil, or_false] at hmem
  have hnamed (place : String) (h : placeOf "" place = place) : IsNamed place :=
    h ▸ isNamed_placeOf isNamed_top place
  rcases hmem with ⟨rfl, -⟩ | ⟨rfl, -⟩ | ⟨rfl, -⟩
  · exact ⟨by decide, hnamed _ (by decide)⟩
  · exact ⟨by decide, hnamed _ (by decide)⟩
  · exact ⟨by decide, hnamed _ (by decide)⟩

/-- The file is listed twice, once for each of the two paths. -/
theorem discovered_of_hasFolder_roundabout : ∃ selection,
    discover oneSource "/p" roundabout = .ok ["src/../src/a.php", "src/a.php"] ∧
      placeOf oneSource.current (join "/p" "src/../src/a.php") =
        placeOf oneSource.current (join "/p" "src/a.php") ∧
      Discovered oneSource "/p" roundabout selection ["src/../src/a.php", "src/a.php"] := by
  have hfound : discover oneSource "/p" roundabout = .ok ["src/../src/a.php", "src/a.php"] := by
    decide +kernel
  have hroot : oneSource.hasFolder "/p" = true := by decide +kernel
  have hrelative : ∀ path ∈ roundabout.sourcePaths, lead path ≠ .top := by decide +kernel
  rcases discovered_of_hasFolder hasNames_oneSource hroot hrelative with
    ⟨e, -, herror⟩ | ⟨selection, found, -, hok, hdiscovered⟩
  · rw [hfound] at herror
    cases herror
  · obtain rfl := Except.ok.inj (hfound.symm.trans hok)
    exact ⟨selection, hfound, by decide +kernel, hdiscovered⟩

end Sources

end ApiDoc
