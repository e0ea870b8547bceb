import ApiDoc.Proofs.Refiling

/-!
# Pages that coincide

The standard layout writes the separators of a name as dots, calls the root `default`, and gives a
file the page of its path without slashes and extension. So two things can have one page. The main
statement says exactly which ones do, in every set that was compiled: files whose paths differ in
slashes, hyphens and extensions only; the root and what is called `default`; and namespaces whose
names differ in the places of dots and separators. Packages have no dots in their names but for the
default package, which then has no letter or digit, so for them only the second case is left.
-/

namespace ApiDoc

namespace Text

/-! ### Parts with a sign between them -/

/-- More parts make a longer text. -/
theorem length_joinWith_lt (sep : Char) {parts more : List (List Char)} (hne : parts ≠ [])
    (hmore : more ≠ []) :
    (joinWith [sep] parts).length < (joinWith [sep] (parts ++ more)).length := by
  obtain ⟨part, rest, rfl⟩ := List.exists_cons_of_ne_nil hne
  obtain ⟨other, others, rfl⟩ := List.exists_cons_of_ne_nil hmore
  rw [List.cons_append, joinWith_cons, joinWith_cons, List.flatMap_append, List.flatMap_cons]
  simp only [List.length_append, List.length_cons]
  omega

theorem mem_dropWhile_of_not {p : Char → Bool} {c : Char} {cs : List Char} (hc : c ∈ cs)
    (hp : p c = false) : c ∈ cs.dropWhile p := by
  rw [← List.takeWhile_append_dropWhile (p := p) (l := cs), List.mem_append] at hc
  refine hc.resolve_left fun htaken => ?_
  rw [List.mem_takeWhile_imp htaken] at hp
  simp at hp

theorem mem_trim {c : Char} {cs : List Char} (hc : c ∈ cs) (hblank : isBlank c = false) :
    c ∈ trim cs := by
  rw [trim, trimEnd, List.mem_reverse]
  exact mem_dropWhile_of_not (List.mem_reverse.mpr (mem_dropWhile_of_not hc hblank)) hblank

theorem mem_dropTrailChar {c d : Char} {cs : List Char} (hc : c ∈ cs) (hne : c ≠ d) :
    c ∈ dropTrailChar d cs := by
  rw [dropTrailChar, List.mem_reverse]
  exact mem_dropWhile_of_not (List.mem_reverse.mpr hc) (by simpa using hne)

/-- The character does not occur behind its last occurrence. -/
theorem not_mem_of_cutLast? {sep : Char} {cs front back : List Char}
    (h : cutLast? sep cs = some (front, back)) : sep ∉ back := by
  rw [cutLast?, List.span_eq_takeWhile_dropWhile] at h
  split at h
  · simp at h
  · next taken c dropped heq =>
    obtain ⟨htake, -⟩ := Prod.mk.inj heq
    cases h
    rw [List.mem_reverse, ← htake]
    exact fun hmem => by simpa using List.mem_takeWhile_imp hmem

end Text

/-! ### Pages of files -/

namespace Router

/-- A path and what is left of it without the extension of its last component. A component that is
only an extension keeps it. -/
inductive WithoutExtension : List Char → List Char → Prop
  | cut {stem extension : List Char} (named : stem ≠ []) (inFolder : stem.getLast? ≠ some '/')
      (last : '.' ∉ extension) (within : '/' ∉ extension) :
      WithoutExtension (stem ++ '.' :: extension) stem
  | whole {path : List Char}
      (none : ∀ stem extension, path = stem ++ '.' :: extension → '.' ∉ extension →
        '/' ∉ extension → stem = [] ∨ stem.getLast? = some '/') :
      WithoutExtension path path

/-- Characters that the page of a file shows alike: the same one, or two of both slashes and the
hyphen. -/
def Alike (c d : Char) : Prop := c = d ∨ (c ∈ ['/', '\\', '-'] ∧ d ∈ ['/', '\\', '-'])

/-- Paths that are alike in all characters, without slashes at the front and without the extension
of the last component. -/
def SamePath (path other : String) : Prop :=
  ∃ stem stem', WithoutExtension (Text.dropLeadChar '/' path.toList) stem ∧
    WithoutExtension (Text.dropLeadChar '/' other.toList) stem' ∧ List.Forall₂ Alike stem stem'

theorem withoutExtension_pathStem (path : List Char) : WithoutExtension path (pathStem path) := by
  rw [pathStem]
  split
  · next stem extension hcut =>
    have hwhole := Text.append_of_cutLast? hcut
    split
    · next hkept =>
      simp only [Bool.and_eq_true, Bool.not_eq_true', List.isEmpty_eq_false_iff, bne_iff_ne,
        List.contains_eq_mem, decide_eq_false_iff_not] at hkept
      rw [← hwhole]
      exact .cut hkept.1.1 hkept.1.2 (Text.not_mem_of_cutLast? hcut) hkept.2
    · next hkept =>
      refine .whole fun front back heq hdot hslash => ?_
      rw [heq, Text.cutLast?_append front hdot] at hcut
      obtain ⟨rfl, rfl⟩ := Prod.mk.inj (Option.some.inj hcut)
      by_contra hnot
      rw [not_or] at hnot
      exact hkept (by simp [hnot.1, hnot.2, hslash])
  · next hnone =>
    refine .whole fun front back heq hdot _ => ?_
    rw [heq, Text.cutLast?_append front hdot] at hnone
    simp at hnone

/-- An extension can be taken off in one way. -/
theorem WithoutExtension.pathStem_eq {path stem : List Char} (h : WithoutExtension path stem) :
    pathStem path = stem := by
  cases h with
  | cut named inFolder last within =>
    rw [pathStem, Text.cutLast?_append _ last]
    simp [named, inFolder, within]
  | whole none =>
    have hstem := withoutExtension_pathStem path
    generalize hs : pathStem path = stem at hstem
    cases hstem with
    | whole => rfl
    | cut named inFolder last within =>
      exact absurd (none _ _ rfl last within) (by simp [named, inFolder])

/-- How the page of a file shows a character. -/
def flatten (c : Char) : Char := if c == '/' || c == '\\' then '-' else c

theorem flatten_eq_iff {c d : Char} : flatten c = flatten d ↔ Alike c d := by
  unfold flatten Alike
  grind

theorem map_flatten_eq_iff {cs ds : List Char} :
    cs.map flatten = ds.map flatten ↔ List.Forall₂ Alike cs ds := by
  rw [← List.forall₂_eq_eq_eq, List.forall₂_map_left_iff, List.forall₂_map_right_iff]
  simp only [flatten_eq_iff]

theorem filePage_eq_iff (path other : String) :
    filePage path = filePage other ↔ SamePath path other := by
  have hpage (path : String) : (filePage path).toList = "/files/".toList ++
      (pathStem (Text.dropLeadChar '/' path.toList)).map flatten ++ ".html".toList := by
    simp only [filePage, String.toList_append, String.toList_ofList]
    rfl
  rw [← String.toList_inj, hpage, hpage, List.append_left_inj, List.append_right_inj,
    map_flatten_eq_iff]
  constructor
  · exact fun h => ⟨_, _, withoutExtension_pathStem _, withoutExtension_pathStem _, h⟩
  · rintro ⟨stem, stem', hstem, hstem', h⟩
    rwa [hstem.pathStem_eq, hstem'.pathStem_eq]

end Router

/-! ### Pages of names -/

namespace Fqsen

/-- One of the names is the root and the other one is called like its page. -/
def RootAndDefault (f g : Fqsen) : Prop :=
  (f = root ∧ g.text = "\\default") ∨ (f.text = "\\default" ∧ g = root)

/-- The characters of a name with separators read as dots. -/
def dotted (f : Fqsen) : List Char := f.chars.map fun c => if c = separator then '.' else c

/-- Names with a dot in one of them, none of them the root, that are the same with separators read
as dots. -/
def DotForSeparator (f g : Fqsen) : Prop :=
  f ≠ root ∧ g ≠ root ∧ f.dotted = g.dotted ∧ ('.' ∈ f.chars ∨ '.' ∈ g.chars)

theorem eq_of_dotted_eq {f g : Fqsen} (h : f.dotted = g.dotted) (hf : '.' ∉ f.chars)
    (hg : '.' ∉ g.chars) : f = g := by
  rw [dotted, dotted] at h
  refine ext_chars ?_
  generalize f.chars = cs at h hf
  generalize g.chars = ds at h hg
  induction cs generalizing ds with
  | nil => exact (List.map_eq_nil_iff.mp h.symm).symm
  | cons c cs ih =>
    cases ds with
    | nil => simp at h
    | cons d ds =>
      rw [List.mem_cons, not_or] at hf hg
      obtain ⟨hhead, htail⟩ := List.cons.inj h
      have hsame : c = d := by
        dsimp only at hhead
        grind
      rw [hsame, ih hf.2 ds htail hg.2]

end Fqsen

section Names

variable {path other : List String} (hpath : ∀ segment ∈ path, IsSegment segment)
  (hother : ∀ segment ∈ other, IsSegment segment)

include hpath in
theorem isRoot_pathName : (pathName path).isRoot = path.isEmpty := by
  cases path using List.reverseRecOn with
  | nil => rfl
  | append_singleton front segment =>
    rw [pathName_append, Fqsen.isRoot_join _ (hpath segment (by simp))]
    simp

include hpath in
/-- Each segment of a name stands behind a separator. -/
theorem chars_pathName (hne : path ≠ []) :
    (pathName path).chars = path.flatMap fun segment => Fqsen.separator :: segment.toList := by
  induction path using List.reverseRecOn with
  | nil => exact absurd rfl hne
  | append_singleton front segment ih =>
    obtain ⟨hfront, hlast⟩ := List.forall_mem_append.mp hpath
    rw [pathName_append, Fqsen.chars_join _ (hlast segment (List.mem_singleton_self _)),
      isRoot_pathName hfront, List.flatMap_append]
    cases front with
    | nil => simp
    | cons first rest =>
      rw [← ih hfront (List.cons_ne_nil first rest)]
      simp

include hpath hother in
theorem pathName_inj (h : pathName path = pathName other) : path = other := by
  rw [← segments_pathName hpath, h, segments_pathName hother]

include hpath in
theorem dotted_pathName (hne : path ≠ []) :
    (pathName path).dotted = '.' :: (Text.join "." path).toList := by
  have hplain (segment : String) (h : segment ∈ path) : segment.toList.map
      (fun c => if c = Fqsen.separator then '.' else c) = segment.toList := by
    refine (List.map_congr_left fun c hc => ?_).trans (List.map_id _)
    rw [if_neg fun heq : c = Fqsen.separator => (hpath segment h).plain (heq ▸ hc), id]
  have hall : (pathName path).dotted = path.flatMap fun segment => '.' :: segment.toList := by
    rw [Fqsen.dotted, chars_pathName hpath hne, List.map_flatMap]
    exact List.flatMap_congr fun segment h => by rw [List.map_cons, hplain segment h, if_pos rfl]
  obtain ⟨first, rest, rfl⟩ := List.exists_cons_of_ne_nil hne
  rw [hall, Text.toList_join, List.map_cons, Text.joinWith_cons, List.flatMap_cons,
    List.flatMap_map]
  rfl

include hpath in
theorem pathName_eq_root_iff : pathName path = Fqsen.root ↔ path = [] := by
  refine ⟨fun h => ?_, fun h => h ▸ rfl⟩
  rw [← segments_pathName hpath, h]
  rfl

include hpath in
theorem slug_pathName (hne : path ≠ []) : Router.slug (pathName path) = Text.join "." path := by
  rw [Router.slug, isRoot_pathName hpath, segments_pathName hpath, if_neg (by simpa using hne)]

include hpath in
theorem dot_mem_join (h : '.' ∈ (pathName path).chars) : '.' ∈ (Text.join "." path).toList := by
  have hne : path ≠ [] := by
    rintro rfl
    revert h
    decide
  rw [chars_pathName hpath hne] at h
  obtain ⟨segment, hsegment, hdot⟩ := List.mem_flatMap.mp h
  rw [Text.toList_join]
  refine Text.mem_joinWith_of_mem ?_ (List.mem_map_of_mem hsegment)
  exact (List.mem_cons.mp hdot).resolve_left (by decide)

include hpath in
/-- Besides the root only the name `default` is written like the root. -/
theorem slug_eq_default_iff (hne : path ≠ []) :
    Router.slug (pathName path) = "default" ↔ (pathName path).text = "\\default" := by
  have hdotted := dotted_pathName hpath hne
  rw [slug_pathName hpath hne]
  constructor
  · intro heq
    have hnodot : '.' ∉ (pathName path).chars := fun hdot => by
      have hjoin := dot_mem_join hpath hdot
      rw [heq] at hjoin
      revert hjoin
      decide
    have hsame : pathName path = ⟨"\\default"⟩ := by
      refine Fqsen.eq_of_dotted_eq ?_ hnodot (by decide)
      rw [hdotted, heq]
      decide
    rw [hsame]
  · intro heq
    have hsame : pathName path = ⟨"\\default"⟩ := Fqsen.eq_of_text_eq heq
    rw [hsame] at hdotted
    rw [← String.toList_inj]
    exact (List.cons.inj hdotted).2.symm

include hpath hother in
/-- The names that are written like each other. -/
theorem slug_eq_iff (hne : path ≠ other) :
    Router.slug (pathName path) = Router.slug (pathName other) ↔
      Fqsen.RootAndDefault (pathName path) (pathName other) ∨
        Fqsen.DotForSeparator (pathName path) (pathName other) := by
  have hroot : Router.slug (pathName []) = "default" := rfl
  rw [Fqsen.RootAndDefault, Fqsen.DotForSeparator, ne_eq, ne_eq, pathName_eq_root_iff hpath,
    pathName_eq_root_iff hother]
  by_cases hnil : path = []
  · subst hnil
    have hdefault := slug_eq_default_iff hother (Ne.symm hne)
    rw [hroot, eq_comm, hdefault]
    simp [Ne.symm hne]
  · by_cases hnil' : other = []
    · subst hnil'
      rw [hroot, slug_eq_default_iff hpath hne]
      simp [hne]
    · have hread : Router.slug (pathName path) = Router.slug (pathName other) ↔
          (pathName path).dotted = (pathName other).dotted := by
        rw [slug_pathName hpath hnil, slug_pathName hother hnil', dotted_pathName hpath hnil,
          dotted_pathName hother hnil', List.cons_inj_right, String.toList_inj]
      rw [hread]
      simp only [hnil, hnil', false_and, and_false, or_false, false_or, not_false_eq_true, true_and]
      refine ⟨fun heq => ⟨heq, ?_⟩, fun h => h.1⟩
      by_contra hnodot
      rw [not_or] at hnodot
      exact hne (pathName_inj hpath hother (Fqsen.eq_of_dotted_eq heq hnodot.1 hnodot.2))

end Names

/-! ### Names in trees -/

namespace Taxonomy

variable {P : List String → Prop} {t : Taxonomy}

/-- The nodes lie at paths of a kind. -/
def LiesIn (P : List String → Prop) (t : Taxonomy) : Prop :=
  ∃ paths load, t.Branches paths load ∧ ∀ path ∈ paths, P path

theorem liesIn_fresh (kind : TaxonomyKind) (hroot : P []) : (fresh kind).LiesIn P :=
  ⟨_, _, branches_fresh kind, by simpa using hroot⟩

/-- Making a name sure to be there and changing what is on its node. -/
theorem LiesIn.loadAt (h : t.LiesIn P) {fullName : Fqsen}
    (hways : ∀ front, front <+: fullName.segments → P front) {g : Node → Node}
    (hg : Node.Loads g) :
    ((t.ensure fullName).tree.modifyNode (t.ensure fullName).id g).LiesIn P := by
  obtain ⟨paths, load, hbranches, hall⟩ := h
  obtain ⟨grown, hgrown, hend, hpaths⟩ := hbranches.ensure fullName
  refine ⟨grown, _, hgrown.modifyNode hend hg, fun path hpath => ?_⟩
  exact ((hpaths path).mp hpath).elim (hall path) (hways path)

theorem LiesIn.placeAll (h : t.LiesIn P) (entries : List Placing)
    (hways : ∀ e ∈ entries, ∀ front, front <+: e.name.segments → P front) :
    (entries.foldl Taxonomy.place t).LiesIn P := by
  induction entries generalizing t with
  | nil => exact h
  | cons e rest ih =>
    obtain ⟨hhead, hrest⟩ := List.forall_mem_cons.mp hways
    exact ih (h.loadAt hhead (Node.loads_addFile e.path e.id)) hrest

theorem LiesIn.attachAll (h : t.LiesIn P) (named : List (ElementRef × Fqsen))
    (hways : ∀ e ∈ named, ∀ front, front <+: e.2.segments → P front) :
    (named.foldl (fun t e => Compile.attachAt t e.2 e.1) t).LiesIn P := by
  induction named generalizing t with
  | nil => exact h
  | cons e rest ih =>
    obtain ⟨hhead, hrest⟩ := List.forall_mem_cons.mp hways
    exact ih (h.loadAt hhead (Node.loads_attach e.1)) hrest

/-- The names of the nodes are those of different paths of a kind. -/
def Named (P : List String → Prop) (t : Taxonomy) : Prop :=
  ∃ paths : List (List String), paths.Nodup ∧
    (∀ path ∈ paths, P path ∧ ∀ segment ∈ path, IsSegment segment) ∧
      t.nodes.map Node.fullName = paths.map pathName

theorem LiesIn.named (h : t.LiesIn P) : t.Named P := by
  obtain ⟨paths, load, hbranches, hall⟩ := h
  exact ⟨paths, hbranches.nodup, fun path hpath => ⟨hall path hpath, hbranches.segments path hpath⟩,
    hbranches.map_fullName⟩

theorem map_fullName_retain (keep : ElementRef → Bool) (t : Taxonomy) :
    (t.mapNodes (Node.retain keep)).nodes.map Node.fullName = t.nodes.map Node.fullName := by
  rw [mapNodes, List.map_map]
  rfl

theorem Named.congr {u : Taxonomy} (h : t.Named P)
    (heq : u.nodes.map Node.fullName = t.nodes.map Node.fullName) : u.Named P := by
  obtain ⟨paths, hnodup, hall, hnames⟩ := h
  exact ⟨paths, hnodup, hall, heq.trans hnames⟩

/-- Two nodes have the names of two paths. -/
theorem Named.exists_paths (h : t.Named P) {i j : Nat} {n m : Node} (hn : t.node? i = some n)
    (hm : t.node? j = some m) (hne : i ≠ j) : ∃ path other : List String, path ≠ other ∧
      n.fullName = pathName path ∧ m.fullName = pathName other ∧
      (P path ∧ ∀ segment ∈ path, IsSegment segment) ∧
      P other ∧ ∀ segment ∈ other, IsSegment segment := by
  obtain ⟨paths, hnodup, hall, hnames⟩ := h
  have hname {id : Nat} {n : Node} (hn : t.node? id = some n) :
      ∃ path, paths[id]? = some path ∧ n.fullName = pathName path := by
    have hget := congrArg (·[id]?) hnames
    simp only [List.getElem?_map] at hget
    rw [node?] at hn
    rw [hn, Option.map_some] at hget
    obtain ⟨path, hpath, heq⟩ := Option.map_eq_some_iff.mp hget.symm
    exact ⟨path, hpath, heq.symm⟩
  obtain ⟨path, hpath, hpathName⟩ := hname hn
  obtain ⟨other, hother, hotherName⟩ := hname hm
  refine ⟨path, other, fun heq => hne ?_, hpathName, hotherName,
    hall path (List.mem_of_getElem? hpath), hall other (List.mem_of_getElem? hother)⟩
  subst heq
  exact (List.getElem?_inj (List.getElem?_eq_some_iff.mp hpath).1 hnodup).mp
    (hpath.trans hother.symm)

end Taxonomy

/-! ### Names of packages -/

theorem Fqsen.mem_chars_of_mem_segments {f : Fqsen} {segment : String} {c : Char}
    (hsegment : segment ∈ f.segments) (hc : c ∈ segment.toList) : c ∈ f.chars := by
  obtain ⟨cs, hcs, rfl⟩ := List.mem_map.mp hsegment
  rw [String.toList_ofList] at hc
  exact Text.mem_of_mem_splitOn (List.mem_filter.mp hcs).1 hc

theorem Fqsen.mem_chars_ofText {text : String} {c : Char} (h : c ∈ (ofText text).chars) :
    c = separator ∨ c ∈ text.toList := by
  rw [ofText] at h
  split at h
  · next rest htrim =>
    rw [chars_ofChars, ← htrim] at h
    exact .inr (Text.mem_of_mem_trim h)
  · rw [chars_ofChars, List.mem_cons] at h
    exact h.imp_right Text.mem_of_mem_trim

namespace Compile

theorem mem_of_mem_packageNode {name segment : String} {c : Char}
    (hsegment : segment ∈ (packageNode name).segments) (hc : c ∈ segment.toList) :
    c ∈ name.toList := by
  have hplain : c ≠ Fqsen.separator := fun heq =>
    (Fqsen.isSegment_of_mem_segments hsegment).plain (heq ▸ hc)
  have htext := (Fqsen.mem_chars_ofText (Fqsen.mem_chars_of_mem_segments hsegment hc)).resolve_left
    hplain
  rw [String.toList_append, List.mem_append] at htext
  rcases htext with hfront | hback
  · exact absurd (List.mem_singleton.mp hfront) hplain
  · rw [String.toList_ofList] at hback
    exact Text.mem_of_mem_dropLeadChar hback

/-- Letters and digits stay in the name of a package. -/
theorem normalizePackage_ne_empty {name : String} {c : Char} (hc : c ∈ name.toList)
    (halphanum : c.isAlphanum = true) : normalizePackage name ≠ "" := by
  have hkept : isPackageChar c = true := by rw [isPackageChar, halphanum, Bool.true_or]
  have hne : c ≠ '\\' := by
    rintro rfl
    revert halphanum
    decide
  have hparts : c ∈ (Text.trim name.toList).map fun d => if isOldSeparator d then '\\' else d := by
    refine List.mem_map.mpr ⟨c, Text.mem_trim hc (isBlank_of_isPackageChar hkept), ?_⟩
    rw [if_neg (by simp [isOldSeparator_of_isPackageChar hkept])]
  intro hempty
  have hmem : c ∈ (normalizePackage name).toList := by
    rw [normalizePackage, String.toList_ofList]
    exact List.mem_filter.mpr ⟨Text.mem_dropTrailChar hparts hne, hkept⟩
  rw [hempty] at hmem
  exact absurd hmem List.not_mem_nil

/-- Paths of packages: with letters and digits only, or on the way to a default package that has
none of them. -/
def PackagePath (default : String) (path : List String) : Prop :=
  (∀ segment ∈ path, ∀ c ∈ segment.toList, c.isAlphanum = true) ∨
    (normalizePackage default = "" ∧ path <+: (packageNode default).segments)

theorem packagePath_of_chars {default name : String}
    (h : ∀ c ∈ name.toList, isPackageChar c = true) {front : List String}
    (hfront : front <+: (packageNode name).segments) : PackagePath default front := by
  refine .inl fun segment hsegment c hc => ?_
  have hmem := hfront.subset hsegment
  have hchar := h c (mem_of_mem_packageNode hmem hc)
  rw [isPackageChar, Bool.or_eq_true, beq_iff_eq] at hchar
  refine hchar.resolve_right ?_
  rintro rfl
  exact (Fqsen.isSegment_of_mem_segments hmem).plain hc

theorem packagePath_packageOfFile (defaultName : String) (f : File) {front : List String}
    (hfront : front <+: (packageNode (packageOfFile (defaultPackage defaultName) f)).segments) :
    PackagePath (defaultPackage defaultName) front := by
  rcases packageOfFile_cases defaultName f with ⟨-, hchars⟩ | ⟨heq, hempty⟩
  · exact packagePath_of_chars hchars hfront
  · rw [heq] at hempty hfront
    exact .inr ⟨hempty, hfront⟩

theorem packagePath_packageOfElement {default filePackage : String}
    (hfile : ∀ front, front <+: (packageNode filePackage).segments → PackagePath default front)
    (info : Info) {front : List String}
    (hfront : front <+: (packageNode (packageOfElement filePackage info)).segments) :
    PackagePath default front := by
  rw [packageOfElement] at hfront
  cases htag : taggedPackage? info.tags with
  | some name =>
    rw [htag] at hfront
    exact packagePath_of_chars (isPackageName_of_tagged htag).chars hfront
  | none =>
    rw [htag, Option.none_or] at hfront
    cases hrecorded : recorded? info.package with
    | some name =>
      rw [hrecorded] at hfront
      obtain ⟨old, -, rfl⟩ := Option.map_eq_some_iff.mp (Option.filter_eq_some_iff.mp hrecorded).1
      exact packagePath_of_chars (fun c hc => isPackageChar_of_normalize hc) hfront
    | none =>
      rw [hrecorded] at hfront
      exact hfile front hfront

theorem dot_not_mem_of_isAlphanum {path : List String}
    (h : ∀ segment ∈ path, ∀ c ∈ segment.toList, c.isAlphanum = true) :
    ∀ part ∈ path.map String.toList, '.' ∉ part := by
  intro part hpart hdot
  obtain ⟨segment, hsegment, rfl⟩ := List.mem_map.mp hpart
  exact absurd (h segment hsegment '.' hdot) (by decide)

/-- A name with letters and digits only is none on the way to the default one, if that has none of
them. -/
theorem joinWith_dot_ne_of_normalizePackage {default : String} {path other : List String}
    (hpath : ∀ segment ∈ path, IsSegment segment) (hroot : path ≠ [])
    (h : ∀ segment ∈ path, ∀ c ∈ segment.toList, c.isAlphanum = true)
    (hempty : normalizePackage default = "") (hway : other <+: (packageNode default).segments) :
    Text.joinWith ".".toList (path.map String.toList) ≠
      Text.joinWith ".".toList (other.map String.toList) := by
  intro heq
  obtain ⟨segment, hsegment⟩ := List.exists_mem_of_ne_nil path hroot
  have hnonempty : segment.toList ≠ [] := fun hnil =>
    (hpath segment hsegment).ne (by simpa using hnil)
  obtain ⟨c, hc⟩ := List.exists_mem_of_ne_nil _ hnonempty
  have halphanum := h segment hsegment c hc
  have hmem : c ∈ Text.joinWith ".".toList (path.map String.toList) :=
    Text.mem_joinWith_of_mem hc (List.mem_map_of_mem hsegment)
  rw [heq] at hmem
  rcases Text.mem_joinWith hmem with hsep | ⟨part, hpart, hcpart⟩
  · obtain rfl : c = '.' := by simpa using hsep
    exact absurd halphanum (by decide)
  · obtain ⟨segment, hsegment, rfl⟩ := List.mem_map.mp hpart
    exact normalizePackage_ne_empty (mem_of_mem_packageNode (hway.subset hsegment) hcpart)
      halphanum hempty

/-- Of two ways to one package one is longer than the other. -/
theorem joinWith_dot_ne_of_prefix {path other : List String} (hroot : path ≠ []) (hne : path ≠ other)
    (hfront : path <+: other) : Text.joinWith ".".toList (path.map String.toList) ≠
      Text.joinWith ".".toList (other.map String.toList) := by
  obtain ⟨more, rfl⟩ := hfront
  have hmore : more ≠ [] := fun hnil => hne (by rw [hnil, List.append_nil])
  have hparts : path.map String.toList ≠ [] := by simpa using hroot
  have hmores : more.map String.toList ≠ [] := by simpa using hmore
  have hlt := Text.length_joinWith_lt '.' hparts hmores
  rw [List.map_append]
  exact fun heq => absurd (congrArg List.length heq) (Nat.ne_of_lt hlt)

/-- No two packages differ in dots and separators only. -/
theorem PackagePath.not_dotForSeparator {default : String} {path other : List String}
    (h : PackagePath default path) (h' : PackagePath default other)
    (hpath : ∀ segment ∈ path, IsSegment segment) (hother : ∀ segment ∈ other, IsSegment segment)
    (hne : path ≠ other) : ¬ Fqsen.DotForSeparator (pathName path) (pathName other) := by
  rintro ⟨hroot, hroot', hdotted, -⟩
  rw [ne_eq, pathName_eq_root_iff hpath] at hroot
  rw [ne_eq, pathName_eq_root_iff hother] at hroot'
  rw [dotted_pathName hpath hroot, dotted_pathName hother hroot', List.cons_inj_right,
    Text.toList_join, Text.toList_join] at hdotted
  rcases h with h | ⟨hempty, hway⟩
  · rcases h' with h' | ⟨hempty, hway⟩
    · refine hne (List.map_injective_iff.mpr (fun _ _ => String.toList_inj.mp) ?_)
      exact Text.joinWith_inj (by simpa using hroot) (by simpa using hroot')
        (dot_not_mem_of_isAlphanum h) (dot_not_mem_of_isAlphanum h') hdotted
    · exact joinWith_dot_ne_of_normalizePackage hpath hroot h hempty hway hdotted
  · rcases h' with h' | ⟨-, hway'⟩
    · exact joinWith_dot_ne_of_normalizePackage hother hroot' h' hempty hway hdotted.symm
    · rcases List.prefix_or_prefix_of_prefix hway hway' with hfront | hfront
      · exact joinWith_dot_ne_of_prefix hroot hne hfront hdotted
      · exact joinWith_dot_ne_of_prefix hroot' (Ne.symm hne) hfront hdotted.symm

/-! ### Names in compiled sets -/

theorem packagePath_of_mem_elementPackages {s : ApiSet} {defaultName : String}
    {e : ElementRef × String} (he : e ∈ elementPackages (defaultPackage defaultName) s)
    {front : List String} (hfront : front <+: (packageNode e.2).segments) :
    PackagePath (defaultPackage defaultName) front := by
  obtain ⟨-, item, f, -, -, heq⟩ := mem_elementPackages_iff.mp he
  rw [heq] at hfront
  exact packagePath_packageOfElement (fun front => packagePath_packageOfFile defaultName f)
    item.info hfront

theorem liesIn_packageTree {s : ApiSet} (hs : s.packages = .fresh .packages)
    (defaultName : String) : (packageTree (defaultPackage defaultName) s).LiesIn
      (PackagePath (defaultPackage defaultName)) := by
  have hfresh : (Taxonomy.fresh .packages).LiesIn (PackagePath (defaultPackage defaultName)) :=
    Taxonomy.liesIn_fresh .packages (.inl (by simp))
  rw [packageTree, hs]
  refine (hfresh.placeAll _ fun e he front hfront => ?_).attachAll _ fun e he front hfront => ?_
  · obtain ⟨entry, -, rfl⟩ := List.mem_map.mp he
    dsimp only [placing] at hfront
    exact packagePath_packageOfFile defaultName entry.2 hfront
  · obtain ⟨entry, hentry, rfl⟩ := List.mem_map.mp he
    dsimp only at hfront
    exact packagePath_of_mem_elementPackages hentry hfront

/-- The root is in the tree of packages, and so is the package of each file. -/
theorem mem_names_packageTree {s : ApiSet} (hs : s.packages = .fresh .packages)
    (hpaths : (s.files.map File.path).Nodup) (default : String) :
    Fqsen.root ∈ (packageTree default s).nodes.map Node.fullName ∧
      ∀ f ∈ s.files, pathName (packageNode (packageOfFile default f)).segments ∈
        (packageTree default s).nodes.map Node.fullName := by
  obtain ⟨paths, load, hbranches, hfiles, -⟩ := exists_branches_packageTree hs hpaths default
  rw [hbranches.map_fullName]
  refine ⟨List.mem_map.mpr ⟨[], List.mem_of_getElem? hbranches.root, rfl⟩, fun f hf => ?_⟩
  obtain ⟨id, hid⟩ := List.getElem?_of_mem hf
  exact List.mem_map_of_mem (hfiles id f hid)

theorem names_filterSet (settings : Settings) (v : ApiSet) :
    (filterSet settings v).state.namespaces.nodes.map Node.fullName =
        v.namespaces.nodes.map Node.fullName ∧
      (filterSet settings v).state.packages.nodes.map Node.fullName =
        v.packages.nodes.map Node.fullName := by
  have hlast := (retouch_unlinkRemoved (pruned (settled settings v))).2
  have hsettled := frame_settled settings v
  rw [state_filterSet, ApiSet.namespaces_congr hlast, ApiSet.packages_congr hlast,
    ← ApiSet.namespaces_congr hsettled, ← ApiSet.packages_congr hsettled]
  exact ⟨Taxonomy.map_fullName_retain .., Taxonomy.map_fullName_retain ..⟩

/-- The last steps leave the names in both trees as they were when the trees were built. -/
theorem Course.names {settings : Settings} {s v : ApiSet} (h : Course settings s v) :
    (filterSet settings v).state.namespaces.nodes.map Node.fullName =
        (withSpaces (linked (withIndexes s))).namespaces.nodes.map Node.fullName ∧
      (filterSet settings v).state.packages.nodes.map Node.fullName =
        (packageTree (defaultPackage settings.defaultPackage)
          (withSpaces (linked (withIndexes s)))).nodes.map Node.fullName := by
  obtain ⟨u, hu, -, hframe⟩ := h.exists_prepared
  have hsame := hframe.trans hu.frame_eq
  obtain ⟨hspaces, hpackages⟩ := names_filterSet settings v
  rw [hspaces, hpackages, ApiSet.namespaces_congr hsame, ApiSet.packages_congr hsame,
    namespaces_withPackages, packages_withPackages]
  exact ⟨rfl, rfl⟩

end Compile

/-- What keeps a project keeps its API sets, place by place. -/
theorem Project.Keeps.apiSet? {p q : Project} (h : p.Keeps q) {v i : Nat} {s t : ApiSet}
    (hs : p.apiSet? v i = some s) (ht : q.apiSet? v i = some t) : s.Keeps t := by
  obtain ⟨version, hversion, hset⟩ := Project.apiSet?_eq_some_iff.mp hs
  obtain ⟨version', hversion', hset'⟩ := Project.apiSet?_eq_some_iff.mp ht
  obtain ⟨hv, hget⟩ := List.getElem?_eq_some_iff.mp hversion
  obtain ⟨hv', hget'⟩ := List.getElem?_eq_some_iff.mp hversion'
  have hversions : version.Keeps version' := by
    rw [← hget, ← hget']
    exact h.versions.get hv hv'
  obtain ⟨hi, hget⟩ := List.getElem?_eq_some_iff.mp hset
  obtain ⟨hi', hget'⟩ := List.getElem?_eq_some_iff.mp hset'
  have hsets : DocSet.Keeps (.api s) (.api t) := by
    rw [← hget, ← hget']
    exact hversions.sets.get hi hi'
  cases hsets with
  | api hkeeps => exact hkeeps

/-- A set of which no trees were built. -/
structure ApiSet.Unbuilt (s : ApiSet) : Prop where
  namespaces_eq : s.namespaces = .fresh .namespaces
  packages_eq : s.packages = .fresh .packages

theorem ApiSet.Fresh.unbuilt {s : ApiSet} (hs : s.Fresh) : s.Unbuilt :=
  ⟨hs.namespaces_eq, hs.packages_eq⟩

/-- Indexes and addresses build no trees. -/
theorem ApiSet.Unbuilt.linked {s : ApiSet} (hs : s.Unbuilt) :
    (Compile.linked (Compile.withIndexes s)).Unbuilt := by
  have hframe := Compile.frame_linked (Compile.withIndexes s)
  obtain ⟨hspaces, hpackages⟩ := Compile.trees_withIndexes s
  constructor
  · rw [ApiSet.namespaces_congr hframe, hspaces, hs.namespaces_eq]
  · rw [ApiSet.packages_congr hframe, hpackages, hs.packages_eq]

namespace Compile

theorem named_of_course {settings : Settings} {s v : ApiSet} (hs : s.Unbuilt)
    (h : Course settings s v) :
    (filterSet settings v).state.namespaces.Named (fun _ => True) ∧
      (filterSet settings v).state.packages.Named
        (PackagePath (defaultPackage settings.defaultPackage)) := by
  have hlinked := hs.linked
  have hpackages := (packages_withSpaces (linked (withIndexes s))).trans hlinked.packages_eq
  obtain ⟨paths, load, hbranches, -⟩ := exists_branches_withSpaces hlinked.namespaces_eq
  have htree : (withSpaces (linked (withIndexes s))).namespaces.LiesIn (fun _ => True) :=
    ⟨paths, load, hbranches, fun _ _ => trivial⟩
  obtain ⟨hspaceNames, hpackageNames⟩ := h.names
  exact ⟨htree.named.congr hspaceNames,
    (liesIn_packageTree hpackages settings.defaultPackage).named.congr hpackageNames⟩

end Compile

/-! ### Pages of compiled sets -/

/-- The standard layout has one page for both destinations. -/
def Router.OnePage (d d' : Destination) : Prop :=
  ∃ url, standard.page d = .ok url ∧ standard.page d' = .ok url

/-- Everything in the set has a page, and what has one page. -/
structure ApiSet.Paged (t : ApiSet) : Prop where
  page : ∀ target d, t.destination? target = some d → ∃ url, Router.standard.page d = .ok url
  files : ∀ i j f g, t.file? i = some f → t.file? j = some g →
    (Router.OnePage (.file f.path) (.file g.path) ↔ Router.SamePath f.path g.path)
  spaces : ∀ i j n m, i ≠ j → t.namespaces.node? i = some n → t.namespaces.node? j = some m →
    (Router.OnePage (.spaceNode n.fullName) (.spaceNode m.fullName) ↔
      Fqsen.RootAndDefault n.fullName m.fullName ∨ Fqsen.DotForSeparator n.fullName m.fullName)
  packages : ∀ i j n m, i ≠ j → t.packages.node? i = some n → t.packages.node? j = some m →
    (Router.OnePage (.packageNode n.fullName) (.packageNode m.fullName) ↔
      Fqsen.RootAndDefault n.fullName m.fullName)

namespace Router

theorem onePage_iff {d d' : Destination} {url url' : String} (h : standard.page d = .ok url)
    (h' : standard.page d' = .ok url') : OnePage d d' ↔ url = url' := by
  rw [OnePage, h, h']
  constructor
  · rintro ⟨_, heq, heq'⟩
    exact (Except.ok.inj heq).trans (Except.ok.inj heq').symm
  · rintro rfl
    exact ⟨url, rfl, rfl⟩

theorem onePage_file (path other : String) :
    OnePage (.file path) (.file other) ↔ filePage path = filePage other :=
  onePage_iff rfl rfl

theorem onePage_spaceNode (f g : Fqsen) :
    OnePage (.spaceNode f) (.spaceNode g) ↔ slug f = slug g := by
  have hpages : OnePage (.spaceNode f) (.spaceNode g) ↔ spacePage f = spacePage g :=
    onePage_iff rfl rfl
  rw [hpages, spacePage, spacePage, String.append_left_inj, String.append_right_inj]

theorem onePage_packageNode (f g : Fqsen) :
    OnePage (.packageNode f) (.packageNode g) ↔ slug f = slug g := by
  have hpages : OnePage (.packageNode f) (.packageNode g) ↔ packagePage f = packagePage g :=
    onePage_iff rfl rfl
  rw [hpages, packagePage, packagePage, String.append_left_inj, String.append_right_inj]

end Router

/-- The names in the trees decide which of their nodes have one page. -/
theorem ApiSet.paged_of_named {t : ApiSet} {default : String}
    (hspaces : t.namespaces.Named fun _ => True)
    (hpackages : t.packages.Named (Compile.PackagePath default)) : t.Paged where
  page _ d _ := Router.exists_page_standard d
  files i j f g _ _ := by rw [Router.onePage_file, Router.filePage_eq_iff]
  spaces i j n m hne hn hm := by
    obtain ⟨path, other, hpaths, hname, hname', ⟨-, hpath⟩, -, hother⟩ :=
      hspaces.exists_paths hn hm hne
    rw [Router.onePage_spaceNode, hname, hname', slug_eq_iff hpath hother hpaths]
  packages i j n m hne hn hm := by
    obtain ⟨path, other, hpaths, hname, hname', ⟨hkind, hpath⟩, hkind', hother⟩ :=
      hpackages.exists_paths hn hm hne
    have hno := hkind.not_dotForSeparator hkind' hpath hother hpaths
    rw [Router.onePage_packageNode, hname, hname', slug_eq_iff hpath hother hpaths,
      or_iff_left hno]

namespace Compiler

/-- In every compiled set two files have one page if and only if their paths are alike, two
namespaces if and only if their names are the same with dots for separators or one is the root and
the other is called `default`, and two packages if and only if one is the root and the other is
called `default`. -/
theorem paged_of_compile {services : Services} {p : Project} (hp : ∀ s ∈ p.apiSets, s.Unbuilt)
    (hok : (standard.compile services p).failure = none) :
    ∀ t ∈ (standard.compile services p).state.apiSets, t.Paged := by
  intro t ht
  obtain ⟨s, hs, v, hcourse, heq⟩ := Compile.exists_course hok ht
  obtain ⟨hspaces, hpackages⟩ := Compile.named_of_course (hp s hs) hcourse
  rw [heq]
  exact ApiSet.paged_of_named hspaces hpackages

/-- A namespace and a package called like the page of the root. -/
def defaultSource : SourceText :=
  ⟨"a/b.php", "<?php /** @package default */ namespace default; const C = 1;"⟩

/-- A namespace and a constant of another one whose name has a dot for the separator. -/
def dotSource : SourceText := ⟨"a-b.inc", "<?php namespace A\\B; const D = 1; define('A.B\\E', 1);"⟩

def meetingSet : ApiSet := .ofSources [defaultSource, dotSource]

def meeting : Project := .ofSources { markers := [] } [defaultSource, dotSource]

def compileMeeting : Attempt Project :=
  standard.compile ⟨.standard, fun request => .error (.notFound request.path)⟩ meeting

theorem failure_compileMeeting : compileMeeting.failure = none :=
  failure_standard Router.exists_page_standard rfl rfl

/-- The set of both sources when its packages are read. -/
def spacedMeeting : ApiSet := Compile.withSpaces (Compile.linked (Compile.withIndexes meetingSet))

/-- The files and names of this set, computed at once. -/
theorem names_spacedMeeting : meetingSet.files.map File.path = ["a/b.php", "a-b.inc"] ∧
    (spacedMeeting.files.map File.path).Nodup ∧
    spacedMeeting.namespaces.nodes.map (Fqsen.text ∘ Node.fullName) =
      ["\\", "\\A.B", "\\A", "\\A\\B", "\\default"] ∧
    "default" ∈ spacedMeeting.files.map (Compile.packageOfFile "Default") := by
  decide +kernel

/-- What the compiled set of both sources has. -/
theorem exists_compiled_meeting : ∃ t, compileMeeting.state.apiSet? 0 0 = some t ∧
    t.files.map File.path = ["a/b.php", "a-b.inc"] ∧
    t.namespaces.nodes.map (fun n => n.fullName.text) =
      ["\\", "\\A.B", "\\A", "\\A\\B", "\\default"] ∧
    Fqsen.root ∈ t.packages.nodes.map Node.fullName ∧
    ⟨"\\default"⟩ ∈ t.packages.nodes.map Node.fullName := by
  obtain ⟨hpaths, hnodup, hnames, hpackage⟩ := names_spacedMeeting
  have hset : compileMeeting.state.apiSet? 0 0 = some (Compile.filterSet meeting.settings
      (Compile.ready _ meeting.settings meetingSet)).state :=
    (Compile.apiSet?_compile failure_compileMeeting 0 0).trans rfl
  have hkeeps := (keeps_of_compile _ meeting).apiSet? (s := meetingSet) rfl hset
  obtain ⟨hspaces, hpackages⟩ := (Compile.course_ready
    ⟨.standard, fun request => .error (.notFound request.path)⟩ meeting.settings meetingSet).names
  have hunbuilt := (ApiSet.fresh_ofSources [defaultSource, dotSource]).unbuilt.linked
  have hbuilt : spacedMeeting.packages = .fresh .packages :=
    (Compile.packages_withSpaces _).trans hunbuilt.packages_eq
  obtain ⟨hroot, hfile⟩ := Compile.mem_names_packageTree hbuilt hnodup "Default"
  have htexts := congrArg (List.map Fqsen.text) hspaces
  rw [List.map_map, List.map_map] at htexts
  refine ⟨_, hset, hkeeps.map_path.trans hpaths, htexts.trans hnames, hpackages ▸ hroot, ?_⟩
  obtain ⟨f, hf, heq⟩ := List.mem_map.mp hpackage
  have hmem := hfile f hf
  rw [heq] at hmem
  exact hpackages ▸ hmem

/-- Two files, two namespaces twice, and two packages of one compiled set have one page. -/
theorem onePage_meeting : compileMeeting.failure = none ∧
    ∃ t, compileMeeting.state.apiSet? 0 0 = some t ∧
      t.files.map File.path = ["a/b.php", "a-b.inc"] ∧
      Router.OnePage (.file "a/b.php") (.file "a-b.inc") ∧
      t.namespaces.nodes.map (fun n => n.fullName.text) =
        ["\\", "\\A.B", "\\A", "\\A\\B", "\\default"] ∧
      Router.OnePage (.spaceNode ⟨"\\"⟩) (.spaceNode ⟨"\\default"⟩) ∧
      Router.OnePage (.spaceNode ⟨"\\A.B"⟩) (.spaceNode ⟨"\\A\\B"⟩) ∧
      Fqsen.root ∈ t.packages.nodes.map Node.fullName ∧
      ⟨"\\default"⟩ ∈ t.packages.nodes.map Node.fullName ∧
      Router.OnePage (.packageNode Fqsen.root) (.packageNode ⟨"\\default"⟩) := by
  obtain ⟨t, ht, hfiles, hspaces, hroot, hdefault⟩ := exists_compiled_meeting
  refine ⟨failure_compileMeeting, t, ht, hfiles, ?_, hspaces, ?_, ?_, hroot, hdefault, ?_⟩
  · exact (Router.onePage_file ..).mpr (by decide +kernel)
  · exact (Router.onePage_spaceNode ..).mpr (by decide +kernel)
  · exact (Router.onePage_spaceNode ..).mpr (by decide +kernel)
  · exact (Router.onePage_packageNode ..).mpr (by decide +kernel)

/-- The compiled set of both sources has what meets on one page, and nothing else in it does. -/
theorem paged_of_compile_meeting : compileMeeting.failure = none ∧
    ∃ t, compileMeeting.state.apiSet? 0 0 = some t ∧
      t.namespaces.nodes.map (fun n => n.fullName.text) =
        ["\\", "\\A.B", "\\A", "\\A\\B", "\\default"] ∧ t.Paged := by
  obtain ⟨t, ht, -, hspaces, -⟩ := exists_compiled_meeting
  have hunbuilt : ∀ s ∈ meeting.apiSets, s.Unbuilt := fun s hs =>
    (Project.fresh_ofSources _ [defaultSource, dotSource] s hs).unbuilt
  exact ⟨failure_compileMeeting, t, ht, hspaces, paged_of_compile hunbuilt failure_compileMeeting t
    (Project.mem_apiSets_iff_apiSet?.mpr ⟨0, 0, ht⟩)⟩

end Compiler

end ApiDoc
