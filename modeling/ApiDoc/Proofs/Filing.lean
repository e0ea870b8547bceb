import Mathlib.Data.List.Perm.Basic
import ApiDoc.Proofs.Attachment
import ApiDoc.Proofs.Mentions

/-!
# Where elements and files are filed

The indexes of the kinds list the elements that are no members. Both trees hold each of them once:
the tree of namespaces at the node of its namespace, the tree of packages at the node of the package
that is recorded on it. A file stands at the node of its own package. The nodes themselves are
entered once in the index of their tree, and once, behind a mark, among all elements. All of this is
settled by the names: a node is found where its path leads, so a name that is spelled twice leads to
one node.
-/

namespace ApiDoc

namespace Compile

/-! ### Packages on elements and files -/

/-- The package of an element that was read: the one its tags name, else that of its file, which is
the one the tags of the file name, else the one the file declares, else the default. -/
def packageFor (default : String) (f : File) (item : Item) : String :=
  ((taggedPackage? item.tags).or ((taggedPackage? f.tags).or (recorded? f.package))).getD default

theorem packageOfElement_eq_packageFor {item : Item} (h : item.info.package = none)
    (default : String) (f : File) :
    packageOfElement (packageOfFile default f) item.info = packageFor default f item := by
  have hnone : recorded? item.info.package = none := by rw [h]; rfl
  rw [packageOfElement, hnone, Option.or_none, packageFor, packageOfFile]
  exact Option.getD_or.symm

theorem file?_notePackages (default : String) (s : ApiSet) (id : Nat) :
    (notePackages default s).file? id = (s.file? id).map fun f =>
      { f with package := some (packageOfFile default f) } := by
  have hfile := ApiSet.file?_foldl_modifyFile Prod.fst (setPackage default) s.numbered s id
  rw [notePackages, hfile, ApiSet.filter_numbered]
  cases s.file? id with
  | none => rfl
  | some f => simp only [Option.map_some, Option.toList_some, List.map_cons, List.map_nil,
      List.foldl_cons, List.foldl_nil, setPackage]

/-- Noting packages of elements leaves what a file has besides its elements alone. -/
theorem apart_noteElements (entries : List (ElementRef × String)) (s : ApiSet) (id : Nat) :
    ((noteElements entries s).file? id).map File.apart = (s.file? id).map File.apart := by
  induction entries generalizing s with
  | nil => rfl
  | cons e rest ih =>
    refine (ih _).trans ?_
    rw [ApiSet.file?_modifyFile]
    split
    · rw [Option.map_map]
      exact congrArg (Option.map · _) (funext fun f => f.apart_modifyInfo _ _ _)
    · rfl

/-- What noting a package makes of the documentation of an element. -/
def noted (package : String) : Info → Info := fun i => { i with package := some package }

theorem package_noted (package : String) (item : Item) :
    (item.mapInfo (noted package)).info.package = some package := rfl

theorem keepsName_noted (package : String) : KeepsName (noted package) := fun _ => rfl

theorem at?_noteElement (s : ApiSet) (e : ElementRef × String) (id : Nat) (p : Spot) :
    (noteElements [e] s).at? id p =
      if e.1.file = id ∧ s.spotOf e.1 = some p then (s.at? id p).map (Item.mapInfo (noted e.2))
      else s.at? id p :=
  s.at?_modifyFile e.1 (fun f q => f.at?_modifyInfo e.1.kind e.1.fqsen (keepsName_noted e.2) q) id p

theorem spotOf_noteElement (s : ApiSet) (e : ElementRef × String) (ref : ElementRef) :
    (noteElements [e] s).spotOf ref = s.spotOf ref :=
  (ApiSet.Retouch.modifyInfo s e.1 (unseen_unit (keepsName_noted e.2))).spotOf_eq ref

theorem noteElements_cons (e : ElementRef × String) (rest : List (ElementRef × String))
    (s : ApiSet) : noteElements (e :: rest) s = noteElements rest (noteElements [e] s) := rfl

/-- An element that no address leads to is left as it is. -/
theorem at?_noteElements_of_far {entries : List (ElementRef × String)} {s : ApiSet} {id : Nat}
    {p : Spot} (h : ∀ e ∈ entries, e.1.file = id → s.spotOf e.1 ≠ some p) :
    (noteElements entries s).at? id p = s.at? id p := by
  induction entries generalizing s with
  | nil => rfl
  | cons e rest ih =>
    have hrest : ∀ x ∈ rest, x.1.file = id → (noteElements [e] s).spotOf x.1 ≠ some p := by
      intro x hx
      rw [spotOf_noteElement]
      exact h x (List.mem_cons_of_mem _ hx)
    rw [noteElements_cons, ih hrest, at?_noteElement,
      if_neg fun hleads => h e List.mem_cons_self hleads.1 hleads.2]

/-- Where addresses lead to different spots, each element gets the package that is noted for it. -/
theorem at?_noteElements {entries : List (ElementRef × String)} {s : ApiSet}
    (hdistinct : entries.Pairwise fun a b => s.spotOf a.1 ≠ s.spotOf b.1)
    {e : ElementRef × String} (he : e ∈ entries) {p : Spot} (hspot : s.spotOf e.1 = some p) :
    (noteElements entries s).at? e.1.file p =
      (s.at? e.1.file p).map (Item.mapInfo (noted e.2)) := by
  induction entries generalizing s with
  | nil => exact absurd he List.not_mem_nil
  | cons first rest ih =>
    obtain ⟨hothers, hrest⟩ := List.pairwise_cons.mp hdistinct
    rw [noteElements_cons]
    rcases List.mem_cons.mp he with rfl | he
    · have hfar : ∀ x ∈ rest, x.1.file = e.1.file → (noteElements [e] s).spotOf x.1 ≠ some p := by
        intro x hx _
        rw [spotOf_noteElement, ← hspot]
        exact (hothers x hx).symm
      rw [at?_noteElements_of_far hfar, at?_noteElement, if_pos ⟨rfl, hspot⟩]
    · have hother : ¬ (first.1.file = e.1.file ∧ s.spotOf first.1 = some p) := fun hleads =>
        hothers e he (hleads.2.trans hspot.symm)
      rw [ih (by simpa only [spotOf_noteElement] using hrest) he (by rwa [spotOf_noteElement]),
        at?_noteElement, if_neg hother]

theorem spotOf_noteElements (entries : List (ElementRef × String)) (s : ApiSet) (ref : ElementRef) :
    (noteElements entries s).spotOf ref = s.spotOf ref := by
  induction entries generalizing s with
  | nil => rfl
  | cons e rest ih => rw [noteElements_cons, ih, spotOf_noteElement]

theorem item?_noteElements {entries : List (ElementRef × String)} {s : ApiSet}
    (hdistinct : entries.Pairwise fun a b => s.spotOf a.1 ≠ s.spotOf b.1)
    {e : ElementRef × String} (he : e ∈ entries) :
    (noteElements entries s).item? e.1 = (s.item? e.1).map (Item.mapInfo (noted e.2)) := by
  rw [ApiSet.item?_eq, spotOf_noteElements, ApiSet.item?_eq]
  cases hspot : s.spotOf e.1 with
  | none => rfl
  | some p => exact at?_noteElements hdistinct he hspot

/-- Noting packages of files leaves all elements as they are. -/
theorem retouch_notePackages (default : String) (s : ApiSet) :
    s.Retouch (fun item => item) (notePackages default s) := by
  refine ApiSet.Retouch.foldl (fun s entry => ?_) s.numbered s
  refine ApiSet.Retouch.modifyFile s entry.1 fun f => ?_
  exact File.Retouch.of_declarations rfl rfl rfl rfl rfl

theorem mem_elementPackages_iff {default : String} {s : ApiSet} {e : ElementRef × String} :
    e ∈ elementPackages default s ↔ e.1 ∈ s.topLevelEntries ∧ ∃ item f,
      s.item? e.1 = some item ∧ s.file? e.1.file = some f ∧
        e.2 = packageOfElement (packageOfFile default f) item.info := by
  obtain ⟨ref, package⟩ := e
  simp only [elementPackages, List.mem_filterMap, Option.bind_eq_bind, Option.bind_eq_some_iff,
    Option.pure_def, Option.some_inj, Prod.mk.injEq]
  constructor
  · rintro ⟨ref, href, item, hitem, f, hf, rfl, rfl⟩
    exact ⟨href, item, f, hitem, hf, rfl⟩
  · rintro ⟨href, item, f, hitem, hf, rfl⟩
    exact ⟨ref, href, item, hitem, f, hf, rfl, rfl⟩

end Compile

/-! ### Fresh sets -/

namespace ApiSet

/-- A file takes the place of the one with its path, so no two files have one path. -/
theorem nodup_paths_addFile {s : ApiSet} (hs : (s.files.map File.path).Nodup) (f : File) :
    ((s.addFile f).1.files.map File.path).Nodup := by
  rw [addFile]
  split
  · next id hid =>
    obtain ⟨hlt, hpath, -⟩ := List.findIdx?_eq_some_iff_getElem.mp hid
    have hsame : (s.files.set id f).map File.path = s.files.map File.path := by
      rw [List.map_set, ← of_decide_eq_true hpath, ← List.getElem_map File.path]
      · exact List.set_getElem_self _
      · rwa [List.length_map]
    rwa [hsame]
  · next hnone =>
    rw [List.map_append, List.nodup_append]
    refine ⟨hs, List.nodup_singleton _, fun a ha b hb => ?_⟩
    obtain ⟨g, hg, rfl⟩ := List.mem_map.mp ha
    rw [List.map_singleton, List.mem_singleton] at hb
    rw [hb]
    simpa using List.findIdx?_eq_none_iff.mp hnone g hg

theorem Fresh.nodup_paths {s : ApiSet} (hs : s.Fresh) : (s.files.map File.path).Nodup := by
  obtain ⟨name, files, -, rfl⟩ := hs
  have hfold (files : List File) (s : ApiSet) (h : (s.files.map File.path).Nodup) :
      ((files.foldl (fun s f => (s.addFile f).1) s).files.map File.path).Nodup := by
    induction files generalizing s with
    | nil => exact h
    | cons f rest ih => exact ih _ (nodup_paths_addFile h f)
  exact hfold files { name := name } List.nodup_nil

end ApiSet

namespace Compile

theorem topLevelEntries_congr {s t : ApiSet} (h : ∀ k ∈ Index.byKind, t.index k.1 = s.index k.1) :
    t.topLevelEntries = s.topLevelEntries := by
  rw [ApiSet.topLevelEntries, ApiSet.topLevelEntries, List.flatMap, List.flatMap]
  exact congrArg List.flatten (List.map_congr_left fun k hk => by rw [h k hk])

theorem topLevelEntries_withSpaces (s : ApiSet) :
    (withSpaces s).topLevelEntries = s.topLevelEntries :=
  topLevelEntries_congr fun _ hk => index_withSpaces hk s

theorem topLevelEntries_withPackages (defaultName : String) (s : ApiSet) :
    (withPackages defaultName s).topLevelEntries = s.topLevelEntries :=
  topLevelEntries_congr fun _ hk => index_withPackages hk defaultName s

/-! ### The trees by their paths -/

theorem namespaces_withSpaces (s : ApiSet) : (withSpaces s).namespaces =
    (s.topLevelEntries.map fun ref => (ref, ref.fqsen.enclosing)).foldl
      (fun t e => attachAt t e.2 e.1) s.namespaces := by
  rw [List.foldl_map]
  exact (trees_enterNodes "~" Index.namespaces .spaceNode _ _).1

/-- In the tree of namespaces an element is where its namespace leads, and there are no files. -/
theorem exists_branches_withSpaces {s : ApiSet} (hs : s.namespaces = .fresh .namespaces) :
    ∃ paths load, (withSpaces s).namespaces.Branches paths load ∧
      (∀ p, (load p).files = .empty) ∧
      ∀ p ref, ref ∈ (load p).elements → p = ref.fqsen.enclosing.segments := by
  obtain ⟨paths, load, hbranches, -, hfiles, hheld⟩ :=
    (Taxonomy.branches_fresh .namespaces).attachAll
      (s.topLevelEntries.map fun ref => (ref, ref.fqsen.enclosing))
  rw [← hs, ← namespaces_withSpaces] at hbranches
  refine ⟨paths, load, hbranches, hfiles, fun p ref href => ?_⟩
  rcases hheld p ref href with hblank | ⟨e, he, rfl, rfl⟩
  · exact absurd hblank List.not_mem_nil
  · obtain ⟨ref, -, rfl⟩ := List.mem_map.mp he
    rfl

theorem wellFormed_withSpaces {s : ApiSet} (hs : s.namespaces = .fresh .namespaces) :
    (withSpaces s).namespaces.WellFormed := by
  rw [namespaces_withSpaces, hs]
  exact (Taxonomy.wellFormed_fresh .namespaces).attachAll _

theorem wellFormed_packageTree {s : ApiSet} (hs : s.packages = .fresh .packages)
    (default : String) : (packageTree default s).WellFormed := by
  obtain ⟨hwell, -⟩ := wellFormed_placeFiles default s.numbered
    (hs ▸ Taxonomy.wellFormed_fresh .packages) (hs ▸ Taxonomy.elements_fresh .packages)
  have hplaced := placeFiles_eq default s.numbered s s.packages
  rw [hplaced] at hwell
  exact hwell.attachAll _

theorem exists_placing_iff (default : String) (s : ApiSet) (path : String) (id : Nat)
    (segments : List String) :
    (∃ e ∈ s.numbered.map (placing default),
      e.path = path ∧ e.id = id ∧ e.name.segments = segments) ↔
      ∃ f, s.file? id = some f ∧ f.path = path ∧
        (packageNode (packageOfFile default f)).segments = segments := by
  constructor
  · rintro ⟨e, he, hpath, hid, hname⟩
    obtain ⟨⟨number, f⟩, hf, rfl⟩ := List.mem_map.mp he
    simp only [placing] at hpath hid hname
    subst hid
    exact ⟨f, ApiSet.mem_numbered_iff.mp hf, hpath, hname⟩
  · rintro ⟨f, hf, hpath, hname⟩
    refine ⟨placing default (id, f), List.mem_map_of_mem (ApiSet.mem_numbered_iff.mpr hf), ?_⟩
    simp only [placing]
    exact ⟨hpath, trivial, hname⟩

/-- In the tree of packages a file is where its package leads, and an element where the package
leads that was found for it. -/
theorem exists_branches_packageTree {s : ApiSet} (hs : s.packages = .fresh .packages)
    (hpaths : (s.files.map File.path).Nodup) (default : String) :
    ∃ paths load, (packageTree default s).Branches paths load ∧
      (∀ id f, s.file? id = some f → (packageNode (packageOfFile default f)).segments ∈ paths) ∧
      (∀ p path id, (load p).files.get? path = some id ↔ ∃ f, s.file? id = some f ∧
        f.path = path ∧ (packageNode (packageOfFile default f)).segments = p) ∧
      ∀ p ref, ref ∈ (load p).elements → ∃ package, (ref, package) ∈ elementPackages default s ∧
        p = (packageNode package).segments := by
  have hdistinct : ((s.numbered.map (placing default)).map Placing.path).Nodup := by
    rw [List.map_map]
    exact (s.map_numbered File.path) ▸ hpaths
  obtain ⟨placed, hplaced, hways⟩ := (Taxonomy.branches_fresh .packages).placeAll
    (s.numbered.map (placing default))
  obtain ⟨paths, load, hbranches, hkept, hfiles, hheld⟩ := hplaced.attachAll
    ((elementPackages default s).map fun e => (e.1, packageNode e.2))
  rw [← hs] at hbranches
  refine ⟨paths, load, hbranches, fun id f hf => hkept _ ((hways _).mpr (.inr ?_)),
    fun p path id => ?_, fun p ref href => ?_⟩
  · obtain ⟨e, he, -, -, hname⟩ := (exists_placing_iff default s f.path id _).mpr ⟨f, hf, rfl, rfl⟩
    refine ⟨e, he, ?_⟩
    rw [hname]
  · have hblank : ¬ Node.blank.files.get? path = some id := by simp [Node.blank]
    rw [hfiles, Placing.get?_files_foldl_onto hdistinct fun _ _ _ => rfl, exists_placing_iff,
      or_iff_left hblank]
  · rcases hheld p ref href with hthere | ⟨e, he, href, hway⟩
    · rw [Placing.elements_foldl_onto] at hthere
      exact absurd hthere List.not_mem_nil
    · obtain ⟨entry, hentry, rfl⟩ := List.mem_map.mp he
      dsimp only at href hway
      exact ⟨entry.2, href ▸ hentry, hway.symm⟩

end Compile

theorem ApiSet.KindIndexed.perm_of_filed {s : ApiSet} (hs : s.KindIndexed) {t : Taxonomy}
    (h : s.Filed t) : t.elements.Perm s.topLevelEntries := by
  have hinjective : Function.Injective Target.element := fun _ _ heq => Target.element.inj heq
  refine (List.map_perm_map_iff hinjective).mp (h.trans (.of_eq ?_))
  rw [hs.map_topLevelEntries]

/-! ### What is filed where -/

namespace ApiSet

/-- What the set `t`, which the indexes and trees were built for, says of what was read into `s`. -/
structure FiledAs (default : String) (s t : ApiSet) : Prop where
  kinds : ∀ k ∈ Index.byKind, t.index k.1 = Compile.indexOf (Compile.ofKind k.2 s.allElements)
  nodup : t.topLevelEntries.Nodup
  spaces : t.namespaces.elements.Perm t.topLevelEntries
  packages : t.packages.elements.Perm t.topLevelEntries
  atSpace : ∀ ref ∈ t.topLevelEntries, ∃ node,
    t.namespaces.find? ref.fqsen.enclosing = some node ∧
      ∀ other, t.namespaces.Holds other ref ↔ other = node
  atPackage : ∀ ref ∈ t.topLevelEntries, ∃ f old item node, s.file? ref.file = some f ∧
    s.item? ref = some old ∧ t.item? ref = some item ∧
      item.info.package = some (Compile.packageFor default f old) ∧
      t.packages.find? (Compile.packageNode (Compile.packageFor default f old)) = some node ∧
      ∀ other, t.packages.Holds other ref ↔ other = node
  fileAtPackage : ∀ id f, s.file? id = some f → ∃ g node, t.file? id = some g ∧ g.path = f.path ∧
    g.package = some (Compile.packageOfFile default f) ∧
      t.packages.find? (Compile.packageNode (Compile.packageOfFile default f)) = some node ∧
      ∀ other, t.packages.HoldsFile other f.path id ↔ other = node
  onlyFiles : ∀ node path id, t.packages.HoldsFile node path id →
    ∃ f, s.file? id = some f ∧ f.path = path
  noFiles : ∀ node path id, ¬ t.namespaces.HoldsFile node path id
  spaceIndex : (t.index Index.namespaces).entries.Perm
    (t.namespaces.nodes.map fun n => (n.fullName.text, .spaceNode n.id))
  packageIndex : (t.index Index.packages).entries.Perm
    (t.packages.nodes.map fun n => (n.fullName.text, .packageNode n.id))
  elementIndex : (t.index Index.elements).entries.Perm
    (t.packages.nodes.map (fun n => ("@" ++ n.fullName.text, .packageNode n.id)) ++
      (t.namespaces.nodes.map (fun n => ("~" ++ n.fullName.text, .spaceNode n.id)) ++
        (Compile.indexOf s.allElements).entries))

end ApiSet

namespace Compile

theorem files_withPackages (defaultName : String) (s : ApiSet) :
    (withPackages defaultName s).files =
      (noteElements (elementPackages (defaultPackage defaultName) s)
        (notePackages (defaultPackage defaultName) s)).files := by
  rw [withPackages_eq, files_enterNodes]

theorem packages_withPackages (defaultName : String) (s : ApiSet) :
    (withPackages defaultName s).packages = packageTree (defaultPackage defaultName) s := by
  rw [withPackages_eq, (trees_enterNodes ..).2]

/-- An index that namespaces are not entered in. -/
theorem index_withSpaces_of_ne {name : String} (he : Index.elements ≠ name)
    (hn : Index.namespaces ≠ name) (s : ApiSet) : (withSpaces s).index name = s.index name :=
  index_enterNodes "~" Index.namespaces .spaceNode _ he hn _

/-- An index that packages are not entered in. -/
theorem index_withPackages_of_ne {name : String} (he : Index.elements ≠ name)
    (hp : Index.packages ≠ name) (defaultName : String) (s : ApiSet) :
    (withPackages defaultName s).index name = s.index name := by
  unfold withPackages
  rw [index_enterNodes "@" Index.packages .packageNode _ he hp, ApiSet.index, (frame_placed ..).1,
    ApiSet.index]

theorem withSpaces_eq (s : ApiSet) : withSpaces s =
    enterNodes "~" Index.namespaces .spaceNode (withSpaces s).namespaces.nodes
      { s with namespaces := (withSpaces s).namespaces } := by
  have htree : (withSpaces s).namespaces = s.topLevelEntries.foldl
      (fun t ref => attachAt t ref.fqsen.enclosing ref) s.namespaces := (trees_enterNodes ..).1
  rw [htree]
  rfl

theorem index_noted (elements : List (ElementRef × String)) (default : String) (s : ApiSet)
    (name : String) :
    (noteElements elements (notePackages default s)).index name = s.index name := by
  have hfiles : (notePackages default s).frame = s.frame := by
    refine ApiSet.frame_foldl (fun s entry => ?_) s.numbered s
    rfl
  have helements (t : ApiSet) : (noteElements elements t).frame = t.frame := by
    refine ApiSet.frame_foldl (fun s entry => ?_) elements t
    rfl
  exact ApiSet.index_congr ((helements _).trans hfiles) name

/-- Where no namespace is entered yet, building the tree enters each of its nodes once. -/
theorem perm_indexes_withSpaces {s : ApiSet}
    (hnodes : ((withSpaces s).namespaces.nodes.map fun n => n.fullName.text).Nodup)
    (hempty : s.index Index.namespaces = .empty) (hnew : ∀ key, s.lookup ("~" ++ key) = none) :
    ((withSpaces s).index Index.namespaces).entries.Perm
        ((withSpaces s).namespaces.nodes.map fun n => (n.fullName.text, .spaceNode n.id)) ∧
      ((withSpaces s).index Index.elements).entries.Perm
        ((withSpaces s).namespaces.nodes.map (fun n => ("~" ++ n.fullName.text, .spaceNode n.id)) ++
          (s.index Index.elements).entries) := by
  let grown : ApiSet := { s with namespaces := (withSpaces s).namespaces }
  have hname : Index.namespaces ≠ Index.elements := by decide
  have hset : withSpaces s =
      enterNodes "~" Index.namespaces .spaceNode (withSpaces s).namespaces.nodes grown :=
    withSpaces_eq s
  have hown := perm_index_enterNodes "~" hname .spaceNode hnodes (s := grown) hempty
  have hmarked := perm_elements_enterNodes "~" hname .spaceNode hnodes (s := grown) hnew
  rw [← hset] at hown hmarked
  exact ⟨hown, hmarked⟩

/-- Where no package is entered yet, building the tree enters each of its nodes once. -/
theorem perm_indexes_withPackages {s : ApiSet} {defaultName : String}
    (hnodes : ((withPackages defaultName s).packages.nodes.map fun n => n.fullName.text).Nodup)
    (hempty : s.index Index.packages = .empty) (hnew : ∀ key, s.lookup ("@" ++ key) = none) :
    ((withPackages defaultName s).index Index.packages).entries.Perm
        ((withPackages defaultName s).packages.nodes.map fun n =>
          (n.fullName.text, .packageNode n.id)) ∧
      ((withPackages defaultName s).index Index.elements).entries.Perm
        ((withPackages defaultName s).packages.nodes.map (fun n =>
            ("@" ++ n.fullName.text, .packageNode n.id)) ++
          (s.index Index.elements).entries) := by
  let placed : ApiSet :=
    { noteElements (elementPackages (defaultPackage defaultName) s)
        (notePackages (defaultPackage defaultName) s) with
      packages := packageTree (defaultPackage defaultName) s }
  have hname : Index.packages ≠ Index.elements := by decide
  have hplaced (name : String) : placed.index name = s.index name := index_noted _ _ s name
  have hset : withPackages defaultName s =
      enterNodes "@" Index.packages .packageNode (withPackages defaultName s).packages.nodes
        placed := by
    rw [packages_withPackages]
    exact withPackages_eq defaultName s
  have hnew' (key : String) : placed.lookup ("@" ++ key) = none := by
    rw [ApiSet.lookup_eq, hplaced, ← ApiSet.lookup_eq, hnew]
  have hown := perm_index_enterNodes "@" hname .packageNode hnodes
    ((hplaced Index.packages).trans hempty)
  have hmarked := perm_elements_enterNodes "@" hname .packageNode hnodes hnew'
  rw [← hset] at hown hmarked
  rw [hplaced] at hmarked
  exact ⟨hown, hmarked⟩

theorem files_filed (s : ApiSet) : (withSpaces (withIndexes s)).files = s.files :=
  (files_withSpaces _).trans (files_withIndexes s)

theorem packages_withSpaces (s : ApiSet) : (withSpaces s).packages = s.packages :=
  (trees_enterNodes ..).2

theorem trees_withIndexes (s : ApiSet) : (withIndexes s).namespaces = s.namespaces ∧
    (withIndexes s).packages = s.packages := by
  rw [withIndexes]
  generalize Index.byKind = kinds
  have hstart : (s.setIndex Index.elements (indexOf s.allElements)).namespaces = s.namespaces ∧
      (s.setIndex Index.elements (indexOf s.allElements)).packages = s.packages := ⟨rfl, rfl⟩
  generalize s.setIndex Index.elements (indexOf s.allElements) = u at hstart ⊢
  induction kinds generalizing u with
  | nil => exact hstart
  | cons k rest ih => exact ih (u.setIndex k.1 _) hstart

/-- The package that was found for a file is recorded on it, and nothing else of it is changed
besides its elements. -/
theorem apart_withPackages (defaultName : String) (u : ApiSet) (id : Nat) :
    ((withPackages defaultName u).file? id).map File.apart = (u.file? id).map fun f =>
      File.apart { f with package := some (packageOfFile (defaultPackage defaultName) f) } := by
  rw [ApiSet.file?_congr (files_withPackages defaultName u), apart_noteElements, file?_notePackages,
    Option.map_map]
  rfl

end Compile

/-! ### Sets before their packages are filed -/

/-- The indexes of the kinds are built, no package is recorded on their elements, and the tree of
packages has no node but its root, which is not entered yet. -/
structure ApiSet.Unpacked (u : ApiSet) : Prop where
  indexed : u.KindIndexed
  outside : ∀ ref ∈ u.topLevelEntries, File.throughOwner ref.kind ref.fqsen = false
  unfiled : ∀ ref ∈ u.topLevelEntries, ∃ item, u.item? ref = some item ∧ item.info.package = none
  paths : (u.files.map File.path).Nodup
  tree : u.packages = .fresh .packages
  index : u.index Index.packages = .empty
  unmarked : ∀ key, u.lookup ("@" ++ key) = none

namespace ApiSet.Unpacked

open Compile

variable {u : ApiSet} (hu : u.Unpacked)
include hu

/-- Addresses in the indexes of the kinds lead to elements that are no members. -/
theorem spotOf_eq {ref : ElementRef} (h : ref ∈ u.topLevelEntries) :
    u.spotOf ref = some (.top ref.kind ref.fqsen.text) := by
  obtain ⟨item, hitem, -⟩ := hu.unfiled ref h
  obtain ⟨f, hf, -⟩ := Option.bind_eq_some_iff.mp hitem
  rw [spotOf, hf, Option.bind_some, File.spotOf_of_not_throughOwner f (hu.outside ref h)]

/-- The elements of the indexes, with their packages. -/
theorem mem_elementPackages {default : String} {ref : ElementRef} {package : String} :
    (ref, package) ∈ elementPackages default u ↔ ref ∈ u.topLevelEntries ∧ ∃ item f,
      u.item? ref = some item ∧ u.file? ref.file = some f ∧ package = packageFor default f item := by
  rw [mem_elementPackages_iff]
  refine and_congr_right fun href => exists_congr fun item => exists_congr fun f =>
    and_congr_right fun hitem => and_congr_right fun hf => ?_
  obtain ⟨found, hfound, hunfiled⟩ := hu.unfiled ref href
  obtain rfl := Option.some.inj (hfound.symm.trans hitem)
  rw [packageOfElement_eq_packageFor hunfiled]

theorem exists_mem_elementPackages (default : String) {ref : ElementRef}
    (href : ref ∈ u.topLevelEntries) : ∃ item f, u.item? ref = some item ∧
      u.file? ref.file = some f ∧ (ref, packageFor default f item) ∈ elementPackages default u := by
  obtain ⟨item, hitem, -⟩ := hu.unfiled ref href
  obtain ⟨f, hf, -⟩ := Option.bind_eq_some_iff.mp hitem
  exact ⟨item, f, hitem, hf, hu.mem_elementPackages.mpr ⟨href, item, f, hitem, hf, rfl⟩⟩

theorem isSome_item? : ∀ ref ∈ u.topLevelEntries, (u.item? ref).isSome := by
  intro ref href
  obtain ⟨item, hitem, -⟩ := hu.unfiled ref href
  rw [hitem]
  rfl

/-- No two of the addresses lead to one spot. -/
theorem pairwise_elementPackages (default : String) :
    (elementPackages default u).Pairwise fun a b => u.spotOf a.1 ≠ u.spotOf b.1 := by
  have hrefs := hu.indexed.distinct
  rw [← map_elementPackages hu.isSome_item? default, Distinct, List.pairwise_map] at hrefs
  refine hrefs.imp_of_mem fun {a b} ha hb hne heq => ?_
  rw [hu.spotOf_eq (mem_elementPackages_iff.mp ha).1, hu.spotOf_eq (mem_elementPackages_iff.mp hb).1,
    Option.some_inj, Spot.top.injEq] at heq
  exact hne heq.1 heq.2

/-- The package that was found for an element is recorded on it. -/
theorem item?_withPackages (defaultName : String) {e : ElementRef × String}
    (he : e ∈ elementPackages (defaultPackage defaultName) u) :
    (withPackages defaultName u).item? e.1 = (u.item? e.1).map (Item.mapInfo (noted e.2)) := by
  have hretouch := retouch_notePackages (defaultPackage defaultName) u
  have hdistinct := hu.pairwise_elementPackages (defaultPackage defaultName)
  simp only [← hretouch.spotOf_eq] at hdistinct
  rw [ApiSet.item?_congr (files_withPackages defaultName _), item?_noteElements hdistinct he,
    hretouch.item?_eq]

/-- The tree of packages holds the elements of the indexes. -/
theorem perm_elements_packageTree (defaultName : String) :
    (packageTree (defaultPackage defaultName) u).elements.Perm u.topLevelEntries := by
  have hfiled := filed_congr (fun k hk => (index_withPackages hk defaultName u).symm)
    (filed_withPackages hu.indexed hu.tree hu.isSome_item? defaultName)
  rw [packages_withPackages] at hfiled
  exact hu.indexed.perm_of_filed hfiled

/-- Where an element of the indexes is in the tree of packages. -/
theorem exists_package (defaultName : String) {ref : ElementRef} (href : ref ∈ u.topLevelEntries) :
    ∃ f old item node, u.file? ref.file = some f ∧ u.item? ref = some old ∧
      (withPackages defaultName u).item? ref = some item ∧
      item.info.package = some (packageFor (defaultPackage defaultName) f old) ∧
      (packageTree (defaultPackage defaultName) u).find?
        (packageNode (packageFor (defaultPackage defaultName) f old)) = some node ∧
      ∀ other, (packageTree (defaultPackage defaultName) u).Holds other ref ↔ other = node := by
  obtain ⟨old, f, hold, hf, hentry⟩ :=
    hu.exists_mem_elementPackages (defaultPackage defaultName) href
  obtain ⟨paths, load, hbranches, -, -, hways⟩ :=
    exists_branches_packageTree hu.tree hu.paths (defaultPackage defaultName)
  have hname (p : List String) (hp : ref ∈ (load p).elements) :
      p = (packageNode (packageFor (defaultPackage defaultName) f old)).segments := by
    obtain ⟨package, hpackage, hway⟩ := hways p ref hp
    obtain ⟨-, item, g, hitem, hg, heq⟩ := hu.mem_elementPackages.mp hpackage
    obtain rfl : old = item := Option.some.inj (hold.symm.trans hitem)
    obtain rfl : f = g := Option.some.inj (hf.symm.trans hg)
    rw [hway, heq]
  obtain ⟨node, hfound, hunique⟩ := hbranches.exists_holds_iff hname
    ((hu.perm_elements_packageTree defaultName).mem_iff.mpr href)
  have hitem := hu.item?_withPackages defaultName hentry
  dsimp only at hitem
  rw [hold, Option.map_some] at hitem
  exact ⟨f, old, _, node, hf, hold, hitem, package_noted _ old, hfound, hunique⟩

/-- Where a file is in the tree of packages. -/
theorem exists_filePackage (default : String) {id : Nat} {f : File} (hf : u.file? id = some f) :
    ∃ node, (packageTree default u).find? (packageNode (packageOfFile default f)) = some node ∧
      ∀ other, (packageTree default u).HoldsFile other f.path id ↔ other = node := by
  obtain ⟨paths, load, hbranches, hmem, hfiles, -⟩ :=
    exists_branches_packageTree hu.tree hu.paths default
  obtain ⟨node, hnode⟩ := List.getElem?_of_mem (hmem id f hf)
  refine ⟨node, hbranches.find?_eq_some_iff.mpr hnode, fun other => ?_⟩
  rw [hbranches.holdsFile_iff]
  constructor
  · rintro ⟨p, hp, hget⟩
    obtain ⟨g, hg, -, rfl⟩ := (hfiles p f.path id).mp hget
    obtain rfl := Option.some.inj (hf.symm.trans hg)
    exact hbranches.index_inj hp hnode
  · rintro rfl
    exact ⟨_, hnode, (hfiles _ f.path id).mpr ⟨f, hf, rfl, rfl⟩⟩

/-- The files in the tree of packages are those of the set. -/
theorem exists_file_of_holdsFile {default : String} {node : Nat} {path : String} {id : Nat}
    (h : (packageTree default u).HoldsFile node path id) :
    ∃ f, u.file? id = some f ∧ f.path = path := by
  obtain ⟨paths, load, hbranches, -, hfiles, -⟩ :=
    exists_branches_packageTree hu.tree hu.paths default
  obtain ⟨p, -, hget⟩ := hbranches.holdsFile_iff.mp h
  obtain ⟨f, hf, hpath, -⟩ := (hfiles p path id).mp hget
  exact ⟨f, hf, hpath⟩

theorem nodup_packageNames (defaultName : String) :
    ((withPackages defaultName u).packages.nodes.map fun n => n.fullName.text).Nodup := by
  obtain ⟨paths, load, hbranches, -⟩ :=
    exists_branches_packageTree hu.tree hu.paths (defaultPackage defaultName)
  rw [packages_withPackages]
  exact Taxonomy.Branched.nodup_names ⟨paths, load, hbranches⟩

/-- Every node of the tree of packages is entered once in each of its two indexes. -/
theorem perm_indexes (defaultName : String) :
    ((withPackages defaultName u).index Index.packages).entries.Perm
        ((withPackages defaultName u).packages.nodes.map fun n =>
          (n.fullName.text, .packageNode n.id)) ∧
      ((withPackages defaultName u).index Index.elements).entries.Perm
        ((withPackages defaultName u).packages.nodes.map (fun n =>
            ("@" ++ n.fullName.text, .packageNode n.id)) ++ (u.index Index.elements).entries) :=
  perm_indexes_withPackages (hu.nodup_packageNames defaultName) hu.index hu.unmarked

end ApiSet.Unpacked

namespace Compile

/-- Building the tree of namespaces leaves the packages to be filed. -/
theorem unpacked_withSpaces {u : ApiSet} (hu : u.Unpacked) : (withSpaces u).Unpacked where
  indexed := kindIndexed_congr (fun _ hk => index_withSpaces hk u) hu.indexed
  outside ref href := hu.outside ref (topLevelEntries_withSpaces u ▸ href)
  unfiled ref href := by
    rw [ApiSet.item?_congr (files_withSpaces u)]
    exact hu.unfiled ref (topLevelEntries_withSpaces u ▸ href)
  paths := by
    rw [files_withSpaces]
    exact hu.paths
  tree := (packages_withSpaces u).trans hu.tree
  index := by
    rw [index_withSpaces_of_ne (by decide) (by decide)]
    exact hu.index
  unmarked key := by
    rcases lookup_withSpaces u ("@" ++ key) with hsame | ⟨n, -, heq, -⟩
    · rw [hsame, hu.unmarked]
    · have hhead := congrArg (fun text : String => text.toList.head?) heq
      simp at hhead

section Fresh

variable {s : ApiSet} (hs : s.Fresh)
include hs

theorem index_of_fresh (name : String) : s.index name = .empty := by
  rw [ApiSet.index, (Prod.mk.inj hs.frame_eq).1]
  rfl

theorem index_withIndexes_of_ne {name : String} (he : Index.elements ≠ name)
    (hk : ∀ k ∈ Index.byKind, k.1 ≠ name) : (withIndexes s).index name = .empty := by
  have hfold (kinds : List (String × ElementKind)) (hkinds : ∀ k ∈ kinds, k.1 ≠ name) (u : ApiSet) :
      (kinds.foldl (fun u k => u.setIndex k.1 (indexOf (ofKind k.2 s.allElements))) u).index name =
        u.index name := by
    induction kinds generalizing u with
    | nil => rfl
    | cons k rest ih =>
      rw [List.foldl_cons, ih fun k hk => hkinds k (List.mem_cons_of_mem _ hk),
        ApiSet.index_setIndex, if_neg (hkinds k List.mem_cons_self)]
  refine (hfold Index.byKind hk _).trans ?_
  rw [ApiSet.index_setIndex, if_neg he, index_of_fresh hs]

/-- Keys behind a mark are not there when the indexes were just built. -/
theorem lookup_mark_withIndexes {mark : String} {c : Char} (hmark : mark.toList = [c])
    (hc : c ≠ '\\') (key : String) : (withIndexes s).lookup (mark ++ key) = none := by
  cases hlookup : (withIndexes s).lookup (mark ++ key) with
  | none => rfl
  | some target =>
    obtain ⟨ref, href, -, htext⟩ := exists_of_lookup_withIndexes hlookup
    exact absurd htext (text_ne_of_rooted (rooted_of_mem_allElements hs href) hmark hc key)

/-! ### The set with both trees -/

theorem namespaces_withIndexes_of_fresh : (withIndexes s).namespaces = .fresh .namespaces := by
  rw [(trees_withIndexes s).1, hs.namespaces_eq]

theorem packages_withIndexes_of_fresh : (withIndexes s).packages = .fresh .packages := by
  rw [(trees_withIndexes s).2, hs.packages_eq]

theorem exists_branches_spaces : ∃ paths load,
    (withSpaces (withIndexes s)).namespaces.Branches paths load ∧
      (∀ p, (load p).files = .empty) ∧
      ∀ p ref, ref ∈ (load p).elements → p = ref.fqsen.enclosing.segments :=
  exists_branches_withSpaces (namespaces_withIndexes_of_fresh hs)

theorem nodup_spaceNames :
    ((withSpaces (withIndexes s)).namespaces.nodes.map fun n => n.fullName.text).Nodup := by
  obtain ⟨paths, load, hbranches, -⟩ := exists_branches_spaces hs
  exact Taxonomy.Branched.nodup_names ⟨paths, load, hbranches⟩

/-- Building the indexes leaves the packages to be filed. -/
theorem unpacked_withIndexes : (withIndexes s).Unpacked where
  indexed := kindIndexed_withIndexes s
  outside _ href := throughOwner_of_mem_topLevelEntries href
  unfiled ref href := by
    obtain ⟨item, hitem⟩ :=
      Option.isSome_iff_exists.mp (isSome_of_mem_topLevelEntries hs.keyed href)
    refine ⟨item, by rw [ApiSet.item?_congr (files_withIndexes s), hitem], ?_⟩
    -- No package is recorded on an element as it was read.
    obtain ⟨f, hf, hat⟩ := Option.bind_eq_some_iff.mp hitem
    rw [File.item?_eq] at hat
    obtain ⟨p, -, hat⟩ := Option.bind_eq_some_iff.mp hat
    exact ((hs.asRead hf).sound hat).unfiled
  paths := by
    rw [files_withIndexes]
    exact hs.nodup_paths
  tree := packages_withIndexes_of_fresh hs
  index := index_withIndexes_of_ne hs (by decide) (by decide)
  unmarked := lookup_mark_withIndexes hs (c := '@') (by decide) (by decide)

/-- What the steps that build indexes and trees make of a fresh set. -/
theorem filedAs_withPackages (defaultName : String) :
    s.FiledAs (defaultPackage defaultName)
      (withPackages defaultName (withSpaces (withIndexes s))) := by
  have hu := unpacked_withSpaces (unpacked_withIndexes hs)
  have htop := topLevelEntries_withPackages defaultName (withSpaces (withIndexes s))
  have hspaces := namespaces_withPackages defaultName (withSpaces (withIndexes s))
  have hpackages := packages_withPackages defaultName (withSpaces (withIndexes s))
  have hindexed : (withPackages defaultName (withSpaces (withIndexes s))).KindIndexed :=
    kindIndexed_congr (fun _ hk => index_withPackages hk _ _) hu.indexed
  obtain ⟨hfiledSpaces, -⟩ := filed_trees (kindIndexed_withIndexes s)
    (namespaces_withIndexes_of_fresh hs) (packages_withIndexes_of_fresh hs)
    (unpacked_withIndexes hs).isSome_item? defaultName
  have hpermSpaces := hindexed.perm_of_filed hfiledSpaces
  obtain ⟨hspaceIndex, hmarkedSpaces⟩ := perm_indexes_withSpaces (nodup_spaceNames hs)
    (index_withIndexes_of_ne hs (by decide) (by decide))
    (lookup_mark_withIndexes hs (c := '~') (by decide) (by decide))
  obtain ⟨hpackageIndex, hmarkedPackages⟩ := hu.perm_indexes defaultName
  rw [index_withIndexes_elements] at hmarkedSpaces
  obtain ⟨paths, load, hbranches, hnone, hways⟩ := exists_branches_spaces hs
  constructor
  case kinds =>
    intro k hk
    rw [index_withPackages hk, index_withSpaces hk, index_withIndexes hk]
  case nodup =>
    refine hindexed.distinct.imp fun {a b} hne heq => ?_
    exact hne (congrArg ElementRef.kind heq) (congrArg (fun ref => ref.fqsen.text) heq)
  case spaces => exact hpermSpaces
  case packages =>
    rw [hpackages, htop]
    exact hu.perm_elements_packageTree defaultName
  case atSpace =>
    intro ref href
    have hheld := hpermSpaces.mem_iff.mpr href
    rw [hspaces] at hheld ⊢
    exact hbranches.exists_holds_iff (hways · ref) hheld
  case atPackage =>
    intro ref href
    obtain ⟨f, old, item, node, hf, hold, hplaced⟩ := hu.exists_package defaultName (htop ▸ href)
    rw [ApiSet.file?_congr (files_filed s)] at hf
    rw [ApiSet.item?_congr (files_filed s)] at hold
    rw [hpackages]
    exact ⟨f, old, item, node, hf, hold, hplaced⟩
  case fileAtPackage =>
    intro id f hf
    have hfile := (ApiSet.file?_congr (files_filed s) id).trans hf
    have hfiled := apart_withPackages defaultName (withSpaces (withIndexes s)) id
    rw [hfile] at hfiled
    obtain ⟨g, hg, hsame⟩ := Option.map_eq_some_iff.mp hfiled
    obtain ⟨node, hfound, hunique⟩ := hu.exists_filePackage (defaultPackage defaultName) hfile
    have hpath := congrArg File.path hsame
    have hpackage := congrArg File.package hsame
    rw [hpackages]
    exact ⟨g, node, hg, hpath, hpackage, hfound, hunique⟩
  case onlyFiles =>
    intro node path id hfile
    rw [hpackages] at hfile
    rw [← ApiSet.file?_congr (files_filed s)]
    exact hu.exists_file_of_holdsFile hfile
  case noFiles =>
    intro node path id hfile
    rw [hspaces] at hfile
    obtain ⟨p, -, hget⟩ := hbranches.holdsFile_iff.mp hfile
    rw [hnone] at hget
    simp at hget
  case spaceIndex =>
    rw [index_withPackages_of_ne (by decide) (by decide), hspaces]
    exact hspaceIndex
  case packageIndex => exact hpackageIndex
  case elementIndex =>
    rw [hspaces]
    exact hmarkedPackages.trans (hmarkedSpaces.append_left _)

/-- Building the tree of namespaces once more changes nothing. -/
theorem withSpaces_filed (defaultName : String) :
    withSpaces (withPackages defaultName (withSpaces (withIndexes s))) =
      withPackages defaultName (withSpaces (withIndexes s)) := by
  have hfiled := filedAs_withPackages hs defaultName
  refine withSpaces_of_filed ?_ (fun ref href => ?_) fun n hn => ⟨?_, ?_⟩
  · rw [namespaces_withPackages]
    exact wellFormed_withSpaces (namespaces_withIndexes_of_fresh hs)
  · obtain ⟨node, hfound, hunique⟩ := hfiled.atSpace ref href
    exact ⟨node, hfound, (hunique node).mpr rfl⟩
  · refine NameMap.mem_entries_iff.mp (hfiled.elementIndex.mem_iff.mpr ?_)
    exact List.mem_append_right _ (List.mem_append_left _ (List.mem_map_of_mem hn))
  · exact NameMap.mem_entries_iff.mp (hfiled.spaceIndex.mem_iff.mpr (List.mem_map_of_mem hn))

end Fresh

end Compile

/-! ### Runs of the steps -/

/-- A step that leaves every item as it is. -/
theorem Attempt.state_visit_of_eq {α : Type} {step : α → Attempt α} {xs : List α}
    (h : ∀ x ∈ xs, (step x).failure = none ∧ (step x).state = x) :
    (Attempt.visit step xs).failure = none ∧ (Attempt.visit step xs).state = xs := by
  have hnone := failure_visit fun x hx => (h x hx).1
  refine ⟨hnone, (state_visit hnone).1.trans ?_⟩
  exact (List.map_congr_left fun x hx => (h x hx).2).trans (List.map_id' xs)

/-- A step on sets that leaves every one of them as it is. -/
theorem Project.state_visitSets_of_eq {step : DocSet → Attempt DocSet} {p : Project}
    (h : ∀ v ∈ p.versions, ∀ d ∈ v.sets, (step d).failure = none ∧ (step d).state = d) :
    (p.visitSets step).failure = none ∧ (p.visitSets step).state = p := by
  have hversions : ∀ v ∈ p.versions,
      ((Attempt.visit step v.sets).map fun sets => { v with sets := sets }).failure = none ∧
        ((Attempt.visit step v.sets).map fun sets => { v with sets := sets }).state = v := by
    intro v hv
    obtain ⟨hnone, hsame⟩ := Attempt.state_visit_of_eq (h v hv)
    exact ⟨hnone, congrArg (fun sets => { v with sets := sets }) hsame⟩
  obtain ⟨hnone, hsame⟩ := Attempt.state_visit_of_eq hversions
  exact ⟨hnone, congrArg (fun versions => { p with versions := versions }) hsame⟩

/-- A step on API sets that leaves every one of them as it is. -/
theorem Project.state_visitApis_of_eq {step : ApiSet → Attempt ApiSet} {p : Project}
    (h : ∀ s ∈ p.apiSets, (step s).failure = none ∧ (step s).state = s) :
    (p.visitApis step).failure = none ∧ (p.visitApis step).state = p := by
  refine state_visitSets_of_eq fun v hv d hd => ?_
  cases d with
  | api s =>
    obtain ⟨hnone, hsame⟩ := h s (mem_apiSets_iff.mpr ⟨v, hv, hd⟩)
    exact ⟨hnone, congrArg DocSet.api hsame⟩
  | guide g => exact ⟨rfl, rfl⟩

namespace Compiler

/-- The steps that build the indexes and both trees. -/
def filing : Compiler := ⟨[Compile.elementsPass, Compile.spacesPass, Compile.packagesPass]⟩

/-- What the steps make of the API set at a place. -/
theorem apiSet?_filing {services : Services} {p : Project}
    (h : (filing.compile services p).failure = none) (v i : Nat) :
    (filing.compile services p).state.apiSet? v i = (p.apiSet? v i).map fun s =>
      Compile.withPackages p.settings.defaultPackage
        (Compile.withSpaces (Compile.withIndexes s)) := by
  have hleads := Compiler.leads_cons Compile.takes_elementsPass <|
    Compiler.leads_cons Compile.takes_spacesPass <|
    Compiler.leads_cons Compile.takes_packagesPass <| Compiler.leads_nil
  exact (hleads services p _ (runs_of_compile h)).2 v i

/-- After the steps that build the indexes and both trees, every element of the indexes is at one
node of each tree, that of its namespace and that of its package; every file is at the node of its
package, and every node is entered once. Building the tree of namespaces again changes nothing. -/
theorem filedAs_of_filing {services : Services} {p : Project} (hp : p.Fresh)
    (h : (filing.compile services p).failure = none) :
    (∀ v i s, p.apiSet? v i = some s → ∃ t,
      (filing.compile services p).state.apiSet? v i = some t ∧
        s.FiledAs (Compile.defaultPackage p.settings.defaultPackage) t) ∧
      (Compile.spacesPass.run services (filing.compile services p).state).failure = none ∧
      (Compile.spacesPass.run services (filing.compile services p).state).state =
        (filing.compile services p).state := by
  constructor
  · intro v i s hs
    have hfresh := hp s (Project.mem_apiSets_iff_apiSet?.mpr ⟨v, i, hs⟩)
    have hplace := apiSet?_filing h v i
    rw [hs, Option.map_some] at hplace
    refine ⟨_, hplace, ?_⟩
    exact Compile.filedAs_withPackages hfresh p.settings.defaultPackage
  · refine Project.state_visitApis_of_eq fun t ht => ⟨rfl, ?_⟩
    change Compile.withSpaces t = t
    obtain ⟨v, i, hplace⟩ := Project.mem_apiSets_iff_apiSet?.mp ht
    rw [apiSet?_filing h] at hplace
    obtain ⟨s, hs, rfl⟩ := Option.map_eq_some_iff.mp hplace
    have hfresh := hp s (Project.mem_apiSets_iff_apiSet?.mpr ⟨v, i, hs⟩)
    exact Compile.withSpaces_filed hfresh p.settings.defaultPackage

/-- Without strict names nothing fails while indexes and trees are built. -/
theorem failure_filing {services : Services} {p : Project} (h : p.settings.strictNames = false) :
    (filing.compile services p).failure = none := by
  have hapi (description : String) (priority : Int)
      (step : Services → Settings → ApiSet → Attempt ApiSet)
      (hstep : ∀ s, (step services p.settings s).failure = none) :
      (Pass.onApiSets description priority step).Succeeds (fun q => q.settings = p.settings)
        services := by
    intro q hq
    refine ⟨Project.failure_visitApis (fun s => ?_) q, hq⟩
    rw [hq]
    exact hstep s
  refine failure_foldl_of_succeeds (P := fun q => q.settings = p.settings) (fun pass hpass => ?_)
    rfl rfl
  simp only [filing, List.mem_cons, List.not_mem_nil, or_false] at hpass
  rcases hpass with rfl | rfl | rfl
  · refine hapi _ _ _ fun s => ?_
    simp only [Compile.buildIndexes, h]
  · exact hapi _ _ _ fun _ => rfl
  · exact hapi _ _ _ fun _ => rfl

/-- A source with a package of its own and a class in another one, written in the older way. -/
def basketSource : SourceText :=
  ⟨"basket.php", "<?php /** @package Shop */ namespace App; " ++
    "/** @package Old_Shop */ class Basket \x7b\x7d"⟩

def totalSource : SourceText := ⟨"total.php", "<?php namespace App; function total() \x7b\x7d"⟩

def shop : Project := .ofSources {} [basketSource, totalSource]

def fileShop : Attempt Project :=
  filing.compile ⟨.standard, fun request => .error (.notFound request.path)⟩ shop

/-- Both elements and both files of the project are filed. -/
theorem filedAs_of_filing_shop :
    fileShop.failure = none ∧
      (ApiSet.ofSources [basketSource, totalSource]).allElements.map (fun ref => ref.fqsen.text) =
        ["\\App\\Basket", "\\App\\total()"] ∧
      ∃ t, fileShop.state.apiSet? 0 0 = some t ∧
        (ApiSet.ofSources [basketSource, totalSource]).FiledAs
          (Compile.defaultPackage shop.settings.defaultPackage) t := by
  have hnone : fileShop.failure = none := failure_filing rfl
  have hfresh : shop.Fresh := Project.fresh_ofSources {} [basketSource, totalSource]
  exact ⟨hnone, by decide +kernel, (filedAs_of_filing hfresh hnone).1 0 0 _ rfl⟩

end Compiler

end ApiDoc
