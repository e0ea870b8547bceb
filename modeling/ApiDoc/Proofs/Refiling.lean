import ApiDoc.Proofs.Filing
import ApiDoc.Proofs.FileOrder
import ApiDoc.Proofs.Words

/-!
# Building the tree of packages again

A second run of the step reads the packages that the first one recorded. What it records is the same
unless a name ends with a separator: normalizing drops separators at the end before it drops other
signs, so a sign at the end can leave a separator behind that the next reading drops. Where all files
keep their packages so do the elements, every file and element is placed where it is, and the second
run changes nothing at all.
-/

namespace ApiDoc

namespace Text

theorem dropTrailChar_eq_self {c : Char} {cs : List Char} (h : cs.getLast? ≠ some c) :
    dropTrailChar c cs = cs := by
  have hreverse : cs.reverse.dropWhile (· == c) = cs.reverse := by
    cases hcs : cs.reverse with
    | nil => rfl
    | cons d rest =>
      have hlast : cs.getLast? = some d := by rw [← List.head?_reverse, hcs]; rfl
      have hne : d ≠ c := fun heq => h (heq ▸ hlast)
      rw [List.dropWhile_cons_of_neg (by simpa using hne)]
  rw [dropTrailChar, hreverse, List.reverse_reverse]

/-- No run of the character is left at the end. -/
theorem getLast?_dropTrailChar (c : Char) (cs : List Char) :
    (dropTrailChar c cs).getLast? ≠ some c := by
  rw [dropTrailChar, List.getLast?_reverse]
  intro hhead
  have hnot := List.head?_dropWhile_not (· == c) cs.reverse
  rw [hhead] at hnot
  simp at hnot

theorem dropTrailChar_eq_self_iff {c : Char} {cs : List Char} :
    dropTrailChar c cs = cs ↔ cs.getLast? ≠ some c :=
  ⟨fun heq => heq ▸ getLast?_dropTrailChar c cs, dropTrailChar_eq_self⟩

end Text

/-! ### Changes that change nothing -/

theorem NameMap.modify_eq_self {α : Type} {m : NameMap α} {key : String} {g : α → α}
    (h : ∀ a, m.get? key = some a → g a = a) : m.modify key g = m := by
  refine ext_get? fun other => ?_
  rw [get?_modify]
  split
  · next heq =>
    subst heq
    cases hget : m.get? other with
    | none => rfl
    | some a => rw [Option.map_some, h a hget]
  · rfl

theorem File.modifyInfo_eq_self {f : File} {kind : ElementKind} {fqsen : Fqsen} {g : Info → Info}
    (htop : throughOwner kind fqsen = false)
    (h : ∀ item, f.topItem? kind fqsen.text = some item → g item.info = item.info) :
    f.modifyInfo kind fqsen g = f := by
  have hsame {α : Type} (m : NameMap (Element α)) (view : Element α → Item)
      (hinfo : ∀ e, (view e).info = e.info)
      (hview : ∀ item, (m.get? fqsen.text).map view = some item → g item.info = item.info) :
      m.modify fqsen.text (·.mapInfo g) = m := by
    refine NameMap.modify_eq_self fun e he => ?_
    have hkept := hview (view e) (by rw [he, Option.map_some])
    rw [hinfo] at hkept
    rw [Element.mapInfo, hkept]
  unfold modifyInfo
  rw [if_neg (by simp [htop])]
  cases kind with
  | «class» => simp only [hsame f.classes Element.classItem (fun _ => rfl) h]
  | interface => simp only [hsame f.interfaces Element.interfaceItem (fun _ => rfl) h]
  | trait => simp only [hsame f.traits Element.traitItem (fun _ => rfl) h]
  | function => simp only [hsame f.functions Element.functionItem (fun _ => rfl) h]
  | constant => simp only [hsame f.constants Element.constantItem (fun _ => rfl) h]
  | method => rfl
  | property => rfl

/-- Placing a file where it is changes nothing. -/
theorem Taxonomy.place_of_holdsFile {t : Taxonomy} {name : Fqsen} {path : String} {id file : Nat}
    (hfound : t.find? name = some id) (hheld : t.HoldsFile id path file) :
    t.place ⟨name, path, file⟩ = t := by
  obtain ⟨n, hn, hfile⟩ := hheld
  rw [place, ensure_of_find? hfound]
  refine Compile.modifyNode_eq_self fun m hm => ?_
  obtain rfl := Option.some.inj (hn.symm.trans hm)
  rw [Node.addFile, NameMap.insert_of_get? hfile]

namespace Compile

/-! ### Names that are written back -/

/-- A character that stays in the names of packages. -/
def isPackageChar (c : Char) : Bool := c.isAlphanum || c == '\\'

theorem isPackageChar_of_normalize {name : String} {c : Char}
    (h : c ∈ (normalizePackage name).toList) : isPackageChar c = true := by
  rw [normalizePackage, String.toList_ofList] at h
  exact (List.mem_filter.mp h).2

theorem isBlank_of_isPackageChar {c : Char} (h : isPackageChar c = true) :
    Text.isBlank c = false := by
  rw [isPackageChar, Bool.or_eq_true, Text.isAlphanum_iff, beq_iff_eq] at h
  simp only [Text.le_iff_toNat] at h
  have hplace : (48 ≤ c.toNat ∧ c.toNat ≤ 122) := by
    rcases h with (h | h | h) | rfl
    · exact ⟨Nat.le_trans (by decide) h.1, Nat.le_trans h.2 (by decide)⟩
    · exact ⟨Nat.le_trans (by decide) h.1, Nat.le_trans h.2 (by decide)⟩
    · exact ⟨Nat.le_trans (by decide) h.1, Nat.le_trans h.2 (by decide)⟩
    · decide
  simp [Text.isBlank]
  omega

theorem isOldSeparator_of_isPackageChar {c : Char} (h : isPackageChar c = true) :
    isOldSeparator c = false := by
  cases hold : isOldSeparator c with
  | false => rfl
  | true =>
    simp only [isOldSeparator, List.contains_iff_mem, List.mem_cons, List.not_mem_nil,
      or_false] at hold
    rcases hold with rfl | rfl | rfl | rfl | rfl <;> revert h <;> decide

/-- In a name without other characters, normalizing drops the separators at the end and nothing
else. -/
theorem normalizePackage_of_chars {name : String}
    (h : ∀ c ∈ name.toList, isPackageChar c = true) :
    normalizePackage name = String.ofList (Text.dropTrailChar '\\' name.toList) := by
  have htrim : Text.trim name.toList = name.toList := Text.IsTrimmed.trim_eq
    { front := fun c hc => isBlank_of_isPackageChar (h c (List.mem_of_mem_head? hc))
      back := fun c hc => isBlank_of_isPackageChar (h c (List.mem_of_mem_getLast? hc)) }
  have hmap : name.toList.map (fun c => if isOldSeparator c then '\\' else c) = name.toList := by
    refine (List.map_congr_left fun c hc => ?_).trans (List.map_id _)
    rw [if_neg (by simp [isOldSeparator_of_isPackageChar (h c hc)])]
    rfl
  have hfilter : (Text.dropTrailChar '\\' name.toList).filter (fun c => c.isAlphanum || c == '\\') =
      Text.dropTrailChar '\\' name.toList :=
    List.filter_eq_self.mpr fun c hc => h c (Text.mem_of_mem_dropTrailChar hc)
  simp only [normalizePackage, htrim, hmap, hfilter]

/-- A name that is read back as it was written. -/
structure IsPackageName (name : String) : Prop where
  nonempty : name ≠ ""
  chars : ∀ c ∈ name.toList, isPackageChar c = true
  last : name.toList.getLast? ≠ some '\\'

theorem IsPackageName.recorded?_eq {name : String} (h : IsPackageName name) :
    recorded? (some name) = some name := by
  have hnormal : normalizePackage name = name := by
    rw [normalizePackage_of_chars h.chars, Text.dropTrailChar_eq_self h.last, String.ofList_toList]
  simp [recorded?, hnormal, Option.filter, h.nonempty]

theorem isPackageName_of_tagged {tags : Tags} {name : String} (h : taggedPackage? tags = some name) :
    IsPackageName name := by
  have hfirst (tag : String) : ∀ c ∈ (((tags.get tag).head?.map fun t =>
      normalizePackage t.description).getD "").toList, isPackageChar c = true := by
    intro c hc
    cases htag : (tags.get tag).head? with
    | none => simp [htag] at hc
    | some t => exact isPackageChar_of_normalize (by simpa [htag] using hc)
  -- What the tags say, before the separators at the ends are dropped.
  obtain ⟨full, hchars, hbare⟩ : ∃ full : String, (∀ c ∈ full.toList, isPackageChar c = true) ∧
      (if (Text.dropTrailChar '\\' (Text.dropLeadChar '\\' full.toList)).isEmpty then none
        else some (String.ofList (Text.dropTrailChar '\\' (Text.dropLeadChar '\\' full.toList)))) =
          some name := by
    cases hsub : (tags.get "subpackage").head? with
    | none =>
      simp only [taggedPackage?, hsub, Option.map_none] at h
      exact ⟨_, hfirst "package", h⟩
    | some part =>
      refine ⟨((tags.get "package").head?.map fun t => normalizePackage t.description).getD "" ++
        "\\" ++ normalizePackage part.description, fun c hc => ?_, ?_⟩
      · simp only [String.toList_append, List.mem_append] at hc
        rcases hc with (hc | hc) | hc
        · exact hfirst "package" c hc
        · rw [List.mem_singleton.mp hc]
          decide
        · exact isPackageChar_of_normalize hc
      · simp only [taggedPackage?, hsub, Option.map_some] at h
        exact h
  split at hbare
  · simp at hbare
  · next hne =>
    obtain rfl := Option.some.inj hbare
    refine ⟨fun hempty => hne ?_, fun c hc => hchars c ?_, ?_⟩
    · simpa using congrArg String.toList hempty
    · rw [String.toList_ofList] at hc
      exact Text.mem_of_mem_dropLeadChar (Text.mem_of_mem_dropTrailChar hc)
    · rw [String.toList_ofList]
      exact Text.getLast?_dropTrailChar _ _

/-- The packages that are found for files: names of the right characters, and the default where
nothing would be left of it. -/
theorem packageOfFile_cases (defaultName : String) (f : File) :
    (packageOfFile (defaultPackage defaultName) f ≠ "" ∧
      ∀ c ∈ (packageOfFile (defaultPackage defaultName) f).toList, isPackageChar c = true) ∨
    (packageOfFile (defaultPackage defaultName) f = defaultPackage defaultName ∧
      normalizePackage (packageOfFile (defaultPackage defaultName) f) = "") := by
  rw [packageOfFile]
  cases htag : taggedPackage? f.tags with
  | some name => exact .inl ⟨(isPackageName_of_tagged htag).nonempty, (isPackageName_of_tagged htag).chars⟩
  | none =>
    rw [Option.none_or]
    cases hrecorded : recorded? f.package with
    | some name =>
      obtain ⟨hname, hne⟩ := Option.filter_eq_some_iff.mp hrecorded
      obtain ⟨old, -, rfl⟩ := Option.map_eq_some_iff.mp hname
      exact .inl ⟨by simpa using hne, fun c hc => isPackageChar_of_normalize hc⟩
    | none =>
      rw [Option.getD_none, defaultPackage]
      by_cases hempty : normalizePackage defaultName = ""
      · exact .inr ⟨rfl, by simp [hempty]⟩
      · refine .inl ?_
        simp only [String.isEmpty_iff, hempty, if_false]
        exact ⟨hempty, fun c hc => isPackageChar_of_normalize hc⟩

/-- A package that is read back as it was recorded, where nothing else names one. -/
def ReadsBack (default package : String) : Prop :=
  (recorded? (some package)).getD default = package

/-- Reading back drops the separators at the end of a name. -/
theorem readsBack_iff (defaultName : String) (f : File) :
    ReadsBack (defaultPackage defaultName) (packageOfFile (defaultPackage defaultName) f) ↔
      (packageOfFile (defaultPackage defaultName) f).toList.getLast? ≠ some '\\' ∨
        (packageOfFile (defaultPackage defaultName) f = defaultPackage defaultName ∧
          normalizePackage (packageOfFile (defaultPackage defaultName) f) = "") := by
  have hcases := packageOfFile_cases defaultName f
  generalize packageOfFile (defaultPackage defaultName) f = package at hcases ⊢
  generalize defaultPackage defaultName = default at hcases ⊢
  have hrecorded (h : normalizePackage package ≠ "") :
      recorded? (some package) = some (normalizePackage package) := by
    simp [recorded?, Option.filter, h]
  have hnone (h : normalizePackage package = "") : recorded? (some package) = none := by
    simp [recorded?, Option.filter, h]
  rcases hcases with ⟨hne, hchars⟩ | ⟨rfl, hempty⟩
  · have hnormal := normalizePackage_of_chars hchars
    by_cases hempty : normalizePackage package = ""
    · rw [ReadsBack, hnone hempty, Option.getD_none, eq_comm]
      refine ⟨fun heq => .inr ⟨heq, hempty⟩, ?_⟩
      rintro (hlast | ⟨heq, -⟩)
      · rw [hnormal, Text.dropTrailChar_eq_self hlast, String.ofList_toList] at hempty
        exact absurd hempty hne
      · exact heq
    · rw [ReadsBack, hrecorded hempty, Option.getD_some, or_iff_left fun h => hempty h.2, hnormal,
        ← String.toList_inj, String.toList_ofList]
      exact Text.dropTrailChar_eq_self_iff
  · rw [ReadsBack, hnone hempty]
    exact ⟨fun _ => .inr ⟨rfl, hempty⟩, fun _ => rfl⟩

/-! ### Packages that were recorded -/

/-- The package of a file depends on nothing that its elements say. -/
theorem packageOfFile_congr {f g : File} (h : f.apart = g.apart) (default : String) :
    packageOfFile default f = packageOfFile default g := by
  change packageOfFile default f.apart = packageOfFile default g.apart
  rw [h]

theorem packageOfFile_again_iff {default : String} {f : File} :
    packageOfFile default { f with package := some (packageOfFile default f) } =
        packageOfFile default f ↔ ReadsBack default (packageOfFile default f) := by
  cases htag : taggedPackage? f.tags with
  | none => simp only [ReadsBack, packageOfFile, htag, Option.none_or]
  | some name =>
    have hname : packageOfFile default f = name := by
      simp only [packageOfFile, htag, Option.some_or, Option.getD_some]
    have hagain : packageOfFile default { f with package := some (packageOfFile default f) } = name := by
      simp only [packageOfFile, htag, Option.some_or, Option.getD_some]
    have hrecorded := (isPackageName_of_tagged htag).recorded?_eq
    rw [hagain, hname, ReadsBack, hrecorded, Option.getD_some]

/-- With the package of its file an element keeps its own. -/
theorem packageOfElement_again {default filePackage : String}
    (hback : ReadsBack default filePackage) {info : Info} (hunfiled : info.package = none) :
    packageOfElement filePackage (noted (packageOfElement filePackage info) info) =
      packageOfElement filePackage info := by
  have hnone : recorded? info.package = none := by rw [hunfiled]; rfl
  cases htag : taggedPackage? info.tags with
  | some name => simp only [packageOfElement, noted, htag, Option.some_or, Option.getD_some]
  | none =>
    simp only [packageOfElement, noted, htag, hnone, Option.none_or, Option.getD_none]
    rw [ReadsBack] at hback
    cases hrecorded : recorded? (some filePackage) with
    | none => rw [Option.getD_none]
    | some name =>
      rw [hrecorded, Option.getD_some] at hback
      rw [Option.getD_some, hback]

end Compile

/-! ### The second run -/

namespace ApiSet.Unpacked

open Compile

variable {u : ApiSet} (hu : u.Unpacked) {defaultName : String}
include hu

section Back

variable (hback : ∀ id f, u.file? id = some f →
  ReadsBack (defaultPackage defaultName) (packageOfFile (defaultPackage defaultName) f))
include hback

omit hu in
/-- A file after the first run: the package that is recorded on it is found again. -/
theorem exists_file?_before {id : Nat} {g : File}
    (hg : (withPackages defaultName u).file? id = some g) : ∃ f, u.file? id = some f ∧
      g.path = f.path ∧
      packageOfFile (defaultPackage defaultName) g = packageOfFile (defaultPackage defaultName) f ∧
      g.package = some (packageOfFile (defaultPackage defaultName) g) := by
  have hfiled := apart_withPackages defaultName u id
  rw [hg] at hfiled
  obtain ⟨f, hf, hsame⟩ := Option.map_eq_some_iff.mp hfiled.symm
  have hpath := congrArg File.path hsame
  have hpackage := congrArg File.package hsame
  have hagain := packageOfFile_again_iff.mpr (hback id f hf)
  rw [packageOfFile_congr hsame] at hagain
  refine ⟨f, hf, hpath.symm, hagain, ?_⟩
  rw [hagain]
  exact hpackage.symm

/-- The second run finds the elements with the packages that the first one found. -/
theorem elementPackages_withPackages :
    elementPackages (defaultPackage defaultName) (withPackages defaultName u) =
      elementPackages (defaultPackage defaultName) u := by
  rw [elementPackages, elementPackages, topLevelEntries_withPackages]
  refine List.filterMap_congr fun ref href => ?_
  obtain ⟨item, hitem, hunfiled⟩ := hu.unfiled ref href
  obtain ⟨f, hf, -⟩ := Option.bind_eq_some_iff.mp hitem
  have hnew := hu.item?_withPackages defaultName (mem_elementPackages_iff.mpr
    (show (ref, packageOfElement (packageOfFile _ f) item.info).1 ∈ _ ∧ _ from
      ⟨href, item, f, hitem, hf, rfl⟩))
  have hfiled := apart_withPackages defaultName u ref.file
  rw [hf] at hfiled
  obtain ⟨g, hg, -⟩ := Option.map_eq_some_iff.mp hfiled
  obtain ⟨found, hfound, -, hfile, -⟩ := exists_file?_before hback hg
  obtain rfl := Option.some.inj (hf.symm.trans hfound)
  dsimp only at hnew
  rw [hitem, Option.map_some] at hnew
  have hsame := packageOfElement_again (hback _ f hf) hunfiled
  simp only [hnew, hg, hitem, hf, hfile, Option.bind_eq_bind, Option.bind_some, Option.pure_def]
  exact congrArg (fun package => some (ref, package)) hsame

omit hu in
theorem notePackages_withPackages :
    notePackages (defaultPackage defaultName) (withPackages defaultName u) =
      withPackages defaultName u := by
  refine foldl_eq_self fun e he => modifyFile_eq_self fun g hg => ?_
  have hnumbered := ApiSet.mem_numbered_iff.mp he
  obtain rfl := Option.some.inj (hnumbered.symm.trans hg)
  obtain ⟨f, -, -, -, hpackage⟩ := exists_file?_before hback hg
  rw [setPackage, ← hpackage]

omit hback in
theorem noteElements_withPackages :
    noteElements (elementPackages (defaultPackage defaultName) u) (withPackages defaultName u) =
      withPackages defaultName u := by
  refine foldl_eq_self fun e he => modifyFile_eq_self fun g hg => ?_
  have href := (mem_elementPackages_iff.mp he).1
  refine File.modifyInfo_eq_self (hu.outside e.1 href) fun item hitem => ?_
  have hnew := hu.item?_withPackages defaultName he
  rw [ApiSet.item?, hg, Option.bind_some, File.item?_eq,
    File.spotOf_of_not_throughOwner g (hu.outside e.1 href), Option.bind_some] at hnew
  obtain ⟨old, -, hold⟩ := Option.map_eq_some_iff.mp (hnew.symm.trans hitem)
  rw [← hold]
  rfl

/-- The second run finds each file at its node. -/
theorem placeAll_withPackages : ((withPackages defaultName u).numbered.map
    (placing (defaultPackage defaultName))).foldl Taxonomy.place
      (packageTree (defaultPackage defaultName) u) = packageTree (defaultPackage defaultName) u := by
  refine foldl_eq_self fun e he => ?_
  obtain ⟨⟨id, g⟩, hg, rfl⟩ := List.mem_map.mp he
  have hnumbered : (withPackages defaultName u).file? id = some g :=
    ApiSet.mem_numbered_iff.mp hg
  obtain ⟨f, hf, hpath, hfile, -⟩ := exists_file?_before hback hnumbered
  obtain ⟨node, hfound, hunique⟩ := hu.exists_filePackage (defaultPackage defaultName) hf
  rw [placing, hfile, hpath]
  exact Taxonomy.place_of_holdsFile hfound ((hunique node).mpr rfl)

omit hback in
/-- The second run finds each element at its node. -/
theorem attachAll_withPackages :
    ((elementPackages (defaultPackage defaultName) u).map fun e => (e.1, packageNode e.2)).foldl
      (fun t e => attachAt t e.2 e.1) (packageTree (defaultPackage defaultName) u) =
        packageTree (defaultPackage defaultName) u := by
  refine foldl_eq_self fun e he => ?_
  obtain ⟨⟨ref, package⟩, hentry, rfl⟩ := List.mem_map.mp he
  dsimp only
  obtain ⟨href, item, f, hitem, hf, rfl⟩ := hu.mem_elementPackages.mp hentry
  obtain ⟨f', old, -, node, hf', hold, -, -, hfound, hunique⟩ := hu.exists_package defaultName href
  obtain rfl := Option.some.inj (hf.symm.trans hf')
  obtain rfl := Option.some.inj (hitem.symm.trans hold)
  exact attachAt_of_holds (wellFormed_packageTree hu.tree _) hfound ((hunique node).mpr rfl)

/-- The second run grows no node, and places every file and element where it is. -/
theorem packageTree_withPackages :
    packageTree (defaultPackage defaultName) (withPackages defaultName u) =
      (withPackages defaultName u).packages := by
  rw [packageTree, hu.elementPackages_withPackages hback, packages_withPackages,
    hu.placeAll_withPackages hback, hu.attachAll_withPackages]

/-- Where all files keep their packages, the second run changes nothing. -/
theorem withPackages_of_readsBack :
    withPackages defaultName (withPackages defaultName u) = withPackages defaultName u := by
  obtain ⟨hindex, helements⟩ := hu.perm_indexes defaultName
  rw [withPackages_eq defaultName (withPackages defaultName u), notePackages_withPackages hback,
    hu.elementPackages_withPackages hback, hu.noteElements_withPackages,
    hu.packageTree_withPackages hback]
  refine enterNodes_of_entered fun n hn => ⟨?_, ?_⟩
  · refine NameMap.mem_entries_iff.mp (helements.mem_iff.mpr ?_)
    exact List.mem_append_left _ (List.mem_map_of_mem hn)
  · exact NameMap.mem_entries_iff.mp (hindex.mem_iff.mpr (List.mem_map_of_mem hn))

end Back

/-- The second run changes nothing if and only if every file keeps its package. -/
theorem withPackages_again_iff :
    withPackages defaultName (withPackages defaultName u) = withPackages defaultName u ↔
      ∀ id f, u.file? id = some f →
        ReadsBack (defaultPackage defaultName) (packageOfFile (defaultPackage defaultName) f) := by
  refine ⟨fun hsame id f hf => ?_, fun hback => hu.withPackages_of_readsBack hback⟩
  have hfirst := apart_withPackages defaultName u id
  rw [hf] at hfirst
  obtain ⟨g, hg, hgf⟩ := Option.map_eq_some_iff.mp hfirst
  have hsecond := apart_withPackages defaultName (withPackages defaultName u) id
  rw [hsame, hg] at hsecond
  -- Both runs record the package that they find, and it is one file that they record it on.
  have hpackage := congrArg File.package hgf
  have hkept := congrArg File.package (Option.some.inj hsecond)
  rw [← packageOfFile_again_iff, ← packageOfFile_congr hgf]
  exact Option.some.inj (hkept.symm.trans hpackage)

end ApiSet.Unpacked

namespace Compile

/-! ### Runs on reflected files -/

theorem unpacked_linked {u : ApiSet} (hu : u.Unpacked) : (linked u).Unpacked := by
  have hindex (name : String) : (linked u).index name = u.index name :=
    ApiSet.index_congr (frame_linked u) name
  have htop : (linked u).topLevelEntries = u.topLevelEntries :=
    topLevelEntries_congr fun k _ => hindex k.1
  -- References stand in tags and bases, so the packages on elements are left alone.
  have hretouch : u.Retouch (fun item => item.info.package) (linked u) :=
    retouch_linked_of (fun _ => ⟨fun _ => rfl, fun _ => rfl⟩) u
  refine ⟨kindIndexed_congr (fun k _ => hindex k.1) hu.indexed, fun ref href =>
    hu.outside ref (htop ▸ href), fun ref href => ?_, ?_,
    (ApiSet.packages_congr (frame_linked u)).trans hu.tree, (hindex _).trans hu.index, fun key => ?_⟩
  · obtain ⟨old, hold, hunfiled⟩ := hu.unfiled ref (htop ▸ href)
    obtain ⟨item, hitem, -, hview⟩ := hretouch.exists_new_item? hold
    exact ⟨item, hitem, hview.symm.trans hunfiled⟩
  · rw [(keeps_linked u).map_path]
    exact hu.paths
  · rw [ApiSet.lookup_eq, hindex, ← ApiSet.lookup_eq, hu.unmarked]

/-- What has become of a set when its indexes are built, and references may be linked and namespaces
entered. -/
inductive Indexed (s : ApiSet) : ApiSet → Prop
  | built : Indexed s (withIndexes s)
  | linked {u : ApiSet} : Indexed s u → Indexed s (linked u)
  | spaces {u : ApiSet} : Indexed s u → Indexed s (withSpaces u)

theorem Indexed.unpacked {s u : ApiSet} (hs : s.Fresh) (h : Indexed s u) : u.Unpacked := by
  induction h with
  | built => exact unpacked_withIndexes hs
  | linked _ ih => exact unpacked_linked ih
  | spaces _ ih => exact unpacked_withSpaces ih

/-- Building the tree of packages again changes nothing if and only if no file has a package that
ends with a separator, other than a default of which nothing would be left. -/
theorem withPackages_withPackages_iff {s u : ApiSet} (hs : s.Fresh) (hu : Indexed s u)
    (defaultName : String) :
    withPackages defaultName (withPackages defaultName u) = withPackages defaultName u ↔
      ∀ f ∈ u.files,
        (packageOfFile (defaultPackage defaultName) f).toList.getLast? ≠ some '\\' ∨
          (packageOfFile (defaultPackage defaultName) f = defaultPackage defaultName ∧
            normalizePackage (packageOfFile (defaultPackage defaultName) f) = "") := by
  rw [(hu.unpacked hs).withPackages_again_iff]
  simp only [readsBack_iff]
  constructor
  · intro h f hf
    obtain ⟨id, hid⟩ := List.getElem?_of_mem hf
    exact h id f hid
  · intro h id f hf
    exact h f (List.mem_of_getElem? hf)

/-- A source whose package is a separator and a sign that is dropped behind it. -/
def dottedSource : SourceText :=
  ⟨"a.php", "<?php\n/** @package .! */\nnamespace N;\nclass A \x7b\x7d"⟩

/-- The second run moves the file of that source to the default package, so it is in two packages;
with a package of letters it stays where it is. -/
theorem withPackages_withPackages_iff_dotted :
    withPackages "Default" (withPackages "Default" (withIndexes (.ofSources [dottedSource]))) ≠
        withPackages "Default" (withIndexes (.ofSources [dottedSource])) ∧
      withPackages "Default" (withPackages "Default"
          (withIndexes (.ofSources [Compiler.basketSource]))) =
        withPackages "Default" (withIndexes (.ofSources [Compiler.basketSource])) := by
  constructor
  · intro hsame
    have hfiles := (withPackages_withPackages_iff (ApiSet.fresh_ofSources [dottedSource]) .built
      "Default").mp hsame
    revert hfiles
    decide +kernel
  · refine (withPackages_withPackages_iff (ApiSet.fresh_ofSources [Compiler.basketSource]) .built
      "Default").mpr ?_
    decide +kernel

end Compile

end ApiDoc
