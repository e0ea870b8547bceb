import ApiDoc.Proofs.Unlinking

/-!
# Addresses of a compiled project lead somewhere

The steps of the compiler write addresses into indexes, trees and references, and the last of them
removes elements. A set is intact if no address is left behind: every entry of an index leads
somewhere, the trees hold what the indexes of the kinds hold, and every reference of a file that has
an address leads somewhere. Main statement: whatever compiles is intact, also where several
declarations share a name.
-/

namespace ApiDoc

/-! ### All references of a file -/

namespace File

/-- The class-likes of a file: what each is built on, and its members. -/
def classLikes (f : File) : List (Bases × Members) :=
  f.classes.values.map (fun e =>
      (⟨e.body.parent, e.body.interfaces, e.body.usedTraits⟩, e.body.members)) ++
    f.interfaces.values.map (fun e => ({ interfaces := e.body.parents }, e.body.members)) ++
    f.traits.values.map (fun e => ({ usedTraits := e.body.usedTraits }, e.body.members))

/-- Every reference of a file: of its own tags, of the tags of all elements, and of what class-likes
are built on. -/
def everyReference (f : File) : List Reference :=
  f.tags.references ++ f.topLevel.flatMap (·.tags.references) ++
    f.classLikes.flatMap fun c => c.1.all ++ c.2.items.flatMap (·.tags.references)

theorem exists_of_mem_classLikes {f : File} {c : Bases × Members} (h : c ∈ f.classLikes) :
    ∃ kind key, f.basesAt? kind key = some c.1 ∧ f.membersIn? kind key = some c.2 := by
  simp only [classLikes, List.mem_append, List.mem_map, NameMap.mem_values_iff] at h
  rcases h with (⟨e, ⟨key, he⟩, rfl⟩ | ⟨e, ⟨key, he⟩, rfl⟩) | ⟨e, ⟨key, he⟩, rfl⟩
  · exact ⟨.class, key, by simp [basesAt?, he], by simp [membersIn?, he]⟩
  · exact ⟨.interface, key, by simp [basesAt?, he], by simp [membersIn?, he]⟩
  · exact ⟨.trait, key, by simp [basesAt?, he], by simp [membersIn?, he]⟩

theorem exists_of_mem_everyReference {f : File} {r : Reference} (h : r ∈ f.everyReference) :
    r ∈ f.tags.references ∨ (∃ p item, f.at? p = some item ∧ r ∈ item.tags.references) ∨
      ∃ kind key b, f.basesAt? kind key = some b ∧ r ∈ b.all := by
  rcases List.mem_append.mp h with h | h
  · rcases List.mem_append.mp h with h | h
    · exact .inl h
    · obtain ⟨item, hitem, hr⟩ := List.mem_flatMap.mp h
      obtain ⟨kind, key, hkey⟩ := mem_topLevel_iff.mp hitem
      exact .inr (.inl ⟨.top kind key, item, hkey, hr⟩)
  · obtain ⟨c, hc, hr⟩ := List.mem_flatMap.mp h
    obtain ⟨kind, key, hbases, hmembers⟩ := exists_of_mem_classLikes hc
    rcases List.mem_append.mp hr with hr | hr
    · exact .inr (.inr ⟨kind, key, c.1, hbases, hr⟩)
    · obtain ⟨item, hitem, hr⟩ := List.mem_flatMap.mp hr
      obtain ⟨k, memberKey, hat⟩ := Members.mem_items_iff.mp hitem
      exact .inr (.inl ⟨.member kind key k memberKey, item, by simp [at?, hmembers, hat], hr⟩)

end File

/-! ### Intact sets -/

/-- No address of the set leads nowhere, and its trees hold what its indexes of the kinds hold. -/
structure ApiSet.Intact (s : ApiSet) : Prop where
  entries : ∀ name key target, s.lookupIn name key = some target → s.resolves target = true
  namespaces : s.Filed s.namespaces
  packages : s.Filed s.packages
  references : ∀ f ∈ s.files, ∀ r ∈ f.everyReference, ∀ target, r.resolved = some target →
    s.resolves target = true

namespace Compile

/-- Before the last step both trees hold what the indexes of the kinds hold. -/
theorem Course.filed {settings : Settings} {s v : ApiSet} (hs : s.Fresh)
    (h : Course settings s v) : v.Filed v.namespaces ∧ v.Filed v.packages := by
  obtain ⟨u, hu, -, hframe⟩ := h.exists_prepared
  have hlinked := frame_linked (withIndexes s)
  have hindexed : (linked (withIndexes s)).KindIndexed :=
    kindIndexed_congr (fun k _ => ApiSet.index_congr hlinked k.1) (kindIndexed_withIndexes s)
  have hspaces : (linked (withIndexes s)).namespaces = .fresh .namespaces :=
    (ApiSet.namespaces_congr hlinked).trans hs.namespaces_eq
  have hpackages : (linked (withIndexes s)).packages = .fresh .packages :=
    (ApiSet.packages_congr hlinked).trans hs.packages_eq
  have hentries : (linked (withIndexes s)).topLevelEntries = (withIndexes s).topLevelEntries := by
    simp only [ApiSet.topLevelEntries, ApiSet.index_congr hlinked]
  have hitems (ref : ElementRef) (href : ref ∈ (linked (withIndexes s)).topLevelEntries) :
      ((linked (withIndexes s)).item? ref).isSome := by
    rw [(retouch_linked (withIndexes s)).isSome_item?]
    exact isSome_of_mem_topLevelEntries hs.keyed (hentries ▸ href)
  have hboth := filed_trees hindexed hspaces hpackages hitems settings.defaultPackage
  have hsame := hframe.trans hu.frame_eq
  rw [ApiSet.namespaces_congr hsame, ApiSet.packages_congr hsame]
  exact ⟨filed_congr (fun k _ => ApiSet.index_congr hsame k.1) hboth.1,
    filed_congr (fun k _ => ApiSet.index_congr hsame k.1) hboth.2⟩

/-! ### The last step -/

section LastStep

variable {settings : Settings} {v : ApiSet}

/-- The entries that are left lead somewhere. -/
theorem resolves_of_lookupIn {name key : String} {target : Target}
    (h : (filterSet settings v).state.lookupIn name key = some target) :
    (filterSet settings v).state.resolves target = true := by
  rw [lookupIn_filterSet] at h
  exact (Option.filter_eq_some_iff.mp h).2

theorem filed_filterSet (hspaces : v.Filed v.namespaces) (hpackages : v.Filed v.packages) :
    (filterSet settings v).state.Filed (filterSet settings v).state.namespaces ∧
      (filterSet settings v).state.Filed (filterSet settings v).state.packages := by
  have hsettled := frame_settled settings v
  have hlast := (retouch_unlinkRemoved (pruned (settled settings v))).2
  have hkept {t : Taxonomy} (h : v.Filed t) :
      (unlinkRemoved (pruned (settled settings v))).1.Filed
        (t.mapNodes (Node.retain fun ref => (settled settings v).resolves (.element ref))) :=
    filed_congr (fun k _ => ApiSet.index_congr hlast k.1)
      (filed_pruned (filed_congr (fun k _ => ApiSet.index_congr hsettled k.1) h))
  rw [state_filterSet, ApiSet.namespaces_congr hlast, ApiSet.packages_congr hlast]
  rw [← ApiSet.namespaces_congr hsettled] at hspaces
  rw [← ApiSet.packages_congr hsettled] at hpackages
  exact ⟨hkept hspaces, hkept hpackages⟩

/-- The references of the files' own tags that have an address lead somewhere. -/
theorem resolves_of_file_tags {id : Nat} {f : File}
    (hf : (filterSet settings v).state.file? id = some f) {r : Reference}
    (hr : r ∈ f.tags.references) {target : Target} (htarget : r.resolved = some target) :
    (filterSet settings v).state.resolves target = true := by
  rw [state_filterSet, unlinkRemoved] at hf
  obtain ⟨old, hold, htags⟩ := tags_unlinkElements hf
  obtain ⟨name, hmem⟩ := Tags.mem_links_of_mem_references hr htarget
  rw [htags] at hmem
  rw [state_filterSet, resolves_unlinkRemoved]
  exact resolves_of_unlinkFiles _ hold hmem

/-- A class-like is listed under an address that leads to it. -/
theorem exists_ref_of_top {s : ApiSet} (hs : s.Keyed) {id : Nat} {kind : ElementKind} {key : String}
    (hkind : kind.isContainer = true) (h : (s.at? id (.top kind key)).isSome) :
    ∃ ref ∈ s.allElements,
      (s.item? ref).isSome ∧ ref.file = id ∧ ref.kind = kind ∧ ref.fqsen.text = key := by
  obtain ⟨item, hitem⟩ := Option.isSome_iff_exists.mp h
  obtain ⟨f, hf, hat⟩ := Option.bind_eq_some_iff.mp hitem
  obtain ⟨hk, hkey⟩ := hs id f hf _ item hat
  have hspot : s.spotOf ⟨id, kind, item.info.fqsen⟩ = some (.top kind key) := by
    rw [ApiSet.spotOf, hf, Option.bind_some, File.spotOf_of_not_throughOwner, hkey]
    exact File.throughOwner_eq_false hkind _
  obtain ⟨hmem, -⟩ := self_mem_allElements hs hspot hitem
  refine ⟨⟨id, kind, item.info.fqsen⟩, hk ▸ hmem, ?_, rfl, rfl, hkey⟩
  rw [ApiSet.item?_eq, hspot, Option.bind_some, hitem]
  rfl

/-- The references of class-likes that have an address lead somewhere: the sweep comes to each
class-like under its own address. -/
theorem resolves_of_bases (hv : v.Keyed) {id : Nat} {f : File}
    (hf : (filterSet settings v).state.file? id = some f) {kind : ElementKind} {key : String}
    {b : Bases} (hb : f.basesAt? kind key = some b) {r : Reference} (hr : r ∈ b.all)
    {target : Target} (htarget : r.resolved = some target) :
    (filterSet settings v).state.resolves target = true := by
  have hkeyed := keyed_pruned_settled settings v hv
  have hbases : (unlinkRemoved (pruned (settled settings v))).1.basesAt? id kind key = some b := by
    rw [← state_filterSet, ApiSet.basesAt?, hf, Option.bind_some, hb]
  obtain ⟨hcontainer, hitem⟩ := File.isSome_topItem?_of_basesAt? hb
  have hfound : ((unlinkRemoved (pruned (settled settings v))).1.at? id (.top kind key)).isSome := by
    rw [← state_filterSet, ApiSet.at?, hf, Option.bind_some]
    exact hitem
  rw [(retouch_unlinkRemoved _).1.isSome_at?] at hfound
  obtain ⟨ref, hmem, hself⟩ := exists_ref_of_top hkeyed hcontainer hfound
  rw [unlinkRemoved] at hbases
  rw [resolves_filterSet, ← resolves_pruned]
  rcases basesAt?_unlinkElements hbases with hclean | ⟨-, hmissed⟩
  · simpa [isStale, htarget, resolves_unlinkFiles] using hclean r hr
  · rw [← (retouch_unlinkFiles _ fun _ => ()).isSome_item?] at hself
    exact absurd hself (hmissed ref hmem)

/-- The references of elements that have an address lead somewhere. -/
theorem resolves_of_item_tags (hv : v.Keyed) (haway : UnlinkedAway v) {id : Nat} {f : File}
    (hf : (filterSet settings v).state.file? id = some f) {q : Spot} {item : Item}
    (hat : f.at? q = some item) {r : Reference} (hr : r ∈ item.tags.references) {target : Target}
    (htarget : r.resolved = some target) :
    (filterSet settings v).state.resolves target = true := by
  have hitem : (filterSet settings v).state.at? id q = some item := by
    rw [ApiSet.at?, hf, Option.bind_some, hat]
  obtain ⟨name, hlink⟩ := Tags.mem_links_of_mem_references hr htarget
  obtain ⟨old, -, -, -, hlinks⟩ := exists_of_filterSet settings v hv haway hitem
  rw [hlinks] at hlink
  exact (List.mem_filter.mp hlink).2

/-- The last step leaves a set intact. -/
theorem intact_filterSet (hv : v.Keyed) (haway : UnlinkedAway v) (hspaces : v.Filed v.namespaces)
    (hpackages : v.Filed v.packages) : (filterSet settings v).state.Intact := by
  obtain ⟨hspaces, hpackages⟩ := @filed_filterSet settings v hspaces hpackages
  refine ⟨fun _ _ _ => resolves_of_lookupIn, hspaces, hpackages, fun f hmem r hr target htarget => ?_⟩
  obtain ⟨id, hid⟩ := List.mem_iff_getElem?.mp hmem
  have hf : (filterSet settings v).state.file? id = some f := hid
  rcases File.exists_of_mem_everyReference hr with htags | ⟨q, item, hat, htags⟩ | ⟨kind, key, b, hb, hbase⟩
  · exact resolves_of_file_tags hf htags htarget
  · exact resolves_of_item_tags hv haway hf hat htags htarget
  · exact resolves_of_bases hv hf hb hbase htarget

end LastStep

end Compile

/-- A project of files as they are read compiles to sets in which no address leads nowhere. -/
theorem Compiler.intact_of_compile {services : Services} {p : Project} (hp : p.Fresh)
    (h : (standard.compile services p).failure = none) :
    ∀ s ∈ (standard.compile services p).state.apiSets, s.Intact := by
  intro t ht
  obtain ⟨s, hs, v, hv, heq⟩ := Compile.exists_course h ht
  have hfresh := hp s hs
  obtain ⟨hspaces, hpackages⟩ := hv.filed hfresh
  rw [heq]
  exact Compile.intact_filterSet (hv.retouch.keyed hfresh.keyed)
    (Compile.unlinkedAway_of_fresh hfresh hv.retouch) hspaces hpackages

/-- A class that is built on one marked internal and uses a private property of it. -/
def Project.internalBase : Project :=
  .ofSources { markers := [] }
    [⟨"a.php", "<?php /** @uses B::$x */ class A extends B {}"⟩,
      ⟨"b.php", "<?php /** @internal */ class B { private $x; }"⟩]

theorem Compiler.intact_of_compile_internal_base :
    (standard.compile ⟨.standard, .none⟩ .internalBase).failure = none ∧
      ∀ s ∈ (standard.compile ⟨.standard, .none⟩ .internalBase).state.apiSets, s.Intact := by
  have hdone : (standard.compile ⟨.standard, .none⟩ .internalBase).failure = none :=
    failure_standard Router.exists_page_standard rfl rfl
  exact ⟨hdone, intact_of_compile (Project.fresh_ofSources _ _) hdone⟩

end ApiDoc
