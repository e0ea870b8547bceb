import ApiDoc.Proofs.Exclusion
import ApiDoc.Proofs.RenamedTexts

/-!
# The filter on renamed sets

What the filter removes from a file depends on the elements of that file alone, as long as the names
of owners lead to class-likes of the same file: then the list of what goes, seen from one file, is
the list that the elements of that file would give. What is left is swept file by file.
-/

namespace ApiDoc

/-- What bears the name of an element's owner stands in the file of the element. -/
def ApiSet.OwnersNear (s : ApiSet) : Prop :=
  ∀ e ∈ s.present, ∀ g ∈ s.present, e.1.fqsen.owner? = some g.1.fqsen → g.1.file = e.1.file

variable {ρ : Renaming}

namespace Compile

/-- An element with its address, renumbered. -/
def renameEntry (ρ : Renaming) (e : ElementRef × Item) : ElementRef × Item :=
  (e.1.rename ρ, e.2.rename ρ)

/-! ### The list of what goes -/

section Doomed

variable {filter : VisibilityFilter} {owners : List Fqsen}

/-- Of one file, an element of another file lists nothing, and one of its own looks no further. -/
theorem filter_condemn {e : ElementRef × Item} {gone : List ElementRef}
    (hnear : ∀ g ∈ gone, e.1.fqsen.owner? = some g.fqsen → g.file = e.1.file) (id : Nat) :
    ((condemn filter owners gone e).filter fun ref => ref.file = id) =
      if e.1.file = id then condemn filter owners (gone.filter fun ref => ref.file = id) e
      else gone.filter fun ref => ref.file = id := by
  by_cases hid : e.1.file = id
  · subst hid
    have howner : (e.1.fqsen.owner?.any fun o => gone.any (·.fqsen = o)) =
        e.1.fqsen.owner?.any fun o =>
          (gone.filter fun ref => ref.file = e.1.file).any (·.fqsen = o) := by
      cases ho : e.1.fqsen.owner? with
      | none => rfl
      | some o =>
        rw [Option.any_some, Option.any_some, Bool.eq_iff_iff, List.any_eq_true, List.any_eq_true]
        constructor
        · rintro ⟨g, hg, hname⟩
          have hname : g.fqsen = o := by simpa using hname
          have hfile := hnear g hg (hname ▸ ho)
          exact ⟨g, List.mem_filter.mpr ⟨hg, by simpa using hfile⟩, by simpa using hname⟩
        · rintro ⟨g, hg, hname⟩
          exact ⟨g, List.mem_of_mem_filter hg, hname⟩
    rw [if_pos rfl, condemn, condemn, ← howner]
    split
    · rfl
    · split
      · rfl
      · rw [List.filter_append]
        simp
  · rw [if_neg hid, condemn]
    split
    · rfl
    · split
      · rfl
      · rw [List.filter_append, List.filter_cons_of_neg (by simpa using hid), List.filter_nil,
          List.append_nil]

/-- What is listed of one file is what the elements of that file give. -/
theorem filter_foldl_condemn {entries : List (ElementRef × Item)} {gone : List ElementRef}
    (hnear : ∀ e ∈ entries, ∀ g, g ∈ gone ∨ g ∈ entries.map Prod.fst →
      e.1.fqsen.owner? = some g.fqsen → g.file = e.1.file) (id : Nat) :
    ((entries.foldl (condemn filter owners) gone).filter fun ref => ref.file = id) =
      (entries.filter fun e => e.1.file = id).foldl (condemn filter owners)
        (gone.filter fun ref => ref.file = id) := by
  induction entries generalizing gone with
  | nil => rfl
  | cons e rest ih =>
    have hrest : ∀ x ∈ rest, ∀ g, g ∈ condemn filter owners gone e ∨ g ∈ rest.map Prod.fst →
        x.1.fqsen.owner? = some g.fqsen → g.file = x.1.file := by
      intro x hx g hg
      refine hnear x (List.mem_cons_of_mem e hx) g ?_
      rcases hg with hg | hg
      · rcases mem_condemn hg with hg | ⟨rfl, -⟩
        · exact .inl hg
        · exact .inr List.mem_cons_self
      · exact .inr (List.mem_cons_of_mem _ hg)
    have hfirst : ∀ g ∈ gone, e.1.fqsen.owner? = some g.fqsen → g.file = e.1.file :=
      fun g hg => hnear e List.mem_cons_self g (.inl hg)
    rw [List.foldl_cons, ih hrest, filter_condemn hfirst]
    by_cases hid : e.1.file = id
    · rw [if_pos hid, List.filter_cons_of_pos (by simpa using hid), List.foldl_cons]
    · rw [if_neg hid, List.filter_cons_of_neg (by simpa using hid)]

theorem isKept_rename {owners' : List Fqsen} (howners : ∀ o, o ∈ owners' ↔ o ∈ owners)
    (ref : ElementRef) (item : Item) :
    isKept filter owners' (ref.rename ρ) (item.rename ρ) = isKept filter owners ref item := by
  have htag (name : String) :
      (item.rename ρ).info.tags.contains name = item.info.tags.contains name :=
    Tags.contains_rename item.info.tags name
  have hvisible : isVisible filter (item.rename ρ) = isVisible filter item := by
    rw [isVisible, isVisible, htag]
    rfl
  have howner : owners'.contains (ref.rename ρ).fqsen = owners.contains ref.fqsen := by
    rw [Bool.eq_iff_iff, List.contains_iff_mem, List.contains_iff_mem]
    exact howners ref.fqsen
  rw [isKept, isKept, hvisible, htag, howner]
  rfl

theorem condemn_rename {owners' : List Fqsen} (howners : ∀ o, o ∈ owners' ↔ o ∈ owners)
    (gone : List ElementRef) (e : ElementRef × Item) :
    condemn filter owners' (gone.map (ElementRef.rename ρ)) (renameEntry ρ e) =
      (condemn filter owners gone e).map (ElementRef.rename ρ) := by
  have hkept : isKept filter owners' (renameEntry ρ e).1 (renameEntry ρ e).2 =
      isKept filter owners e.1 e.2 := isKept_rename howners e.1 e.2
  have howner : ((renameEntry ρ e).1.fqsen.owner?.any fun o =>
        (gone.map (ElementRef.rename ρ)).any (·.fqsen = o)) =
      e.1.fqsen.owner?.any fun o => gone.any (·.fqsen = o) := by
    simp only [List.any_map]
    rfl
  rw [condemn, condemn, hkept, howner]
  split
  · rfl
  · split
    · rfl
    · rw [List.map_append]
      rfl

theorem foldl_condemn_rename {owners' : List Fqsen} (howners : ∀ o, o ∈ owners' ↔ o ∈ owners)
    (entries : List (ElementRef × Item)) (gone : List ElementRef) :
    (entries.map (renameEntry ρ)).foldl (condemn filter owners') (gone.map (ElementRef.rename ρ)) =
      (entries.foldl (condemn filter owners) gone).map (ElementRef.rename ρ) := by
  induction entries generalizing gone with
  | nil => rfl
  | cons e rest ih =>
    rw [List.map_cons, List.foldl_cons, List.foldl_cons, condemn_rename howners, ih]

end Doomed

end Compile

namespace ApiSet.Renamed

open Compile

variable {s t : ApiSet} (h : s.Renamed ρ t)
include h

theorem perm_present : t.present.Perm (s.present.map (renameEntry ρ)) := by
  refine (h.perm_allElements.filterMap _).trans (.of_eq ?_)
  rw [present, List.filterMap_map, List.map_filterMap]
  refine List.filterMap_congr fun ref _ => ?_
  rw [Function.comp_apply, h.item?_eq, Option.map_map, Option.map_map]
  rfl

theorem mem_apiOwners_iff (owner : Fqsen) :
    owner ∈ apiOwners t.present ↔ owner ∈ apiOwners s.present := by
  have hperm : (apiOwners t.present).Perm (apiOwners (s.present.map (renameEntry ρ))) :=
    h.perm_present.filterMap _
  have hsame : apiOwners (s.present.map (renameEntry ρ)) = apiOwners s.present := by
    rw [apiOwners, apiOwners, List.filterMap_map]
    refine List.filterMap_congr fun e _ => ?_
    have htag : (e.2.rename ρ).info.tags.contains apiTag = e.2.info.tags.contains apiTag :=
      Tags.contains_rename e.2.info.tags apiTag
    simp only [Function.comp_apply, renameEntry, htag]
    rfl
  rw [hperm.mem_iff, hsame]

theorem ownersNear (hs : s.OwnersNear) : t.OwnersNear := by
  intro e he g hg howner
  obtain ⟨x, hx, rfl⟩ := List.mem_map.mp (h.perm_present.mem_iff.mp he)
  obtain ⟨y, hy, rfl⟩ := List.mem_map.mp (h.perm_present.mem_iff.mp hg)
  exact congrArg ρ.file (hs x hx y hy howner)

theorem filter_doomed_eq (hs : s.OwnersNear) (filter : VisibilityFilter) (id : Nat) :
    ((doomed filter t.present).filter fun ref => ref.file = ρ.file id) =
      ((doomed filter s.present).filter fun ref => ref.file = id).map (ElementRef.rename ρ) := by
  have hlocal {s : ApiSet} (hs : s.OwnersNear) (id : Nat) :
      ((doomed filter s.present).filter fun ref => ref.file = id) =
        (s.present.filter fun e => e.1.file = id).foldl
          (condemn filter (apiOwners s.present)) [] := by
    refine filter_foldl_condemn (fun e he g hg howner => ?_) id
    obtain ⟨x, hx, rfl⟩ := List.mem_map.mp (hg.resolve_left List.not_mem_nil)
    exact hs e he x hx howner
  rw [hlocal hs, hlocal (h.ownersNear hs), h.filter_present_eq]
  exact foldl_condemn_rename h.mem_apiOwners_iff _ []

end ApiSet.Renamed

/-! ### Removing it -/

namespace Compile

def eraseAt (ref : ElementRef) (f : File) : File :=
  if (f.item? ref.kind ref.fqsen).isSome then f.erase ref.kind ref.fqsen else f

theorem eraseAt_rename (ref : ElementRef) (f : File) :
    eraseAt (ref.rename ρ) (f.rename ρ) = (eraseAt ref f).rename ρ := by
  have hitem : ((f.rename ρ).item? (ref.rename ρ).kind (ref.rename ρ).fqsen).isSome =
      (f.item? ref.kind ref.fqsen).isSome :=
    (congrArg Option.isSome (f.item?_rename ref.kind ref.fqsen)).trans Option.isSome_map
  rw [eraseAt, eraseAt, hitem]
  split
  · exact f.erase_rename ref.kind ref.fqsen
  · rfl

theorem modifyFile_congr {s : ApiSet} {id : Nat} {g k : File → File}
    (h : ∀ f, s.file? id = some f → g f = k f) : s.modifyFile id g = s.modifyFile id k := by
  refine congrArg (fun files => { s with files := files }) (List.ext_getElem? fun i => ?_)
  rw [List.getElem?_modify, List.getElem?_modify]
  by_cases hi : id = i
  · subst hi
    cases hf : s.files[id]? with
    | none => rfl
    | some f => simp [h f hf]
  · simp [hi]

theorem modifyFile_eq_self {s : ApiSet} {id : Nat} {g : File → File}
    (h : ∀ f, s.file? id = some f → g f = f) : s.modifyFile id g = s := by
  rw [modifyFile_congr (k := fun f => f) h]
  exact congrArg (fun files => { s with files := files }) (List.modify_id id s.files)

theorem removeElement_eq (acc : ApiSet × Nat) (ref : ElementRef) :
    (removeElement acc ref).1 = acc.1.modifyFile ref.file (eraseAt ref) := by
  have hitem {f : File} (hf : acc.1.file? ref.file = some f) :
      acc.1.item? ref = f.item? ref.kind ref.fqsen := by
    rw [ApiSet.item?, hf, Option.bind_some]
  rw [removeElement]
  split
  · next hsome =>
    refine modifyFile_congr fun f hf => ?_
    rw [eraseAt, if_pos (hitem hf ▸ hsome)]
  · next hnone =>
    refine (modifyFile_eq_self fun f hf => ?_).symm
    rw [eraseAt, if_neg (hitem hf ▸ hnone)]

theorem removeAll_eq (s : ApiSet) (refs : List ElementRef) :
    (removeAll s refs).1 = refs.foldl (fun s ref => s.modifyFile ref.file (eraseAt ref)) s := by
  have hfold (acc : ApiSet × Nat) : (refs.foldl removeElement acc).1 =
      refs.foldl (fun s ref => s.modifyFile ref.file (eraseAt ref)) acc.1 := by
    induction refs generalizing acc with
    | nil => rfl
    | cons ref rest ih => rw [List.foldl_cons, ih, removeElement_eq, List.foldl_cons]
  exact hfold (s, 0)

/-! ### What leads nowhere -/

section Stale

variable {s t : ApiSet}

/-- What is swept away depends on where addresses lead. -/
theorem unlinkAt_congr (h : t.resolves = s.resolves) : unlinkAt t = unlinkAt s := by
  have hstale : isStale t = isStale s := by
    funext r
    rw [isStale, isStale, h]
  have hreference : unlinkReference t = unlinkReference s := by
    funext r
    rw [unlinkReference, unlinkReference, hstale]
  funext ref bases f
  simp only [unlinkAt, unlinkTags, dropBackLinks, hstale, hreference]

variable (h : ∀ target, t.resolves (target.rename ρ) = s.resolves target)
include h

theorem isStale_rename (r : Reference) : isStale t (r.rename ρ) = isStale s r := by
  rw [isStale, isStale]
  cases hr : r.resolved with
  | none => simp [Reference.rename, hr]
  | some target => simp [Reference.rename, hr, h]

theorem unlinkReference_rename (r : Reference) :
    unlinkReference t (r.rename ρ) = (unlinkReference s r).rename ρ := by
  rw [unlinkReference, unlinkReference, isStale_rename h]
  split <;> rfl

theorem staleTags_rename (tags : Tags) : staleTags t (tags.rename ρ) = staleTags s tags := by
  have hreferences : (tags.rename ρ).references = tags.references.map (Reference.rename ρ) := by
    have hall : (tags.rename ρ).all = tags.all.map (Tag.mapReference (Reference.rename ρ)) := by
      rw [Tags.all, Tags.all, List.map_flatten]
      exact congrArg List.flatten (NameMap.values_map _ tags.byName)
    rw [Tags.references, hall, List.filterMap_map, Tags.references, List.map_filterMap]
    exact List.filterMap_congr fun tag _ => tag.reference?_rename
  rw [staleTags, staleTags, hreferences, List.countP_map]
  exact List.countP_congr fun r _ => by rw [Function.comp_apply, isStale_rename h]

theorem dropBackLinks_rename (tags : Tags) :
    dropBackLinks t (tags.rename ρ) = (dropBackLinks s tags).rename ρ := by
  have hkept : (((tags.rename ρ).get usedByTag).filter fun tag => !tag.reference?.any (isStale t)) =
      ((tags.get usedByTag).filter fun tag => !tag.reference?.any (isStale s)).map
        (Tag.mapReference (Reference.rename ρ)) := by
    rw [Tags.get_rename, List.filter_map]
    refine congrArg (List.map _) (List.filter_congr fun tag _ => ?_)
    rw [Function.comp_apply, tag.reference?_rename]
    cases tag.reference? with
    | none => rfl
    | some r => exact congrArg (!·) (isStale_rename h r)
  unfold dropBackLinks
  rw [hkept]
  dsimp only
  rw [List.isEmpty_map]
  split
  · exact congrArg Tags.mk (NameMap.map_erase ..).symm
  · refine congrArg Tags.mk (NameMap.map_modify (fun _ => ?_) tags.byName usedByTag).symm
    rfl

theorem unlinkTags_rename (tags : Tags) :
    unlinkTags t (tags.rename ρ) = (unlinkTags s tags).rename ρ := by
  have htag (tag : Tag) :
      (tag.mapReference (Reference.rename ρ)).mapReference (unlinkReference t) =
        (tag.mapReference (unlinkReference s)).mapReference (Reference.rename ρ) := by
    cases hbody : tag.body <;> simp [Tag.mapReference, hbody, unlinkReference_rename h]
  have hmap (tags : Tags) : (tags.rename ρ).map (Tag.mapReference (unlinkReference t)) =
      (tags.map (Tag.mapReference (unlinkReference s))).rename ρ := by
    refine congrArg Tags.mk (NameMap.ext_get? fun name => ?_)
    simp only [Tags.rename, Tags.map, NameMap.get?_map, Option.map_map]
    refine congrArg (Option.map · _) (funext fun list => ?_)
    simp only [Function.comp_apply, List.map_map]
    exact List.map_congr_left fun tag _ => htag tag
  rw [unlinkTags, dropBackLinks_rename h, hmap, unlinkTags]

theorem unlinkAt_rename (ref : ElementRef) (bases : Bases) (f : File) :
    unlinkAt t (ref.rename ρ) (bases.map (Reference.rename ρ)) (f.rename ρ) =
      (unlinkAt s ref bases f).rename ρ := by
  have hbases : (bases.map (Reference.rename ρ)).map (unlinkReference t) =
      (bases.map (unlinkReference s)).map (Reference.rename ρ) := by
    rw [Bases.map_map, Bases.map_map]
    simp only [unlinkReference_rename h]
  rw [unlinkAt, hbases]
  refine (congrArg (File.modifyInfo · ref.kind ref.fqsen _) ?_).trans
    (File.modifyInfo_rename (fun i => ?_) _ ref.kind ref.fqsen)
  · exact f.setBases_rename ref.kind ref.fqsen _
  · exact congrArg (fun tags => { i with tags := tags }) (unlinkTags_rename h i.tags)

end Stale

/-- How many stale references the sweep finds at an element of a file. -/
def staleAt (s : ApiSet) (ref : ElementRef) (f : File) : Nat :=
  (((f.item? ref.kind ref.fqsen).map fun item =>
    (f.bases ref.kind ref.fqsen).all.countP (isStale s) + staleTags s item.info.tags).getD 0)

/-- The file after the sweep through one of its elements. -/
def sweepAt (s : ApiSet) (ref : ElementRef) (f : File) : File :=
  if staleAt s ref f = 0 then f else unlinkAt s ref (f.bases ref.kind ref.fqsen) f

theorem unlinkElement_eq (acc : ApiSet × Nat) (ref : ElementRef) :
    (unlinkElement acc ref).1 = acc.1.modifyFile ref.file (sweepAt acc.1 ref) := by
  unfold unlinkElement
  dsimp only
  cases hf : acc.1.file? ref.file with
  | none => exact (modifyFile_eq_self fun f hsome => by simp [hf] at hsome).symm
  | some f =>
    have hown {g : File} (hg : acc.1.file? ref.file = some g) : g = f :=
      Option.some.inj (hg.symm.trans hf)
    have hitem : acc.1.item? ref = f.item? ref.kind ref.fqsen := by
      rw [ApiSet.item?, hf, Option.bind_some]
    rw [hitem]
    cases hfound : f.item? ref.kind ref.fqsen with
    | none =>
      refine (modifyFile_eq_self fun g hg => ?_).symm
      rw [hown hg, sweepAt, staleAt, hfound]
      rfl
    | some item =>
      have hstale : staleAt acc.1 ref f =
          (f.bases ref.kind ref.fqsen).all.countP (isStale acc.1) +
            staleTags acc.1 item.info.tags := by
        rw [staleAt, hfound]
        rfl
      dsimp only
      rw [← hstale]
      split
      · next hzero =>
        refine (modifyFile_eq_self fun g hg => ?_).symm
        rw [hown hg, sweepAt, if_pos hzero]
      · next hsome =>
        refine modifyFile_congr fun g hg => ?_
        rw [hown hg, sweepAt, if_neg hsome]
        rfl

theorem sweepAt_congr {s t : ApiSet} (h : t.resolves = s.resolves) : sweepAt t = sweepAt s := by
  have hstale : isStale t = isStale s := by
    funext r
    rw [isStale, isStale, h]
  funext ref f
  have hcount : staleAt t ref f = staleAt s ref f := by
    simp only [staleAt, staleTags, hstale]
  rw [sweepAt, sweepAt, hcount, unlinkAt_congr h]

theorem sweepAt_rename {s t : ApiSet}
    (h : ∀ target, t.resolves (target.rename ρ) = s.resolves target)
    (ref : ElementRef) (f : File) :
    sweepAt t (ref.rename ρ) (f.rename ρ) = (sweepAt s ref f).rename ρ := by
  have hbases : (f.rename ρ).bases (ref.rename ρ).kind (ref.rename ρ).fqsen =
      (f.bases ref.kind ref.fqsen).map (Reference.rename ρ) := f.bases_rename ref.kind ref.fqsen
  have hitem : (f.rename ρ).item? (ref.rename ρ).kind (ref.rename ρ).fqsen =
      (f.item? ref.kind ref.fqsen).map (Item.rename ρ) := f.item?_rename ref.kind ref.fqsen
  have hcount : ((f.bases ref.kind ref.fqsen).map (Reference.rename ρ)).all.countP (isStale t) =
      (f.bases ref.kind ref.fqsen).all.countP (isStale s) := by
    rw [Bases.all_map, List.countP_map]
    exact List.countP_congr fun r _ => by rw [Function.comp_apply, isStale_rename h]
  have hstale : staleAt t (ref.rename ρ) (f.rename ρ) = staleAt s ref f := by
    rw [staleAt, staleAt, hitem, hbases, hcount]
    cases f.item? ref.kind ref.fqsen with
    | none => rfl
    | some item => exact congrArg (_ + ·) (staleTags_rename h item.info.tags)
  rw [sweepAt, sweepAt, hstale, hbases]
  split
  · rfl
  · exact unlinkAt_rename h ref _ f

/-- The sweep through elements, file by file. -/
theorem unlinkElements_eq (refs : List ElementRef) (acc : ApiSet × Nat) :
    (refs.foldl unlinkElement acc).1 =
      refs.foldl (fun s ref => s.modifyFile ref.file (sweepAt acc.1 ref)) acc.1 := by
  have hfold (s : ApiSet) (acc : ApiSet × Nat) (h : acc.1.resolves = s.resolves) :
      (refs.foldl unlinkElement acc).1 =
        refs.foldl (fun s' ref => s'.modifyFile ref.file (sweepAt s ref)) acc.1 := by
    induction refs generalizing acc with
    | nil => rfl
    | cons ref rest ih =>
      have hnext : (unlinkElement acc ref).1.resolves = s.resolves :=
        (funext (resolves_unlinkElement acc ref)).trans h
      rw [List.foldl_cons, ih _ hnext, unlinkElement_eq, sweepAt_congr h, List.foldl_cons]
  exact hfold acc.1 acc rfl

end Compile

namespace ApiSet.Renamed

open Compile

variable {s t : ApiSet}

theorem removeHidden (h : s.Renamed ρ t) (hs : s.OwnersNear) (filter : VisibilityFilter) :
    (removeHidden filter s).1.Renamed ρ (removeHidden filter t).1 := by
  rw [Compile.removeHidden, Compile.removeHidden, removeAll_eq, removeAll_eq]
  exact h.foldl_modifyFile (h.filter_doomed_eq hs filter) fun ref _ f => eraseAt_rename ref f

theorem pruned (h : s.Renamed ρ t) : (pruned s).Renamed ρ (pruned t) := by
  have hnodes {ν : Renaming} (hν : ∀ ref : ElementRef, ref.rename ν = ref.rename ρ) (n : Node) :
      Node.retain (fun ref => t.resolves (.element ref)) (n.rename ν) =
        (Node.retain (fun ref => s.resolves (.element ref)) n).rename ν := by
    have hkeep (ref : ElementRef) :
        t.resolves (.element (ref.rename ν)) = s.resolves (.element ref) :=
      hν ref ▸ h.resolves_eq (.element ref)
    have hmap (elements : NameMap ElementRef) :
        (elements.map (ElementRef.rename ν)).filter (fun _ ref => t.resolves (.element ref)) =
          (elements.filter fun _ ref => s.resolves (.element ref)).map (ElementRef.rename ν) := by
      refine NameMap.map_filter ?_ elements
      exact hkeep
    simp only [Node.retain, Node.rename, hmap]
  refine ⟨h.name_eq, h.file?, ?_, ?_, ?_, h.tables_eq⟩
  · refine NameMap.ext_get? fun name => ?_
    rw [get?_pruned, h.indexes, NameMap.get?_map, NameMap.get?_map, get?_pruned]
    cases s.indexes.get? name with
    | none => rfl
    | some i => exact congrArg some (NameMap.map_filter h.resolves_eq i)
  · exact h.namespaces.mapNodes (hnodes fun _ => rfl)
  · exact h.packages.mapNodes (hnodes fun _ => rfl)

theorem unlinkFiles (h : s.Renamed ρ t) : (unlinkFiles s).1.Renamed ρ (unlinkFiles t).1 := by
  refine h.mapFiles fun f => ?_
  have htags : staleTags t (f.rename ρ).tags = staleTags s f.tags :=
    staleTags_rename h.resolves_eq f.tags
  rw [htags]
  by_cases hzero : staleTags s f.tags = 0
  · rw [if_pos hzero, if_pos hzero]
  · rw [if_neg hzero, if_neg hzero]
    exact congrArg (fun tags => { f.rename ρ with tags := tags })
      (unlinkTags_rename h.resolves_eq f.tags)

theorem unlinkRemoved (h : s.Renamed ρ t) : (unlinkRemoved s).1.Renamed ρ (unlinkRemoved t).1 := by
  have hfiles := h.unlinkFiles
  rw [Compile.unlinkRemoved, Compile.unlinkRemoved, unlinkElements_eq, unlinkElements_eq]
  exact hfiles.foldl_modifyFile h.filter_allElements_eq fun ref _ f =>
    sweepAt_rename hfiles.resolves_eq ref f

theorem withoutSources (h : s.Renamed ρ t) : (withoutSources s).Renamed ρ (withoutSources t) :=
  h.mapFiles fun _ => rfl

/-- The filter leads from renamed sets to renamed sets. -/
theorem filterSet (h : s.Renamed ρ t) (hs : s.OwnersNear) (settings : Settings) :
    (filterSet settings s).state.Renamed ρ (filterSet settings t).state := by
  have hstart : (filterStart settings s).Renamed ρ (filterStart settings t) := by
    rw [filterStart, filterStart]
    split
    · exact h
    · exact h.withoutSources
  have hnear : (filterStart settings s).OwnersNear := by
    rw [OwnersNear, present_filterStart]
    exact hs
  rw [state_filterSet, state_filterSet]
  exact ((hstart.removeHidden hnear settings.visibility).editAllTexts _).pruned.unlinkRemoved

end ApiSet.Renamed

end ApiDoc
