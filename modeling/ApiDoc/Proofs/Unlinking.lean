import ApiDoc.Proofs.Removal

/-!
# What the filter leaves

After the removal no element is made, removed or moved any more. Entries of indexes and of trees
that lead nowhere are dropped, and the sweep through files and elements keeps, of all the links
where addresses lead, those that lead somewhere.
-/

namespace ApiDoc

/-- What the class-like of a kind under a key of a file is built on. -/
def ApiSet.basesAt? (s : ApiSet) (id : Nat) (kind : ElementKind) (key : String) : Option Bases :=
  (s.file? id).bind fun f => f.basesAt? kind key

namespace Compile

open ApiSet (Retouch)

/-! ### The parts of the step -/

/-- The set in which the elements to remove are looked for. -/
def filterStart (settings : Settings) (s : ApiSet) : ApiSet :=
  if settings.includeSource then s else withoutSources s

/-- The set without the elements that are not shown. -/
def shown (settings : Settings) (s : ApiSet) : ApiSet :=
  (removeHidden settings.visibility (filterStart settings s)).1

/-- The set without internal text as well. -/
def settled (settings : Settings) (s : ApiSet) : ApiSet :=
  editAllTexts (fun _ text =>
    String.ofList (settleInternal settings.visibility.allowsInternal text.toList))
    (shown settings s)

theorem state_filterSet (settings : Settings) (s : ApiSet) :
    (filterSet settings s).state = (unlinkRemoved (pruned (settled settings s))).1 := by
  simp only [filterSet, settled, shown, filterStart]

section Sources

variable (s : ApiSet)

theorem file?_withoutSources (id : Nat) :
    (withoutSources s).file? id = (s.file? id).map fun f => { f with source := none } :=
  List.getElem?_map ..

theorem item?_withoutSources (ref : ElementRef) : (withoutSources s).item? ref = s.item? ref := by
  rw [ApiSet.item?, file?_withoutSources, ApiSet.item?]
  cases s.file? ref.file <;> rfl

theorem at?_withoutSources (id : Nat) (p : Spot) : (withoutSources s).at? id p = s.at? id p := by
  rw [ApiSet.at?, file?_withoutSources, ApiSet.at?]
  cases s.file? id with
  | none => rfl
  | some f => exact File.at?_congr rfl rfl rfl rfl rfl p

theorem allElements_withoutSources : (withoutSources s).allElements = s.allElements := by
  rw [ApiSet.allElements, ApiSet.numbered, withoutSources, List.zipIdx_map, List.map_map,
    ApiSet.allElements, ApiSet.numbered, List.flatMap_map, List.flatMap_map]
  rfl

theorem present_withoutSources : (withoutSources s).present = s.present := by
  rw [ApiSet.present, allElements_withoutSources, ApiSet.present]
  simp only [item?_withoutSources]

theorem present_filterStart (settings : Settings) : (filterStart settings s).present = s.present := by
  rw [filterStart]
  split
  · rfl
  · exact present_withoutSources s

theorem at?_filterStart (settings : Settings) (id : Nat) (p : Spot) :
    (filterStart settings s).at? id p = s.at? id p := by
  rw [filterStart]
  split
  · rfl
  · exact at?_withoutSources s id p

theorem retouch_filterStart {β : Type} (view : Item → β) (settings : Settings) :
    s.Retouch view (filterStart settings s) := by
  rw [filterStart]
  split
  · exact .refl s
  · exact Retouch.mapFiles s fun f => File.Retouch.of_declarations rfl rfl rfl rfl rfl

theorem frame_filterStart (settings : Settings) : (filterStart settings s).frame = s.frame := by
  rw [filterStart]
  split <;> rfl

end Sources

theorem reduces_shown (settings : Settings) (s : ApiSet) :
    (filterStart settings s).Reduces (shown settings s) :=
  reduces_removeElements (doomed settings.visibility (filterStart settings s).present)
    (filterStart settings s, 0)

theorem frame_shown (settings : Settings) (s : ApiSet) : (shown settings s).frame = s.frame :=
  (frame_removeElements _ _).trans (frame_filterStart s settings)

theorem retouch_settled (settings : Settings) (s : ApiSet) :
    (shown settings s).Retouch Item.tags (settled settings s) :=
  (retouch_editAllTexts _ _).1

theorem frame_settled (settings : Settings) (s : ApiSet) : (settled settings s).frame = s.frame :=
  (retouch_editAllTexts _ _).2.trans (frame_shown settings s)

/-! ### Pruning -/

theorem resolves_pruned (s : ApiSet) (target : Target) :
    (pruned s).resolves target = s.resolves target := by
  have hnode (t : Taxonomy) (g : Node → Node) (id : Nat) :
      ((t.mapNodes g).node? id).isSome = (t.node? id).isSome := by
    rw [Taxonomy.node?, Taxonomy.mapNodes, List.getElem?_map, Taxonomy.node?, Option.isSome_map]
  cases target with
  | file id => rfl
  | element ref => rfl
  | spaceNode id => exact hnode s.namespaces _ id
  | packageNode id => exact hnode s.packages _ id

theorem files_pruned (s : ApiSet) : (pruned s).files = s.files := rfl

theorem get?_pruned (s : ApiSet) (name : String) :
    (pruned s).indexes.get? name =
      (s.indexes.get? name).map fun i => i.filter fun _ t => s.resolves t :=
  NameMap.get?_map ..

/-- The entries that are left lead somewhere, and those that lead somewhere are left. -/
theorem lookupIn_pruned (s : ApiSet) (name key : String) :
    (pruned s).lookupIn name key = (s.lookupIn name key).filter s.resolves := by
  rw [ApiSet.lookupIn, get?_pruned, ApiSet.lookupIn]
  cases s.indexes.get? name with
  | none => rfl
  | some i => exact NameMap.get?_filter _ i key

theorem values_index_pruned (s : ApiSet) (name : String) :
    ((pruned s).index name).values = (s.index name).values.filter s.resolves := by
  rw [ApiSet.index, get?_pruned, ApiSet.index]
  cases s.indexes.get? name with
  | none => rfl
  | some i => exact NameMap.values_filter s.resolves i

/-- Pruning drops the same elements from a tree and from the indexes. -/
theorem filed_pruned {s : ApiSet} {t : Taxonomy} (h : s.Filed t) :
    (pruned s).Filed (t.mapNodes (Node.retain fun ref => s.resolves (.element ref))) := by
  rw [ApiSet.Filed] at h ⊢
  rw [Taxonomy.elements_mapNodes_retain]
  have hleft : (t.elements.filter fun ref => s.resolves (.element ref)).map Target.element =
      (t.elements.map Target.element).filter s.resolves := by
    rw [List.filter_map]
    rfl
  have hright : (Index.byKind.flatMap fun k => ((pruned s).index k.1).values) =
      (Index.byKind.flatMap fun k => (s.index k.1).values).filter s.resolves := by
    rw [List.filter_flatMap]
    exact congrArg (Index.byKind.flatMap ·) (funext fun k => values_index_pruned s k.1)
  rw [hleft, hright]
  exact h.filter _

/-! ### The sweep through the elements -/

/-- Which of the two tags that the filter asks for an element has. -/
def marks (item : Item) : Bool × Bool :=
  (item.tags.contains internalTag, item.tags.contains apiTag)

/-- What the sweep writes at one element. -/
def unlinkAt (s : ApiSet) (ref : ElementRef) (bases : Bases) (f : File) : File :=
  (f.setBases ref.kind ref.fqsen (bases.map (unlinkReference s))).modifyInfo ref.kind ref.fqsen
    fun i => { i with tags := unlinkTags s i.tags }

theorem unseen_unlinkTags (s : ApiSet) :
    Unseen marks fun i => { i with tags := unlinkTags s i.tags } := by
  refine ⟨fun _ => rfl, fun item => ?_⟩
  have hinternal := contains_unlinkTags s item.tags (by decide : internalTag ≠ usedByTag)
  have hapi := contains_unlinkTags s item.tags (by decide : apiTag ≠ usedByTag)
  simp only [marks, Item.mapInfo, Item.tags] at hinternal hapi ⊢
  rw [hinternal, hapi]

/-- What the filter reads of an element, and its texts. -/
abbrev marksAndTexts (item : Item) : (Bool × Bool) × String × String := (marks item, item.texts)

theorem retouch_unlinkAt (s : ApiSet) (ref : ElementRef) (bases : Bases) (f : File) :
    f.Retouch marksAndTexts (unlinkAt s ref bases f) :=
  (File.Retouch.setBases f ref.kind ref.fqsen _).trans
    (.modifyInfo _ ref.kind ref.fqsen
      ((unseen_unlinkTags s).both (unseen_texts (fun _ => rfl) fun _ => rfl)))

/-- The cases of one step of the sweep. -/
theorem unlinkElement_cases (acc : ApiSet × Nat) (ref : ElementRef) :
    (acc.1.item? ref = none ∧ unlinkElement acc ref = acc) ∨
      ∃ f item, acc.1.file? ref.file = some f ∧ acc.1.item? ref = some item ∧
        (((f.bases ref.kind ref.fqsen).all.countP (isStale acc.1) = 0 ∧
            staleTags acc.1 item.tags = 0 ∧ unlinkElement acc ref = acc) ∨
          (unlinkElement acc ref).1 =
            acc.1.modifyFile ref.file (unlinkAt acc.1 ref (f.bases ref.kind ref.fqsen))) := by
  cases hitem : acc.1.item? ref with
  | none =>
    refine .inl ⟨rfl, ?_⟩
    rw [unlinkElement]
    dsimp only
    rw [hitem]
    split
    · next heq => simp at heq
    · rfl
  | some item =>
    obtain ⟨f, hf, -⟩ := Option.bind_eq_some_iff.mp hitem
    refine .inr ⟨f, item, hf, rfl, ?_⟩
    unfold unlinkElement
    simp only [hf, hitem]
    split
    · next hcount =>
      obtain ⟨hbases, htags⟩ := Nat.add_eq_zero_iff.mp hcount
      exact .inl ⟨hbases, htags, rfl⟩
    · exact .inr rfl

theorem retouch_unlinkElement (acc : ApiSet × Nat) (ref : ElementRef) :
    acc.1.Retouch marksAndTexts (unlinkElement acc ref).1 ∧
      (unlinkElement acc ref).1.frame = acc.1.frame := by
  rcases unlinkElement_cases acc ref with ⟨-, heq⟩ | ⟨f, item, hf, -, ⟨-, -, heq⟩ | heq⟩
  · rw [heq]
    exact ⟨.refl _, rfl⟩
  · rw [heq]
    exact ⟨.refl _, rfl⟩
  · rw [heq]
    exact ⟨Retouch.modifyFile acc.1 ref.file (retouch_unlinkAt acc.1 ref _), rfl⟩

theorem resolves_unlinkElement (acc : ApiSet × Nat) (ref : ElementRef) (target : Target) :
    (unlinkElement acc ref).1.resolves target = acc.1.resolves target := by
  obtain ⟨hretouch, hframe⟩ := retouch_unlinkElement acc ref
  exact ApiSet.Retouch.resolves_eq hframe hretouch target

theorem retouch_unlinkElements (refs : List ElementRef) (acc : ApiSet × Nat) :
    acc.1.Retouch marksAndTexts (refs.foldl unlinkElement acc).1 ∧
      (refs.foldl unlinkElement acc).1.frame = acc.1.frame := by
  induction refs generalizing acc with
  | nil => exact ⟨.refl _, rfl⟩
  | cons ref rest ih =>
    obtain ⟨hstep, hframe⟩ := retouch_unlinkElement acc ref
    obtain ⟨hrest, hrestFrame⟩ := ih (unlinkElement acc ref)
    exact ⟨hstep.trans hrest, hrestFrame.trans hframe⟩

/-- What stands at a spot after a step of the sweep. -/
theorem at?_modifyFile_unlinkAt (s t : ApiSet) (ref : ElementRef) (bases : Bases) (id : Nat)
    (p : Spot) :
    (s.modifyFile ref.file (unlinkAt t ref bases)).at? id p =
      if ref.file = id ∧ s.spotOf ref = some p then
        (s.at? id p).map (Item.mapInfo fun i => { i with tags := unlinkTags t i.tags })
      else s.at? id p := by
  have hkeeps : KeepsName fun i => { i with tags := unlinkTags t i.tags } := fun _ => rfl
  exact s.at?_modifyFile ref
    (fun f q => f.at?_setBases_modifyInfo ref.kind ref.fqsen _ hkeeps q) id p

/-- One step keeps, of the links where its address leads, those that lead somewhere. -/
theorem links_unlinkElement (acc : ApiSet × Nat) (ref : ElementRef) {id : Nat} {p : Spot}
    {item : Item} (h : acc.1.at? id p = some item) :
    ∃ new, (unlinkElement acc ref).1.at? id p = some new ∧
      (ref.file = id ∧ acc.1.spotOf ref = some p →
        ∀ name, new.tags.links name = (item.tags.links name).filter acc.1.resolves) ∧
      (¬ (ref.file = id ∧ acc.1.spotOf ref = some p) → new = item) := by
  have hfound (hleads : ref.file = id ∧ acc.1.spotOf ref = some p) : acc.1.item? ref = some item := by
    rw [ApiSet.item?_eq, hleads.2, Option.bind_some, hleads.1, h]
  rcases unlinkElement_cases acc ref with
    ⟨hnone, heq⟩ | ⟨f, found, -, hitem, ⟨-, hstale, heq⟩ | heq⟩
  · rw [heq]
    refine ⟨item, h, fun hleads => ?_, fun _ => rfl⟩
    simp [hfound hleads] at hnone
  · rw [heq]
    refine ⟨item, h, fun hleads name => ?_, fun _ => rfl⟩
    cases (hfound hleads).symm.trans hitem
    exact (filter_links_of_staleTags hstale name).symm
  · rw [heq, at?_modifyFile_unlinkAt, h]
    split
    · next hleads =>
      exact ⟨_, rfl, fun _ name => links_unlinkTags acc.1 item.tags name, fun hnot => absurd hleads hnot⟩
    · next hnot => exact ⟨item, rfl, fun hleads => absurd hleads hnot, fun _ => rfl⟩

/-- The whole sweep keeps, of the links where its addresses lead, those that lead somewhere. -/
theorem links_unlinkElements (refs : List ElementRef) (acc : ApiSet × Nat) {id : Nat} {p : Spot}
    {item : Item} (h : acc.1.at? id p = some item) :
    ∃ new, (refs.foldl unlinkElement acc).1.at? id p = some new ∧
      ((∃ ref ∈ refs, ref.file = id ∧ acc.1.spotOf ref = some p) →
        ∀ name, new.tags.links name = (item.tags.links name).filter acc.1.resolves) ∧
      ((∀ ref ∈ refs, ¬ (ref.file = id ∧ acc.1.spotOf ref = some p)) → new = item) := by
  induction refs generalizing acc item with
  | nil => exact ⟨item, h, fun ⟨_, hmem, _⟩ => absurd hmem List.not_mem_nil, fun _ => rfl⟩
  | cons ref rest ih =>
    obtain ⟨mid, hmid, hleads, hother⟩ := links_unlinkElement acc ref h
    obtain ⟨new, hnew, hrest, hsame⟩ := ih (unlinkElement acc ref) hmid
    have hspot := (retouch_unlinkElement acc ref).1.spotOf_eq
    have hresolves : (unlinkElement acc ref).1.resolves = acc.1.resolves :=
      funext (resolves_unlinkElement acc ref)
    rw [hresolves] at hrest
    simp only [hspot] at hrest hsame
    refine ⟨new, hnew, fun hex name => ?_, fun hnone => ?_⟩
    · by_cases hfirst : ref.file = id ∧ acc.1.spotOf ref = some p
      · by_cases hlater : ∃ r ∈ rest, r.file = id ∧ acc.1.spotOf r = some p
        · rw [hrest hlater, hleads hfirst, List.filter_filter]
          simp only [Bool.and_self]
        · rw [hsame fun r hr hc => hlater ⟨r, hr, hc⟩, hleads hfirst]
      · obtain ⟨r, hr, hc⟩ := hex
        have hr : r ∈ rest := (List.mem_cons.mp hr).resolve_left fun heq => hfirst (heq ▸ hc)
        rw [hrest ⟨r, hr, hc⟩, hother hfirst]
    · rw [hsame fun r hr => hnone r (List.mem_cons_of_mem _ hr), hother (hnone ref List.mem_cons_self)]

/-! ### What class-likes are built on -/

theorem isStale_unlinkReference (s : ApiSet) (r : Reference) :
    isStale s (unlinkReference s r) = false := by
  rw [isStale, resolved_unlinkReference]
  cases r.resolved with
  | none => rfl
  | some target => cases h : s.resolves target <;> simp [Option.filter, h]

/-- One step leaves no stale reference in what the class-like of its address is built on. -/
theorem basesAt?_unlinkElement {acc : ApiSet × Nat} {ref : ElementRef} {id : Nat}
    {kind : ElementKind} {key : String} {b : Bases}
    (h : (unlinkElement acc ref).1.basesAt? id kind key = some b) :
    (∀ r ∈ b.all, isStale acc.1 r = false) ∨ acc.1.basesAt? id kind key = some b ∧
      ¬ ((acc.1.item? ref).isSome ∧ ref.file = id ∧ ref.kind = kind ∧ ref.fqsen.text = key) := by
  rcases unlinkElement_cases acc ref with
    ⟨hnone, heq⟩ | ⟨f, found, hf, hitem, ⟨hstale, -, heq⟩ | heq⟩
  · rw [heq] at h
    exact .inr ⟨h, fun hc => by simp [hnone] at hc⟩
  · rw [heq] at h
    by_cases hc : ref.file = id ∧ ref.kind = kind ∧ ref.fqsen.text = key
    · obtain ⟨rfl, rfl, rfl⟩ := hc
      rw [ApiSet.basesAt?, hf, Option.bind_some] at h
      rw [File.bases_eq, h, Option.getD_some, List.countP_eq_zero] at hstale
      exact .inl fun r hr => by simpa using hstale r hr
    · exact .inr ⟨h, fun hall => hc hall.2⟩
  · rw [heq, ApiSet.basesAt?, ApiSet.file?_modifyFile] at h
    split at h
    · next hid =>
      subst hid
      rw [hf, Option.map_some, Option.bind_some, unlinkAt, File.basesAt?_modifyInfo] at h
      rcases File.basesAt?_setBases h with ⟨-, -, hall⟩ | ⟨hne, hold⟩
      · refine .inl fun r hr => ?_
        have hmem := hall r hr
        rw [Bases.all_map] at hmem
        obtain ⟨old, -, rfl⟩ := List.mem_map.mp hmem
        exact isStale_unlinkReference acc.1 old
      · refine .inr ⟨?_, fun hc => hne ⟨hc.2.2.1.symm, hc.2.2.2.symm⟩⟩
        rw [ApiSet.basesAt?, hf]
        exact hold
    · next hid => exact .inr ⟨h, fun hc => hid hc.2.1⟩

/-- The whole sweep leaves no stale reference in what the class-likes of its addresses are built
on. -/
theorem basesAt?_unlinkElements {refs : List ElementRef} {acc : ApiSet × Nat} {id : Nat}
    {kind : ElementKind} {key : String} {b : Bases}
    (h : (refs.foldl unlinkElement acc).1.basesAt? id kind key = some b) :
    (∀ r ∈ b.all, isStale acc.1 r = false) ∨ acc.1.basesAt? id kind key = some b ∧
      ∀ ref ∈ refs,
        ¬ ((acc.1.item? ref).isSome ∧ ref.file = id ∧ ref.kind = kind ∧ ref.fqsen.text = key) := by
  induction refs generalizing acc with
  | nil => exact .inr ⟨h, fun _ hmem => absurd hmem List.not_mem_nil⟩
  | cons ref rest ih =>
    have hstale (r : Reference) : isStale (unlinkElement acc ref).1 r = isStale acc.1 r := by
      simp only [isStale, resolves_unlinkElement]
    have hitem (r : ElementRef) := (retouch_unlinkElement acc ref).1.isSome_item? r
    rcases ih h with hclean | ⟨hmid, hrest⟩
    · exact .inl fun r hr => hstale r ▸ hclean r hr
    · rcases basesAt?_unlinkElement hmid with hclean | ⟨hold, hfirst⟩
      · exact .inl hclean
      · refine .inr ⟨hold, fun r hr => ?_⟩
        rcases List.mem_cons.mp hr with rfl | hr
        · exact hfirst
        · exact hitem r ▸ hrest r hr

/-! ### The tags of files -/

theorem tags_unlinkAt (s : ApiSet) (ref : ElementRef) (bases : Bases) (f : File) :
    (unlinkAt s ref bases f).tags = f.tags :=
  f.tags_setBases_modifyInfo ref.kind ref.fqsen _ _

theorem tags_unlinkElements {refs : List ElementRef} {acc : ApiSet × Nat} {id : Nat} {g : File}
    (h : (refs.foldl unlinkElement acc).1.file? id = some g) :
    ∃ f, acc.1.file? id = some f ∧ g.tags = f.tags := by
  induction refs generalizing acc with
  | nil => exact ⟨g, h, rfl⟩
  | cons ref rest ih =>
    obtain ⟨mid, hmid, htags⟩ := ih h
    rcases unlinkElement_cases acc ref with ⟨-, heq⟩ | ⟨f, item, hf, -, ⟨-, -, heq⟩ | heq⟩
    · exact ⟨mid, heq ▸ hmid, htags⟩
    · exact ⟨mid, heq ▸ hmid, htags⟩
    · rw [heq, ApiSet.file?_modifyFile] at hmid
      split at hmid
      · obtain ⟨old, hold, rfl⟩ := Option.map_eq_some_iff.mp hmid
        exact ⟨old, hold, htags.trans (tags_unlinkAt ..)⟩
      · exact ⟨mid, hmid, htags⟩

section UnlinkFiles

variable (s : ApiSet)

theorem retouch_unlinkFiles {β : Type} (view : Item → β) :
    s.Retouch view (unlinkFiles s).1 := by
  refine Retouch.mapFiles s fun f => ?_
  split
  · exact .refl f
  · exact File.Retouch.of_declarations rfl rfl rfl rfl rfl

theorem resolves_unlinkFiles (target : Target) :
    (unlinkFiles s).1.resolves target = s.resolves target :=
  ApiSet.Retouch.resolves_eq (s := s) (t := (unlinkFiles s).1) rfl
    (retouch_unlinkFiles s fun _ => ()) target

/-- The links of the files' own tags lead somewhere. -/
theorem resolves_of_unlinkFiles {id : Nat} {g : File} (h : (unlinkFiles s).1.file? id = some g)
    {name : String} {target : Target} (hmem : target ∈ g.tags.links name) :
    s.resolves target = true := by
  rw [unlinkFiles, ApiSet.file?, List.getElem?_map] at h
  obtain ⟨f, -, rfl⟩ := Option.map_eq_some_iff.mp h
  split at hmem
  · next hstale =>
    rw [← filter_links_of_staleTags hstale] at hmem
    exact (List.mem_filter.mp hmem).2
  · rw [links_unlinkTags] at hmem
    exact (List.mem_filter.mp hmem).2

end UnlinkFiles

/-! ### The whole step -/

/-- Where no address leads there are no links. -/
def UnlinkedAway (s : ApiSet) : Prop :=
  ∀ id p item, s.at? id p = some item → (∀ ref : ElementRef, ref.file = id → s.spotOf ref ≠ some p) →
    ∀ name, item.tags.links name = []

theorem unlinkedAway_of_fresh {s v : ApiSet} (hs : s.Fresh) (hv : s.Retouch (fun _ => ()) v) :
    UnlinkedAway v := by
  intro id p item hi haway name
  rw [hv.away fun ref hid hspot => haway ref hid (hv.spotOf_eq ref ▸ hspot)] at hi
  obtain ⟨f, hf, hat⟩ := Option.bind_eq_some_iff.mp hi
  exact ((hs.asRead hf).sound hat).unlinked.links_eq name

/-- If any address leads to an element, then its own is listed and does. -/
theorem self_mem_allElements {s : ApiSet} (hs : s.Keyed) {ref : ElementRef} {p : Spot}
    {item : Item} (hp : s.spotOf ref = some p) (hi : s.at? ref.file p = some item) :
    ⟨ref.file, item.kind, item.info.fqsen⟩ ∈ s.allElements ∧
      s.spotOf ⟨ref.file, item.kind, item.info.fqsen⟩ = some p := by
  obtain ⟨f, hf, hat⟩ := Option.bind_eq_some_iff.mp hi
  rw [ApiSet.spotOf, hf, Option.bind_some] at hp
  refine ⟨ApiSet.mem_allElements_iff.mpr ⟨f, hf, ?_⟩, ?_⟩
  · exact (hs ref.file f hf).mem_declared hat (File.lists_of_spotOf hp)
  · rw [ApiSet.spotOf, hf]
    exact (hs ref.file f hf).spotOf_self hp hat

section FilterSet

variable (settings : Settings) (v : ApiSet)

theorem retouch_pruned_settled :
    (shown settings v).Retouch Item.tags (pruned (settled settings v)) :=
  (retouch_settled settings v).files_congr (files_pruned _)

theorem retouch_unlinkRemoved (s : ApiSet) :
    s.Retouch marksAndTexts (unlinkRemoved s).1 ∧ (unlinkRemoved s).1.frame = s.frame := by
  obtain ⟨hretouch, hframe⟩ := retouch_unlinkElements s.allElements (unlinkFiles s)
  exact ⟨(retouch_unlinkFiles s marksAndTexts).trans hretouch, hframe⟩

theorem resolves_unlinkRemoved (s : ApiSet) (target : Target) :
    (unlinkRemoved s).1.resolves target = s.resolves target :=
  ApiSet.Retouch.resolves_eq (retouch_unlinkRemoved s).2 (retouch_unlinkRemoved s).1 target

theorem resolves_filterSet (target : Target) :
    (filterSet settings v).state.resolves target = (settled settings v).resolves target := by
  rw [state_filterSet, resolves_unlinkRemoved, resolves_pruned]

/-- Of the entries of an index, those are left that lead somewhere. -/
theorem lookupIn_filterSet (name key : String) :
    (filterSet settings v).state.lookupIn name key =
      (v.lookupIn name key).filter (filterSet settings v).state.resolves := by
  rw [funext (resolves_filterSet settings v), state_filterSet,
    ApiSet.lookupIn_congr (retouch_unlinkRemoved _).2, lookupIn_pruned,
    ApiSet.lookupIn_congr (frame_settled settings v)]

theorem spotOf_pruned_settled {ref : ElementRef} {p : Spot} (hp : v.spotOf ref = some p)
    (ht : ((pruned (settled settings v)).at? ref.file p).isSome) :
    (pruned (settled settings v)).spotOf ref = some p := by
  rw [(retouch_pruned_settled settings v).isSome_at?] at ht
  rw [(retouch_pruned_settled settings v).spotOf_eq]
  refine (reduces_shown settings v).spotOf_eq ?_ ht
  rw [(retouch_filterStart v (fun _ => ()) settings).spotOf_eq, hp]

/-- An address leads where it led, as long as something is there. -/
theorem spotOf_filterSet {ref : ElementRef} {p : Spot} (hp : v.spotOf ref = some p)
    (ht : ((filterSet settings v).state.at? ref.file p).isSome) :
    (filterSet settings v).state.spotOf ref = some p := by
  have hlast := (retouch_unlinkRemoved (pruned (settled settings v))).1
  rw [state_filterSet, hlast.isSome_at?] at ht
  rw [state_filterSet, hlast.spotOf_eq, spotOf_pruned_settled settings v hp ht]

theorem keyed_pruned_settled (hv : v.Keyed) : (pruned (settled settings v)).Keyed :=
  (retouch_pruned_settled settings v).keyed
    ((reduces_shown settings v).keyed ((retouch_filterStart v (fun _ => ()) settings).keyed hv))

theorem at?_unlinkFiles (s : ApiSet) (id : Nat) (p : Spot) :
    (unlinkFiles s).1.at? id p = s.at? id p := by
  simpa using (retouch_unlinkFiles s fun item => item).view_eq id p

/-- What was there before the last sweep, and where no address leads also after it. -/
theorem exists_of_unlinkRemoved {s : ApiSet} (hs : s.Keyed) {id : Nat} {p : Spot} {new : Item}
    (hnew : (unlinkRemoved s).1.at? id p = some new) :
    ∃ mid, s.at? id p = some mid ∧ mid.outline = new.outline ∧ marks mid = marks new ∧
      ((∀ name, new.tags.links name = (mid.tags.links name).filter s.resolves) ∨
        new = mid ∧ ∀ ref : ElementRef, ref.file = id → s.spotOf ref ≠ some p) := by
  obtain ⟨mid, hmid, houtline, hshown⟩ := (retouch_unlinkRemoved s).1.exists_at? hnew
  refine ⟨mid, hmid, houtline, congrArg Prod.fst hshown, ?_⟩
  obtain ⟨found, hfound, hleads, hother⟩ := links_unlinkElements s.allElements (unlinkFiles s)
    ((at?_unlinkFiles s id p).trans hmid)
  cases hnew.symm.trans hfound
  simp only [(retouch_unlinkFiles s fun _ => ()).spotOf_eq] at hleads hother
  rw [funext (resolves_unlinkFiles s)] at hleads
  by_cases haddressed : ∃ ref : ElementRef, ref.file = id ∧ s.spotOf ref = some p
  · obtain ⟨ref, rfl, hspot⟩ := haddressed
    obtain ⟨hmem, hself⟩ := self_mem_allElements hs hspot hmid
    exact .inl (hleads ⟨_, hmem, rfl, hself⟩)
  · have hnone (ref : ElementRef) (hid : ref.file = id) : s.spotOf ref ≠ some p :=
      fun hspot => haddressed ⟨ref, hid, hspot⟩
    exact .inr ⟨hother fun ref _ hc => hnone ref hc.1 hc.2, hnone⟩

/-- What is left of an element: its name and marks, and the links that lead somewhere. -/
theorem exists_of_filterSet (hv : v.Keyed) (haway : UnlinkedAway v) {id : Nat} {p : Spot}
    {new : Item} (hnew : (filterSet settings v).state.at? id p = some new) :
    ∃ old, v.at? id p = some old ∧ old.outline = new.outline ∧ marks old = marks new ∧
      ∀ name, new.tags.links name =
        (old.tags.links name).filter (filterSet settings v).state.resolves := by
  rw [state_filterSet] at hnew
  obtain ⟨mid, hmid, houtline, hmarks, hlinks⟩ :=
    exists_of_unlinkRemoved (keyed_pruned_settled settings v hv) hnew
  obtain ⟨old, hold, houtlineOld, htags⟩ := (retouch_pruned_settled settings v).exists_at? hmid
  have hstart := (reduces_shown settings v).at?_eq hold
  rw [at?_filterStart] at hstart
  refine ⟨old, hstart, houtlineOld.trans houtline, ?_, fun name => ?_⟩
  · rw [← hmarks, marks, marks, htags]
  · rw [htags]
    rcases hlinks with hlinks | ⟨rfl, hnone⟩
    · rw [hlinks, state_filterSet, funext (resolves_unlinkRemoved _)]
    · have hempty := haway id p old hstart (fun ref hid hspot => ?_) name
      · rw [← htags, hempty]
        rfl
      · subst hid
        exact hnone ref rfl (spotOf_pruned_settled settings v hspot (by rw [hmid]; rfl))

end FilterSet

end Compile

end ApiDoc
