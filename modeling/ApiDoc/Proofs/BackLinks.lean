import ApiDoc.Proofs.Course

/-!
# Links and back links

After linking, every link is an entry of the index of elements, and no element has a back link. The
back links are then made use by use: one use adds a link behind the name of back links where its
address leads, unless it is there, and leaves all other links alone. So in the end the back links of
an element are the indexed addresses that lead to something that uses it, each once
(`ApiSet.Mirrored`).
-/

namespace ApiDoc

/-- An address that the index of elements has under its full name, and what it leads to. -/
def ApiSet.Entry (s : ApiSet) (ref : ElementRef) (item : Item) : Prop :=
  s.lookup ref.fqsen.text = some (.element ref) ∧ s.item? ref = some item

/-- The back links of every element are the entries that lead to something with a use that leads to
the element, each once. -/
def ApiSet.Mirrored (s : ApiSet) : Prop :=
  ∀ id p item, s.at? id p = some item → item.usedBy.Nodup ∧
    ∀ target, target ∈ item.usedBy ↔
      ∃ user used found, target = .element user ∧ s.Entry user found ∧
        .element used ∈ found.uses ∧ used.file = id ∧ s.spotOf used = some p

namespace Compile

/-! ### What linking leaves -/

/-- Every link is an entry of the index of elements, and only some names have links. -/
def LinkedBy (s : ApiSet) (item : Item) : Prop :=
  ∀ name target, target ∈ item.tags.links name →
    name ∈ linkedTags ∧ ∃ key, s.lookup key = some target

/-- Elements without links, one of which is linked. -/
theorem linkedBy_linkElement {s acc : ApiSet} (hacc : ∀ id p item, acc.at? id p = some item →
    LinkedBy s item) {ref : ElementRef} {item : Item} (hitem : item.tags.Unlinked) (old : File)
    {id : Nat} {p : Spot} {new : Item}
    (h : (acc.modifyFile ref.file (linkElement s ref item old)).at? id p = some new) :
    LinkedBy s new := by
  have hkeeps : KeepsName fun info =>
      { info with tags := linkTags s (s.scopeOf ref) item.info.tags } := fun _ => rfl
  have hat := acc.at?_modifyFile ref (k := linkElement s ref item old)
    (fun f q => f.at?_setBases_modifyInfo ref.kind ref.fqsen _ hkeeps q) id p
  rw [hat] at h
  split at h
  · obtain ⟨before, -, rfl⟩ := Option.map_eq_some_iff.mp h
    exact fun name target hmem => mem_links_linkTags hitem hmem
  · exact hacc id p new h

theorem linkedBy_linked {s : ApiSet}
    (hs : ∀ id p item, s.at? id p = some item → item.tags.Unlinked) {id : Nat} {p : Spot}
    {item : Item} (h : (linked s).at? id p = some item) : LinkedBy s item := by
  have hunlinked {item : Item} (hi : item.tags.Unlinked) : LinkedBy s item := by
    intro name target hmem
    simp [hi.links_eq] at hmem
  have hfold (entries : List (ElementRef × Item)) (hentries : entries ⊆ s.present) (acc : ApiSet)
      (hacc : ∀ id p item, acc.at? id p = some item → LinkedBy s item) :
      ∀ id p item, (entries.foldl (linkStep s) acc).at? id p = some item → LinkedBy s item := by
    induction entries generalizing acc with
    | nil => exact hacc
    | cons entry rest ih =>
      refine ih (fun e he => hentries (List.mem_cons_of_mem _ he)) _ fun id p new hnew => ?_
      obtain ⟨ref, item⟩ := entry
      obtain ⟨-, hitem⟩ := ApiSet.mem_present_iff.mp (hentries List.mem_cons_self)
      rw [ApiSet.item?_eq] at hitem
      obtain ⟨q, -, hat⟩ := Option.bind_eq_some_iff.mp hitem
      rw [linkStep] at hnew
      split at hnew
      · exact linkedBy_linkElement hacc (hs ref.file q item hat) _ hnew
      · exact hacc id p new hnew
  have hstart : s.Retouch (fun item => item)
      { s with files := s.files.map fun f => { f with tags := linkTags s (.ofFile f) f.tags } } :=
    .mapFiles s fun f => File.Retouch.of_declarations rfl rfl rfl rfl rfl
  rw [linked_eq_foldl] at h
  refine hfold s.present (List.Subset.refl _) _ (fun id p item hi => ?_) id p item h
  obtain ⟨old, hold, -, rfl⟩ := hstart.exists_at? hi
  exact hunlinked (hs id p old hold)

/-! ### One use after the other -/

/-- An element with more back links than before, each once. -/
structure BackLinked (gained : Target → Prop) (old new : Item) : Prop where
  nodup : old.usedBy.Nodup → new.usedBy.Nodup
  mem_iff : ∀ target, target ∈ new.usedBy ↔ target ∈ old.usedBy ∨ gained target

theorem BackLinked.of_not_gained {gained : Target → Prop} {item : Item}
    (h : ∀ target, gained target → target ∈ item.usedBy) : BackLinked gained item item :=
  ⟨fun hnodup => hnodup, fun target => ⟨.inl, fun hor => hor.elim id (h target)⟩⟩

theorem BackLinked.trans {first later : Target → Prop} {old mid new : Item}
    (h : BackLinked first old mid) (hlater : BackLinked later mid new) :
    BackLinked (fun target => first target ∨ later target) old new where
  nodup hnodup := hlater.nodup (h.nodup hnodup)
  mem_iff target := by rw [hlater.mem_iff, h.mem_iff, or_assoc]

theorem BackLinked.congr {gained same : Target → Prop} {old new : Item}
    (h : BackLinked gained old new) (heq : ∀ target, gained target ↔ same target) :
    BackLinked same old new :=
  ⟨h.nodup, fun target => by rw [h.mem_iff, heq]⟩

/-- What the use of an element gives to the element at a spot. -/
def Gives (s : ApiSet) (id : Nat) (p : Spot) (u : Use) (target : Target) : Prop :=
  target = .element u.user ∧ u.used.file = id ∧ s.spotOf u.used = some p

theorem backLinked_push {gained : Target → Prop} {u : Use} {item : Item}
    (hnew : .element u.user ∉ item.usedBy)
    (hgained : ∀ target, gained target ↔ target = .element u.user) :
    BackLinked gained item (item.mapInfo fun i => { i with tags := i.tags.push (backTag u) }) := by
  have hlinks : (item.mapInfo fun i => { i with tags := i.tags.push (backTag u) }).usedBy =
      item.usedBy ++ [.element u.user] :=
    (links_push_backTag item.tags u usedByTag).trans (if_pos rfl)
  refine ⟨fun hnodup => ?_, fun target => ?_⟩
  · rw [hlinks]
    refine List.nodup_append.mpr ⟨hnodup, by simp, fun a ha b hb heq => hnew ?_⟩
    rw [← List.mem_singleton.mp hb, ← heq]
    exact ha
  · rw [hlinks, List.mem_append, List.mem_singleton, hgained]

/-- One use gives its link to the element where its address leads. -/
theorem backLinked_addBackLink (acc : ApiSet × Nat) (u : Use) {id : Nat} {p : Spot} {item : Item}
    (h : acc.1.at? id p = some item) :
    ∃ new, (addBackLink acc u).1.at? id p = some new ∧
      BackLinked (Gives acc.1 id p u) item new := by
  have hfound (hleads : u.used.file = id ∧ acc.1.spotOf u.used = some p) :
      acc.1.item? u.used = some item := by
    rw [ApiSet.item?_eq, hleads.2, Option.bind_some, hleads.1, h]
  rw [addBackLink]
  split
  · next hnone =>
    refine ⟨item, h, .of_not_gained fun target hgives => ?_⟩
    simp [hfound hgives.2] at hnone
  · next found hitem =>
    split
    · next hpoints =>
      refine ⟨item, h, .of_not_gained fun target hgives => ?_⟩
      cases (hfound hgives.2).symm.trans hitem
      rw [hgives.1]
      exact pointsBack_iff.mp hpoints
    · next hpoints =>
      have hkeeps : KeepsName fun i => { i with tags := i.tags.push (backTag u) } := fun _ => rfl
      have hat := acc.1.at?_modifyFile u.used
        (fun f q => f.at?_modifyInfo u.used.kind u.used.fqsen hkeeps q) id p
      rw [ApiSet.modifyInfo, hat, h]
      split
      · next hleads =>
        cases (hfound hleads).symm.trans hitem
        refine ⟨_, rfl, backLinked_push (fun hmem => hpoints (pointsBack_iff.mpr hmem)) ?_⟩
        exact fun target => ⟨And.left, fun heq => ⟨heq, hleads⟩⟩
      · next hleads =>
        exact ⟨item, rfl, .of_not_gained fun target hgives => absurd hgives.2 hleads⟩

/-- All uses give their links. -/
theorem backLinked_addBackLinks (uses : List Use) (acc : ApiSet × Nat) {id : Nat} {p : Spot}
    {item : Item} (h : acc.1.at? id p = some item) :
    ∃ new, (uses.foldl addBackLink acc).1.at? id p = some new ∧
      BackLinked (fun target => ∃ u ∈ uses, Gives acc.1 id p u target) item new := by
  induction uses generalizing acc item with
  | nil => exact ⟨item, h, .of_not_gained fun _ ⟨_, hmem, _⟩ => absurd hmem List.not_mem_nil⟩
  | cons u rest ih =>
    obtain ⟨mid, hmid, hfirst⟩ := backLinked_addBackLink acc u h
    obtain ⟨new, hnew, hrest⟩ := ih (addBackLink acc u) hmid
    refine ⟨new, hnew, (hfirst.trans hrest).congr fun target => ?_⟩
    have hspot := (retouch_addBackLink acc u).1.spotOf_eq
    simp only [Gives, hspot, List.mem_cons, exists_eq_or_imp]

/-- The uses are those of the elements to which entries of the index lead. -/
theorem exists_mem_usesIn_iff {s : ApiSet} {user used : ElementRef} :
    (∃ u ∈ usesIn s, u.user = user ∧ u.used = used) ↔
      ∃ key item, s.lookup key = some (.element user) ∧ s.item? user = some item ∧
        .element used ∈ item.uses := by
  simp only [usesIn, List.mem_flatMap, NameMap.mem_values_iff, ← ApiSet.lookup_eq]
  constructor
  · rintro ⟨u, ⟨target, ⟨key, hkey⟩, hu⟩, rfl, rfl⟩
    split at hu
    · next ref href =>
      split at hu
      · next item hitem =>
        cases target with
        | element found =>
          obtain rfl : found = ref := by simpa [Target.element?] using href
          obtain rfl := user_of_mem_usesOf hu
          exact ⟨key, item, hkey, hitem, mem_usesOf_iff.mp ⟨u, hu, rfl⟩⟩
        | file _ | spaceNode _ | packageNode _ => simp [Target.element?] at href
      · simp at hu
    · simp at hu
  · rintro ⟨key, item, hkey, hitem, hmem⟩
    obtain ⟨u, hu, rfl⟩ := mem_usesOf_iff.mpr hmem
    refine ⟨u, ⟨.element user, ⟨key, hkey⟩, ?_⟩, user_of_mem_usesOf hu, rfl⟩
    simpa [Target.element?, hitem] using hu

/-- Making the back links of a set without any, all of whose entries stand under their names. -/
theorem mirrored_backLink {s : ApiSet}
    (hnamed : ∀ key ref, s.lookup key = some (.element ref) → ref.fqsen.text = key)
    (hnone : ∀ id p item, s.at? id p = some item → item.usedBy = []) :
    (backLink s).state.Mirrored := by
  intro id p new hnew
  have hretouch : s.Retouch Item.uses (backLink s).state := (retouch_backLink s).coarsen Prod.fst
  obtain ⟨old, hold, -, -⟩ := hretouch.exists_at? hnew
  obtain ⟨found, hfound, hlinks⟩ := backLinked_addBackLinks (usesIn s) (s, 0) hold
  obtain rfl : new = found := Option.some.inj (hnew.symm.trans hfound)
  have hempty := hnone id p old hold
  refine ⟨hlinks.nodup (by simp [hempty]), fun target => ?_⟩
  rw [hlinks.mem_iff, hempty]
  simp only [List.not_mem_nil, false_or]
  constructor
  · rintro ⟨u, hu, rfl, hid, hspot⟩
    obtain ⟨key, item, hkey, hitem, hmem⟩ := exists_mem_usesIn_iff.mp ⟨u, hu, rfl, rfl⟩
    obtain ⟨user, huser, -, huses⟩ := hretouch.exists_new_item? hitem
    refine ⟨u.user, u.used, user, rfl, ⟨?_, huser⟩, huses ▸ hmem, hid, hretouch.spotOf_eq _ ▸ hspot⟩
    rw [ApiSet.lookup_congr (frame_backLink s), hnamed key u.user hkey, hkey]
  · rintro ⟨user, used, item, rfl, ⟨hlookup, hitem⟩, hmem, hid, hspot⟩
    obtain ⟨before, hbefore, -, huses⟩ := hretouch.exists_item? hitem
    rw [ApiSet.lookup_congr (frame_backLink s)] at hlookup
    obtain ⟨u, hu, rfl, rfl⟩ :=
      exists_mem_usesIn_iff.mpr ⟨_, before, hlookup, hbefore, huses ▸ hmem⟩
    exact ⟨u, hu, rfl, hid, hretouch.spotOf_eq u.used ▸ hspot⟩

/-! ### Entries of the index of elements -/

/-- The name of a listed element starts with the separator. -/
theorem rooted_of_mem_allElements {s : ApiSet} (hs : s.Fresh) {ref : ElementRef}
    (h : ref ∈ s.allElements) : ref.fqsen.Rooted := by
  obtain ⟨f, hf, hdeclared⟩ := ApiSet.mem_allElements_iff.mp h
  obtain ⟨p, item, hat, -, -, hname⟩ := File.exists_of_mem_declared hdeclared
  exact hname ▸ ((hs.asRead hf).sound hat).rooted

theorem text_ne_of_rooted {fqsen : Fqsen} (h : fqsen.Rooted) {mark : String} {c : Char}
    (hmark : mark.toList = [c]) (hc : c ≠ '\\') (rest : String) : fqsen.text ≠ mark ++ rest := by
  intro heq
  have hhead : fqsen.text.toList.head? = some '\\' := h
  rw [heq, String.toList_append, hmark] at hhead
  exact hc (by simpa using hhead)

/-- Entering nodes behind a mark leaves the entries of elements alone. -/
theorem lookup_enterNodes_element {mark name : String} {target : Nat → Target} {nodes : List Node}
    {s : ApiSet} (hname : name ≠ Index.elements) (htarget : ∀ id ref, target id ≠ .element ref)
    {key : String} {ref : ElementRef}
    (hkey : s.lookup key = some (.element ref) → ∀ rest, key ≠ mark ++ rest) :
    (enterNodes mark name target nodes s).lookup key = some (.element ref) ↔
      s.lookup key = some (.element ref) := by
  rcases lookup_enterNodes mark name target nodes hname s key with hsame | ⟨n, -, heq, hnode⟩
  · rw [hsame]
  · constructor
    · intro h
      rw [hnode] at h
      exact absurd (Option.some.inj h) (htarget n.id ref)
    · intro h
      exact absurd heq (hkey h _)

theorem lookup_withSpaces_element {s : ApiSet} {key : String} {ref : ElementRef}
    (hkey : s.lookup key = some (.element ref) → ∀ rest, key ≠ "~" ++ rest) :
    (withSpaces s).lookup key = some (.element ref) ↔ s.lookup key = some (.element ref) := by
  unfold withSpaces
  exact lookup_enterNodes_element (by decide) (fun _ _ => Target.noConfusion) hkey

theorem lookup_withPackages_element {s : ApiSet} {key : String} {ref : ElementRef}
    (hkey : s.lookup key = some (.element ref) → ∀ rest, key ≠ "@" ++ rest)
    (defaultName : String) :
    (withPackages defaultName s).lookup key = some (.element ref) ↔
      s.lookup key = some (.element ref) := by
  unfold withPackages
  have hplaced := (frame_placed (defaultPackage defaultName) s.numbered
    (elementPackages (defaultPackage defaultName) s) s).1
  have hlookup (t : ApiSet) (h : t.indexes = s.indexes) : t.lookup key = s.lookup key := by
    rw [ApiSet.lookup, ApiSet.lookupIn, h, ApiSet.lookup, ApiSet.lookupIn]
  rw [← hlookup _ hplaced] at hkey ⊢
  exact lookup_enterNodes_element (by decide) (fun _ _ => Target.noConfusion) hkey

/-- The steps before the back links keep the entries of elements. -/
theorem Prepared.lookup_iff {settings : Settings} {s u : ApiSet} (hs : s.Fresh)
    (hu : Prepared settings s u) {key : String} {ref : ElementRef} :
    u.lookup key = some (.element ref) ↔ (withIndexes s).lookup key = some (.element ref) := by
  have hkey {c : Char} {mark : String} (hmark : mark.toList = [c]) (hc : c ≠ '\\')
      (h : (withIndexes s).lookup key = some (.element ref)) (rest : String) :
      key ≠ mark ++ rest := by
    obtain ⟨found, hfound, -, rfl⟩ := exists_of_lookup_withIndexes h
    exact text_ne_of_rooted (rooted_of_mem_allElements hs hfound) hmark hc rest
  have hlinked : (linked (withIndexes s)).lookup key = (withIndexes s).lookup key :=
    ApiSet.lookup_congr (frame_linked _) key
  have hspaces : (withSpaces (linked (withIndexes s))).lookup key = some (.element ref) ↔
      (withIndexes s).lookup key = some (.element ref) := by
    rw [lookup_withSpaces_element, hlinked]
    rw [hlinked]
    exact hkey (c := '~') (by decide) (by decide)
  rw [ApiSet.lookup_congr hu.frame_eq, lookup_withPackages_element, hspaces]
  rw [hspaces]
  exact hkey (c := '@') (by decide) (by decide)

/-- Every entry is an address from the listing under its name. -/
theorem Prepared.listed {settings : Settings} {s u : ApiSet} (hs : s.Fresh)
    (hu : Prepared settings s u) {key : String} {ref : ElementRef}
    (h : u.lookup key = some (.element ref)) : ref ∈ s.allElements ∧ ref.fqsen.text = key := by
  obtain ⟨found, hfound, heq, hname⟩ := exists_of_lookup_withIndexes ((hu.lookup_iff hs).mp h)
  obtain rfl : ref = found := by simpa using heq
  exact ⟨hfound, hname⟩

theorem Prepared.linkedBy {settings : Settings} {s u : ApiSet} (hs : s.Fresh)
    (hu : Prepared settings s u) {id : Nat} {p : Spot} {item : Item} (h : u.at? id p = some item) :
    LinkedBy (withIndexes s) item := by
  have hfiles : (withIndexes s).Retouch (fun item => item) s := .of_files_eq (files_withIndexes s).symm
  obtain ⟨old, hold, -, htags⟩ := hu.retouch.exists_at? h
  have hlinked := linkedBy_linked (fun id p item hi => ?_) hold
  · intro name target hmem
    rw [← htags] at hmem
    exact hlinked name target hmem
  · obtain ⟨same, hsame, -, rfl⟩ := hfiles.exists_new hi
    obtain ⟨f, hf, hat⟩ := Option.bind_eq_some_iff.mp hsame
    exact ((hs.asRead hf).sound hat).unlinked

/-- Every use that was found is an entry of the index. -/
theorem Prepared.lookup_of_mem_uses {settings : Settings} {s u : ApiSet} (hs : s.Fresh)
    (hu : Prepared settings s u) {id : Nat} {p : Spot} {item : Item} (h : u.at? id p = some item)
    {used : ElementRef} (hmem : .element used ∈ item.uses) :
    u.lookup used.fqsen.text = some (.element used) := by
  obtain ⟨-, key, hkey⟩ := hu.linkedBy hs h usesTag _ hmem
  have hlookup := (hu.lookup_iff hs).mpr hkey
  rw [(hu.listed hs hlookup).2, hlookup]

/-! ### Before the last step -/

theorem Course.mirrored {settings : Settings} {s v : ApiSet} (hs : s.Fresh)
    (h : Course settings s v) : v.Mirrored := by
  obtain ⟨u, hu, hfiles, hframe⟩ := h.exists_prepared
  have hmirrored : (backLink u).state.Mirrored := by
    refine mirrored_backLink (fun key ref hkey => (hu.listed hs hkey).2) fun id p item hi => ?_
    refine List.eq_nil_iff_forall_not_mem.mpr fun target hmem => ?_
    have := (hu.linkedBy hs hi usedByTag target hmem).1
    exact absurd this (by decide)
  have hlookup := ApiSet.lookup_congr (hframe.trans (frame_backLink u).symm)
  have hsame : (backLink u).state.Retouch (fun item => item) v := .of_files_eq hfiles
  intro id p item hi
  obtain ⟨same, hat, -, rfl⟩ := hsame.exists_at? hi
  obtain ⟨hnodup, hmem⟩ := hmirrored id p same hat
  have hitem (ref : ElementRef) : v.item? ref = (backLink u).state.item? ref := by
    rw [ApiSet.item?, ApiSet.file?, hfiles]
    rfl
  refine ⟨hnodup, fun target => ?_⟩
  simp only [hmem, ApiSet.Entry, hlookup, hitem, hsame.spotOf_eq]

section Course

variable {settings : Settings} {s v : ApiSet} (hs : s.Fresh) (h : Course settings s v)
include hs h

theorem Course.listed {key : String} {ref : ElementRef} (hkey : v.lookup key = some (.element ref)) :
    ref ∈ s.allElements ∧ ref.fqsen.text = key := by
  obtain ⟨u, hu, -, hframe⟩ := h.exists_prepared
  rw [ApiSet.lookup_congr hframe] at hkey
  exact hu.listed hs hkey

theorem Course.lookup_of_mem_uses {id : Nat} {p : Spot} {item : Item} (hi : v.at? id p = some item)
    {used : ElementRef} (hmem : .element used ∈ item.uses) :
    v.lookup used.fqsen.text = some (.element used) := by
  obtain ⟨u, hu, hfiles, hframe⟩ := h.exists_prepared
  have hretouch : u.Retouch Item.uses v := ((retouch_backLink u).files_congr hfiles).coarsen Prod.fst
  obtain ⟨old, hold, -, huses⟩ := hretouch.exists_at? hi
  rw [ApiSet.lookup_congr hframe]
  exact hu.lookup_of_mem_uses hs hold (huses ▸ hmem)

end Course

end Compile

end ApiDoc
