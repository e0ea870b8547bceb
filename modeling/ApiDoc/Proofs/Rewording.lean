import ApiDoc.Proofs.Course
import ApiDoc.Proofs.Recasting

/-!
# Rewording

A `Wording` says how what is written in files is put: the texts of files and elements, and the hash,
the markers and the source of a file. Rewording changes no declaration, tag or base, so every
address, every listing and every name is resolved as before. It commutes with each step of the
compiler that does not read texts, and a step that edits texts can be seen through it where the edit
can.
-/

namespace ApiDoc

/-- How texts, hashes, markers and sources are put. -/
structure Wording where
  text : String → String := id
  hash : String → String := id
  markers : List Marker → List Marker := id
  source : Option String → Option String := id

/-- One wording after another. -/
def Wording.andThen (v w : Wording) : Wording where
  text a := w.text (v.text a)
  hash a := w.hash (v.hash a)
  markers a := w.markers (v.markers a)
  source a := w.source (v.source a)

/-- Documentation with its texts put differently. -/
def Wording.info (w : Wording) (i : Info) : Info :=
  { i with summary := w.text i.summary, description := w.text i.description }

/-- What looks the same in the first wording looks the same in the second one. -/
structure Wording.ShowsLess (v w : Wording) : Prop where
  text : ∀ a b, v.text a = v.text b → w.text a = w.text b
  hash : ∀ a b, v.hash a = v.hash b → w.hash a = w.hash b
  markers : ∀ a b, v.markers a = v.markers b → w.markers a = w.markers b
  source : ∀ a b, v.source a = v.source b → w.source a = w.source b

theorem Wording.ShowsLess.refl (w : Wording) : w.ShowsLess w :=
  ⟨fun _ _ h => h, fun _ _ h => h, fun _ _ h => h, fun _ _ h => h⟩

/-- Two elements have texts that look the same. -/
def Wording.Shows (w : Wording) (i j : Info) : Prop :=
  w.text i.summary = w.text j.summary ∧ w.text i.description = w.text j.description

theorem Wording.info_congr {v w : Wording} {i j : Info} (h : v.info i = v.info j)
    (ht : w.Shows i j) : w.info i = w.info j := by
  cases i
  cases j
  simp_all [Wording.info, Wording.Shows]

/-- A wording as a recast, which leaves tags and bases alone. -/
def Wording.recast (w : Wording) : Recast where
  info := w.info
  keepsName _ := rfl
  text := w.text
  hash := w.hash
  markers := w.markers
  source := w.source

/-! ### Maps -/

namespace NameMap

variable {α β : Type} {a : α → β}

theorem map_map {γ : Type} (a : α → β) (b : β → γ) (m : NameMap α) :
    (m.map a).map b = m.map fun x => b (a x) := by
  refine ext_get? fun key => ?_
  simp [Function.comp_def]

theorem map_id (m : NameMap α) : (m.map fun x => x) = m := by
  refine ext_get? fun key => ?_
  simp

theorem modify_id (m : NameMap α) (key : String) : m.modify key id = m := by
  refine ext_get? fun other => ?_
  rw [get?_modify]
  split <;> simp

/-- Maps that look the same look the same to whoever sees no more of values that look the same. -/
theorem map_congr_of_map {γ : Type} {b : α → γ} {m n : NameMap α} (h : m.map a = n.map a)
    (hb : ∀ key x y, m.get? key = some x → n.get? key = some y → a x = a y → b x = b y) :
    m.map b = n.map b := by
  refine ext_get? fun key => ?_
  have hkey := congrArg (·.get? key) h
  simp only [get?_map] at hkey ⊢
  cases hm : m.get? key with
  | none => cases hn : n.get? key <;> simp [hm, hn] at hkey ⊢
  | some x =>
    cases hn : n.get? key with
    | none => simp [hm, hn] at hkey
    | some y =>
      simp only [hm, hn, Option.map_some, Option.some.injEq] at hkey ⊢
      exact hb key x y hm hn hkey

end NameMap

/-! ### Members -/

namespace Members

def reword (w : Wording) (m : Members) : Members where
  methods := m.methods.map (·.mapInfo w.info)
  properties := m.properties.map (·.mapInfo w.info)
  constants := m.constants.map (·.mapInfo w.info)

/-- Members that are the same but for texts that look the same. -/
theorem reword_congr {v w : Wording} {m n : Members} (h : m.reword v = n.reword v)
    (hitems : ∀ kind name i j, m.item? kind name = some i → n.item? kind name = some j →
      w.Shows i.info j.info) : m.reword w = n.reword w := by
  have hmap {β : Type} {x y : Element β} (heq : x.mapInfo v.info = y.mapInfo v.info)
      (ht : w.Shows x.info y.info) : x.mapInfo w.info = y.mapInfo w.info := by
    obtain ⟨hinfo, hbody⟩ := Element.mk.inj heq
    rw [Element.mapInfo, Element.mapInfo, Wording.info_congr hinfo ht, hbody]
  simp only [reword, Members.mk.injEq] at h ⊢
  refine ⟨NameMap.map_congr_of_map h.1 fun key x y hx hy heq => hmap heq ?_,
    NameMap.map_congr_of_map h.2.1 fun key x y hx hy heq => hmap heq ?_,
    NameMap.map_congr_of_map h.2.2 fun key x y hx hy heq => hmap heq ?_⟩
  · exact hitems .method key _ _ (by rw [item?, hx]; rfl) (by rw [item?, hy]; rfl)
  · exact hitems .property key _ _ (by rw [item?, hx]; rfl) (by rw [item?, hy]; rfl)
  · exact hitems .constant key _ _ (by rw [item?, hx]; rfl) (by rw [item?, hy]; rfl)

end Members

/-! ### Files -/

theorem Bases.map_id (b : Bases) : b.map id = b := by
  obtain ⟨parent, interfaces, usedTraits⟩ := b
  simp [Bases.map]

/-- A class-like with its texts put differently, and its body changed. -/
def Element.reword {α : Type} (w : Wording) (b : α → α) (e : Element α) : Element α :=
  ⟨w.info e.info, b e.body⟩

namespace File

def reword (w : Wording) (f : File) : File :=
  { f with
    hash := w.hash f.hash
    summary := w.text f.summary
    description := w.text f.description
    classes := f.classes.map (·.reword w fun b => { b with members := b.members.reword w })
    interfaces := f.interfaces.map (·.reword w fun b => { b with members := b.members.reword w })
    traits := f.traits.map (·.reword w fun b => { b with members := b.members.reword w })
    functions := f.functions.map (·.mapInfo w.info)
    constants := f.constants.map (·.mapInfo w.info)
    markers := w.markers f.markers
    source := w.source f.source }

variable (w : Wording) (f : File)

theorem reword_eq_recast : f.reword w = f.recast w.recast := by
  have hnone (b : Option Reference) : b.map w.recast.base = b := Option.map_id_apply
  have hbases (l : List Reference) : l.map w.recast.base = l := List.map_id l
  simp only [reword, recast, hnone, hbases]
  rfl

/-- What stands at the spots of a reworded file. -/
theorem at?_reword (p : Spot) : (f.reword w).at? p = (f.at? p).map (Item.mapInfo w.info) := by
  rw [reword_eq_recast]
  exact at?_recast _ f p

theorem spotOf_reword (kind : ElementKind) (fqsen : Fqsen) :
    (f.reword w).spotOf kind fqsen = f.spotOf kind fqsen := by
  rw [reword_eq_recast, spotOf_recast]

theorem item?_reword (kind : ElementKind) (fqsen : Fqsen) :
    (f.reword w).item? kind fqsen = (f.item? kind fqsen).map (Item.mapInfo w.info) := by
  rw [reword_eq_recast]
  exact item?_recast _ f kind fqsen

theorem declared_reword : (f.reword w).declared = f.declared := by
  rw [reword_eq_recast, declared_recast]

theorem bases_reword (kind : ElementKind) (fqsen : Fqsen) :
    (f.reword w).bases kind fqsen = f.bases kind fqsen := by
  rw [reword_eq_recast, bases_recast]
  exact Bases.map_id _

variable {w}

/-- A change of documentation seen through a rewording. -/
theorem reword_modifyInfo {g h : Info → Info} (hg : ∀ i, w.info (g i) = h (w.info i))
    (kind : ElementKind) (fqsen : Fqsen) :
    (f.modifyInfo kind fqsen g).reword w = (f.reword w).modifyInfo kind fqsen h := by
  rw [reword_eq_recast, reword_eq_recast]
  exact f.recast_modifyInfo hg kind fqsen

variable (w)

theorem reword_setBases (kind : ElementKind) (fqsen : Fqsen) (b : Bases) :
    (f.setBases kind fqsen b).reword w = (f.reword w).setBases kind fqsen b := by
  rw [reword_eq_recast, reword_eq_recast, recast_setBases]
  exact congrArg _ (Bases.map_id b)

theorem reword_erase (kind : ElementKind) (fqsen : Fqsen) :
    (f.erase kind fqsen).reword w = (f.reword w).erase kind fqsen := by
  rw [reword_eq_recast, reword_eq_recast, recast_erase]

/-- A change of documentation that does not show through a rewording. -/
theorem reword_modifyInfo_same {w : Wording} {g : Info → Info} (hg : ∀ i, w.info (g i) = w.info i)
    (kind : ElementKind) (fqsen : Fqsen) : (f.modifyInfo kind fqsen g).reword w = f.reword w := by
  have hmembers (f : File) (owner : Fqsen) : f.modifyMembers owner id = f := by
    unfold modifyMembers
    split
    · exact congrArg (fun m => { f with classes := m }) (f.classes.modify_id _)
    · split
      · exact congrArg (fun m => { f with interfaces := m }) (f.interfaces.modify_id _)
      · exact congrArg (fun m => { f with traits := m }) (f.traits.modify_id _)
  have hone (m : Members) (name : String) : m.modifyInfo kind name id = m := by
    cases kind with
    | method => exact congrArg (fun x => { m with methods := x }) (m.methods.modify_id _)
    | property => exact congrArg (fun x => { m with properties := x }) (m.properties.modify_id _)
    | constant => exact congrArg (fun x => { m with constants := x }) (m.constants.modify_id _)
    | «class» | interface | trait | function => rfl
  have hsame (f : File) : f.modifyInfo kind fqsen id = f := by
    unfold modifyInfo
    split
    · cases fqsen.owner? with
      | none => rfl
      | some owner => exact (congrArg (f.modifyMembers owner) (funext (hone · _))).trans (hmembers f owner)
    · cases kind with
      | «class» => exact congrArg (fun m => { f with classes := m }) (f.classes.modify_id _)
      | interface => exact congrArg (fun m => { f with interfaces := m }) (f.interfaces.modify_id _)
      | trait => exact congrArg (fun m => { f with traits := m }) (f.traits.modify_id _)
      | function => exact congrArg (fun m => { f with functions := m }) (f.functions.modify_id _)
      | constant => exact congrArg (fun m => { f with constants := m }) (f.constants.modify_id _)
      | method | property => rfl
  rw [f.reword_modifyInfo (h := id) hg kind fqsen, hsame]

/-- Files that are the same but for what looks the same. -/
theorem reword_congr {v w : Wording} {f g : File} (h : f.reword v = g.reword v)
    (hhash : w.hash f.hash = w.hash g.hash) (hsummary : w.text f.summary = w.text g.summary)
    (hdescription : w.text f.description = w.text g.description)
    (hmarkers : w.markers f.markers = w.markers g.markers)
    (hsource : w.source f.source = w.source g.source)
    (hspots : ∀ p i j, f.at? p = some i → g.at? p = some j → w.Shows i.info j.info) :
    f.reword w = g.reword w := by
  have hmembers (kind : ElementKind) {key : String} {m n : Members}
      (hm : f.membersIn? kind key = some m) (hn : g.membersIn? kind key = some n)
      (heq : m.reword v = n.reword v) : m.reword w = n.reword w := by
    refine Members.reword_congr heq fun k name i j hi hj => ?_
    exact hspots (.member kind key k name) i j (by rw [at?, hm]; exact hi)
      (by rw [at?, hn]; exact hj)
  have htop (kind : ElementKind) {key : String} {i j : Info}
      (hi : (f.topItem? kind key).map Item.info = some i)
      (hj : (g.topItem? kind key).map Item.info = some j) (heq : v.info i = v.info j) :
      w.info i = w.info j := by
    obtain ⟨item, hitem, rfl⟩ := Option.map_eq_some_iff.mp hi
    obtain ⟨other, hother, rfl⟩ := Option.map_eq_some_iff.mp hj
    exact Wording.info_congr heq (hspots (.top kind key) item other hitem hother)
  simp only [reword, File.mk.injEq] at h ⊢
  obtain ⟨hpath, -, -, -, htags, hpackage, haliases, hincludes, hc, hi, ht, hf, hk, -, hproblems,
    -⟩ := h
  refine ⟨hpath, hhash, hsummary, hdescription, htags, hpackage, haliases, hincludes, ?_, ?_, ?_,
    ?_, ?_, hmarkers, hproblems, hsource⟩
  · refine NameMap.map_congr_of_map hc fun key x y hx hy heq => ?_
    obtain ⟨hinfo, hbody⟩ := Element.mk.inj heq
    obtain ⟨hparent, hinterfaces, htraits, habstract, hfinal, hm⟩ := ClassBody.mk.inj hbody
    rw [Element.reword, Element.reword, hparent, hinterfaces, htraits, habstract, hfinal,
      hmembers .class (by rw [membersIn?, hx]; rfl) (by rw [membersIn?, hy]; rfl) hm,
      htop .class (by rw [topItem?, hx]; rfl) (by rw [topItem?, hy]; rfl) hinfo]
  · refine NameMap.map_congr_of_map hi fun key x y hx hy heq => ?_
    obtain ⟨hinfo, hbody⟩ := Element.mk.inj heq
    obtain ⟨hparents, hm⟩ := InterfaceBody.mk.inj hbody
    rw [Element.reword, Element.reword, hparents,
      hmembers .interface (by rw [membersIn?, hx]; rfl) (by rw [membersIn?, hy]; rfl) hm,
      htop .interface (by rw [topItem?, hx]; rfl) (by rw [topItem?, hy]; rfl) hinfo]
  · refine NameMap.map_congr_of_map ht fun key x y hx hy heq => ?_
    obtain ⟨hinfo, hbody⟩ := Element.mk.inj heq
    obtain ⟨htraits, hm⟩ := TraitBody.mk.inj hbody
    rw [Element.reword, Element.reword, htraits,
      hmembers .trait (by rw [membersIn?, hx]; rfl) (by rw [membersIn?, hy]; rfl) hm,
      htop .trait (by rw [topItem?, hx]; rfl) (by rw [topItem?, hy]; rfl) hinfo]
  · refine NameMap.map_congr_of_map hf fun key x y hx hy heq => ?_
    obtain ⟨hinfo, hbody⟩ := Element.mk.inj heq
    rw [Element.mapInfo, Element.mapInfo, hbody,
      htop .function (by rw [topItem?, hx]; rfl) (by rw [topItem?, hy]; rfl) hinfo]
  · refine NameMap.map_congr_of_map hk fun key x y hx hy heq => ?_
    obtain ⟨hinfo, hbody⟩ := Element.mk.inj heq
    rw [Element.mapInfo, Element.mapInfo, hbody,
      htop .constant (by rw [topItem?, hx]; rfl) (by rw [topItem?, hy]; rfl) hinfo]

theorem reword_reword (f : File) (v w : Wording) : (f.reword v).reword w = f.reword (v.andThen w) := by
  have hmembers (m : Members) : (m.reword v).reword w = m.reword (v.andThen w) := by
    simp only [Members.reword, NameMap.map_map]
    rfl
  simp only [reword, NameMap.map_map]
  simp only [Element.reword, hmembers]
  rfl

/-- The wording that leaves everything as it is. -/
theorem reword_default (f : File) : f.reword {} = f := by
  have hmembers (m : Members) : m.reword {} = m := by
    obtain ⟨methods, properties, constants⟩ := m
    exact congr (congr (congrArg Members.mk methods.map_id) properties.map_id) constants.map_id
  simp only [reword, Element.reword, hmembers]
  obtain ⟨path, hash, summary, description, tags, package, aliases, includes, classes, interfaces,
    traits, functions, constants, markers, problems, source⟩ := f
  simp only [File.mk.injEq, true_and]
  exact ⟨rfl, rfl, rfl, classes.map_id, interfaces.map_id, traits.map_id, functions.map_id,
    constants.map_id, rfl, rfl⟩

/-- What looks the same in one wording looks the same in one that shows less. -/
theorem reword_of_showsLess {v w : Wording} (hvw : v.ShowsLess w) {f g : File}
    (h : f.reword v = g.reword v) : f.reword w = g.reword w := by
  refine reword_congr h (hvw.hash _ _ (congrArg File.hash h)) (hvw.text _ _ (congrArg File.summary h))
    (hvw.text _ _ (congrArg File.description h)) (hvw.markers _ _ (congrArg File.markers h))
    (hvw.source _ _ (congrArg File.source h)) fun p i j hi hj => ?_
  have hat := congrArg (·.at? p) h
  simp only [at?_reword, hi, hj, Option.map_some, Option.some.injEq] at hat
  have hinfo : v.info i.info = v.info j.info := congrArg Item.info hat
  exact ⟨hvw.text _ _ (congrArg Info.summary hinfo), hvw.text _ _ (congrArg Info.description hinfo)⟩

end File

/-! ### Sets -/

namespace ApiSet

def reword (w : Wording) (s : ApiSet) : ApiSet := { s with files := s.files.map (File.reword w) }

variable (w : Wording) (s : ApiSet)

theorem topLevelEntries_reword : (s.reword w).topLevelEntries = s.topLevelEntries := rfl

theorem files_reword : (s.reword w).files = s.files.map (File.reword w) := rfl

theorem packages_reword : (s.reword w).packages = s.packages := rfl

theorem reword_namespaces (t : Taxonomy) :
    ({ s with namespaces := t } : ApiSet).reword w = { s.reword w with namespaces := t } := rfl

theorem reword_packages (t : Taxonomy) :
    ({ s with packages := t } : ApiSet).reword w = { s.reword w with packages := t } := rfl

theorem reword_reword (v w : Wording) : (s.reword v).reword w = s.reword (v.andThen w) := by
  have hfiles : (s.files.map (File.reword v)).map (File.reword w) =
      s.files.map (File.reword (v.andThen w)) := by
    rw [List.map_map]
    exact List.map_congr_left fun f _ => f.reword_reword v w
  exact congrArg (fun files => { s with files := files }) hfiles

theorem file?_reword (id : Nat) : (s.reword w).file? id = (s.file? id).map (File.reword w) :=
  List.getElem?_map ..

theorem item?_reword (ref : ElementRef) :
    (s.reword w).item? ref = (s.item? ref).map (Item.mapInfo w.info) := by
  rw [item?, item?, file?_reword]
  cases s.file? ref.file with
  | none => rfl
  | some f => exact f.item?_reword w ref.kind ref.fqsen

theorem resolves_reword (t : Target) : (s.reword w).resolves t = s.resolves t := by
  cases t with
  | file id => rw [resolves, resolves, file?_reword, Option.isSome_map]
  | element ref => rw [resolves, resolves, item?_reword, Option.isSome_map]
  | spaceNode id | packageNode id => rfl

theorem destination?_reword (t : Target) : (s.reword w).destination? t = s.destination? t := by
  cases t with
  | file id =>
    rw [destination?, destination?, file?_reword, Option.map_map]
    rfl
  | element ref =>
    rw [destination?, destination?, item?_reword, Option.map_map]
    rfl
  | spaceNode id | packageNode id => rfl

theorem scopeOf_reword (ref : ElementRef) : (s.reword w).scopeOf ref = s.scopeOf ref := by
  rw [scopeOf, scopeOf, file?_reword]
  cases s.file? ref.file <;> rfl

theorem fileLabel_reword (id : Nat) : (s.reword w).fileLabel id = s.fileLabel id := by
  rw [fileLabel, fileLabel, file?_reword]
  cases s.file? id <;> rfl

theorem numbered_reword :
    (s.reword w).numbered = s.numbered.map fun e => (e.1, e.2.reword w) := by
  simp only [numbered, reword, List.zipIdx_map, List.map_map]
  rfl

theorem allElements_reword : (s.reword w).allElements = s.allElements := by
  rw [allElements, allElements, numbered_reword, List.flatMap_map]
  simp only [File.declared_reword]

theorem present_reword :
    (s.reword w).present = s.present.map fun e => (e.1, e.2.mapInfo w.info) := by
  rw [present, present, allElements_reword, List.map_filterMap]
  simp only [item?_reword, Option.map_map]
  rfl

variable {w}

theorem reword_modifyFile {g h : File → File} (hg : ∀ f, (g f).reword w = h (f.reword w))
    (id : Nat) : (s.modifyFile id g).reword w = (s.reword w).modifyFile id h := by
  simp only [reword, modifyFile]
  congr 1
  refine List.ext_getElem? fun i => ?_
  simp only [List.getElem?_map, List.getElem?_modify]
  cases s.files[i]? with
  | none => rfl
  | some f =>
    simp only [Option.map_eq_map, Option.map_some]
    split <;> simp [hg]

/-- A change of a file that does not show through a rewording. -/
theorem reword_modifyFile_same {g : File → File} (hg : ∀ f, (g f).reword w = f.reword w)
    (id : Nat) : (s.modifyFile id g).reword w = s.reword w := by
  have hsame := s.reword_modifyFile (h := fun f => f) hg id
  rw [hsame, modifyFile]
  exact congrArg (fun files => { s.reword w with files := files }) (List.modify_id ..)

theorem reword_modifyInfo {g h : Info → Info} (hg : ∀ i, w.info (g i) = h (w.info i))
    (ref : ElementRef) : (s.modifyInfo ref g).reword w = (s.reword w).modifyInfo ref h :=
  s.reword_modifyFile (fun f => f.reword_modifyInfo hg ref.kind ref.fqsen) ref.file

/-- Changes one after the other, seen through a rewording. -/
theorem foldl_reword {α : Type} {step seen : ApiSet → α → ApiSet}
    (h : ∀ s a, seen (s.reword w) a = (step s a).reword w) (items : List α) {s t : ApiSet}
    (ht : t = s.reword w) : items.foldl seen t = (items.foldl step s).reword w := by
  subst ht
  exact List.foldl_hom (reword w) h

/-- Changes that are counted, seen through a rewording. -/
theorem foldl_reword_counted {α : Type} {step : ApiSet × Nat → α → ApiSet × Nat}
    (h : ∀ acc a, step (acc.1.reword w, acc.2) a = ((step acc a).1.reword w, (step acc a).2))
    (items : List α) (s : ApiSet) (n : Nat) :
    items.foldl step (s.reword w, n) =
      ((items.foldl step (s, n)).1.reword w, (items.foldl step (s, n)).2) := by
  have hfold (acc : ApiSet × Nat) : items.foldl step (acc.1.reword w, acc.2) =
      ((items.foldl step acc).1.reword w, (items.foldl step acc).2) :=
    List.foldl_hom (fun acc : ApiSet × Nat => (acc.1.reword w, acc.2)) h
  exact hfold (s, n)

end ApiSet

/-! ### Indexes, references and trees -/

namespace Compile

variable (w : Wording) (s : ApiSet)

theorem withIndexes_reword : withIndexes (s.reword w) = (withIndexes s).reword w := by
  rw [withIndexes, withIndexes, ApiSet.allElements_reword]
  rfl

theorem buildIndexes_reword (strict : Bool) :
    buildIndexes strict (s.reword w) = (buildIndexes strict s).map (ApiSet.reword w) := by
  have hreports : replacement (s.reword w) = replacement s := by
    funext pair
    simp only [replacement, ApiSet.fileLabel_reword]
  unfold buildIndexes
  rw [ApiSet.allElements_reword, hreports, withIndexes_reword]
  dsimp only
  split
  · simp only [ApiSet.fileLabel_reword]
    rfl
  · rfl

theorem unresolved_reword : unresolved (s.reword w) = unresolved s := by
  have hbases (e : ElementRef × Item) :
      (((s.reword w).file? e.1.file).getD default).bases e.1.kind e.1.fqsen =
        ((s.file? e.1.file).getD default).bases e.1.kind e.1.fqsen := by
    rw [ApiSet.file?_reword]
    cases s.file? e.1.file with
    | none => rfl
    | some f => exact f.bases_reword w e.1.kind e.1.fqsen
  simp only [unresolved, ApiSet.present_reword, List.map_map, Function.comp_def, hbases,
    ApiSet.scopeOf_reword]
  congr 2
  rw [ApiSet.reword, List.map_map]
  rfl

theorem linkReference_reword : linkReference (s.reword w) = linkReference s := rfl

theorem linkTags_reword : linkTags (s.reword w) = linkTags s := rfl

theorem linked_reword : linked (s.reword w) = (linked s).reword w := by
  have hstart : (s.reword w).files.map
        (fun f => { f with tags := linkTags (s.reword w) (.ofFile f) f.tags }) =
      (s.files.map fun f => { f with tags := linkTags s (.ofFile f) f.tags }).map
        (File.reword w) := by
    rw [ApiSet.reword, List.map_map, List.map_map]
    rfl
  unfold linked
  rw [ApiSet.present_reword, List.foldl_map]
  refine ApiSet.foldl_reword (fun acc ⟨ref, item⟩ => ?_) s.present
    (congrArg (fun files => { s with files := files }) hstart)
  dsimp only
  rw [ApiSet.file?_reword]
  cases s.file? ref.file with
  | none => rfl
  | some old =>
    refine (acc.reword_modifyFile (fun f => ?_) ref.file).symm
    simp only [linkElement, ApiSet.scopeOf_reword, File.bases_reword, linkReference_reword,
      linkTags_reword, ← File.reword_setBases]
    refine File.reword_modifyInfo _ (fun i => ?_) ref.kind ref.fqsen
    rfl

theorem link_reword : link (s.reword w) = (link s).map (ApiSet.reword w) := by
  rw [link, link, unresolved_reword, linked_reword]
  rfl

theorem enterNodes_reword (mark name : String) (target : Nat → Target) (nodes : List Node) :
    enterNodes mark name target nodes (s.reword w) =
      (enterNodes mark name target nodes s).reword w :=
  ApiSet.foldl_reword (fun _ _ => rfl) nodes rfl

theorem withSpaces_reword : withSpaces (s.reword w) = (withSpaces s).reword w := by
  unfold withSpaces
  rw [ApiSet.topLevelEntries_reword]
  dsimp only
  rw [← ApiSet.reword_namespaces, enterNodes_reword]
  rfl

theorem packageOfFile_reword (default : String) (f : File) :
    packageOfFile default (f.reword w) = packageOfFile default f := rfl

theorem withPackages_reword (defaultName : String) :
    withPackages defaultName (s.reword w) = (withPackages defaultName s).reword w := by
  have hpackages (default : String) :
      elementPackages default (s.reword w) = elementPackages default s := by
    simp only [elementPackages]
    refine congrArg (fun g => s.topLevelEntries.filterMap g) (funext fun ref => ?_)
    rw [ApiSet.item?_reword, ApiSet.file?_reword]
    cases s.item? ref <;> cases s.file? ref.file <;> rfl
  have hfile (default : String) (acc : ApiSet) (e : Nat × File) :
      placeFile default (acc.reword w) (e.1, e.2.reword w) =
        (placeFile default acc e).reword w := by
    unfold placeFile
    dsimp only
    rw [packageOfFile_reword, ApiSet.packages_reword, ← ApiSet.reword_packages]
    refine (ApiSet.reword_modifyFile _ (fun f => ?_) e.1).symm
    rfl
  have helement (acc : ApiSet) (e : ElementRef × String) :
      placeElement (acc.reword w) e = (placeElement acc e).reword w := by
    unfold placeElement
    dsimp only
    rw [ApiSet.packages_reword, ← ApiSet.reword_packages]
    refine (ApiSet.reword_modifyInfo _ (fun i => ?_) e.1).symm
    rfl
  unfold withPackages
  dsimp only
  rw [hpackages, ApiSet.numbered_reword, List.foldl_map,
    ApiSet.foldl_reword helement _ (ApiSet.foldl_reword (hfile _) s.numbered rfl)]
  exact enterNodes_reword w _ _ _ _ _

/-! ### Back links, tables and markers -/

theorem usesIn_reword : usesIn (s.reword w) = usesIn s := by
  unfold usesIn
  refine congrArg (fun g => (s.index Index.elements).values.flatMap g) (funext fun t => ?_)
  cases t.element? with
  | none => rfl
  | some ref =>
    dsimp only
    rw [ApiSet.item?_reword]
    cases s.item? ref <;> rfl

theorem addBackLink_reword (acc : ApiSet × Nat) (u : Use) :
    addBackLink (acc.1.reword w, acc.2) u =
      ((addBackLink acc u).1.reword w, (addBackLink acc u).2) := by
  unfold addBackLink
  dsimp only
  rw [ApiSet.item?_reword]
  cases acc.1.item? u.used with
  | none => rfl
  | some item =>
    dsimp only [Option.map_some]
    have htags : (item.mapInfo w.info).info.tags = item.info.tags := rfl
    rw [htags]
    split
    · rfl
    · refine congrArg (·, acc.2 + 1) (ApiSet.reword_modifyInfo _ (fun i => ?_) u.used).symm
      rfl

theorem backLink_reword : backLink (s.reword w) = (backLink s).map (ApiSet.reword w) := by
  unfold backLink
  rw [usesIn_reword, ApiSet.foldl_reword_counted (addBackLink_reword w)]
  rfl

theorem apiContents_reword (router : Router) :
    apiContents router (s.reword w) = (apiContents router s).map (ApiSet.reword w) := by
  have htables : apiTables router (s.reword w) = apiTables router s := rfl
  rw [apiContents, apiContents, htables]
  cases apiTables router s with
  | error e => rfl
  | ok tables =>
    refine congrArg (fun s => (⟨s, [], none⟩ : Attempt ApiSet)) ?_
    exact ApiSet.foldl_reword (fun _ _ => rfl) tables rfl

theorem mapM_error_iff {ε α β γ : Type} {f : α → Except ε β} {g : α → Except ε γ}
    (h : ∀ a e, f a = .error e ↔ g a = .error e) (items : List α) (e : ε) :
    items.mapM f = .error e ↔ items.mapM g = .error e := by
  induction items with
  | nil => simp [pure, Except.pure]
  | cons a rest ih =>
    have ha := h a
    simp only [List.mapM_cons, bind, Except.bind, pure, Except.pure]
    cases hf : f a <;> cases hg : g a <;> simp_all
    cases hr : rest.mapM f <;> cases hs : rest.mapM g <;> simp_all

/-- Looking for markers fails at elements without files, whatever is written in files. -/
theorem markersIn_error_iff (keywords : List String) (e : BuildError) :
    markersIn keywords (s.reword w) = .error e ↔ markersIn keywords s = .error e := by
  have hbind {α β : Type} (x : Except BuildError α) (g : α → β) :
      (do let a ← x; return g a) = Except.error e ↔ x = .error e := by
    cases x <;> simp [bind, Except.bind, pure, Except.pure]
  unfold markersIn
  rw [hbind, hbind]
  refine mapM_error_iff (fun ref e => ?_) _ e
  rw [ApiSet.file?_reword, ApiSet.item?_reword, Option.isNone_map]
  split
  · rfl
  · cases s.item? ref <;> simp

theorem failure_mark_reword (keywords : List String) :
    (mark keywords (s.reword w)).failure = (mark keywords s).failure := by
  have herror := markersIn_error_iff w s keywords
  rw [mark, mark]
  split
  · rfl
  · cases h : markersIn keywords s with
    | error e => rw [(herror e).mpr h]; rfl
    | ok found =>
      cases h' : markersIn keywords (s.reword w) with
      | error e => simp [(herror e).mp h'] at h
      | ok others => rfl

theorem events_mark (keywords : List String) : (mark keywords s).events = [] := by
  rw [mark]
  split
  · rfl
  · split <;> rfl

/-- Markers do not show where markers are not seen. -/
theorem reword_mark {w : Wording} (hw : ∀ m n, w.markers m = w.markers n)
    (keywords : List String) : (mark keywords s).state.reword w = s.reword w := by
  have hadd (m : Marker) (f : File) : (addMarker m f).reword w = f.reword w := by
    rw [addMarker]
    split
    · rfl
    · rw [File.reword, File.reword, hw (f.markers ++ [m]) f.markers]
  have hfold (found : List (Nat × Marker)) :
      (found.foldl (fun s e => s.modifyFile e.1 (addMarker e.2)) s).reword w = s.reword w := by
    induction found generalizing s with
    | nil => rfl
    | cons e rest ih =>
      exact (ih _).trans (s.reword_modifyFile_same (hadd e.2) e.1)
  rw [mark]
  split
  · rfl
  · split
    · rfl
    · exact hfold _

/-! ### Texts -/

def NewTexts.reword (w : Wording) (t : NewTexts) : NewTexts :=
  ⟨w.text t.summary, w.text t.description⟩

section Texts

variable {σ : Type} {edit : TextEdit σ} {v w : Wording}

/-- Texts that look the same in one wording look the same in another one after the edit. -/
def EditsAlike (v w : Wording) (edit : TextEdit σ) : Prop :=
  ∀ scope a b state, v.text a = v.text b →
    w.text (edit scope a state).1 = w.text (edit scope b state).1 ∧
      (edit scope a state).2 = (edit scope b state).2

theorem putTexts_reword (w : Wording) (s : ApiSet) (texts : List (ElementRef × NewTexts)) :
    putTexts (s.reword w) (texts.map fun e => (e.1, e.2.reword w)) =
      (putTexts s texts).reword w := by
  unfold putTexts
  rw [List.foldl_map]
  refine ApiSet.foldl_reword (fun acc e => ?_) texts rfl
  refine (acc.reword_modifyInfo (fun i => ?_) e.1).symm
  rfl

section Edits

variable (h : EditsAlike v w edit)
include h

theorem editTexts_congr (scope : Scope) {summary summary' description description' : String}
    (hsummary : v.text summary = v.text summary')
    (hdescription : v.text description = v.text description') (state : σ) :
    let done := editTexts edit scope summary description state
    let done' := editTexts edit scope summary' description' state
    done.1.reword w = done'.1.reword w ∧ done.2 = done'.2 := by
  obtain ⟨hfirst, hnext⟩ := h scope summary summary' state hsummary
  obtain ⟨hsecond, hlast⟩ := h scope description description' (edit scope summary state).2 hdescription
  simp only [editTexts, NewTexts.reword, ← hnext]
  exact ⟨by rw [hfirst, hsecond], hlast⟩

theorem editFiles_congr (hvw : v.ShowsLess w) {files files' : List File}
    (hfiles : files.map (File.reword v) = files'.map (File.reword v)) (state : σ) :
    (editFiles edit state files).1.map (File.reword w) =
        (editFiles edit state files').1.map (File.reword w) ∧
      (editFiles edit state files).2 = (editFiles edit state files').2 := by
  induction files generalizing files' state with
  | nil =>
    obtain rfl : files' = [] := by simpa using hfiles.symm
    exact ⟨rfl, rfl⟩
  | cons f rest ih =>
    cases files' with
    | nil => simp at hfiles
    | cons g rest' =>
      obtain ⟨hfile, hrest⟩ := List.cons.inj hfiles
      have hscope : Scope.ofFile (f.reword v) = Scope.ofFile (g.reword v) := by rw [hfile]
      have hnew (f : File) (t : NewTexts) :
          File.reword w { f with summary := t.summary, description := t.description } =
            { f.reword w with
              summary := (t.reword w).summary, description := (t.reword w).description } := rfl
      obtain ⟨htexts, hnext⟩ := editTexts_congr h (.ofFile f) (congrArg File.summary hfile)
        (congrArg File.description hfile) state
      obtain ⟨hothers, hlast⟩ :=
        ih hrest (editTexts edit (.ofFile f) f.summary f.description state).2
      have hsame : Scope.ofFile g = Scope.ofFile f := hscope.symm
      simp only [editFiles, List.map_cons, hsame, ← hnext, hnew,
        File.reword_of_showsLess hvw hfile, htexts, hothers, true_and]
      exact hlast

theorem editElements_congr {s t : ApiSet} (hst : s.reword v = t.reword v)
    {entries entries' : List (ElementRef × Item)}
    (hentries : (entries.map fun e => (e.1, e.2.mapInfo v.info)) =
      entries'.map fun e => (e.1, e.2.mapInfo v.info)) (state : σ) :
    let done := editElements edit s state entries
    let done' := editElements edit t state entries'
    (done.1.map fun e => (e.1, e.2.reword w)) = (done'.1.map fun e => (e.1, e.2.reword w)) ∧
      done.2 = done'.2 := by
  have hscope (ref : ElementRef) : t.scopeOf ref = s.scopeOf ref := by
    rw [← s.scopeOf_reword v, hst, t.scopeOf_reword v]
  induction entries generalizing entries' state with
  | nil =>
    obtain rfl : entries' = [] := by simpa using hentries.symm
    exact ⟨rfl, rfl⟩
  | cons e rest ih =>
    cases entries' with
    | nil => simp at hentries
    | cons e' rest' =>
      obtain ⟨hentry, hrest⟩ := List.cons.inj hentries
      obtain ⟨href, hitem⟩ := Prod.mk.inj hentry
      obtain ⟨htexts, hnext⟩ := editTexts_congr h (s.scopeOf e.1)
        (congrArg (fun i : Item => i.info.summary) hitem)
        (congrArg (fun i : Item => i.info.description) hitem) state
      obtain ⟨hothers, hlast⟩ := ih hrest
        (editTexts edit (s.scopeOf e.1) e.2.info.summary e.2.info.description state).2
      simp only [editElements, List.map_cons, hscope, ← href, ← hnext, htexts, hothers,
        true_and]
      exact hlast

/-- Editing sets that look the same. -/
theorem editAllTextsWith_congr (hvw : v.ShowsLess w) {s t : ApiSet}
    (hst : s.reword v = t.reword v) (state : σ) :
    (editAllTextsWith edit s state).1.reword w = (editAllTextsWith edit t state).1.reword w ∧
      (editAllTextsWith edit s state).2 = (editAllTextsWith edit t state).2 := by
  have hfiles : s.files.map (File.reword v) = t.files.map (File.reword v) :=
    congrArg ApiSet.files hst
  have hpresent := congrArg ApiSet.present hst
  rw [ApiSet.present_reword, ApiSet.present_reword] at hpresent
  obtain ⟨hedited, hnext⟩ := editFiles_congr h hvw hfiles state
  obtain ⟨htexts, hlast⟩ := editElements_congr h hst hpresent (editFiles edit state s.files).2
  have hset : ApiSet.reword w { s with files := (editFiles edit state s.files).1 } =
      ApiSet.reword w { t with files := (editFiles edit state t.files).1 } := by
    have hrest (files : List File) : { s with files := files } = { t with files := files } :=
      congrArg (fun u : ApiSet => { u with files := files }) hst
    exact (hrest _).trans (congrArg (fun files => { t with files := files }) hedited)
  unfold editAllTextsWith
  dsimp only
  rw [← putTexts_reword, ← putTexts_reword, hset, htexts, ← hnext]
  exact ⟨rfl, hlast⟩

end Edits

end Texts

/-! ### Removing elements and stale addresses -/

theorem removeElement_reword (acc : ApiSet × Nat) (ref : ElementRef) :
    removeElement (acc.1.reword w, acc.2) ref =
      ((removeElement acc ref).1.reword w, (removeElement acc ref).2) := by
  unfold removeElement
  dsimp only
  rw [ApiSet.item?_reword, Option.isSome_map]
  split
  · refine congrArg (·, acc.2 + 1) (ApiSet.reword_modifyFile _ (fun f => ?_) ref.file).symm
    exact f.reword_erase w ref.kind ref.fqsen
  · rfl

theorem doomed_reword (filter : VisibilityFilter) (present : List (ElementRef × Item)) :
    doomed filter (present.map fun e => (e.1, e.2.mapInfo w.info)) = doomed filter present := by
  have howners : apiOwners (present.map fun e => (e.1, e.2.mapInfo w.info)) = apiOwners present := by
    rw [apiOwners, apiOwners, List.filterMap_map]
    rfl
  rw [doomed, doomed, howners, List.foldl_map]
  rfl

theorem removeHidden_reword (filter : VisibilityFilter) :
    removeHidden filter (s.reword w) =
      ((removeHidden filter s).1.reword w, (removeHidden filter s).2) := by
  unfold removeHidden removeAll
  rw [ApiSet.present_reword, doomed_reword]
  exact ApiSet.foldl_reword_counted (removeElement_reword w) _ s 0

theorem staleEntries_reword : staleEntries (s.reword w) = staleEntries s := by
  simp only [staleEntries, ApiSet.resolves_reword]
  rfl

theorem staleAttached_reword : staleAttached (s.reword w) = staleAttached s := by
  simp only [staleAttached, ApiSet.resolves_reword]
  rfl

theorem pruned_reword : pruned (s.reword w) = (pruned s).reword w := by
  simp only [pruned, ApiSet.resolves_reword]
  rfl

theorem isStale_reword : isStale (s.reword w) = isStale s := by
  funext r
  simp only [isStale, ApiSet.resolves_reword]

theorem unlinkReference_reword : unlinkReference (s.reword w) = unlinkReference s := by
  funext r
  simp only [unlinkReference, isStale_reword]

theorem unlinkTags_reword : unlinkTags (s.reword w) = unlinkTags s := by
  funext tags
  simp only [unlinkTags, dropBackLinks, isStale_reword, unlinkReference_reword]

theorem staleTags_reword : staleTags (s.reword w) = staleTags s := by
  funext tags
  simp only [staleTags, isStale_reword]

theorem unlinkFiles_reword :
    unlinkFiles (s.reword w) = ((unlinkFiles s).1.reword w, (unlinkFiles s).2) := by
  have hfiles : (s.files.map (File.reword w)).map
        (fun f => if staleTags s f.tags = 0 then f else { f with tags := unlinkTags s f.tags }) =
      (s.files.map fun f =>
        if staleTags s f.tags = 0 then f else { f with tags := unlinkTags s f.tags }).map
        (File.reword w) := by
    rw [List.map_map, List.map_map]
    refine List.map_congr_left fun f _ => ?_
    have htags : (f.reword w).tags = f.tags := rfl
    dsimp only [Function.comp_apply]
    rw [htags]
    split <;> rfl
  unfold unlinkFiles
  rw [staleTags_reword, unlinkTags_reword, ApiSet.files_reword]
  refine Prod.ext (congrArg (fun files => { s with files := files }) hfiles) ?_
  dsimp only
  rw [List.map_map]
  rfl

theorem unlinkElement_reword (acc : ApiSet × Nat) (ref : ElementRef) :
    unlinkElement (acc.1.reword w, acc.2) ref =
      ((unlinkElement acc ref).1.reword w, (unlinkElement acc ref).2) := by
  unfold unlinkElement
  dsimp only
  rw [ApiSet.file?_reword, ApiSet.item?_reword]
  cases acc.1.file? ref.file with
  | none => rfl
  | some f =>
    cases acc.1.item? ref with
    | none => rfl
    | some item =>
      have htags : (item.mapInfo w.info).info.tags = item.info.tags := rfl
      dsimp only [Option.map_some]
      rw [htags, isStale_reword, staleTags_reword, unlinkReference_reword, unlinkTags_reword,
        File.bases_reword]
      split
      · rfl
      · refine congrArg (·, _) (ApiSet.reword_modifyFile _ (fun g => ?_) ref.file).symm
        rw [← File.reword_setBases]
        refine File.reword_modifyInfo _ (fun i => ?_) ref.kind ref.fqsen
        rfl

theorem unlinkRemoved_reword :
    unlinkRemoved (s.reword w) = ((unlinkRemoved s).1.reword w, (unlinkRemoved s).2) := by
  unfold unlinkRemoved
  rw [ApiSet.allElements_reword, unlinkFiles_reword]
  exact ApiSet.foldl_reword_counted (unlinkElement_reword w) _ _ _

end Compile

end ApiDoc
