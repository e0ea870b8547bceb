import ApiDoc.Compiler
import ApiDoc.Proofs.Links

/-!
# What the steps of the compiler leave alone

No step before the last one makes, removes or moves an element: each of them retouches the set. Only
linking and making back links write tags, and they leave summaries and descriptions alone. The indexes
and the trees belong to the frame of a set, which only three of the steps change.
-/

namespace ApiDoc

abbrev Item.tags (item : Item) : Tags := item.info.tags

/-- What an element was found to use. -/
abbrev Item.uses (item : Item) : List Target := item.tags.links Compile.usesTag

/-- The back links of an element. -/
abbrev Item.usedBy (item : Item) : List Target := item.tags.links Compile.usedByTag

/-! ### Frames -/

namespace ApiSet

/-- What a set holds besides its files and tables. -/
def frame (s : ApiSet) : NameMap Index × Taxonomy × Taxonomy :=
  (s.indexes, s.namespaces, s.packages)

theorem frame_foldl {α : Type} {step : ApiSet → α → ApiSet}
    (h : ∀ s a, (step s a).frame = s.frame) (items : List α) (s : ApiSet) :
    (items.foldl step s).frame = s.frame := by
  induction items generalizing s with
  | nil => rfl
  | cons a rest ih => exact (ih (step s a)).trans (h s a)

theorem resolves_element (s : ApiSet) (ref : ElementRef) :
    s.resolves (.element ref) = (s.item? ref).isSome := rfl

section SameFrame

variable {s t : ApiSet} (h : t.frame = s.frame)
include h

theorem index_congr (name : String) : t.index name = s.index name := by
  rw [index, index, (Prod.mk.inj h).1]

theorem lookupIn_congr (name key : String) : t.lookupIn name key = s.lookupIn name key := by
  rw [lookupIn, lookupIn, (Prod.mk.inj h).1]

theorem lookup_congr (key : String) : t.lookup key = s.lookup key := lookupIn_congr h _ key

theorem namespaces_congr : t.namespaces = s.namespaces := (Prod.mk.inj (Prod.mk.inj h).2).1

theorem packages_congr : t.packages = s.packages := (Prod.mk.inj (Prod.mk.inj h).2).2

/-- The same addresses lead somewhere in retouched sets with the same frame. -/
theorem Retouch.resolves_eq {β : Type} {view : Item → β} (ht : s.Retouch view t)
    (target : Target) : t.resolves target = s.resolves target := by
  cases target with
  | file id => exact ht.isSome_file? id
  | element ref => exact ht.isSome_item? ref
  | spaceNode id => rw [resolves, resolves, namespaces_congr h]
  | packageNode id => rw [resolves, resolves, packages_congr h]

end SameFrame

end ApiSet

/-! ### Files as a whole -/

/-- Two files with the same declarations. -/
theorem File.at?_congr {f g : File} (hc : g.classes = f.classes)
    (hi : g.interfaces = f.interfaces) (ht : g.traits = f.traits) (hf : g.functions = f.functions)
    (hk : g.constants = f.constants) (p : Spot) : g.at? p = f.at? p := by
  cases p with
  | top kind key => cases kind <;> simp only [at?, topItem?, hc, hi, ht, hf, hk]
  | member k ownerKey kind key => cases k <;> simp only [at?, membersIn?, hc, hi, ht]

/-- A change of a file that leaves its declarations alone. -/
theorem File.Retouch.of_declarations {β : Type} {view : Item → β} {f g : File}
    (hc : g.classes = f.classes) (hi : g.interfaces = f.interfaces) (ht : g.traits = f.traits)
    (hf : g.functions = f.functions) (hk : g.constants = f.constants) : f.Retouch view g :=
  of_at?_eq (File.at?_congr hc hi ht hf hk)

namespace Compile

open ApiSet (Retouch)

/-! ### Steps that write tags -/

theorem retouch_linkElement_of {β : Type} {view : Item → β}
    (hview : ∀ tags, Unseen view fun i => { i with tags := tags }) (s : ApiSet) (ref : ElementRef)
    (item : Item) (old f : File) : f.Retouch view (linkElement s ref item old f) :=
  (File.Retouch.setBases f ref.kind ref.fqsen _).trans (.modifyInfo _ ref.kind ref.fqsen (hview _))

theorem retouch_linkElement (s : ApiSet) (ref : ElementRef) (item : Item) (old f : File) :
    f.Retouch Item.texts (linkElement s ref item old f) :=
  retouch_linkElement_of (fun _ => unseen_texts (fun _ => rfl) fun _ => rfl) s ref item old f

/-- The set in which one more element of the set before is linked. -/
def linkStep (s acc : ApiSet) (entry : ElementRef × Item) : ApiSet :=
  match s.file? entry.1.file with
  | some old => acc.modifyFile entry.1.file (linkElement s entry.1 entry.2 old)
  | none => acc

theorem linked_eq_foldl (s : ApiSet) :
    linked s = s.present.foldl (linkStep s)
      { s with files := s.files.map fun f => { f with tags := linkTags s (.ofFile f) f.tags } } :=
  rfl

/-- Linking does not show where tags do not. -/
theorem retouch_linked_of {β : Type} {view : Item → β}
    (hview : ∀ tags, Unseen view fun i => { i with tags := tags }) (s : ApiSet) :
    s.Retouch view (linked s) := by
  have hstart : s.Retouch view
      { s with files := s.files.map fun f => { f with tags := linkTags s (.ofFile f) f.tags } } :=
    Retouch.mapFiles s fun f => File.Retouch.of_declarations rfl rfl rfl rfl rfl
  rw [linked_eq_foldl]
  refine hstart.trans (Retouch.foldl (fun acc entry => ?_) s.present _)
  rw [linkStep]
  split
  · next old _ =>
    exact Retouch.modifyFile acc _ (retouch_linkElement_of hview s entry.1 entry.2 old)
  · exact .refl acc

theorem retouch_linked (s : ApiSet) : s.Retouch Item.texts (linked s) :=
  retouch_linked_of (fun _ => unseen_texts (fun _ => rfl) fun _ => rfl) s

theorem frame_linked (s : ApiSet) : (linked s).frame = s.frame := by
  rw [linked_eq_foldl]
  refine (ApiSet.frame_foldl (fun acc entry => ?_) s.present _).trans rfl
  rw [linkStep]
  split <;> rfl

abbrev usesAndTexts (item : Item) : List Target × String × String := (item.uses, item.texts)

/-- A back link is no use. -/
theorem unseen_backTag (u : Use) :
    Unseen usesAndTexts fun i => { i with tags := i.tags.push (backTag u) } := by
  refine Unseen.both ⟨fun _ => rfl, fun item => ?_⟩ (unseen_texts (fun _ => rfl) fun _ => rfl)
  exact (links_push_backTag item.tags u usesTag).trans (if_neg (by decide))

theorem retouch_addBackLink (acc : ApiSet × Nat) (u : Use) :
    acc.1.Retouch usesAndTexts (addBackLink acc u).1 ∧
      (addBackLink acc u).1.frame = acc.1.frame := by
  rw [addBackLink]
  split
  · exact ⟨.refl _, rfl⟩
  · split
    · exact ⟨.refl _, rfl⟩
    · exact ⟨Retouch.modifyInfo acc.1 u.used (unseen_backTag u), rfl⟩

theorem retouch_addBackLinks (uses : List Use) (acc : ApiSet × Nat) :
    acc.1.Retouch usesAndTexts (uses.foldl addBackLink acc).1 ∧
      (uses.foldl addBackLink acc).1.frame = acc.1.frame := by
  induction uses generalizing acc with
  | nil => exact ⟨.refl _, rfl⟩
  | cons u rest ih =>
    obtain ⟨hstep, hframe⟩ := retouch_addBackLink acc u
    obtain ⟨hrest, hrestFrame⟩ := ih (addBackLink acc u)
    exact ⟨hstep.trans hrest, hrestFrame.trans hframe⟩

theorem retouch_backLink (s : ApiSet) : s.Retouch usesAndTexts (backLink s).state :=
  (retouch_addBackLinks (usesIn s) (s, 0)).1

theorem frame_backLink (s : ApiSet) : (backLink s).state.frame = s.frame :=
  (retouch_addBackLinks (usesIn s) (s, 0)).2

/-! ### Steps that keep tags -/

theorem files_withIndexes (s : ApiSet) : (withIndexes s).files = s.files := rfl

theorem files_enterNodes (mark name : String) (target : Nat → Target) (nodes : List Node)
    (s : ApiSet) : (enterNodes mark name target nodes s).files = s.files := by
  rw [enterNodes]
  induction nodes generalizing s with
  | nil => rfl
  | cons n rest ih => exact ih _

theorem files_withSpaces (s : ApiSet) : (withSpaces s).files = s.files := files_enterNodes ..

theorem files_placeFile (default : String) (s : ApiSet) (entry : Nat × File) :
    (placeFile default s entry).files =
      (s.modifyFile entry.1 fun f =>
        { f with package := some (packageOfFile default entry.2) }).files := by
  simp only [placeFile, ApiSet.modifyFile]

theorem files_placeElement (s : ApiSet) (entry : ElementRef × String) :
    (placeElement s entry).files =
      (s.modifyInfo entry.1 fun i => { i with package := some entry.2 }).files := by
  simp only [placeElement, ApiSet.modifyInfo, ApiSet.modifyFile]

abbrev tagsAndTexts (item : Item) : Tags × String × String := (item.tags, item.texts)

theorem retouch_placed (default : String) (s : ApiSet) (elements : List (ElementRef × String)) :
    s.Retouch tagsAndTexts
      (elements.foldl placeElement (s.numbered.foldl (placeFile default) s)) := by
  refine (Retouch.foldl (fun s entry => ?_) s.numbered s).trans
    (Retouch.foldl (fun s entry => ?_) elements _)
  · refine Retouch.files_congr (Retouch.modifyFile s entry.1 fun f => ?_)
      (files_placeFile default s entry)
    exact File.Retouch.of_declarations rfl rfl rfl rfl rfl
  · refine Retouch.files_congr (Retouch.modifyInfo s entry.1 ?_) (files_placeElement s entry)
    exact Unseen.both (unseen_tags (fun _ => rfl) fun _ => rfl)
      (unseen_texts (fun _ => rfl) fun _ => rfl)

theorem retouch_withPackages (defaultName : String) (s : ApiSet) :
    s.Retouch tagsAndTexts (withPackages defaultName s) := by
  unfold withPackages
  exact (retouch_placed _ s _).files_congr (files_enterNodes ..)

theorem retouch_addMarkers {β : Type} {view : Item → β} (found : List (Nat × Marker)) (s : ApiSet) :
    s.Retouch view (found.foldl (fun s (id, m) => s.modifyFile id (addMarker m)) s) := by
  refine Retouch.foldl (fun s entry => ?_) found s
  refine Retouch.modifyFile s entry.1 fun f => ?_
  rw [addMarker]
  split
  · exact .refl f
  · exact File.Retouch.of_declarations rfl rfl rfl rfl rfl

theorem retouch_mark (keywords : List String) (s : ApiSet) :
    s.Retouch tagsAndTexts (mark keywords s).state ∧ (mark keywords s).state.frame = s.frame := by
  rw [mark]
  split
  · exact ⟨.refl s, rfl⟩
  · split
    · exact ⟨.refl s, rfl⟩
    · next found _ =>
      refine ⟨retouch_addMarkers found s, ?_⟩
      refine ApiSet.frame_foldl (fun s entry => ?_) found s
      rfl

section Texts

variable {σ : Type} (edit : TextEdit σ)

theorem length_editFiles (state : σ) (files : List File) :
    (editFiles edit state files).1.length = files.length := by
  induction files generalizing state with
  | nil => rfl
  | cons f rest ih => simp [editFiles, ih]

/-- Editing texts leaves the declarations and the tags of files alone. -/
theorem exists_of_editFiles {state : σ} {files : List File} {id : Nat} {g : File}
    (h : (editFiles edit state files).1[id]? = some g) :
    ∃ f, files[id]? = some f ∧
      g = { f with summary := g.summary, description := g.description } := by
  induction files generalizing state id with
  | nil => simp [editFiles] at h
  | cons f rest ih =>
    cases id with
    | zero =>
      refine ⟨f, rfl, ?_⟩
      obtain rfl : _ = g := by simpa [editFiles] using h
      rfl
    | succ id => exact ih (by simpa [editFiles] using h)

theorem retouch_editFiles (s : ApiSet) (state : σ) :
    s.Retouch Item.tags { s with files := (editFiles edit state s.files).1 } := by
  refine ⟨length_editFiles edit state s.files, fun id f g hf hg => ?_⟩
  obtain ⟨old, hold, hedit⟩ := exists_of_editFiles edit hg
  cases hf.symm.trans hold
  rw [hedit]
  exact File.Retouch.of_declarations rfl rfl rfl rfl rfl

theorem retouch_editAllTextsWith (s : ApiSet) (state : σ) :
    s.Retouch Item.tags (editAllTextsWith edit s state).1 ∧
      (editAllTextsWith edit s state).1.frame = s.frame := by
  have hput (s : ApiSet) (texts : List (ElementRef × NewTexts)) :
      s.Retouch Item.tags (putTexts s texts) ∧ (putTexts s texts).frame = s.frame := by
    unfold putTexts
    refine ⟨Retouch.foldl (fun s entry => ?_) texts s, ApiSet.frame_foldl (fun s entry => ?_) texts s⟩
    · exact Retouch.modifyInfo s entry.1 (unseen_tags (fun _ => rfl) fun _ => rfl)
    · rfl
  unfold editAllTextsWith
  exact ⟨(retouch_editFiles edit s state).trans (hput _ _).1, (hput _ _).2⟩

theorem retouch_editAllTexts (edit : Scope → String → String) (s : ApiSet) :
    s.Retouch Item.tags (editAllTexts edit s) ∧ (editAllTexts edit s).frame = s.frame :=
  retouch_editAllTextsWith _ s ()

end Texts

theorem files_addTables (tables : List Toc) (s : ApiSet) :
    (tables.foldl ApiSet.addTable s).files = s.files ∧
      (tables.foldl ApiSet.addTable s).frame = s.frame := by
  induction tables generalizing s with
  | nil => exact ⟨rfl, rfl⟩
  | cons table rest ih => exact ih (s.addTable table)

theorem files_apiContents (router : Router) (s : ApiSet) :
    (apiContents router s).state.files = s.files ∧
      (apiContents router s).state.frame = s.frame := by
  rw [apiContents]
  split
  · exact files_addTables _ s
  · exact ⟨rfl, rfl⟩

end Compile

end ApiDoc
