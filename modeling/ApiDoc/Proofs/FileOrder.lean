import ApiDoc.Proofs.Conservation
import ApiDoc.Proofs.RenamedFilter

/-!
# The order of files

A set of files as they were read comes out the same, up to the numbers of its files and packages, in
whatever order the files are added, if no two elements may share a name. Two runs are followed side
by side: each step of the compiler takes sets that are renamings of each other to sets that are, and
fails on both or on neither. Until the tree of packages is built, any numbers will do for its nodes.
-/

namespace ApiDoc

variable {ρ : Renaming}

/-! ### Files as they are read -/

theorem NameMap.map_eq_self {α : Type} {a : α → α} {m : NameMap α}
    (h : ∀ key x, m.get? key = some x → a x = x) : m.map a = m := by
  refine ext_get? fun key => ?_
  rw [get?_map]
  cases hx : m.get? key with
  | none => rfl
  | some x => exact congrArg some (h key x hx)

theorem Reference.rename_of_unresolved {r : Reference} (h : r.resolved = none) :
    r.rename ρ = r := by
  obtain ⟨target, resolved⟩ := r
  obtain rfl : resolved = none := h
  rfl

/-- Tags without addresses stay as they are. -/
theorem Tags.Unlinked.rename_eq {tags : Tags} (h : tags.Unlinked) : tags.rename ρ = tags := by
  refine congrArg Tags.mk (NameMap.map_eq_self fun name list hlist => ?_)
  refine (List.map_congr_left fun tag htag => ?_).trans (List.map_id list)
  cases hbody : tag.body with
  | reference r =>
    have href : tag.reference? = some r := by rw [Tag.reference?, hbody]
    have hmem : tag ∈ tags.get name := by rw [Tags.get, hlist]; exact htag
    have hnone := h r (Tags.mem_references_iff.mpr ⟨name, tag, hmem, href⟩)
    rw [Tag.mapReference, hbody]
    simp only [Reference.rename_of_unresolved hnone, ← hbody, id]
  | plain | typed | typedVariable | magicMethod => simp only [Tag.mapReference, hbody, id]

theorem Info.Sound.rename_eq {i : Info} (h : i.Sound) : i.rename ρ = i :=
  congrArg (fun tags => { i with tags := tags }) h.unlinked.rename_eq

theorem Element.mapInfo_eq {β : Type} {e : Element β} (h : e.info.Sound) :
    e.mapInfo ρ.recast.info = e :=
  congrArg (fun i => { e with info := i }) h.rename_eq

theorem Element.recast_eq {α : Type} {b : α → α} {e : Element α} (h : e.info.Sound)
    (hbody : b e.body = e.body) : e.recast ρ.recast b = e := by
  rw [Element.recast, hbody]
  exact congrArg (fun i => { e with info := i }) h.rename_eq

theorem Members.Sound.recast_eq {owner : Fqsen} {m : Members} (h : m.Sound owner) :
    m.recast ρ.recast = m := by
  have hmethods : m.methods.map (·.mapInfo ρ.recast.info) = m.methods :=
    NameMap.map_eq_self fun key e he => Element.mapInfo_eq
      (h .method key e.methodItem (by simp [Members.item?, he])).2
  have hproperties : m.properties.map (·.mapInfo ρ.recast.info) = m.properties :=
    NameMap.map_eq_self fun key e he => Element.mapInfo_eq
      (h .property key e.propertyItem (by simp [Members.item?, he])).2
  have hconstants : m.constants.map (·.mapInfo ρ.recast.info) = m.constants :=
    NameMap.map_eq_self fun key e he => Element.mapInfo_eq
      (h .constant key e.constantItem (by simp [Members.item?, he])).2
  rw [Members.recast, hmethods, hproperties, hconstants]

theorem Bases.map_eq_self {a : Reference → Reference} {b : Bases} (h : ∀ r ∈ b.all, a r = r) :
    b.map a = b := by
  have hlist {refs : List Reference} (hrefs : ∀ r ∈ refs, r ∈ b.all) : refs.map a = refs :=
    (List.map_congr_left fun r hr => h r (hrefs r hr)).trans (List.map_id refs)
  have hparent : b.parent.map a = b.parent := by
    cases hb : b.parent with
    | none => rfl
    | some r => exact congrArg some (h r (by simp [Bases.all, hb]))
  have hinterfaces : b.interfaces.map a = b.interfaces := hlist fun r hr => by simp [Bases.all, hr]
  have htraits : b.usedTraits.map a = b.usedTraits := hlist fun r hr => by simp [Bases.all, hr]
  rw [Bases.map, hparent, hinterfaces, htraits]

/-- A file as it was read has no addresses to rename. -/
theorem File.AsRead.rename_eq {f : File} (h : f.AsRead) : f.rename ρ = f := by
  have hbases (kind : ElementKind) (key : String) (b : Bases) (hb : f.basesAt? kind key = some b) :
      b.map (Reference.rename ρ) = b :=
    Bases.map_eq_self fun r hr => Reference.rename_of_unresolved (h.bases kind key b hb r hr)
  have hmembers (kind : ElementKind) (key : String) (m : Members)
      (hm : f.membersIn? kind key = some m) : m.recast ρ.recast = m :=
    (h.members kind key m hm).recast_eq
  have hclasses : f.classes.map (·.recast ρ.recast fun b =>
      { b with
        parent := b.parent.map (Reference.rename ρ)
        interfaces := b.interfaces.map (Reference.rename ρ)
        usedTraits := b.usedTraits.map (Reference.rename ρ)
        members := b.members.recast ρ.recast }) = f.classes := by
    refine NameMap.map_eq_self fun key e he => Element.recast_eq
      (h.top .class key e.classItem (by simp [topItem?, he])).2.1 ?_
    obtain ⟨hparent, hinterfaces, htraits⟩ := Bases.mk.inj
      (hbases .class key ⟨e.body.parent, e.body.interfaces, e.body.usedTraits⟩
        (by simp [basesAt?, he]))
    have hin := hmembers .class key e.body.members (by simp [membersIn?, he])
    rw [hparent, hinterfaces, htraits, hin]
  have hinterfaces : f.interfaces.map (·.recast ρ.recast fun b =>
      { b with
        parents := b.parents.map (Reference.rename ρ)
        members := b.members.recast ρ.recast }) = f.interfaces := by
    refine NameMap.map_eq_self fun key e he => Element.recast_eq
      (h.top .interface key e.interfaceItem (by simp [topItem?, he])).2.1 ?_
    obtain ⟨-, hparents, -⟩ := Bases.mk.inj
      (hbases .interface key { interfaces := e.body.parents } (by simp [basesAt?, he]))
    have hin := hmembers .interface key e.body.members (by simp [membersIn?, he])
    rw [hparents, hin]
  have htraits : f.traits.map (·.recast ρ.recast fun b =>
      { b with
        usedTraits := b.usedTraits.map (Reference.rename ρ)
        members := b.members.recast ρ.recast }) = f.traits := by
    refine NameMap.map_eq_self fun key e he => Element.recast_eq
      (h.top .trait key e.traitItem (by simp [topItem?, he])).2.1 ?_
    obtain ⟨-, -, hused⟩ := Bases.mk.inj
      (hbases .trait key { usedTraits := e.body.usedTraits } (by simp [basesAt?, he]))
    have hin := hmembers .trait key e.body.members (by simp [membersIn?, he])
    rw [hused, hin]
  have hfunctions : f.functions.map (·.mapInfo ρ.recast.info) = f.functions :=
    NameMap.map_eq_self fun key e he => Element.mapInfo_eq
      (h.top .function key e.functionItem (by simp [topItem?, he])).2.1
  have hconstants : f.constants.map (·.mapInfo ρ.recast.info) = f.constants :=
    NameMap.map_eq_self fun key e he => Element.mapInfo_eq
      (h.top .constant key e.constantItem (by simp [topItem?, he])).2.1
  have htags : ρ.recast.tags f.tags = f.tags := h.tags.rename_eq
  have hbase : ρ.recast.base = Reference.rename ρ := rfl
  rw [File.rename, File.recast, hbase, hclasses, hinterfaces, htraits, hfunctions, hconstants,
    htags]
  rfl

/-! ### Sets as they are read -/

theorem Taxonomy.renamed_fresh (kind : TaxonomyKind) (h : ρ.node 0 = 0) :
    (fresh kind).Renamed ρ (fresh kind) := by
  refine ⟨rfl, rfl, h, fun id => ?_⟩
  cases id with
  | zero =>
    rw [h]
    refine congrArg some ?_
    rw [Node.rename]
    simp only [Node.bare, rootId, h]
    rfl
  | succ id =>
    have hne : ρ.node (id + 1) ≠ 0 := fun hzero =>
      Nat.succ_ne_zero id (ρ.node.injective (hzero.trans h.symm))
    rw [node?, node?, List.getElem?_eq_none, List.getElem?_eq_none, Option.map_none]
    · exact Nat.succ_le_succ (Nat.zero_le id)
    · exact Nat.one_le_iff_ne_zero.mpr hne

namespace ApiSet

/-- Files with different paths are added at the end. -/
theorem ofFiles_eq (name : String) {files : List File} (h : (files.map File.path).Nodup) :
    ofFiles name files = { name := name, files := files } := by
  have hfold (files : List File) (s : ApiSet) (h : ((s.files ++ files).map File.path).Nodup) :
      files.foldl (fun s f => (s.addFile f).1) s = { s with files := s.files ++ files } := by
    induction files generalizing s with
    | nil => simp
    | cons f rest ih =>
      have hnew : f.path ∉ s.files.map File.path := by
        rw [List.map_append, List.nodup_append] at h
        exact fun hmem => h.2.2 f.path hmem f.path (by simp) rfl
      have happend : s.files ++ [f] ++ rest = s.files ++ f :: rest := by simp
      rw [List.foldl_cons, addFile_of_new hnew, ih _ (by simpa only [happend] using h)]
      simp only [happend]
  exact (hfold files { name := name } (by simpa using h)).trans (by simp)

/-- The same files in another order have other numbers, and the nodes of trees any. -/
theorem exists_renamed_of_perm (name : String) {files files' : List File}
    (hperm : files.Perm files') (hread : ∀ f ∈ files, f.Reflected)
    (hpaths : (files.map File.path).Nodup) :
    ∃ file : Equiv.Perm Nat, ∀ node : Equiv.Perm Nat, node 0 = 0 →
      (ofFiles name files).Renamed ⟨file, node⟩ (ofFiles name files') := by
  obtain ⟨file, hfile, -⟩ := exists_renumbering hperm
  rw [ofFiles_eq name hpaths, ofFiles_eq name ((hperm.map _).nodup_iff.mp hpaths)]
  refine ⟨file, fun node hnode => ⟨rfl, fun id => (hfile id).trans ?_, rfl, ?_, ?_, rfl⟩⟩
  · have hget : ({ name := name, files := files } : ApiSet).file? id = files[id]? := rfl
    rw [hget]
    cases hf : files[id]? with
    | none => rfl
    | some f => exact congrArg some (hread f (List.mem_of_getElem? hf)).asRead.rename_eq.symm
  · exact Taxonomy.renamed_fresh .namespaces rfl
  · exact Taxonomy.renamed_fresh .packages hnode

/-! ### Owners of members -/

theorem Retouch.mem_allElements {β : Type} {view : Item → β} {s t : ApiSet} (hs : s.Keyed)
    (ht : s.Retouch view t) {ref : ElementRef} (h : ref ∈ t.allElements) : ref ∈ s.allElements := by
  obtain ⟨g, hg, hdeclared⟩ := mem_allElements_iff.mp h
  obtain ⟨f, hf, hfg⟩ := ht.exists_file? hg
  obtain ⟨p, item, hat, hlists, hkind, hname⟩ := File.exists_of_mem_declared hdeclared
  obtain ⟨old, hold, houtline⟩ := hfg.exists_at? hat
  obtain ⟨hsameKind, hsameName, -⟩ : old.kind = item.kind ∧ old.info.fqsen = item.info.fqsen ∧
      old.visibility = item.visibility := by simpa [Item.outline] using houtline
  refine mem_allElements_iff.mpr ⟨f, hf, ?_⟩
  rw [← hkind, ← hname, ← hsameKind, ← hsameName]
  refine (hs ref.file f hf).mem_declared hold ?_
  cases p with
  | top k key => trivial
  | member k ownerKey k' key => exact (hfg.ownerKind?_eq ownerKey).symm.trans hlists

/-- Where no two elements share a name, the owner of a member is the class-like it stands in. -/
theorem ownersNear_of_fresh {s t : ApiSet} (hs : s.Fresh) (ht : s.Retouch (fun _ => ()) t)
    (hnames : (s.allElements.map fun ref => ref.fqsen.text).Nodup) : t.OwnersNear := by
  intro e he g hg howner
  obtain ⟨-, hitem⟩ := mem_present_iff.mp he
  rw [item?_eq] at hitem
  obtain ⟨p, hp, hat⟩ := Option.bind_eq_some_iff.mp hitem
  obtain ⟨f, kind, holder, hf, hholder, -⟩ :=
    Compile.exists_holder_of_spotOf hs ht hp (by rw [hat]; rfl) howner
  obtain ⟨hkind, htext⟩ := hs.keyed e.1.file f hf (.top kind g.1.fqsen.text) holder hholder
  have hdeclared := (hs.keyed e.1.file f hf).mem_declared (p := .top kind _) hholder trivial
  have hholds : (⟨e.1.file, holder.kind, holder.info.fqsen⟩ : ElementRef) ∈ s.allElements :=
    mem_allElements_iff.mpr ⟨f, hf, hdeclared⟩
  have hbears := ht.mem_allElements hs.keyed (mem_present_iff.mp hg).1
  rw [List.inj_on_of_nodup_map hnames hbears hholds htext.symm]

end ApiSet

/-! ### Two runs side by side -/

/-- Attempts of which both fail or none does, and then leads to states that are related. -/
structure Attempt.Matches {α : Type} (R : α → α → Prop) (a b : Attempt α) : Prop where
  failure_iff : a.failure = none ↔ b.failure = none
  state : a.failure = none → R a.state b.state

namespace Attempt.Matches

variable {α : Type} {R S : α → α → Prop} {a b : Attempt α}

/-- Second steps that match on related states. -/
theorem andThen {f g : α → Attempt α} (h : a.Matches R b)
    (hstep : ∀ x y, R x y → (f x).Matches S (g y)) : (a.andThen f).Matches S (b.andThen g) := by
  have hiff := h.failure_iff
  unfold Attempt.andThen
  cases ha : a.failure with
  | some e =>
    cases hb : b.failure with
    | some e' => exact ⟨by simp [ha, hb], fun hnone => by simp [ha] at hnone⟩
    | none => simp [ha, hb] at hiff
  | none =>
    cases hb : b.failure with
    | some e => simp [ha, hb] at hiff
    | none =>
      have hnext := hstep a.state b.state (h.state ha)
      exact ⟨hnext.failure_iff, hnext.state⟩

end Attempt.Matches

/-- The project with one version that documents one API set. -/
def Project.lone (title : String) (settings : Settings) (number : String) (s : ApiSet) :
    Project where
  title := title
  settings := settings
  versions := [{ number := number, sets := [.api s] }]

def Project.holding (title : String) (settings : Settings) (number : String) (d : DocSet) :
    Project where
  title := title
  settings := settings
  versions := [{ number := number, sets := [d] }]

section Runs

variable {title number : String} {settings : Settings} {services : Services}

/-- Projects that document one API set each, the two sets related. -/
def Project.Beside (title number : String) (settings : Settings) (R : ApiSet → ApiSet → Prop)
    (p q : Project) : Prop :=
  ∃ s t, p = .lone title settings number s ∧ q = .lone title settings number t ∧ R s t

/-- A step on the sets of a project with one set is a step on that set. -/
theorem Project.visitSets_holding (step : DocSet → Attempt DocSet) (d : DocSet) :
    (holding title settings number d).visitSets step =
      (step d).map (holding title settings number) := by
  simp only [holding, visitSets, Attempt.visit, Attempt.map]
  cases (step d).failure <;> simp

theorem Project.visitSets_lone {step : DocSet → Attempt DocSet} {s : ApiSet} {done : Attempt ApiSet}
    (h : step (.api s) = done.map .api) :
    (lone title settings number s).visitSets step = done.map (lone title settings number) := by
  refine (visitSets_holding step (.api s)).trans ?_
  rw [h]
  rfl

theorem Project.matches_visitSets {R S : ApiSet → ApiSet → Prop} {step : DocSet → Attempt DocSet}
    {own : ApiSet → Attempt ApiSet} (hown : ∀ s, step (.api s) = (own s).map .api)
    (h : ∀ s t, R s t → (own s).Matches S (own t)) {p q : Project}
    (hpq : Beside title number settings R p q) :
    (p.visitSets step).Matches (Beside title number settings S) (q.visitSets step) := by
  obtain ⟨s, t, rfl, rfl, hst⟩ := hpq
  have hmatches := h s t hst
  rw [visitSets_lone (hown s), visitSets_lone (hown t)]
  exact ⟨hmatches.failure_iff, fun hnone => ⟨_, _, rfl, rfl, hmatches.state hnone⟩⟩

/-- A step that takes related projects to related ones, or fails on both. -/
def Pass.Relates (services : Services) (R S : Project → Project → Prop) (pass : Pass) : Prop :=
  ∀ p q, R p q → (pass.run services p).Matches S (pass.run services q)

theorem Pass.relates_onApiSets {R S : ApiSet → ApiSet → Prop} {description : String}
    {priority : Int} {step : Services → Settings → ApiSet → Attempt ApiSet}
    (h : ∀ s t, R s t → (step services settings s).Matches S (step services settings t)) :
    (Pass.onApiSets description priority step).Relates services
      (Project.Beside title number settings R) (Project.Beside title number settings S) := by
  intro p q hpq
  have hsettings : p.settings = settings ∧ q.settings = settings := by
    obtain ⟨s, t, rfl, rfl, -⟩ := hpq
    exact ⟨rfl, rfl⟩
  simp only [onApiSets, hsettings]
  exact Project.matches_visitSets (fun _ => rfl) h hpq

namespace Compiler

/-- Steps that one after the other take related projects to related ones, or fail on both. -/
def Relates (services : Services) (passes : List Pass) (R S : Project → Project → Prop) : Prop :=
  ∀ {a b : Attempt Project}, a.Matches R b →
    (passes.foldl (fun done pass => done.andThen (runPass services pass)) a).Matches S
      (passes.foldl (fun done pass => done.andThen (runPass services pass)) b)

theorem relates_nil (R : Project → Project → Prop) : Relates services [] R R := fun h => h

theorem relates_cons {pass : Pass} {rest : List Pass} {R S T : Project → Project → Prop}
    (hpass : pass.Relates services R S) (hrest : Relates services rest S T) :
    Relates services (pass :: rest) R T := fun h =>
  hrest (h.andThen fun p q hpq => ⟨(hpass p q hpq).failure_iff, (hpass p q hpq).state⟩)

end Compiler

end Runs

/-! ### The steps -/

namespace ApiSet

/-- What is read off files as they are kept is the same, file by file. -/
theorem Keeps.map_files {s t : ApiSet} (h : s.Keeps t) {α : Type} (read : File → α)
    (hread : ∀ f g : File, f.Keeps g → read g = read f) :
    t.files.map read = s.files.map read := by
  refine List.ext_getElem (by simp [h.length_eq]) fun id hid hid' => ?_
  rw [List.length_map] at hid hid'
  rw [List.getElem_map, List.getElem_map]
  exact hread _ _ (h.file id _ _ (List.getElem?_eq_getElem hid') (List.getElem?_eq_getElem hid))

theorem Keeps.map_path {s t : ApiSet} (h : s.Keeps t) :
    t.files.map File.path = s.files.map File.path :=
  h.map_files File.path fun _ _ hkeeps => hkeeps.path

/-- Sets under way, as long as their packages have not been placed: any numbers will do for the
nodes of the tree of packages. -/
structure Unplaced (read : ApiSet) (file : Equiv.Perm Nat) (s t : ApiSet) : Prop where
  renamed : ∀ node : Equiv.Perm Nat, node 0 = 0 → s.Renamed ⟨file, node⟩ t
  packages_eq : s.packages = .fresh .packages
  packages_eq' : t.packages = .fresh .packages
  map_path : s.files.map File.path = read.files.map File.path
  retouch : read.Retouch (fun _ => ()) s
  nodup_names : (read.allElements.map fun ref => ref.fqsen.text).Nodup

/-- Sets under way whose packages have been placed. -/
structure Placed (read : ApiSet) (file : Equiv.Perm Nat) (s t : ApiSet) : Prop where
  renamed : ∃ node : Equiv.Perm Nat, s.Renamed ⟨file, node⟩ t
  retouch : read.Retouch (fun _ => ()) s
  nodup_names : (read.allElements.map fun ref => ref.fqsen.text).Nodup

/-- Steps that cannot fail match if they lead to related sets. -/
theorem matches_of_state {S : ApiSet → ApiSet → Prop} {a b : Attempt ApiSet}
    (ha : a.failure = none) (hb : b.failure = none) (h : S a.state b.state) : a.Matches S b :=
  ⟨by rw [ha, hb], fun _ => h⟩

section Steps

variable {read s t : ApiSet} {file : Equiv.Perm Nat}

theorem Unplaced.linked (h : read.Unplaced file s t) :
    read.Unplaced file (Compile.linked s) (Compile.linked t) where
  renamed node hnode := (h.renamed node hnode).linked
  packages_eq := (packages_congr (Compile.frame_linked s)).trans h.packages_eq
  packages_eq' := (packages_congr (Compile.frame_linked t)).trans h.packages_eq'
  map_path := (Compile.keeps_linked s).map_path.trans h.map_path
  retouch := h.retouch.trans (Compile.retouch_linked s).unit
  nodup_names := h.nodup_names

theorem Unplaced.withSpaces (h : read.Unplaced file s t) (hs : s.namespaces.Branched) :
    read.Unplaced file (Compile.withSpaces s) (Compile.withSpaces t) where
  renamed node hnode := (h.renamed node hnode).withSpaces hs
  packages_eq := (Compile.trees_enterNodes ..).2.trans h.packages_eq
  packages_eq' := (Compile.trees_enterNodes ..).2.trans h.packages_eq'
  map_path := (congrArg (List.map File.path) (Compile.files_withSpaces s)).trans h.map_path
  retouch := h.retouch.files_congr (Compile.files_withSpaces s)
  nodup_names := h.nodup_names

theorem Unplaced.withPackages (h : read.Unplaced file s t)
    (hpaths : (read.files.map File.path).Nodup) (defaultName : String) :
    read.Placed file (Compile.withPackages defaultName s) (Compile.withPackages defaultName t) where
  renamed := Renamed.exists_withPackages h.renamed h.packages_eq h.packages_eq'
    (h.map_path ▸ hpaths) defaultName
  retouch := h.retouch.trans (Compile.retouch_withPackages defaultName s).unit
  nodup_names := h.nodup_names

end Steps

end ApiSet

namespace Compile

open Project (Beside)

section Relates

variable {title number : String} {settings : Settings} {services : Services} {read read' : ApiSet}
  {file : Equiv.Perm Nat}

/-- Both sets as they were read. -/
def AtStart (read read' s t : ApiSet) : Prop := s = read ∧ t = read'

/-- Sets under way whose elements have not been put into the tree of namespaces either. -/
def Unspaced (read : ApiSet) (file : Equiv.Perm Nat) (s t : ApiSet) : Prop :=
  read.Unplaced file s t ∧ s.namespaces = .fresh .namespaces

theorem state_buildIndexes {strict : Bool} {s : ApiSet}
    (h : (buildIndexes strict s).failure = none) : (buildIndexes strict s).state = withIndexes s := by
  unfold buildIndexes at h ⊢
  cases strict with
  | false => rfl
  | true =>
    cases hpairs : repeats .empty s.allElements with
    | nil => rfl
    | cons pair rest => simp [hpairs, Attempt.fail] at h

theorem relates_elementsPass (hstrict : settings.strictNames = true) (hread : read.Fresh)
    (hread' : read'.Fresh)
    (h : ∀ node : Equiv.Perm Nat, node 0 = 0 → read.Renamed ⟨file, node⟩ read') :
    elementsPass.Relates services (Beside title number settings (AtStart read read'))
      (Beside title number settings (Unspaced read file)) := by
  refine Pass.relates_onApiSets fun s t hst => ?_
  obtain ⟨rfl, rfl⟩ := hst
  have hperm := (h (Equiv.refl Nat) rfl).perm_allElements.map fun ref => ref.fqsen.text
  rw [List.map_map] at hperm
  have hnames := hperm.nodup_iff
  rw [hstrict]
  refine ⟨?_, fun hnone => ?_⟩
  · rw [failure_buildIndexes_iff, failure_buildIndexes_iff, hnames]
    rfl
  · have hdistinct := (failure_buildIndexes_iff s).mp hnone
    have hnone' := (failure_buildIndexes_iff t).mpr (hnames.mpr hdistinct)
    rw [state_buildIndexes hnone, state_buildIndexes hnone']
    exact ⟨⟨fun node hnode => (h node hnode).withIndexes hdistinct, hread.packages_eq,
      hread'.packages_eq, congrArg (List.map File.path) (files_withIndexes s),
      .of_files_eq (files_withIndexes s), hdistinct⟩, hread.namespaces_eq⟩

theorem relates_linkPass :
    linkPass.Relates services (Beside title number settings (Unspaced read file))
      (Beside title number settings (Unspaced read file)) :=
  Pass.relates_onApiSets fun s _ h => ApiSet.matches_of_state rfl rfl
    ⟨h.1.linked, (ApiSet.namespaces_congr (frame_linked s)).trans h.2⟩

theorem relates_spacesPass :
    spacesPass.Relates services (Beside title number settings (Unspaced read file))
      (Beside title number settings (read.Unplaced file)) := by
  refine Pass.relates_onApiSets fun s t h => ApiSet.matches_of_state rfl rfl ?_
  refine h.1.withSpaces ?_
  rw [h.2]
  exact ⟨_, _, Taxonomy.branches_fresh .namespaces⟩

theorem relates_packagesPass (hpaths : (read.files.map File.path).Nodup) :
    packagesPass.Relates services (Beside title number settings (read.Unplaced file))
      (Beside title number settings (read.Placed file)) :=
  Pass.relates_onApiSets fun _ _ h => ApiSet.matches_of_state rfl rfl (h.withPackages hpaths _)

theorem relates_markersPass :
    markersPass.Relates services (Beside title number settings (read.Placed file))
      (Beside title number settings (read.Placed file)) := by
  refine Pass.relates_onApiSets fun s t h => ?_
  obtain ⟨node, hst⟩ := h.renamed
  obtain ⟨hfailure, hmarked⟩ := hst.mark settings.markers
  exact ⟨by rw [hfailure], fun _ => ⟨⟨node, hmarked⟩,
    h.retouch.trans (retouch_mark settings.markers s).1.unit, h.nodup_names⟩⟩

theorem relates_examplesPass :
    examplesPass.Relates services (Beside title number settings (read.Placed file))
      (Beside title number settings (read.Placed file)) := by
  rintro p q ⟨s, t, rfl, rfl, h⟩
  obtain ⟨node, hst⟩ := h.renamed
  refine ⟨Iff.rfl, fun _ => ⟨(editAllTextsWith (withExamples services.finder) s []).1,
    (editAllTextsWith (withExamples services.finder) t []).1, rfl, rfl, ⟨node, ?_⟩, ?_,
    h.nodup_names⟩⟩
  · rw [(editAllTextsWith_withExamples s (allOwn_nil services.finder)).1,
      (editAllTextsWith_withExamples t (allOwn_nil services.finder)).1]
    exact hst.editAllTexts _
  · exact h.retouch.trans (retouch_editAllTextsWith _ s []).1.unit

theorem relates_inlineLinksPass :
    inlineLinksPass.Relates services (Beside title number settings (read.Placed file))
      (Beside title number settings (read.Placed file)) := by
  refine Pass.relates_onApiSets fun s t h => ApiSet.matches_of_state rfl rfl ?_
  obtain ⟨node, hst⟩ := h.renamed
  refine ⟨⟨node, ?_⟩, h.retouch.trans (retouch_editAllTexts _ s).1.unit, h.nodup_names⟩
  rw [hst.withLinks_eq]
  exact hst.editAllTexts _

theorem relates_backLinksPass :
    backLinksPass.Relates services (Beside title number settings (read.Placed file))
      (Beside title number settings (read.Placed file)) := by
  refine Pass.relates_onApiSets fun s t h => ApiSet.matches_of_state rfl rfl ?_
  obtain ⟨node, hst⟩ := h.renamed
  exact ⟨⟨node, hst.backLink⟩, h.retouch.trans (retouch_backLink s).unit, h.nodup_names⟩

theorem relates_contentsPass :
    contentsPass.Relates services (Beside title number settings (read.Placed file))
      (Beside title number settings (read.Placed file)) := by
  refine fun p q => Project.matches_visitSets (fun _ => rfl) fun s t h => ?_
  obtain ⟨node, hst⟩ := h.renamed
  obtain ⟨hfailure, hfilled⟩ := hst.apiContents services.router
  exact ⟨by rw [hfailure], fun _ => ⟨⟨node, hfilled⟩,
    h.retouch.files_congr (files_apiContents services.router s).1, h.nodup_names⟩⟩

theorem relates_filterPass (hread : read.Fresh) :
    filterPass.Relates services (Beside title number settings (read.Placed file))
      (Beside title number settings fun s t => ∃ ρ, s.Renamed ρ t) := by
  have hnone (s : ApiSet) : (filterSet settings s).failure = none := by
    simp only [filterSet]
  refine Pass.relates_onApiSets fun s t h => ApiSet.matches_of_state (hnone s) (hnone t) ?_
  obtain ⟨node, hst⟩ := h.renamed
  exact ⟨_, hst.filterSet (ApiSet.ownersNear_of_fresh hread h.retouch h.nodup_names) settings⟩

end Relates

end Compile

namespace Compiler

/-- In strict mode the order of files does not matter: the run fails for both orders or for neither,
and then leads to sets that are the same but for the numbers of files and of packages. -/
theorem compile_of_perm (services : Services) (title name number : String) {settings : Settings}
    (hstrict : settings.strictNames = true) {files files' : List File} (hperm : files.Perm files')
    (hread : ∀ f ∈ files, f.Reflected) (hpaths : (files.map File.path).Nodup) :
    let done := standard.compile services (.lone title settings number (.ofFiles name files))
    let done' := standard.compile services (.lone title settings number (.ofFiles name files'))
    (done.failure = none ↔ done'.failure = none) ∧
      (done.failure = none → ∃ ρ s t, done.state = .lone title settings number s ∧
        done'.state = .lone title settings number t ∧ s.Renamed ρ t) := by
  obtain ⟨file, hrenamed⟩ := ApiSet.exists_renamed_of_perm name hperm hread hpaths
  have hfresh : (ApiSet.ofFiles name files).Fresh := ⟨name, files, hread, rfl⟩
  have hfresh' : (ApiSet.ofFiles name files').Fresh :=
    ⟨name, files', fun f hf => hread f (hperm.mem_iff.mpr hf), rfl⟩
  have hdistinct : ((ApiSet.ofFiles name files).files.map File.path).Nodup := by
    rw [ApiSet.ofFiles_eq name hpaths]
    exact hpaths
  have hruns : Relates services standard.passes
      (Project.Beside title number settings
        (Compile.AtStart (.ofFiles name files) (.ofFiles name files')))
      (Project.Beside title number settings fun s t => ∃ ρ, s.Renamed ρ t) := by
    rw [passes_standard]
    exact relates_cons (Compile.relates_elementsPass hstrict hfresh hfresh' hrenamed) <|
      relates_cons Compile.relates_linkPass <| relates_cons Compile.relates_spacesPass <|
      relates_cons (Compile.relates_packagesPass hdistinct) <|
      relates_cons Compile.relates_markersPass <| relates_cons Compile.relates_examplesPass <|
      relates_cons Compile.relates_inlineLinksPass <| relates_cons Compile.relates_backLinksPass <|
      relates_cons Compile.relates_contentsPass <|
      relates_cons (Compile.relates_filterPass hfresh) (relates_nil _)
  intro done done'
  have hmatches : done.Matches _ done' := hruns
    ⟨Iff.rfl, fun _ => ⟨.ofFiles name files, .ofFiles name files', rfl, rfl, rfl, rfl⟩⟩
  refine ⟨hmatches.failure_iff, fun hnone => ?_⟩
  obtain ⟨s, t, hs, ht, ρ, hst⟩ := hmatches.state hnone
  exact ⟨ρ, s, t, hs, ht, hst⟩

/-- A source with a class that uses another one. -/
def callerSource : SourceText := ⟨"caller.php", "<?php /** @uses Callee */ class Caller \x7b\x7d"⟩

/-- A source with the other class, in a package of its own. -/
def calleeSource : SourceText := ⟨"callee.php", "<?php /** @package Sub */ class Callee \x7b\x7d"⟩

def callerAndCallee : List File :=
  [callerSource, calleeSource].filterMap fun source => source.read.toOption

/-- A run over files in strict mode, without markers and without examples. -/
def compileStrictly (files : List File) : Attempt Project :=
  standard.compile ⟨.standard, fun request => .error (.notFound request.path)⟩
    (.lone "" { strictNames := true, markers := [] } "1" (.ofFiles "api" files))

/-- The two files can be added in either order. -/
theorem compile_of_perm_callerAndCallee :
    callerAndCallee.map File.path = ["caller.php", "callee.php"] ∧
      (compileStrictly callerAndCallee).failure = none ∧
      ∃ ρ s t,
        (compileStrictly callerAndCallee).state =
          .lone "" { strictNames := true, markers := [] } "1" s ∧
        (compileStrictly callerAndCallee.reverse).state =
          .lone "" { strictNames := true, markers := [] } "1" t ∧ s.Renamed ρ t := by
  have hread : ∀ f ∈ callerAndCallee, f.Reflected := by
    intro f hf
    obtain ⟨source, -, hsource⟩ := List.mem_filterMap.mp hf
    refine ⟨source, f, ?_, rfl⟩
    cases h : source.read with
    | ok g => simpa [h, Except.toOption] using hsource
    | error e => simp [h, Except.toOption] at hsource
  have hpaths : callerAndCallee.map File.path = ["caller.php", "callee.php"] := by decide +kernel
  have hnames : ((ApiSet.ofFiles "api" callerAndCallee).allElements.map fun ref =>
      ref.fqsen.text).Nodup := by decide +kernel
  have hnone : (compileStrictly callerAndCallee).failure = none := by
    refine failure_standard_of_buildIndexes Router.exists_page_standard (fun s hs => ?_) rfl
    obtain rfl : s = .ofFiles "api" callerAndCallee := by simpa [Project.lone] using hs
    exact (Compile.failure_buildIndexes_iff _).mpr hnames
  exact ⟨hpaths, hnone, (compile_of_perm _ "" "api" "1" rfl
    (List.reverse_perm callerAndCallee).symm hread (hpaths ▸ by decide)).2 hnone⟩

end Compiler

end ApiDoc
