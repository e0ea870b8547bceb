import ApiDoc.Proofs.Linking
import ApiDoc.Proofs.Unlinking

/-!
# What a compilation keeps

The steps of the compiler may write texts, packages, markers and back links, give references a new
name and address, drop sources and remove elements. `Keeps` says of tags, documentation, files, sets
and projects that everything else is as it was. Main statement: whatever the settings, the router and
the finder are, and whether the run fails or not, a project keeps what it had.
-/

namespace ApiDoc

/-! ### Documentation -/

/-- A tag without what its reference names and leads to. -/
def Tag.shape (t : Tag) : Tag := t.mapReference fun _ => { target := "" }

/-- Under every name but that of back links there are as many tags as before, in the same order and
with the same names, descriptions and bodies, up to what references name and lead to. -/
def Tags.Keeps (old new : Tags) : Prop :=
  ∀ name, name ≠ Compile.usedByTag → (new.get name).map Tag.shape = (old.get name).map Tag.shape

structure Info.Keeps (old new : Info) : Prop where
  fqsen : new.fqsen = old.fqsen
  name : new.name = old.name
  line : new.line = old.line
  tags : old.tags.Keeps new.tags

structure Item.Keeps (old new : Item) : Prop where
  kind : new.kind = old.kind
  visibility : new.visibility = old.visibility
  info : old.info.Keeps new.info

theorem Tag.shape_mapReference (f : Reference → Reference) (t : Tag) :
    (t.mapReference f).shape = t.shape := by
  cases h : t.body <;> simp [shape, mapReference, h]

namespace Tags.Keeps

variable {a b c : Tags}

theorem refl (tags : Tags) : tags.Keeps tags := fun _ _ => rfl

theorem trans (hab : a.Keeps b) (hbc : b.Keeps c) : a.Keeps c :=
  fun name hname => (hbc name hname).trans (hab name hname)

theorem push (tags : Tags) {t : Tag} (ht : t.name = Compile.usedByTag) :
    tags.Keeps (tags.push t) := by
  intro name hname
  rw [Tags.get_push, if_neg fun h => hname (h.symm.trans ht)]

theorem linkTags (s : ApiSet) (scope : Scope) (tags : Tags) :
    tags.Keeps (Compile.linkTags s scope tags) := by
  intro name _
  rw [Compile.get_linkTags]
  split
  · rw [List.map_map]
    exact List.map_congr_left fun t _ => t.shape_mapReference _
  · rfl

theorem unlinkTags (s : ApiSet) (tags : Tags) : tags.Keeps (Compile.unlinkTags s tags) := by
  intro name hname
  rw [Compile.unlinkTags, Tags.get_map, Compile.get_dropBackLinks, if_neg hname, List.map_map]
  exact List.map_congr_left fun t _ => t.shape_mapReference _

end Tags.Keeps

theorem Info.Keeps.refl (i : Info) : i.Keeps i := ⟨rfl, rfl, rfl, .refl _⟩

theorem Info.Keeps.trans {a b c : Info} (hab : a.Keeps b) (hbc : b.Keeps c) : a.Keeps c :=
  ⟨hbc.fqsen.trans hab.fqsen, hbc.name.trans hab.name, hbc.line.trans hab.line,
    hab.tags.trans hbc.tags⟩

theorem Item.Keeps.refl (item : Item) : item.Keeps item := ⟨rfl, rfl, .refl _⟩

theorem Item.Keeps.trans {a b c : Item} (hab : a.Keeps b) (hbc : b.Keeps c) : a.Keeps c :=
  ⟨hbc.kind.trans hab.kind, hbc.visibility.trans hab.visibility, hab.info.trans hbc.info⟩

/-! ### Bodies -/

/-- What an element declares besides its documentation, its members and what it is built on. -/
inductive Body
  | «class» (isAbstract isFinal : Bool)
  | interface
  | trait
  | function (body : FunctionBody)
  | constant (body : ConstantBody)
  | method (body : MethodBody)
  | property (body : PropertyBody)
deriving DecidableEq

/-- Whether there is a parent, and how many interfaces and traits there are. -/
def Bases.sizes (b : Bases) : Bool × Nat × Nat :=
  (b.parent.isSome, b.interfaces.length, b.usedTraits.length)

theorem Bases.sizes_map (h : Reference → Reference) (b : Bases) : (b.map h).sizes = b.sizes := by
  simp [sizes, map]

def Members.body? (m : Members) (kind : ElementKind) (name : String) : Option Body :=
  match kind with
  | .method => (m.methods.get? name).map fun e => .method e.body
  | .property => (m.properties.get? name).map fun e => .property e.body
  | .constant => (m.constants.get? name).map fun e => .constant e.body
  | _ => none

theorem Members.body?_modifyInfo (m : Members) (kind : ElementKind) (name : String)
    (g : Info → Info) (other : ElementKind) (key : String) :
    (m.modifyInfo kind name g).body? other key = m.body? other key := by
  cases kind with
  | method | property | constant =>
    cases other <;> first | rfl | exact NameMap.map_get?_modify_same _ _ _ fun _ => rfl
  | «class» | interface | trait | function => rfl

theorem Members.body?_erase_of_ne (m : Members) {kind other : ElementKind} {name key : String}
    (h : ¬ (other = kind ∧ key = name)) : (m.erase kind name).body? other key = m.body? other key := by
  cases kind with
  | method | property | constant =>
    cases other <;> first | rfl | simp_all [erase, body?, NameMap.get?_erase_of_ne]
  | «class» | interface | trait | function => rfl

namespace File

/-- The body of the element outside any class-like of a kind under a key. -/
def topBody? (f : File) (kind : ElementKind) (key : String) : Option Body :=
  match kind with
  | .class => (f.classes.get? key).map fun e => .class e.body.isAbstract e.body.isFinal
  | .interface => (f.interfaces.get? key).map fun _ => .interface
  | .trait => (f.traits.get? key).map fun _ => .trait
  | .function => (f.functions.get? key).map fun e => .function e.body
  | .constant => (f.constants.get? key).map fun e => .constant e.body
  | .method => none
  | .property => none

def bodyAt? (f : File) : Spot → Option Body
  | .top kind key => f.topBody? kind key
  | .member owner ownerKey kind key => (f.membersIn? owner ownerKey).bind fun m => m.body? kind key

/-- The file without its elements. -/
def apart (f : File) : File :=
  { f with
    classes := .empty
    interfaces := .empty
    traits := .empty
    functions := .empty
    constants := .empty }

section Operations

variable (f : File)

theorem topBody?_modifyMembers (owner : Fqsen) (g : Members → Members) (kind : ElementKind)
    (key : String) : (f.modifyMembers owner g).topBody? kind key = f.topBody? kind key := by
  rw [modifyMembers]
  split
  case' isFalse => split
  all_goals
    cases kind <;> first | rfl | exact NameMap.map_get?_modify_same _ _ _ fun _ => rfl

theorem bodyAt?_modifyMembers {g : Members → Members} {k : ElementKind} {ownerKey : String}
    {kind : ElementKind} {key : String} (owner : Fqsen)
    (hg : f.ownerKind? owner.text = some k ∧ ownerKey = owner.text →
      ∀ m : Members, (g m).body? kind key = m.body? kind key) :
    (f.modifyMembers owner g).bodyAt? (.member k ownerKey kind key) =
      f.bodyAt? (.member k ownerKey kind key) := by
  rw [bodyAt?, bodyAt?, membersIn?_modifyMembers]
  split
  · next hk =>
    cases f.membersIn? k ownerKey with
    | none => rfl
    | some m => exact hg hk m
  · rfl

theorem bodyAt?_modifyInfo (kind : ElementKind) (fqsen : Fqsen) (g : Info → Info) (p : Spot) :
    (f.modifyInfo kind fqsen g).bodyAt? p = f.bodyAt? p := by
  cases h : throughOwner kind fqsen with
  | true =>
    unfold modifyInfo
    rw [if_pos h]
    cases fqsen.owner? with
    | none => rfl
    | some owner =>
      cases p with
      | top k key => exact f.topBody?_modifyMembers owner _ k key
      | member k ownerKey other key =>
        exact f.bodyAt?_modifyMembers owner fun _ m => m.body?_modifyInfo kind fqsen.name g other key
  | false =>
    cases p with
    | member k ownerKey other key => rw [bodyAt?, bodyAt?, membersIn?_modifyInfo_of_top f h]
    | top k key =>
      unfold modifyInfo
      rw [if_neg (by simp [h])]
      cases kind with
      | «class» | interface | trait | function | constant =>
        cases k <;> first | rfl | exact NameMap.map_get?_modify_same _ _ _ fun _ => rfl
      | method | property => rfl

theorem bodyAt?_setBases (kind : ElementKind) (fqsen : Fqsen) (b : Bases) (p : Spot) :
    (f.setBases kind fqsen b).bodyAt? p = f.bodyAt? p := by
  cases p with
  | member k ownerKey other key => simp only [bodyAt?, membersIn?_setBases]
  | top k key =>
    cases kind with
    | «class» | interface | trait =>
      cases k <;> first | rfl | exact NameMap.map_get?_modify_same _ _ _ fun _ => rfl
    | function | constant | method | property => rfl

variable {f}

theorem bodyAt?_erase {kind : ElementKind} {fqsen : Fqsen} {p : Spot}
    (hp : ∀ q, f.spotOf kind fqsen = some q → ¬ p.GoesWith q) :
    (f.erase kind fqsen).bodyAt? p = f.bodyAt? p := by
  cases h : throughOwner kind fqsen with
  | true =>
    unfold erase
    rw [if_pos h]
    cases ho : fqsen.owner? with
    | none => rfl
    | some owner =>
      cases p with
      | top k key => exact f.topBody?_modifyMembers owner _ k key
      | member k ownerKey other key =>
        refine f.bodyAt?_modifyMembers owner fun hk m => m.body?_erase_of_ne fun hm => ?_
        exact hp _ ((spotOf_eq_member_iff h ho).mpr ⟨hk, hm⟩) (.inl rfl)
  | false =>
    have hq := hp _ (spotOf_of_not_throughOwner f h)
    cases p with
    | member k ownerKey other key =>
      rw [bodyAt?, bodyAt?, membersIn?_erase_of_top f h, if_neg]
      rintro ⟨rfl, rfl⟩
      exact hq (.inr rfl)
    | top k key =>
      have hne : ¬ (k = kind ∧ key = fqsen.text) := by
        rintro ⟨rfl, rfl⟩
        exact hq (.inl rfl)
      unfold erase
      rw [if_neg (by simp [h])]
      cases kind with
      | «class» | interface | trait | function | constant =>
        cases k <;> first | rfl | simp_all [bodyAt?, topBody?, NameMap.get?_erase_of_ne]
      | method | property => rfl

theorem basesAt?_erase {kind k : ElementKind} {fqsen : Fqsen} {key : String} {b : Bases}
    (h : (f.erase kind fqsen).basesAt? k key = some b) : f.basesAt? k key = some b := by
  unfold erase at h
  split at h
  · cases howner : fqsen.owner? with
    | none => simpa [howner] using h
    | some owner =>
      rw [howner] at h
      exact (f.basesAt?_modifyMembers owner _ k key).symm.trans h
  · cases kind with
    | «class» | interface | trait =>
      cases k <;> first | exact h | skip
      all_goals
        simp only [basesAt?, NameMap.get?_erase] at h ⊢
        split at h
        · simp at h
        · exact h
    | function | constant | method | property => exact h

variable (f)

theorem apart_modifyMembers (owner : Fqsen) (g : Members → Members) :
    (f.modifyMembers owner g).apart = f.apart := by
  rw [modifyMembers]
  split
  case' isFalse => split
  all_goals rfl

theorem apart_modifyInfo (kind : ElementKind) (fqsen : Fqsen) (g : Info → Info) :
    (f.modifyInfo kind fqsen g).apart = f.apart := by
  unfold modifyInfo
  split
  · cases fqsen.owner? with
    | none => rfl
    | some owner => exact f.apart_modifyMembers owner _
  · cases kind <;> rfl

theorem apart_setBases (kind : ElementKind) (fqsen : Fqsen) (b : Bases) :
    (f.setBases kind fqsen b).apart = f.apart := by
  cases kind <;> rfl

theorem apart_erase (kind : ElementKind) (fqsen : Fqsen) : (f.erase kind fqsen).apart = f.apart := by
  unfold erase
  split
  · cases fqsen.owner? with
    | none => rfl
    | some owner => exact f.apart_modifyMembers owner _
  · cases kind <;> rfl

end Operations

/-! ### Files -/

/-- What a file keeps besides its elements. -/
structure KeepsOwn (old new : File) : Prop where
  path : new.path = old.path
  hash : new.hash = old.hash
  aliases : new.aliases = old.aliases
  includes : new.includes = old.includes
  problems : new.problems = old.problems
  markers : old.markers <+: new.markers
  tags : old.tags.Keeps new.tags

/-- What a file keeps. Elements can go, but none comes, and each one that is left stands at its spot
and keeps what it declares and the numbers of references it is built on. -/
structure Keeps (old new : File) : Prop extends KeepsOwn old new where
  element : ∀ p after, new.at? p = some after →
    ∃ before, old.at? p = some before ∧ before.Keeps after ∧ new.bodyAt? p = old.bodyAt? p
  bases : ∀ kind key after, new.basesAt? kind key = some after →
    ∃ before, old.basesAt? kind key = some before ∧ after.sizes = before.sizes

namespace KeepsOwn

theorem refl (f : File) : f.KeepsOwn f := ⟨rfl, rfl, rfl, rfl, rfl, List.prefix_rfl, .refl _⟩

theorem trans {f g h : File} (hfg : f.KeepsOwn g) (hgh : g.KeepsOwn h) : f.KeepsOwn h :=
  ⟨hgh.path.trans hfg.path, hgh.hash.trans hfg.hash, hgh.aliases.trans hfg.aliases,
    hgh.includes.trans hfg.includes, hgh.problems.trans hfg.problems,
    hfg.markers.trans hgh.markers, hfg.tags.trans hgh.tags⟩

theorem of_apart {f g : File} (h : g.apart = f.apart) : f.KeepsOwn g := by
  obtain ⟨hpath, hhash, -, -, htags, -, haliases, hincludes, -, -, -, -, -, hmarkers, hproblems, -⟩ :=
    File.mk.inj h
  exact ⟨hpath, hhash, haliases, hincludes, hproblems, hmarkers ▸ List.prefix_rfl, htags ▸ .refl _⟩

end KeepsOwn

namespace Keeps

variable {f g h : File}

/-- A change of a file that leaves its declarations alone. -/
theorem of_declarations (hown : f.KeepsOwn g) (hc : g.classes = f.classes)
    (hi : g.interfaces = f.interfaces) (ht : g.traits = f.traits) (hf : g.functions = f.functions)
    (hk : g.constants = f.constants) : f.Keeps g := by
  refine ⟨hown, fun p after hafter => ⟨after, ?_, .refl after, ?_⟩, fun kind key after hafter =>
    ⟨after, ?_, rfl⟩⟩
  · rwa [File.at?_congr hc hi ht hf hk] at hafter
  · cases p with
    | top kind key => cases kind <;> simp only [bodyAt?, topBody?, hc, hi, ht, hf, hk]
    | member k ownerKey kind key => cases k <;> simp only [bodyAt?, membersIn?, hc, hi, ht]
  · cases kind <;> simpa only [basesAt?, hc, hi, ht] using hafter

theorem refl (f : File) : f.Keeps f := of_declarations (.refl f) rfl rfl rfl rfl rfl

theorem trans (hfg : f.Keeps g) (hgh : g.Keeps h) : f.Keeps h := by
  refine ⟨hfg.toKeepsOwn.trans hgh.toKeepsOwn, fun p after hafter => ?_, fun kind key after hafter => ?_⟩
  · obtain ⟨mid, hmid, hkept, hbody⟩ := hgh.element p after hafter
    obtain ⟨before, hbefore, hfirst, hbodyFirst⟩ := hfg.element p mid hmid
    exact ⟨before, hbefore, hfirst.trans hkept, hbody.trans hbodyFirst⟩
  · obtain ⟨mid, hmid, hsizes⟩ := hgh.bases kind key after hafter
    obtain ⟨before, hbefore, hfirst⟩ := hfg.bases kind key mid hmid
    exact ⟨before, hbefore, hsizes.trans hfirst⟩

/-- A change of documentation that keeps what is to be kept, at least of the element before. -/
theorem modifyInfo_of_before (hfg : f.Keeps g) {kind : ElementKind} {fqsen : Fqsen}
    {k : Info → Info} (hname : KeepsName k)
    (hk : ∀ p before after, g.spotOf kind fqsen = some p → f.at? p = some before →
      g.at? p = some after → before.info.Keeps (k after.info)) :
    f.Keeps (g.modifyInfo kind fqsen k) := by
  refine ⟨hfg.toKeepsOwn.trans (.of_apart (g.apart_modifyInfo kind fqsen k)), fun p after hafter => ?_,
    fun kind' key after hafter => hfg.bases kind' key after ?_⟩
  · rw [bodyAt?_modifyInfo]
    rw [at?_modifyInfo g kind fqsen hname] at hafter
    split at hafter
    · next hspot =>
      obtain ⟨mid, hmid, rfl⟩ := Option.map_eq_some_iff.mp hafter
      obtain ⟨before, hbefore, hkept, hbody⟩ := hfg.element p mid hmid
      exact ⟨before, hbefore, ⟨hkept.kind, hkept.visibility, hk p before mid hspot hbefore hmid⟩,
        hbody⟩
    · exact hfg.element p after hafter
  · rwa [basesAt?_modifyInfo] at hafter

theorem modifyInfo (f : File) (kind : ElementKind) (fqsen : Fqsen) {k : Info → Info}
    (hk : ∀ i : Info, i.Keeps (k i)) : f.Keeps (f.modifyInfo kind fqsen k) := by
  refine (refl f).modifyInfo_of_before (fun i => (hk i).fqsen) fun p before after _ hbefore hafter => ?_
  cases hbefore.symm.trans hafter
  exact hk before.info

theorem setBases (hfg : f.Keeps g) {kind : ElementKind} {fqsen : Fqsen} {b : Bases}
    (hb : ∀ before, f.basesAt? kind fqsen.text = some before → ∃ h : Reference → Reference,
      b = before.map h) : f.Keeps (g.setBases kind fqsen b) := by
  refine ⟨hfg.toKeepsOwn.trans (.of_apart (g.apart_setBases kind fqsen b)), fun p after hafter => ?_,
    fun k key after hafter => ?_⟩
  · rw [at?_setBases] at hafter
    rw [bodyAt?_setBases]
    exact hfg.element p after hafter
  · by_cases hk : k = kind ∧ key = fqsen.text
    · obtain ⟨rfl, rfl⟩ := hk
      have hsome : (g.basesAt? k fqsen.text).isSome := by
        have hthere := (isSome_topItem?_of_basesAt? hafter).2
        cases k <;> simp_all [basesAt?, File.setBases, topItem?]
      obtain ⟨mid, hmid⟩ := Option.isSome_iff_exists.mp hsome
      obtain ⟨before, hbefore, -⟩ := hfg.bases k fqsen.text mid hmid
      obtain ⟨change, rfl⟩ := hb before hbefore
      have hset := basesAt?_setBases_map hsome hbefore change
      cases hset.symm.trans hafter
      exact ⟨before, hbefore, before.sizes_map change⟩
    · rw [basesAt?_setBases_of_ne hk] at hafter
      exact hfg.bases k key after hafter

theorem erase (f : File) (kind : ElementKind) (fqsen : Fqsen) : f.Keeps (f.erase kind fqsen) := by
  refine ⟨.of_apart (f.apart_erase kind fqsen), fun p after hafter => ?_,
    fun k key after hafter => ⟨after, basesAt?_erase hafter, rfl⟩⟩
  have hstays (q : Spot) (hq : f.spotOf kind fqsen = some q) : ¬ p.GoesWith q := by
    intro hgoes
    simp [at?_erase_of_goesWith hq hgoes] at hafter
  rw [at?_erase_of_not_goesWith hstays] at hafter
  exact ⟨after, hafter, .refl after, bodyAt?_erase hstays⟩

end Keeps

end File

/-! ### Sets -/

namespace ApiSet

/-- What a set keeps: its name and, under the same numbers, its files. -/
structure Keeps (old new : ApiSet) : Prop where
  name : new.name = old.name
  length_eq : new.files.length = old.files.length
  file : ∀ id f g, old.file? id = some f → new.file? id = some g → f.Keeps g

namespace Keeps

variable {s t u : ApiSet}

theorem of_files_eq (hname : t.name = s.name) (hfiles : t.files = s.files) : s.Keeps t := by
  refine ⟨hname, by rw [hfiles], fun id f g hf hg => ?_⟩
  rw [file?, hfiles] at hg
  cases hf.symm.trans hg
  exact .refl f

theorem refl (s : ApiSet) : s.Keeps s := of_files_eq rfl rfl

theorem exists_file? (ht : s.Keeps t) {id : Nat} {g : File} (hg : t.file? id = some g) :
    ∃ f, s.file? id = some f ∧ f.Keeps g := by
  have hlt : id < s.files.length := by
    rw [← ht.length_eq]
    exact (List.getElem?_eq_some_iff.mp hg).1
  have hf : s.file? id = some s.files[id] := List.getElem?_eq_getElem hlt
  exact ⟨_, hf, ht.file id _ g hf hg⟩

theorem trans (ht : s.Keeps t) (hu : t.Keeps u) : s.Keeps u := by
  refine ⟨hu.name.trans ht.name, hu.length_eq.trans ht.length_eq, fun id f h hf hh => ?_⟩
  obtain ⟨g, hg, hgh⟩ := hu.exists_file? hh
  exact (ht.file id f g hf hg).trans hgh

/-- A change of one file, given what it keeps of the file before. -/
theorem modifyFile_of_before (ht : s.Keeps t) {id : Nat} {k : File → File}
    (hk : ∀ f g, s.file? id = some f → t.file? id = some g → f.Keeps (k g)) :
    s.Keeps (t.modifyFile id k) := by
  refine ⟨ht.name, by simpa [modifyFile] using ht.length_eq, fun other f g hf hg => ?_⟩
  rw [file?_modifyFile] at hg
  split at hg
  · next heq =>
    subst heq
    obtain ⟨mid, hmid, rfl⟩ := Option.map_eq_some_iff.mp hg
    exact hk f mid hf hmid
  · exact ht.file other f g hf hg

theorem modifyFile (s : ApiSet) (id : Nat) {k : File → File} (hk : ∀ f : File, f.Keeps (k f)) :
    s.Keeps (s.modifyFile id k) := by
  refine (refl s).modifyFile_of_before fun f g hf hg => ?_
  cases hf.symm.trans hg
  exact hk f

theorem mapFiles (s : ApiSet) {k : File → File} (hk : ∀ f : File, f.Keeps (k f)) :
    s.Keeps { s with files := s.files.map k } := by
  refine ⟨rfl, by simp, fun id f g hf hg => ?_⟩
  rw [file?] at hf
  simp only [file?, List.getElem?_map, hf, Option.map_some, Option.some.injEq] at hg
  exact hg ▸ hk f

theorem modifyInfo (s : ApiSet) (ref : ElementRef) {k : Info → Info}
    (hk : ∀ i : Info, i.Keeps (k i)) : s.Keeps (s.modifyInfo ref k) :=
  modifyFile s ref.file fun f => .modifyInfo f ref.kind ref.fqsen hk

/-- What is kept step by step, also while something is counted. -/
theorem foldl_counted {α β : Type} {step : ApiSet × β → α → ApiSet × β}
    (hstep : ∀ (acc : ApiSet × β) a, acc.1.Keeps (step acc a).1) (items : List α) (acc : ApiSet × β) :
    acc.1.Keeps (items.foldl step acc).1 := by
  induction items generalizing acc with
  | nil => exact .refl _
  | cons a rest ih => exact (hstep acc a).trans (ih (step acc a))

theorem foldl {α : Type} {step : ApiSet → α → ApiSet} (hstep : ∀ (s : ApiSet) a, s.Keeps (step s a))
    (items : List α) (s : ApiSet) : s.Keeps (items.foldl step s) := by
  induction items generalizing s with
  | nil => exact .refl _
  | cons a rest ih => exact (hstep s a).trans (ih (step s a))

end Keeps

end ApiSet

namespace Compile

open ApiSet (Keeps)

/-! ### Steps on one set -/

theorem keeps_buildIndexes (strict : Bool) (s : ApiSet) : s.Keeps (buildIndexes strict s).state := by
  unfold buildIndexes
  dsimp only
  split
  · exact .refl s
  · exact .of_files_eq rfl rfl

/-- Linking one element keeps what there was before, for its tags and bases are made from those. -/
theorem keeps_linkStep {s acc : ApiSet} (hr : s.Retouch (fun _ => ()) acc) (hk : s.Keeps acc)
    {entry : ElementRef × Item} (he : s.item? entry.1 = some entry.2) :
    s.Keeps (linkStep s acc entry) := by
  rw [linkStep]
  split
  · next old hold =>
    refine hk.modifyFile_of_before fun f g hf hg => ?_
    cases hold.symm.trans hf
    rw [ApiSet.item?, hold, Option.bind_some, File.item?_eq] at he
    have hspot (b : Bases) : (g.setBases entry.1.kind entry.1.fqsen b).spotOf entry.1.kind
        entry.1.fqsen = old.spotOf entry.1.kind entry.1.fqsen :=
      ((hr.files _ old g hold hg).trans (.setBases g _ _ b)).spotOf_eq _ _
    have hset : old.Keeps (g.setBases entry.1.kind entry.1.fqsen
        ((old.bases entry.1.kind entry.1.fqsen).map (linkReference s (s.scopeOf entry.1)))) := by
      refine (hk.file _ old g hold hg).setBases fun before hbefore =>
        ⟨linkReference s (s.scopeOf entry.1), ?_⟩
      rw [File.bases_eq, hbefore]
      rfl
    refine hset.modifyInfo_of_before (fun _ => rfl) fun p before after hp hbefore hafter => ?_
    rw [hspot] at hp
    rw [hp, Option.bind_some, hbefore] at he
    obtain rfl := Option.some.inj he
    obtain ⟨found, hfound, hkept, -⟩ := hset.element p after hafter
    cases hbefore.symm.trans hfound
    exact ⟨hkept.info.fqsen, hkept.info.name, hkept.info.line, .linkTags s _ _⟩
  · exact hk

theorem keeps_linked (s : ApiSet) : s.Keeps (linked s) := by
  have hfold (entries : List (ElementRef × Item)) (hentries : entries ⊆ s.present) (acc : ApiSet)
      (hr : s.Retouch (fun _ => ()) acc) (hk : s.Keeps acc) :
      s.Keeps (entries.foldl (linkStep s) acc) := by
    induction entries generalizing acc with
    | nil => exact hk
    | cons entry rest ih =>
      have he := (ApiSet.mem_present_iff.mp (hentries List.mem_cons_self)).2
      refine ih (fun e hmem => hentries (List.mem_cons_of_mem _ hmem)) _ ?_ (keeps_linkStep hr hk he)
      refine hr.trans ?_
      rw [linkStep]
      split
      · exact .modifyFile acc _ fun f =>
          (retouch_linkElement s entry.1 entry.2 _ f).coarsen fun _ => ()
      · exact .refl acc
  rw [linked_eq_foldl]
  refine hfold s.present (List.Subset.refl _) _
    (.mapFiles s fun f => File.Retouch.of_declarations rfl rfl rfl rfl rfl) (.mapFiles s fun f => ?_)
  exact .of_declarations ⟨rfl, rfl, rfl, rfl, rfl, List.prefix_rfl, .linkTags s _ _⟩ rfl rfl rfl rfl rfl

theorem keeps_enterNodes (mark name : String) (target : Nat → Target) (nodes : List Node)
    (s : ApiSet) : s.Keeps (enterNodes mark name target nodes s) := by
  refine Keeps.foldl (fun s n => ?_) nodes s
  exact .of_files_eq rfl rfl

theorem keeps_withSpaces (s : ApiSet) : s.Keeps (withSpaces s) := by
  have hgrown (t : Taxonomy) : s.Keeps { s with namespaces := t } := .of_files_eq rfl rfl
  exact (hgrown _).trans (keeps_enterNodes ..)

theorem keeps_withPackages (defaultName : String) (s : ApiSet) :
    s.Keeps (withPackages defaultName s) := by
  have hgrown (s : ApiSet) (t : Taxonomy) : s.Keeps { s with packages := t } := .of_files_eq rfl rfl
  have hfile (s : ApiSet) (entry : Nat × File) :
      s.Keeps (placeFile (defaultPackage defaultName) s entry) := by
    refine (hgrown s _).trans (.modifyFile _ entry.1 fun f => ?_)
    exact .of_declarations ⟨rfl, rfl, rfl, rfl, rfl, List.prefix_rfl, .refl _⟩ rfl rfl rfl rfl rfl
  have helement (s : ApiSet) (entry : ElementRef × String) : s.Keeps (placeElement s entry) := by
    refine (hgrown s _).trans (.modifyInfo _ entry.1 fun i => ?_)
    exact ⟨rfl, rfl, rfl, .refl _⟩
  rw [withPackages]
  exact ((Keeps.foldl hfile s.numbered s).trans (Keeps.foldl helement _ _)).trans
    (keeps_enterNodes ..)

theorem keeps_mark (keywords : List String) (s : ApiSet) : s.Keeps (mark keywords s).state := by
  have hadd (m : Marker) (f : File) : f.Keeps (addMarker m f) := by
    rw [addMarker]
    split
    · exact .refl f
    · exact .of_declarations
        ⟨rfl, rfl, rfl, rfl, rfl, List.prefix_append f.markers [m], .refl _⟩ rfl rfl rfl rfl rfl
  rw [mark]
  split
  · exact .refl s
  · split
    · exact .refl s
    · refine Keeps.foldl (fun s entry => ?_) _ s
      exact .modifyFile s entry.1 (hadd entry.2)

theorem keeps_editAllTextsWith {σ : Type} (edit : TextEdit σ) (s : ApiSet) (state : σ) :
    s.Keeps (editAllTextsWith edit s state).1 := by
  have hfiles : s.Keeps { s with files := (editFiles edit state s.files).1 } := by
    refine ⟨rfl, length_editFiles edit state s.files, fun id f g hf hg => ?_⟩
    obtain ⟨old, hold, hedit⟩ := exists_of_editFiles edit hg
    cases hf.symm.trans hold
    rw [hedit]
    exact .of_declarations ⟨rfl, rfl, rfl, rfl, rfl, List.prefix_rfl, .refl _⟩ rfl rfl rfl rfl rfl
  refine hfiles.trans (Keeps.foldl (fun s entry => ?_) _ _)
  exact .modifyInfo s entry.1 fun i => ⟨rfl, rfl, rfl, .refl _⟩

theorem keeps_addBackLink (acc : ApiSet × Nat) (u : Use) : acc.1.Keeps (addBackLink acc u).1 := by
  rw [addBackLink]
  split
  · exact .refl _
  · split
    · exact .refl _
    · exact .modifyInfo acc.1 u.used fun i => ⟨rfl, rfl, rfl, .push i.tags rfl⟩

theorem keeps_backLink (s : ApiSet) : s.Keeps (backLink s).state :=
  Keeps.foldl_counted keeps_addBackLink (usesIn s) (s, 0)

theorem keeps_apiContents (router : Router) (s : ApiSet) :
    s.Keeps (apiContents router s).state := by
  rw [apiContents]
  split
  · refine Keeps.foldl (fun s table => ?_) _ s
    exact .of_files_eq rfl rfl
  · exact .refl s

theorem keeps_removeElement (acc : ApiSet × Nat) (ref : ElementRef) :
    acc.1.Keeps (removeElement acc ref).1 := by
  rw [removeElement]
  split
  · exact .modifyFile acc.1 ref.file fun f => .erase f ref.kind ref.fqsen
  · exact .refl _

theorem keeps_unlinkElement (acc : ApiSet × Nat) (ref : ElementRef) :
    acc.1.Keeps (unlinkElement acc ref).1 := by
  rcases unlinkElement_cases acc ref with ⟨-, h⟩ | ⟨f, item, hf, -, ⟨-, -, h⟩ | h⟩
  · rw [h]
    exact .refl _
  · rw [h]
    exact .refl _
  · rw [h]
    refine (Keeps.refl acc.1).modifyFile_of_before fun old g hold hg => ?_
    cases hf.symm.trans hold
    cases hf.symm.trans hg
    refine File.Keeps.trans
      ((File.Keeps.refl f).setBases fun before hbefore => ⟨unlinkReference acc.1, ?_⟩)
      (.modifyInfo _ ref.kind ref.fqsen fun i => ⟨rfl, rfl, rfl, .unlinkTags acc.1 i.tags⟩)
    rw [File.bases_eq, hbefore]
    rfl

theorem keeps_unlinkRemoved (s : ApiSet) : s.Keeps (unlinkRemoved s).1 := by
  refine Keeps.trans (.mapFiles s fun f => ?_)
    (Keeps.foldl_counted keeps_unlinkElement s.allElements (unlinkFiles s))
  split
  · exact .refl f
  · exact .of_declarations ⟨rfl, rfl, rfl, rfl, rfl, List.prefix_rfl, .unlinkTags s f.tags⟩
      rfl rfl rfl rfl rfl

theorem keeps_filterSet (settings : Settings) (s : ApiSet) :
    s.Keeps (filterSet settings s).state := by
  have hstart : s.Keeps (filterStart settings s) := by
    rw [filterStart]
    split
    · exact .refl s
    · refine .mapFiles s fun f => ?_
      exact .of_declarations ⟨rfl, rfl, rfl, rfl, rfl, List.prefix_rfl, .refl _⟩ rfl rfl rfl rfl rfl
  have hshown : s.Keeps (shown settings s) :=
    hstart.trans (Keeps.foldl_counted keeps_removeElement _ (filterStart settings s, 0))
  have hsettled : s.Keeps (settled settings s) := hshown.trans (keeps_editAllTextsWith ..)
  have hpruned (t : ApiSet) : t.Keeps (pruned t) := .of_files_eq rfl (files_pruned t)
  rw [state_filterSet]
  exact (hsettled.trans (hpruned _)).trans (keeps_unlinkRemoved _)

end Compile

/-! ### Projects -/

/-- What a documentation set keeps; a guide keeps its documents. -/
inductive DocSet.Keeps : DocSet → DocSet → Prop
  | api {s t : ApiSet} : s.Keeps t → Keeps (.api s) (.api t)
  | guide {g h : GuideSet} : h.name = g.name → h.documents = g.documents → Keeps (.guide g) (.guide h)

/-- What a version keeps: its number and its sets, in order. -/
structure Version.Keeps (old new : Version) : Prop where
  number : new.number = old.number
  sets : List.Forall₂ DocSet.Keeps old.sets new.sets

/-- What a project keeps: its title, its settings and its versions, in order. -/
structure Project.Keeps (old new : Project) : Prop where
  title : new.title = old.title
  settings : new.settings = old.settings
  versions : List.Forall₂ Version.Keeps old.versions new.versions

theorem DocSet.Keeps.refl (d : DocSet) : d.Keeps d := by
  cases d with
  | api s => exact .api (.refl s)
  | guide g => exact .guide rfl rfl

theorem DocSet.Keeps.trans {a b c : DocSet} (hab : a.Keeps b) (hbc : b.Keeps c) : a.Keeps c := by
  cases hab with
  | api hst =>
    cases hbc with
    | api htu => exact .api (hst.trans htu)
  | guide hname hdocuments =>
    cases hbc with
    | guide hnext hmore => exact .guide (hnext.trans hname) (hmore.trans hdocuments)

theorem Version.Keeps.refl (v : Version) : v.Keeps v :=
  ⟨rfl, List.forall₂_same.mpr fun d _ => .refl d⟩

theorem forall₂_trans {α : Type} {R : α → α → Prop} (hR : ∀ a b c, R a b → R b c → R a c)
    {xs ys zs : List α} (hxy : List.Forall₂ R xs ys) (hyz : List.Forall₂ R ys zs) :
    List.Forall₂ R xs zs := by
  induction hxy generalizing zs with
  | nil => exact hyz
  | cons hab _ ih =>
    cases hyz with
    | cons hbc htail => exact .cons (hR _ _ _ hab hbc) (ih htail)

theorem Version.Keeps.trans {a b c : Version} (hab : a.Keeps b) (hbc : b.Keeps c) : a.Keeps c :=
  ⟨hbc.number.trans hab.number, forall₂_trans (R := DocSet.Keeps) (fun _ _ _ => .trans) hab.sets hbc.sets⟩

namespace Project.Keeps

theorem refl (p : Project) : p.Keeps p := ⟨rfl, rfl, List.forall₂_same.mpr fun v _ => .refl v⟩

theorem trans {a b c : Project} (hab : a.Keeps b) (hbc : b.Keeps c) : a.Keeps c :=
  ⟨hbc.title.trans hab.title, hbc.settings.trans hab.settings,
    forall₂_trans (R := Version.Keeps) (fun _ _ _ => .trans) hab.versions hbc.versions⟩

end Project.Keeps

/-- A step that keeps every item keeps a list of them, also if it fails on the way. -/
theorem Attempt.forall₂_visit {α : Type} {R : α → α → Prop} (hR : ∀ a, R a a)
    {step : α → Attempt α} (h : ∀ a, R a (step a).state) (xs : List α) :
    List.Forall₂ R xs (Attempt.visit step xs).state := by
  induction xs with
  | nil => exact .nil
  | cons x rest ih =>
    rw [visit]
    split
    · exact .cons (h x) (List.forall₂_same.mpr fun a _ => hR a)
    · exact .cons (h x) ih

theorem Project.keeps_visitSets {step : DocSet → Attempt DocSet} (h : ∀ d : DocSet, d.Keeps (step d).state)
    (p : Project) : p.Keeps (p.visitSets step).state :=
  ⟨rfl, rfl, Attempt.forall₂_visit Version.Keeps.refl
    (fun v => ⟨rfl, Attempt.forall₂_visit DocSet.Keeps.refl h v.sets⟩) p.versions⟩

def Pass.Keeps (pass : Pass) : Prop := ∀ services (p : Project), p.Keeps (pass.run services p).state

theorem Pass.keeps_onApiSets {description : String} {priority : Int}
    {step : Services → Settings → ApiSet → Attempt ApiSet}
    (h : ∀ services settings (s : ApiSet), s.Keeps (step services settings s).state) :
    (onApiSets description priority step).Keeps := by
  intro services p
  refine Project.keeps_visitSets (fun d => ?_) p
  cases d with
  | api s => exact .api (h services p.settings s)
  | guide g => exact .refl (.guide g)

namespace Compile

theorem keeps_exampleSets (finder : ExampleFinder) (sets : List DocSet) (done : List Lookup) :
    List.Forall₂ DocSet.Keeps sets (exampleSets finder sets done).1 := by
  induction sets generalizing done with
  | nil => exact .nil
  | cons d rest ih =>
    cases d with
    | api s => exact .cons (.api (keeps_editAllTextsWith _ s done)) (ih _)
    | guide g => exact .cons (.refl _) (ih done)

theorem keeps_exampleVersions (finder : ExampleFinder) (versions : List Version)
    (done : List Lookup) :
    List.Forall₂ Version.Keeps versions (exampleVersions finder versions done).1 := by
  induction versions generalizing done with
  | nil => exact .nil
  | cons v rest ih => exact .cons ⟨rfl, keeps_exampleSets finder v.sets done⟩ (ih _)

theorem keeps_guideContents (router : Router) (g : GuideSet) :
    DocSet.Keeps (.guide g) (.guide (guideContents router g).state) := by
  rw [guideContents]
  split
  · exact .guide rfl rfl
  · dsimp only
    split <;> exact .guide rfl rfl

end Compile

namespace Compiler

theorem keeps_of_passes {c : Compiler} (h : ∀ pass ∈ c.passes, pass.Keeps) (services : Services)
    (p : Project) : p.Keeps (c.compile services p).state := by
  have hfold (passes : List Pass) (hpasses : ∀ pass ∈ passes, pass.Keeps) (acc : Attempt Project)
      (hacc : p.Keeps acc.state) :
      p.Keeps (passes.foldl (fun done q => done.andThen (runPass services q)) acc).state := by
    induction passes generalizing acc with
    | nil => exact hacc
    | cons pass rest ih =>
      refine ih (fun q hq => hpasses q (List.mem_cons_of_mem _ hq)) _ ?_
      show p.Keeps (acc.andThen (runPass services pass)).state
      rw [Attempt.andThen]
      split
      · exact hacc
      · exact hacc.trans (hpasses pass List.mem_cons_self services acc.state)
  exact hfold c.passes h { state := p } (.refl p)

/-- A compilation keeps what the project had. -/
theorem keeps_of_compile (services : Services) (p : Project) :
    p.Keeps (standard.compile services p).state := by
  refine keeps_of_passes (fun pass hpass => ?_) services p
  simp only [passes_standard, List.mem_cons, List.not_mem_nil, or_false] at hpass
  rcases hpass with rfl | rfl | rfl | rfl | rfl | rfl | rfl | rfl | rfl | rfl
  · exact Pass.keeps_onApiSets fun _ settings s => Compile.keeps_buildIndexes settings.strictNames s
  · exact Pass.keeps_onApiSets fun _ _ s => Compile.keeps_linked s
  · exact Pass.keeps_onApiSets fun _ _ s => Compile.keeps_withSpaces s
  · exact Pass.keeps_onApiSets fun _ settings s =>
      Compile.keeps_withPackages settings.defaultPackage s
  · exact Pass.keeps_onApiSets fun _ settings s => Compile.keeps_mark settings.markers s
  · exact fun services p => ⟨rfl, rfl, Compile.keeps_exampleVersions services.finder p.versions []⟩
  · exact Pass.keeps_onApiSets fun _ _ s => Compile.keeps_editAllTextsWith _ s ()
  · exact Pass.keeps_onApiSets fun _ _ s => Compile.keeps_backLink s
  · intro services p
    refine Project.keeps_visitSets (fun d => ?_) p
    cases d with
    | api s => exact .api (Compile.keeps_apiContents services.router s)
    | guide g => exact Compile.keeps_guideContents services.router g
  · exact Pass.keeps_onApiSets fun _ settings s => Compile.keeps_filterSet settings s

end Compiler

end ApiDoc
