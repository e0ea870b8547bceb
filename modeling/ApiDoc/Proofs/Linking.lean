import ApiDoc.Proofs.Canonical
import ApiDoc.Proofs.Listing
import ApiDoc.Proofs.Places

/-!
# What linking does

Linking goes through the listing of a set and writes the references of one element after the other.
The outcome is described by what stands at the spots: tags and bases with their references linked,
each as seen from its own place in the set as it was before, and everything else unchanged. Linking
once more changes nothing, for linked references have full names, which resolve to themselves.
-/

namespace ApiDoc

/-! ### What linking leaves alone -/

/-- Documentation without its tags. -/
def Info.bare (i : Info) : Info := { i with tags := {} }

/-- An element without its tags and without a part of its body. -/
def Element.bare {α : Type} (body : α → α) (e : Element α) : Element α := ⟨e.info.bare, body e.body⟩

def Members.bare (m : Members) : Members where
  methods := m.methods.map (.bare id)
  properties := m.properties.map (.bare id)
  constants := m.constants.map (.bare id)

/-- A class without its bases and without the tags of its members. -/
def ClassBody.bare (b : ClassBody) : ClassBody :=
  { b with parent := none, interfaces := [], usedTraits := [], members := b.members.bare }

def InterfaceBody.bare (b : InterfaceBody) : InterfaceBody :=
  { b with parents := [], members := b.members.bare }

def TraitBody.bare (b : TraitBody) : TraitBody :=
  { b with usedTraits := [], members := b.members.bare }

def File.bare (f : File) : File :=
  { f with
    tags := {}
    classes := f.classes.map (.bare ClassBody.bare)
    interfaces := f.interfaces.map (.bare InterfaceBody.bare)
    traits := f.traits.map (.bare TraitBody.bare)
    functions := f.functions.map (.bare id)
    constants := f.constants.map (.bare id) }

theorem NameMap.map_modify_same {α β : Type} (m : NameMap α) (key : String) {f : α → α}
    {view : α → β} (h : ∀ a, view (f a) = view a) : (m.modify key f).map view = m.map view := by
  refine ext_get? fun other => ?_
  rw [get?_map, get?_map, map_get?_modify_same m key other h]

section Bare

variable {g : Info → Info} (hg : ∀ i, (g i).bare = i.bare)
include hg

theorem Element.bare_mapInfo {α : Type} (body : α → α) (e : Element α) :
    (e.mapInfo g).bare body = e.bare body := by
  rw [bare, mapInfo, hg, bare]

theorem Members.bare_modifyInfo (m : Members) (kind : ElementKind) (name : String) :
    (m.modifyInfo kind name g).bare = m.bare := by
  cases kind with
  | method | property | constant =>
    simp only [modifyInfo, bare, NameMap.map_modify_same _ _ (Element.bare_mapInfo hg id)]
  | «class» | interface | trait | function => rfl

theorem File.bare_modifyInfo (f : File) (kind : ElementKind) (fqsen : Fqsen) :
    (f.modifyInfo kind fqsen g).bare = f.bare := by
  unfold modifyInfo
  split
  · cases fqsen.owner? with
    | none => rfl
    | some owner =>
      have hmembers (m : Members) := m.bare_modifyInfo hg kind fqsen.name
      simp only [modifyMembers]
      split
      · simp only [bare]
        rw [NameMap.map_modify_same _ _ fun e => by simp only [Element.bare, ClassBody.bare, hmembers]]
      · split
        · simp only [bare]
          rw [NameMap.map_modify_same _ _ fun e => by
            simp only [Element.bare, InterfaceBody.bare, hmembers]]
        · simp only [bare]
          rw [NameMap.map_modify_same _ _ fun e => by
            simp only [Element.bare, TraitBody.bare, hmembers]]
  · cases kind with
    | «class» | interface | trait | function | constant =>
      simp only [bare, NameMap.map_modify_same _ _ (Element.bare_mapInfo hg _)]
    | method | property => rfl

end Bare

theorem File.bare_setBases (f : File) (kind : ElementKind) (fqsen : Fqsen) (b : Bases) :
    (f.setBases kind fqsen b).bare = f.bare := by
  cases kind with
  | «class» | interface | trait =>
    simp only [setBases, bare]
    congr 1
    exact NameMap.map_modify_same _ _ fun _ => rfl
  | function | constant | method | property => rfl

/-! ### Files are known by their elements, bases and the rest -/

/-- Elements of a map are known by their items, as far as these show, and the rest. -/
theorem NameMap.ext_elements {α : Type} {m n : NameMap (Element α)} {body : α → α}
    {view : Element α → Item} (hview : ∀ e, (view e).info = e.info)
    (hbare : m.map (Element.bare body) = n.map (Element.bare body))
    (hitem : ∀ key, (m.get? key).map view = (n.get? key).map view)
    (hbody : ∀ key a b, m.get? key = some a → n.get? key = some b → body a.body = body b.body →
      a.body = b.body) : m = n := by
  refine ext_get? fun key => ?_
  have hkey := congrArg (·.get? key) hbare
  simp only [get?_map] at hkey
  have hi := hitem key
  cases hm : m.get? key with
  | none => cases hn : n.get? key <;> simp [hm, hn] at hi ⊢
  | some a =>
    cases hn : n.get? key with
    | none => simp [hm, hn] at hi
    | some b =>
      simp only [hm, hn, Option.map_some, Option.some.injEq] at hkey hi
      have hinfo : a.info = b.info := by rw [← hview a, ← hview b, hi]
      have hsame := hbody key a b hm hn (congrArg Element.body hkey)
      cases a
      cases b
      simp_all

theorem Members.ext_bare {m n : Members} (hbare : m.bare = n.bare)
    (hitem : ∀ kind key, m.item? kind key = n.item? kind key) : m = n := by
  obtain ⟨methods, properties, constants⟩ := m
  obtain ⟨methods', properties', constants'⟩ := n
  simp only [bare, Members.mk.injEq] at hbare ⊢
  exact ⟨NameMap.ext_elements (fun _ => rfl) hbare.1 (hitem .method) fun _ _ _ _ _ h => h,
    NameMap.ext_elements (fun _ => rfl) hbare.2.1 (hitem .property) fun _ _ _ _ _ h => h,
    NameMap.ext_elements (fun _ => rfl) hbare.2.2 (hitem .constant) fun _ _ _ _ _ h => h⟩

/-- Files with the same elements at all spots, the same bases and the same rest are equal. -/
theorem File.ext_bare {f g : File} (hbare : f.bare = g.bare) (htags : f.tags = g.tags)
    (hat : ∀ p, f.at? p = g.at? p) (hbases : ∀ kind key, f.basesAt? kind key = g.basesAt? kind key) :
    f = g := by
  have htop (kind : ElementKind) (key : String) : f.topItem? kind key = g.topItem? kind key :=
    hat (.top kind key)
  have hmembers (kind : ElementKind) (key : String) (m n : Members)
      (hm : f.membersIn? kind key = some m) (hn : g.membersIn? kind key = some n)
      (h : m.bare = n.bare) : m = n := by
    refine Members.ext_bare h fun k name => ?_
    simpa [at?, hm, hn] using hat (.member kind key k name)
  obtain ⟨path, hash, summary, description, tags, package, aliases, includes, classes, interfaces,
    traits, functions, constants, markers, problems, source⟩ := f
  obtain ⟨path', hash', summary', description', tags', package', aliases', includes', classes',
    interfaces', traits', functions', constants', markers', problems', source'⟩ := g
  simp only [bare, File.mk.injEq] at hbare htags ⊢
  obtain ⟨h1, h2, h3, h4, -, h5, h6, h7, hc, hi, ht, hf, hk, h8, h9, h10⟩ := hbare
  refine ⟨h1, h2, h3, h4, htags, h5, h6, h7, ?_, ?_, ?_, ?_, ?_, h8, h9, h10⟩
  · refine NameMap.ext_elements (fun _ => rfl) hc (htop .class) fun key a b ha hb hrest => ?_
    have hm := hmembers .class key a.body.members b.body.members (by simp [membersIn?, ha])
      (by simp [membersIn?, hb]) (congrArg ClassBody.members hrest)
    have hbase := hbases .class key
    obtain ⟨_, parent, interfaces, traits, isAbstract, isFinal, members⟩ := a
    obtain ⟨_, parent', interfaces', traits', isAbstract', isFinal', members'⟩ := b
    simp_all [basesAt?, ClassBody.bare]
  · refine NameMap.ext_elements (fun _ => rfl) hi (htop .interface) fun key a b ha hb hrest => ?_
    have hm := hmembers .interface key a.body.members b.body.members (by simp [membersIn?, ha])
      (by simp [membersIn?, hb]) (congrArg InterfaceBody.members hrest)
    have hbase := hbases .interface key
    obtain ⟨_, parents, members⟩ := a
    obtain ⟨_, parents', members'⟩ := b
    simp_all [basesAt?]
  · refine NameMap.ext_elements (fun _ => rfl) ht (htop .trait) fun key a b ha hb hrest => ?_
    have hm := hmembers .trait key a.body.members b.body.members (by simp [membersIn?, ha])
      (by simp [membersIn?, hb]) (congrArg TraitBody.members hrest)
    have hbase := hbases .trait key
    obtain ⟨_, traits, members⟩ := a
    obtain ⟨_, traits', members'⟩ := b
    simp_all [basesAt?]
  · exact NameMap.ext_elements (fun _ => rfl) hf (htop .function) fun _ _ _ _ _ h => h
  · exact NameMap.ext_elements (fun _ => rfl) hk (htop .constant) fun _ _ _ _ _ h => h

/-- Which class-likes there are is no matter of tags and bases. -/
theorem File.isSome_basesAt?_congr {f g : File} (h : f.bare = g.bare) (kind : ElementKind)
    (key : String) : (f.basesAt? kind key).isSome = (g.basesAt? kind key).isSome := by
  cases kind with
  | «class» => simpa [basesAt?, bare] using congrArg (fun f => (f.classes.get? key).isSome) h
  | interface => simpa [basesAt?, bare] using congrArg (fun f => (f.interfaces.get? key).isSome) h
  | trait => simpa [basesAt?, bare] using congrArg (fun f => (f.traits.get? key).isSome) h
  | function | constant | method | property => rfl

/-! ### One element after the other -/

/-- Replacing what a class-like is built on by what it was built on before, changed. -/
theorem File.basesAt?_setBases_map {f old : File} {kind : ElementKind} {fqsen : Fqsen} {b : Bases}
    (hsome : (f.basesAt? kind fqsen.text).isSome) (hold : old.basesAt? kind fqsen.text = some b)
    (h : Reference → Reference) :
    (f.setBases kind fqsen (b.map h)).basesAt? kind fqsen.text = some (b.map h) := by
  obtain ⟨found, hfound⟩ := Option.isSome_iff_exists.mp hsome
  cases kind with
  | «class» | interface | trait =>
    obtain ⟨e, he, rfl⟩ := Option.map_eq_some_iff.mp hfound
    obtain ⟨o, ho, rfl⟩ := Option.map_eq_some_iff.mp hold
    simp [setBases, basesAt?, he, Bases.map]
  | function | constant | method | property => simp [basesAt?] at hfound

theorem File.basesAt?_setBases_of_ne {f : File} {kind k : ElementKind} {fqsen : Fqsen} {key : String}
    (h : ¬ (k = kind ∧ key = fqsen.text)) (b : Bases) :
    (f.setBases kind fqsen b).basesAt? k key = f.basesAt? k key := by
  cases kind with
  | «class» | interface | trait =>
    cases k <;> simp_all [setBases, basesAt?, NameMap.get?_modify]
  | function | constant | method | property => rfl

namespace Compile

section Folding

variable {s : ApiSet} {f : File}

theorem bare_linkElement (ref : ElementRef) (item : Item) (old g : File) :
    (linkElement s ref item old g).bare = g.bare := by
  have hkept (i : Info) : Info.bare { i with tags := linkTags s (s.scopeOf ref) item.info.tags } =
      i.bare := rfl
  rw [linkElement, File.bare_modifyInfo hkept, File.bare_setBases]

/-- What is not changed while elements are linked. -/
theorem bare_foldl_linkElement (entries : List (ElementRef × Item)) (g : File) :
    (entries.foldl (fun g e => linkElement s e.1 e.2 f g) g).bare = g.bare ∧
      (entries.foldl (fun g e => linkElement s e.1 e.2 f g) g).tags = g.tags := by
  induction entries generalizing g with
  | nil => exact ⟨rfl, rfl⟩
  | cons e rest ih =>
    obtain ⟨hbare, htags⟩ := ih (linkElement s e.1 e.2 f g)
    exact ⟨hbare.trans (bare_linkElement ..), htags.trans (g.tags_setBases_modifyInfo ..)⟩

/-- The element at a spot gets its tags from the elements that are linked there, if these all have
the same ones. -/
theorem at?_foldl_linkElement {p : Spot} (tags : Tags) (entries : List (ElementRef × Item))
    (htags : ∀ e ∈ entries, f.spotOf e.1.kind e.1.fqsen = some p →
      linkTags s (s.scopeOf e.1) e.2.info.tags = tags) (g : File)
    (hg : ∀ kind fqsen, g.spotOf kind fqsen = f.spotOf kind fqsen) :
    ((∀ e ∈ entries, f.spotOf e.1.kind e.1.fqsen ≠ some p) →
      (entries.foldl (fun g e => linkElement s e.1 e.2 f g) g).at? p = g.at? p) ∧
    ((∃ e ∈ entries, f.spotOf e.1.kind e.1.fqsen = some p) →
      (entries.foldl (fun g e => linkElement s e.1 e.2 f g) g).at? p =
        (g.at? p).map (Item.mapInfo fun i => { i with tags := tags })) := by
  induction entries generalizing g with
  | nil => simp
  | cons e rest ih =>
    have hkeeps : KeepsName fun i =>
        { i with tags := linkTags s (s.scopeOf e.1) e.2.info.tags } := fun _ => rfl
    have hstep : (linkElement s e.1 e.2 f g).at? p =
        if f.spotOf e.1.kind e.1.fqsen = some p then
          (g.at? p).map
            (Item.mapInfo fun i => { i with tags := linkTags s (s.scopeOf e.1) e.2.info.tags })
        else g.at? p := by
      rw [linkElement, File.at?_setBases_modifyInfo g e.1.kind e.1.fqsen _ hkeeps, hg]
    have hspots (kind : ElementKind) (fqsen : Fqsen) :
        (linkElement s e.1 e.2 f g).spotOf kind fqsen = f.spotOf kind fqsen := by
      rw [(retouch_linkElement s e.1 e.2 f g).spotOf_eq, hg]
    obtain ⟨haway, hthere⟩ := ih (fun e he => htags e (List.mem_cons_of_mem _ he)) _ hspots
    refine ⟨fun hnone => ?_, fun hsome => ?_⟩
    · rw [List.foldl_cons, haway fun e he => hnone e (List.mem_cons_of_mem _ he), hstep,
        if_neg (hnone e List.mem_cons_self)]
    · rw [List.foldl_cons]
      by_cases hrest : ∃ e ∈ rest, f.spotOf e.1.kind e.1.fqsen = some p
      · rw [hthere hrest, hstep]
        split
        · cases g.at? p <;> rfl
        · rfl
      · have he : f.spotOf e.1.kind e.1.fqsen = some p := by
          obtain ⟨found, hfound, hspot⟩ := hsome
          rcases List.mem_cons.mp hfound with rfl | hfound
          · exact hspot
          · exact absurd ⟨found, hfound, hspot⟩ hrest
        rw [haway fun e he heq => hrest ⟨e, he, heq⟩, hstep, if_pos he,
          htags e List.mem_cons_self he]

/-- A class-like gets its bases from those that are linked there, if these are all seen from the
same place. -/
theorem basesAt?_foldl_linkElement {kind : ElementKind} {key : String} {scope : Scope} {b : Bases}
    (hb : f.basesAt? kind key = some b) (entries : List (ElementRef × Item))
    (hscope : ∀ e ∈ entries, e.1.kind = kind → e.1.fqsen.text = key → s.scopeOf e.1 = scope)
    (g : File) (hg : (g.basesAt? kind key).isSome) :
    ((∀ e ∈ entries, ¬ (e.1.kind = kind ∧ e.1.fqsen.text = key)) →
      (entries.foldl (fun g e => linkElement s e.1 e.2 f g) g).basesAt? kind key =
        g.basesAt? kind key) ∧
    ((∃ e ∈ entries, e.1.kind = kind ∧ e.1.fqsen.text = key) →
      (entries.foldl (fun g e => linkElement s e.1 e.2 f g) g).basesAt? kind key =
        some (b.map (linkReference s scope))) := by
  induction entries generalizing g with
  | nil => simp
  | cons e rest ih =>
    have hrest := ih fun e he => hscope e (List.mem_cons_of_mem _ he)
    by_cases he : e.1.kind = kind ∧ e.1.fqsen.text = key
    · have hstep : (linkElement s e.1 e.2 f g).basesAt? kind key =
          some (b.map (linkReference s scope)) := by
        obtain ⟨rfl, rfl⟩ := he
        rw [linkElement, File.basesAt?_modifyInfo, File.bases_eq, hb,
          hscope e List.mem_cons_self rfl rfl]
        exact File.basesAt?_setBases_map hg hb _
      obtain ⟨haway, hthere⟩ := hrest (linkElement s e.1 e.2 f g) (by rw [hstep]; rfl)
      refine ⟨fun hnone => absurd he (hnone e List.mem_cons_self), fun _ => ?_⟩
      rw [List.foldl_cons]
      by_cases hmore : ∃ e ∈ rest, e.1.kind = kind ∧ e.1.fqsen.text = key
      · exact hthere hmore
      · rw [haway fun e he heq => hmore ⟨e, he, heq⟩, hstep]
    · have hstep : (linkElement s e.1 e.2 f g).basesAt? kind key = g.basesAt? kind key := by
        rw [linkElement, File.basesAt?_modifyInfo]
        exact File.basesAt?_setBases_of_ne (fun h => he ⟨h.1.symm, h.2.symm⟩) _
      obtain ⟨haway, hthere⟩ := hrest (linkElement s e.1 e.2 f g) (by rwa [hstep])
      refine ⟨fun hnone => ?_, fun hsome => ?_⟩
      · rw [List.foldl_cons, haway fun e he => hnone e (List.mem_cons_of_mem _ he), hstep]
      · obtain ⟨found, hfound, hkey⟩ := hsome
        rcases List.mem_cons.mp hfound with rfl | hfound
        · exact absurd hkey he
        · exact hthere ⟨found, hfound, hkey⟩

end Folding

/-- The file of a number in the linked set: its own tags are linked, then its elements. -/
theorem file?_linked {s : ApiSet} {id : Nat} {f : File} (hf : s.file? id = some f) :
    (linked s).file? id = some ((s.present.filter fun e => e.1.file = id).foldl
      (fun g e => linkElement s e.1 e.2 f g) { f with tags := linkTags s (.ofFile f) f.tags }) := by
  have hfold (entries : List (ElementRef × Item)) (acc : ApiSet) (g : File)
      (hg : acc.file? id = some g) :
      (entries.foldl (linkStep s) acc).file? id =
      some ((entries.filter fun e => e.1.file = id).foldl
        (fun g e => linkElement s e.1 e.2 f g) g) := by
    induction entries generalizing acc g with
    | nil => exact hg
    | cons e rest ih =>
      obtain ⟨ref, item⟩ := e
      rw [List.foldl_cons]
      by_cases he : ref.file = id
      · rw [List.filter_cons_of_pos (by simpa using he), List.foldl_cons]
        refine ih _ _ ?_
        simp [linkStep, he, hf, ApiSet.file?_modifyFile, hg]
      · rw [List.filter_cons_of_neg (by simpa using he)]
        refine ih _ _ ?_
        cases hold : s.file? ref.file with
        | none => simpa [linkStep, hold] using hg
        | some old => simp [linkStep, hold, ApiSet.file?_modifyFile, he, hg]
  refine hfold s.present _ _ ?_
  rw [ApiSet.file?] at hf
  simp [ApiSet.file?, hf]

end Compile

/-! ### Places of elements -/

namespace Fqsen

theorem chars_of_owner? {f owner : Fqsen} (h : f.owner? = some owner) : f.ownerChars = owner.chars := by
  obtain ⟨⟨front, back⟩, hcut, rfl⟩ := Option.map_eq_some_iff.mp h
  rw [ownerChars, hcut, chars_ofChars]

/-- Members of one owner are declared in the same namespace. -/
theorem enclosing_eq_of_owner? {f g owner : Fqsen} (hf : f.owner? = some owner)
    (hg : g.owner? = some owner) : f.enclosing = g.enclosing := by
  rw [enclosing, enclosing, chars_of_owner? hf, chars_of_owner? hg]

end Fqsen

/-- All addresses that lead to an element are seen from the same place. -/
theorem File.Keyed.scope_eq {f : File} (hf : f.Keyed) {kind : ElementKind} {fqsen : Fqsen} {p : Spot}
    {item : Item} (hp : f.spotOf kind fqsen = some p) (hi : f.at? p = some item) :
    Scope.ofElement f kind fqsen = Scope.ofElement f item.kind item.info.fqsen := by
  have hnames := hf p item hi
  cases h : throughOwner kind fqsen with
  | true =>
    obtain ⟨owner, k, ho, hk, rfl⟩ := spotOf_eq_member h hp
    obtain ⟨hkind, hthrough, howner, hname⟩ := hnames
    have hcontainer : ¬ kind.isContainer = true := fun hc => by simp [throughOwner_eq_false hc] at h
    rw [Scope.ofElement, Scope.ofElement, hkind, ho, howner,
      Fqsen.enclosing_eq_of_owner? ho howner, if_neg hcontainer, if_neg hcontainer]
  | false =>
    rw [spotOf_of_not_throughOwner f h] at hp
    cases hp
    obtain ⟨hkind, htext⟩ := hnames
    rw [hkind, Fqsen.eq_of_text_eq htext]

theorem ApiSet.scopeOf_eq {s : ApiSet} {ref : ElementRef} {f : File}
    (hf : s.file? ref.file = some f) : s.scopeOf ref = .ofElement f ref.kind ref.fqsen := by
  rw [scopeOf, hf]

/-! ### Linked sets -/

/-- An element with the references of its tags linked, as they are seen from its place in a file. -/
def Item.linkedIn (s : ApiSet) (f : File) (item : Item) : Item :=
  item.mapInfo fun i =>
    { i with tags := Compile.linkTags s (.ofElement f item.kind item.info.fqsen) i.tags }

/-- A file with references linked: those of its own tags, of what its class-likes are built on, and
of the tags of its elements at the chosen spots. Everything else is as it was. -/
structure File.LinkedAt (s : ApiSet) (f : File) (chosen : Spot → Prop) (g : File) : Prop where
  rest : g.bare = f.bare
  own : g.tags = Compile.linkTags s (.ofFile f) f.tags
  bases : ∀ kind key, g.basesAt? kind key =
    (f.basesAt? kind key).map (Bases.map (Compile.linkReference s (.ofElement f kind ⟨key⟩)))
  here : ∀ p, chosen p → g.at? p = (f.at? p).map (Item.linkedIn s f)
  away : ∀ p, ¬ chosen p → g.at? p = f.at? p

/-- A set with the references of its files linked, and those of elements at the chosen spots. -/
structure ApiSet.LinkedAt (s : ApiSet) (chosen : File → Spot → Prop) (t : ApiSet) : Prop where
  rest : t = { s with files := t.files }
  length_eq : t.files.length = s.files.length
  files : ∀ id f g, s.file? id = some f → t.file? id = some g → f.LinkedAt s (chosen f) g

/-- The spots that addresses lead to. -/
def File.Reached (f : File) (p : Spot) : Prop := ∃ kind fqsen, f.spotOf kind fqsen = some p

theorem File.Keyed.reached_iff {f : File} (hf : f.Keyed) {p : Spot} {item : Item}
    (hi : f.at? p = some item) : f.Reached p ↔ f.spotOf item.kind item.info.fqsen = some p :=
  ⟨fun ⟨_, _, hp⟩ => hf.spotOf_self hp hi, fun hp => ⟨_, _, hp⟩⟩

/-- What a set is linked to is determined. -/
theorem ApiSet.LinkedAt.unique {s t u : ApiSet} {chosen : File → Spot → Prop}
    (ht : s.LinkedAt chosen t) (hu : s.LinkedAt chosen u) : t = u := by
  have hfiles : t.files = u.files := by
    refine List.ext_getElem? fun id => ?_
    have hlength := ht.length_eq.trans hu.length_eq.symm
    cases hs : s.file? id with
    | none =>
      have hlong : s.files.length ≤ id := List.getElem?_eq_none_iff.mp hs
      rw [List.getElem?_eq_none (by rw [ht.length_eq]; exact hlong),
        List.getElem?_eq_none (by rw [hu.length_eq]; exact hlong)]
    | some f =>
      obtain ⟨hlt, -⟩ := List.getElem?_eq_some_iff.mp hs
      obtain ⟨g, hg⟩ : ∃ g, t.file? id = some g :=
        ⟨_, List.getElem?_eq_getElem (by rw [ht.length_eq]; exact hlt)⟩
      obtain ⟨h, hh⟩ : ∃ h, u.file? id = some h :=
        ⟨_, List.getElem?_eq_getElem (by rw [hu.length_eq]; exact hlt)⟩
      have hleft := ht.files id f g hs hg
      have hright := hu.files id f h hs hh
      have hsame : g = h := by
        refine File.ext_bare (hleft.rest.trans hright.rest.symm) (hleft.own.trans hright.own.symm)
          (fun p => ?_) fun kind key => (hleft.bases kind key).trans (hright.bases kind key).symm
        by_cases hp : chosen f p
        · rw [hleft.here p hp, hright.here p hp]
        · rw [hleft.away p hp, hright.away p hp]
      exact hg.trans (hsame ▸ hh.symm)
  rw [ht.rest, hu.rest, hfiles]

namespace Compile

/-- Linking changes nothing but files. -/
theorem linked_eq (s : ApiSet) : linked s = { s with files := (linked s).files } := by
  have hfold (entries : List (ElementRef × Item)) (acc : ApiSet) :
      ∃ files, entries.foldl (linkStep s) acc = { acc with files := files } := by
    induction entries generalizing acc with
    | nil => exact ⟨acc.files, rfl⟩
    | cons e rest ih =>
      obtain ⟨ref, item⟩ := e
      rw [List.foldl_cons]
      cases hold : s.file? ref.file with
      | none => simpa only [linkStep, hold] using ih acc
      | some old =>
        obtain ⟨files, hfiles⟩ := ih (acc.modifyFile ref.file (linkElement s ref item old))
        simp only [linkStep, hold]
        exact ⟨files, hfiles⟩
  obtain ⟨files, hfiles⟩ := hfold s.present
    { s with files := s.files.map fun f => { f with tags := linkTags s (.ofFile f) f.tags } }
  have hlinked : linked s = { s with files := files } := hfiles
  rw [hlinked]

/-- Addresses and elements of a file: each with its scope and under its address, and all elements
that addresses lead to are among them. -/
structure Enlists (s : ApiSet) (f : File) (entries : List (ElementRef × Item)) : Prop where
  scope_eq : ∀ e ∈ entries, s.scopeOf e.1 = .ofElement f e.1.kind e.1.fqsen
  item_eq : ∀ e ∈ entries, f.item? e.1.kind e.1.fqsen = some e.2
  exists_entry : ∀ p item, f.Reached p → f.at? p = some item →
    ∃ e ∈ entries, e.1.kind = item.kind ∧ e.1.fqsen = item.info.fqsen

section Enlisted

variable {s : ApiSet} {f : File} {entries : List (ElementRef × Item)}
  (h : Enlists s f entries)

include h in
theorem Enlists.at?_eq {e : ElementRef × Item} (he : e ∈ entries) {p : Spot}
    (hp : f.spotOf e.1.kind e.1.fqsen = some p) : f.at? p = some e.2 := by
  have hitem := h.item_eq e he
  rwa [File.item?_eq, hp, Option.bind_some] at hitem

theorem at?_ownTags (f : File) (own : Tags) (p : Spot) :
    File.at? { f with tags := own } p = f.at? p := File.at?_congr rfl rfl rfl rfl rfl p

theorem spotOf_ownTags (f : File) (own : Tags) (kind : ElementKind) (fqsen : Fqsen) :
    File.spotOf { f with tags := own } kind fqsen = f.spotOf kind fqsen := rfl

theorem isSome_basesAt?_ownTags (f : File) (own : Tags) (kind : ElementKind) (key : String) :
    (File.basesAt? { f with tags := own } kind key).isSome = (f.basesAt? kind key).isSome :=
  File.isSome_basesAt?_congr rfl kind key

/-- Elements to which no entry leads are not linked. -/
theorem at?_foldl_linkElement_of_forall_ne {p : Spot} (own : Tags)
    (hp : ∀ e ∈ entries, f.spotOf e.1.kind e.1.fqsen ≠ some p) :
    (entries.foldl (fun g e => linkElement s e.1 e.2 f g) { f with tags := own }).at? p =
      f.at? p :=
  ((at?_foldl_linkElement {} entries (fun e he heq => absurd heq (hp e he)) _
    (spotOf_ownTags f own)).1 hp).trans (at?_ownTags f own p)

variable (hkeyed : f.Keyed) (own : Tags)
include h hkeyed

/-- What class-likes are built on is linked with the class-likes, all of which are enlisted. -/
theorem Enlists.basesAt?_foldl (kind : ElementKind) (key : String) :
    (entries.foldl (fun g e => linkElement s e.1 e.2 f g) { f with tags := own }).basesAt? kind key =
      (f.basesAt? kind key).map (Bases.map (linkReference s (.ofElement f kind ⟨key⟩))) := by
  have hbare := (bare_foldl_linkElement (s := s) (f := f) entries { f with tags := own }).1
  cases hb : f.basesAt? kind key with
  | none =>
    have hnone := File.isSome_basesAt?_congr hbare kind key
    rw [isSome_basesAt?_ownTags f own, hb] at hnone
    simpa using hnone
  | some b =>
    have hthere : (File.basesAt? { f with tags := own } kind key).isSome := by
      rw [isSome_basesAt?_ownTags f own, hb]
      rfl
    obtain ⟨hcontainer, hsome⟩ := File.isSome_topItem?_of_basesAt? hb
    obtain ⟨item, hitem⟩ := Option.isSome_iff_exists.mp hsome
    obtain ⟨hkind, htext⟩ := hkeyed.kind_eq_of_top hitem
    have hreached : f.Reached (.top kind key) :=
      ⟨kind, ⟨key⟩, f.spotOf_of_not_throughOwner (File.throughOwner_eq_false hcontainer _)⟩
    obtain ⟨e, he, hekind, hefqsen⟩ := h.exists_entry _ item hreached hitem
    refine (basesAt?_foldl_linkElement hb entries (fun e he hk hkey => ?_) _ hthere).2
      ⟨e, he, hekind.trans hkind, hefqsen ▸ htext⟩
    rw [h.scope_eq e he, hk, Fqsen.eq_of_text_eq (b := ⟨key⟩) hkey]

/-- The element at a spot is linked, if an address leads there. -/
theorem Enlists.at?_foldl_of_reached {p : Spot} (hp : f.Reached p) :
    (entries.foldl (fun g e => linkElement s e.1 e.2 f g) { f with tags := own }).at? p =
      (f.at? p).map (Item.linkedIn s f) := by
  cases hi : f.at? p with
  | none =>
    have haway (e : ElementRef × Item) (he : e ∈ entries) :
        f.spotOf e.1.kind e.1.fqsen ≠ some p := fun heq => by simp [h.at?_eq he heq] at hi
    rw [at?_foldl_linkElement_of_forall_ne own haway, hi]
    rfl
  | some item =>
    have hsame (e : ElementRef × Item) (he : e ∈ entries)
        (heq : f.spotOf e.1.kind e.1.fqsen = some p) :
        linkTags s (s.scopeOf e.1) e.2.info.tags =
          linkTags s (.ofElement f item.kind item.info.fqsen) item.info.tags := by
      have hitem := h.at?_eq he heq
      rw [hi, Option.some.injEq] at hitem
      rw [h.scope_eq e he, hkeyed.scope_eq heq hi, hitem]
    obtain ⟨kind, fqsen, hspot⟩ := hp
    obtain ⟨e, he, hkind, hfqsen⟩ := h.exists_entry p item ⟨kind, fqsen, hspot⟩ hi
    have hthere : f.spotOf e.1.kind e.1.fqsen = some p := by
      rw [hkind, hfqsen, hkeyed.spotOf_self hspot hi]
    rw [(at?_foldl_linkElement _ entries hsame _ (spotOf_ownTags f own)).2 ⟨e, he, hthere⟩,
      at?_ownTags, hi]
    simp only [Option.map_some, Item.linkedIn, Item.mapInfo]

/-- The elements of a file are linked one after the other, and each of them is among those that are
linked. -/
theorem Enlists.linkedAt_foldl :
    f.LinkedAt s f.Reached (entries.foldl (fun g e => linkElement s e.1 e.2 f g)
      { f with tags := linkTags s (.ofFile f) f.tags }) := by
  obtain ⟨hbare, htags⟩ := bare_foldl_linkElement (s := s) (f := f) entries
    { f with tags := linkTags s (.ofFile f) f.tags }
  exact ⟨hbare, htags, h.basesAt?_foldl hkeyed _, fun p hp => h.at?_foldl_of_reached hkeyed _ hp,
    fun p hp => at?_foldl_linkElement_of_forall_ne _ fun e _ heq => hp ⟨_, _, heq⟩⟩

end Enlisted

theorem mem_present_of_reached {s : ApiSet} {id : Nat} {f : File} (hf : s.file? id = some f)
    (hkeyed : f.Keyed) {kind : ElementKind} {fqsen : Fqsen} {p : Spot} {item : Item}
    (hp : f.spotOf kind fqsen = some p) (hi : f.at? p = some item) :
    (⟨id, item.kind, item.info.fqsen⟩, item) ∈ s.present := by
  refine ApiSet.mem_present_iff.mpr ⟨?_, ?_⟩
  · exact ApiSet.mem_allElements_iff.mpr ⟨f, hf, hkeyed.mem_declared hi (File.lists_of_spotOf hp)⟩
  · rw [ApiSet.item?, hf, Option.bind_some, File.item?_eq, hkeyed.spotOf_self hp hi,
      Option.bind_some, hi]

theorem linkedAt_linked {s : ApiSet} (hs : s.Keyed) : s.LinkedAt File.Reached (linked s) := by
  refine ⟨linked_eq s, (retouch_linked s).length_eq, fun id f g hf hg => ?_⟩
  have hkeyed := hs id f hf
  rw [file?_linked hf, Option.some.injEq] at hg
  subst hg
  refine Enlists.linkedAt_foldl ⟨fun e he => ?_, fun e he => ?_, fun p item hp hi => ?_⟩ hkeyed
  · have hid : e.1.file = id := by simpa using (List.mem_filter.mp he).2
    exact ApiSet.scopeOf_eq (hid ▸ hf)
  · obtain ⟨hpresent, hid⟩ := List.mem_filter.mp he
    have hid : e.1.file = id := by simpa using hid
    have hitem := (ApiSet.mem_present_iff.mp hpresent).2
    rwa [ApiSet.item?, hid, hf, Option.bind_some] at hitem
  · obtain ⟨kind, fqsen, hspot⟩ := hp
    exact ⟨(⟨id, item.kind, item.info.fqsen⟩, item),
      List.mem_filter.mpr ⟨mem_present_of_reached hf hkeyed hspot hi, by simp⟩, rfl, rfl⟩

end Compile

/-! ### Clean places -/

/-- A name without blanks, colons and arrows. -/
def Fqsen.Clean (f : Fqsen) : Prop := ':' ∉ f.chars ∧ Text.Tidy f.chars

/-- The namespace, the targets of aliases and the container have no blanks, colons and arrows. -/
structure Scope.Clean (s : Scope) : Prop where
  space : s.space.Clean
  aliases : ∀ name target, s.aliases.get? name = some target → target.Clean
  container : ∀ c, s.container = some c → c.Clean

/-- The namespace, the targets of aliases and the container are full names. -/
structure Scope.Rooted (s : Scope) : Prop where
  space : s.space.Rooted
  aliases : ∀ name target, s.aliases.get? name = some target → target.Rooted
  container : ∀ c, s.container = some c → c.Rooted

theorem Scope.Clean.tidy {s : Scope} (h : s.Clean) (hr : s.Rooted) : s.Tidy where
  space := ⟨hr.space, h.space.1, h.space.2⟩
  aliases name target ht :=
    ⟨hr.aliases name target ht, (h.aliases name target ht).1, (h.aliases name target ht).2⟩
  container c hc := ⟨hr.container c hc, (h.container c hc).1, (h.container c hc).2⟩

namespace Fqsen

theorem Rooted.owner? {f owner : Fqsen} (h : f.Rooted) (ho : f.owner? = some owner) :
    owner.Rooted := by
  obtain ⟨⟨front, back⟩, hcut, rfl⟩ := Option.map_eq_some_iff.mp ho
  have hchars := Text.append_of_cut? hcut
  rw [Rooted] at h ⊢
  rw [chars_ofChars]
  cases front with
  | nil => simp [← hchars, memberSeparator] at h
  | cons c front => simpa [← hchars] using h

theorem Rooted.enclosing {f : Fqsen} (h : f.Rooted) : f.enclosing.Rooted := by
  have howner : f.ownerChars.head? = some '\\' := by
    cases ho : f.owner? with
    | some owner => exact (chars_of_owner? ho).symm ▸ h.owner? ho
    | none =>
      rw [Fqsen.owner?, Option.map_eq_none_iff] at ho
      rwa [ownerChars, ho]
  rw [Fqsen.enclosing]
  split
  · exact plain_root.1
  · exact plain_root.1
  · next front back hne hcut =>
    have hchars := Text.append_of_cutLast? hcut
    rw [Rooted, chars_ofChars]
    cases front with
    | nil => exact absurd rfl hne
    | cons c front => simpa [← hchars] using howner

end Fqsen

theorem Scope.rooted_ofElement {f : File} (hf : f.AsRead) (kind : ElementKind) {fqsen : Fqsen}
    (h : fqsen.Rooted) : (Scope.ofElement f kind fqsen).Rooted := by
  refine ⟨h.enclosing, hf.aliases, fun c hc => ?_⟩
  rw [ofElement] at hc
  dsimp only at hc
  split at hc
  · cases hc
    exact h
  · exact h.owner? hc

theorem Scope.rooted_ofFile {f : File} (hf : f.AsRead) : (Scope.ofFile f).Rooted :=
  ⟨Fqsen.plain_root.1, hf.aliases, by simp [ofFile]⟩

/-! ### Linking twice -/

theorem Bases.map_map (h k : Reference → Reference) (b : Bases) :
    (b.map h).map k = b.map fun r => k (h r) := by
  simp [Bases.map, Function.comp_def]

theorem Bases.map_congr {b : Bases} {h k : Reference → Reference} (heq : ∀ r ∈ b.all, h r = k r) :
    b.map h = b.map k := by
  obtain ⟨parent, interfaces, traits⟩ := b
  simp only [Bases.all, List.mem_append, Option.mem_toList] at heq
  simp only [Bases.map, Bases.mk.injEq]
  refine ⟨?_, List.map_congr_left fun r hr => heq r (.inl (.inr hr)),
    List.map_congr_left fun r hr => heq r (.inr hr)⟩
  cases parent with
  | none => rfl
  | some r => simp [heq r (.inl (.inl rfl))]

namespace Compile

/-- A text that starts with the separator is no URL. -/
theorem isUrl_of_rooted {target : String} (h : target.toList.head? = some Fqsen.separator) :
    isUrl target = false := by
  rw [isUrl]
  split
  · next scheme rest hcut =>
    cases scheme with
    | nil => rfl
    | cons c scheme =>
      have hchars := Text.append_of_cut? hcut
      obtain rfl : c = Fqsen.separator := by simpa [← hchars] using h
      simp [Fqsen.separator]
  · rfl

theorem linkReference_congr {s t : ApiSet} (h : t.frame = s.frame) :
    linkReference t = linkReference s := by
  funext scope r
  have hlookup : t.lookup = s.lookup := funext (ApiSet.lookup_congr h)
  simp only [linkReference, ApiSet.resolve, hlookup]

theorem linkTags_congr {s t : ApiSet} (h : t.frame = s.frame) : linkTags t = linkTags s := by
  funext scope tags
  simp only [linkTags, linkReference_congr h]

/-- A reference in order is linked once and for all. -/
theorem linkReference_linkReference (s : ApiSet) {scope : Scope} {r : Reference}
    (h : isUrl r.target = false → Resolution.Writable r.target.toList ∧ scope.Tidy) :
    linkReference s scope (linkReference s scope r) = linkReference s scope r := by
  cases hurl : isUrl r.target with
  | true =>
    have hself : linkReference s scope r = r := by rw [linkReference, if_pos hurl]
    rw [hself, hself]
  | false =>
    obtain ⟨hname, hscope⟩ := h hurl
    have hroot : (s.resolve r.target scope).text.toList.head? = some Fqsen.separator :=
      Resolution.rooted_text_resolve hname hscope
    have hagain : s.resolve (s.resolve r.target scope).text scope = s.resolve r.target scope :=
      Resolution.resolve_text_resolve hname hscope scope
    have hfirst : linkReference s scope r =
        ⟨(s.resolve r.target scope).text, (s.resolve r.target scope).target?⟩ := by
      rw [linkReference, if_neg (by simp [hurl])]
    rw [hfirst, linkReference, if_neg (by simp [isUrl_of_rooted hroot])]
    simp only [hagain]

/-- Tags are linked once and for all, if each of their references is. -/
theorem linkTags_linkTags (s : ApiSet) {scope : Scope} {tags : Tags}
    (h : ∀ r ∈ linkable tags,
      linkReference s scope (linkReference s scope r) = linkReference s scope r) :
    linkTags s scope (linkTags s scope tags) = linkTags s scope tags := by
  have hnames : (linkTags s scope (linkTags s scope tags)).byName =
      (linkTags s scope tags).byName := by
    refine NameMap.ext_get? fun name => ?_
    rw [get?_linkTags, get?_linkTags]
    cases hname : tags.byName.get? name with
    | none => rfl
    | some group =>
      by_cases hlinked : name ∈ linkedTags
      · simp only [hlinked, if_true, Option.map_some, List.map_map, Option.some.injEq]
        refine List.map_congr_left fun t ht => ?_
        cases hbody : t.body with
        | reference r =>
          have hr : r ∈ linkable tags := by
            refine List.mem_flatMap.mpr ⟨name, hlinked, List.mem_filterMap.mpr ⟨t, ?_, ?_⟩⟩
            · simpa [Tags.get, hname] using ht
            · simp [Tag.reference?, hbody]
          simp [Tag.mapReference, hbody, h r hr]
        | plain | typed | typedVariable | magicMethod => simp [Tag.mapReference, hbody]
      · simp [hlinked]
  exact congrArg Tags.mk hnames

/-- The references that linking reaches, each with the place it is seen from. -/
def seen (s : ApiSet) : List (Scope × Reference) :=
  s.files.flatMap (fun f => (linkable f.tags).map fun r => (.ofFile f, r)) ++
    s.present.flatMap fun (ref, item) =>
      let f := (s.file? ref.file).getD default
      ((f.bases ref.kind ref.fqsen).all ++ linkable item.info.tags).map fun r => (s.scopeOf ref, r)

/-- Reached references that are no URLs can be written as names, and are seen from clean places. -/
def Orderly (s : ApiSet) : Prop :=
  ∀ e ∈ seen s, isUrl e.2.target = false → Resolution.Writable e.2.target.toList ∧ e.1.Clean

section Twice

variable {s : ApiSet} (hs : ∀ f ∈ s.files, f.AsRead) (ho : Orderly s)
include hs ho

theorem linkReference_of_mem_tags {f : File} (hf : f ∈ s.files) {r : Reference}
    (hr : r ∈ linkable f.tags) :
    linkReference s (.ofFile f) (linkReference s (.ofFile f) r) = linkReference s (.ofFile f) r := by
  refine linkReference_linkReference s fun hurl => ?_
  have hmem : (Scope.ofFile f, r) ∈ seen s := by
    refine List.mem_append_left _ (List.mem_flatMap.mpr ⟨f, hf, ?_⟩)
    exact List.mem_map.mpr ⟨r, hr, rfl⟩
  obtain ⟨hname, hclean⟩ := ho _ hmem hurl
  exact ⟨hname, hclean.tidy (Scope.rooted_ofFile (hs f hf))⟩

/-- References of an element that an address leads to. -/
theorem linkReference_of_reached {id : Nat} {f : File} (hf : s.file? id = some f) {p : Spot}
    {item : Item} (hp : f.Reached p) (hi : f.at? p = some item) {r : Reference}
    (hr : r ∈ (f.bases item.kind item.info.fqsen).all ++ linkable item.info.tags) :
    linkReference s (.ofElement f item.kind item.info.fqsen)
        (linkReference s (.ofElement f item.kind item.info.fqsen) r) =
      linkReference s (.ofElement f item.kind item.info.fqsen) r := by
  have hread := hs f (List.mem_of_getElem? hf)
  refine linkReference_linkReference s fun hurl => ?_
  have hmem : (Scope.ofElement f item.kind item.info.fqsen, r) ∈ seen s := by
    obtain ⟨kind, fqsen, hspot⟩ := hp
    refine List.mem_append_right _ (List.mem_flatMap.mpr
      ⟨(⟨id, item.kind, item.info.fqsen⟩, item), mem_present_of_reached hf hread.keyed hspot hi, ?_⟩)
    simp only [hf, Option.getD_some, ApiSet.scopeOf]
    exact List.mem_map.mpr ⟨r, hr, rfl⟩
  obtain ⟨hname, hclean⟩ := ho _ hmem hurl
  exact ⟨hname, hclean.tidy (Scope.rooted_ofElement hread item.kind (hread.sound hi).rooted)⟩

/-- Linking once more changes nothing. -/
theorem linked_linked : linked (linked s) = linked s := by
  have hkeyed : s.Keyed := fun id f hf => (hs f (List.mem_of_getElem? hf)).keyed
  have hlinked := linkedAt_linked hkeyed
  have hframe := frame_linked s
  have hretouch := retouch_linked s
  have heta (t : ApiSet) : t = { t with files := t.files } := rfl
  refine (linkedAt_linked (hretouch.keyed hkeyed)).unique ⟨heta _, rfl, fun id g g' hg hg' => ?_⟩
  cases hg.symm.trans hg'
  obtain ⟨f, hf, hfg⟩ := hretouch.exists_file? hg
  have hfile := hlinked.files id f g hf hg
  have haliases : g.bare.aliases = f.bare.aliases := by rw [hfile.rest]
  simp only [File.bare] at haliases
  have hscope (kind : ElementKind) (fqsen : Fqsen) :
      Scope.ofElement g kind fqsen = Scope.ofElement f kind fqsen := by
    rw [Scope.ofElement, haliases, Scope.ofElement]
  refine ⟨rfl, ?_, fun kind key => ?_, fun p hp => ?_, fun p hp => rfl⟩
  · have hown : Scope.ofFile g = Scope.ofFile f := by rw [Scope.ofFile, haliases, Scope.ofFile]
    rw [linkTags_congr hframe, hown, hfile.own]
    exact (linkTags_linkTags s fun r hr =>
      linkReference_of_mem_tags hs ho (List.mem_of_getElem? hf) hr).symm
  · rw [linkReference_congr hframe, hscope, hfile.bases]
    cases hb : f.basesAt? kind key with
    | none => rfl
    | some b =>
      obtain ⟨hcontainer, hsome⟩ := File.isSome_topItem?_of_basesAt? hb
      obtain ⟨item, hitem⟩ := Option.isSome_iff_exists.mp hsome
      obtain ⟨hkind, htext⟩ := (hkeyed id f hf).kind_eq_of_top hitem
      have hreached : f.Reached (.top kind key) :=
        ⟨kind, ⟨key⟩, f.spotOf_of_not_throughOwner (File.throughOwner_eq_false hcontainer _)⟩
      have hfqsen : item.info.fqsen = ⟨key⟩ := Fqsen.eq_of_text_eq htext
      have hbases : f.bases item.kind item.info.fqsen = b := by
        rw [File.bases_eq, hkind, hfqsen, hb]
        rfl
      simp only [Option.map_some, Bases.map_map, Option.some.injEq]
      refine (Bases.map_congr fun r hr => ?_).symm
      have hlinked := linkReference_of_reached hs ho hf hreached hitem
        (List.mem_append_left _ (hbases ▸ hr))
      rwa [hkind, hfqsen] at hlinked
  · have hreached : f.Reached p := by
      obtain ⟨kind, fqsen, hspot⟩ := hp
      exact ⟨kind, fqsen, by rw [← hfg.spotOf_eq, hspot]⟩
    rw [hfile.here p hreached]
    cases hi : f.at? p with
    | none => simp only [Option.map_none]
    | some item =>
      have htags := linkTags_linkTags s fun r hr =>
        linkReference_of_reached hs ho hf hreached hi (List.mem_append_right _ hr)
      simp only [Option.map_some, Item.linkedIn, Item.mapInfo, linkTags_congr hframe, hscope, htags]

end Twice

/-- The references of all listed elements are linked exactly if the constants outside class-likes
that have the name of a member have nothing to link. -/
theorem linkedAt_listing_iff {s : ApiSet} (hs : s.Keyed) :
    s.LinkedAt (fun f p => p ∈ f.listing.map Prod.fst) (linked s) ↔
      ∀ f ∈ s.files, ∀ key item, f.topItem? .constant key = some item →
        item.info.fqsen.isMember = true → item.linkedIn s f = item := by
  have hlinked := linkedAt_linked hs
  constructor
  · intro h f hf key item hitem hmember
    obtain ⟨id, hid⟩ := List.mem_iff_getElem?.mp hf
    have hkeyed := hs id f hid
    have hat : f.at? (.top .constant key) = some item := hitem
    have hlisted := (File.mem_listing_iff hkeyed).mpr ⟨hat, trivial⟩
    have haway : ¬ f.Reached (.top .constant key) := fun hp => by
      have houtside := (File.spotOf_listing_iff hkeyed hlisted).mp ((hkeyed.reached_iff hat).mp hp)
      simp [houtside key rfl] at hmember
    have hg := file?_linked hid
    have hchanged := (h.files id f _ hid hg).here _ (List.mem_map_of_mem hlisted)
    have hkept := (hlinked.files id f _ hid hg).away _ haway
    rw [hkept, hat] at hchanged
    exact (Option.some.inj hchanged).symm
  · intro h
    refine ⟨hlinked.rest, hlinked.length_eq, fun id f g hf hg => ?_⟩
    have hkeyed := hs id f hf
    have hfile := hlinked.files id f g hf hg
    refine ⟨hfile.rest, hfile.own, hfile.bases, fun p hp => ?_, fun p hp => ?_⟩
    · obtain ⟨⟨q, item⟩, hlisted, rfl⟩ := List.mem_map.mp hp
      have hat := ((File.mem_listing_iff hkeyed).mp hlisted).1
      by_cases hreached : f.Reached q
      · exact hfile.here q hreached
      · have hconstant := mt ((File.spotOf_listing_iff hkeyed hlisted).mpr)
          (mt (hkeyed.reached_iff hat).mpr hreached)
        simp only [not_forall] at hconstant
        obtain ⟨key, rfl, hmember⟩ := hconstant
        have hsame := h f (List.mem_of_getElem? hf) key item hat (by simpa using hmember)
        rw [hfile.away _ hreached, hat, Option.map_some, hsame]
    · by_cases hreached : f.Reached p
      · cases hat : f.at? p with
        | none => rw [hfile.here p hreached, hat, Option.map_none]
        | some item =>
          obtain ⟨kind, fqsen, hspot⟩ := hreached
          have hlisted := (File.mem_listing_iff hkeyed).mpr ⟨hat, File.lists_of_spotOf hspot⟩
          exact absurd (List.mem_map_of_mem hlisted) hp
      · exact hfile.away p hreached

/-- Linking a set of files as they are read, with any indexes, gives the set in which the references
of all elements that addresses lead to are linked, and nothing else is changed. These are all listed
elements but for constants outside class-likes that have the name of a member. If all references are
in order, then linking once more changes nothing. -/
theorem linkedAt_of_reflected {s : ApiSet} (hs : ∀ f ∈ s.files, f.Reflected) :
    s.LinkedAt File.Reached (linked s) ∧
    (s.LinkedAt (fun f p => p ∈ f.listing.map Prod.fst) (linked s) ↔
      ∀ f ∈ s.files, ∀ key item, f.topItem? .constant key = some item →
        item.info.fqsen.isMember = true → item.linkedIn s f = item) ∧
    (Orderly s → linked (linked s) = linked s) := by
  have hread (f : File) (hf : f ∈ s.files) : f.AsRead := (hs f hf).asRead
  have hkeyed : s.Keyed := fun id f hf => (hread f (List.mem_of_getElem? hf)).keyed
  exact ⟨linkedAt_linked hkeyed, linkedAt_listing_iff hkeyed, linked_linked hread⟩

/-- A class with a base, and a constant that is declared under the name of a member and refers to
something. -/
def disguised : SourceText where
  path := "a.php"
  content := "<?php class B extends A \x7b\x7d /** @see A */ define('Foo::BAR', 1);"

/-- The reference of the constant is left as it was, although the constant is listed. Linking once
more changes nothing. -/
theorem linkedAt_of_reflected_disguised : ∃ f, disguised.read = .ok f ∧
    let s : ApiSet := { name := "api", files := [f] }
    ¬ s.LinkedAt (fun f p => p ∈ f.listing.map Prod.fst) (linked s) ∧
      linked (linked s) = linked s := by
  have hconstant : (disguised.read.toOption.bind fun f =>
      (f.topItem? .constant "\\Foo::BAR").filter fun item =>
        item.info.fqsen.isMember && item.linkedIn { name := "api", files := [f] } f != item).isSome := by
    decide +kernel
  have hseen : disguised.read.toOption.map (fun f => seen { name := "api", files := [f] }) =
      some [({ container := some ⟨"\\B"⟩ }, ⟨"\\A", none⟩)] := by
    decide +kernel
  cases hf : disguised.read with
  | error e => simp [hf, Except.toOption] at hconstant
  | ok f =>
    have hs : ∀ g ∈ [f], g.Reflected := fun g hg =>
      ⟨disguised, f, hf, by rw [List.mem_singleton.mp hg]⟩
    obtain ⟨-, hlisted, htwice⟩ :=
      @linkedAt_of_reflected { name := "api", files := [f] } hs
    simp only [hf, Except.toOption, Option.bind_some, Option.map_some, Option.some.injEq] at hconstant hseen
    refine ⟨f, rfl, fun hlinked => ?_, htwice fun e he _ => ?_⟩
    · obtain ⟨item, hitem⟩ := Option.isSome_iff_exists.mp hconstant
      obtain ⟨htop, hdiffers⟩ := Option.filter_eq_some_iff.mp hitem
      obtain ⟨hmember, hne⟩ := (Bool.and_eq_true _ _).mp hdiffers
      have hsame := hlisted.mp hlinked f List.mem_cons_self _ item htop hmember
      simp [hsame] at hne
    · rw [hseen] at he
      rw [List.mem_singleton.mp he]
      have hname : Resolution.Writable "\\A".toList := by decide +kernel
      have hroot : Resolution.Full Fqsen.root.chars := by decide +kernel
      have hclass : Resolution.Full (Fqsen.chars ⟨"\\B"⟩) := by decide +kernel
      refine ⟨hname, ⟨hroot.colonless, hroot.tidy⟩, fun name target h => ?_, fun c hc => ?_⟩
      · simp at h
      · exact (Option.some.inj hc) ▸ ⟨hclass.colonless, hclass.tidy⟩

end Compile

end ApiDoc
