import ApiDoc.Compile.Pass
import ApiDoc.Proofs.Spots

/-!
# Addresses of elements

In a keyed file every element has the kind and the name that its spot stands for. Then an address
that leads to a spot is as good as the address of the element there, and the listing of a file names
exactly the elements at its listed spots.

The steps of the compiler retouch sets: they change documentation where addresses lead, and neither
make nor remove, rename or move an element. So all of them see the same addresses.
-/

namespace ApiDoc

/-! ### Keyed files -/

theorem Fqsen.eq_of_text_eq {a b : Fqsen} (h : a.text = b.text) : a = b := by
  cases a
  cases b
  simpa using h

/-- The element has the kind and the name that the spot stands for. -/
def Spot.Names : Spot → Item → Prop
  | .top kind key, item => item.kind = kind ∧ item.info.fqsen.text = key
  | .member _ ownerKey kind key, item =>
    item.kind = kind ∧ File.throughOwner kind item.info.fqsen = true ∧
      item.info.fqsen.owner? = some ⟨ownerKey⟩ ∧ item.info.fqsen.name = key

/-- Every element of the file has the kind and the name that its spot stands for. -/
def File.Keyed (f : File) : Prop := ∀ p item, f.at? p = some item → p.Names item

/-- Whether the elements of a file are listed with the one at the spot: those at the top, and the
members of the class-like in which the members of its name are looked for. -/
def File.Lists (f : File) : Spot → Prop
  | .top _ _ => True
  | .member owner ownerKey _ _ => f.ownerKind? ownerKey = some owner

theorem Members.mem_items_iff {m : Members} {item : Item} :
    item ∈ m.items ↔ ∃ kind key, m.item? kind key = some item := by
  simp only [Members.items, List.mem_append, List.mem_map, NameMap.mem_values_iff]
  constructor
  · rintro ((⟨e, ⟨key, he⟩, rfl⟩ | ⟨e, ⟨key, he⟩, rfl⟩) | ⟨e, ⟨key, he⟩, rfl⟩)
    · exact ⟨.constant, key, by simp [Members.item?, he]⟩
    · exact ⟨.property, key, by simp [Members.item?, he]⟩
    · exact ⟨.method, key, by simp [Members.item?, he]⟩
  · rintro ⟨kind, key, h⟩
    cases kind with
    | constant =>
      obtain ⟨e, he, rfl⟩ := Option.map_eq_some_iff.mp h
      exact .inl (.inl ⟨e, ⟨key, he⟩, rfl⟩)
    | property =>
      obtain ⟨e, he, rfl⟩ := Option.map_eq_some_iff.mp h
      exact .inl (.inr ⟨e, ⟨key, he⟩, rfl⟩)
    | method =>
      obtain ⟨e, he, rfl⟩ := Option.map_eq_some_iff.mp h
      exact .inr ⟨e, ⟨key, he⟩, rfl⟩
    | «class» | interface | trait | function => simp [Members.item?] at h

namespace File

theorem mem_topLevel_iff {f : File} {item : Item} :
    item ∈ f.topLevel ↔ ∃ kind key, f.topItem? kind key = some item := by
  simp only [topLevel, List.mem_append, List.mem_map, NameMap.mem_values_iff]
  constructor
  · rintro ((((⟨e, ⟨key, he⟩, rfl⟩ | ⟨e, ⟨key, he⟩, rfl⟩) | ⟨e, ⟨key, he⟩, rfl⟩) |
      ⟨e, ⟨key, he⟩, rfl⟩) | ⟨e, ⟨key, he⟩, rfl⟩)
    · exact ⟨.constant, key, by simp [topItem?, he]⟩
    · exact ⟨.function, key, by simp [topItem?, he]⟩
    · exact ⟨.class, key, by simp [topItem?, he]⟩
    · exact ⟨.interface, key, by simp [topItem?, he]⟩
    · exact ⟨.trait, key, by simp [topItem?, he]⟩
  · rintro ⟨kind, key, h⟩
    cases kind with
    | constant =>
      obtain ⟨e, he, rfl⟩ := Option.map_eq_some_iff.mp h
      exact .inl (.inl (.inl (.inl ⟨e, ⟨key, he⟩, rfl⟩)))
    | function =>
      obtain ⟨e, he, rfl⟩ := Option.map_eq_some_iff.mp h
      exact .inl (.inl (.inl (.inr ⟨e, ⟨key, he⟩, rfl⟩)))
    | «class» =>
      obtain ⟨e, he, rfl⟩ := Option.map_eq_some_iff.mp h
      exact .inl (.inl (.inr ⟨e, ⟨key, he⟩, rfl⟩))
    | interface =>
      obtain ⟨e, he, rfl⟩ := Option.map_eq_some_iff.mp h
      exact .inl (.inr ⟨e, ⟨key, he⟩, rfl⟩)
    | trait =>
      obtain ⟨e, he, rfl⟩ := Option.map_eq_some_iff.mp h
      exact .inr ⟨e, ⟨key, he⟩, rfl⟩
    | method | property => simp [topItem?] at h

/-- What a file lists stands at listed spots. -/
theorem exists_of_mem_declared {f : File} {kind : ElementKind} {fqsen : Fqsen}
    (h : (kind, fqsen) ∈ f.declared) :
    ∃ p item, f.at? p = some item ∧ f.Lists p ∧ item.kind = kind ∧ item.info.fqsen = fqsen := by
  obtain ⟨top, htop, hmem⟩ := List.mem_flatMap.mp h
  obtain ⟨k, key, hkey⟩ := mem_topLevel_iff.mp htop
  rcases List.mem_cons.mp hmem with heq | hmem
  · cases heq
    exact ⟨.top k key, top, hkey, trivial, rfl, rfl⟩
  · split at hmem
    · rw [membersOf?_eq] at hmem
      split at hmem
      · next owner members hm =>
        obtain ⟨found, hfound, hin⟩ := Option.bind_eq_some_iff.mp hm
        obtain ⟨ms, hms, heq⟩ := Option.map_eq_some_iff.mp hin
        cases heq
        obtain ⟨item, hitem, heq⟩ := List.mem_map.mp hmem
        cases heq
        obtain ⟨mk, mkey, hat⟩ := Members.mem_items_iff.mp hitem
        exact ⟨.member owner top.info.fqsen.text mk mkey, item, by simp [at?, hms, hat], hfound,
          rfl, rfl⟩
      · simp at hmem
    · simp at hmem

/-- A spot to which an address leads is listed. -/
theorem lists_of_spotOf {f : File} {kind : ElementKind} {fqsen : Fqsen}
    {p : Spot} (hp : f.spotOf kind fqsen = some p) : f.Lists p := by
  cases h : throughOwner kind fqsen with
  | true =>
    obtain ⟨owner, k, -, hk, rfl⟩ := spotOf_eq_member h hp
    exact hk
  | false =>
    rw [spotOf_of_not_throughOwner f h] at hp
    cases hp
    trivial

namespace Keyed

variable {f : File} (hf : f.Keyed)
include hf

theorem kind_eq_of_top {kind : ElementKind} {key : String} {item : Item}
    (h : f.topItem? kind key = some item) : item.kind = kind ∧ item.info.fqsen.text = key :=
  hf (.top kind key) item h

/-- An element at a listed spot is listed. -/
theorem mem_declared {p : Spot} {item : Item} (h : f.at? p = some item) (hp : f.Lists p) :
    (item.kind, item.info.fqsen) ∈ f.declared := by
  cases p with
  | top kind key =>
    exact List.mem_flatMap.mpr ⟨item, mem_topLevel_iff.mpr ⟨kind, key, h⟩, List.mem_cons_self⟩
  | member k ownerKey kind key =>
    obtain ⟨members, hmembers, hitem⟩ := Option.bind_eq_some_iff.mp h
    obtain ⟨hcontainer, hsome⟩ := ownerKind?_eq_some hp
    obtain ⟨top, htop⟩ := Option.isSome_iff_exists.mp hsome
    obtain ⟨hkind, hkey⟩ := hf.kind_eq_of_top htop
    have hof : f.membersOf? top.info.fqsen = some (k, members) := by
      rw [membersOf?_eq, hkey, hp]
      simp [hmembers]
    refine List.mem_flatMap.mpr ⟨top, mem_topLevel_iff.mpr ⟨k, ownerKey, htop⟩, ?_⟩
    refine List.mem_cons_of_mem _ ?_
    simp only [hkind, hcontainer, if_true, hof]
    exact List.mem_map.mpr ⟨item, Members.mem_items_iff.mpr ⟨kind, key, hitem⟩, rfl⟩

/-- If any address leads to a spot, then that of the element there does. -/
theorem spotOf_self {kind : ElementKind} {fqsen : Fqsen} {p : Spot} {item : Item}
    (hp : f.spotOf kind fqsen = some p) (hi : f.at? p = some item) :
    f.spotOf item.kind item.info.fqsen = some p := by
  have hnames := hf p item hi
  cases h : throughOwner kind fqsen with
  | true =>
    obtain ⟨owner, k, ho, hk, rfl⟩ := spotOf_eq_member h hp
    obtain ⟨hkind, hthrough, howner, hname⟩ := hnames
    rw [hkind]
    exact (spotOf_eq_member_iff hthrough howner).mpr ⟨⟨hk, rfl⟩, rfl, hname.symm⟩
  | false =>
    rw [spotOf_of_not_throughOwner f h] at hp
    cases hp
    obtain ⟨hkind, htext⟩ := hnames
    rw [hkind, Fqsen.eq_of_text_eq htext, spotOf_of_not_throughOwner f h]

end Keyed

end File

/-! ### Sets -/

namespace ApiSet

def at? (s : ApiSet) (id : Nat) (p : Spot) : Option Item := (s.file? id).bind fun f => f.at? p

/-- The spot that an address leads to, in its file. -/
def spotOf (s : ApiSet) (ref : ElementRef) : Option Spot :=
  (s.file? ref.file).bind fun f => f.spotOf ref.kind ref.fqsen

def Keyed (s : ApiSet) : Prop := ∀ id f, s.file? id = some f → f.Keyed

theorem item?_eq (s : ApiSet) (ref : ElementRef) :
    s.item? ref = (s.spotOf ref).bind (s.at? ref.file) := by
  rw [item?, spotOf]
  cases hf : s.file? ref.file with
  | none => rfl
  | some f =>
    simp only [Option.bind_some, File.item?_eq]
    cases f.spotOf ref.kind ref.fqsen with
    | none => rfl
    | some p => simp [at?, hf]

theorem mem_allElements_iff {s : ApiSet} {ref : ElementRef} :
    ref ∈ s.allElements ↔
      ∃ f, s.file? ref.file = some f ∧ (ref.kind, ref.fqsen) ∈ f.declared := by
  rw [allElements, numbered, List.mem_flatMap]
  constructor
  · rintro ⟨⟨id, f⟩, hmem, href⟩
    obtain ⟨⟨g, i⟩, hg, heq⟩ := List.mem_map.mp hmem
    cases heq
    obtain ⟨⟨kind, fqsen⟩, hdeclared, rfl⟩ := List.mem_map.mp href
    exact ⟨f, List.mem_zipIdx_iff_getElem?.mp hg, hdeclared⟩
  · rintro ⟨f, hf, hdeclared⟩
    refine ⟨(ref.file, f), List.mem_map.mpr ⟨(f, ref.file), ?_, rfl⟩, ?_⟩
    · exact List.mem_zipIdx_iff_getElem?.mpr hf
    · exact List.mem_map.mpr ⟨(ref.kind, ref.fqsen), hdeclared, rfl⟩

theorem mem_present_iff {s : ApiSet} {ref : ElementRef} {item : Item} :
    (ref, item) ∈ s.present ↔ ref ∈ s.allElements ∧ s.item? ref = some item := by
  rw [present, List.mem_filterMap]
  constructor
  · rintro ⟨other, hother, heq⟩
    obtain ⟨found, hfound, heq⟩ := Option.map_eq_some_iff.mp heq
    cases heq
    exact ⟨hother, hfound⟩
  · rintro ⟨hall, hitem⟩
    exact ⟨ref, hall, by simp [hitem]⟩

theorem file?_modifyFile (s : ApiSet) (id : Nat) (h : File → File) (other : Nat) :
    (s.modifyFile id h).file? other =
      if id = other then (s.file? other).map h else s.file? other := by
  rw [file?, modifyFile, List.getElem?_modify, file?]
  split
  · rfl
  · simp

/-- A change of a file where an address leads is one of the set where it leads. -/
theorem at?_modifyFile (s : ApiSet) (ref : ElementRef) {g : Info → Info} {k : File → File}
    (hk : ∀ (f : File) p, (k f).at? p =
      if f.spotOf ref.kind ref.fqsen = some p then (f.at? p).map (Item.mapInfo g) else f.at? p)
    (id : Nat) (p : Spot) :
    (s.modifyFile ref.file k).at? id p =
      if ref.file = id ∧ s.spotOf ref = some p then (s.at? id p).map (Item.mapInfo g)
      else s.at? id p := by
  rw [at?, file?_modifyFile, at?]
  split
  · next hid =>
    subst hid
    rw [spotOf]
    cases s.file? ref.file with
    | none => simp
    | some f => simp only [Option.map_some, Option.bind_some, hk, true_and]
  · next hid => rw [if_neg fun h => hid h.1]

end ApiSet

/-! ### Retouching -/

/-- What no step of the compiler changes about an element. -/
def Item.outline (item : Item) : ElementKind × Fqsen × Option Visibility :=
  (item.kind, item.info.fqsen, item.visibility)

theorem Item.outline_mapInfo {g : Info → Info} (hg : KeepsName g) (item : Item) :
    (item.mapInfo g).outline = item.outline := by
  simp [Item.outline, Item.mapInfo, hg item.info]

/-- The same elements at the same spots, with their documentation changed at most where addresses
lead, and a view of them not at all. -/
structure File.Retouch {β : Type} (view : Item → β) (f g : File) : Prop where
  outline : ∀ p, (g.at? p).map Item.outline = (f.at? p).map Item.outline
  view_eq : ∀ p, (g.at? p).map view = (f.at? p).map view
  away : ∀ p, (∀ kind fqsen, f.spotOf kind fqsen ≠ some p) → g.at? p = f.at? p

/-- A change of documentation that keeps the full name and does not show in a view. -/
structure Unseen {β : Type} (view : Item → β) (k : Info → Info) : Prop where
  keepsName : KeepsName k
  view_eq : ∀ item, view (item.mapInfo k) = view item

/-- A change that keeps the full name and the tags. -/
theorem unseen_tags {k : Info → Info} (hn : KeepsName k) (ht : ∀ i, (k i).tags = i.tags) :
    Unseen (fun item => item.info.tags) k :=
  ⟨hn, fun item => ht item.info⟩

abbrev Item.texts (item : Item) : String × String := (item.info.summary, item.info.description)

/-- A change that keeps the full name, the summary and the description. -/
theorem unseen_texts {k : Info → Info} (hn : KeepsName k)
    (ht : ∀ i, ((k i).summary, (k i).description) = (i.summary, i.description)) :
    Unseen Item.texts k :=
  ⟨hn, fun item => ht item.info⟩

/-- What shows in neither of two views does not show in both together. -/
theorem Unseen.both {β γ : Type} {view : Item → β} {other : Item → γ} {k : Info → Info}
    (hv : Unseen view k) (ho : Unseen other k) : Unseen (fun item => (view item, other item)) k :=
  ⟨hv.keepsName, fun item => Prod.ext (hv.view_eq item) (ho.view_eq item)⟩

/-- Nothing shows in the view that sees nothing. -/
theorem unseen_unit {k : Info → Info} (hn : KeepsName k) : Unseen (fun _ => ()) k :=
  ⟨hn, fun _ => rfl⟩

section Retouch

variable {β γ : Type} {view : Item → β}

namespace File.Retouch

variable {f g h : File}

theorem of_at?_eq (heq : ∀ p, g.at? p = f.at? p) : f.Retouch view g :=
  ⟨fun p => by rw [heq], fun p => by rw [heq], fun p _ => heq p⟩

theorem refl (f : File) : f.Retouch view f := of_at?_eq fun _ => rfl

theorem isSome_at? (hg : f.Retouch view g) (p : Spot) : (g.at? p).isSome = (f.at? p).isSome := by
  have := congrArg Option.isSome (hg.outline p)
  simpa using this

theorem ownerKind?_eq (hg : f.Retouch view g) (key : String) :
    g.ownerKind? key = f.ownerKind? key :=
  File.ownerKind?_congr (fun kind key => hg.isSome_at? (.top kind key)) key

theorem spotOf_eq (hg : f.Retouch view g) (kind : ElementKind) (fqsen : Fqsen) :
    g.spotOf kind fqsen = f.spotOf kind fqsen :=
  File.spotOf_congr hg.ownerKind?_eq kind fqsen

theorem trans (hg : f.Retouch view g) (hh : g.Retouch view h) : f.Retouch view h := by
  refine ⟨fun p => (hh.outline p).trans (hg.outline p), fun p => (hh.view_eq p).trans (hg.view_eq p),
    fun p hp => ?_⟩
  rw [hh.away p (fun kind fqsen => by rw [hg.spotOf_eq]; exact hp kind fqsen), hg.away p hp]

/-- An element of the retouched file, and what it was. -/
theorem exists_at? (hg : f.Retouch view g) {p : Spot} {item : Item} (hi : g.at? p = some item) :
    ∃ old, f.at? p = some old ∧ old.outline = item.outline := by
  have := hg.outline p
  rw [hi] at this
  obtain ⟨old, hold, heq⟩ := Option.map_eq_some_iff.mp this.symm
  exact ⟨old, hold, heq⟩

theorem modifyInfo (f : File) (kind : ElementKind) (fqsen : Fqsen) {k : Info → Info}
    (hk : Unseen view k) : f.Retouch view (f.modifyInfo kind fqsen k) := by
  refine ⟨fun p => ?_, fun p => ?_, fun p hp => ?_⟩
  · rw [File.at?_modifyInfo f kind fqsen hk.keepsName]
    split
    · cases f.at? p <;> simp [Item.outline_mapInfo hk.keepsName]
    · rfl
  · rw [File.at?_modifyInfo f kind fqsen hk.keepsName]
    split
    · cases f.at? p <;> simp [hk.view_eq]
    · rfl
  · rw [File.at?_modifyInfo f kind fqsen hk.keepsName, if_neg (hp kind fqsen)]

theorem setBases (f : File) (kind : ElementKind) (fqsen : Fqsen) (b : Bases) :
    f.Retouch view (f.setBases kind fqsen b) :=
  of_at?_eq (f.at?_setBases kind fqsen b)

theorem keyed (hg : f.Retouch view g) (hf : f.Keyed) : g.Keyed := by
  intro p item hi
  obtain ⟨old, hold, heq⟩ := hg.exists_at? hi
  have hnames := hf p old hold
  obtain ⟨hkind, hfqsen, -⟩ : old.kind = item.kind ∧ old.info.fqsen = item.info.fqsen ∧
      old.visibility = item.visibility := by simpa [Item.outline] using heq
  cases p <;> simpa [Spot.Names, hkind, hfqsen] using hnames

/-- What a coarser view sees is not changed either. -/
theorem coarsen (hg : f.Retouch view g) (c : β → γ) : f.Retouch (fun item => c (view item)) g := by
  refine ⟨hg.outline, fun p => ?_, hg.away⟩
  have := congrArg (Option.map c) (hg.view_eq p)
  simpa [Function.comp_def] using this

end File.Retouch

/-- The same files in the same order, each retouched. -/
structure ApiSet.Retouch (view : Item → β) (s t : ApiSet) : Prop where
  length_eq : t.files.length = s.files.length
  files : ∀ id f g, s.file? id = some f → t.file? id = some g → f.Retouch view g

namespace ApiSet.Retouch

variable {s t u : ApiSet}

theorem of_files_eq (h : t.files = s.files) : s.Retouch view t := by
  refine ⟨by rw [h], fun id f g hf hg => ?_⟩
  rw [file?, h] at hg
  cases hf.symm.trans hg
  exact .refl f

theorem refl (s : ApiSet) : s.Retouch view s := of_files_eq rfl

theorem isSome_file? (ht : s.Retouch view t) (id : Nat) :
    (t.file? id).isSome = (s.file? id).isSome := by
  rw [Bool.eq_iff_iff, file?, file?, isSome_getElem?, isSome_getElem?, ht.length_eq]

theorem exists_file? (ht : s.Retouch view t) {id : Nat} {g : File} (hg : t.file? id = some g) :
    ∃ f, s.file? id = some f ∧ f.Retouch view g := by
  have hsome : (s.file? id).isSome := by rw [← ht.isSome_file?, hg]; rfl
  obtain ⟨f, hf⟩ := Option.isSome_iff_exists.mp hsome
  exact ⟨f, hf, ht.files id f g hf hg⟩

theorem trans (ht : s.Retouch view t) (hu : t.Retouch view u) : s.Retouch view u := by
  refine ⟨hu.length_eq.trans ht.length_eq, fun id f h hf hh => ?_⟩
  obtain ⟨g, hg, hgh⟩ := hu.exists_file? hh
  exact (ht.files id f g hf hg).trans hgh

theorem coarsen (ht : s.Retouch view t) (c : β → γ) :
    s.Retouch (fun item => c (view item)) t :=
  ⟨ht.length_eq, fun id f g hf hg => (ht.files id f g hf hg).coarsen c⟩

/-- Only the files matter. -/
theorem files_congr (ht : s.Retouch view t) (hu : u.files = t.files) : s.Retouch view u := by
  refine ⟨by rw [hu]; exact ht.length_eq, fun id f g hf hg => ht.files id f g hf ?_⟩
  rwa [file?, hu] at hg

/-- Retouching, whatever is seen of it. -/
theorem unit (ht : s.Retouch view t) : s.Retouch (fun _ => ()) t := ht.coarsen fun _ => ()

theorem modifyFile (s : ApiSet) (id : Nat) {k : File → File}
    (hk : ∀ f : File, f.Retouch view (k f)) : s.Retouch view (s.modifyFile id k) := by
  refine ⟨by simp [ApiSet.modifyFile], fun other f g hf hg => ?_⟩
  rw [file?_modifyFile, hf] at hg
  split at hg
  · cases hg
    exact hk f
  · cases hg
    exact .refl f

theorem mapFiles (s : ApiSet) {k : File → File} (hk : ∀ f : File, f.Retouch view (k f)) :
    s.Retouch view { s with files := s.files.map k } := by
  refine ⟨by simp, fun id f g hf hg => ?_⟩
  rw [file?] at hf
  simp only [file?, List.getElem?_map, hf, Option.map_some, Option.some.injEq] at hg
  exact hg ▸ hk f

theorem modifyInfo (s : ApiSet) (ref : ElementRef) {k : Info → Info} (hk : Unseen view k) :
    s.Retouch view (s.modifyInfo ref k) :=
  modifyFile s ref.file fun f => .modifyInfo f ref.kind ref.fqsen hk

/-- Retouching step by step. -/
theorem foldl {α : Type} {step : ApiSet → α → ApiSet}
    (hstep : ∀ (s : ApiSet) a, s.Retouch view (step s a)) (items : List α) (s : ApiSet) :
    s.Retouch view (items.foldl step s) := by
  induction items generalizing s with
  | nil => exact .refl s
  | cons a rest ih => exact (hstep s a).trans (ih (step s a))

theorem spotOf_eq (ht : s.Retouch view t) (ref : ElementRef) : t.spotOf ref = s.spotOf ref := by
  rw [spotOf, spotOf]
  cases hg : t.file? ref.file with
  | none =>
    have := ht.isSome_file? ref.file
    rw [hg] at this
    cases hs : s.file? ref.file <;> simp_all
  | some g =>
    obtain ⟨f, hf, hfg⟩ := ht.exists_file? hg
    simp [hf, hfg.spotOf_eq]

theorem map_at? (ht : s.Retouch view t) {δ : Type} {sight : Item → δ}
    (hsight : ∀ f g : File, f.Retouch view g → ∀ p, (g.at? p).map sight = (f.at? p).map sight)
    (id : Nat) (p : Spot) : (t.at? id p).map sight = (s.at? id p).map sight := by
  rw [at?, at?]
  cases hg : t.file? id with
  | none =>
    have := ht.isSome_file? id
    rw [hg] at this
    cases hs : s.file? id <;> simp_all
  | some g =>
    obtain ⟨f, hf, hfg⟩ := ht.exists_file? hg
    simpa [hf] using hsight f g hfg p

theorem outline (ht : s.Retouch view t) (id : Nat) (p : Spot) :
    (t.at? id p).map Item.outline = (s.at? id p).map Item.outline :=
  ht.map_at? (fun _ _ h => h.outline) id p

theorem view_eq (ht : s.Retouch view t) (id : Nat) (p : Spot) :
    (t.at? id p).map view = (s.at? id p).map view :=
  ht.map_at? (fun _ _ h => h.view_eq) id p

theorem isSome_at? (ht : s.Retouch view t) (id : Nat) (p : Spot) :
    (t.at? id p).isSome = (s.at? id p).isSome := by
  simpa using congrArg Option.isSome (ht.outline id p)

/-- A retouched element, what it was, and that both look the same. -/
theorem exists_at? (ht : s.Retouch view t) {id : Nat} {p : Spot} {item : Item}
    (hi : t.at? id p = some item) :
    ∃ old, s.at? id p = some old ∧ old.outline = item.outline ∧ view old = view item := by
  have houtline := ht.outline id p
  have hview := ht.view_eq id p
  rw [hi] at houtline hview
  obtain ⟨old, hold, heq⟩ := Option.map_eq_some_iff.mp houtline.symm
  rw [hold] at hview
  exact ⟨old, hold, heq, by simpa using hview.symm⟩

/-- An element, and what it is after retouching. -/
theorem exists_new (ht : s.Retouch view t) {id : Nat} {p : Spot} {old : Item}
    (hi : s.at? id p = some old) :
    ∃ item, t.at? id p = some item ∧ old.outline = item.outline ∧ view old = view item := by
  have hsome := ht.isSome_at? id p
  rw [hi] at hsome
  obtain ⟨item, hitem⟩ := Option.isSome_iff_exists.mp hsome
  obtain ⟨found, hfound, heq⟩ := ht.exists_at? hitem
  cases hi.symm.trans hfound
  exact ⟨item, hitem, heq⟩

/-- What an address leads to, and what it led to before. -/
theorem exists_item? (ht : s.Retouch view t) {ref : ElementRef} {item : Item}
    (hi : t.item? ref = some item) :
    ∃ old, s.item? ref = some old ∧ old.outline = item.outline ∧ view old = view item := by
  rw [item?_eq, ht.spotOf_eq] at hi
  obtain ⟨p, hp, hat⟩ := Option.bind_eq_some_iff.mp hi
  obtain ⟨old, hold, heq⟩ := ht.exists_at? hat
  exact ⟨old, by rw [item?_eq, hp, Option.bind_some, hold], heq⟩

/-- What an address led to, and what it leads to afterwards. -/
theorem exists_new_item? (ht : s.Retouch view t) {ref : ElementRef} {old : Item}
    (hi : s.item? ref = some old) :
    ∃ item, t.item? ref = some item ∧ old.outline = item.outline ∧ view old = view item := by
  rw [item?_eq] at hi
  obtain ⟨p, hp, hat⟩ := Option.bind_eq_some_iff.mp hi
  obtain ⟨item, hitem, heq⟩ := ht.exists_new hat
  exact ⟨item, by rw [item?_eq, ht.spotOf_eq, hp, Option.bind_some, hitem], heq⟩

theorem isSome_item? (ht : s.Retouch view t) (ref : ElementRef) :
    (t.item? ref).isSome = (s.item? ref).isSome := by
  rw [item?_eq, item?_eq, ht.spotOf_eq]
  cases s.spotOf ref with
  | none => rfl
  | some p => exact ht.isSome_at? ref.file p

/-- Spots to which no address leads are left alone. -/
theorem away (ht : s.Retouch view t) {id : Nat} {p : Spot}
    (hp : ∀ ref : ElementRef, ref.file = id → s.spotOf ref ≠ some p) :
    t.at? id p = s.at? id p := by
  rw [at?, at?]
  cases hg : t.file? id with
  | none =>
    have := ht.isSome_file? id
    rw [hg] at this
    cases hs : s.file? id <;> simp_all
  | some g =>
    obtain ⟨f, hf, hfg⟩ := ht.exists_file? hg
    rw [hf]
    refine hfg.away p fun kind fqsen => ?_
    have := hp ⟨id, kind, fqsen⟩ rfl
    simpa [spotOf, hf] using this

theorem keyed (ht : s.Retouch view t) (hs : s.Keyed) : t.Keyed := by
  intro id g hg
  obtain ⟨f, hf, hfg⟩ := ht.exists_file? hg
  exact hfg.keyed (hs id f hf)

end ApiSet.Retouch

end Retouch

end ApiDoc
