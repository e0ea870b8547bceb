import ApiDoc.Proofs.Course

/-!
# What the filter removes

The elements to remove are listed in one sweep, and a member whose owner's name is on the list
already is left out. So no address on the list has its owner's name removed before its turn: every
address still leads where it led, and what goes is exactly what stands where the listed addresses
lead, with the members of the class-likes among it (`at?_removeAll`).
-/

namespace ApiDoc

/-! ### Fewer elements -/

/-- A file with some of the elements of another one, unchanged. -/
def File.Reduces (f g : File) : Prop := ∀ p item, g.at? p = some item → f.at? p = some item

namespace File

theorem isSome_topItem?_of_membersIn? {f : File} {kind : ElementKind} {key : String} {m : Members}
    (h : f.membersIn? kind key = some m) :
    kind.isContainer = true ∧ (f.topItem? kind key).isSome := by
  cases kind with
  | «class» | interface | trait =>
    obtain ⟨e, he, -⟩ := Option.map_eq_some_iff.mp h
    simp [ElementKind.isContainer, topItem?, he]
  | function | constant | method | property => simp [membersIn?] at h

/-- A member stands in a class-like. -/
theorem isSome_holder {f : File} {p q : Spot} (hq : p.holder? = some q) (h : (f.at? p).isSome) :
    (f.at? q).isSome := by
  cases p with
  | top kind key => simp [Spot.holder?] at hq
  | member k ownerKey kind key =>
    cases hq
    obtain ⟨item, hitem⟩ := Option.isSome_iff_exists.mp h
    obtain ⟨m, hm, -⟩ := Option.bind_eq_some_iff.mp hitem
    exact (isSome_topItem?_of_membersIn? hm).2

theorem contains_of_topItem? (f : File) (key : String) :
    ((f.topItem? .class key).isSome = f.classes.contains key) ∧
      ((f.topItem? .interface key).isSome = f.interfaces.contains key) ∧
      ((f.topItem? .trait key).isSome = f.traits.contains key) := by
  simp [topItem?, NameMap.contains]

/-- The members of a class-like's name are looked for somewhere. -/
theorem exists_ownerKind? {f : File} {kind : ElementKind} {key : String}
    (hkind : kind.isContainer = true) (h : (f.topItem? kind key).isSome) :
    ∃ k, f.ownerKind? key = some k := by
  obtain ⟨hc, hi, ht⟩ := f.contains_of_topItem? key
  rw [ownerKind?, ← hc, ← hi, ← ht]
  cases kind with
  | «class» => exact ⟨.class, if_pos h⟩
  | interface =>
    rw [if_pos h]
    split
    · exact ⟨_, rfl⟩
    · exact ⟨_, rfl⟩
  | trait =>
    rw [if_pos h]
    split
    · exact ⟨_, rfl⟩
    · split
      · exact ⟨_, rfl⟩
      · exact ⟨_, rfl⟩
  | function | constant | method | property => simp [ElementKind.isContainer] at hkind

variable {f g : File}

theorem Reduces.isSome_topItem? (h : f.Reduces g) {kind : ElementKind} {key : String}
    (hg : (g.topItem? kind key).isSome) : (f.topItem? kind key).isSome := by
  obtain ⟨item, hitem⟩ := Option.isSome_iff_exists.mp hg
  exact Option.isSome_iff_exists.mpr ⟨item, h (.top kind key) item hitem⟩

/-- The class-like in which members are looked for stays that, as long as it is there. -/
theorem Reduces.ownerKind?_eq (h : f.Reduces g) {key : String} {kind : ElementKind}
    (hf : f.ownerKind? key = some kind) (hg : (g.topItem? kind key).isSome) :
    g.ownerKind? key = some kind := by
  obtain ⟨hfc, hfi, hft⟩ := f.contains_of_topItem? key
  obtain ⟨hgc, hgi, hgt⟩ := g.contains_of_topItem? key
  have hclass (hn : f.classes.contains key = false) : g.classes.contains key = false := by
    rw [Bool.eq_false_iff, ← hgc]
    exact fun hs => by simp [hfc ▸ h.isSome_topItem? hs] at hn
  have hinterface (hn : f.interfaces.contains key = false) : g.interfaces.contains key = false := by
    rw [Bool.eq_false_iff, ← hgi]
    exact fun hs => by simp [hfi ▸ h.isSome_topItem? hs] at hn
  rw [ownerKind?] at hf ⊢
  split at hf
  · cases hf
    rw [if_pos (hgc ▸ hg)]
  · next hc =>
    rw [if_neg (by simpa using hclass (by simpa using hc))]
    split at hf
    · cases hf
      rw [if_pos (hgi ▸ hg)]
    · next hi =>
      rw [if_neg (by simpa using hinterface (by simpa using hi))]
      split at hf
      · cases hf
        rw [if_pos (hgt ▸ hg)]
      · simp at hf

/-- An address leads where it led, as long as something is there. -/
theorem Reduces.spotOf_eq (h : f.Reduces g) {kind : ElementKind} {fqsen : Fqsen} {p : Spot}
    (hf : f.spotOf kind fqsen = some p) (hg : (g.at? p).isSome) :
    g.spotOf kind fqsen = some p := by
  cases hthrough : throughOwner kind fqsen with
  | false =>
    rw [spotOf_of_not_throughOwner _ hthrough] at hf ⊢
    exact hf
  | true =>
    obtain ⟨owner, k, howner, hk, rfl⟩ := spotOf_eq_member hthrough hf
    refine (spotOf_eq_member_iff hthrough howner).mpr ⟨⟨?_, rfl⟩, rfl, rfl⟩
    exact h.ownerKind?_eq hk (isSome_holder (q := .top k owner.text) rfl hg)

theorem reduces_erase (f : File) (kind : ElementKind) (fqsen : Fqsen) :
    f.Reduces (f.erase kind fqsen) := by
  intro p item hi
  by_cases hp : ∃ q, f.spotOf kind fqsen = some q ∧ p.GoesWith q
  · obtain ⟨q, hq, hgoes⟩ := hp
    rw [at?_erase_of_goesWith hq hgoes] at hi
    simp at hi
  · rwa [at?_erase_of_not_goesWith fun q hq hgoes => hp ⟨q, hq, hgoes⟩] at hi

/-- Removing an element of another name leaves the owner of a name alone. -/
theorem ownerKind?_erase {kind : ElementKind} {fqsen : Fqsen} {key : String}
    (h : fqsen.text ≠ key) : (f.erase kind fqsen).ownerKind? key = f.ownerKind? key := by
  have htop (k : ElementKind) : (f.erase kind fqsen).topItem? k key = f.topItem? k key := by
    refine at?_erase_of_not_goesWith (p := .top k key) fun q hq hgoes => ?_
    rcases hgoes with rfl | hgoes
    · cases hthrough : throughOwner kind fqsen with
      | true => exact spotOf_ne_top hthrough hq
      | false =>
        rw [spotOf_of_not_throughOwner _ hthrough] at hq
        simp only [Option.some.injEq, Spot.top.injEq] at hq
        exact h hq.2
    · simp [Spot.holder?] at hgoes
  obtain ⟨hfc, hfi, hft⟩ := f.contains_of_topItem? key
  obtain ⟨hgc, hgi, hgt⟩ := (f.erase kind fqsen).contains_of_topItem? key
  rw [ownerKind?, ownerKind?, ← hgc, ← hgi, ← hgt, htop, htop, htop, hfc, hfi, hft]

theorem spotOf_erase {kind k : ElementKind} {fqsen other : Fqsen}
    (h : other.owner? ≠ some fqsen) : (f.erase kind fqsen).spotOf k other = f.spotOf k other := by
  rw [spotOf, spotOf]
  split
  · cases howner : other.owner? with
    | none => rfl
    | some owner =>
      have hne : fqsen.text ≠ owner.text := fun heq => by
        rw [howner, Fqsen.eq_of_text_eq heq] at h
        exact h rfl
      simp only [Option.bind_eq_bind, Option.bind_some, ownerKind?_erase hne]
  · rfl

end File

/-- The same number of files, each with some of the elements. -/
structure ApiSet.Reduces (s t : ApiSet) : Prop where
  length_eq : t.files.length = s.files.length
  files : ∀ id f g, s.file? id = some f → t.file? id = some g → f.Reduces g

namespace ApiSet.Reduces

variable {s t u : ApiSet}

theorem refl (s : ApiSet) : s.Reduces s := by
  refine ⟨rfl, fun id f g hf hg p item hi => ?_⟩
  cases hf.symm.trans hg
  exact hi

theorem exists_file? (h : s.Reduces t) {id : Nat} {g : File} (hg : t.file? id = some g) :
    ∃ f, s.file? id = some f ∧ f.Reduces g := by
  have hlt : id < s.files.length := h.length_eq ▸ (List.getElem?_eq_some_iff.mp hg).1
  exact ⟨s.files[id], List.getElem?_eq_getElem hlt,
    h.files id _ g (List.getElem?_eq_getElem hlt) hg⟩

theorem trans (h : s.Reduces t) (hu : t.Reduces u) : s.Reduces u := by
  refine ⟨hu.length_eq.trans h.length_eq, fun id f k hf hk p item hi => ?_⟩
  obtain ⟨g, hg, hgk⟩ := hu.exists_file? hk
  exact h.files id f g hf hg p item (hgk p item hi)

theorem at?_eq (h : s.Reduces t) {id : Nat} {p : Spot} {item : Item} (hi : t.at? id p = some item) :
    s.at? id p = some item := by
  obtain ⟨g, hg, hitem⟩ := Option.bind_eq_some_iff.mp hi
  obtain ⟨f, hf, hfg⟩ := h.exists_file? hg
  rw [at?, hf]
  exact hfg p item hitem

theorem spotOf_eq (h : s.Reduces t) {ref : ElementRef} {p : Spot} (hs : s.spotOf ref = some p)
    (ht : (t.at? ref.file p).isSome) : t.spotOf ref = some p := by
  obtain ⟨item, hitem⟩ := Option.isSome_iff_exists.mp ht
  obtain ⟨g, hg, hat⟩ := Option.bind_eq_some_iff.mp hitem
  obtain ⟨f, hf, hfg⟩ := h.exists_file? hg
  rw [spotOf, hf] at hs
  rw [spotOf, hg]
  exact hfg.spotOf_eq hs (by rw [hat]; rfl)

theorem modifyFile (s : ApiSet) (id : Nat) {k : File → File} (hk : ∀ f : File, f.Reduces (k f)) :
    s.Reduces (s.modifyFile id k) := by
  refine ⟨by simp [ApiSet.modifyFile], fun other f g hf hg => ?_⟩
  rw [file?_modifyFile, hf] at hg
  split at hg
  · cases hg
    exact hk f
  · cases hg
    exact fun p item hi => hi

theorem keyed (h : s.Reduces t) (hs : s.Keyed) : t.Keyed := by
  intro id g hg p item hi
  obtain ⟨f, hf, hfg⟩ := h.exists_file? hg
  exact hs id f hf p item (hfg p item hi)

end ApiSet.Reduces

namespace Compile

/-! ### Removing -/

def remove (s : ApiSet) (ref : ElementRef) : ApiSet :=
  s.modifyFile ref.file fun f => f.erase ref.kind ref.fqsen

/-- Where an address leads, what stands there goes, and what stands in it. -/
def Covers (s : ApiSet) (ref : ElementRef) (id : Nat) (p : Spot) : Prop :=
  ref.file = id ∧ ∃ q, s.spotOf ref = some q ∧ p.GoesWith q

theorem at?_remove_of_covers {s : ApiSet} {ref : ElementRef} {id : Nat} {p : Spot}
    (h : Covers s ref id p) : (remove s ref).at? id p = none := by
  obtain ⟨rfl, q, hq, hgoes⟩ := h
  rw [ApiSet.at?, remove, ApiSet.file?_modifyFile, if_pos rfl]
  rw [ApiSet.spotOf] at hq
  obtain ⟨f, hf, hspot⟩ := Option.bind_eq_some_iff.mp hq
  rw [hf]
  exact File.at?_erase_of_goesWith hspot hgoes

theorem at?_remove_of_not_covers {s : ApiSet} {ref : ElementRef} {id : Nat} {p : Spot}
    (h : ¬ Covers s ref id p) : (remove s ref).at? id p = s.at? id p := by
  rw [ApiSet.at?, remove, ApiSet.file?_modifyFile, ApiSet.at?]
  split
  · next heq =>
    cases hf : s.file? id with
    | none => rfl
    | some f =>
      refine File.at?_erase_of_not_goesWith fun q hq hgoes => h ⟨heq, q, ?_, hgoes⟩
      rw [ApiSet.spotOf, heq, hf]
      exact hq
  · rfl

theorem reduces_remove (s : ApiSet) (ref : ElementRef) : s.Reduces (remove s ref) :=
  .modifyFile s ref.file fun f => f.reduces_erase ref.kind ref.fqsen

theorem spotOf_remove {s : ApiSet} {ref other : ElementRef}
    (h : other.fqsen.owner? ≠ some ref.fqsen) : (remove s ref).spotOf other = s.spotOf other := by
  rw [ApiSet.spotOf, ApiSet.spotOf, remove, ApiSet.file?_modifyFile]
  split
  · cases s.file? other.file with
    | none => rfl
    | some f => exact File.spotOf_erase h
  · rfl

/-- Nothing is lost by removing only what is there. -/
theorem at?_of_item?_eq_none {s : ApiSet} {ref : ElementRef} (h : s.item? ref = none) {id : Nat}
    {p : Spot} (hp : Covers s ref id p) : s.at? id p = none := by
  obtain ⟨rfl, q, hq, hgoes⟩ := hp
  have hat : s.at? ref.file q = none := by
    rw [ApiSet.item?_eq, hq] at h
    exact h
  rcases hgoes with rfl | hholder
  · exact hat
  · rw [← Option.not_isSome_iff_eq_none]
    intro hsome
    rw [ApiSet.at?] at hsome hat
    cases hf : s.file? ref.file with
    | none => simp [hf] at hsome
    | some f =>
      rw [hf, Option.bind_some] at hsome hat
      have := File.isSome_holder hholder hsome
      simp [hat] at this

/-- No address of the list loses its owner's name before its turn. -/
def InTurn (refs : List ElementRef) : Prop :=
  refs.Pairwise fun a b => b.fqsen.owner? ≠ some a.fqsen

theorem at?_removeElement (acc : ApiSet × Nat) (ref : ElementRef) (id : Nat) (p : Spot) :
    (removeElement acc ref).1.at? id p = (remove acc.1 ref).at? id p := by
  rw [removeElement]
  split
  · rfl
  · next h =>
    by_cases hp : Covers acc.1 ref id p
    · rw [at?_remove_of_covers hp, at?_of_item?_eq_none (by simpa using h) hp]
    · rw [at?_remove_of_not_covers hp]

theorem spotOf_removeElement (acc : ApiSet × Nat) {ref other : ElementRef}
    (h : other.fqsen.owner? ≠ some ref.fqsen) :
    (removeElement acc ref).1.spotOf other = acc.1.spotOf other := by
  rw [removeElement]
  split
  · exact spotOf_remove h
  · rfl

theorem covers_removeElement {acc : ApiSet × Nat} {ref other : ElementRef}
    (h : other.fqsen.owner? ≠ some ref.fqsen) (id : Nat) (p : Spot) :
    Covers (removeElement acc ref).1 other id p ↔ Covers acc.1 other id p := by
  rw [Covers, Covers, spotOf_removeElement acc h]

/-- What goes is what the addresses of the list covered to begin with, and the rest stays. -/
theorem at?_removeElements {refs : List ElementRef} (hrefs : InTurn refs) (acc : ApiSet × Nat)
    (id : Nat) (p : Spot) :
    ((∃ ref ∈ refs, Covers acc.1 ref id p) → (refs.foldl removeElement acc).1.at? id p = none) ∧
      ((∀ ref ∈ refs, ¬ Covers acc.1 ref id p) →
        (refs.foldl removeElement acc).1.at? id p = acc.1.at? id p) := by
  induction refs generalizing acc with
  | nil => exact ⟨fun ⟨_, h, _⟩ => absurd h List.not_mem_nil, fun _ => rfl⟩
  | cons ref rest ih =>
    obtain ⟨hhead, htail⟩ := List.pairwise_cons.mp hrefs
    obtain ⟨hgone, hstays⟩ := ih htail (removeElement acc ref)
    have hcovers (other : ElementRef) (h : other ∈ rest) :=
      @covers_removeElement acc _ _ (hhead other h) id p
    rw [List.foldl_cons]
    constructor
    · rintro ⟨other, hmem, hother⟩
      by_cases hlater : ∃ r ∈ rest, Covers acc.1 r id p
      · obtain ⟨r, hr, hc⟩ := hlater
        exact hgone ⟨r, hr, (hcovers r hr).mpr hc⟩
      · have hfirst : Covers acc.1 ref id p := by
          rcases List.mem_cons.mp hmem with rfl | hmem
          · exact hother
          · exact absurd ⟨other, hmem, hother⟩ hlater
        rw [hstays fun r hr hc => hlater ⟨r, hr, (hcovers r hr).mp hc⟩, at?_removeElement,
          at?_remove_of_covers hfirst]
    · intro hnone
      rw [hstays fun r hr hc => hnone r (List.mem_cons_of_mem _ hr) ((hcovers r hr).mp hc),
        at?_removeElement, at?_remove_of_not_covers (hnone ref List.mem_cons_self)]

theorem reduces_removeElements (refs : List ElementRef) (acc : ApiSet × Nat) :
    acc.1.Reduces (refs.foldl removeElement acc).1 := by
  induction refs generalizing acc with
  | nil => exact .refl _
  | cons ref rest ih =>
    refine ApiSet.Reduces.trans ?_ (ih (removeElement acc ref))
    rw [removeElement]
    split
    · exact reduces_remove acc.1 ref
    · exact .refl _

theorem frame_removeElements (refs : List ElementRef) (acc : ApiSet × Nat) :
    (refs.foldl removeElement acc).1.frame = acc.1.frame := by
  induction refs generalizing acc with
  | nil => rfl
  | cons ref rest ih =>
    refine (ih (removeElement acc ref)).trans ?_
    rw [removeElement]
    split <;> rfl

/-! ### The list -/

section Doomed

variable {filter : VisibilityFilter} {owners : List Fqsen}

theorem mem_condemn {gone : List ElementRef} {entry : ElementRef × Item} {ref : ElementRef}
    (h : ref ∈ condemn filter owners gone entry) :
    ref ∈ gone ∨ ref = entry.1 ∧ isKept filter owners entry.1 entry.2 = false ∧
      ∀ g ∈ gone, ref.fqsen.owner? ≠ some g.fqsen := by
  rw [condemn] at h
  split at h
  · exact .inl h
  · next hkept =>
    split at h
    · exact .inl h
    · next howner =>
      rcases List.mem_append.mp h with h | h
      · exact .inl h
      · refine .inr ⟨List.mem_singleton.mp h, by simpa using hkept, fun g hg heq => howner ?_⟩
        rw [← List.mem_singleton.mp h, heq]
        exact List.any_eq_true.mpr ⟨g, hg, by simp⟩

theorem subset_condemn {gone : List ElementRef} (entry : ElementRef × Item) :
    gone ⊆ condemn filter owners gone entry := by
  rw [condemn]
  split
  · exact fun _ h => h
  · split
    · exact fun _ h => h
    · exact List.subset_append_left _ _

theorem inTurn_condemn {gone : List ElementRef} (h : InTurn gone) (entry : ElementRef × Item) :
    InTurn (condemn filter owners gone entry) := by
  rw [condemn]
  split
  · exact h
  · split
    · exact h
    · next howner =>
      refine List.pairwise_append.mpr ⟨h, List.pairwise_singleton _ _, fun g hg r hr heq => ?_⟩
      refine howner ?_
      rw [← List.mem_singleton.mp hr, heq]
      exact List.any_eq_true.mpr ⟨g, hg, by simp⟩

theorem inTurn_doomed (filter : VisibilityFilter) (present : List (ElementRef × Item)) :
    InTurn (doomed filter present) := by
  have hfold (entries : List (ElementRef × Item)) (gone : List ElementRef) (h : InTurn gone) :
      InTurn (entries.foldl (condemn filter (apiOwners present)) gone) := by
    induction entries generalizing gone with
    | nil => exact h
    | cons entry rest ih => exact ih _ (inTurn_condemn h entry)
  exact hfold present [] .nil

theorem subset_foldl_condemn (entries : List (ElementRef × Item)) (gone : List ElementRef) :
    gone ⊆ entries.foldl (condemn filter owners) gone := by
  induction entries generalizing gone with
  | nil => exact fun _ h => h
  | cons entry rest ih => exact fun r h => ih _ (subset_condemn entry h)

/-- What is on the list is not kept. -/
theorem exists_of_mem_foldl_condemn {entries : List (ElementRef × Item)} {gone : List ElementRef}
    {ref : ElementRef} (h : ref ∈ entries.foldl (condemn filter owners) gone) :
    ref ∈ gone ∨ ∃ item, (ref, item) ∈ entries ∧ isKept filter owners ref item = false := by
  induction entries generalizing gone with
  | nil => exact .inl h
  | cons entry rest ih =>
    rcases ih h with h | ⟨item, hitem, hkept⟩
    · rcases mem_condemn h with h | ⟨rfl, hkept, -⟩
      · exact .inl h
      · exact .inr ⟨entry.2, List.mem_cons_self, hkept⟩
    · exact .inr ⟨item, List.mem_cons_of_mem _ hitem, hkept⟩

/-- What is not kept and has no owner is on the list. -/
theorem mem_foldl_condemn_of_owner?_eq_none {entries : List (ElementRef × Item)}
    (gone : List ElementRef) {ref : ElementRef} {item : Item} (h : (ref, item) ∈ entries)
    (hkept : isKept filter owners ref item = false) (howner : ref.fqsen.owner? = none) :
    ref ∈ entries.foldl (condemn filter owners) gone := by
  induction entries generalizing gone with
  | nil => simp at h
  | cons entry rest ih =>
    rcases List.mem_cons.mp h with rfl | h
    · refine subset_foldl_condemn rest _ ?_
      simp [condemn, hkept, howner]
    · exact ih _ h

/-- A member is never listed once its owner's name is. -/
theorem not_mem_foldl_condemn {entries : List (ElementRef × Item)} {gone : List ElementRef}
    {ref g : ElementRef} (hg : g ∈ gone) (howner : ref.fqsen.owner? = some g.fqsen)
    (h : ref ∉ gone) : ref ∉ entries.foldl (condemn filter owners) gone := by
  induction entries generalizing gone with
  | nil => exact h
  | cons entry rest ih =>
    refine ih (subset_condemn entry hg) fun hmem => ?_
    rcases mem_condemn hmem with hmem | ⟨-, -, hfree⟩
    · exact h hmem
    · exact hfree g hg howner

/-- A member that is not kept is on the list exactly if its owner's name is not among what is on
the list when its turn comes first. -/
theorem mem_foldl_condemn_iff {pre post : List (ElementRef × Item)} {ref : ElementRef}
    {item : Item} {owner : Fqsen} (hfirst : ∀ e ∈ pre, e.1 ≠ ref)
    (hkept : isKept filter owners ref item = false) (howner : ref.fqsen.owner? = some owner) :
    ref ∈ (pre ++ (ref, item) :: post).foldl (condemn filter owners) [] ↔
      ∀ g ∈ pre.foldl (condemn filter owners) [], g.fqsen ≠ owner := by
  have hnew : ref ∉ pre.foldl (condemn filter owners) [] := fun hmem => by
    rcases exists_of_mem_foldl_condemn hmem with h | ⟨found, hfound, -⟩
    · simp at h
    · exact hfirst _ hfound rfl
  rw [List.foldl_append, List.foldl_cons]
  constructor
  · intro hmem g hg heq
    have hnot : ref ∉ condemn filter owners (pre.foldl (condemn filter owners) []) (ref, item) := by
      intro h
      rcases mem_condemn h with h | ⟨-, -, hfree⟩
      · exact hnew h
      · exact hfree g hg (heq ▸ howner)
    exact not_mem_foldl_condemn (subset_condemn (ref, item) hg) (heq ▸ howner) hnot hmem
  · intro hfree
    refine subset_foldl_condemn post _ ?_
    have hany : ((pre.foldl (condemn filter owners) []).any fun g => g.fqsen = owner) = false := by
      simpa using hfree
    simp [condemn, hkept, howner, hany]

end Doomed

end Compile

end ApiDoc
