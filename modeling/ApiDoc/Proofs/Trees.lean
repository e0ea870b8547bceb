import ApiDoc.Compile.PackageTree
import ApiDoc.Proofs.Addresses

/-!
# What is attached to trees

An element is attached to a node under its kind and its full name. As long as no two of them share
both, attaching a list of elements to a tree adds exactly that list, whatever the nodes are called
and however many have to be made.
-/

namespace ApiDoc

/-! ### Nodes -/

namespace Node

/-- Everything attached to the node is there under its own kind and name. -/
def Filed (n : Node) : Prop :=
  ∀ kind elements, n.attached? kind = some elements → ∀ key ref, elements.get? key = some ref →
    ref.kind = kind ∧ ref.fqsen.text = key

theorem filed_bare (id : Nat) (fullName : Fqsen) (parent : Option Nat) :
    (bare id fullName parent).Filed := by
  intro kind elements h key ref hget
  cases kind <;> simp [attached?, bare] at h
  all_goals simp [← h] at hget

theorem mem_elements_of_attached? {n : Node} {kind : ElementKind} {elements : NameMap ElementRef}
    (h : n.attached? kind = some elements) {key : String} {ref : ElementRef}
    (hget : elements.get? key = some ref) : ref ∈ n.elements := by
  have hmem : ref ∈ elements.values := NameMap.mem_values_iff.mpr ⟨key, hget⟩
  cases kind <;> simp only [attached?, Option.some.injEq, reduceCtorEq] at h
  all_goals simp [Node.elements, h, hmem]

/-- The kinds of elements that are attached to nodes. -/
def Attachable (kind : ElementKind) : Prop := kind ∈ Index.byKind.map Prod.snd

theorem exists_attached? (n : Node) {kind : ElementKind} (h : Attachable kind) :
    ∃ elements, n.attached? kind = some elements := by
  cases kind <;> simp [Attachable, Index.byKind, attached?] at h ⊢

/-- A node without an element of the kind and name has room for it. -/
theorem admits_of_fresh {n : Node} (hn : n.Filed) {ref : ElementRef} (hk : Attachable ref.kind)
    (hfresh : ∀ r ∈ n.elements, r.kind = ref.kind → r.fqsen.text ≠ ref.fqsen.text) :
    n.admits ref = true := by
  obtain ⟨elements, helements⟩ := n.exists_attached? hk
  simp only [admits, helements, NameMap.contains, Bool.not_eq_true', Option.isSome_eq_false_iff,
    Option.isNone_iff_eq_none]
  refine Option.eq_none_iff_forall_ne_some.mpr fun found hfound => ?_
  obtain ⟨hkind, hkey⟩ := hn _ _ helements _ _ hfound
  exact hfresh found (mem_elements_of_attached? helements hfound) hkind hkey

theorem perm_elements_attach {n : Node} {ref : ElementRef} (h : n.admits ref = true) :
    (n.attach ref).elements.Perm (ref :: n.elements) := by
  rw [attach, if_pos h]
  rw [admits] at h
  cases hk : ref.kind with
  | method | property => simp [hk, attached?] at h
  | «class» | interface | trait | function | constant =>
    simp only [hk, attached?, NameMap.contains, Bool.not_eq_true', Option.isSome_eq_false_iff,
      Option.isNone_iff_eq_none] at h
    have hperm := NameMap.perm_values_insert h ref
    refine List.perm_iff_count.mpr fun r => ?_
    simp only [modifyAttached, Node.elements, List.count_append, List.count_cons,
      hperm.count_eq r]
    omega

theorem filed_attach {n : Node} (hn : n.Filed) (ref : ElementRef) : (n.attach ref).Filed := by
  rw [attach]
  split
  · intro kind elements h key r hget
    cases hk : ref.kind with
    | method | property =>
      rw [hk] at h
      exact hn kind elements h key r hget
    | «class» | interface | trait | function | constant =>
      rw [hk] at h
      cases kind with
      | method | property => simp [attached?] at h
      | «class» | interface | trait | function | constant =>
        simp only [attached?, modifyAttached, Option.some.injEq] at h
        subst h
        first
        | exact hn _ _ rfl key r hget
        | rw [NameMap.get?_insert] at hget
          split at hget
          · next heq =>
            cases hget
            exact ⟨hk, heq⟩
          · exact hn _ _ rfl key r hget
  · exact hn

theorem elements_retain (keep : ElementRef → Bool) (n : Node) :
    (n.retain keep).elements = n.elements.filter keep := by
  simp [Node.elements, retain, NameMap.values_filter, List.filter_append]

end Node

/-! ### Trees -/

namespace Taxonomy

/-- The elements attached to the nodes of a tree. -/
def elements (t : Taxonomy) : List ElementRef := t.nodes.flatMap Node.elements

/-- There is a root, the children of a node are nodes, and all nodes are filed. -/
structure WellFormed (t : Taxonomy) : Prop where
  pos : 0 < t.size
  children : ∀ n ∈ t.nodes, ∀ segment child, n.children.get? segment = some child → child < t.size
  filed : ∀ n ∈ t.nodes, n.Filed

theorem wellFormed_fresh (kind : TaxonomyKind) : (fresh kind).WellFormed := by
  refine ⟨by simp [fresh, size], fun n hn segment child h => ?_, fun n hn => ?_⟩
  · rw [fresh, List.mem_singleton] at hn
    simp [hn, Node.bare] at h
  · rw [fresh, List.mem_singleton] at hn
    exact hn ▸ Node.filed_bare _ _ _

theorem elements_fresh (kind : TaxonomyKind) : (fresh kind).elements = [] := rfl

/-- Changing a node in a way that leaves its elements alone. -/
theorem flatMap_modify_of_eq (nodes : List Node) {g : Node → Node}
    (hg : ∀ n, (g n).elements = n.elements) (id : Nat) :
    (nodes.modify id g).flatMap Node.elements = nodes.flatMap Node.elements := by
  induction nodes generalizing id with
  | nil => simp
  | cons n rest ih => cases id <;> simp [List.modify_cons, hg, ih]

theorem elements_modifyNode_of_eq (t : Taxonomy) (id : Nat) {g : Node → Node}
    (hg : ∀ n, (g n).elements = n.elements) : (t.modifyNode id g).elements = t.elements :=
  flatMap_modify_of_eq t.nodes hg id

/-- Changing a node in a way that adds an element. -/
theorem perm_flatMap_modify {nodes : List Node} {id : Nat} {n : Node} (hn : nodes[id]? = some n)
    {g : Node → Node} {ref : ElementRef} (hg : (g n).elements.Perm (ref :: n.elements)) :
    ((nodes.modify id g).flatMap Node.elements).Perm (ref :: nodes.flatMap Node.elements) := by
  induction nodes generalizing id with
  | nil => simp at hn
  | cons m rest ih =>
    cases id with
    | zero =>
      obtain rfl : m = n := by simpa using hn
      simpa using hg.append_right (rest.flatMap Node.elements)
    | succ id =>
      simp only [List.modify_succ_cons, List.flatMap_cons]
      exact ((ih (by simpa using hn)).append_left m.elements).trans List.perm_middle

theorem mem_modify {nodes : List Node} {id : Nat} {g : Node → Node} {m : Node}
    (h : m ∈ nodes.modify id g) : m ∈ nodes ∨ ∃ n ∈ nodes, m = g n := by
  induction nodes generalizing id with
  | nil => simp at h
  | cons n rest ih =>
    cases id with
    | zero =>
      rcases List.mem_cons.mp (by simpa using h) with rfl | h
      · exact .inr ⟨n, List.mem_cons_self, rfl⟩
      · exact .inl (List.mem_cons_of_mem _ h)
    | succ id =>
      rw [List.modify_succ_cons] at h
      rcases List.mem_cons.mp h with rfl | h
      · exact .inl List.mem_cons_self
      · rcases ih h with h | ⟨k, hk, rfl⟩
        · exact .inl (List.mem_cons_of_mem _ h)
        · exact .inr ⟨k, List.mem_cons_of_mem _ hk, rfl⟩

/-- Changing one node in a way that keeps it filed and its children among the nodes. -/
theorem WellFormed.modifyNode {t : Taxonomy} (ht : t.WellFormed) (id : Nat) {g : Node → Node}
    (hfiled : ∀ n : Node, n.Filed → (g n).Filed)
    (hchildren : ∀ n segment child, (g n).children.get? segment = some child →
      n.children.get? segment = some child ∨ child < t.size) : (t.modifyNode id g).WellFormed := by
  have hsize : (t.modifyNode id g).size = t.size := by simp [Taxonomy.modifyNode, size]
  refine ⟨hsize ▸ ht.pos, fun m hm segment child hchild => ?_, fun m hm => ?_⟩
  · rw [hsize]
    rcases mem_modify hm with hm | ⟨n, hn, rfl⟩
    · exact ht.children m hm segment child hchild
    · exact (hchildren n segment child hchild).elim (ht.children n hn segment child) fun h => h
  · rcases mem_modify hm with hm | ⟨n, hn, rfl⟩
    · exact ht.filed m hm
    · exact hfiled n (ht.filed n hn)

section Growing

variable {t : Taxonomy} (ht : t.WellFormed)
include ht

/-- A new node is well-formed and has no elements. -/
theorem wellFormed_addChild (parent : Nat) (segment : String) (fullName : Fqsen) :
    (t.addChild parent segment fullName).WellFormed ∧
      (t.addChild parent segment fullName).size = t.size + 1 ∧
      (t.addChild parent segment fullName).elements = t.elements := by
  have hgrown : WellFormed
      { t with nodes := t.nodes ++ [Node.bare t.size fullName (some parent)] } := by
    refine ⟨by simp [size], fun n hn segment child hchild => ?_, fun n hn => ?_⟩
    · rcases List.mem_append.mp hn with hn | hn
      · have := ht.children n hn segment child hchild
        simp only [size, List.length_append, List.length_singleton] at this ⊢
        omega
      · rw [List.mem_singleton.mp hn] at hchild
        simp [Node.bare] at hchild
    · rcases List.mem_append.mp hn with hn | hn
      · exact ht.filed n hn
      · exact List.mem_singleton.mp hn ▸ Node.filed_bare _ _ _
  refine ⟨hgrown.modifyNode parent (fun n hn => hn) fun n other child hchild => ?_, ?_, ?_⟩
  · rw [NameMap.get?_insert] at hchild
    split at hchild
    · cases hchild
      exact .inr (by simp [size])
    · exact .inl hchild
  · simp [addChild, Taxonomy.modifyNode, size]
  · have hmodify := flatMap_modify_of_eq (t.nodes ++ [Node.bare t.size fullName (some parent)])
      (g := fun n => { n with children := n.children.insert segment t.size }) (fun _ => rfl) parent
    refine hmodify.trans ?_
    rw [List.flatMap_append, List.flatMap_singleton]
    exact List.append_nil _

theorem lt_of_child? {id child : Nat} {segment : String}
    (h : t.child? id segment = some child) : child < t.size := by
  obtain ⟨n, hn, hchild⟩ := Option.bind_eq_some_iff.mp h
  exact ht.children n (List.mem_of_getElem? hn) segment child hchild

end Growing

/-- Making a name sure to be there attaches nothing, and the node is there. -/
theorem wellFormed_ensureFrom {t : Taxonomy} (ht : t.WellFormed) {id : Nat} (hid : id < t.size)
    (path : Fqsen) (segments : List String) :
    (t.ensureFrom id path segments).tree.WellFormed ∧
      (t.ensureFrom id path segments).id < (t.ensureFrom id path segments).tree.size ∧
      (t.ensureFrom id path segments).tree.elements = t.elements := by
  induction segments generalizing t id path with
  | nil => exact ⟨ht, hid, rfl⟩
  | cons segment rest ih =>
    simp only [ensureFrom]
    split
    · next child hchild => exact ih ht (lt_of_child? ht hchild) _
    · obtain ⟨hmade, hsize, helements⟩ := wellFormed_addChild ht id segment (path.join segment)
      obtain ⟨hwell, hlt, heq⟩ := ih hmade (by omega : t.size < _) (path.join segment)
      exact ⟨hwell, hlt, heq.trans helements⟩

theorem wellFormed_ensure {t : Taxonomy} (ht : t.WellFormed) (fullName : Fqsen) :
    (t.ensure fullName).tree.WellFormed ∧ (t.ensure fullName).id < (t.ensure fullName).tree.size ∧
      (t.ensure fullName).tree.elements = t.elements :=
  wellFormed_ensureFrom ht ht.pos _ _

theorem elements_mapNodes_retain (keep : ElementRef → Bool) (t : Taxonomy) :
    (t.mapNodes (Node.retain keep)).elements = t.elements.filter keep := by
  rw [elements, mapNodes, elements, List.filter_flatMap, List.flatMap_map]
  exact congrArg (t.nodes.flatMap ·) (funext fun n => n.elements_retain keep)

end Taxonomy

/-! ### Attaching -/

namespace Compile

/-- Attaching one element to the node of a name adds that element. -/
theorem wellFormed_attachAt {t : Taxonomy} (ht : t.WellFormed) (fullName : Fqsen)
    {ref : ElementRef} (hk : Node.Attachable ref.kind)
    (hfresh : ∀ r ∈ t.elements, r.kind = ref.kind → r.fqsen.text ≠ ref.fqsen.text) :
    (attachAt t fullName ref).WellFormed ∧
      (attachAt t fullName ref).elements.Perm (ref :: t.elements) := by
  obtain ⟨hwell, hlt, heq⟩ := Taxonomy.wellFormed_ensure ht fullName
  obtain ⟨n, hn⟩ : ∃ n, (t.ensure fullName).tree.nodes[(t.ensure fullName).id]? = some n :=
    ⟨_, List.getElem?_eq_getElem hlt⟩
  have hadmits : n.admits ref = true := by
    refine Node.admits_of_fresh (hwell.filed n (List.mem_of_getElem? hn)) hk fun r hr => ?_
    refine hfresh r ?_
    rw [← heq]
    exact List.mem_flatMap.mpr ⟨n, List.mem_of_getElem? hn, hr⟩
  refine ⟨hwell.modifyNode _ (fun m hm => Node.filed_attach hm ref) fun m segment child h => ?_, ?_⟩
  · rw [Node.attach] at h
    split at h
    · cases hkind : ref.kind <;> rw [hkind] at h <;> exact .inl h
    · exact .inl h
  · rw [← heq]
    exact Taxonomy.perm_flatMap_modify hn (Node.perm_elements_attach hadmits)

/-- Elements of which no two share kind and name. -/
def Distinct (refs : List ElementRef) : Prop :=
  refs.Pairwise fun a b => a.kind = b.kind → a.fqsen.text ≠ b.fqsen.text

/-- Attaching a list of elements adds exactly that list. -/
theorem perm_elements_attachAll {t : Taxonomy} (ht : t.WellFormed) {named : List (ElementRef × Fqsen)}
    (hk : ∀ e ∈ named, Node.Attachable e.1.kind) (hdistinct : Distinct (named.map Prod.fst))
    (hfresh : ∀ e ∈ named, ∀ r ∈ t.elements, r.kind = e.1.kind → r.fqsen.text ≠ e.1.fqsen.text) :
    (named.foldl (fun t e => attachAt t e.2 e.1) t).elements.Perm
      (named.map Prod.fst ++ t.elements) := by
  induction named generalizing t with
  | nil => exact .refl _
  | cons e rest ih =>
    obtain ⟨hhead, htail⟩ := List.pairwise_cons.mp hdistinct
    obtain ⟨hwell, hperm⟩ := wellFormed_attachAt ht e.2 (hk e List.mem_cons_self)
      (hfresh e List.mem_cons_self)
    have hrest := ih hwell (fun x hx => hk x (List.mem_cons_of_mem _ hx)) htail ?_
    · exact hrest.trans ((hperm.append_left _).trans List.perm_middle)
    · intro x hx r hr
      rcases List.mem_cons.mp (hperm.mem_iff.mp hr) with rfl | hr
      · exact hhead x.1 (List.mem_map_of_mem hx)
      · exact hfresh x (List.mem_cons_of_mem _ hx) r hr

end Compile

end ApiDoc
