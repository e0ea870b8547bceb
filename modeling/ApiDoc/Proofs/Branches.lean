import Mathlib.Data.List.Induction
import Mathlib.Data.List.Perm.Lattice
import ApiDoc.Proofs.Places
import ApiDoc.Proofs.Renaming

/-!
# Trees by paths

A tree is determined up to the numbers of its nodes by the paths from the root to them and by what
is on each node besides its place in the tree. `Taxonomy.Branches` says so of a tree: its nodes lie
at the given paths, in the order in which they were made, with the given loads. Making a name sure to
be there adds the prefixes of its path that are missing, so trees that were grown for the same names
in another order are renamings of each other.
-/

namespace ApiDoc

/-! ### Renumbering -/

/-- A renumbering of what comes after a first item. -/
def shifted (π : Equiv.Perm Nat) : Equiv.Perm Nat where
  toFun i := if i = 0 then 0 else π (i - 1) + 1
  invFun i := if i = 0 then 0 else π.symm (i - 1) + 1
  left_inv i := by cases i <;> simp
  right_inv i := by cases i <;> simp

theorem shifted_succ (π : Equiv.Perm Nat) (i : Nat) : shifted π (i + 1) = π i + 1 := rfl

/-- The items of a list have other numbers in a permutation of it. -/
theorem exists_renumbering {α : Type} {l l' : List α} (h : l.Perm l') :
    ∃ π : Equiv.Perm Nat, (∀ i, l'[π i]? = l[i]?) ∧ ∀ i, l.length ≤ i → π i = i := by
  induction h with
  | nil => exact ⟨Equiv.refl Nat, fun _ => rfl, fun _ _ => rfl⟩
  | cons x _ ih =>
    obtain ⟨π, hget, hbeyond⟩ := ih
    refine ⟨shifted π, fun i => ?_, fun i hi => ?_⟩
    · cases i with
      | zero => rfl
      | succ i => rw [shifted_succ, List.getElem?_cons_succ, List.getElem?_cons_succ, hget]
    · cases i with
      | zero => rfl
      | succ i => rw [shifted_succ, hbeyond i (Nat.le_of_succ_le_succ hi)]
  | swap x y rest =>
    refine ⟨Equiv.swap 0 1, fun i => ?_, fun i hi => ?_⟩
    · rcases i with _ | _ | i
      · rfl
      · rfl
      · rw [Equiv.swap_apply_of_ne_of_ne (by omega) (by omega)]
        rfl
    · simp only [List.length_cons] at hi
      exact Equiv.swap_apply_of_ne_of_ne (by omega) (by omega)
  | trans hfirst _ ih ih' =>
    obtain ⟨π, hget, hbeyond⟩ := ih
    obtain ⟨π', hget', hbeyond'⟩ := ih'
    refine ⟨π.trans π', fun i => (hget' (π i)).trans (hget i), fun i hi => ?_⟩
    rw [Equiv.trans_apply, hbeyond i hi]
    exact hbeyond' i (hfirst.length_eq ▸ hi)

theorem getElem?_concat_iff {α : Type} {l : List α} {a b : α} {i : Nat} :
    (l ++ [a])[i]? = some b ↔ l[i]? = some b ∨ (i = l.length ∧ a = b) := by
  rcases Nat.lt_trichotomy i l.length with hi | rfl | hi
  · rw [List.getElem?_append_left hi]
    simp [Nat.ne_of_lt hi]
  · simp
  · rw [List.getElem?_eq_none (by simp; omega), List.getElem?_eq_none (by omega)]
    simp [Nat.ne_of_gt hi]

/-! ### Paths and names -/

/-- A part of a name between separators. -/
structure IsSegment (segment : String) : Prop where
  ne : segment ≠ ""
  plain : Fqsen.separator ∉ segment.toList

/-- The full name of the node at the end of a path. -/
def pathName (path : List String) : Fqsen := path.foldl Fqsen.join Fqsen.root

theorem pathName_append (path : List String) (segment : String) :
    pathName (path ++ [segment]) = (pathName path).join segment := by
  rw [pathName, List.foldl_append]
  rfl

/-- What is left of a part of a text when a separator is dropped from its ends. -/
theorem Text.drop_of_not_mem {c : Char} {cs : List Char} (h : c ∉ cs) :
    dropTrailChar c (dropLeadChar c cs) = cs := by
  have hwhile (cs : List Char) (h : c ∉ cs) : cs.dropWhile (· == c) = cs := by
    cases cs with
    | nil => rfl
    | cons d rest =>
      have hne : d ≠ c := fun heq => h (heq ▸ List.mem_cons_self)
      rw [List.dropWhile_cons_of_neg (by simpa using hne)]
  rw [dropLeadChar, hwhile cs h, dropTrailChar, hwhile cs.reverse (by simpa using h),
    List.reverse_reverse]

namespace Fqsen

theorem isSegment_of_mem_segments {f : Fqsen} {segment : String} (h : segment ∈ f.segments) :
    IsSegment segment := by
  obtain ⟨cs, hcs, rfl⟩ := List.mem_map.mp h
  obtain ⟨hmem, hne⟩ := List.mem_filter.mp hcs
  refine ⟨fun heq => ?_, ?_⟩
  · have hnil : cs = [] := by simpa using congrArg String.toList heq
    simp [hnil] at hne
  · rw [String.toList_ofList]
    exact Text.not_mem_of_mem_splitOn hmem

theorem chars_join (f : Fqsen) {segment : String} (h : IsSegment segment) :
    (f.join segment).chars = (if f.isRoot then [] else f.chars) ++ separator :: segment.toList := by
  rw [join, Text.drop_of_not_mem h.plain]
  split <;> simp

theorem isRoot_join (f : Fqsen) {segment : String} (h : IsSegment segment) :
    (f.join segment).isRoot = false := by
  have htext : (f.join segment).text =
      String.ofList (if f.isRoot then [] else f.chars) ++ ("\\" ++ segment) := by
    rw [← String.toList_inj, String.toList_append, String.toList_append, String.toList_ofList]
    exact f.chars_join h
  have hbytes : segment.utf8ByteSize ≠ 0 := fun hzero =>
    h.ne (String.utf8ByteSize_eq_zero_iff.mp hzero)
  have hmark : ("\\" : String).utf8ByteSize = 1 := rfl
  rw [isRoot, htext, String.utf8ByteSize_append, String.utf8ByteSize_append, hmark,
    beq_eq_false_iff_ne]
  omega

/-- A segment behind a name is one more segment of it. -/
theorem segments_join {f : Fqsen} (hf : f = root ∨ f.isRoot = false) {segment : String}
    (h : IsSegment segment) : (f.join segment).segments = f.segments ++ [segment] := by
  have hone : ((Text.splitOn separator segment.toList).filter fun s => !s.isEmpty).map String.ofList =
      [segment] := by
    have hne : segment.toList ≠ [] := fun hnil => h.ne (by simpa using congrArg String.ofList hnil)
    simp [Text.splitOn_of_not_mem h.plain, hne]
  have hsplit (front : List Char) : (ofChars (front ++ separator :: segment.toList)).segments =
      ((Text.splitOn separator front).filter fun s => !s.isEmpty).map String.ofList ++ [segment] := by
    rw [segments, chars_ofChars, Text.splitOn_append, List.filter_append, List.map_append, hone]
  have hchars : f.join segment = ofChars ((if f.isRoot then [] else f.chars) ++ separator ::
      segment.toList) := ext_chars (by rw [chars_join f h, chars_ofChars])
  rw [hchars, hsplit]
  rcases hf with rfl | hf
  · rfl
  · rw [hf]
    rfl

end Fqsen

/-- A path is read off its name. -/
theorem segments_pathName {path : List String} (h : ∀ segment ∈ path, IsSegment segment) :
    (pathName path).segments = path := by
  have hfold (f : Fqsen) (hf : f = Fqsen.root ∨ f.isRoot = false) :
      (path.foldl Fqsen.join f).segments = f.segments ++ path := by
    induction path generalizing f with
    | nil => simp
    | cons segment rest ih =>
      have hsegment := h segment List.mem_cons_self
      rw [List.foldl_cons, ih (fun s hs => h s (List.mem_cons_of_mem _ hs)) _
        (.inr (f.isRoot_join hsegment)), Fqsen.segments_join hf hsegment, List.append_assoc]
      rfl
  exact hfold Fqsen.root (.inl rfl)

/-! ### Nodes at paths -/

namespace Node

/-- What is on a node besides its place in the tree. -/
def load (n : Node) : Node :=
  { n with id := 0, name := "", fullName := Fqsen.root, parent := none, children := .empty }

def blank : Node := { id := 0, name := "", fullName := Fqsen.root }

/-- Nodes with the same place in a tree. -/
structure SamePlace (n m : Node) : Prop where
  id_eq : m.id = n.id
  name_eq : m.name = n.name
  fullName_eq : m.fullName = n.fullName
  parent_eq : m.parent = n.parent
  children_eq : m.children = n.children

/-- A change of what is on a node, which leaves its place alone and does not depend on it. -/
structure Loads (g : Node → Node) : Prop where
  place : ∀ n : Node, n.SamePlace (g n)
  load : ∀ n : Node, (g n).load = g n.load

theorem eq_of_load {n m : Node} (h : n.SamePlace m) (hload : m.load = n.load) : m = n := by
  obtain ⟨hid, hname, hfullName, hparent, hchildren⟩ := h
  cases n
  cases m
  simp_all [Node.load]

/-- The node lies at the end of a path in a tree whose nodes lie at some paths. -/
structure LiesAt (n : Node) (paths : List (List String)) (id : Nat) (path : List String)
    (onIt : Node) : Prop where
  id_eq : n.id = id
  fullName_eq : n.fullName = pathName path
  name_eq : n.name = n.fullName.name
  parent : (path = [] ∧ n.parent = none) ∨ ∃ front segment parent,
    path = front ++ [segment] ∧ paths[parent]? = some front ∧ n.parent = some parent
  children : ∀ segment child, n.children.get? segment = some child ↔
    paths[child]? = some (path ++ [segment])
  load_eq : n.load = onIt

theorem LiesAt.of_samePlace {paths : List (List String)} {id : Nat} {path : List String}
    {onIt n m : Node} (h : n.LiesAt paths id path onIt) (hm : n.SamePlace m) :
    m.LiesAt paths id path m.load where
  id_eq := hm.id_eq.trans h.id_eq
  fullName_eq := hm.fullName_eq.trans h.fullName_eq
  name_eq := by rw [hm.name_eq, h.name_eq, hm.fullName_eq]
  parent := by rw [hm.parent_eq]; exact h.parent
  children := by rw [hm.children_eq]; exact h.children
  load_eq := rfl

theorem LiesAt.parent_concat {paths : List (List String)} {id : Nat} {path : List String}
    {onIt n : Node} (h : n.LiesAt paths id path onIt) (added : List String) :
    (path = [] ∧ n.parent = none) ∨ ∃ front segment parent, path = front ++ [segment] ∧
      (paths ++ [added])[parent]? = some front ∧ n.parent = some parent := by
  rcases h.parent with hroot | ⟨front, segment, parent, heq, hfront, hparent⟩
  · exact .inl hroot
  · exact .inr ⟨front, segment, parent, heq, getElem?_concat_iff.mpr (.inl hfront), hparent⟩

/-- A new path that does not lead on from the node. -/
theorem LiesAt.concat {paths : List (List String)} {id : Nat} {path : List String} {onIt n : Node}
    (h : n.LiesAt paths id path onIt) {added : List String}
    (hadded : ∀ segment, added ≠ path ++ [segment]) : n.LiesAt (paths ++ [added]) id path onIt where
  id_eq := h.id_eq
  fullName_eq := h.fullName_eq
  name_eq := h.name_eq
  parent := h.parent_concat added
  children segment child := by
    rw [h.children, getElem?_concat_iff, or_iff_left fun hlast => hadded segment hlast.2]
  load_eq := h.load_eq

/-- A new path that leads on from the node, which gets the child. -/
theorem LiesAt.concat_child {paths : List (List String)} {id : Nat} {path : List String}
    {onIt n : Node} (h : n.LiesAt paths id path onIt) {segment : String}
    (hnew : path ++ [segment] ∉ paths) :
    ({ n with children := n.children.insert segment paths.length } : Node).LiesAt
      (paths ++ [path ++ [segment]]) id path onIt where
  id_eq := h.id_eq
  fullName_eq := h.fullName_eq
  name_eq := h.name_eq
  parent := h.parent_concat _
  children other child := by
    rw [NameMap.get?_insert, getElem?_concat_iff]
    split
    · next heq =>
      subst heq
      constructor
      · intro hchild
        exact .inr ⟨(Option.some.inj hchild).symm, rfl⟩
      · rintro (hchild | ⟨rfl, -⟩)
        · exact absurd (List.mem_of_getElem? hchild) hnew
        · rfl
    · next hne =>
      rw [h.children, or_iff_left fun hlast => hne ?_]
      simpa using hlast.2
  load_eq := h.load_eq

/-- A new node, which has no child because no path goes through it. -/
theorem liesAt_bare {paths : List (List String)} {id : Nat} {path : List String}
    (hpath : paths[id]? = some path) {segment : String}
    (hnew : ∀ other, path ++ [segment] ++ [other] ∉ paths) :
    (Node.bare paths.length ((pathName path).join segment) (some id)).LiesAt
      (paths ++ [path ++ [segment]]) paths.length (path ++ [segment]) Node.blank where
  id_eq := rfl
  fullName_eq := (pathName_append path segment).symm
  name_eq := rfl
  parent := .inr ⟨path, segment, id, rfl, getElem?_concat_iff.mpr (.inl hpath), rfl⟩
  children other child := by
    refine ⟨fun hchild => by simp [Node.bare] at hchild, fun hchild => ?_⟩
    rcases getElem?_concat_iff.mp hchild with hchild | ⟨-, heq⟩
    · exact absurd (List.mem_of_getElem? hchild) (hnew other)
    · simp at heq
  load_eq := rfl

end Node

namespace Taxonomy

/-- The nodes of a tree lie at paths, in the order in which they were made, with loads. Where there
is no node there is no load. -/
structure Branches (t : Taxonomy) (paths : List (List String)) (load : List String → Node) :
    Prop where
  size_eq : t.size = paths.length
  nodup : paths.Nodup
  root : paths[0]? = some []
  segments : ∀ path ∈ paths, ∀ segment ∈ path, IsSegment segment
  node : ∀ id n path, t.node? id = some n → paths[id]? = some path →
    n.LiesAt paths id path (load path)
  blank : ∀ path, path ∉ paths → load path = Node.blank

theorem branches_fresh (kind : TaxonomyKind) : (fresh kind).Branches [[]] fun _ => Node.blank where
  size_eq := rfl
  nodup := by simp
  root := rfl
  segments := by simp
  node := by
    intro id n path hn hpath
    obtain ⟨rfl, rfl⟩ : id = 0 ∧ path = [] := by
      cases id with
      | zero => simpa [eq_comm] using hpath
      | succ id => simp at hpath
    obtain rfl : Node.bare rootId Fqsen.root none = n := by simpa [fresh, node?] using hn
    refine ⟨rfl, rfl, rfl, .inl ⟨rfl, rfl⟩, fun segment child => ?_, rfl⟩
    have hnone : (Node.bare rootId Fqsen.root none).children.get? segment = none := rfl
    rw [hnone]
    cases child <;> simp
  blank := fun _ _ => rfl

theorem node?_modifyNode (t : Taxonomy) (id : Nat) (g : Node → Node) (i : Nat) :
    (t.modifyNode id g).node? i = (t.node? i).map fun n => if id = i then g n else n := by
  rw [node?, modifyNode, node?, List.getElem?_modify]
  split <;> simp

theorem node?_addChild (t : Taxonomy) (parent : Nat) (segment : String) (fullName : Fqsen)
    (i : Nat) : (t.addChild parent segment fullName).node? i =
      (if i = t.size then some (Node.bare t.size fullName (some parent)) else t.node? i).map
        fun n => if parent = i then { n with children := n.children.insert segment t.size } else n := by
  have hgrown : (t.nodes ++ [Node.bare t.size fullName (some parent)])[i]? =
      if i = t.size then some (Node.bare t.size fullName (some parent)) else t.node? i := by
    split
    · next hi => rw [hi, size, List.getElem?_concat_length]
    · next hi =>
      rw [node?, List.getElem?_append]
      split
      · rfl
      · next hlt =>
        rw [size] at hi
        rw [List.getElem?_eq_none (by simp; omega), List.getElem?_eq_none (by omega)]
  rw [addChild, node?_modifyNode, node?, hgrown]

theorem size_modifyNode (t : Taxonomy) (id : Nat) (g : Node → Node) :
    (t.modifyNode id g).size = t.size := by
  simp [modifyNode, size]

theorem size_addChild (t : Taxonomy) (parent : Nat) (segment : String) (fullName : Fqsen) :
    (t.addChild parent segment fullName).size = t.size + 1 := by
  simp [addChild, modifyNode, size]

/-- Every path stands behind all of its fronts. -/
def FrontsFirst (paths : List (List String)) : Prop := paths.Pairwise fun p q => ¬ q <+: p

/-- A path stands behind its front. -/
theorem FrontsFirst.lt {paths : List (List String)} (hfirst : FrontsFirst paths) {path : List String}
    {segment : String} {i j : Nat} (hi : paths[i]? = some path)
    (hj : paths[j]? = some (path ++ [segment])) : i < j := by
  obtain ⟨hilt, higet⟩ := List.getElem?_eq_some_iff.mp hi
  obtain ⟨hjlt, hjget⟩ := List.getElem?_eq_some_iff.mp hj
  rcases Nat.lt_trichotomy i j with hlt | rfl | hgt
  · exact hlt
  · have hsame := congrArg List.length (higet.symm.trans hjget)
    simp at hsame
  · -- The other way round the path would stand before its front.
    have hbefore := List.pairwise_iff_getElem.mp hfirst j i hjlt hilt hgt
    rw [higet, hjget] at hbefore
    exact absurd (List.prefix_append _ _) hbefore

namespace Branches

variable {t : Taxonomy} {paths : List (List String)} {load : List String → Node}
  (h : t.Branches paths load)
include h

theorem exists_node {id : Nat} {path : List String} (hpath : paths[id]? = some path) :
    ∃ n, t.node? id = some n ∧ n.LiesAt paths id path (load path) := by
  obtain ⟨hlt, -⟩ := List.getElem?_eq_some_iff.mp hpath
  have hid : id < t.size := h.size_eq.symm ▸ hlt
  have hn : t.node? id = some (t.nodes.get ⟨id, hid⟩) := List.getElem?_eq_getElem hid
  exact ⟨_, hn, h.node id _ path hn hpath⟩

theorem child?_eq_some_iff {id : Nat} {path : List String} (hpath : paths[id]? = some path)
    {segment : String} {child : Nat} :
    t.child? id segment = some child ↔ paths[child]? = some (path ++ [segment]) := by
  obtain ⟨n, hn, hlies⟩ := h.exists_node hpath
  rw [child?, hn, Option.bind_some, hlies.children]

/-- The front of a path to a node leads to a node. -/
theorem front_mem {path : List String} {segment : String} (hmem : path ++ [segment] ∈ paths) :
    path ∈ paths := by
  obtain ⟨id, hid⟩ := List.getElem?_of_mem hmem
  obtain ⟨n, -, hlies⟩ := h.exists_node hid
  rcases hlies.parent with ⟨hnil, -⟩ | ⟨front, last, parent, heq, hfront, -⟩
  · simp at hnil
  · obtain ⟨rfl, -⟩ := List.append_inj' heq rfl
    exact List.mem_of_getElem? hfront

/-- A new node below another one. -/
theorem addChild {id : Nat} {path : List String} (hpath : paths[id]? = some path)
    {segment : String} (hsegment : IsSegment segment) (hnew : path ++ [segment] ∉ paths) :
    (t.addChild id segment ((pathName path).join segment)).Branches
      (paths ++ [path ++ [segment]]) load := by
  refine ⟨?_, ?_, getElem?_concat_iff.mpr (.inl h.root), fun p hp => ?_, fun i n p hn hp => ?_,
    fun p hp => h.blank p ?_⟩
  · rw [size_addChild, h.size_eq, List.length_append, List.length_singleton]
  · exact List.nodup_append.mpr ⟨h.nodup, by simp, fun a ha b hb heq =>
      hnew (by rwa [← List.mem_singleton.mp hb, ← heq])⟩
  · rcases List.mem_append.mp hp with hp | hp
    · exact h.segments p hp
    · rw [List.mem_singleton.mp hp]
      intro other hother
      rcases List.mem_append.mp hother with hother | hother
      · exact h.segments path (List.mem_of_getElem? hpath) other hother
      · exact List.mem_singleton.mp hother ▸ hsegment
  · rw [node?_addChild, h.size_eq] at hn
    obtain ⟨old, hold, rfl⟩ := Option.map_eq_some_iff.mp hn
    have hid : id < paths.length := (List.getElem?_eq_some_iff.mp hpath).1
    rcases getElem?_concat_iff.mp hp with hp | ⟨rfl, rfl⟩
    · -- A node that was there gets the new child if it is the parent.
      rw [if_neg (Nat.ne_of_lt (List.getElem?_eq_some_iff.mp hp).1)] at hold
      have hlies := h.node i old p hold hp
      split
      · next heq =>
        subst heq
        obtain rfl : path = p := Option.some.inj (hpath.symm.trans hp)
        exact hlies.concat_child hnew
      · next hne =>
        refine hlies.concat fun last heq => hne ?_
        obtain ⟨rfl, -⟩ := List.append_inj' heq rfl
        exact (List.getElem?_inj hid h.nodup).mp (hpath.trans hp.symm)
    · rw [if_pos rfl] at hold
      obtain rfl := Option.some.inj hold
      rw [if_neg (Nat.ne_of_lt hid), h.blank _ hnew]
      exact Node.liesAt_bare hpath fun other hmem => hnew (h.front_mem hmem)
  · exact fun hmem => hp (List.mem_append_left _ hmem)

/-- All fronts of a path to a node lead to nodes. -/
theorem mem_of_prefix {front path : List String} (hfront : front <+: path) (hmem : path ∈ paths) :
    front ∈ paths := by
  obtain ⟨rest, rfl⟩ := hfront
  induction rest using List.reverseRecOn with
  | nil => rwa [List.append_nil] at hmem
  | append_singleton rest segment ih =>
    rw [← List.append_assoc] at hmem
    exact ih (h.front_mem hmem)

theorem frontsFirst_concat (hfirst : FrontsFirst paths) {path : List String} (hnew : path ∉ paths) :
    FrontsFirst (paths ++ [path]) := by
  refine List.pairwise_append.mpr ⟨hfirst, List.pairwise_singleton _ _, fun p hp q hq hfront => ?_⟩
  rw [List.mem_singleton.mp hq] at hfront
  exact hnew (h.mem_of_prefix hfront hp)

/-- Going down along segments adds the paths on the way that are missing, behind those that are
there. -/
theorem exists_added {id : Nat} {path : List String} (hpath : paths[id]? = some path)
    {segments : List String} (hsegments : ∀ segment ∈ segments, IsSegment segment) :
    ∃ added, (t.ensureFrom id (pathName path) segments).tree.Branches (paths ++ added) load ∧
      (paths ++ added)[(t.ensureFrom id (pathName path) segments).id]? = some (path ++ segments) ∧
      (t.ensureFrom id (pathName path) segments).created = List.range' t.size added.length ∧
      (∀ p ∈ added, p <+: path ++ segments) ∧
      (FrontsFirst paths → FrontsFirst (paths ++ added)) := by
  induction segments generalizing t paths id path with
  | nil =>
    refine ⟨[], ?_, ?_, rfl, by simp, by simp⟩
    · simpa [Taxonomy.ensureFrom] using h
    · simpa [Taxonomy.ensureFrom] using hpath
  | cons segment rest ih =>
    have hrest (other : String) (hother : other ∈ rest) : IsSegment other :=
      hsegments other (List.mem_cons_of_mem _ hother)
    rw [← List.singleton_append, ← List.append_assoc]
    simp only [Taxonomy.ensureFrom, List.singleton_append]
    rw [← pathName_append]
    cases hchild : t.child? id segment with
    | some child => exact ih h ((h.child?_eq_some_iff hpath).mp hchild) hrest
    | none =>
      have hnew : path ++ [segment] ∉ paths := by
        intro hmem
        obtain ⟨child, hget⟩ := List.getElem?_of_mem hmem
        simp [(h.child?_eq_some_iff hpath).mpr hget] at hchild
      have hgrown := h.addChild hpath (hsegments segment List.mem_cons_self) hnew
      have hlast : (paths ++ [path ++ [segment]])[t.size]? = some (path ++ [segment]) :=
        getElem?_concat_iff.mpr (.inr ⟨h.size_eq, rfl⟩)
      obtain ⟨added, hbranches, hend, hcreated, hway, hfirst⟩ := ih hgrown hlast hrest
      rw [pathName_append] at hbranches hend hcreated ⊢
      rw [size_addChild] at hcreated
      rw [List.append_assoc, List.singleton_append] at hbranches hend hfirst
      refine ⟨(path ++ [segment]) :: added, hbranches, hend, ?_, ?_, fun hold =>
        hfirst (h.frontsFirst_concat hold hnew)⟩
      · dsimp only
        rw [hcreated, List.length_cons, List.range'_succ]
      · exact List.forall_mem_cons.mpr ⟨List.prefix_append _ _, hway⟩

/-- Going down along segments adds the paths on the way that are missing. -/
theorem ensureFrom {id : Nat} {path : List String} (hpath : paths[id]? = some path)
    {segments : List String} (hsegments : ∀ segment ∈ segments, IsSegment segment) :
    ∃ grown, (t.ensureFrom id (pathName path) segments).tree.Branches grown load ∧
      grown[(t.ensureFrom id (pathName path) segments).id]? = some (path ++ segments) ∧
      ∀ p, p ∈ grown ↔ p ∈ paths ∨ ∃ front, front <+: segments ∧ p = path ++ front := by
  obtain ⟨added, hgrown, hend, -, hway, -⟩ := h.exists_added hpath hsegments
  have hstart : path ∈ paths := List.mem_of_getElem? hpath
  refine ⟨paths ++ added, hgrown, hend, fun p => ⟨fun hp => ?_, ?_⟩⟩
  · rcases List.mem_append.mp hp with hp | hp
    · exact .inl hp
    · -- A new path lies on the way, before the place where it begins or behind it.
      rcases List.prefix_or_prefix_of_prefix (hway p hp) (List.prefix_append path segments) with
        hbefore | ⟨front, rfl⟩
      · exact .inl (h.mem_of_prefix hbefore hstart)
      · exact .inr ⟨front, (List.prefix_append_right_inj path).mp (hway _ hp), rfl⟩
  · rintro (hp | ⟨front, hfront, rfl⟩)
    · exact List.mem_append_left _ hp
    · exact hgrown.mem_of_prefix ((List.prefix_append_right_inj path).mpr hfront)
        (List.mem_of_getElem? hend)

theorem ensure (fullName : Fqsen) :
    ∃ grown, (t.ensure fullName).tree.Branches grown load ∧
      grown[(t.ensure fullName).id]? = some fullName.segments ∧
      ∀ p, p ∈ grown ↔ p ∈ paths ∨ p <+: fullName.segments := by
  obtain ⟨grown, hgrown, hend, hpaths⟩ :=
    h.ensureFrom h.root fun _ hsegment => Fqsen.isSegment_of_mem_segments hsegment
  refine ⟨grown, hgrown, hend, fun p => ?_⟩
  rw [hpaths]
  simp only [List.nil_append, exists_eq_right']

/-- A change of what is on one node. -/
theorem modifyNode {id : Nat} {path : List String} (hpath : paths[id]? = some path)
    {g : Node → Node} (hg : Node.Loads g) :
    (t.modifyNode id g).Branches paths fun p => if p = path then g (load p) else load p := by
  refine ⟨?_, h.nodup, h.root, h.segments, fun i n p hn hp => ?_, fun p hp => ?_⟩
  · rw [size_modifyNode, h.size_eq]
  · rw [node?_modifyNode] at hn
    obtain ⟨old, hold, rfl⟩ := Option.map_eq_some_iff.mp hn
    have hlies := h.node i old p hold hp
    have hsame : id = i ↔ p = path := by
      constructor
      · rintro rfl
        exact Option.some.inj (hp.symm.trans hpath)
      · rintro rfl
        exact (List.getElem?_inj (List.getElem?_eq_some_iff.mp hpath).1 h.nodup).mp
          (hpath.trans hp.symm)
    simp only [hsame]
    split
    · rw [← hlies.load_eq, ← hg.load]
      exact hlies.of_samePlace (hg.place old)
    · exact hlies
  · have hne : p ≠ path := by
      rintro rfl
      exact hp (List.mem_of_getElem? hpath)
    rw [if_neg hne]
    exact h.blank p hp

/-- The names of the nodes, in order. -/
theorem map_fullName : t.nodes.map Node.fullName = paths.map pathName := by
  refine List.ext_getElem? fun id => ?_
  rw [List.getElem?_map, List.getElem?_map]
  cases hpath : paths[id]? with
  | none =>
    have hlong : t.size ≤ id := h.size_eq.symm ▸ List.getElem?_eq_none_iff.mp hpath
    rw [List.getElem?_eq_none hlong]
    rfl
  | some path =>
    obtain ⟨n, hn, hlies⟩ := h.exists_node hpath
    rw [node?] at hn
    rw [hn, Option.map_some, Option.map_some, hlies.fullName_eq]

end Branches

def Branched (t : Taxonomy) : Prop := ∃ paths load, t.Branches paths load

theorem Branched.id_eq {t : Taxonomy} (h : t.Branched) {id : Nat} {n : Node}
    (hn : t.node? id = some n) : n.id = id := by
  obtain ⟨paths, load, h⟩ := h
  have hid : id < paths.length := h.size_eq ▸ (List.getElem?_eq_some_iff.mp hn).1
  exact (h.node id n _ hn (List.getElem?_eq_getElem hid)).id_eq

/-- No two nodes of such a tree have the same name. -/
theorem Branched.nodup_names {t : Taxonomy} (h : t.Branched) :
    (t.nodes.map fun n => n.fullName.text).Nodup := by
  obtain ⟨paths, load, h⟩ := h
  have hnames : (t.nodes.map fun n => n.fullName.text) = paths.map fun p => (pathName p).text := by
    have htexts := congrArg (List.map Fqsen.text) h.map_fullName
    rwa [List.map_map, List.map_map] at htexts
  rw [hnames]
  refine List.Nodup.map_on (fun p hp q hq heq => ?_) h.nodup
  rw [← segments_pathName (h.segments p hp), ← segments_pathName (h.segments q hq),
    Fqsen.eq_of_text_eq heq]

end Taxonomy

/-! ### Trees with the same paths -/

theorem Node.load_rename {ρ : Renaming} (h : ρ.node 0 = 0) (n : Node) :
    (n.rename ρ).load = n.load.rename ρ := by
  simp only [load, rename, h]
  rfl

/-- Nodes at the same path, with loads that correspond, are renamings of each other. -/
theorem Node.LiesAt.eq_rename {ρ : Renaming} {paths paths' : List (List String)}
    (hget : ∀ i, paths'[ρ.node i]? = paths[i]?) (hnodup : paths'.Nodup) (hroot : ρ.node 0 = 0)
    {n m : Node} {id : Nat} {path : List String} {onIt : Node} (hn : n.LiesAt paths id path onIt)
    (hm : m.LiesAt paths' (ρ.node id) path (onIt.rename ρ)) : m = n.rename ρ := by
  refine Node.eq_of_load ⟨?_, ?_, ?_, ?_, ?_⟩ ?_
  · rw [hm.id_eq, rename, hn.id_eq]
  · rw [hm.name_eq, hm.fullName_eq, rename, hn.name_eq, hn.fullName_eq]
  · rw [hm.fullName_eq, rename, hn.fullName_eq]
  · rw [rename]
    rcases hn.parent with ⟨hnil, hnone⟩ | ⟨front, last, parent, heq, hfront, hparent⟩
    · rcases hm.parent with ⟨-, hnone'⟩ | ⟨front', last', -, heq', -⟩
      · rw [hnone, hnone']
        rfl
      · simp [hnil] at heq'
    · rcases hm.parent with ⟨hnil, -⟩ | ⟨front', last', parent', heq', hfront', hparent'⟩
      · simp [hnil] at heq
      · obtain ⟨rfl, -⟩ := List.append_inj' (heq.symm.trans heq') rfl
        have hsame : parent' = ρ.node parent :=
          (List.getElem?_inj (List.getElem?_eq_some_iff.mp hfront').1 hnodup).mp
            (hfront'.trans ((hget parent).trans hfront).symm)
        rw [hparent, hparent', hsame]
        rfl
  · refine NameMap.ext_get? fun segment => Option.ext fun child => ?_
    obtain ⟨child, rfl⟩ := ρ.node.surjective child
    rw [rename, NameMap.get?_map, hm.children, hget, ← hn.children, Option.map_eq_some_iff]
    simp only [ρ.node.injective.eq_iff, exists_eq_right]
  · rw [hm.load_eq, Node.load_rename hroot, hn.load_eq]

/-- Trees with the same paths and loads are renamings of each other. -/
theorem Taxonomy.Branches.exists_renamed {t u : Taxonomy} {paths paths' : List (List String)}
    {load load' : List String → Node} (ht : t.Branches paths load) (hu : u.Branches paths' load')
    (hkind : u.kind = t.kind) (hpaths : ∀ p, p ∈ paths' ↔ p ∈ paths) {file : Equiv.Perm Nat}
    (hload : ∀ node : Equiv.Perm Nat, node 0 = 0 → ∀ p, load' p = (load p).rename ⟨file, node⟩) :
    ∃ node : Equiv.Perm Nat, (∀ id, t.size ≤ id → node id = id) ∧ t.Renamed ⟨file, node⟩ u := by
  have hperm : paths.Perm paths' :=
    (List.perm_ext_iff_of_nodup ht.nodup hu.nodup).mpr fun p => (hpaths p).symm
  obtain ⟨node, hget, hbeyond⟩ := exists_renumbering hperm
  have hroot : node 0 = 0 := by
    have hfirst : paths'[node 0]? = paths'[0]? := by rw [hget, ht.root, hu.root]
    exact ((List.getElem?_inj (List.getElem?_eq_some_iff.mp hu.root).1 hu.nodup).mp hfirst.symm).symm
  refine ⟨node, fun id hid => hbeyond id (ht.size_eq ▸ hid), hkind, ?_, hroot, fun id => ?_⟩
  · rw [hu.size_eq, ht.size_eq, hperm.length_eq]
  · cases hpath : paths[id]? with
    | none =>
      have hpath' : paths'[node id]? = none := by rw [hget, hpath]
      have hlong : t.size ≤ id := ht.size_eq.symm ▸ List.getElem?_eq_none_iff.mp hpath
      have hlong' : u.size ≤ node id := hu.size_eq.symm ▸ List.getElem?_eq_none_iff.mp hpath'
      rw [node?, node?, List.getElem?_eq_none hlong, List.getElem?_eq_none hlong']
      rfl
    | some path =>
      obtain ⟨n, hn, hlies⟩ := ht.exists_node hpath
      have hpath' : paths'[node id]? = some path := by rw [hget, hpath]
      obtain ⟨m, hm, hlies'⟩ := hu.exists_node hpath'
      rw [hload node hroot] at hlies'
      have hrenamed : m = n.rename ⟨file, node⟩ := hlies.eq_rename hget hu.nodup hroot hlies'
      rw [hn, hm, Option.map_some, hrenamed]

/-! ### Files in nodes -/

theorem NameMap.insert_comm {α : Type} (m : NameMap α) {key other : String} (h : key ≠ other)
    (a b : α) : (m.insert key a).insert other b = (m.insert other b).insert key a := by
  refine ext_get? fun k => ?_
  simp only [get?_insert]
  by_cases hk : other = k
  · subst hk
    simp [h]
  · simp [hk]

def Node.addFile (path : String) (id : Nat) (n : Node) : Node :=
  { n with files := n.files.insert path id }

theorem Node.loads_addFile (path : String) (id : Nat) : Loads (addFile path id) where
  place _ := ⟨rfl, rfl, rfl, rfl, rfl⟩
  load _ := rfl

theorem Node.addFile_rename (ρ : Renaming) (path : String) (id : Nat) (n : Node) :
    (n.rename ρ).addFile path (ρ.file id) = (n.addFile path id).rename ρ := by
  simp only [addFile, rename, NameMap.map_insert]

/-- A file that is put into the node of a name. -/
structure Placing where
  name : Fqsen
  path : String
  id : Nat

namespace Placing

/-- The placing of the file under another number. -/
def renumber (file : Equiv.Perm Nat) (e : Placing) : Placing := { e with id := file e.id }

/-- The loads with the file where the name leads. -/
def onto (load : List String → Node) (e : Placing) : List String → Node := fun p =>
  if p = e.name.segments then (load p).addFile e.path e.id else load p

theorem onto_comm {e e' : Placing} (h : e.path ≠ e'.path) (load : List String → Node) :
    onto (onto load e) e' = onto (onto load e') e := by
  funext p
  simp only [onto]
  split
  · split
    · simp only [Node.addFile, NameMap.insert_comm _ h]
    · rfl
  · rfl

theorem onto_rename (ρ : Renaming) (load : List String → Node) (e : Placing) :
    onto (fun p => (load p).rename ρ) (e.renumber ρ.file) = fun p => (onto load e p).rename ρ := by
  funext p
  change (if p = e.name.segments then ((load p).rename ρ).addFile e.path (ρ.file e.id)
    else (load p).rename ρ) = (if p = e.name.segments then (load p).addFile e.path e.id
    else load p).rename ρ
  split
  · exact Node.addFile_rename ρ e.path e.id (load p)
  · rfl

/-- Files with different paths can be placed in any order. -/
theorem foldl_onto_of_perm {ρ : Renaming} (hroot : ρ.node 0 = 0) {entries entries' : List Placing}
    (hperm : entries'.Perm (entries.map (renumber ρ.file))) (hpaths : (entries.map path).Nodup)
    (p : List String) : entries'.foldl onto (fun _ => Node.blank) p =
      (entries.foldl onto (fun _ => Node.blank) p).rename ρ := by
  have hblank : Node.blank.rename ρ = Node.blank := by
    simp only [Node.blank, Node.rename, hroot]
    rfl
  have hnodup : (entries'.map path).Nodup := by
    refine (hperm.map path).nodup_iff.mpr ?_
    rw [List.map_map]
    exact hpaths
  have hcomm (e : Placing) (he : e ∈ entries') (e' : Placing) (he' : e' ∈ entries')
      (load : List String → Node) : onto (onto load e) e' = onto (onto load e') e := by
    by_cases heq : e.path = e'.path
    · rw [List.inj_on_of_nodup_map hnodup he he' heq]
    · exact onto_comm heq load
  have hfold (entries : List Placing) (load : List String → Node) :
      (entries.map (renumber ρ.file)).foldl onto (fun p => (load p).rename ρ) =
        fun p => (entries.foldl onto load p).rename ρ := by
    induction entries generalizing load with
    | nil => rfl
    | cons e rest ih => rw [List.map_cons, List.foldl_cons, onto_rename, ih, List.foldl_cons]
  have hstart := hfold entries fun _ => Node.blank
  rw [hblank] at hstart
  rw [hperm.foldl_eq' hcomm, hstart]

end Placing

namespace Taxonomy

/-- The tree with a file in the node of a name. -/
def place (t : Taxonomy) (e : Placing) : Taxonomy :=
  (t.ensure e.name).tree.modifyNode (t.ensure e.name).id (Node.addFile e.path e.id)

theorem kind_ensureFrom (t : Taxonomy) (id : Nat) (path : Fqsen) (segments : List String) :
    (t.ensureFrom id path segments).tree.kind = t.kind := by
  induction segments generalizing t id path with
  | nil => rfl
  | cons segment rest ih =>
    simp only [ensureFrom]
    split
    · exact ih t _ _
    · exact ih (t.addChild id segment (path.join segment)) _ _

theorem kind_place (t : Taxonomy) (e : Placing) : (t.place e).kind = t.kind :=
  t.kind_ensureFrom ..

theorem Branches.placeAll {t : Taxonomy} {paths : List (List String)} {load : List String → Node}
    (h : t.Branches paths load) (entries : List Placing) :
    ∃ grown, (entries.foldl place t).Branches grown (entries.foldl Placing.onto load) ∧
      ∀ p, p ∈ grown ↔ p ∈ paths ∨ ∃ e ∈ entries, p <+: e.name.segments := by
  induction entries generalizing t paths load with
  | nil => exact ⟨paths, h, by simp⟩
  | cons e rest ih =>
    obtain ⟨made, hmade, hend, hpaths⟩ := h.ensure e.name
    obtain ⟨grown, hgrown, hall⟩ := ih (hmade.modifyNode hend (Node.loads_addFile e.path e.id))
    refine ⟨grown, hgrown, fun p => ?_⟩
    rw [hall, hpaths, or_assoc]
    simp only [List.mem_cons, exists_eq_or_imp]

/-- Trees that are grown for the same files in another order are renamings of each other. -/
theorem exists_renamed_of_perm (kind : TaxonomyKind) {file : Equiv.Perm Nat}
    {entries entries' : List Placing} (hperm : entries'.Perm (entries.map (Placing.renumber file)))
    (hpaths : (entries.map Placing.path).Nodup) :
    ∃ node : Equiv.Perm Nat,
      (∀ id, (entries.foldl place (fresh kind)).size ≤ id → node id = id) ∧
      (entries.foldl place (fresh kind)).Renamed ⟨file, node⟩ (entries'.foldl place (fresh kind)) := by
  have hkind (entries : List Placing) (t : Taxonomy) : (entries.foldl place t).kind = t.kind := by
    induction entries generalizing t with
    | nil => rfl
    | cons e rest ih => exact (ih (t.place e)).trans (t.kind_place e)
  obtain ⟨paths, ht, hmem⟩ := (branches_fresh kind).placeAll entries
  obtain ⟨paths', hu, hmem'⟩ := (branches_fresh kind).placeAll entries'
  refine ht.exists_renamed hu ((hkind entries' _).trans (hkind entries _).symm) (fun p => ?_)
    fun node hroot p => Placing.foldl_onto_of_perm hroot hperm hpaths p
  rw [hmem, hmem']
  refine or_congr_right ?_
  simp only [hperm.mem_iff, List.mem_map, exists_exists_and_eq_and, Placing.renumber]

end Taxonomy

/-! ### Renamed trees grow alike -/

theorem Node.attached?_rename (ρ : Renaming) (n : Node) (kind : ElementKind) :
    (n.rename ρ).attached? kind =
      (n.attached? kind).map fun elements => elements.map (ElementRef.rename ρ) := by
  cases kind <;> rfl

theorem Node.attach_rename (ρ : Renaming) (ref : ElementRef) (n : Node) :
    (n.rename ρ).attach (ref.rename ρ) = (n.attach ref).rename ρ := by
  have hadmits : (n.rename ρ).admits (ref.rename ρ) = n.admits ref := by
    have hkind : (ref.rename ρ).kind = ref.kind := rfl
    rw [admits, admits, hkind, attached?_rename]
    cases n.attached? ref.kind with
    | none => rfl
    | some elements => exact congrArg not (elements.contains_map (ElementRef.rename ρ) ref.fqsen.text)
  have hinsert (m : NameMap ElementRef) :
      (m.map (ElementRef.rename ρ)).insert ref.fqsen.text (ref.rename ρ) =
        (m.insert ref.fqsen.text ref).map (ElementRef.rename ρ) := (m.map_insert ..).symm
  rw [attach, attach, hadmits]
  split
  · obtain ⟨file, kind, fqsen⟩ := ref
    cases kind with
    | «class» | interface | trait | function | constant =>
      simp only [ElementRef.rename, modifyAttached, rename] at hinsert ⊢
      simp only [hinsert]
    | method | property => rfl
  · rfl

theorem Node.loads_attach (ref : ElementRef) : Loads (·.attach ref) where
  place n := by
    simp only [attach]
    split
    · cases ref.kind <;> exact ⟨rfl, rfl, rfl, rfl, rfl⟩
    · exact ⟨rfl, rfl, rfl, rfl, rfl⟩
  load n := by
    have hadmits : n.load.admits ref = n.admits ref := by
      cases h : ref.kind <;> simp only [admits, h] <;> rfl
    simp only [attach, hadmits]
    split
    · cases ref.kind <;> rfl
    · rfl

theorem Taxonomy.Branched.attachAt {t : Taxonomy} (h : t.Branched) (fullName : Fqsen)
    (ref : ElementRef) : (Compile.attachAt t fullName ref).Branched := by
  obtain ⟨paths, load, h⟩ := h
  obtain ⟨made, hmade, hend, -⟩ := h.ensure fullName
  exact ⟨made, _, hmade.modifyNode hend (Node.loads_attach ref)⟩

namespace Taxonomy.Renamed

variable {ρ : Renaming} {t u : Taxonomy} (h : t.Renamed ρ u)
include h

theorem child?_eq (id : Nat) (segment : String) :
    u.child? (ρ.node id) segment = (t.child? id segment).map ρ.node := by
  rw [child?, child?, h.node?]
  cases t.node? id with
  | none => rfl
  | some n => exact NameMap.get?_map ..

theorem modifyNode {g l : Node → Node} (hg : ∀ n, l (n.rename ρ) = (g n).rename ρ) (id : Nat) :
    (t.modifyNode id g).Renamed ρ (u.modifyNode (ρ.node id) l) := by
  refine ⟨h.kind_eq, by rw [size_modifyNode, size_modifyNode, h.size_eq], h.root, fun i => ?_⟩
  rw [node?_modifyNode, node?_modifyNode, h.node?, Option.map_map, Option.map_map]
  refine congrArg (Option.map · _) (funext fun n => ?_)
  simp only [Function.comp_apply, ρ.node.injective.eq_iff]
  split
  · exact hg n
  · rfl

theorem mapNodes {g l : Node → Node} (hg : ∀ n, l (n.rename ρ) = (g n).rename ρ) :
    (t.mapNodes g).Renamed ρ (u.mapNodes l) := by
  have hsize (t : Taxonomy) (g : Node → Node) : (t.mapNodes g).size = t.size := by
    simp [Taxonomy.mapNodes, size]
  refine ⟨h.kind_eq, by rw [hsize, hsize, h.size_eq], h.root, fun i => ?_⟩
  have hnode := h.node? i
  simp only [Taxonomy.node?, Taxonomy.mapNodes, List.getElem?_map] at hnode ⊢
  rw [hnode, Option.map_map, Option.map_map]
  exact congrArg (Option.map · _) (funext hg)

theorem addChild (hlast : ρ.node t.size = t.size) (id : Nat) (segment : String) (fullName : Fqsen) :
    (t.addChild id segment fullName).Renamed ρ (u.addChild (ρ.node id) segment fullName) := by
  refine ⟨h.kind_eq, by rw [size_addChild, size_addChild, h.size_eq], h.root, fun i => ?_⟩
  have hchild (n : Node) : (if ρ.node id = ρ.node i then
        { n.rename ρ with children := (n.rename ρ).children.insert segment t.size } else n.rename ρ) =
      (if id = i then { n with children := n.children.insert segment t.size } else n).rename ρ := by
    simp only [ρ.node.injective.eq_iff]
    split
    · simp only [Node.rename, NameMap.map_insert, hlast]
    · rfl
  rw [node?_addChild, node?_addChild, h.size_eq, h.node?]
  by_cases hi : i = t.size
  · have hbare : Node.bare t.size fullName (some (ρ.node id)) =
        (Node.bare t.size fullName (some id)).rename ρ := by
      simp only [Node.bare, Node.rename, hlast]
      rfl
    rw [if_pos hi, if_pos (hi ▸ hlast), hbare]
    exact congrArg some (hchild _)
  · have hi' : ρ.node i ≠ t.size := fun heq => hi (ρ.node.injective (heq.trans hlast.symm))
    rw [if_neg hi, if_neg hi', Option.map_map, Option.map_map]
    exact congrArg (Option.map · _) (funext hchild)

end Taxonomy.Renamed

theorem Taxonomy.size_le_ensureFrom (t : Taxonomy) (id : Nat) (path : Fqsen)
    (segments : List String) : t.size ≤ (t.ensureFrom id path segments).tree.size := by
  induction segments generalizing t id path with
  | nil => exact Nat.le_refl _
  | cons segment rest ih =>
    simp only [ensureFrom]
    split
    · exact ih t _ _
    · have hgrown := ih (t.addChild id segment (path.join segment)) t.size (path.join segment)
      rw [size_addChild] at hgrown
      exact Nat.le_of_succ_le hgrown

namespace Taxonomy.Renamed

variable {ρ : Renaming} {t u : Taxonomy}

/-- New nodes have the same numbers in both trees. -/
theorem ensureFrom (h : t.Renamed ρ u) (hbeyond : ∀ i, t.size ≤ i → ρ.node i = i) (id : Nat)
    (path : Fqsen) (segments : List String) :
    (t.ensureFrom id path segments).tree.Renamed ρ (u.ensureFrom (ρ.node id) path segments).tree ∧
      (u.ensureFrom (ρ.node id) path segments).id = ρ.node (t.ensureFrom id path segments).id := by
  induction segments generalizing t u id path with
  | nil => exact ⟨h, rfl⟩
  | cons segment rest ih =>
    simp only [Taxonomy.ensureFrom, h.child?_eq]
    cases t.child? id segment with
    | some child => exact ih h hbeyond child _
    | none =>
      have hlast := hbeyond t.size (Nat.le_refl _)
      have hgrown := h.addChild hlast id segment (path.join segment)
      have hrest := ih hgrown (fun i hi => hbeyond i ?_) t.size (path.join segment)
      · rw [hlast] at hrest
        simp only [Option.map_none, h.size_eq]
        exact hrest
      · rw [size_addChild] at hi
        exact Nat.le_of_succ_le hi

theorem attachAt (h : t.Renamed ρ u) (hbeyond : ∀ i, t.size ≤ i → ρ.node i = i) (fullName : Fqsen)
    (ref : ElementRef) :
    (Compile.attachAt t fullName ref).Renamed ρ (Compile.attachAt u fullName (ref.rename ρ)) ∧
      ∀ i, (Compile.attachAt t fullName ref).size ≤ i → ρ.node i = i := by
  obtain ⟨hmade, hid⟩ := h.ensureFrom hbeyond rootId Fqsen.root fullName.segments
  rw [h.root] at hmade hid
  refine ⟨?_, fun i hi => hbeyond i ?_⟩
  · unfold Compile.attachAt
    simp only [Taxonomy.ensure, hid]
    exact hmade.modifyNode (Node.attach_rename ρ ref) _
  · have hgrown := t.size_le_ensureFrom rootId Fqsen.root fullName.segments
    have hsize : (Compile.attachAt t fullName ref).size =
        (t.ensureFrom rootId Fqsen.root fullName.segments).tree.size :=
      size_modifyNode ..
    omega

/-- Elements that correspond, attached one after the other. -/
theorem attachAll (h : t.Renamed ρ u) (hbeyond : ∀ i, t.size ≤ i → ρ.node i = i)
    (ht : t.Branched) (named : List (ElementRef × Fqsen)) :
    (named.foldl (fun t e => Compile.attachAt t e.2 e.1) t).Renamed ρ
        (named.foldl (fun u e => Compile.attachAt u e.2 (e.1.rename ρ)) u) ∧
      (named.foldl (fun t e => Compile.attachAt t e.2 e.1) t).Branched := by
  induction named generalizing t u with
  | nil => exact ⟨h, ht⟩
  | cons e rest ih =>
    obtain ⟨hstep, hkept⟩ := h.attachAt hbeyond e.2 e.1
    exact ih hstep hkept (ht.attachAt e.2 e.1)

theorem children_eq (h : t.Renamed ρ u) (id : Nat) :
    u.children (ρ.node id) = (t.children id).map (Node.rename ρ) := by
  rw [children, children, h.node?]
  cases t.node? id with
  | none => rfl
  | some n =>
    simp only [Option.map_some, Node.rename, NameMap.values_map, List.filterMap_map,
      List.map_filterMap]
    exact List.filterMap_congr fun child _ => h.node? child

/-- The nodes of both trees correspond. -/
theorem perm_nodes (h : t.Renamed ρ u) (ht : t.Branched) :
    u.nodes.Perm (t.nodes.map (Node.rename ρ)) := by
  have hids (t : Taxonomy) (ht : ∀ id n, t.node? id = some n → n.id = id) :
      (t.nodes.map Node.id).Nodup := by
    have hrange : t.nodes.map Node.id = List.range t.nodes.length := by
      refine List.ext_getElem? fun id => ?_
      rw [List.getElem?_map]
      cases hn : t.nodes[id]? with
      | none => simpa using List.getElem?_eq_none_iff.mp hn
      | some n =>
        rw [List.getElem?_range (List.getElem?_eq_some_iff.mp hn).1, Option.map_some, ht id n hn]
    exact hrange ▸ List.nodup_range
  have hu (id : Nat) (m : Node) (hm : u.node? id = some m) : m.id = id := by
    obtain ⟨id, rfl⟩ := ρ.node.surjective id
    rw [h.node?] at hm
    obtain ⟨n, hn, rfl⟩ := Option.map_eq_some_iff.mp hm
    exact congrArg ρ.node (ht.id_eq hn)
  have hnodup : (t.nodes.map (Node.rename ρ)).Nodup := by
    refine List.Nodup.of_map Node.id ?_
    have hmap : (t.nodes.map (Node.rename ρ)).map Node.id = (t.nodes.map Node.id).map ρ.node := by
      rw [List.map_map, List.map_map]
      rfl
    exact hmap ▸ (hids t fun _ _ hn => ht.id_eq hn).map ρ.node.injective
  refine (List.perm_ext_iff_of_nodup ((hids u hu).of_map _) hnodup).mpr fun m => ?_
  rw [List.mem_map, List.mem_iff_getElem?]
  constructor
  · rintro ⟨id, hm⟩
    obtain ⟨id, rfl⟩ := ρ.node.surjective id
    obtain ⟨n, hn, rfl⟩ := Option.map_eq_some_iff.mp ((h.node? id).symm.trans hm)
    exact ⟨n, List.mem_of_getElem? hn, rfl⟩
  · rintro ⟨n, hn, rfl⟩
    obtain ⟨id, hid⟩ := List.getElem?_of_mem hn
    refine ⟨ρ.node id, (h.node? id).trans ?_⟩
    rw [Taxonomy.node?, hid]
    rfl

end Taxonomy.Renamed

end ApiDoc
