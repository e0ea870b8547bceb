import ApiDoc.Proofs.Branches

/-!
# Trees that grow

A tree only grows: names are made sure to be there, and elements are attached to nodes. A name that
leads to a node leads there for good. Numbers, parents, children and full names tell of one tree all
the time, because each node lies at a path of its own and stands behind the fronts of its path. A
walk down from the root passes every node once, in the order of the paths, and so does the loop that
keeps a stack in place of the recursion.
-/

namespace ApiDoc

namespace Taxonomy

namespace Branches

variable {t : Taxonomy} {paths : List (List String)} {load : List String → Node}
  (h : t.Branches paths load)
include h

/-- The way to a node is not longer than there are nodes before it. -/
theorem length_le (hfirst : FrontsFirst paths) {path : List String} {i : Nat}
    (hi : paths[i]? = some path) : path.length ≤ i := by
  induction path using List.reverseRecOn generalizing i with
  | nil => exact Nat.zero_le i
  | append_singleton front segment ih =>
    obtain ⟨j, hj⟩ := List.getElem?_of_mem (h.front_mem (List.mem_of_getElem? hi))
    have hfront := ih hj
    have hlt := hfirst.lt hj hi
    rw [List.length_append, List.length_singleton]
    omega

theorem index_inj {i j : Nat} {path : List String} (hi : paths[i]? = some path)
    (hj : paths[j]? = some path) : i = j :=
  (List.getElem?_inj (List.getElem?_eq_some_iff.mp hi).1 h.nodup).mp (hi.trans hj.symm)

theorem lt_size_iff {i : Nat} : i < t.size ↔ ∃ path, paths[i]? = some path := by
  rw [h.size_eq]
  constructor
  · exact fun hi => ⟨_, List.getElem?_eq_getElem hi⟩
  · exact fun ⟨_, hi⟩ => (List.getElem?_eq_some_iff.mp hi).1

theorem exists_path {id : Nat} {n : Node} (hn : t.node? id = some n) :
    ∃ path, paths[id]? = some path ∧ n.LiesAt paths id path (load path) := by
  obtain ⟨path, hpath⟩ := h.lt_size_iff.mp (List.getElem?_eq_some_iff.mp hn).1
  exact ⟨path, hpath, h.node id n path hn hpath⟩

/-! ### Ways to nodes -/

/-- The way along segments ends at the node of the longer path. -/
theorem findFrom_eq_some_iff {id : Nat} {path : List String} (hpath : paths[id]? = some path)
    {segments : List String} {i : Nat} :
    t.findFrom id segments = some i ↔ paths[i]? = some (path ++ segments) := by
  induction segments generalizing id path with
  | nil =>
    rw [findFrom, List.append_nil, Option.some_inj]
    exact ⟨fun heq => heq ▸ hpath, fun hi => h.index_inj hpath hi⟩
  | cons segment rest ih =>
    rw [findFrom, ← List.singleton_append, ← List.append_assoc]
    cases hchild : t.child? id segment with
    | some child =>
      rw [Option.bind_some]
      exact ih ((h.child?_eq_some_iff hpath).mp hchild)
    | none =>
      refine iff_of_false (by simp) fun hi => ?_
      have hmem := h.mem_of_prefix (List.prefix_append _ rest) (List.mem_of_getElem? hi)
      obtain ⟨child, hget⟩ := List.getElem?_of_mem hmem
      simp [(h.child?_eq_some_iff hpath).mpr hget] at hchild

theorem find?_eq_some_iff {fullName : Fqsen} {i : Nat} :
    t.find? fullName = some i ↔ paths[i]? = some fullName.segments :=
  h.findFrom_eq_some_iff h.root

theorem find?_eq_none_iff {fullName : Fqsen} :
    t.find? fullName = none ↔ fullName.segments ∉ paths := by
  rw [Option.eq_none_iff_forall_ne_some, List.mem_iff_getElem?, not_exists]
  exact forall_congr' fun i => not_congr h.find?_eq_some_iff

/-! ### The walk down -/

/-- Below a node lie the nodes whose paths go through it, as far down as the walk goes. -/
theorem mem_below_iff {depth id : Nat} {path : List String} (hpath : paths[id]? = some path)
    {i : Nat} : i ∈ t.below depth id ↔
      ∃ rest, rest.length < depth ∧ paths[i]? = some (path ++ rest) := by
  induction depth generalizing id path with
  | zero => simp [below]
  | succ depth ih =>
    obtain ⟨n, hn, hlies⟩ := h.exists_node hpath
    simp only [below, hn, Option.map_some, Option.getD_some, List.mem_cons, List.mem_flatMap]
    constructor
    · rintro (rfl | ⟨child, hchild, hi⟩)
      · exact ⟨[], Nat.succ_pos depth, by rwa [List.append_nil]⟩
      · obtain ⟨segment, hsegment⟩ := NameMap.mem_values_iff.mp hchild
        obtain ⟨rest, hlength, hrest⟩ := (ih ((hlies.children segment child).mp hsegment)).mp hi
        exact ⟨segment :: rest, Nat.succ_lt_succ hlength, by simpa using hrest⟩
    · rintro ⟨rest, hlength, hi⟩
      cases rest with
      | nil => exact .inl (h.index_inj (by rwa [List.append_nil] at hi) hpath)
      | cons segment rest =>
        rw [← List.singleton_append, ← List.append_assoc] at hi
        have hmem := h.mem_of_prefix (List.prefix_append _ rest) (List.mem_of_getElem? hi)
        obtain ⟨child, hchild⟩ := List.getElem?_of_mem hmem
        have hget := (hlies.children segment child).mpr hchild
        refine .inr ⟨child, NameMap.mem_values_iff.mpr ⟨segment, hget⟩, ?_⟩
        exact (ih hchild).mpr ⟨rest, Nat.lt_of_succ_lt_succ hlength, hi⟩

/-- The walk down passes the nodes in the order of their paths. -/
theorem pairwise_below {depth id : Nat} {path : List String} (hpath : paths[id]? = some path) :
    (t.below depth id).Pairwise fun i j =>
      ∀ p q, paths[i]? = some p → paths[j]? = some q → p < q := by
  induction depth generalizing id path with
  | zero => exact List.Pairwise.nil
  | succ depth ih =>
    obtain ⟨n, hn, hlies⟩ := h.exists_node hpath
    have hway {segment : String} {child : Nat} (hchild : (segment, child) ∈ n.children.entries) :
        paths[child]? = some (path ++ [segment]) :=
      (hlies.children segment child).mp (NameMap.mem_entries_iff.mp hchild)
    simp only [below, hn, Option.map_some, Option.getD_some, NameMap.values, List.flatMap_map]
    refine List.pairwise_cons.mpr ⟨fun j hj p q hp hq => ?_, List.pairwise_flatMap.mpr ⟨?_, ?_⟩⟩
    · obtain ⟨⟨segment, child⟩, hchild, hj⟩ := List.mem_flatMap.mp hj
      obtain ⟨rest, -, hrest⟩ := (h.mem_below_iff (hway hchild)).mp hj
      obtain rfl := Option.some.inj (hpath.symm.trans hp)
      obtain rfl := Option.some.inj (hrest.symm.trans hq)
      rw [List.append_assoc]
      simpa using List.append_left_lt (List.nil_lt_cons segment rest)
    · exact fun e he => ih (hway he)
    · refine n.children.sorted.imp_of_mem fun {a b} ha hb hlt i hi j hj p q hp hq => ?_
      obtain ⟨rest, -, hrest⟩ := (h.mem_below_iff (hway ha)).mp hi
      obtain ⟨rest', -, hrest'⟩ := (h.mem_below_iff (hway hb)).mp hj
      obtain rfl := Option.some.inj (hrest.symm.trans hp)
      obtain rfl := Option.some.inj (hrest'.symm.trans hq)
      rw [List.append_assoc, List.append_assoc]
      exact List.append_left_lt (List.cons_lt_cons_iff.mpr (.inl hlt))

/-- The walk from the root passes every node, because no path is as long as there are nodes. -/
theorem mem_depthFirst_iff (hfirst : FrontsFirst paths) {i : Nat} :
    i ∈ t.depthFirst ↔ i < t.size := by
  rw [depthFirst, rootId, h.mem_below_iff h.root, h.lt_size_iff]
  constructor
  · rintro ⟨path, -, hi⟩
    exact ⟨path, hi⟩
  · rintro ⟨path, hi⟩
    have hlong := h.length_le hfirst hi
    have hlt := h.lt_size_iff.mpr ⟨path, hi⟩
    exact ⟨path, by omega, hi⟩

theorem pairwise_depthFirst : t.depthFirst.Pairwise fun i j =>
    ∀ p q, paths[i]? = some p → paths[j]? = some q → p < q :=
  h.pairwise_below h.root

theorem perm_depthFirst (hfirst : FrontsFirst paths) : t.depthFirst.Perm (List.range t.size) := by
  have hnodup : t.depthFirst.Nodup := by
    refine h.pairwise_depthFirst.imp_of_mem fun hi _ hlt => ?_
    rintro rfl
    obtain ⟨path, hpath⟩ := h.lt_size_iff.mp ((h.mem_depthFirst_iff hfirst).mp hi)
    exact List.lt_irrefl path (hlt path path hpath hpath)
  refine (List.perm_ext_iff_of_nodup hnodup List.nodup_range).mpr fun i => ?_
  rw [h.mem_depthFirst_iff hfirst, List.mem_range]

/-- A walk that could go down as far as there are nodes passes nothing more if it may go further. -/
theorem below_succ (hfirst : FrontsFirst paths) {depth id : Nat} {path : List String}
    (hpath : paths[id]? = some path) (hdepth : t.size ≤ path.length + depth) :
    t.below (depth + 1) id = t.below depth id := by
  induction depth generalizing id path with
  | zero =>
    have hlong := h.length_le hfirst hpath
    have hlt := h.lt_size_iff.mpr ⟨path, hpath⟩
    omega
  | succ depth ih =>
    obtain ⟨n, hn, hlies⟩ := h.exists_node hpath
    rw [below, below, hn]
    refine congrArg (id :: ·) (List.flatMap_congr fun child hchild => ?_)
    obtain ⟨segment, hsegment⟩ := NameMap.mem_values_iff.mp hchild
    refine ih ((hlies.children segment child).mp hsegment) ?_
    rw [List.length_append, List.length_singleton]
    omega

/-- From any node the walk lists that node and then, child by child, what lies below it. -/
theorem below_size (hfirst : FrontsFirst paths) {id : Nat} {n : Node} (hn : t.node? id = some n) :
    t.below t.size id = id :: n.children.values.flatMap (t.below t.size) := by
  obtain ⟨path, hpath, -⟩ := h.exists_path hn
  rw [← h.below_succ hfirst hpath (Nat.le_add_left _ _), below, hn]
  rfl

/-- What is on the stack is listed with all that lies below it, from the top on, in one round for
each node. -/
theorem stackLoop_eq (hfirst : FrontsFirst paths) {rounds : Nat} {order stack : List Nat}
    (hstack : ∀ id ∈ stack, ∃ n, t.node? id = some n)
    (hrounds : (stack.flatMap (t.below t.size)).length ≤ rounds) :
    t.stackLoop rounds order stack = some (order ++ stack.flatMap (t.below t.size)) := by
  induction rounds generalizing order stack with
  | zero =>
    cases stack with
    | nil => simp [stackLoop]
    | cons id stack =>
      obtain ⟨n, hn⟩ := hstack id List.mem_cons_self
      simp [h.below_size hfirst hn] at hrounds
  | succ rounds ih =>
    cases stack with
    | nil => simp [stackLoop]
    | cons id stack =>
      obtain ⟨⟨n, hn⟩, hstack⟩ := List.forall_mem_cons.mp hstack
      obtain ⟨path, -, hlies⟩ := h.exists_path hn
      have hchildren : ∀ child ∈ n.children.values, ∃ m, t.node? child = some m := by
        intro child hchild
        obtain ⟨segment, hsegment⟩ := NameMap.mem_values_iff.mp hchild
        obtain ⟨m, hm, -⟩ := h.exists_node ((hlies.children segment child).mp hsegment)
        exact ⟨m, hm⟩
      have hlist : (id :: stack).flatMap (t.below t.size) =
          id :: (n.children.values ++ stack).flatMap (t.below t.size) := by
        rw [List.flatMap_cons, h.below_size hfirst hn, List.flatMap_append, List.cons_append]
      rw [hlist, List.length_cons] at hrounds
      rw [stackLoop, hn, hlist, Option.map_some, Option.getD_some, List.foldr_cons_eq_append',
        ih (List.forall_mem_append.mpr ⟨hchildren, hstack⟩) (Nat.le_of_succ_le_succ hrounds),
        List.append_assoc, List.singleton_append]

end Branches

/-! ### Growing -/

/-- What is done to a tree while it grows. -/
inductive Change
  | ensure (fullName : Fqsen)
  | attach (id : Nat) (ref : ElementRef)

/-- The tree after one change; there is nothing to attach to where no node is. -/
def apply (t : Taxonomy) : Change → Taxonomy
  | .ensure fullName => (t.ensure fullName).tree
  | .attach id ref => t.modifyNode id fun n => n.attach ref

def grow (t : Taxonomy) (changes : List Change) : Taxonomy := changes.foldl apply t

/-- The nodes lie at paths, each behind the fronts of its path. -/
def Grown (t : Taxonomy) : Prop := ∃ paths load, t.Branches paths load ∧ FrontsFirst paths

theorem grown_fresh (kind : TaxonomyKind) : (fresh kind).Grown :=
  ⟨_, _, branches_fresh kind, List.pairwise_singleton _ _⟩

theorem Branches.ensure_added {t : Taxonomy} {paths : List (List String)}
    {load : List String → Node} (h : t.Branches paths load) (fullName : Fqsen) :
    ∃ added, (t.ensure fullName).tree.Branches (paths ++ added) load ∧
      (paths ++ added)[(t.ensure fullName).id]? = some fullName.segments ∧
      (t.ensure fullName).created = List.range' t.size added.length ∧
      (∀ p ∈ added, p <+: fullName.segments) ∧
      (FrontsFirst paths → FrontsFirst (paths ++ added)) :=
  h.exists_added h.root fun _ hsegment => Fqsen.isSegment_of_mem_segments hsegment

theorem Grown.apply {t : Taxonomy} (h : t.Grown) (change : Change) : (t.apply change).Grown := by
  obtain ⟨paths, load, hbranches, hfirst⟩ := h
  cases change with
  | ensure fullName =>
    obtain ⟨added, hadded, -, -, -, hkept⟩ := hbranches.ensure_added fullName
    exact ⟨paths ++ added, load, hadded, hkept hfirst⟩
  | attach id ref =>
    by_cases hid : id < t.size
    · obtain ⟨path, hpath⟩ := hbranches.lt_size_iff.mp hid
      exact ⟨paths, _, hbranches.modifyNode hpath (Node.loads_attach ref), hfirst⟩
    · have hsame : t.apply (.attach id ref) = t := by
        rw [Taxonomy.apply, Taxonomy.modifyNode, List.modify_eq_self (Nat.le_of_not_lt hid)]
      rw [hsame]
      exact ⟨paths, load, hbranches, hfirst⟩

theorem Grown.grow {t : Taxonomy} (h : t.Grown) (changes : List Change) :
    (t.grow changes).Grown := by
  induction changes generalizing t with
  | nil => exact h
  | cons change rest ih => exact ih (h.apply change)

/-- However a tree grew, the loop with a stack comes to its end in one round for each node and lists
what the walk lists. -/
theorem stackLoop_grow (kind : TaxonomyKind) (changes : List Change) {rounds : Nat}
    (hrounds : ((fresh kind).grow changes).size ≤ rounds) :
    ((fresh kind).grow changes).stackLoop rounds [] [rootId] =
      some ((fresh kind).grow changes).depthFirst := by
  obtain ⟨paths, load, h, hfirst⟩ := (grown_fresh kind).grow changes
  generalize (fresh kind).grow changes = t at h hrounds ⊢
  have hwalk : [rootId].flatMap (t.below t.size) = t.depthFirst := List.flatMap_singleton _ _
  have hlength : t.depthFirst.length = t.size := by
    rw [(h.perm_depthFirst hfirst).length_eq, List.length_range]
  have hroot : ∀ id ∈ [rootId], ∃ n, t.node? id = some n := by
    obtain ⟨root, hroot, -⟩ := h.exists_node h.root
    exact List.forall_mem_singleton.mpr ⟨root, hroot⟩
  rw [h.stackLoop_eq hfirst hroot (by rwa [hwalk, hlength]), List.nil_append, hwalk]

/-! ### What holds of a grown tree -/

/-- Numbers, parents, children and full names tell of one tree. -/
structure Consistent (t : Taxonomy) : Prop where
  id_eq : ∀ id n, t.node? id = some n → n.id = id
  root : ∃ n, t.node? rootId = some n ∧ n.parent = none
  parent : ∀ id n, t.node? id = some n → id ≠ rootId → ∃ parent m segment,
    n.parent = some parent ∧ parent < id ∧ t.node? parent = some m ∧
      (∀ key, m.children.get? key = some id ↔ key = segment) ∧ n.fullName = m.fullName.join segment
  child : ∀ id n segment child, t.node? id = some n → n.children.get? segment = some child →
    ∃ m, t.node? child = some m ∧ m.parent = some id
  fullName_inj : ∀ i j n m, t.node? i = some n → t.node? j = some m → n.fullName = m.fullName →
    i = j
  find?_fullName : ∀ id n, t.node? id = some n → t.find? n.fullName = some id

/-- No number stands before that of the parent of its node. -/
def ParentsFirst (t : Taxonomy) (ids : List Nat) : Prop :=
  ids.Pairwise fun i j => ∀ n, t.node? i = some n → n.parent ≠ some j

/-- The children of a node stand in the order of their keys. -/
def SiblingsInOrder (t : Taxonomy) (ids : List Nat) : Prop :=
  ids.Pairwise fun i j => ∀ parent segment other,
    t.child? parent segment = some i → t.child? parent other = some j → segment < other

/-- What comes of making a name sure to be there: the name leads to a node, the new nodes are told
with parents first, doing it again makes none, and ways of other names end where they ended. -/
structure Ensures (t : Taxonomy) (fullName : Fqsen) (made : Ensured) : Prop where
  find? : made.tree.find? fullName = some made.id
  created : made.created.Nodup ∧ ∀ id, id ∈ made.created ↔ t.size ≤ id ∧ id < made.tree.size
  parentsFirst : made.tree.ParentsFirst made.created
  again : made.tree.ensure fullName = { tree := made.tree, id := made.id, created := [] }
  found : ∀ other id, t.find? other = some id → made.tree.find? other = some id
  missing : ∀ other, ¬ other.segments <+: fullName.segments → t.find? other = none →
    made.tree.find? other = none

/-- Every node once, parents before their children and siblings in name order. -/
structure Lists (t : Taxonomy) (ids : List Nat) : Prop where
  perm : ids.Perm (List.range t.size)
  parentsFirst : t.ParentsFirst ids
  siblingsInOrder : t.SiblingsInOrder ids

/-- Places below one place are in the order of the last steps to them. -/
theorem lt_of_append_lt {path : List String} {segment other : String}
    (h : path ++ [segment] < path ++ [other]) : segment < other := by
  induction path with
  | nil => simpa [List.cons_lt_cons_iff] using h
  | cons first rest ih =>
    rcases List.cons_lt_cons_iff.mp h with hlt | ⟨-, hrest⟩
    · exact absurd hlt (String.lt_irrefl first)
    · exact ih hrest

namespace Branches

variable {t : Taxonomy} {paths : List (List String)} {load : List String → Node}
  (h : t.Branches paths load)
include h

/-- The parent of a node lies at the front of its path. -/
theorem parent_eq_some_iff {id : Nat} {n : Node} (hn : t.node? id = some n) {parent : Nat} :
    n.parent = some parent ↔ ∃ front segment,
      paths[id]? = some (front ++ [segment]) ∧ paths[parent]? = some front := by
  obtain ⟨path, hpath, hlies⟩ := h.exists_path hn
  rw [hpath]
  rcases hlies.parent with ⟨rfl, hnone⟩ | ⟨front, segment, up, rfl, hfront, hparent⟩
  · simp [hnone]
  · rw [hparent, Option.some_inj]
    constructor
    · rintro rfl
      exact ⟨front, segment, rfl, hfront⟩
    · rintro ⟨front', segment', heq, hfront'⟩
      obtain ⟨rfl, -⟩ := List.append_inj' (Option.some.inj heq) rfl
      exact h.index_inj hfront hfront'

theorem parent_lt (hfirst : FrontsFirst paths) {id parent : Nat} {n : Node}
    (hn : t.node? id = some n) (hparent : n.parent = some parent) : parent < id := by
  obtain ⟨front, segment, hid, hfront⟩ := (h.parent_eq_some_iff hn).mp hparent
  exact hfirst.lt hfront hid

theorem consistent (hfirst : FrontsFirst paths) : t.Consistent where
  id_eq id n hn := by
    obtain ⟨path, -, hlies⟩ := h.exists_path hn
    exact hlies.id_eq
  root := by
    obtain ⟨n, hn, hlies⟩ := h.exists_node h.root
    rcases hlies.parent with ⟨-, hnone⟩ | ⟨front, segment, parent, heq, -, -⟩
    · exact ⟨n, hn, hnone⟩
    · simp at heq
  parent id n hn hne := by
    obtain ⟨path, hpath, hlies⟩ := h.exists_path hn
    rcases hlies.parent with ⟨rfl, -⟩ | ⟨front, segment, parent, rfl, hfront, hparent⟩
    · exact absurd (h.index_inj hpath h.root) hne
    · obtain ⟨m, hm, hlies'⟩ := h.exists_node hfront
      refine ⟨parent, m, segment, hparent, hfirst.lt hfront hpath, hm, fun key => ?_, ?_⟩
      · rw [hlies'.children, hpath]
        simp [eq_comm]
      · rw [hlies.fullName_eq, hlies'.fullName_eq, pathName_append]
  child id n segment child hn hchild := by
    obtain ⟨path, hpath, hlies⟩ := h.exists_path hn
    have hway := (hlies.children segment child).mp hchild
    obtain ⟨m, hm, -⟩ := h.exists_node hway
    exact ⟨m, hm, (h.parent_eq_some_iff hm).mpr ⟨path, segment, hway, hpath⟩⟩
  fullName_inj i j n m hn hm heq := by
    obtain ⟨p, hp, hlies⟩ := h.exists_path hn
    obtain ⟨q, hq, hlies'⟩ := h.exists_path hm
    have hsame : p = q := by
      rw [← segments_pathName (h.segments p (List.mem_of_getElem? hp)), ← hlies.fullName_eq, heq,
        hlies'.fullName_eq, segments_pathName (h.segments q (List.mem_of_getElem? hq))]
    exact h.index_inj hp (hsame ▸ hq)
  find?_fullName id n hn := by
    obtain ⟨path, hpath, hlies⟩ := h.exists_path hn
    rw [h.find?_eq_some_iff, hlies.fullName_eq,
      segments_pathName (h.segments path (List.mem_of_getElem? hpath))]
    exact hpath

theorem lists_depthFirst (hfirst : FrontsFirst paths) : t.Lists t.depthFirst where
  perm := h.perm_depthFirst hfirst
  parentsFirst := by
    refine h.pairwise_depthFirst.imp fun {i j} hlt n hn hparent => ?_
    obtain ⟨front, segment, hi, hj⟩ := (h.parent_eq_some_iff hn).mp hparent
    -- The path of a node does not come before its front.
    have hback : front ++ [] < front ++ [segment] :=
      List.append_left_lt (List.nil_lt_cons segment [])
    rw [List.append_nil] at hback
    exact List.lt_irrefl _ (List.lt_trans (hlt _ _ hi hj) hback)
  siblingsInOrder := by
    refine h.pairwise_depthFirst.imp fun {i j} hlt parent segment other hi hj => ?_
    obtain ⟨path, hpath⟩ : ∃ path, paths[parent]? = some path := by
      obtain ⟨n, hn, -⟩ := Option.bind_eq_some_iff.mp hi
      obtain ⟨path, hpath, -⟩ := h.exists_path hn
      exact ⟨path, hpath⟩
    have horder := hlt _ _ ((h.child?_eq_some_iff hpath).mp hi) ((h.child?_eq_some_iff hpath).mp hj)
    exact lt_of_append_lt horder

end Branches

/-- A name that leads to a node is there. -/
theorem ensureFrom_of_findFrom {t : Taxonomy} {id i : Nat} {segments : List String}
    (hfound : t.findFrom id segments = some i) (path : Fqsen) :
    t.ensureFrom id path segments = { tree := t, id := i } := by
  induction segments generalizing id path with
  | nil => rw [ensureFrom, Option.some.inj hfound]
  | cons segment rest ih =>
    rw [findFrom] at hfound
    obtain ⟨child, hchild, hrest⟩ := Option.bind_eq_some_iff.mp hfound
    simp only [ensureFrom, hchild]
    exact ih hrest _

theorem ensure_of_find? {t : Taxonomy} {fullName : Fqsen} {i : Nat}
    (hfound : t.find? fullName = some i) : t.ensure fullName = { tree := t, id := i } :=
  ensureFrom_of_findFrom hfound _

theorem Branches.ensures {t : Taxonomy} {paths : List (List String)} {load : List String → Node}
    (h : t.Branches paths load) (hfirst : FrontsFirst paths) (fullName : Fqsen) :
    t.Ensures fullName (t.ensure fullName) := by
  obtain ⟨added, hgrown, hend, hcreated, hway, hkept⟩ := h.ensure_added fullName
  have hfound : (t.ensure fullName).tree.find? fullName = some (t.ensure fullName).id :=
    hgrown.find?_eq_some_iff.mpr hend
  refine ⟨hfound, ⟨?_, fun id => ?_⟩, ?_, ensure_of_find? hfound, fun other id hother => ?_,
    fun other hoff hother => ?_⟩
  · exact hcreated ▸ List.nodup_range'
  · rw [hcreated, List.mem_range'_1, hgrown.size_eq, List.length_append, h.size_eq]
  · -- New nodes are told in the order of their numbers, and the number of a parent is smaller.
    rw [hcreated, ParentsFirst]
    refine (List.pairwise_lt_range' 1).imp fun {i j} hlt n hn hparent => ?_
    have hup := hgrown.parent_lt (hkept hfirst) hn hparent
    omega
  · rw [h.find?_eq_some_iff] at hother
    rw [hgrown.find?_eq_some_iff, List.getElem?_append_left (List.getElem?_eq_some_iff.mp hother).1]
    exact hother
  · rw [h.find?_eq_none_iff] at hother
    rw [hgrown.find?_eq_none_iff, List.mem_append]
    rintro (hmem | hmem)
    · exact hother hmem
    · exact hoff (hway _ hmem)

/-- However a tree grew, it is one tree in all that its nodes say; every name can be made sure to be
there without a way ending elsewhere, and the walk from the root passes every node once. -/
theorem consistent_grow (kind : TaxonomyKind) (changes : List Change) :
    ((fresh kind).grow changes).Consistent ∧
      (∀ fullName, ((fresh kind).grow changes).Ensures fullName
        (((fresh kind).grow changes).ensure fullName)) ∧
      ((fresh kind).grow changes).Lists ((fresh kind).grow changes).depthFirst := by
  obtain ⟨paths, load, h, hfirst⟩ := (grown_fresh kind).grow changes
  exact ⟨h.consistent hfirst, h.ensures hfirst, h.lists_depthFirst hfirst⟩

end Taxonomy

end ApiDoc
