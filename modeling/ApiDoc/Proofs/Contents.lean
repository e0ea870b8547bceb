import Mathlib.Data.List.Sort
import ApiDoc.Proofs.FileOrder
import ApiDoc.Proofs.Growth

/-!
# Tables that mirror trees

The walk through a tree enters its nodes into a flat table and notes every new entry at the first
one with the URL of its parent. It passes the nodes in the order of `Taxonomy.depthFirst`, so a
parent is in the table when its children come. As long as no two nodes share a URL, what is noted at
an entry are the URLs of the children of its node.
-/

namespace ApiDoc

/-! ### Entering into a table -/

/-- The entry with one more child. -/
def TocEntry.note (e : TocEntry) (child : String) : TocEntry :=
  { e with children := e.children ++ [child] }

namespace Toc

/-- With one entry for each URL, a child is noted at the entry of its parent and at no other. -/
theorem addChild_eq_map {entries : List TocEntry} (h : (entries.map TocEntry.url).Nodup)
    (parent child : String) : addChild parent child entries =
      entries.map fun e => if e.url = parent then e.note child else e := by
  induction entries with
  | nil => rfl
  | cons e rest ih =>
    obtain ⟨hnew, hrest⟩ := List.nodup_cons.mp h
    rw [addChild, List.map_cons]
    split
    · next heq =>
      have hothers (other : TocEntry) (hother : other ∈ rest) : other.url ≠ parent := by
        rintro rfl
        exact hnew (heq ▸ List.mem_map_of_mem hother)
      congr 1
      refine (List.map_id rest).symm.trans (List.map_congr_left fun other hother => ?_)
      rw [if_neg (hothers other hother), id]
    · rw [ih hrest]

/-- A new entry is noted at the entry that it names as its parent. -/
theorem add_eq {name : String} {entries : List TocEntry} (h : (entries.map TocEntry.url).Nodup)
    (e : TocEntry) : add { name := name, entries := entries } e =
      { name := name, entries := (entries.map fun other =>
          if e.parent = some other.url then other.note e.url else other) ++ [e] } := by
  rw [add]
  cases e.parent with
  | none => simp
  | some parent => simp only [addChild_eq_map h, Option.some_inj, eq_comm]

/-- The entry with the URLs of the entries that name it as their parent. -/
def gather (entries : List TocEntry) (e : TocEntry) : TocEntry :=
  { e with children := (entries.filter (·.parent = some e.url)).map TocEntry.url }

theorem gather_concat (front : List TocEntry) (e other : TocEntry) :
    gather (front ++ [e]) other =
      if e.parent = some other.url then (gather front other).note e.url
      else gather front other := by
  split <;> simp_all [gather, TocEntry.note]

/-- An entry without children that no entry names as its parent stays as it is. -/
theorem gather_eq_self {entries : List TocEntry} {e : TocEntry} (hbare : e.children = [])
    (hnone : ∀ other ∈ entries, other.parent ≠ some e.url) : gather entries e = e := by
  have hnil : entries.filter (·.parent = some e.url) = [] :=
    List.filter_eq_nil_iff.mpr fun other hother => by simpa using hnone other hother
  rw [gather, hnil, List.map_nil, ← hbare]

/-- A table into which entries without children are put, parents first, notes at each of them the
entries that name it as their parent. -/
theorem foldl_add {entries : List TocEntry} (hbare : ∀ e ∈ entries, e.children = [])
    (hurls : (entries.map TocEntry.url).Nodup) (hself : ∀ e ∈ entries, e.parent ≠ some e.url)
    (hfirst : entries.Pairwise fun e later => e.parent ≠ some later.url) (name : String) :
    entries.foldl add { name := name } =
      { name := name, entries := entries.map (gather entries) } := by
  induction entries using List.reverseRecOn with
  | nil => rfl
  | append_singleton front e ih =>
    obtain ⟨hfront, -, hbefore⟩ := List.pairwise_append.mp hfirst
    rw [List.map_append, List.nodup_append] at hurls
    obtain ⟨hbareFront, hbareLast⟩ := List.forall_mem_append.mp hbare
    obtain ⟨hselfFront, hselfLast⟩ := List.forall_mem_append.mp hself
    have hlast : gather (front ++ [e]) e = e :=
      gather_eq_self (hbareLast e List.mem_cons_self) <| List.forall_mem_append.mpr
        ⟨fun other hother => hbefore other hother e List.mem_cons_self, by simpa using hselfLast⟩
    have hgathered : ((front.map (gather front)).map TocEntry.url).Nodup := by
      rw [List.map_map]
      exact hurls.1
    rw [List.foldl_append, ih hbareFront hurls.1 hselfFront hfront, List.foldl_cons, List.foldl_nil,
      add_eq hgathered, List.map_map, List.map_append, List.map_singleton, hlast]
    congr 2
    exact List.map_congr_left fun other _ => (gather_concat front e other).symm

end Toc

/-! ### The nodes of a walk -/

/-- One node lies before another in the order of the ways to them. -/
def Node.Before (n m : Node) : Prop := n.fullName.segments < m.fullName.segments

instance : Std.Irrefl Node.Before := ⟨fun n => List.lt_irrefl n.fullName.segments⟩

instance : Std.Antisymm Node.Before := ⟨fun _ _ h h' => absurd h' (List.lt_asymm h)⟩

namespace Taxonomy

/-- The nodes below the root, in the order of the walk. -/
def branches (t : Taxonomy) : List Node :=
  (t.depthFirst.filter (· ≠ rootId)).filterMap t.node?

def nodesBelow (t : Taxonomy) (depth : Nat) (n : Node) : List Node :=
  (t.below depth n.id).filterMap t.node?

namespace Consistent

variable {t : Taxonomy} (h : t.Consistent)
include h

/-- A child of a node is a node that has it as its parent. -/
theorem of_mem_children {id : Nat} {n : Node} (hn : n ∈ t.children id) :
    t.node? n.id = some n ∧ n.parent = some id := by
  rw [children] at hn
  cases hup : t.node? id with
  | none => simp [hup] at hn
  | some up =>
    rw [hup] at hn
    obtain ⟨child, hchild, hget⟩ := List.mem_filterMap.mp hn
    obtain ⟨segment, hsegment⟩ := NameMap.mem_values_iff.mp hchild
    obtain ⟨m, hm, hparent⟩ := h.child id up segment child hup hsegment
    obtain rfl := Option.some.inj (hm.symm.trans hget)
    exact ⟨(h.id_eq child m hm).symm ▸ hm, hparent⟩

/-- A node with a parent is not the root. -/
theorem ne_root {n : Node} (hn : t.node? n.id = some n) {parent : Nat}
    (hparent : n.parent = some parent) : n.id ≠ rootId := by
  intro heq
  obtain ⟨root, hroot, hnone⟩ := h.root
  rw [heq, hroot] at hn
  rw [Option.some.inj hn, hparent] at hnone
  contradiction

/-- What lies below children is below their nodes. -/
theorem filterMap_flatMap_below {n : Node} (hn : t.node? n.id = some n) (depth : Nat) :
    (n.children.values.flatMap (t.below depth)).filterMap t.node? =
      (t.children n.id).flatMap (t.nodesBelow depth) := by
  have hall : ∀ child ∈ n.children.values, ∃ m, t.node? child = some m ∧ m.id = child := by
    intro child hchild
    obtain ⟨segment, hsegment⟩ := NameMap.mem_values_iff.mp hchild
    obtain ⟨m, hm, -⟩ := h.child n.id n segment child hn hsegment
    exact ⟨m, hm, h.id_eq child m hm⟩
  rw [children, hn]
  dsimp only
  generalize n.children.values = ids at hall
  induction ids with
  | nil => rfl
  | cons id rest ih =>
    obtain ⟨⟨m, hm, hid⟩, hrest⟩ := List.forall_mem_cons.mp hall
    rw [List.flatMap_cons, List.filterMap_append, ih hrest, List.filterMap_cons_some hm,
      List.flatMap_cons, nodesBelow, hid]

theorem nodesBelow_succ {n : Node} (hn : t.node? n.id = some n) (depth : Nat) :
    t.nodesBelow (depth + 1) n = n :: (t.children n.id).flatMap (t.nodesBelow depth) := by
  rw [← h.filterMap_flatMap_below hn, nodesBelow, below, hn, List.filterMap_cons_some hn]
  rfl

end Consistent

namespace Branches

variable {t : Taxonomy} {paths : List (List String)} {load : List String → Node}
  (h : t.Branches paths load) (hfirst : FrontsFirst paths)
include h hfirst

/-- The nodes below the root are its children with all that lies below them. -/
theorem branches_eq : t.branches = (t.children rootId).flatMap (t.nodesBelow t.size) := by
  obtain ⟨root, hroot, hlies⟩ := h.exists_node h.root
  have hid : root.id = rootId := hlies.id_eq
  have hwalk : t.depthFirst = rootId :: root.children.values.flatMap (t.below t.size) :=
    h.below_size hfirst hroot
  have hnodup : t.depthFirst.Nodup := (h.perm_depthFirst hfirst).nodup_iff.mpr List.nodup_range
  rw [hwalk] at hnodup
  have hothers : ∀ i ∈ root.children.values.flatMap (t.below t.size), decide (i ≠ rootId) = true :=
    fun i hi => decide_eq_true fun heq => (List.nodup_cons.mp hnodup).1 (heq ▸ hi)
  rw [branches, hwalk, List.filter_cons_of_neg (by simp), List.filter_eq_self.mpr hothers, ← hid,
    (h.consistent hfirst).filterMap_flatMap_below (hid.symm ▸ hroot)]

theorem mem_branches_iff {n : Node} : n ∈ t.branches ↔ t.node? n.id = some n ∧ n.id ≠ rootId := by
  have hids := (h.consistent hfirst).id_eq
  simp only [branches, List.mem_filterMap, List.mem_filter, decide_eq_true_eq,
    h.mem_depthFirst_iff hfirst]
  constructor
  · rintro ⟨id, ⟨-, hne⟩, hn⟩
    rw [hids id n hn]
    exact ⟨hn, hne⟩
  · rintro ⟨hn, hne⟩
    exact ⟨n.id, ⟨(List.getElem?_eq_some_iff.mp hn).1, hne⟩, hn⟩

omit hfirst in
theorem segments_fullName {id : Nat} {n : Node} {path : List String} (hn : t.node? id = some n)
    (hpath : paths[id]? = some path) : n.fullName.segments = path := by
  rw [(h.node id n path hn hpath).fullName_eq,
    segments_pathName (h.segments path (List.mem_of_getElem? hpath))]

omit hfirst in
theorem pairwise_branches : t.branches.Pairwise Node.Before := by
  refine (h.pairwise_depthFirst.filter _).filterMap _ fun i j hlt n hn m hm => ?_
  obtain ⟨p, hp, -⟩ := h.exists_path hn
  obtain ⟨q, hq, -⟩ := h.exists_path hm
  rw [Node.Before, h.segments_fullName hn hp, h.segments_fullName hm hq]
  exact hlt p q hp hq

omit hfirst in
theorem pairwise_children (id : Nat) : (t.children id).Pairwise Node.Before := by
  rw [children]
  cases hup : t.node? id with
  | none => exact List.Pairwise.nil
  | some up =>
    obtain ⟨path, hpath, hlies⟩ := h.exists_path hup
    refine List.Pairwise.filterMap _ (fun i j hlt => hlt) (List.pairwise_map.mpr ?_)
    refine up.children.sorted.imp_of_mem fun {a b} ha hb hlt n hn m hm => ?_
    have hway {e : String × Nat} (he : e ∈ up.children.entries) :
        paths[e.2]? = some (path ++ [e.1]) :=
      (hlies.children e.1 e.2).mp (NameMap.mem_entries_iff.mp he)
    rw [Node.Before, h.segments_fullName hn (hway ha), h.segments_fullName hm (hway hb)]
    exact List.append_left_lt (List.cons_lt_cons_iff.mpr (.inl hlt))

/-- The nodes below the root with one parent are the children of that node. -/
theorem filter_branches (id : Nat) : t.branches.filter (·.parent = some id) = t.children id := by
  refine (h.pairwise_branches.filter _).eq_of_mem_iff (h.pairwise_children id) fun n => ?_
  have hconsistent := h.consistent hfirst
  rw [List.mem_filter, h.mem_branches_iff hfirst, decide_eq_true_iff]
  constructor
  · rintro ⟨⟨hn, -⟩, hparent⟩
    obtain ⟨front, segment, hpath, hfront⟩ := (h.parent_eq_some_iff hn).mp hparent
    obtain ⟨up, hup, hlies⟩ := h.exists_node hfront
    rw [children, hup]
    have hchild := NameMap.mem_values_iff.mpr ⟨segment, (hlies.children segment n.id).mpr hpath⟩
    exact List.mem_filterMap.mpr ⟨n.id, hchild, hn⟩
  · intro hn
    obtain ⟨hnode, hparent⟩ := hconsistent.of_mem_children hn
    exact ⟨⟨hnode, hconsistent.ne_root hnode hparent⟩, hparent⟩

theorem parent_ne_branches :
    t.branches.Pairwise fun n later => n.parent ≠ some later.id := by
  have hids := (h.consistent hfirst).id_eq
  have hwalk := (h.lists_depthFirst hfirst).parentsFirst
  refine (hwalk.filter _).filterMap _ fun i j hlater n hn m hm => ?_
  rw [hids j m hm]
  exact hlater n hn

end Branches

end Taxonomy

/-! ### Walking with a router -/

theorem Router.page_of_not_isOk {r : Router} {d : Destination} (h : (r.page d).isOk = false) :
    r.page d = .error (.noRoute d.typeName d.name) := by
  unfold page at h ⊢
  split
  · next hurl => simp [hurl, Except.isOk, Except.toBool] at h
  · rfl

namespace Compile

section Walk

variable (router : Router) (t : Taxonomy)

/-- The URL of a node; a node without a page has none, and the empty one stands for it. -/
def nodeUrl (n : Node) : String :=
  match router.page (nodeDestination t.kind n) with
  | .ok page => relativeUrl page
  | .error _ => ""

/-- The URL of the node with a number. The root is not in the table and has none. -/
def urlAt (id : Nat) : Option String :=
  if id = Taxonomy.rootId then none else (t.node? id).map (nodeUrl router t)

/-- The entry of a node when it comes into the table. -/
def bareEntry (n : Node) : TocEntry where
  url := nodeUrl router t n
  title := n.fullName.text
  parent := n.parent.bind (urlAt router t)

/-- The entry of a node in a table that mirrors the tree. -/
def nodeEntry (n : Node) : TocEntry where
  url := nodeUrl router t n
  title := n.fullName.text
  parent := n.parent.bind (urlAt router t)
  children := (t.children n.id).map (nodeUrl router t)

/-- The table that mirrors a tree, if there is a node below the root. -/
def mirror (name : String) : List Toc :=
  if 1 < t.size then [{ name := name, entries := t.branches.map (nodeEntry router t) }] else []

def branchDestinations : List Destination := t.branches.map (nodeDestination t.kind)

/-- Every node below the root has a page, and no two have the same URL. -/
structure TellsApart : Prop where
  paged : ∀ d ∈ branchDestinations t, (router.page d).isOk
  nodup : (t.branches.map (nodeUrl router t)).Nodup

/-- The table with the entry of one node more. -/
def enter (toc : Toc) (n : Node) : Except BuildError Toc :=
  match router.page (nodeDestination t.kind n) with
  | .ok _ => .ok (toc.add (bareEntry router t n))
  | .error e => .error e

end Walk

variable {router : Router} {t : Taxonomy}

/-- The recursive walk enters the nodes in the order in which they are listed. -/
theorem addNodes_eq_foldlM (ht : t.Consistent) {depth id : Nat} {nodes : List Node}
    (hnodes : ∀ n ∈ nodes, t.node? n.id = some n ∧ n.parent = some id) (toc : Toc) :
    addNodes router t (urlAt router t id) depth nodes toc =
      (nodes.flatMap (t.nodesBelow depth)).foldlM (enter router t) toc := by
  induction depth generalizing id nodes toc with
  | zero =>
    induction nodes generalizing toc with
    | nil => rw [addNodes]; rfl
    | cons n rest ih =>
      rw [addNodes, addNode]
      exact ih (fun m hm => hnodes m (List.mem_cons_of_mem n hm)) toc
  | succ depth ihDepth =>
    induction nodes generalizing toc with
    | nil => rw [addNodes]; rfl
    | cons n rest ih =>
      obtain ⟨⟨hn, hparent⟩, hrest⟩ := List.forall_mem_cons.mp hnodes
      rw [addNodes, addNode, List.flatMap_cons, List.foldlM_append, ht.nodesBelow_succ hn,
        List.foldlM_cons, enter, funext (ih hrest)]
      cases hpage : router.page (nodeDestination t.kind n) with
      | error e => rfl
      | ok page =>
        have hurl : nodeUrl router t n = relativeUrl page := by rw [nodeUrl, hpage]
        have hup : urlAt router t n.id = some (relativeUrl page) := by
          rw [urlAt, if_neg (ht.ne_root hn hparent), hn, Option.map_some, hurl]
        have hbelow := ihDepth (fun m (hm : m ∈ t.children n.id) => ht.of_mem_children hm)
          (toc.add (bareEntry router t n))
        rw [hup] at hbelow
        simp only [bind, Except.bind]
        rw [← hbelow, bareEntry, hparent, Option.bind_some, hurl]

/-- Entering nodes stops at the first one without a page. -/
theorem foldlM_enter (nodes : List Node) (toc : Toc) :
    nodes.foldlM (enter router t) toc =
      match (nodes.map (nodeDestination t.kind)).find? fun d => !(router.page d).isOk with
      | some d => .error (.noRoute d.typeName d.name)
      | none => .ok ((nodes.map (bareEntry router t)).foldl Toc.add toc) := by
  induction nodes generalizing toc with
  | nil => rfl
  | cons n rest ih =>
    rw [List.foldlM_cons, enter, List.map_cons, List.map_cons, List.foldl_cons]
    cases hok : (router.page (nodeDestination t.kind n)).isOk with
    | false =>
      rw [List.find?_cons_of_pos (by simp [hok]), Router.page_of_not_isOk hok]
      rfl
    | true =>
      rw [List.find?_cons_of_neg (by simp [hok])]
      cases hpage : router.page (nodeDestination t.kind n) with
      | error e => simp [hpage, Except.isOk, Except.toBool] at hok
      | ok page => exact ih _

/-! ### Tables of trees -/

/-- Where nodes share no URL, an entry names the URL of a node as its parent if its node has that
node as its parent. -/
theorem parent_bareEntry_iff (ht : t.Grown) (hurls : (t.branches.map (nodeUrl router t)).Nodup)
    {n m : Node} (hn : n ∈ t.branches) (hm : m ∈ t.branches) :
    (bareEntry router t n).parent = some (nodeUrl router t m) ↔ n.parent = some m.id := by
  obtain ⟨paths, load, h, hfirst⟩ := ht
  obtain ⟨hnode, hne⟩ := (h.mem_branches_iff hfirst).mp hn
  obtain ⟨hnode', hne'⟩ := (h.mem_branches_iff hfirst).mp hm
  have ht := h.consistent hfirst
  obtain ⟨parent, up, -, hparent, -, hup, -⟩ := ht.parent n.id n hnode hne
  rw [bareEntry, hparent, Option.bind_some, urlAt, Option.some_inj]
  split
  · next hroot => exact iff_of_false (by simp) fun heq => hne' (heq ▸ hroot)
  · next hbelow =>
    have hid : up.id = parent := ht.id_eq parent up hup
    have hmem : up ∈ t.branches := (h.mem_branches_iff hfirst).mpr (hid.symm ▸ ⟨hup, hbelow⟩)
    rw [hup, Option.map_some, Option.some_inj]
    constructor
    · intro hurl
      rw [← hid, List.inj_on_of_nodup_map hurls hmem hm hurl]
    · rintro rfl
      rw [Option.some.inj (hup.symm.trans hnode')]

/-- The table of a tree whose nodes share no URL. -/
theorem foldl_bareEntry (ht : t.Grown) (hurls : (t.branches.map (nodeUrl router t)).Nodup)
    (name : String) : (t.branches.map (bareEntry router t)).foldl Toc.add { name := name } =
      { name := name, entries := t.branches.map (nodeEntry router t) } := by
  have hparent {n m : Node} (hn : n ∈ t.branches) (hm : m ∈ t.branches) :=
    parent_bareEntry_iff ht hurls hn hm
  obtain ⟨paths, load, h, hfirst⟩ := ht
  rw [Toc.foldl_add]
  · congr 1
    rw [List.map_map]
    refine List.map_congr_left fun n hn => ?_
    have hchildren : t.branches.filter
        ((·.parent = some (nodeUrl router t n)) ∘ bareEntry router t) = t.children n.id := by
      rw [← h.filter_branches hfirst]
      exact List.filter_congr fun m hm => decide_eq_decide.mpr (hparent hm hn)
    have hurl : TocEntry.url ∘ bareEntry router t = nodeUrl router t := rfl
    rw [Function.comp_apply, Toc.gather, List.filter_map, List.map_map, hurl]
    exact congrArg (fun nodes : List Node =>
      { bareEntry router t n with children := nodes.map (nodeUrl router t) }) hchildren
  · exact fun e he => by obtain ⟨n, -, rfl⟩ := List.mem_map.mp he; rfl
  · rwa [List.map_map]
  · intro e he
    obtain ⟨n, hn, rfl⟩ := List.mem_map.mp he
    intro hself
    have hlt := h.parent_lt hfirst ((h.mem_branches_iff hfirst).mp hn).1 ((hparent hn hn).mp hself)
    omega
  · refine List.pairwise_map.mpr ((h.parent_ne_branches hfirst).imp_of_mem ?_)
    exact fun hn hm hlater heq => hlater ((hparent hn hm).mp heq)

theorem hasBranches_iff (ht : t.Grown) : t.hasBranches = true ↔ 1 < t.size := by
  obtain ⟨paths, load, h, hfirst⟩ := ht
  obtain ⟨root, hroot, hlies⟩ := h.exists_node h.root
  have hempty : t.hasBranches = !root.children.entries.isEmpty := by
    rw [Taxonomy.hasBranches, show t.node? Taxonomy.rootId = some root from hroot]
    rfl
  rw [hempty, Bool.not_eq_true', List.isEmpty_eq_false_iff_exists_mem]
  constructor
  · rintro ⟨⟨segment, child⟩, hchild⟩
    have hway := (hlies.children segment child).mp (NameMap.mem_entries_iff.mp hchild)
    have hlt := h.lt_size_iff.mpr ⟨_, hway⟩
    have hpos : child ≠ 0 := by
      rintro rfl
      simpa using Option.some.inj (h.root.symm.trans hway)
    omega
  · intro hsize
    obtain ⟨path, hpath⟩ := h.lt_size_iff.mp hsize
    cases path with
    | nil => exact absurd (h.index_inj hpath h.root) Nat.one_ne_zero
    | cons segment rest =>
      have hmem := h.mem_of_prefix (List.prefix_append [segment] rest) (List.mem_of_getElem? hpath)
      obtain ⟨child, hchild⟩ := List.getElem?_of_mem hmem
      have hget := (hlies.children segment child).mpr hchild
      exact ⟨(segment, child), NameMap.mem_entries_iff.mpr hget⟩

/-- A tree has its table unless a node has no page; the first such node is the one told. -/
theorem treeTable_eq (ht : t.Grown) (name : String) : treeTable router name t =
    match (branchDestinations t).find? fun d => !(router.page d).isOk with
    | some d => .error (.noRoute d.typeName d.name)
    | none => .ok (if 1 < t.size
        then [(t.branches.map (bareEntry router t)).foldl Toc.add { name := name }] else []) := by
  have hwalk (toc : Toc) : addNodes router t none t.size (t.children Taxonomy.rootId) toc =
      t.branches.foldlM (enter router t) toc := by
    obtain ⟨paths, load, h, hfirst⟩ := ht
    have hconsistent := h.consistent hfirst
    rw [h.branches_eq hfirst, ← addNodes_eq_foldlM hconsistent fun n hn =>
      hconsistent.of_mem_children hn, urlAt, if_pos rfl]
  rw [treeTable, branchDestinations]
  by_cases hbranches : 1 < t.size
  · rw [if_pos ((hasBranches_iff ht).mpr hbranches), hwalk, foldlM_enter, if_pos hbranches]
    cases (t.branches.map (nodeDestination t.kind)).find? fun d => !(router.page d).isOk with
    | some d => rfl
    | none => rfl
  · have hnone : t.branches = [] := by
      obtain ⟨paths, load, h, hfirst⟩ := ht
      refine List.eq_nil_iff_forall_not_mem.mpr fun n hn => hbranches ?_
      obtain ⟨hnode, hne⟩ := (h.mem_branches_iff hfirst).mp hn
      have hlt : n.id < t.size := (List.getElem?_eq_some_iff.mp hnode).1
      exact Nat.lt_of_le_of_lt (Nat.pos_of_ne_zero hne) hlt
    rw [if_neg (mt (hasBranches_iff ht).mp hbranches), hnone, if_neg hbranches]
    rfl

theorem find?_eq_none_of_paged {ds : List Destination} (h : ∀ d ∈ ds, (router.page d).isOk) :
    ds.find? (fun d => !(router.page d).isOk) = none :=
  List.find?_eq_none.mpr fun d hd => by simp [h d hd]

theorem treeTable_of_tellsApart (ht : t.Grown) (h : TellsApart router t) (name : String) :
    treeTable router name t = .ok (mirror router t name) := by
  rw [treeTable_eq ht, find?_eq_none_of_paged h.paged]
  dsimp only
  rw [foldl_bareEntry ht h.nodup, mirror]

end Compile

/-! ### The tables of a set -/

/-- New tables with names of their own take the place of those of the same names. -/
theorem ApiSet.foldl_addTable {tables : List Toc} (h : (tables.map Toc.name).Nodup) (s : ApiSet) :
    tables.foldl addTable s = { s with
      tables := s.tables.filter (·.name ∉ tables.map Toc.name) ++ tables } := by
  induction tables using List.reverseRecOn with
  | nil => simp
  | append_singleton front table ih =>
    rw [List.map_append, List.nodup_append] at h
    have hkept : front.filter (·.name ≠ table.name) = front :=
      List.filter_eq_self.mpr fun other hother => by
        simpa using h.2.2 _ (List.mem_map_of_mem hother) _ (by simp)
    rw [List.foldl_append, ih h.1, List.foldl_cons, List.foldl_nil, addTable, Toc.addTo,
      List.filter_append, hkept, List.filter_filter, List.append_assoc]
    congr 2
    refine List.filter_congr fun old _ => ?_
    simp only [List.map_append, List.map_singleton, List.mem_append, List.mem_singleton, not_or,
      Bool.decide_and, Bool.and_comm, ne_eq]

namespace Compile

/-- The tables that mirror the trees of a set. -/
def mirrored (router : Router) (s : ApiSet) : List Toc :=
  mirror router s.namespaces "Namespaces" ++ mirror router s.packages "Packages"

theorem nodup_mirrored (router : Router) (s : ApiSet) :
    ((mirrored router s).map Toc.name).Nodup := by
  rw [mirrored, mirror, mirror]
  split <;> split <;> simp

section Sets

variable {router : Router} {s : ApiSet} (hspaces : s.namespaces.Grown)
  (hpackages : s.packages.Grown)
include hspaces hpackages

theorem apiContents_of_tellsApart (h : TellsApart router s.namespaces)
    (h' : TellsApart router s.packages) : apiContents router s = { state := { s with
      tables := s.tables.filter (·.name ∉ (mirrored router s).map Toc.name) ++
        mirrored router s } } := by
  have htables : apiTables router s = .ok (mirrored router s) := by
    rw [apiTables, treeTable_of_tellsApart hspaces h, treeTable_of_tellsApart hpackages h']
    rfl
  rw [apiContents, htables]
  dsimp only
  rw [ApiSet.foldl_addTable (nodup_mirrored router s)]

theorem apiContents_of_missing {d : Destination}
    (h : (branchDestinations s.namespaces ++ branchDestinations s.packages).find?
      (fun d => !(router.page d).isOk) = some d) :
    apiContents router s = .fail s (.noRoute d.typeName d.name) := by
  have htables : apiTables router s = .error (.noRoute d.typeName d.name) := by
    rw [apiTables, treeTable_eq hspaces, treeTable_eq hpackages]
    rw [List.find?_append] at h
    cases hfirst : (branchDestinations s.namespaces).find? fun d => !(router.page d).isOk with
    | some d' =>
      rw [hfirst] at h
      obtain rfl := Option.some.inj h
      rfl
    | none =>
      rw [hfirst, Option.none_or] at h
      rw [h]
      rfl
  rw [apiContents, htables]

end Sets

/-- The tables of contents of a set whose trees grew from their roots mirror the trees, if no two
nodes of a tree share a URL. Without a page for a node the step fails at the first such node and
changes nothing. -/
theorem contents_of_grown (services : Services) (title number : String) (settings : Settings)
    (set : ApiSet) (spaces packages : List Taxonomy.Change) :
    let s := { set with
      namespaces := (Taxonomy.fresh .namespaces).grow spaces
      packages := (Taxonomy.fresh .packages).grow packages }
    let start := Project.lone title settings number s
    (TellsApart services.router s.namespaces → TellsApart services.router s.packages →
      contentsPass.run services start =
        { state := .lone title settings number { s with
            tables := set.tables.filter (·.name ∉ (mirrored services.router s).map Toc.name) ++
              mirrored services.router s } }) ∧
      ∀ d, (branchDestinations s.namespaces ++ branchDestinations s.packages).find?
          (fun d => !(services.router.page d).isOk) = some d →
        contentsPass.run services start = .fail start (.noRoute d.typeName d.name) := by
  intro s start
  have hspaces : s.namespaces.Grown := (Taxonomy.grown_fresh .namespaces).grow spaces
  have hpackages : s.packages.Grown := (Taxonomy.grown_fresh .packages).grow packages
  have hrun : contentsPass.run services start =
      (apiContents services.router s).map (Project.lone title settings number) :=
    Project.visitSets_lone rfl
  constructor
  · intro h h'
    rw [hrun, apiContents_of_tellsApart hspaces hpackages h h']
    rfl
  · intro d hd
    rw [hrun, apiContents_of_missing hspaces hpackages hd]
    rfl

/-- A set with the namespaces `A\B` and `C` and the package `P`. -/
def outlined : ApiSet where
  name := "api"
  namespaces := (Taxonomy.fresh .namespaces).grow [.ensure ⟨"\\A\\B"⟩, .ensure ⟨"\\C"⟩]
  packages := (Taxonomy.fresh .packages).grow [.ensure ⟨"\\P"⟩]

def outlinedTables : List Toc :=
  [{ name := "Namespaces"
     entries := [
      { url := "namespaces/A.html", title := "\\A", children := ["namespaces/A.B.html"] },
      { url := "namespaces/A.B.html", title := "\\A\\B", parent := some "namespaces/A.html" },
      { url := "namespaces/C.html", title := "\\C" }] },
   { name := "Packages", entries := [{ url := "packages/P.html", title := "\\P" }] }]

def contentsOfOutlined (router : Router) : Attempt Project :=
  contentsPass.run ⟨router, .none⟩ (.lone "" {} "1" outlined)

/-- With the standard layout the set gets both tables; where only namespaces have pages, its package
is missed. -/
theorem contents_of_grown_outlined :
    contentsOfOutlined .standard =
      { state := .lone "" {} "1" { outlined with tables := outlinedTables } } ∧
    contentsOfOutlined ⟨[Router.spaceRule]⟩ =
      .fail (.lone "" {} "1" outlined) (.noRoute "package" "\\P") := by
  have hspaces : TellsApart .standard outlined.namespaces := ⟨by decide +kernel, by decide +kernel⟩
  have hpackages : TellsApart .standard outlined.packages := ⟨by decide +kernel, by decide +kernel⟩
  have hmirrored : mirrored .standard outlined = outlinedTables := by decide +kernel
  have hmissing : (branchDestinations outlined.namespaces ++
      branchDestinations outlined.packages).find?
        (fun d => !(Router.page ⟨[Router.spaceRule]⟩ d).isOk) = some (.packageNode ⟨"\\P"⟩) := by
    decide +kernel
  have hcontents (router : Router) :=
    contents_of_grown ⟨router, .none⟩ "" "1" {} outlined
      [.ensure ⟨"\\A\\B"⟩, .ensure ⟨"\\C"⟩] [.ensure ⟨"\\P"⟩]
  rw [← hmirrored]
  exact ⟨(hcontents .standard).1 hspaces hpackages, (hcontents _).2 _ hmissing⟩

end Compile

end ApiDoc
