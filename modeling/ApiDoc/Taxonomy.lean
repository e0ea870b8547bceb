import ApiDoc.NameMap
import ApiDoc.Reference

/-!
# Namespace and package trees

A taxonomy is a tree of named nodes. The nodes are numbered in the order in which they were made;
the root is node 0. A node knows its parent and its children by number and lists the elements
attached to it by address. `Taxonomy.ensure` makes the nodes on the way to a name that are still
missing, `Taxonomy.find?` follows the way without making any.
-/

namespace ApiDoc

/-- What the nodes of a tree stand for. -/
inductive TaxonomyKind
  | namespaces
  | packages
deriving DecidableEq, Inhabited

/-- The word for what one node of the tree is. -/
def TaxonomyKind.name : TaxonomyKind → String
  | .namespaces => "namespace"
  | .packages => "package"

def TaxonomyKind.ofName? : String → Option TaxonomyKind
  | "namespace" => some .namespaces
  | "package" => some .packages
  | _ => none

@[simp] theorem TaxonomyKind.ofName?_name (k : TaxonomyKind) : ofName? k.name = some k := by
  cases k <;> rfl

/-- One node of a tree. Elements are attached by kind and full name, files by path. -/
structure Node where
  id : Nat
  name : String
  fullName : Fqsen
  parent : Option Nat := none
  children : NameMap Nat := .empty
  classes : NameMap ElementRef := .empty
  interfaces : NameMap ElementRef := .empty
  traits : NameMap ElementRef := .empty
  functions : NameMap ElementRef := .empty
  constants : NameMap ElementRef := .empty
  files : NameMap Nat := .empty
deriving DecidableEq, Inhabited

namespace Node

/-- A node without children and elements. -/
def bare (id : Nat) (fullName : Fqsen) (parent : Option Nat) : Node :=
  { id := id, name := fullName.name, fullName := fullName, parent := parent }

/-- The attached elements of one kind; members are never attached. -/
def attached? (n : Node) : ElementKind → Option (NameMap ElementRef)
  | .class => some n.classes
  | .interface => some n.interfaces
  | .trait => some n.traits
  | .function => some n.functions
  | .constant => some n.constants
  | .method => none
  | .property => none

def modifyAttached (n : Node) (kind : ElementKind) (f : NameMap ElementRef → NameMap ElementRef) :
    Node :=
  match kind with
  | .class => { n with classes := f n.classes }
  | .interface => { n with interfaces := f n.interfaces }
  | .trait => { n with traits := f n.traits }
  | .function => { n with functions := f n.functions }
  | .constant => { n with constants := f n.constants }
  | .method => n
  | .property => n

/-- Whether an element can be attached: its kind is attached at all and its name is still free. -/
def admits (n : Node) (ref : ElementRef) : Bool :=
  match n.attached? ref.kind with
  | some elements => !elements.contains ref.fqsen.text
  | none => false

/-- The node with an element attached, unless one of its kind and name is there. -/
def attach (n : Node) (ref : ElementRef) : Node :=
  if n.admits ref then n.modifyAttached ref.kind (·.insert ref.fqsen.text ref) else n

/-- The node with only those attached elements that pass a test. -/
def retain (keep : ElementRef → Bool) (n : Node) : Node :=
  { n with
    classes := n.classes.filter fun _ r => keep r
    interfaces := n.interfaces.filter fun _ r => keep r
    traits := n.traits.filter fun _ r => keep r
    functions := n.functions.filter fun _ r => keep r
    constants := n.constants.filter fun _ r => keep r }

/-- The attached elements: classes, interfaces, traits, functions, constants, each in name order. -/
def elements (n : Node) : List ElementRef :=
  n.classes.values ++ n.interfaces.values ++ n.traits.values ++ n.functions.values ++
    n.constants.values

end Node

/-- A tree of nodes, each at the position of its number. -/
structure Taxonomy where
  kind : TaxonomyKind
  nodes : List Node
deriving DecidableEq, Inhabited

namespace Taxonomy

def rootId : Nat := 0

def fresh (kind : TaxonomyKind) : Taxonomy := ⟨kind, [Node.bare rootId Fqsen.root none]⟩

def node? (t : Taxonomy) (id : Nat) : Option Node := t.nodes[id]?

def modifyNode (t : Taxonomy) (id : Nat) (f : Node → Node) : Taxonomy :=
  { t with nodes := t.nodes.modify id f }

def mapNodes (f : Node → Node) (t : Taxonomy) : Taxonomy := { t with nodes := t.nodes.map f }

def size (t : Taxonomy) : Nat := t.nodes.length

def child? (t : Taxonomy) (id : Nat) (segment : String) : Option Nat :=
  (t.node? id).bind fun n => n.children.get? segment

/-- Follows segments down from a node. -/
def findFrom (t : Taxonomy) (id : Nat) : List String → Option Nat
  | [] => some id
  | segment :: rest => (t.child? id segment).bind fun next => findFrom t next rest

def find? (t : Taxonomy) (fullName : Fqsen) : Option Nat := t.findFrom rootId fullName.segments

/-- The tree with a new node below a parent; its number is the old size. -/
def addChild (t : Taxonomy) (parent : Nat) (segment : String) (fullName : Fqsen) : Taxonomy :=
  let id := t.size
  let grown : Taxonomy := { t with nodes := t.nodes ++ [Node.bare id fullName (some parent)] }
  grown.modifyNode parent fun n => { n with children := n.children.insert segment id }

/-- What making a name sure to be there leads to. -/
structure Ensured where
  tree : Taxonomy
  id : Nat
  created : List Nat := []
deriving DecidableEq, Inhabited

/-- Goes down from a node along segments and makes the missing nodes. `path` is the full name of the
node it starts from. -/
def ensureFrom (t : Taxonomy) (id : Nat) (path : Fqsen) : List String → Ensured
  | [] => { tree := t, id := id }
  | segment :: rest =>
    let next := path.join segment
    match t.child? id segment with
    | some child => ensureFrom t child next rest
    | none =>
      let made := ensureFrom (t.addChild id segment next) t.size next rest
      { made with created := t.size :: made.created }

/-- The tree with a node for the name, its number, and the numbers of the nodes that were made for
it, parents first. -/
def ensure (t : Taxonomy) (fullName : Fqsen) : Ensured :=
  t.ensureFrom rootId Fqsen.root fullName.segments

def children (t : Taxonomy) (id : Nat) : List Node :=
  match t.node? id with
  | some n => n.children.values.filterMap t.node?
  | none => []

/-- A node followed by everything below it, down to a depth. -/
def below (t : Taxonomy) : Nat → Nat → List Nat
  | 0, _ => []
  | depth + 1, id =>
    let next := ((t.node? id).map fun n => n.children.values).getD []
    id :: next.flatMap (below t depth)

/-- All numbers, each parent before its children and siblings in name order. No node lies deeper
than there are nodes. -/
def depthFirst (t : Taxonomy) : List Nat := t.below t.size rootId

/-- The loop that keeps a stack: the node on top is listed, then its children are pushed, the last
one first. Running out of rounds is no result. -/
def stackLoop (t : Taxonomy) : Nat → List Nat → List Nat → Option (List Nat)
  | _, order, [] => some order
  | 0, _, _ :: _ => none
  | rounds + 1, order, id :: stack =>
    let next := ((t.node? id).map fun n => n.children.values).getD []
    t.stackLoop rounds (order ++ [id]) (next.foldr List.cons stack)

def hasBranches (t : Taxonomy) : Bool :=
  match t.node? rootId with
  | some n => !n.children.isEmpty
  | none => false

end Taxonomy

end ApiDoc
