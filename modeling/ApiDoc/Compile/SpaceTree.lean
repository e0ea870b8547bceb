import ApiDoc.Compile.Pass

/-!
# The tree of namespaces

Every element that is no member is attached to the node of its namespace. Each node is then entered
in the index `namespaces` under its full name, and among all elements under that name behind the
mark of namespaces.
-/

namespace ApiDoc.Compile

/-- The tree with one element attached to the node of a full name. -/
def attachAt (t : Taxonomy) (fullName : Fqsen) (ref : ElementRef) : Taxonomy :=
  let made := t.ensure fullName
  made.tree.modifyNode made.id (·.attach ref)

/-- The set with every node of a tree entered in an index, and among all elements behind a mark. -/
def enterNodes (mark : String) (name : String) (target : Nat → Target) (nodes : List Node)
    (s : ApiSet) : ApiSet :=
  nodes.foldl (fun s n =>
    let entered := s.addEntry Index.elements (mark ++ n.fullName.text) (target n.id)
    entered.addEntry name n.fullName.text (target n.id)) s

/-- The set with its elements in the tree of namespaces. -/
def withSpaces (s : ApiSet) : ApiSet :=
  let tree := s.topLevelEntries.foldl (fun t ref => attachAt t ref.fqsen.enclosing ref) s.namespaces
  enterNodes "~" Index.namespaces .spaceNode tree.nodes { s with namespaces := tree }

def spacesPass : Pass :=
  .onApiSets "Build \"namespaces\" index and add namespaces to \"elements\"" 9000
    fun _ _ s => { state := withSpaces s }

end ApiDoc.Compile
