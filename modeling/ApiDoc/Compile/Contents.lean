import ApiDoc.Compile.Pass
import ApiDoc.Total

/-!
# Tables of contents

An API set gets one table for its namespaces and one for its packages, each with an entry for every
node below the root, depth first. A guide gets one table, named after its index document, with the
documents that can be reached from there through the lists of the documents; every document comes
once, below the document that lists it first.
-/

namespace ApiDoc.Compile

/-- A page as a URL in a table: without slashes in front. -/
def relativeUrl (page : String) : String := String.ofList (Text.dropLeadChar '/' page.toList)

/-! ### API sets -/

def nodeDestination (kind : TaxonomyKind) (n : Node) : Destination :=
  match kind with
  | .namespaces => .spaceNode n.fullName
  | .packages => .packageNode n.fullName

mutual

/-- The table with the entries of a node and of everything below it, down to a depth. -/
def addNode (router : Router) (t : Taxonomy) (parent : Option String) :
    Nat → Node → Toc → Except BuildError Toc
  | 0, _, toc => .ok toc
  | depth + 1, n, toc => do
    let url := relativeUrl (← router.page (nodeDestination t.kind n))
    let entered := toc.add { url := url, title := n.fullName.text, parent := parent }
    addNodes router t (some url) depth (t.children n.id) entered

def addNodes (router : Router) (t : Taxonomy) (parent : Option String) (depth : Nat) :
    List Node → Toc → Except BuildError Toc
  | [], toc => .ok toc
  | n :: rest, toc => do
    addNodes router t parent depth rest (← addNode router t parent depth n toc)

end

/-- The table of a tree; a tree without branches has none. -/
def treeTable (router : Router) (name : String) (t : Taxonomy) : Except BuildError (List Toc) := do
  if t.hasBranches then
    return [← addNodes router t none t.size (t.children Taxonomy.rootId) { name := name }]
  else
    return []

def apiTables (router : Router) (s : ApiSet) : Except BuildError (List Toc) := do
  let spaces ← treeTable router "Namespaces" s.namespaces
  let packages ← treeTable router "Packages" s.packages
  return spaces ++ packages

/-- The API set with its tables; without a page for every node it stays as it is. -/
def apiContents (router : Router) (s : ApiSet) : Attempt ApiSet :=
  match apiTables router s with
  | .ok tables => { state := tables.foldl ApiSet.addTable s }
  | .error e => .fail s e

/-! ### Guides -/

/-- The document a guide starts with. -/
def guideIndex : String := "index"

/-- A walk through a guide: the documents seen, the table so far and the reports. -/
structure GuideWalk where
  seen : List String
  toc : Toc
  events : List Event := []
  failure : Option BuildError := none

/-- One listed path and the URL of the entry that lists it. -/
structure Listing where
  parent : Option String
  path : String

/-- The listings of a document under the URL of its entry. -/
def listings (parent : Option String) (d : Document) : List Listing :=
  d.listed.map fun path => ⟨parent, path⟩

/-- Walks through listings, a document's own before those behind it; the number bounds the steps. -/
def walk (router : Router) (docs : NameMap Document) : Nat → List Listing → GuideWalk → GuideWalk
  | 0, _, w => w
  | _ + 1, [], w => w
  | steps + 1, l :: rest, w =>
    let key := String.ofList (Text.dropLeadChar '/' l.path.toList)
    match docs.get? key with
    | none =>
      let report := Event.error ("Toc contains a link to a missing document " ++ l.path)
      walk router docs steps rest { w with events := w.events ++ [report] }
    | some child =>
      if w.seen.contains key then walk router docs steps rest w
      else
        match router.page (.document child.path) with
        | .error e => { w with seen := key :: w.seen, failure := some e }
        | .ok page =>
          let url := "guide/" ++ relativeUrl page
          let toc := w.toc.add { url := url, title := child.title, parent := l.parent }
          walk router docs steps (listings (some url) child ++ rest)
            { w with seen := key :: w.seen, toc := toc }

/-- The number of all listings of a guide; a walk takes each of them at most once. -/
def listingCount (docs : NameMap Document) : Nat := total (docs.values.map fun d => d.listed.length)

/-- The guide with its table; without an index document it has none. -/
def guideContents (router : Router) (g : GuideSet) : Attempt GuideSet :=
  match g.documents.get? guideIndex with
  | none => { state := g }
  | some index =>
    let w := walk router g.documents (listingCount g.documents) (listings none index)
      { seen := [guideIndex], toc := { name := index.title } }
    match w.failure with
    | some e => ⟨g, w.events, some e⟩
    | none => { state := g.addTable w.toc, events := w.events }

def contentsPass : Pass where
  description := "Builds table of contents for api documentation sets"
  priority := 7000
  run services p := p.visitSets fun
    | .api s => (apiContents services.router s).map .api
    | .guide g => (guideContents services.router g).map .guide

end ApiDoc.Compile
