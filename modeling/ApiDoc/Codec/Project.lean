import ApiDoc.Codec.Element
import ApiDoc.Project

/-!
# Projects as JSON

How trees, tables of contents, documents and whole projects are written, and how those of them that
are stored on their own are read back.
-/

namespace ApiDoc.Codec

/-! ### Trees -/

def numberOrNull : Option Nat → Json
  | some n => .nat n
  | none => .null

def node (n : Node) : Json :=
  .obj [("id", .nat n.id), ("name", .str n.name), ("full_name", .str n.fullName.text),
    ("parent", numberOrNull n.parent), ("children", ofMap .nat n.children),
    ("classes", ofMap elementRef n.classes), ("interfaces", ofMap elementRef n.interfaces),
    ("traits", ofMap elementRef n.traits), ("functions", ofMap elementRef n.functions),
    ("constants", ofMap elementRef n.constants), ("files", ofMap .nat n.files)]

def nodeKeys : List String :=
  ["id", "name", "full_name", "parent", "children", "classes", "interfaces", "traits", "functions",
    "constants", "files"]

def node? : Decoder Node := fun j => do
  let fs ← record nodeKeys 11 j
  return {
    id := ← required fs "id" word
    name := ← required fs "name" text
    fullName := ← required fs "full_name" fqsen?
    parent := ← optional fs "parent" none (orNull word)
    children := ← required fs "children" (mapOf word)
    classes := ← required fs "classes" (mapOf (elementRef? .strict))
    interfaces := ← required fs "interfaces" (mapOf (elementRef? .strict))
    traits := ← required fs "traits" (mapOf (elementRef? .strict))
    functions := ← required fs "functions" (mapOf (elementRef? .strict))
    constants := ← required fs "constants" (mapOf (elementRef? .strict))
    files := ← required fs "files" (mapOf word) }

def taxonomy (t : Taxonomy) : Json :=
  .obj [("kind", .str t.kind.name), ("nodes", ofList node t.nodes)]

def taxonomy? : Decoder Taxonomy := fun j => do
  let fs ← record ["kind", "nodes"] 2 j
  return {
    kind := ← required fs "kind" (wordOf .strict TaxonomyKind.ofName?)
    nodes := ← required fs "nodes" (listOf node?) }

/-! ### Tables of contents and documents -/

def tocEntry (e : TocEntry) : Json :=
  .obj ([("url", .str e.url), ("title", .str e.title)] ++ whenSome "parent" .str e.parent ++
    [("children", .texts e.children)])

def tocEntry? : Decoder TocEntry := fun j => do
  let fs ← record ["url", "title", "parent", "children"] 2 j
  return {
    url := ← required fs "url" text
    title := ← required fs "title" text
    parent := ← optional fs "parent" none (orNull text)
    children := ← optional fs "children" [] (listOf text) }

def toc (t : Toc) : Json := .obj [("name", .str t.name), ("entries", ofList tocEntry t.entries)]

def toc? : Decoder Toc := fun j => do
  let fs ← record ["name", "entries"] 2 j
  return {
    name := ← required fs "name" text
    entries := ← required fs "entries" (listOf tocEntry?) }

def document (d : Document) : Json :=
  .obj [("path", .str d.path), ("title", .str d.title), ("toc", .texts d.listed)]

def document? : Decoder Document := fun j => do
  let fs ← record ["path", "title", "toc"] 2 j
  return {
    path := ← required fs "path" text
    title := ← required fs "title" text
    listed := ← optional fs "toc" [] (listOf text) }

/-! ### Projects -/

/-- An API set: its files in path order. -/
def apiSet (s : ApiSet) : Json :=
  .obj [("type", .str "api"), ("name", .str s.name),
    ("files", ofList file (s.files.mergeSort fun a b => a.path ≤ b.path)),
    ("indexes", ofMap (ofMap target) s.indexes), ("namespaces", taxonomy s.namespaces),
    ("packages", taxonomy s.packages), ("tables_of_contents", ofList toc s.tables)]

/-- A guide: its documents in path order. -/
def guideSet (g : GuideSet) : Json :=
  .obj [("type", .str "guide"), ("name", .str g.name),
    ("documents", ofList document g.documents.values),
    ("tables_of_contents", ofList toc g.tables)]

def docSet : DocSet → Json
  | .api s => apiSet s
  | .guide g => guideSet g

def version (v : Version) : Json :=
  .obj [("number", .str v.number), ("sets", ofList docSet v.sets)]

/-- A project, without its settings. -/
def project (p : Project) : Json :=
  .obj [("title", .str p.title), ("versions", ofList version p.versions)]

end ApiDoc.Codec
