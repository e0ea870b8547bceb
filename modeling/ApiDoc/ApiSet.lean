import ApiDoc.File
import ApiDoc.Taxonomy
import ApiDoc.Text.Decimal
import ApiDoc.Toc

/-!
# API sets

An API set is the documentation of one tree of sources: its files, numbered in the order in which
their paths were first added, named indexes from keys to addresses, the trees of namespaces and
packages, and tables of contents. The index `elements` is where names are looked up.
-/

namespace ApiDoc

abbrev Index := NameMap Target

namespace Index

/-- The name of the index of all elements. -/
def elements : String := "elements"

def namespaces : String := "namespaces"

def packages : String := "packages"

/-- The indexes of elements that are no members, with the kind each of them holds. -/
def byKind : List (String × ElementKind) :=
  [("classes", .class), ("interfaces", .interface), ("traits", .trait), ("functions", .function),
    ("constants", .constant)]

end Index

/-- The documentation of one tree of sources. -/
structure ApiSet where
  name : String
  files : List File := []
  indexes : NameMap Index := .empty
  namespaces : Taxonomy := .fresh .namespaces
  packages : Taxonomy := .fresh .packages
  tables : List Toc := []
deriving DecidableEq, Inhabited

namespace ApiSet

/-! ### Files -/

def fileId? (s : ApiSet) (path : String) : Option Nat := s.files.findIdx? (·.path = path)

/-- The set with a file, which takes the place of one with the same path or else comes last, and its
number. -/
def addFile (s : ApiSet) (f : File) : ApiSet × Nat :=
  match s.fileId? f.path with
  | some id => ({ s with files := s.files.set id f }, id)
  | none => ({ s with files := s.files ++ [f] }, s.files.length)

/-- A file whose path is new comes last. -/
theorem addFile_of_new {s : ApiSet} {f : File} (h : f.path ∉ s.files.map File.path) :
    (s.addFile f).1 = { s with files := s.files ++ [f] } := by
  have hnew : s.fileId? f.path = none := by
    rw [fileId?, List.findIdx?_eq_none_iff]
    intro g hg
    have hne : g.path ≠ f.path := fun he => h (he ▸ List.mem_map_of_mem hg)
    simpa using hne
  rw [addFile, hnew]

def ofFiles (name : String) (files : List File) : ApiSet :=
  files.foldl (fun s f => (s.addFile f).1) { name := name }

def file? (s : ApiSet) (id : Nat) : Option File := s.files[id]?

def modifyFile (s : ApiSet) (id : Nat) (f : File → File) : ApiSet :=
  { s with files := s.files.modify id f }

/-- How a file is called in a message: by its path, or by its number if it is not there. -/
def fileLabel (s : ApiSet) (id : Nat) : String :=
  match s.file? id with
  | some f => f.path
  | none => "file_" ++ Text.ofNat id

def numbered (s : ApiSet) : List (Nat × File) := s.files.zipIdx.map fun (f, id) => (id, f)

/-! ### Elements -/

def item? (s : ApiSet) (ref : ElementRef) : Option Item :=
  (s.file? ref.file).bind fun f => f.item? ref.kind ref.fqsen

def modifyInfo (s : ApiSet) (ref : ElementRef) (g : Info → Info) : ApiSet :=
  s.modifyFile ref.file fun f => f.modifyInfo ref.kind ref.fqsen g

/-- The addresses of all elements, file by file. -/
def allElements (s : ApiSet) : List ElementRef :=
  s.numbered.flatMap fun (id, f) => f.declared.map fun (kind, fqsen) => ⟨id, kind, fqsen⟩

/-! ### Indexes -/

def lookupIn (s : ApiSet) (index key : String) : Option Target :=
  (s.indexes.get? index).bind fun i => i.get? key

/-- The entry of a key among all elements. -/
def lookup (s : ApiSet) (key : String) : Option Target := s.lookupIn Index.elements key

/-- An index, empty if it is not there. -/
def index (s : ApiSet) (name : String) : Index := (s.indexes.get? name).getD .empty

def setIndex (s : ApiSet) (name : String) (i : Index) : ApiSet :=
  { s with indexes := s.indexes.insert name i }

/-- The set with one entry of an index written, which makes the index if it is not there. -/
def addEntry (s : ApiSet) (name key : String) (t : Target) : ApiSet :=
  s.setIndex name ((s.index name).insert key t)

/-- Whether an address still leads to something. -/
def resolves (s : ApiSet) : Target → Bool
  | .file id => (s.file? id).isSome
  | .element ref => (s.item? ref).isSome
  | .spaceNode id => (s.namespaces.node? id).isSome
  | .packageNode id => (s.packages.node? id).isSome

/-- The set with a table of contents, which replaces one of the same name. -/
def addTable (s : ApiSet) (t : Toc) : ApiSet := { s with tables := Toc.addTo s.tables t }

def table? (s : ApiSet) (name : String) : Option Toc := s.tables.find? (·.name = name)

end ApiSet

end ApiDoc
