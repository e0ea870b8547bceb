import ApiDoc.Compile.SpaceTree

/-!
# The tree of packages

The package of an element is the one its tags name, else the one recorded on it, else that of its
file; the package of a file is the one its tags name, else the one recorded on it, else the default.
Packages are written with the separator of namespaces; other signs are dropped from their names.
-/

namespace ApiDoc.Compile

/-- The characters that older sources write between the parts of a package name. -/
def isOldSeparator (c : Char) : Bool := ['.', '_', '-', '[', ']'].contains c

/-- A package name with one separator and only letters and digits of ASCII. Separators at the end
are dropped first, so that one can be left there by a dropped sign. -/
def normalizePackage (name : String) : String :=
  let parts := (Text.trim name.toList).map fun c => if isOldSeparator c then '\\' else c
  String.ofList ((Text.dropTrailChar '\\' parts).filter fun c => c.isAlphanum || c == '\\')

/-- The package that tags name: a package, a part of it, or both. -/
def taggedPackage? (tags : Tags) : Option String :=
  let first (name : String) : Option String :=
    (tags.get name).head?.map fun t => normalizePackage t.description
  let package := (first "package").getD ""
  let full :=
    match first "subpackage" with
    | some part => package ++ "\\" ++ part
    | none => package
  let bare := Text.dropTrailChar '\\' (Text.dropLeadChar '\\' full.toList)
  if bare.isEmpty then none else some (String.ofList bare)

def packageNode (name : String) : Fqsen :=
  Fqsen.ofText ("\\" ++ String.ofList (Text.dropLeadChar '\\' name.toList))

/-- The default package; a name of which nothing would be left is taken as it is. -/
def defaultPackage (name : String) : String :=
  let normal := normalizePackage name
  if normal.isEmpty then name else normal

/-- A recorded package, if something is left of its name. -/
def recorded? (package : Option String) : Option String :=
  (package.map normalizePackage).filter fun name => !name.isEmpty

def packageOfFile (default : String) (f : File) : String :=
  ((taggedPackage? f.tags).or (recorded? f.package)).getD default

def packageOfElement (filePackage : String) (info : Info) : String :=
  ((taggedPackage? info.tags).or (recorded? info.package)).getD filePackage

/-- The set with a file in the node of its package. -/
def placeFile (default : String) (s : ApiSet) (entry : Nat × File) : ApiSet :=
  let package := packageOfFile default entry.2
  let made := s.packages.ensure (packageNode package)
  let tree := made.tree.modifyNode made.id fun n =>
    { n with files := n.files.insert entry.2.path entry.1 }
  { s with packages := tree }.modifyFile entry.1 fun f => { f with package := some package }

/-- The set with an element in the node of its package. -/
def placeElement (s : ApiSet) (entry : ElementRef × String) : ApiSet :=
  let tree := attachAt s.packages (packageNode entry.2) entry.1
  { s with packages := tree }.modifyInfo entry.1 fun i => { i with package := some entry.2 }

/-- The elements that are no members, with their packages. -/
def elementPackages (default : String) (s : ApiSet) : List (ElementRef × String) :=
  s.topLevelEntries.filterMap fun ref => do
    let item ← s.item? ref
    let f ← s.file? ref.file
    return (ref, packageOfElement (packageOfFile default f) item.info)

/-- The set with its files and elements in the tree of packages. -/
def withPackages (defaultName : String) (s : ApiSet) : ApiSet :=
  let default := defaultPackage defaultName
  let elements := elementPackages default s
  let placed := elements.foldl placeElement (s.numbered.foldl (placeFile default) s)
  enterNodes "@" Index.packages .packageNode placed.packages.nodes placed

def packagesPass : Pass :=
  .onApiSets "Build \"packages\" index" 8900
    fun _ settings s => { state := withPackages settings.defaultPackage s }

end ApiDoc.Compile
