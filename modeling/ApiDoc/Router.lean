import ApiDoc.Project

/-!
# Pages

A router gives the page of everything that is documented. It is a list of rules, and the first rule
for a destination decides. The standard rules lay out one page per file, namespace, package and
class-like; members are places on the page of their owner, functions and constants on the page of
their namespace.
-/

namespace ApiDoc

/-- What a page can be asked for. -/
inductive Destination
  | file (path : String)
  | spaceNode (fullName : Fqsen)
  | packageNode (fullName : Fqsen)
  | element (kind : ElementKind) (fqsen : Fqsen)
  | document (path : String)
  | link (url : String)
deriving DecidableEq, Inhabited

namespace Destination

/-- The word for what the destination is. -/
def typeName : Destination → String
  | .file _ => "file"
  | .spaceNode _ => "namespace"
  | .packageNode _ => "package"
  | .element kind _ => kind.name
  | .document _ => "document"
  | .link _ => "url"

/-- The path, name or URL of the destination. -/
def name : Destination → String
  | .file path => path
  | .spaceNode fullName => fullName.text
  | .packageNode fullName => fullName.text
  | .element _ fqsen => fqsen.text
  | .document path => path
  | .link url => url

end Destination

/-- What an address of a set leads to. -/
def ApiSet.destination? (s : ApiSet) : Target → Option Destination
  | .file id => (s.file? id).map fun f => .file f.path
  | .element ref => (s.item? ref).map fun i => .element i.kind i.info.fqsen
  | .spaceNode id => (s.namespaces.node? id).map fun n => .spaceNode n.fullName
  | .packageNode id => (s.packages.node? id).map fun n => .packageNode n.fullName

/-- A rule: which destinations it is for, and the page it gives, if any. -/
structure Rule where
  accepts : Destination → Bool
  page? : Destination → Option String

/-- The rule for destinations of one type that gives the same page, or none, for all of them. -/
def Rule.fixed (typeName : String) (page : Option String) : Rule where
  accepts d := d.typeName = typeName
  page? _ := page

/-- Rules in the order in which they are tried. -/
structure Router where
  rules : List Rule

namespace Router

def empty : Router := ⟨[]⟩

/-- The router with a rule behind all others. -/
def append (r : Router) (rule : Rule) : Router := ⟨r.rules ++ [rule]⟩

/-- The router with a rule in front of all others. -/
def prepend (r : Router) (rule : Rule) : Router := ⟨rule :: r.rules⟩

/-- The page of a destination: the first rule for it must give one. -/
def page (r : Router) (d : Destination) : Except BuildError String :=
  match (r.rules.find? fun rule => rule.accepts d).bind fun rule => rule.page? d with
  | some url => .ok url
  | none => .error (.noRoute d.typeName d.name)

/-! ### The standard layout -/

/-- A name as part of a file name: its segments with dots between them. -/
def slug (f : Fqsen) : String := if f.isRoot then "default" else Text.join "." f.segments

def spacePage (f : Fqsen) : String := "/namespaces/" ++ slug f ++ ".html"

def packagePage (f : Fqsen) : String := "/packages/" ++ slug f ++ ".html"

def classPage (f : Fqsen) : String := "/classes/" ++ slug f ++ ".html"

/-- A path without the extension of its last component; a name that is only an extension is kept. -/
def pathStem (path : List Char) : List Char :=
  match Text.cutLast? '.' path with
  | some (stem, extension) =>
    if !stem.isEmpty && stem.getLast? != some '/' && !extension.contains '/' then stem else path
  | none => path

def filePage (path : String) : String :=
  let flat := (pathStem (Text.dropLeadChar '/' path.toList)).map fun c =>
    if c == '/' || c == '\\' then '-' else c
  "/files/" ++ String.ofList flat ++ ".html"

/-- The page of an element, and its place there. A member without an owner is on the page of its
namespace. -/
def elementPage (kind : ElementKind) (f : Fqsen) : String :=
  let onClass (owner : Fqsen) (place : String) : String :=
    classPage owner ++ "#" ++ place ++ "_" ++ f.name
  let inSpace (place : String) : String := spacePage f.enclosing ++ "#" ++ place ++ "_" ++ f.name
  match kind, f.owner? with
  | .class, _ => classPage f
  | .interface, _ => classPage f
  | .trait, _ => classPage f
  | .method, some owner => onClass owner "method"
  | .property, some owner => onClass owner "property"
  | .constant, some owner => onClass owner "constant"
  | .constant, none => inSpace "constant"
  | .function, _ => inSpace "function"
  | .method, none => spacePage f.enclosing
  | .property, none => spacePage f.enclosing

def documentPage (path : String) : String :=
  "/" ++ String.ofList (Text.dropLeadChar '/' path.toList) ++ ".html"

/-- The rule for the destinations for which a function gives a page. -/
def ruleOf (page? : Destination → Option String) : Rule := ⟨fun d => (page? d).isSome, page?⟩

def fileRule : Rule := ruleOf fun
  | .file path => some (filePage path)
  | _ => none

def spaceRule : Rule := ruleOf fun
  | .spaceNode fullName => some (spacePage fullName)
  | _ => none

def packageRule : Rule := ruleOf fun
  | .packageNode fullName => some (packagePage fullName)
  | _ => none

def elementRule : Rule := ruleOf fun
  | .element kind fqsen => some (elementPage kind fqsen)
  | _ => none

def documentRule : Rule := ruleOf fun
  | .document path => some (documentPage path)
  | _ => none

/-- Links, which are their own page. -/
def linkRule : Rule := ruleOf fun
  | .link url => some url
  | _ => none

/-- The standard layout. -/
def standard : Router :=
  ⟨[fileRule, spaceRule, packageRule, elementRule, documentRule, linkRule]⟩

end Router

end ApiDoc
