import ApiDoc.ApiSet
import ApiDoc.Event
import ApiDoc.Total

/-!
# Projects

A project has versions with different numbers, and a version has documentation sets: API sets, which
document sources, and guide sets, which hold written documents.
-/

namespace ApiDoc

/-- One written document. Its path has no extension; `listed` are the paths its own table of
contents lists. -/
structure Document where
  path : String
  title : String
  listed : List String := []
deriving DecidableEq, Inhabited

/-- A set of written documents, by path. -/
structure GuideSet where
  name : String
  documents : NameMap Document := .empty
  tables : List Toc := []
deriving DecidableEq, Inhabited

/-- The guide with a document, which replaces one of the same path. -/
def GuideSet.addDocument (g : GuideSet) (d : Document) : GuideSet :=
  { g with documents := g.documents.insert d.path d }

/-- The guide with a table of contents, which replaces one of the same name. -/
def GuideSet.addTable (g : GuideSet) (t : Toc) : GuideSet :=
  { g with tables := Toc.addTo g.tables t }

inductive DocSet
  | api (set : ApiSet)
  | guide (set : GuideSet)
deriving DecidableEq, Inhabited

namespace DocSet

def name : DocSet → String
  | .api set => set.name
  | .guide set => set.name

def api? : DocSet → Option ApiSet
  | .api set => some set
  | .guide _ => none

def guide? : DocSet → Option GuideSet
  | .guide set => some set
  | .api _ => none

end DocSet

structure Version where
  number : String
  sets : List DocSet := []
deriving DecidableEq, Inhabited

def Version.apiSets (v : Version) : List ApiSet := v.sets.filterMap DocSet.api?

def Version.guides (v : Version) : List GuideSet := v.sets.filterMap DocSet.guide?

structure Project where
  title : String
  settings : Settings := {}
  versions : List Version := []
deriving DecidableEq, Inhabited

namespace Project

def version? (p : Project) (number : String) : Option Version :=
  p.versions.find? (·.number = number)

/-- The project with one more version, whose number must be new. -/
def addVersion (p : Project) (v : Version) : Except BuildError Project :=
  if (p.version? v.number).isSome then .error (.duplicateVersion v.number)
  else .ok { p with versions := p.versions ++ [v] }

/-- The project with one more set at the end of a version. -/
def addSet (p : Project) (number : String) (s : DocSet) : Project :=
  let grow (v : Version) : Version :=
    if v.number = number then { v with sets := v.sets ++ [s] } else v
  { p with versions := p.versions.map grow }

/-- The sets with the first API set changed, if there is one. -/
def modifyFirstIn (f : ApiSet → ApiSet) : List DocSet → Option (List DocSet)
  | [] => none
  | .api s :: rest => some (.api (f s) :: rest)
  | .guide g :: rest => (modifyFirstIn f rest).map (.guide g :: ·)

def modifyFirst (f : ApiSet → ApiSet) : List Version → List Version
  | [] => []
  | v :: rest =>
    match modifyFirstIn f v.sets with
    | some sets => { v with sets := sets } :: rest
    | none => v :: modifyFirst f rest

def modifyFirstApi (p : Project) (f : ApiSet → ApiSet) : Project :=
  { p with versions := modifyFirst f p.versions }

def apiSets (p : Project) : List ApiSet := p.versions.flatMap Version.apiSets

/-- The number of entries in the indexes of elements. -/
def elementCount (p : Project) : Nat :=
  total (p.apiSets.map fun s => (s.index Index.elements).size)

/-- A step on every set of every version, in order, up to the first that fails. -/
def visitSets (step : DocSet → Attempt DocSet) (p : Project) : Attempt Project :=
  let versions := Attempt.visit
    (fun v => (Attempt.visit step v.sets).map fun sets => { v with sets := sets }) p.versions
  versions.map fun vs => { p with versions := vs }

def visitApis (step : ApiSet → Attempt ApiSet) : Project → Attempt Project :=
  visitSets fun
    | .api set => (step set).map .api
    | .guide set => { state := .guide set }

end Project

end ApiDoc
