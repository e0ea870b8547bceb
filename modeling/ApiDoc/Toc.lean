/-!
# Tables of contents

The entries of a table stand in one list; URLs say which entry is below which. An entry names its
parent, and every entry lists the URLs of the entries that were added below it.
-/

namespace ApiDoc

/-- One line of a table of contents. -/
structure TocEntry where
  url : String
  title : String
  parent : Option String := none
  children : List String := []
deriving DecidableEq, Inhabited

structure Toc where
  name : String
  entries : List TocEntry := []
deriving DecidableEq, Inhabited

namespace Toc

/-- Notes a child at the first entry with a URL. -/
def addChild (parent child : String) : List TocEntry → List TocEntry
  | [] => []
  | e :: rest =>
    if e.url = parent then { e with children := e.children ++ [child] } :: rest
    else e :: addChild parent child rest

/-- The table with one more entry at its end, noted at its parent if that is there. -/
def add (t : Toc) (e : TocEntry) : Toc :=
  let noted :=
    match e.parent with
    | some parent => addChild parent e.url t.entries
    | none => t.entries
  { t with entries := noted ++ [e] }

def get? (t : Toc) (url : String) : Option TocEntry := t.entries.find? (·.url = url)

/-- The entries without a parent. -/
def roots (t : Toc) : List TocEntry := t.entries.filter (·.parent.isNone)

/-- The entries that name a URL as their parent. -/
def childrenOf (t : Toc) (url : String) : List TocEntry := t.entries.filter (·.parent = some url)

/-- The tables with one more at the end, which replaces those of its name. -/
def addTo (tables : List Toc) (t : Toc) : List Toc := tables.filter (·.name ≠ t.name) ++ [t]

end Toc

end ApiDoc
