import ApiDoc.Disk.Fault
import ApiDoc.NameMap
import ApiDoc.Path

/-!
# Disks

A disk holds files and folders. The *place* of a file or folder is the text of the names that lead
to it from the top, each after a slash; the place of the top is empty. A path is resolved to a place
piece by piece: every piece must be taken from a folder that exists, and only the last place may be
vacant. Names and paths are limited in length, and no path holds the character zero.
-/

namespace ApiDoc

/-- What a place can hold. -/
inductive Disk.Entry
  | file (content : ByteArray)
  | folder

instance : DecidableEq Disk.Entry
  | .folder, .folder => isTrue rfl
  | .file a, .file b =>
    if h : a.data = b.data then isTrue (by cases a; cases b; exact congrArg _ (congrArg _ h))
    else isFalse fun e => h (by cases e; rfl)
  | .file _, .folder => isFalse nofun
  | .folder, .file _ => isFalse nofun

/-- The entries of a disk by their places, and the place from which paths that do not start at the
top are followed. -/
structure Disk where
  entries : NameMap Disk.Entry := .empty
  current : String := ""

namespace Disk

/-! ### Places -/

/-- The place of a name in a folder. -/
def child (place name : String) : String := place ++ "/" ++ name

/-- The place of the folder that holds a place; that of the top is the top itself. -/
def above (place : String) : String :=
  match Text.cutLast? '/' place.toList with
  | some (front, _) => String.ofList front
  | none => ""

/-- What a place holds. The top is always a folder. -/
def entry? (d : Disk) (place : String) : Option Entry :=
  if place = "" then some .folder else d.entries.get? place

def nameLimit : Nat := 255

def pathLimit : Nat := 4095

/-- The place one piece further. -/
def step (d : Disk) (place piece : String) : Except Fault String :=
  match d.entry? place with
  | none => .error .notFound
  | some (.file _) => .error .notADirectory
  | some .folder =>
    if Path.isIdle piece then .ok place
    else if piece = ".." then .ok (above place)
    else if nameLimit < piece.utf8ByteSize then .error .nameTooLong
    else .ok (child place piece)

/-- The place that some pieces of a path lead to. -/
def follow (d : Disk) (path : String) (pieces : List String) : Except Fault String :=
  if path.isEmpty then .error .notFound
  else if path.toList.contains '\x00' then .error .nulInName
  else if pathLimit < path.utf8ByteSize then .error .nameTooLong
  else pieces.foldlM d.step (if Path.lead path = .top then "" else d.current)

def locate (d : Disk) (path : String) : Except Fault String := d.follow path (Path.pieces path)

def find (d : Disk) (path : String) : Except Fault Entry := do
  match d.entry? (← d.locate path) with
  | some e => .ok e
  | none => .error .notFound

/-! ### Looking -/

/-- Whether a path leads to a file or folder. -/
def has (d : Disk) (path : String) : Bool :=
  match d.find path with
  | .ok _ => true
  | .error _ => false

def hasFolder (d : Disk) (path : String) : Bool :=
  match d.find path with
  | .ok .folder => true
  | _ => false

def hasFile (d : Disk) (path : String) : Bool :=
  match d.find path with
  | .ok (.file _) => true
  | _ => false

def read (d : Disk) (path : String) : Except Fault ByteArray := do
  match ← d.find path with
  | .file content => .ok content
  | .folder => .error .isADirectory

def readText (d : Disk) (path : String) : Except Fault String := do
  match String.fromUTF8? (← d.read path) with
  | some s => .ok s
  | none => .error .notText

/-- The names that lead from a place to another one below it. -/
def namesBelow? (place other : String) : Option (List String) :=
  (Text.after? (place ++ "/").toList other.toList).map fun rest => Path.pieces (String.ofList rest)

/-- The files below a place, in order, each as the names that lead to it from there. -/
def filesBelow (d : Disk) (place : String) : List (List String) :=
  d.entries.entries.filterMap fun
    | (other, .file _) => namesBelow? place other
    | (_, .folder) => none

def list (d : Disk) (path : String) : Except Fault (List String) := do
  let place ← d.locate path
  match d.entry? place with
  | none => .error .notFound
  | some (.file _) => .error .notADirectory
  | some .folder =>
    .ok <| d.entries.keys.filterMap fun other =>
      match namesBelow? place other with
      | some [name] => some name
      | _ => none

/-! ### Changing -/

def put (d : Disk) (place : String) (e : Entry) : Disk :=
  { d with entries := d.entries.insert place e }

/-- The disk with a file that has the given content, whether it is new or there already. Its folder
must exist. -/
def write (d : Disk) (path : String) (content : ByteArray) : Except Fault Disk := do
  if Path.hasTrailingSlash path then
    let holder ← d.follow path (Path.pieces (Path.bare path)).dropLast
    let _ ← d.step holder ""
    .error .isADirectory
  else
    let place ← d.locate path
    match d.entry? place with
    | some .folder => .error .isADirectory
    | _ => .ok (d.put place (.file content))

def writeText (d : Disk) (path text : String) : Except Fault Disk := d.write path text.toUTF8

/-- The disk with a new folder, in a folder that exists. -/
def makeFolder (d : Disk) (path : String) : Except Fault Disk := do
  let place ← d.locate (Path.bare path)
  match d.entry? place with
  | some _ => .error .alreadyExists
  | none => .ok (d.put place .folder)

/-- Makes the first folder of a list in which each folder is followed by the one that holds it, and
before it those that are missing. -/
def makeFirst (d : Disk) : List String → Except Fault Disk
  | [] => .ok d
  | path :: holders =>
    if path.isEmpty then .ok d
    else
      match d.makeFolder path with
      | .ok made => .ok made
      | .error .notFound => do
        let held ← makeFirst d holders
        match held.makeFolder path with
        | .ok made => .ok made
        | .error e => if held.hasFolder path then .ok held else .error e
      | .error e => if d.hasFolder path then .ok d else .error e

/-- The disk with a folder and all folders that lead to it. -/
def makeFolders (d : Disk) (path : String) : Except Fault Disk := d.makeFirst (Path.ancestors path)

def removeFile (d : Disk) (path : String) : Except Fault Disk := do
  let place ← d.locate path
  match d.entry? place with
  | none => .error .notFound
  | some .folder => .error .isADirectory
  | some (.file _) => .ok { d with entries := d.entries.erase place }

/-- The disk without anything below a place. -/
def clearBelow (d : Disk) (place : String) : Disk :=
  { d with entries := d.entries.filter fun other _ => (namesBelow? place other).isNone }

/-- The disk without a folder and everything below it, and why the folder itself could not be
removed. By a path that ends with a dot it is only emptied, and so it is by a path that led through
what was below it. -/
def removeTree (d : Disk) (path : String) : Disk × Option Fault :=
  match d.locate path with
  | .error e => (d, some e)
  | .ok place =>
    match d.entry? place with
    | none => (d, some .notFound)
    | some (.file _) => (d, some .notADirectory)
    | some .folder =>
      let emptied := d.clearBelow place
      match emptied.locate path with
      | .error _ => (emptied, none)
      | .ok _ =>
        if (Path.pieces (Path.bare path)).getLast? = some "." then (emptied, some .invalidArgument)
        else ({ emptied with entries := emptied.entries.erase place }, none)

end Disk

end ApiDoc
