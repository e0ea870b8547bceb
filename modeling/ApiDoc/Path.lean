import ApiDoc.Text.Pieces

/-!
# Paths

A path is a text whose pieces are separated by slashes. Pieces that are empty or a single dot stay
in place, two dots go up, and every other piece is a name. A path that starts with a slash starts at
the top. The functions here look at the text alone and never at a disk.
-/

namespace ApiDoc.Path

def pieces (path : String) : List String := Text.parts '/' path

/-- Whether a piece stays in place. -/
def isIdle (piece : String) : Bool := piece == "" || piece == "."

inductive Lead
  | top
  | here
  | plain
deriving DecidableEq, Inhabited

/-- Where a path starts: at the top, with a dot, or with its first piece. -/
def lead (path : String) : Lead :=
  if path.toList.head? = some '/' then .top
  else if (pieces path).head? = some "." then .here
  else .plain

/-- One path after another; a second path that starts at the top stands alone. -/
def join (base sub : String) : String :=
  if lead sub = .top then sub
  else if base.isEmpty || base.toList.getLast? = some '/' then base ++ sub
  else base ++ "/" ++ sub

/-- The path without the slashes at its end; a path of slashes alone is the top. -/
def bare (path : String) : String :=
  match Text.dropTrailChar '/' path.toList with
  | [] => if path.isEmpty then "" else "/"
  | cs => String.ofList cs

/-- Whether the path ends with a slash after a piece. -/
def hasTrailingSlash (path : String) : Bool := bare path != path

/-- The pieces that do not stay in place. -/
def moves (path : String) : List String := (pieces path).filter fun p => !isIdle p

/-- The last name of a path; a path that ends by going up has none. -/
def fileName? (path : String) : Option String :=
  match (moves path).getLast? with
  | some ".." => none
  | other => other

/-- The last name before and after its last dot; a name that only starts with a dot is not
divided. -/
def stemAndExtension? (path : String) : Option (String × Option String) := do
  let name ← fileName? path
  match Text.cutLast? '.' name.toList with
  | some (stem, extension) =>
    if stem.isEmpty then some (name, none)
    else some (String.ofList stem, some (String.ofList extension))
  | none => some (name, none)

def extension? (path : String) : Option String := do (← stemAndExtension? path).2

def stem? (path : String) : Option String := (stemAndExtension? path).map Prod.fst

def ofMoves : Lead → List String → String
  | .top, moves => "/" ++ Text.join "/" moves
  | .here, moves => Text.join "/" ("." :: moves)
  | .plain, moves => Text.join "/" moves

/-- The path without its last piece. The top and the empty path have none. -/
def parent? (path : String) : Option String :=
  match lead path, moves path with
  | .here, [] => some ""
  | _, [] => none
  | start, moves => some (ofMoves start moves.dropLast)

/-- The path and the paths above it, upwards. -/
def ancestors (path : String) : List String :=
  let all := moves path
  path :: ((List.range all.length).map fun n => ofMoves (lead path) (all.take n)).reverse

/-- The pieces left after some moves, without leading pieces that stay in place. -/
def after? : List String → List String → Option (List String)
  | [], rest => some (rest.dropWhile isIdle)
  | move :: moves, rest =>
    match rest.dropWhile isIdle with
    | [] => none
    | piece :: rest => if piece = move then after? moves rest else none

/-- What a path adds to another one that it starts with. -/
def below? (root path : String) : Option String :=
  if lead root = lead path then (after? (moves root) (pieces path)).map (Text.join "/") else none

/-- The moves of a path with one slash between them. -/
def slashed (path : String) : String := Text.join "/" (moves path)

end ApiDoc.Path
