import ApiDoc.Digest
import ApiDoc.Text.Pieces

/-!
# Patterns for paths

A pattern describes whole paths. A star stands for any text and a question mark for any byte, path
separators included; brackets list the bytes allowed at one place; braces enclose alternatives
divided by commas; a backslash takes the next character as it is. Two stars are a piece of their own
where they fill a whole component: at the front any number of directories, or none; at the end
everything below; in between one separator, or separators around any text.

Matching works on the bytes of a path, so a character outside ASCII takes as many places as it has
bytes. `Piece.advance` sends the places of the path where a match can stand before a piece to those
behind it; a path matches if its end is among the places behind all pieces.
-/

namespace ApiDoc.Glob

inductive Piece
  | literal (c : Char)
  | anyByte
  | anyText
  | leadingDirs
  | trailingAll
  | betweenDirs
  | oneOf (negated : Bool) (ranges : List (Char × Char))
  | choice (branches : List (List Piece))
deriving Inhabited

inductive Fault
  | unclosedClass
  | reversedRange (first last : Char)
  | unclosedChoice
  | unopenedChoice
  | danglingEscape
  | nestedTooDeep
deriving DecidableEq

def Fault.message : Fault → String
  | .unclosedClass => "unclosed character class; missing ']'"
  | .reversedRange first last =>
    "invalid range; " ++ String.singleton first ++ " > " ++ String.singleton last
  | .unclosedChoice => "unclosed alternate group; missing closing brace"
  | .unopenedChoice => "unopened alternate group; missing opening brace"
  | .danglingEscape => "dangling '\\'"
  | .nestedTooDeep => "exceeds the maximum nesting depth"

/-! ### Reading a pattern -/

/-- Whether the character divides the components of a path. -/
def isSeparator (c : Char) : Bool := c == '/'

/-- The ranges of a class as they are read: the latest first, `isOpen` after a hyphen that may join
two characters. -/
structure Ranges where
  done : List (Char × Char) := []
  isOpen : Bool := false

def Ranges.add (r : Ranges) (c : Char) : Except Fault Ranges :=
  match r.done, r.isOpen with
  | (first, _) :: rest, true =>
    if c < first then .error (.reversedRange first c)
    else .ok { done := (first, c) :: rest }
  | done, _ => .ok { done := (c, c) :: done }

/-- The ranges in the order in which they were written; a hyphen at the end stands for itself. -/
def Ranges.close (r : Ranges) : List (Char × Char) :=
  (if r.isOpen then ('-', '-') :: r.done else r.done).reverse

/-- Reads a class up to its bracket. The first character stands for itself, whatever it is. -/
def readClass (r : Ranges) (atStart : Bool) :
    List Char → Except Fault (List (Char × Char) × List Char)
  | [] => .error .unclosedClass
  | c :: cs =>
    if c == ']' && !atStart then .ok (r.close, cs)
    else if c == '-' && !atStart && !r.isOpen then readClass { r with isOpen := true } false cs
    else
      match r.add c with
      | .ok next => readClass next false cs
      | .error e => .error e

/-- A pattern as it is read: the current branch with its latest piece first and, from the inside
out, the open choices, each with its finished branches and the pieces in front of it. `last` is
the character read before. -/
structure Draft where
  pieces : List Piece := []
  outer : List (List (List Piece) × List Piece) := []
  last : Option Char := none

namespace Draft

def push (d : Draft) (p : Piece) (last : Char) : Draft :=
  { d with pieces := p :: d.pieces, last := some last }

def openChoice (d : Draft) : Draft :=
  { pieces := [], outer := ([], d.pieces) :: d.outer, last := some '{' }

/-- Ends a branch; outside of any choice a comma stands for itself. -/
def comma (d : Draft) : Draft :=
  match d.outer with
  | [] => d.push (.literal ',') ','
  | (branches, front) :: rest =>
    { pieces := [], outer := (d.pieces.reverse :: branches, front) :: rest, last := some ',' }

def closeChoice (d : Draft) : Except Fault Draft :=
  match d.outer with
  | [] => .error .unopenedChoice
  | (branches, front) :: rest =>
    .ok { pieces := .choice (d.pieces.reverse :: branches).reverse :: front, outer := rest,
          last := some '}' }

/-- Two stars that fill no component. -/
def plainStars (d : Draft) : Draft := (d.push .anyText '*').push .anyText '*'

/-- The piece for two stars in place of the separator before them, unless a piece of this kind is
there already. -/
def foldStars (d : Draft) (p : Piece) (last : Char) : Draft :=
  match d.pieces with
  | .leadingDirs :: _ => { d with last := some last }
  | .trailingAll :: _ => { d with last := some last }
  | _ :: rest => { d with pieces := p :: rest, last := some last }
  | [] => d.push p last

/-- Whether two stars after this draft can start a component. -/
def startsComponent (d : Draft) : Bool :=
  d.last.any isSeparator || (!d.outer.isEmpty && (d.last == some ',' || d.last == some '{'))

/-- Takes two stars with `cs` behind them, and the separator behind them if they use it up. -/
def stars (d : Draft) (cs : List Char) : Draft × List Char :=
  match d.pieces.isEmpty, cs with
  | true, [] => (d.push .leadingDirs '*', [])
  | true, c :: rest =>
    if isSeparator c then (d.push .leadingDirs c, rest) else (d.plainStars, cs)
  | false, [] =>
    if d.startsComponent then (d.foldStars .trailingAll '*', []) else (d.plainStars, [])
  | false, c :: rest =>
    if !d.startsComponent then (d.plainStars, cs)
    else if (c == ',' || c == '}') && !d.outer.isEmpty then (d.foldStars .trailingAll '*', cs)
    else if isSeparator c then (d.foldStars .betweenDirs c, rest)
    else (d.plainStars, cs)

/-- Reads the text of a pattern; the number bounds the steps. -/
def read : Nat → Draft → List Char → Except Fault Draft
  | 0, d, _ => .ok d
  | _ + 1, d, [] => .ok d
  | steps + 1, d, c :: cs =>
    match c with
    | '?' => read steps (d.push .anyByte c) cs
    | '*' =>
      match cs with
      | '*' :: rest =>
        let (next, left) := d.stars rest
        read steps next left
      | _ => read steps (d.push .anyText c) cs
    | '[' =>
      let (negated, body) :=
        match cs with
        | '!' :: rest => (true, rest)
        | '^' :: rest => (true, rest)
        | _ => (false, cs)
      match readClass {} true body with
      | .ok (ranges, rest) => read steps (d.push (.oneOf negated ranges) ']') rest
      | .error e => .error e
    | '{' => read steps d.openChoice cs
    | '}' =>
      match d.closeChoice with
      | .ok next => read steps next cs
      | .error e => .error e
    | ',' => read steps d.comma cs
    | '\\' =>
      match cs with
      | [] => .error .danglingEscape
      | taken :: rest => read steps (d.push (.literal taken) taken) rest
    | _ => read steps (d.push (.literal c) c) cs

end Draft

/-! ### Matching -/

/-- Where a match can stand in a path: for each place before a byte and for the end, whether it can
be there. -/
abbrev Front := List Bool

def bytesOf (c : Char) : List UInt8 := Digest.utf8 (String.singleton c)

def separatorByte : UInt8 := 47

/-- The places in one of two fronts. -/
def both (a b : Front) : Front := a.zipWith (· || ·) b

/-- The places behind one byte of the path that passes a test. -/
def behindByte (path : List UInt8) (accept : UInt8 → Bool) (front : Front) : Front :=
  false :: front.zipWith (fun here b => here && accept b) path

/-- The places behind given bytes. -/
def behindBytes (path bytes : List UInt8) (front : Front) : Front :=
  bytes.foldl (fun front b => behindByte path (· == b) front) front

/-- The places behind any text: all from the first one on. -/
def behindText : Front → Front
  | [] => []
  | false :: rest => false :: behindText rest
  | true :: rest => true :: rest.map fun _ => true

def behindSeparator (path : List UInt8) (front : Front) : Front :=
  behindByte path (· == separatorByte) front

/-- Whether a byte is in a range of a class. A character of several bytes stands for each of them,
and a range goes from the last byte of its first character to the first byte of its last. -/
def inRange (range : Char × Char) (b : UInt8) : Bool :=
  let first := bytesOf range.1
  if range.1 == range.2 then first.contains b
  else
    let last := bytesOf range.2
    first.dropLast.contains b || last.tail.contains b ||
      ((first.getLast?.any (· ≤ b)) && (last.head?.any (b ≤ ·)))

mutual

/-- Whether the piece says nothing: a choice all of whose branches are empty. -/
def Piece.isVoid : Piece → Bool
  | .choice branches => branchesVoid branches
  | _ => false

def branchVoid : List Piece → Bool
  | [] => true
  | p :: ps => p.isVoid && branchVoid ps

def branchesVoid : List (List Piece) → Bool
  | [] => true
  | branch :: rest => branchVoid branch && branchesVoid rest

end

mutual

/-- The places behind a piece. Branches of a choice that say nothing do not count. -/
def Piece.advance (path : List UInt8) : Piece → Front → Front
  | .literal c, front => behindBytes path (bytesOf c) front
  | .anyByte, front => behindByte path (fun _ => true) front
  | .anyText, front => behindText front
  | .leadingDirs, front =>
    both front (both (behindSeparator path front) (behindSeparator path (behindText front)))
  | .trailingAll, front => behindText (behindSeparator path front)
  | .betweenDirs, front =>
    let first := behindSeparator path front
    both first (behindSeparator path (behindText first))
  | .oneOf negated ranges, front =>
    behindByte path (fun b => ranges.any (inRange · b) != negated) front
  | .choice branches, front =>
    if branchesVoid branches then front else advanceAny path branches front

def advanceAll (path : List UInt8) : List Piece → Front → Front
  | [], front => front
  | p :: ps, front => advanceAll path ps (p.advance path front)

def advanceAny (path : List UInt8) : List (List Piece) → Front → Front
  | [], front => front.map fun _ => false
  | branch :: branches, front =>
    let others := advanceAny path branches front
    if branchVoid branch then others else both (advanceAll path branch front) others

end

/-! ### Nesting -/

def depthLimit : Nat := 250

/-- How many parts one behind the other something has, and how deep the deepest of them is
nested. -/
structure Nesting where
  parts : Nat
  depth : Nat
deriving DecidableEq

/-- Two things one behind the other. -/
def Nesting.append (a b : Nesting) : Nesting := ⟨a.parts + b.parts, max a.depth b.depth⟩

/-- How deep something is nested as a whole: several parts are one level above each of them. -/
def Nesting.level (n : Nesting) : Nat := if n.parts ≤ 1 then n.depth else n.depth + 1

/-- The number of single bytes and of ranges of bytes that a range of a class consists of. -/
def rangeParts (range : Char × Char) : Nat :=
  let first := (bytesOf range.1).length
  if range.1 == range.2 then first else first + (bytesOf range.2).length - 1

/-- The nesting of a class, which is one level, and one more if it lists several things. -/
def classNesting (ranges : List (Char × Char)) : Nesting :=
  ⟨1, if ranges.foldl (fun n r => n + rangeParts r) 0 ≤ 1 then 1 else 2⟩

/-- The nesting of a choice between branches of the given levels. -/
def choiceNesting : List Nat → Nesting
  | [] => ⟨0, 0⟩
  | [level] => ⟨1, level + 1⟩
  | levels => ⟨1, levels.foldl max 0 + 2⟩

mutual

/-- The nesting of a piece. A repetition is a level; two stars that stand for directories are a
choice one of whose branches has several parts, one of them a repetition. -/
def Piece.nesting : Piece → Nesting
  | .literal c => ⟨(bytesOf c).length, 0⟩
  | .anyByte => ⟨1, 0⟩
  | .anyText => ⟨1, 1⟩
  | .leadingDirs => ⟨1, 4⟩
  | .trailingAll => ⟨2, 1⟩
  | .betweenDirs => ⟨1, 4⟩
  | .oneOf _ ranges => classNesting ranges
  | .choice branches => choiceNesting (branchLevels branches)

def nestingOf : List Piece → Nesting
  | [] => ⟨0, 0⟩
  | p :: ps => p.nesting.append (nestingOf ps)

/-- The levels of the branches of a choice that say something. -/
def branchLevels : List (List Piece) → List Nat
  | [] => []
  | branch :: rest =>
    if branchVoid branch then branchLevels rest
    else (nestingOf branch).level :: branchLevels rest

end

end ApiDoc.Glob

namespace ApiDoc

/-- A pattern for paths. -/
structure Glob where
  pieces : List Glob.Piece
deriving Inhabited

namespace Glob

def parse (pattern : String) : Except Fault Glob :=
  let cs := pattern.toList
  match Draft.read cs.length {} cs with
  | .error e => .error e
  | .ok draft => if draft.outer.isEmpty then .ok ⟨draft.pieces.reverse⟩ else .error .unclosedChoice

def isTooDeep (g : Glob) : Bool := depthLimit < 1 + (nestingOf g.pieces).depth

/-- Whether a pattern matches a path. Two stars alone match every path. -/
def isMatch (g : Glob) (path : String) : Bool :=
  match g.pieces with
  | [.leadingDirs] => true
  | pieces =>
    let bytes := Digest.utf8 path
    (advanceAll bytes pieces (true :: bytes.map fun _ => false)).getLast? == some true

end Glob

end ApiDoc
