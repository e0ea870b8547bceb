import ApiDoc.ApiSet

/-!
# Problems of source files

What was wrong with the sources of a build: files that could not be read at all, and lines that do
not follow the expected form.
-/

namespace ApiDoc

/-- A problem of a file, or of one of its lines. -/
structure Problem where
  path : String
  line : Option Nat := none
  message : String
deriving DecidableEq, Inhabited

namespace Problem

/-- Whether one line comes before another or is the same; the whole file comes first. -/
def lineLe : Option Nat → Option Nat → Bool
  | none, _ => true
  | some _, none => false
  | some a, some b => a ≤ b

/-- Whether one problem is listed before another or beside it: by path, then by line. -/
def le (a b : Problem) : Bool := a.path < b.path || (a.path = b.path && lineLe a.line b.line)

/-- Problems by path and line; those of one line keep their order. -/
def sort (problems : List Problem) : List Problem := problems.mergeSort le

end Problem

/-- The problems of the lines of a set, file by file. -/
def ApiSet.lineProblems (s : ApiSet) : List Problem :=
  s.files.flatMap fun f => f.problems.map fun p => ⟨f.path, some p.line, p.message⟩

/-- The problems of a set together with those of whole files, in order. -/
def ApiSet.problems (s : ApiSet) (failures : List Problem) : List Problem :=
  Problem.sort (failures ++ s.lineProblems)

end ApiDoc
