import ApiDoc.Disk.Fault
import ApiDoc.Text.Decimal
import ApiDoc.Text.Pieces

/-!
# Examples named by inline tags

An example tag names a file, optionally the first line and the number of lines to show, and a
description. `ExampleRequest.parse?` reads the argument of the tag and `ExampleRequest.slice` cuts
the requested lines out of the content of the file.
-/

namespace ApiDoc

/-- What an example tag asks for. Lines are counted from one. -/
structure ExampleRequest where
  path : String
  start : Option Nat := none
  length : Option Nat := none
  description : String := ""
deriving DecidableEq, Inhabited

/-- Why an example cannot be shown. -/
inductive ExampleError
  | notFound (path : String)
  | outOfRange (path : String) (start lines : Nat)
  | unreadable (path : String) (cause : Disk.Fault)
deriving DecidableEq

def ExampleError.name : ExampleError → String
  | .notFound _ => "NotFound"
  | .outOfRange .. => "OutOfRange"
  | .unreadable .. => "Io"

def ExampleError.message : ExampleError → String
  | .notFound path => "example file not found: " ++ path
  | .outOfRange path start lines =>
    "example " ++ path ++ " has " ++ Text.ofNat lines ++ " lines, requested start line " ++
      Text.ofNat start
  | .unreadable path cause => "cannot read example " ++ path ++ ": " ++ cause.message

/-- How examples are found: the content to show, or why there is none. -/
abbrev ExampleFinder := ExampleRequest → Except ExampleError String

namespace ExampleRequest

/-- The width in bits of line numbers in a request. -/
def lineWidth : Nat := 64

/-- The leading word as a number, and the words after it. -/
def leadingNumber : List (List Char) → Option Nat × List (List Char)
  | [] => (none, [])
  | word :: rest =>
    match Text.unsigned? lineWidth word with
    | some n => (some n, rest)
    | none => (none, word :: rest)

/-- Reads the argument of an example tag. Numbers directly after the path are the first line and the
number of lines; the other words, one blank between them, are the description. -/
def parse? (argument : String) : Option ExampleRequest :=
  match Text.words argument.toList with
  | [] => none
  | path :: rest =>
    let (start, afterStart) := leadingNumber rest
    let (length, others) := if start.isSome then leadingNumber afterStart else (none, afterStart)
    some {
      path := String.ofList path
      start := start
      length := length
      description := String.ofList (Text.joinWith [' '] others) }

/-- The requested lines of a content, joined by newlines; without a first line, the whole content
without its trailing blanks. -/
def slice (request : ExampleRequest) (content : String) : Except ExampleError String :=
  match request.start with
  | none => .ok (Text.trimmedEnd content)
  | some start =>
    let lines := Text.lines content.toList
    let first := max start 1 - 1
    if lines.length ≤ first then .error (.outOfRange request.path start lines.length)
    else
      let rest := lines.drop first
      let shown :=
        match request.length with
        | some count => rest.take count
        | none => rest
      .ok (String.ofList (Text.joinWith ['\n'] shown))

end ExampleRequest

def ExampleFinder.none : ExampleFinder := fun request => .error (.notFound request.path)

end ApiDoc
