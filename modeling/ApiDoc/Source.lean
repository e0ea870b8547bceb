import ApiDoc.Digest
import ApiDoc.Disk
import ApiDoc.Reader.Statement

/-!
# Source texts

A source text is a file of the project on its way to being read: its path relative to the project
root, its content and the hash of that content. Reading it gives a `File`, or says why not.
-/

namespace ApiDoc

/-- Why a source file cannot be documented. -/
inductive SourceError
  | unreadable (path : String) (cause : Disk.Fault)
  | notText (path : String)
  | malformed (path : String) (cause : LexError)
deriving DecidableEq

def SourceError.name : SourceError → String
  | .unreadable .. => "Io"
  | .notText _ => "Encoding"
  | .malformed .. => "Syntax"

def SourceError.message : SourceError → String
  | .unreadable path cause => "cannot read " ++ path ++ ": " ++ cause.message
  | .notText path => path ++ " is not valid UTF-8"
  | .malformed path cause =>
    "syntax error in " ++ path ++ " at line " ++ Text.ofNat cause.line ++ ": " ++
      cause.fault.message

structure SourceText where
  path : String
  content : String
deriving DecidableEq, Inhabited

def SourceText.hash (s : SourceText) : String := Digest.ofText s.content

/-- The source text of a path below the project root. -/
def SourceText.load (d : Disk) (root path : String) : Except SourceError SourceText :=
  match d.read (Path.join root path) with
  | .error e => .error (.unreadable path e)
  | .ok content =>
    match String.fromUTF8? content with
    | some text => .ok ⟨path, text⟩
    | none => .error (.notText path)

/-- The file that a source text declares. -/
def SourceText.read (s : SourceText) : Except SourceError File :=
  match File.ofSource s.path s.content with
  | .ok file => .ok file
  | .error e => .error (.malformed s.path e)

/-- How a source text is read. -/
abbrev SourceReader := SourceText → Except SourceError File

end ApiDoc
