import ApiDoc.Disk.Fault
import ApiDoc.Glob
import ApiDoc.VisibilityFilter

/-!
# Settings of a build

`Settings` is what a build is run with: what to read, what to show and how to treat names that are
declared twice. Paths are as the user wrote them, relative to the project root.
-/

namespace ApiDoc

inductive ConfigError
  | unknownVisibility (word : String)
  | invalidPattern (pattern : String) (cause : Glob.Fault)
  | unreadable (path : String) (cause : Disk.Fault)
  | malformed (path : String)
  | invalidVariable (name value : String)
deriving DecidableEq

def ConfigError.name : ConfigError → String
  | .unknownVisibility _ => "UnknownVisibility"
  | .invalidPattern .. => "InvalidPattern"
  | .unreadable .. => "Io"
  | .malformed _ => "Json"
  | .invalidVariable .. => "InvalidEnvValue"

def ConfigError.message : ConfigError → String
  | .unknownVisibility word =>
    "unknown visibility '" ++ word ++
      "' (expected api, public, protected, private or internal)"
  | .invalidPattern pattern cause =>
    "invalid glob pattern '" ++ pattern ++ "': " ++ cause.message
  | .unreadable path cause => "cannot read config file " ++ path ++ ": " ++ cause.message
  | .malformed path => "invalid config file " ++ path ++ ": not a record of known settings"
  | .invalidVariable name value => "invalid value '" ++ value ++ "' for " ++ name

/-- What a build is run with. -/
structure Settings where
  title : String := "API Documentation"
  visibility : VisibilityFilter := .standard
  markers : List String := ["TODO", "FIXME"]
  includeSource : Bool := false
  defaultPackage : String := "Default"
  strictNames : Bool := false
  sourcePaths : List String := ["."]
  ignore : List String := []
  extensions : List String := ["php"]
  examplesDir : Option String := none
  cacheDir : String := ".docblox"
  force : Bool := false
deriving DecidableEq, Inhabited

/-- The patterns of a list, or the first text that is none. Patterns that are nested too deep are
refused together. -/
def parsePatterns (patterns : List String) : Except ConfigError (List Glob) := do
  let globs ← patterns.mapM fun p =>
    match Glob.parse p with
    | .ok glob => .ok glob
    | .error e => .error (.invalidPattern p e)
  if globs.any Glob.isTooDeep then .error (.invalidPattern "<combined>" .nestedTooDeep)
  else .ok globs

/-- The patterns for paths that are not read. -/
def Settings.ignored (s : Settings) : Except ConfigError (List Glob) := parsePatterns s.ignore

end ApiDoc
