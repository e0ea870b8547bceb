import ApiDoc.Cache.Error
import ApiDoc.Json.Basic
import ApiDoc.Settings

/-!
# Why a build fails

A build error ends the whole build. It is reported with a code, which is also the exit code of the
program, a stable name, a text and, for some errors, the parts it is about.
-/

namespace ApiDoc

/-- The cause of a failed build. -/
inductive BuildError
  | invalidArguments (text : String)
  | config (cause : ConfigError)
  | duplicateVersion (number : String)
  | duplicateName (fqsen first second : String)
  | orphanedElement (fqsen : String)
  | noRoute (nodeType name : String)
  | cache (cause : CacheError)
  | io (cause : Disk.Fault)
  | internal (text : String)
deriving DecidableEq

namespace BuildError

def message : BuildError → String
  | .invalidArguments text => "invalid arguments: " ++ text
  | .config cause => cause.message
  | .duplicateVersion number => "version " ++ number ++ " is already registered"
  | .duplicateName fqsen first second =>
    "duplicate FQSEN " ++ fqsen ++ ": declared in " ++ first ++ " and " ++ second
  | .orphanedElement fqsen => "element " ++ fqsen ++ " is not associated with a file"
  | .noRoute nodeType name => "no routing rule matches " ++ nodeType ++ " '" ++ name ++ "'"
  | .cache cause => cause.message
  | .io cause => "IO error: " ++ cause.message
  | .internal text => "internal error: " ++ text

/-- Two for a mistake of the caller, three for a name or page that cannot be resolved, four for
files and the cache, ten for a broken invariant. -/
def code : BuildError → Nat
  | .invalidArguments _ => 2
  | .config _ => 2
  | .duplicateVersion _ => 2
  | .duplicateName .. => 3
  | .noRoute .. => 3
  | .cache _ => 4
  | .io _ => 4
  | .orphanedElement _ => 10
  | .internal _ => 10

def name : BuildError → String
  | .invalidArguments _ => "InvalidArguments"
  | .config _ => "InvalidConfig"
  | .duplicateVersion _ => "DuplicateVersion"
  | .duplicateName .. => "DuplicateFqsen"
  | .orphanedElement _ => "OrphanedElement"
  | .noRoute .. => "NoRoute"
  | .cache _ => "CacheError"
  | .io _ => "IoError"
  | .internal _ => "InternalError"

/-- The parts the error is about, for the errors that have them. -/
def details? : BuildError → Option Json
  | .duplicateName fqsen first second =>
    some (.obj [("files", .texts [first, second]), ("fqsen", .str fqsen)])
  | .noRoute nodeType name => some (.obj [("name", .str name), ("node_type", .str nodeType)])
  | .duplicateVersion number => some (.obj [("version", .str number)])
  | .orphanedElement fqsen => some (.obj [("fqsen", .str fqsen)])
  | _ => none

end BuildError

end ApiDoc
