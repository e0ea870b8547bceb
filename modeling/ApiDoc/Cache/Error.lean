import ApiDoc.Disk.Fault

/-!
# Why the cache cannot be used
-/

namespace ApiDoc

/-- The cause of a failed operation on the cache directory. -/
inductive CacheError
  | notADirectory (path : String)
  | corruptManifest (path : String)
  | io (cause : Disk.Fault)
deriving DecidableEq

def CacheError.name : CacheError → String
  | .notADirectory _ => "NotADirectory"
  | .corruptManifest _ => "Corrupt"
  | .io _ => "Io"

def CacheError.message : CacheError → String
  | .notADirectory path => "cache path is not a directory: " ++ path
  | .corruptManifest path => "cache manifest is corrupt: " ++ path ++ ": not a manifest"
  | .io cause => "IO error: " ++ cause.message

end ApiDoc
