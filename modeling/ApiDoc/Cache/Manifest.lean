import ApiDoc.Codec.Basic
import ApiDoc.Digest
import ApiDoc.Total

/-!
# The manifest of the cache

The manifest lists for every set the paths of its cached files and the key under which each file is
stored. A key is the digest of the name of the set followed by the path.
-/

namespace ApiDoc

/-- The manifest: the version of its form, when it was written, and set → path → key. -/
structure Manifest where
  schema : Nat
  writtenAt : String
  sets : NameMap (NameMap String) := .empty
deriving DecidableEq, Inhabited

namespace Manifest

/-- The version of the form that is written. -/
def currentSchema : Nat := 1

def blank (now : String) : Manifest := { schema := currentSchema, writtenAt := now }

def fileCount (m : Manifest) : Nat := total (m.sets.values.map NameMap.size)

def keys (m : Manifest) : List String := m.sets.values.flatMap NameMap.values

def entryKey (set path : String) : String := Digest.sha256 (Digest.utf8 set ++ Digest.utf8 path)

end Manifest

namespace Codec

def manifest (m : Manifest) : Json :=
  .obj [("schema_version", .nat m.schema), ("written_at", .str m.writtenAt),
    ("sets", ofMap (ofMap .str) m.sets)]

def manifest? : Decoder Manifest := fun j => do
  let fs ← record ["schema_version", "written_at", "sets"] 2 j
  return {
    schema := ← required fs "schema_version" word
    writtenAt := ← required fs "written_at" text
    sets := ← optional fs "sets" .empty (mapOf (mapOf text)) }

end Codec

end ApiDoc
