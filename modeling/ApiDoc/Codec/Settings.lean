import ApiDoc.Codec.Basic
import ApiDoc.Config

/-!
# Settings and configuration as JSON

Settings are written in full. A configuration file may hold any of the known settings, each of them
once; another key, or one that comes twice, makes the file unusable.
-/

namespace ApiDoc.Codec

/-- A filter as the keywords of its flags. -/
def visibilityFilter (f : VisibilityFilter) : Json := .texts f.names

def visibilityFilter? : Decoder VisibilityFilter := fun j => do
  match VisibilityFilter.parse (← listOf text j) with
  | .ok filter => some filter
  | .error _ => none

def settings (s : Settings) : Json :=
  .obj [("title", .str s.title), ("visibility", visibilityFilter s.visibility),
    ("markers", .texts s.markers), ("include_source", .bool s.includeSource),
    ("default_package_name", .str s.defaultPackage), ("strict_fqsen", .bool s.strictNames),
    ("source_paths", .texts s.sourcePaths), ("ignore", .texts s.ignore),
    ("extensions", .texts s.extensions), ("examples_dir", .textOrNull s.examplesDir),
    ("cache_dir", .str s.cacheDir), ("force", .bool s.force)]

def settingKeys : List String :=
  ["title", "visibility", "markers", "include_source", "default_package_name", "strict_fqsen",
    "source_paths", "ignore", "extensions", "examples_dir", "cache_dir", "force"]

def settings? : Decoder Settings := fun j => do
  let fs ← record settingKeys 12 j
  return {
    title := ← required fs "title" text
    visibility := ← required fs "visibility" visibilityFilter?
    markers := ← required fs "markers" (listOf text)
    includeSource := ← required fs "include_source" boolean
    defaultPackage := ← required fs "default_package_name" text
    strictNames := ← required fs "strict_fqsen" boolean
    sourcePaths := ← required fs "source_paths" (listOf text)
    ignore := ← required fs "ignore" (listOf text)
    extensions := ← required fs "extensions" (listOf text)
    examplesDir := ← optional fs "examples_dir" none (orNull text)
    cacheDir := ← required fs "cache_dir" text
    force := ← required fs "force" boolean }

def configKeys : List String :=
  ["title", "visibility", "markers", "include_source", "default_package_name", "strict_fqsen",
    "source_paths", "ignore", "extensions", "examples_dir", "cache_dir"]

/-- A field that may be missing or null. -/
def maybe {α : Type} (fs : List (String × Json)) (key : String) (decode : Decoder α) :
    Option (Option α) :=
  optional fs key none (orNull decode)

def configFile? : Decoder ConfigFile := fun j => do
  let fs ← record configKeys 0 j
  guard (fs.all fun f => configKeys.contains f.1)
  return {
    title := ← maybe fs "title" text
    visibility := ← maybe fs "visibility" (listOf text)
    markers := ← maybe fs "markers" (listOf text)
    includeSource := ← maybe fs "include_source" boolean
    defaultPackage := ← maybe fs "default_package_name" text
    strictNames := ← maybe fs "strict_fqsen" boolean
    sourcePaths := ← maybe fs "source_paths" (listOf text)
    ignore := ← maybe fs "ignore" (listOf text)
    extensions := ← maybe fs "extensions" (listOf text)
    examplesDir := ← maybe fs "examples_dir" text
    cacheDir := ← maybe fs "cache_dir" text }

/-- Reads the values of a command line. A field that is missing or has another shape provides
nothing. -/
def overrides (j : Json) : Overrides :=
  let one (key : String) : Option String := (j.get? key).bind text
  let many (key : String) : List String := ((j.get? key).bind (listOf text)).getD []
  let set (key : String) : Bool := ((j.get? key).bind boolean).getD false
  { configFile := one "config_file"
    title := one "title"
    visibility := many "visibility"
    sourcePaths := many "source_paths"
    ignore := many "ignore"
    cacheDir := one "cache_dir"
    includeSource := set "include_source"
    force := set "force"
    strictNames := set "strict_fqsen" }

def layered {α : Type} (encode : α → Json) (v : Layered α) : Json :=
  .obj [("value", encode v.value), ("source", .str v.source.name)]

def config (c : Config) : Json :=
  .obj [("title", layered .str c.title), ("visibility", layered .texts c.visibility),
    ("markers", layered .texts c.markers), ("include_source", layered .bool c.includeSource),
    ("default_package_name", layered .str c.defaultPackage),
    ("strict_fqsen", layered .bool c.strictNames),
    ("source_paths", layered .texts c.sourcePaths), ("ignore", layered .texts c.ignore),
    ("extensions", layered .texts c.extensions),
    ("examples_dir", layered .textOrNull c.examplesDir), ("cache_dir", layered .str c.cacheDir),
    ("force", layered .bool c.force)]

end ApiDoc.Codec
