import ApiDoc.Codec.Project
import ApiDoc.Codec.Settings
import ApiDoc.Collection
import ApiDoc.Problem

/-!
# Responses

Every command answers with one JSON document, which states first how the command ended and the
version of the form of the document.
-/

namespace ApiDoc.Response

/-- The version of the form of all responses. -/
def schemaVersion : String := "1"

/-- A response: its status, the version of its form, and its own fields. -/
def ofFields (status : String) (fields : List (String × Json)) : Json :=
  .obj ([("status", .str status), ("schema_version", .str schemaVersion)] ++ fields)

def saveCounts (c : SaveCounts) : Json :=
  .obj [("written", .nat c.written), ("kept", .nat c.kept), ("collected", .nat c.collected)]

def report (r : Report) : Json :=
  .obj ([("discovered", .nat r.discovered), ("parsed", .nat r.parsed), ("skipped", .nat r.skipped),
    ("failed", .nat r.failed), ("removed", .nat r.removed)] ++
      Codec.whenSome "cache" saveCounts r.cache)

def problem (p : Problem) : Json :=
  .obj ([("path", .str p.path)] ++ Codec.whenSome "line" .nat p.line ++
    [("message", .str p.message)])

/-- An event: the word for it and what it is about. -/
def event : Event → Json
  | .parsed path => .texts ["parsed", path]
  | .skipped path => .texts ["skipped", path]
  | .failed path message => .texts ["failed", path, message]
  | .started description => .texts ["start", description]
  | .finished description => .texts ["finish", description]
  | .warning message => .texts ["warning", message]
  | .error message => .texts ["error", message]
  | .debug message => .texts ["debug", message]

/-- The response of a command that read the sources. -/
def parsed (r : Report) (problems : List Problem) : Json :=
  ofFields "ok" [("report", report r), ("problems", Codec.ofList problem problems)]

/-- The response of a build: the project itself, unless it was written to a file. -/
def built (p : Project) (r : Report) (problems : List Problem) (output : Option String) : Json :=
  let content :=
    match output with
    | some path => ("output", .str path)
    | none => ("project", Codec.project p)
  ofFields "ok" [("title", .str p.title), ("report", report r), ("elements", .nat p.elementCount),
    ("problems", Codec.ofList problem problems), content]

/-- The response that shows a configuration and the file it was read from. -/
def config (file : Option String) (c : Config) : Json :=
  ofFields "ok" [("config_file", .textOrNull file), ("config", Codec.config c)]

/-- The response that shows what a cache directory holds. -/
def cacheStatus (dir : String) (m : Option Manifest) : Json :=
  ofFields "ok" ([("cache_dir", .str dir), ("exists", .bool m.isSome),
    ("files", .nat ((m.map Manifest.fileCount).getD 0))] ++
      Codec.whenSome "written_at" .str (m.map Manifest.writtenAt) ++
      Codec.whenSome "cache_schema_version" .nat (m.map Manifest.schema))

/-- The response after a cache directory was removed. -/
def cacheCleared (dir : String) (removed : Nat) : Json :=
  ofFields "ok" [("cache_dir", .str dir), ("removed", .nat removed)]

def failed (e : BuildError) : Json :=
  ofFields "error" [("error", .obj ([("code", .nat e.code), ("kind", .str e.name),
    ("message", .str e.message)] ++ Codec.whenSome "details" id e.details?))]

end ApiDoc.Response
