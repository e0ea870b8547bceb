import ApiDoc.Disk
import ApiDoc.Selection

/-!
# Finding source files

The sources of a project are found by walking its source paths. Folders that hold the data of other
tools are not entered, unless a source path names them. The result lists the selected files by their
path below the project root, each once and in order.
-/

namespace ApiDoc

namespace Disk

/-- The names of folders that a walk does not enter. -/
def foreignFolders : List String := [".git", ".svn", ".hg", "node_modules", "vendor"]

/-- The files a walk from a path finds, as paths that start with it: the file the path leads to, or
the files below the folder it leads to. A path that leads nowhere gives no files. -/
def walk (d : Disk) (source : String) : List String :=
  match d.locate source with
  | .error _ => []
  | .ok place =>
    match d.entry? place with
    | none => []
    | some (.file _) => [source]
    | some .folder =>
      let entered := (d.filesBelow place).filter fun names =>
        !names.dropLast.any foreignFolders.contains
      entered.map fun names => names.foldl Path.join source

end Disk

/-- The source paths of settings as paths from the root; without any, the root itself. -/
def Settings.sources (s : Settings) (root : String) : List String :=
  if s.sourcePaths.isEmpty then [root] else s.sourcePaths.map (Path.join root)

/-- The path below the root of a file that is selected. -/
def Selection.relative? (s : Selection) (root path : String) : Option String :=
  match Path.below? root path with
  | some relative => if s.accepts relative then some (Path.slashed relative) else none
  | none => none

/-- The selected files below the source paths, in order and without repetition. -/
def discover (d : Disk) (root : String) (s : Settings) : Except ConfigError (List String) := do
  let selection ← Selection.ofSettings s
  let found := ((s.sources root).flatMap d.walk).filterMap (selection.relative? root)
  return (NameMap.ofList (found.map fun path => (path, ()))).keys

end ApiDoc
