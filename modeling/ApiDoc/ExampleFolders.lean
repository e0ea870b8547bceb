import ApiDoc.Disk
import ApiDoc.Example
import ApiDoc.Settings

/-!
# Where examples are found

An example is looked for in the folder for examples, in the folder of the sources, in a folder
`examples` beside that one, and last from the current folder. The first of these paths that leads to
a file is the example.
-/

namespace ApiDoc

/-- The folders in which examples are looked for. -/
structure ExampleFolders where
  sources : Option String := none
  examples : Option String := none
deriving DecidableEq, Inhabited

namespace ExampleFolders

/-- The folders of settings: the first source path and the folder for examples, from the root. -/
def ofSettings (root : String) (s : Settings) : ExampleFolders where
  sources := s.sourcePaths.head?.map (Path.join root)
  examples := s.examplesDir.map (Path.join root)

def candidates (f : ExampleFolders) (path : String) : List String :=
  let inside (folder : String) : String := Path.join folder path
  let beside (folder : String) : Option String :=
    (Path.parent? folder).map fun holder => Path.join (Path.join holder "examples") path
  (f.examples.map inside).toList ++ (f.sources.map inside).toList ++
    (f.sources.bind beside).toList ++ [path]

def finder (f : ExampleFolders) (d : Disk) : ExampleFinder := fun request =>
  match (f.candidates request.path).find? d.hasFile with
  | none => .error (.notFound request.path)
  | some path =>
    match d.readText path with
    | .ok content => request.slice content
    | .error e => .error (.unreadable request.path e)

end ExampleFolders

end ApiDoc
