import ApiDoc.NameMap
import ApiDoc.Settings
import ApiDoc.Text.Pieces

/-!
# Configuration in layers

Every setting has a default, which the configuration file, then the environment and then the command
line can replace. A setting remembers the layer it came from, and a layer never replaces a value of
a higher one. Patterns to ignore are the exception: those of the command line are added to the ones
of the layers below.
-/

namespace ApiDoc

/-- The layers a setting can come from, from the lowest to the highest. -/
inductive Layer
  | default
  | file
  | environment
  | commandLine
deriving DecidableEq, Inhabited

namespace Layer

def rank : Layer → Nat
  | .default => 0
  | .file => 1
  | .environment => 2
  | .commandLine => 3

/-- The name under which a layer is reported. -/
def name : Layer → String
  | .default => "default"
  | .file => "project_config"
  | .environment => "env_var"
  | .commandLine => "cli_flag"

def ofName? : String → Option Layer
  | "default" => some .default
  | "project_config" => some .file
  | "env_var" => some .environment
  | "cli_flag" => some .commandLine
  | _ => none

@[simp] theorem ofName?_name (l : Layer) : ofName? l.name = some l := by cases l <;> rfl

end Layer

structure Layered (α : Type) where
  value : α
  source : Layer := .default
deriving DecidableEq, Inhabited

namespace Layered

variable {α : Type}

/-- The second value, unless the first comes from a higher layer. -/
def merge (a b : Layered α) : Layered α := if a.source.rank ≤ b.source.rank then b else a

/-- The value of a layer in place of this one, if the layer provides one and is not lower. -/
def provide (a : Layered α) (source : Layer) : Option α → Layered α
  | some value => a.merge ⟨value, source⟩
  | none => a

end Layered

structure ConfigFile where
  title : Option String := none
  visibility : Option (List String) := none
  markers : Option (List String) := none
  includeSource : Option Bool := none
  defaultPackage : Option String := none
  strictNames : Option Bool := none
  sourcePaths : Option (List String) := none
  ignore : Option (List String) := none
  extensions : Option (List String) := none
  examplesDir : Option String := none
  cacheDir : Option String := none
deriving DecidableEq, Inhabited

/-- What the command line provides. `configFile` replaces the configuration file of the project. -/
structure Overrides where
  configFile : Option String := none
  title : Option String := none
  visibility : List String := []
  sourcePaths : List String := []
  ignore : List String := []
  cacheDir : Option String := none
  includeSource : Bool := false
  force : Bool := false
  strictNames : Bool := false
deriving DecidableEq, Inhabited

/-- The settings with the layer of each of them; visibilities are still words. -/
structure Config where
  title : Layered String
  visibility : Layered (List String)
  markers : Layered (List String)
  includeSource : Layered Bool
  defaultPackage : Layered String
  strictNames : Layered Bool
  sourcePaths : Layered (List String)
  ignore : Layered (List String)
  extensions : Layered (List String)
  examplesDir : Layered (Option String)
  cacheDir : Layered String
  force : Layered Bool
deriving DecidableEq, Inhabited

namespace Config

/-- The name of the configuration file in the project root. -/
def fileName : String := "docblox.json"

def defaults : Config :=
  let s : Settings := {}
  { title := ⟨s.title, .default⟩
    visibility := ⟨s.visibility.names, .default⟩
    markers := ⟨s.markers, .default⟩
    includeSource := ⟨s.includeSource, .default⟩
    defaultPackage := ⟨s.defaultPackage, .default⟩
    strictNames := ⟨s.strictNames, .default⟩
    sourcePaths := ⟨s.sourcePaths, .default⟩
    ignore := ⟨s.ignore, .default⟩
    extensions := ⟨s.extensions, .default⟩
    examplesDir := ⟨s.examplesDir, .default⟩
    cacheDir := ⟨s.cacheDir, .default⟩
    force := ⟨s.force, .default⟩ }

def applyFile (c : Config) (f : ConfigFile) : Config :=
  { c with
    title := c.title.provide .file f.title
    visibility := c.visibility.provide .file f.visibility
    markers := c.markers.provide .file f.markers
    includeSource := c.includeSource.provide .file f.includeSource
    defaultPackage := c.defaultPackage.provide .file f.defaultPackage
    strictNames := c.strictNames.provide .file f.strictNames
    sourcePaths := c.sourcePaths.provide .file f.sourcePaths
    ignore := c.ignore.provide .file f.ignore
    extensions := c.extensions.provide .file f.extensions
    examplesDir := c.examplesDir.provide .file (f.examplesDir.map some)
    cacheDir := c.cacheDir.provide .file f.cacheDir }

/-- The items of a comma-separated list, trimmed, without empty ones. -/
def listItems (s : String) : List String := Text.items ',' s

/-- The truth value a variable of the environment holds. -/
def truth? (name value : String) : Except ConfigError Bool :=
  let word := Text.asciiLower (Text.trimmed value)
  if ["1", "true", "yes", "on"].contains word then .ok true
  else if ["0", "false", "no", "off", ""].contains word then .ok false
  else .error (.invalidVariable name value)

/-- The environment: the value of a variable, if it is set. -/
abbrev Environment := NameMap String

/-- The variables of the environment that hold settings. -/
def variableNames : List String :=
  ["DOCBLOX_TITLE", "DOCBLOX_VISIBILITY", "DOCBLOX_MARKERS", "DOCBLOX_CACHE_DIR",
    "DOCBLOX_INCLUDE_SOURCE", "DOCBLOX_FORCE"]

def truthOf (env : Environment) (name : String) : Except ConfigError (Option Bool) :=
  match env.get? name with
  | none => .ok none
  | some value => (truth? name value).map some

def applyEnvironment (c : Config) (env : Environment) : Except ConfigError Config := do
  let includeSource ← truthOf env "DOCBLOX_INCLUDE_SOURCE"
  let force ← truthOf env "DOCBLOX_FORCE"
  return { c with
    title := c.title.provide .environment (env.get? "DOCBLOX_TITLE")
    visibility := c.visibility.provide .environment
      ((env.get? "DOCBLOX_VISIBILITY").map listItems)
    markers := c.markers.provide .environment ((env.get? "DOCBLOX_MARKERS").map listItems)
    cacheDir := c.cacheDir.provide .environment (env.get? "DOCBLOX_CACHE_DIR")
    includeSource := c.includeSource.provide .environment includeSource
    force := c.force.provide .environment force }

def nonempty? {α : Type} (items : List α) : Option (List α) :=
  if items.isEmpty then none else some items

def flag? (b : Bool) : Option Bool := if b then some true else none

def applyOverrides (c : Config) (o : Overrides) : Config :=
  { c with
    title := c.title.provide .commandLine o.title
    visibility := c.visibility.provide .commandLine
      ((nonempty? o.visibility).map (·.flatMap listItems))
    sourcePaths := c.sourcePaths.provide .commandLine (nonempty? o.sourcePaths)
    ignore := c.ignore.provide .commandLine ((nonempty? o.ignore).map (c.ignore.value ++ ·))
    cacheDir := c.cacheDir.provide .commandLine o.cacheDir
    includeSource := c.includeSource.provide .commandLine (flag? o.includeSource)
    force := c.force.provide .commandLine (flag? o.force)
    strictNames := c.strictNames.provide .commandLine (flag? o.strictNames) }

def ofLayers (file : Option ConfigFile) (env : Environment) (o : Overrides) :
    Except ConfigError Config := do
  let withFile :=
    match file with
    | some f => defaults.applyFile f
    | none => defaults
  return (← withFile.applyEnvironment env).applyOverrides o

/-- The settings of a configuration: its visibilities are known words and its patterns are
patterns. -/
def toSettings (c : Config) : Except ConfigError Settings := do
  let visibility ←
    match VisibilityFilter.parse c.visibility.value with
    | .ok filter => .ok filter
    | .error word => .error (.unknownVisibility word)
  let settings : Settings := {
    title := c.title.value
    visibility := visibility
    markers := c.markers.value
    includeSource := c.includeSource.value
    defaultPackage := c.defaultPackage.value
    strictNames := c.strictNames.value
    sourcePaths := c.sourcePaths.value
    ignore := c.ignore.value
    extensions := c.extensions.value
    examplesDir := c.examplesDir.value
    cacheDir := c.cacheDir.value
    force := c.force.value }
  let _ ← settings.ignored
  return settings

end Config

end ApiDoc
