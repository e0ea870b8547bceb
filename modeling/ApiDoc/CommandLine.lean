import ApiDoc.Command

/-!
# The command line

The words of a command line are switches and the names of commands. Switches that concern every
command may stand before or after its name; the same switch can be given once at each of these
places, and then the later one counts. Switches that can be repeated collect their values. A command
line that does not follow these rules prints nothing and ends with the code two.
-/

namespace ApiDoc.CommandLine

/-! ### Switches -/

inductive Switch
  | root
  | config
  | logLevel
  | logFormat
  | title
  | visibility
  | source
  | ignore
  | cacheDir
  | includeSource
  | force
  | strict
  | noCache
  | output
deriving DecidableEq, Inhabited

/-- What follows a switch: nothing, any text, a path, or one of some words. -/
inductive Argument
  | nothing
  | text
  | path
  | oneOf (words : List String)
deriving DecidableEq, Inhabited

namespace Switch

def name : Switch → String
  | .root => "root"
  | .config => "config"
  | .logLevel => "log-level"
  | .logFormat => "log-format"
  | .title => "title"
  | .visibility => "visibility"
  | .source => "source"
  | .ignore => "ignore"
  | .cacheDir => "cache-dir"
  | .includeSource => "include-source"
  | .force => "force"
  | .strict => "strict"
  | .noCache => "no-cache"
  | .output => "output"

/-- The letter of a switch that can be written with one dash. -/
def letter? : Switch → Option Char
  | .output => some 'o'
  | _ => none

/-- What follows a switch. -/
def argument : Switch → Argument
  | .root | .config | .source | .cacheDir | .output => .path
  | .title | .visibility | .ignore => .text
  | .logLevel => .oneOf ["trace", "debug", "info", "warn", "error"]
  | .logFormat => .oneOf ["text", "json"]
  | .includeSource | .force | .strict | .noCache => .nothing

def repeats : Switch → Bool
  | .visibility | .source | .ignore => true
  | _ => false

/-- The switches that concern every command. -/
def common : List Switch := [.root, .config, .logLevel, .logFormat]

/-- The switches of commands that read sources. -/
def reading : List Switch :=
  [.title, .visibility, .source, .ignore, .cacheDir, .includeSource, .force, .strict, .noCache]

end Switch

/-- Whether a text can follow a switch; a path is not empty. -/
def Argument.admits : Argument → String → Bool
  | .nothing, _ => false
  | .text, _ => true
  | .path, value => !value.isEmpty
  | .oneOf words, value => words.contains value

/-! ### Reading words -/

/-- A place on the command line: the switches and command names that can stand there, and whether it
is the place before all commands. -/
structure Level where
  switches : List Switch
  commands : List String := []
  isTop : Bool := false

/-- The place before all commands. -/
def Level.top : Level where
  switches := Switch.common
  commands := ["parse", "run", "cache", "config"]
  isTop := true

/-- The place after the name of a command that no other command follows. -/
def Level.leaf (switches : List Switch) : Level where
  switches := Switch.common ++ switches

def Level.cache : Level where
  switches := Switch.common ++ [.cacheDir]
  commands := ["status", "clear"]

/-- Whether some words name something to get help for below a level: a command, and after it the
commands below it. -/
def Level.explains (l : Level) : List String → Bool
  | [] => true
  | name :: rest =>
    if l.isTop && name == "cache" then Level.cache.explains rest
    else (l.commands.contains name || name == "help") && rest.isEmpty

/-- The switches given so far, each with its value, in order. -/
abbrev Given := List (Switch × String)

/-- How reading the words of a level ends. -/
inductive Reading
  | invalid
  | help
  | version
  | ended (given : Given)
  | command (given : Given) (name : String) (rest : List String)
deriving DecidableEq, Inhabited

/-- The switches with one more, unless its value does not fit or it was given before. -/
def Given.add? (given : Given) (s : Switch) (value : String) : Option Given :=
  if s.argument.admits value && (s.repeats || !given.any fun g => g.1 = s) then
    some (given ++ [(s, value)])
  else none

/-- The switches with one more that stands alone. -/
def Given.addBare? (given : Given) (s : Switch) : Option Given :=
  if s.argument = .nothing && !given.any (fun g => g.1 = s) then some (given ++ [(s, "")]) else none

inductive Word
  /-- Two dashes alone: everything after them is not a switch. -/
  | terminator
  /-- Two dashes and a name, which a value can follow after an equals sign. -/
  | long (name : String) (value : Option String)
  /-- A dash and a letter, which a value can follow. -/
  | short (letter : Char) (value : Option String)
  | plain (text : String)
deriving DecidableEq, Inhabited

/-- What a word is; a single dash is a plain word. -/
def Word.ofText (text : String) : Word :=
  match text.toList with
  | ['-', '-'] => .terminator
  | '-' :: '-' :: cs =>
    match Text.cut? ['='] cs with
    | some (name, value) => .long (String.ofList name) (some (String.ofList value))
    | none => .long (String.ofList cs) none
  | ['-', letter] => .short letter none
  | '-' :: letter :: '=' :: cs => .short letter (some (String.ofList cs))
  | '-' :: letter :: cs => .short letter (some (String.ofList cs))
  | _ => .plain text

/-- The switch a word names at a level, with the value in the same word. -/
def Level.switch? (l : Level) : Word → Option (Switch × Option String)
  | .long name value => (l.switches.find? fun s => s.name = name).map fun s => (s, value)
  | .short letter value =>
    (l.switches.find? fun s => s.letter? = some letter).map fun s => (s, value)
  | _ => none

def Word.asksHelp : Word → Bool
  | .long "help" none => true
  | .short 'h' _ => true
  | _ => false

def Word.asksVersion : Word → Bool
  | .long "version" none => true
  | .short 'V' _ => true
  | _ => false

/-- Reads the words of a level. `pending` is a switch whose value must be the next word. -/
def Level.read (l : Level) (given : Given) (pending : Option Switch) : List String → Reading
  | [] => if pending.isSome then .invalid else .ended given
  | text :: rest =>
    match pending, Word.ofText text with
    | some s, .plain value =>
      match given.add? s value with
      | some more => Level.read l more none rest
      | none => .invalid
    | some _, _ => .invalid
    | none, .terminator => if rest.isEmpty then .ended given else .invalid
    | none, .plain name =>
      if l.commands.contains name then .command given name rest
      else if name = "help" && !l.commands.isEmpty && l.explains rest then .help
      else .invalid
    | none, word =>
      if word.asksHelp then .help
      else if word.asksVersion && l.isTop then .version
      else
        match l.switch? word with
        | none => .invalid
        | some (s, some value) =>
          match given.add? s value with
          | some more => Level.read l more none rest
          | none => .invalid
        | some (s, none) =>
          if s.argument = .nothing then
            match given.addBare? s with
            | some more => Level.read l more none rest
            | none => .invalid
          else Level.read l given (some s) rest

/-! ### Commands -/

/-- What a command line asks for. -/
inductive Invocation
  | invalid
  | help
  | version
  | run (root : String) (command : Command)
deriving DecidableEq

namespace Given

def last? (given : Given) (s : Switch) : Option String :=
  (given.filter fun g => g.1 = s).getLast?.map Prod.snd

def all (given : Given) (s : Switch) : List String :=
  (given.filter fun g => g.1 = s).map Prod.snd

def has (given : Given) (s : Switch) : Bool := given.any fun g => g.1 = s

/-- The values the switches provide for the configuration. -/
def overrides (given : Given) : Overrides where
  configFile := given.last? .config
  title := given.last? .title
  visibility := given.all .visibility
  sourcePaths := given.all .source
  ignore := given.all .ignore
  cacheDir := given.last? .cacheDir
  includeSource := given.has .includeSource
  force := given.has .force
  strictNames := given.has .strict

/-- The run of a command from the root that the switches name, or from the current folder. -/
def run (given : Given) (command : Command) : Invocation :=
  .run ((given.last? .root).getD ".") command

end Given

/-- Reads the words after the last command name. -/
def Level.finish (l : Level) (before : Given) (words : List String) (make : Given → Command) :
    Invocation :=
  match l.read [] none words with
  | .ended given =>
    let all := before ++ given
    Given.run all (make all)
  | .help => .help
  | _ => .invalid

def parseCache (before : Given) (words : List String) : Invocation :=
  match Level.cache.read [] none words with
  | .command given name rest =>
    let make (all : Given) : Command :=
      let o : Overrides := { configFile := all.last? .config, cacheDir := all.last? .cacheDir }
      if name = "status" then .cacheStatus o else .cacheClear o
    (Level.leaf [.cacheDir]).finish (before ++ given) rest make
  | .help => .help
  | _ => .invalid

def parse (words : List String) : Invocation :=
  match Level.top.read [] none words with
  | .invalid => .invalid
  | .ended _ => .invalid
  | .help => .help
  | .version => .version
  | .command given "parse" rest =>
    (Level.leaf Switch.reading).finish given rest fun all =>
      .parse all.overrides (!all.has .noCache)
  | .command given "run" rest =>
    (Level.leaf (Switch.reading ++ [.output])).finish given rest fun all =>
      .build all.overrides (!all.has .noCache) (all.last? .output)
  | .command given "cache" rest => parseCache given rest
  | .command given _ rest =>
    (Level.leaf []).finish given rest fun all => .config { configFile := all.last? .config }

/-! ### Running -/

/-- What a run of the program ends with: its exit code and what it prints. -/
structure Printed where
  exit : Nat
  output : String
deriving DecidableEq, Inhabited

def versionText : String := "docblox 0.1.0\n"

def helpText : String :=
  "Documentation generator for PHP projects\n\n" ++
  "Usage: docblox [OPTIONS] <COMMAND>\n\n" ++
  "Commands: parse, run, cache status, cache clear, config\n"

/-- A response as it is printed. -/
def printed (exit : Nat) (response : Json) : Printed := ⟨exit, response.pretty ++ "\n"⟩

/-- Runs a command line on a disk. -/
def run (words : List String) (environment : Config.Environment) (now : String) (d : Disk) :
    Disk × Printed :=
  match parse words with
  | .invalid => (d, ⟨2, ""⟩)
  | .help => (d, ⟨0, helpText⟩)
  | .version => (d, ⟨0, versionText⟩)
  | .run root command =>
    let site : Site := { root := root, environment := environment, now := now }
    let (result, workspace) := ((command.run site).run).run { disk := d }
    match result with
    | .ok response => (workspace.disk, printed 0 response)
    | .error e => (workspace.disk, printed e.code (Response.failed e))

end ApiDoc.CommandLine
