import ApiDoc.Clock
import ApiDoc.CommandLine
import Std.Time.DateTime.Timestamp

/-!
# The program

The program reads the folders it works in, runs the command line on them, and then writes what has
changed. Everything it decides is decided by `CommandLine.run`.
-/

namespace ApiDoc.Program

/-- How deep folders are read. -/
def depthLimit : Nat := 64

/-- The disk with a folder of the machine and what is below it, down to a depth. -/
def readFolder : Nat → String → Disk → IO Disk
  | 0, place, d => return d.put place .folder
  | depth + 1, place, d => do
    let mut d := d.put place .folder
    let folder ← IO.FS.realPath place
    for entry in ← folder.readDir do
      let inside := Disk.child place entry.fileName
      if ← entry.path.isDir then d ← readFolder depth inside d
      else d := d.put inside (.file (← IO.FS.readBinFile inside))
    return d

/-- The disk with the folders that lead to a place. -/
def markAbove (place : String) (d : Disk) : Disk :=
  ((Path.ancestors place).filter fun p => p != "/").foldl (fun d p => d.put p .folder) d

/-- Brings the machine from one disk to another: removes what is gone, the deepest first, and writes
what is new or different. -/
def writeChanges (before after : Disk) : IO Unit := do
  for (place, e) in before.entries.entries.reverse do
    if (after.entries.get? place).isNone then
      match e with
      | .file _ => IO.FS.removeFile place
      | .folder => IO.FS.removeDir place
  for (place, e) in after.entries.entries do
    if before.entries.get? place ≠ some e then
      match e with
      | .file content => IO.FS.writeBinFile place content
      | .folder => IO.FS.createDirAll place

/-- The places to read: the current folder, and the project root if it is elsewhere. -/
def places (current : String) (words : List String) : IO (List String) := do
  match CommandLine.parse words with
  | .run root _ =>
    try
      let place := (← IO.FS.realPath root).toString
      return if (Path.below? current place).isSome then [current] else [current, place]
    catch _ => return [current]
  | _ => return []

def environment : IO Config.Environment := do
  let mut env : Config.Environment := .empty
  for name in Config.variableNames do
    if let some value ← IO.getEnv name then env := env.insert name value
  return env

end ApiDoc.Program

def main (words : List String) : IO UInt32 := do
  let current := (← IO.currentDir).toString
  let mut before : ApiDoc.Disk := { current := current }
  for place in ← ApiDoc.Program.places current words do
    before ← ApiDoc.Program.readFolder ApiDoc.Program.depthLimit place
      (ApiDoc.Program.markAbove place before)
  let seconds := (← Std.Time.Timestamp.now).toSecondsSinceUnixEpoch.toInt.toNat
  let (after, shown) := ApiDoc.CommandLine.run words (← ApiDoc.Program.environment)
    (ApiDoc.Clock.text seconds) before
  ApiDoc.Program.writeChanges before after
  IO.print shown.output
  return shown.exit.toUInt32
