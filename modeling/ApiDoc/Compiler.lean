import ApiDoc.Compile.Contents
import ApiDoc.Compile.ExampleText
import ApiDoc.Compile.Filter
import ApiDoc.Compile.Index
import ApiDoc.Compile.LinkText
import ApiDoc.Compile.Markers
import ApiDoc.Compile.PackageTree

/-!
# The compiler

The compiler turns the files as they were read into a linked project. Its steps run from the highest
priority to the lowest, those of one priority in the order in which they were inserted. The first
step that fails ends the run, and the project stays as that step left it.
-/

namespace ApiDoc

/-- Steps in the order in which they run. -/
structure Compiler where
  passes : List Pass

namespace Compiler

def empty : Compiler := ⟨[]⟩

/-- Puts a step in front of the first one with a lower priority. -/
def insertPass (p : Pass) : List Pass → List Pass
  | [] => [p]
  | q :: rest => if q.priority < p.priority then p :: q :: rest else q :: insertPass p rest

def insert (c : Compiler) (p : Pass) : Compiler := ⟨insertPass p c.passes⟩

/-- The steps of the standard compiler by their short names. -/
def standardPasses : List (String × Pass) :=
  [("elements", Compile.elementsPass), ("linker", Compile.linkPass),
    ("namespaces", Compile.spacesPass), ("packages", Compile.packagesPass),
    ("markers", Compile.markersPass), ("examples", Compile.examplesPass),
    ("links", Compile.inlineLinksPass), ("used_by", Compile.backLinksPass),
    ("toc", Compile.contentsPass), ("visibility", Compile.filterPass)]

def standardPass? (name : String) : Option Pass := standardPasses.lookup name

def standard : Compiler := (standardPasses.map Prod.snd).foldl insert empty

/-- One step, with the reports that it starts and, if it does not fail, that it has finished. -/
def runPass (services : Services) (p : Pass) (project : Project) : Attempt Project :=
  let done := p.run services project
  let finish :=
    match done.failure with
    | some _ => []
    | none => [Event.finished p.description]
  { done with events := Event.started p.description :: done.events ++ finish }

/-- Runs all steps on a project, up to the first that fails. -/
def compile (c : Compiler) (services : Services) (project : Project) : Attempt Project :=
  c.passes.foldl (fun done p => done.andThen (runPass services p)) { state := project }

end Compiler

end ApiDoc
