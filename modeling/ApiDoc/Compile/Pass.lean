import ApiDoc.Example
import ApiDoc.Resolution
import ApiDoc.Router

/-!
# Steps of the compiler

A step works on a whole project. It has a priority, a description under which it is reported, and
the services it may ask: pages of destinations and contents of examples.
-/

namespace ApiDoc

/-- What every step can ask. -/
structure Services where
  router : Router
  finder : ExampleFinder

/-- One step of the compiler. -/
structure Pass where
  description : String
  priority : Int
  run : Services → Project → Attempt Project

namespace Pass

/-- The step that works on each API set by itself, given the settings of the project. -/
def onApiSets (description : String) (priority : Int)
    (step : Services → Settings → ApiSet → Attempt ApiSet) : Pass where
  description := description
  priority := priority
  run services p := p.visitApis (step services p.settings)

end Pass

namespace ApiSet

/-- The elements found at their own address, with the address, in the order of `allElements`. -/
def present (s : ApiSet) : List (ElementRef × Item) :=
  s.allElements.filterMap fun ref => (s.item? ref).map fun item => (ref, item)

/-- The addresses of elements that are no members: those of the index of each kind, in the order
classes, interfaces, traits, functions, constants. -/
def topLevelEntries (s : ApiSet) : List ElementRef :=
  Index.byKind.flatMap fun k => (s.index k.1).values.filterMap Target.element?

/-- The place of a file or of one of its elements. -/
def scopeOf (s : ApiSet) (ref : ElementRef) : Scope :=
  match s.file? ref.file with
  | some f => Scope.ofElement f ref.kind ref.fqsen
  | none => {}

end ApiSet

end ApiDoc
