import ApiDoc.Compile.Texts
import ApiDoc.InlineTag

/-!
# Examples in texts

An inline example tag is replaced by the example as inline code, behind its description in italics.
An example that cannot be had is reported once and replaced by a remark. The same tag text is looked
up only once in a run: what was looked up is kept in a list of `Lookup`s.
-/

namespace ApiDoc.Compile

/-- One example that was asked for: the text of the tag, what it asked for and the answer. -/
structure Lookup where
  raw : List Char
  request : ExampleRequest
  answer : Except ExampleError String

namespace Lookup

/-- The text that stands for the tag. -/
def text (l : Lookup) : String :=
  match l.answer with
  | .ok content =>
    let lead := if l.request.description.isEmpty then "" else "*" ++ l.request.description ++ "*"
    lead ++ "\x60" ++ content ++ "\x60"
  | .error _ => "** File not found : " ++ l.request.path ++ " **"

/-- The report of an example that cannot be had. -/
def warning? (l : Lookup) : Option Event :=
  match l.answer with
  | .ok _ => none
  | .error e =>
    some (.warning ("unable to include example " ++ l.request.path ++ ": " ++ e.message))

end Lookup

/-- The text for one inline tag, with the look-ups so far. -/
def exampleFor (finder : ExampleFinder) (t : InlineTag) (done : List Lookup) :
    Option String × List Lookup :=
  if t.name ≠ "example" then (none, done)
  else
    match done.find? (·.raw = t.raw) with
    | some l => (some l.text, done)
    | none =>
      match ExampleRequest.parse? t.argument with
      | none => (none, done)
      | some request =>
        let l : Lookup := ⟨t.raw, request, finder request⟩
        (some l.text, done ++ [l])

/-- How every tag for an example starts. -/
def exampleStart : String := "\x7b@example"

/-- A text with its examples, and the look-ups so far. Only a text that holds the start of a tag for
an example is searched for tags. -/
def withExamples (finder : ExampleFinder) : TextEdit (List Lookup) := fun _ text done =>
  if Text.holds exampleStart text then
    let (new, next) := InlineTag.substituteWith (exampleFor finder) (InlineTag.segments text) done
    (String.ofList new, next)
  else (text, done)

def exampleSets (finder : ExampleFinder) : List DocSet → List Lookup → List DocSet × List Lookup
  | [], done => ([], done)
  | .guide g :: rest, done =>
    let (others, last) := exampleSets finder rest done
    (.guide g :: others, last)
  | .api s :: rest, done =>
    let (edited, next) := editAllTextsWith (withExamples finder) s done
    let (others, last) := exampleSets finder rest next
    (.api edited :: others, last)

def exampleVersions (finder : ExampleFinder) :
    List Version → List Lookup → List Version × List Lookup
  | [], done => ([], done)
  | v :: rest, done =>
    let (sets, next) := exampleSets finder v.sets done
    let (others, last) := exampleVersions finder rest next
    ({ v with sets := sets } :: others, last)

def examplesPass : Pass where
  description := "Enriches inline example tags with their sources"
  priority := 8700
  run services p :=
    let (versions, done) := exampleVersions services.finder p.versions []
    { state := { p with versions := versions }, events := done.filterMap Lookup.warning? }

end ApiDoc.Compile
