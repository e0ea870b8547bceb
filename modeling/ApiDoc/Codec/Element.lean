import ApiDoc.Codec.Basic
import ApiDoc.File

/-!
# Source files as JSON

How references, tags, elements and whole files are written and read. The fields of `Info` stand
beside those of the body of an element, in one object.
-/

namespace ApiDoc.Codec

/-! ### References and tags -/

def elementRef (r : ElementRef) : Json :=
  .obj [("file", .nat r.file), ("kind", .str r.kind.name), ("fqsen", .str r.fqsen.text)]

/-- A name, taken as it is. -/
def fqsen? : Decoder Fqsen := fun j => (text j).map Fqsen.mk

def elementRef? (c : Closeness) : Decoder ElementRef := fun j => do
  let fs ← record ["file", "kind", "fqsen"] 3 j
  return {
    file := ← required fs "file" word
    kind := ← required fs "kind" (wordOf c ElementKind.ofName?)
    fqsen := ← required fs "fqsen" fqsen? }

/-- An address: an object with one key. -/
def target : Target → Json
  | .file id => .obj [("file", .nat id)]
  | .element r => .obj [("element", elementRef r)]
  | .spaceNode id => .obj [("namespace", .nat id)]
  | .packageNode id => .obj [("package", .nat id)]

def target? (c : Closeness) : Decoder Target
  | .obj [("file", j)] => (word j).map .file
  | .obj [("element", j)] => (elementRef? c j).map .element
  | .obj [("namespace", j)] => (word j).map .spaceNode
  | .obj [("package", j)] => (word j).map .packageNode
  | _ => none

def reference (r : Reference) : Json :=
  .obj (("target", .str r.target) :: whenSome "resolved" target r.resolved)

def reference? (c : Closeness) : Decoder Reference := fun j => do
  let fs ← record ["target", "resolved"] 1 j
  return {
    target := ← required fs "target" text
    resolved := ← optional fs "resolved" none (orNull (target? c)) }

/-- The body of a tag, with the name of its shape. -/
def tagBody : TagBody → Json
  | .plain => .obj [("variant", .str "generic")]
  | .typed types => .obj [("variant", .str "typed"), ("types", .texts types)]
  | .typedVariable types variableName =>
    .obj [("variant", .str "variable"), ("types", .texts types), ("variable", .str variableName)]
  | .reference r => .obj [("variant", .str "reference"), ("reference", reference r)]
  | .magicMethod name returnTypes arguments isStatic =>
    .obj [("variant", .str "method_named"), ("method_name", .str name),
      ("return_types", .texts returnTypes), ("arguments", .texts arguments),
      ("is_static", .bool isStatic)]

/-- The shapes a body can have, with the fields of each. -/
def tagShapes : List (String × List String) :=
  [("generic", []), ("typed", ["types"]), ("variable", ["types", "variable"]),
    ("reference", ["reference"]),
    ("method_named", ["method_name", "return_types", "arguments", "is_static"])]

/-- Reads the name of a shape, for which loosely also its number stands. -/
def tagShape? : Closeness → Decoder String
  | _, .str name => some name
  | .loose, .int (.ofNat n) => (tagShapes[n]?).map Prod.fst
  | _, _ => none

/-- Reads the name of a body's shape and its fields. A body can be a list, whose first value is the
shape. -/
def tagBodyFields? (c : Closeness) : Decoder (String × List (String × Json))
  | .obj fs => (required fs "variant" (tagShape? c)).map fun name => (name, fs)
  | .arr (first :: values) => do
    let name ← tagShape? c first
    let keys ← tagShapes.lookup name
    return (name, ← record keys keys.length (.arr values))
  | _ => none

def tagBody? (c : Closeness) : Decoder TagBody := fun j => do
  guard j.isSound
  let (shape, fs) ← tagBodyFields? c j
  match shape with
  | "generic" => return .plain
  | "typed" => return .typed (← required fs "types" (listOf text))
  | "variable" =>
    return .typedVariable (← required fs "types" (listOf text)) (← required fs "variable" text)
  | "reference" => return .reference (← required fs "reference" (reference? .loose))
  | "method_named" =>
    return .magicMethod (← required fs "method_name" text)
      (← required fs "return_types" (listOf text)) (← required fs "arguments" (listOf text))
      (← required fs "is_static" boolean)
  | _ => none

def tag (t : Tag) : Json :=
  .obj [("name", .str t.name), ("description", .str t.description), ("body", tagBody t.body)]

def tag? (c : Closeness) : Decoder Tag := fun j => do
  let fs ← record ["name", "description", "body"] 3 j
  return {
    name := ← required fs "name" text
    description := ← optional fs "description" "" text
    body := ← required fs "body" (tagBody? c) }

def tags (ts : Tags) : Json := ofMap (ofList tag) ts.byName

def tags? (c : Closeness) : Decoder Tags := fun j => (mapOf (listOf (tag? c)) j).map Tags.mk

/-! ### Elements -/

def infoFields (i : Info) : List (String × Json) :=
  [("fqsen", .str i.fqsen.text), ("name", .str i.name), ("summary", .str i.summary),
    ("description", .str i.description), ("line", .nat i.line), ("tags", tags i.tags)] ++
    whenSome "package" .str i.package

def info? (fs : List (String × Json)) : Option Info := do
  return {
    fqsen := ← required fs "fqsen" fqsen?
    name := ← required fs "name" text
    line := ← required fs "line" word
    summary := ← optional fs "summary" "" text
    description := ← optional fs "description" "" text
    tags := ← optional fs "tags" {} (tags? .loose)
    package := ← optional fs "package" none (orNull text) }

/-- An element, whose body has the given fields. -/
def element {α : Type} (body : α → List (String × Json)) (e : Element α) : Json :=
  .obj (infoFields e.info ++ body e.body)

/-- Reads an element, which is always an object, given the keys of its body. -/
def element? {α : Type} (keys : List String) (body? : List (String × Json) → Option α) :
    Decoder (Element α) := fun j => do
  let fs ← fields j
  guard (othersSound keys fs)
  return { info := ← info? fs, body := ← body? fs }

def argument (a : Argument) : Json :=
  .obj ([("name", .str a.name)] ++ whenNonempty "types" .str a.types ++
    whenSome "default" .str a.default ++
    [("by_reference", .bool a.byReference), ("is_variadic", .bool a.isVariadic),
      ("description", .str a.description), ("line", .nat a.line)])

def argument? : Decoder Argument := fun j => do
  let fs ← record ["name", "types", "default", "by_reference", "is_variadic", "description", "line"]
    7 j
  return {
    name := ← required fs "name" text
    line := ← required fs "line" word
    types := ← optional fs "types" [] (listOf text)
    default := ← optional fs "default" none (orNull text)
    byReference := ← optional fs "by_reference" false boolean
    isVariadic := ← optional fs "is_variadic" false boolean
    description := ← optional fs "description" "" text }

def visibility? (fs : List (String × Json)) : Option Visibility :=
  optional fs "visibility" .public (wordOf .strict Visibility.ofName?)

def functionFields (b : FunctionBody) : List (String × Json) :=
  [("arguments", ofList argument b.arguments)] ++ whenNonempty "return_types" .str b.returnTypes

def functionKeys : List String := ["arguments", "return_types"]

def functionBody? (fs : List (String × Json)) : Option FunctionBody := do
  return {
    arguments := ← optional fs "arguments" [] (listOf argument?)
    returnTypes := ← optional fs "return_types" [] (listOf text) }

def constantFields (b : ConstantBody) : List (String × Json) :=
  [("value", .str b.value), ("visibility", .str b.visibility.name)]

def constantKeys : List String := ["value", "visibility"]

def constantBody? (fs : List (String × Json)) : Option ConstantBody := do
  return {
    value := ← optional fs "value" "" text
    visibility := ← visibility? fs }

def methodFields (b : MethodBody) : List (String × Json) :=
  [("visibility", .str b.visibility.name), ("is_abstract", .bool b.isAbstract),
    ("is_final", .bool b.isFinal), ("is_static", .bool b.isStatic),
    ("arguments", ofList argument b.arguments)] ++
    whenNonempty "return_types" .str b.returnTypes

def methodKeys : List String :=
  ["visibility", "is_abstract", "is_final", "is_static", "arguments", "return_types"]

def methodBody? (fs : List (String × Json)) : Option MethodBody := do
  return {
    visibility := ← visibility? fs
    isAbstract := ← optional fs "is_abstract" false boolean
    isFinal := ← optional fs "is_final" false boolean
    isStatic := ← optional fs "is_static" false boolean
    arguments := ← optional fs "arguments" [] (listOf argument?)
    returnTypes := ← optional fs "return_types" [] (listOf text) }

def propertyFields (b : PropertyBody) : List (String × Json) :=
  [("visibility", .str b.visibility.name), ("is_static", .bool b.isStatic)] ++
    whenNonempty "types" .str b.types ++ whenSome "default" .str b.default

def propertyKeys : List String := ["visibility", "is_static", "types", "default"]

def propertyBody? (fs : List (String × Json)) : Option PropertyBody := do
  return {
    visibility := ← visibility? fs
    isStatic := ← optional fs "is_static" false boolean
    types := ← optional fs "types" [] (listOf text)
    default := ← optional fs "default" none (orNull text) }

def members (m : Members) : Json :=
  .obj (whenEntries "methods" (element methodFields) m.methods ++
    whenEntries "properties" (element propertyFields) m.properties ++
    whenEntries "constants" (element constantFields) m.constants)

def members? : Decoder Members := fun j => do
  let fs ← record ["methods", "properties", "constants"] 0 j
  return {
    methods := ← optional fs "methods" .empty (mapOf (element? methodKeys methodBody?))
    properties := ← optional fs "properties" .empty (mapOf (element? propertyKeys propertyBody?))
    constants := ← optional fs "constants" .empty (mapOf (element? constantKeys constantBody?)) }

def classFields (b : ClassBody) : List (String × Json) :=
  whenSome "parent" reference b.parent ++ whenNonempty "interfaces" reference b.interfaces ++
    whenNonempty "used_traits" reference b.usedTraits ++
    [("is_abstract", .bool b.isAbstract), ("is_final", .bool b.isFinal),
      ("members", members b.members)]

def classKeys : List String :=
  ["parent", "interfaces", "used_traits", "is_abstract", "is_final", "members"]

def classBody? (fs : List (String × Json)) : Option ClassBody := do
  return {
    parent := ← optional fs "parent" none (orNull (reference? .strict))
    interfaces := ← optional fs "interfaces" [] (listOf (reference? .strict))
    usedTraits := ← optional fs "used_traits" [] (listOf (reference? .strict))
    isAbstract := ← optional fs "is_abstract" false boolean
    isFinal := ← optional fs "is_final" false boolean
    members := ← optional fs "members" {} members? }

def interfaceFields (b : InterfaceBody) : List (String × Json) :=
  whenNonempty "parents" reference b.parents ++ [("members", members b.members)]

def interfaceKeys : List String := ["parents", "members"]

def interfaceBody? (fs : List (String × Json)) : Option InterfaceBody := do
  return {
    parents := ← optional fs "parents" [] (listOf (reference? .strict))
    members := ← optional fs "members" {} members? }

def traitFields (b : TraitBody) : List (String × Json) :=
  whenNonempty "used_traits" reference b.usedTraits ++ [("members", members b.members)]

def traitKeys : List String := ["used_traits", "members"]

def traitBody? (fs : List (String × Json)) : Option TraitBody := do
  return {
    usedTraits := ← optional fs "used_traits" [] (listOf (reference? .strict))
    members := ← optional fs "members" {} members? }

/-! ### Files -/

def marker (m : Marker) : Json :=
  .obj [("type", .str m.keyword), ("message", .str m.message), ("line", .nat m.line)]

def marker? : Decoder Marker := fun j => do
  let fs ← record ["type", "message", "line"] 3 j
  return {
    keyword := ← required fs "type" text
    message := ← required fs "message" text
    line := ← required fs "line" word }

def sourceProblem (p : SourceProblem) : Json :=
  .obj [("line", .nat p.line), ("message", .str p.message)]

def sourceProblem? : Decoder SourceProblem := fun j => do
  let fs ← record ["line", "message"] 2 j
  return {
    line := ← required fs "line" word
    message := ← required fs "message" text }

def file (f : File) : Json :=
  .obj ([("path", .str f.path), ("hash", .str f.hash), ("summary", .str f.summary),
      ("description", .str f.description), ("tags", tags f.tags)] ++
    whenSome "package" .str f.package ++
    [("namespace_aliases", ofMap (fun a => .str a.text) f.aliases)] ++
    whenNonempty "includes" .str f.includes ++
    [("classes", ofMap (element classFields) f.classes),
      ("interfaces", ofMap (element interfaceFields) f.interfaces),
      ("traits", ofMap (element traitFields) f.traits),
      ("functions", ofMap (element functionFields) f.functions),
      ("constants", ofMap (element constantFields) f.constants),
      ("markers", ofList marker f.markers), ("errors", ofList sourceProblem f.problems)] ++
    whenSome "source" .str f.source)

def fileKeys : List String :=
  ["path", "hash", "summary", "description", "tags", "package", "namespace_aliases", "includes",
    "classes", "interfaces", "traits", "functions", "constants", "markers", "errors", "source"]

def file? : Decoder File := fun j => do
  let fs ← record fileKeys 2 j
  return {
    path := ← required fs "path" text
    hash := ← required fs "hash" text
    summary := ← optional fs "summary" "" text
    description := ← optional fs "description" "" text
    tags := ← optional fs "tags" {} (tags? .strict)
    package := ← optional fs "package" none (orNull text)
    aliases := ← optional fs "namespace_aliases" .empty (mapOf fqsen?)
    includes := ← optional fs "includes" [] (listOf text)
    classes := ← optional fs "classes" .empty (mapOf (element? classKeys classBody?))
    interfaces := ← optional fs "interfaces" .empty (mapOf (element? interfaceKeys interfaceBody?))
    traits := ← optional fs "traits" .empty (mapOf (element? traitKeys traitBody?))
    functions := ← optional fs "functions" .empty (mapOf (element? functionKeys functionBody?))
    constants := ← optional fs "constants" .empty (mapOf (element? constantKeys constantBody?))
    markers := ← optional fs "markers" [] (listOf marker?)
    problems := ← optional fs "errors" [] (listOf sourceProblem?)
    source := ← optional fs "source" none (orNull text) }

end ApiDoc.Codec
