import ApiDoc.Compile.Pass
import ApiDoc.Total

/-!
# Linking references

Linking replaces what a reference names as written by its full name, and notes the address it was
found under. It reaches what class-likes are built on and the tags that refer to other elements.
URLs stay as they are. All names are resolved in the set as it was before.
-/

namespace ApiDoc.Compile

/-- Whether a target is a URL: a scheme of letters, digits and underscores, a colon and two
slashes. -/
def isUrl (target : String) : Bool :=
  match Text.cut? [':', '/', '/'] target.toList with
  | some (scheme, _) => !scheme.isEmpty && scheme.all fun c => c.isAlphanum || c == '_'
  | none => false

/-- The names of the tags whose references are linked. -/
def linkedTags : List String := ["see", "uses", "covers"]

/-- A reference with its full name and address, as seen from a place. -/
def linkReference (s : ApiSet) (scope : Scope) (r : Reference) : Reference :=
  if isUrl r.target then r
  else
    let resolution := s.resolve r.target scope
    ⟨resolution.text, resolution.target?⟩

def linkTags (s : ApiSet) (scope : Scope) (tags : Tags) : Tags :=
  linkedTags.foldl (fun ts name =>
    ts.modify name (·.map (Tag.mapReference (linkReference s scope)))) tags

/-- The references of tags that linking reaches. -/
def linkable (tags : Tags) : List Reference :=
  linkedTags.flatMap fun name => (tags.get name).filterMap Tag.reference?

/-- The number of references that are no URLs and do not resolve. -/
def unresolvedIn (s : ApiSet) (scope : Scope) (refs : List Reference) : Nat :=
  refs.countP fun r => !isUrl r.target && (s.resolve r.target scope).target?.isNone

def unresolved (s : ApiSet) : Nat :=
  let inFiles := s.files.map fun f => unresolvedIn s (.ofFile f) (linkable f.tags)
  let inElements := s.present.map fun (ref, item) =>
    let f := (s.file? ref.file).getD default
    unresolvedIn s (s.scopeOf ref)
      ((f.bases ref.kind ref.fqsen).all ++ linkable item.info.tags)
  total inFiles + total inElements

/-- A file with the references of one element linked, as `item` had them. -/
def linkElement (s : ApiSet) (ref : ElementRef) (item : Item) (old f : File) : File :=
  let scope := s.scopeOf ref
  let bases := (old.bases ref.kind ref.fqsen).map (linkReference s scope)
  (f.setBases ref.kind ref.fqsen bases).modifyInfo ref.kind ref.fqsen fun info =>
    { info with tags := linkTags s scope item.info.tags }

def linked (s : ApiSet) : ApiSet :=
  let linkFile (f : File) : File := { f with tags := linkTags s (.ofFile f) f.tags }
  let start : ApiSet := { s with files := s.files.map linkFile }
  s.present.foldl (fun acc (ref, item) =>
    match s.file? ref.file with
    | some old => acc.modifyFile ref.file (linkElement s ref item old)
    | none => acc) start

def link (s : ApiSet) : Attempt ApiSet :=
  let count := unresolved s
  let events :=
    if count = 0 then []
    else [.debug (Text.ofNat count ++ " references in " ++ s.name ++ " did not resolve")]
  { state := linked s, events := events }

def linkPass : Pass :=
  .onApiSets "Replace textual FQSENs with references to the elements they name" 10000
    fun _ _ => link

end ApiDoc.Compile
