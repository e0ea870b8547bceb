import ApiDoc.Compile.Pass
import ApiDoc.Text.WordChar

/-!
# Markers

A marker is a keyword such as `TODO` that the documentation of an element mentions, as a tag or as a
whole word in its text. The file of the element lists it with the text that follows it and the line
of the element.
-/

namespace ApiDoc.Compile

/-- The first keyword that stands as a whole word in front of the text, and what follows it. -/
def keywordAt (keywords : List String) (left : Option Char) (cs : List Char) :
    Option (String × List Char) :=
  keywords.findSome? fun k =>
    match Text.after? k.toList cs with
    | none => none
    | some rest =>
      let last := (k.toList.getLast?).or left
      if Text.isBoundary left cs.head? && Text.isBoundary last rest.head? then some (k, rest)
      else none

/-- The first place in a line where a keyword stands. `left` is the character before the text. -/
def findKeyword (keywords : List String) (left : Option Char) :
    List Char → Option (String × List Char)
  | [] => keywordAt keywords left []
  | c :: cs =>
    match keywordAt keywords left (c :: cs) with
    | some found => some found
    | none => findKeyword keywords (some c) cs

/-- The text after a keyword, without one colon and without blanks around it. -/
def messageAfter (rest : List Char) : String :=
  let body :=
    match rest with
    | ':' :: more => more
    | _ => rest
  String.ofList (Text.trim body)

/-- The keyword a line mentions, with its message. -/
def keywordIn (keywords : List String) (line : List Char) : Option (String × String) :=
  (findKeyword keywords none line).map fun (k, rest) => (k, messageAfter rest)

/-- The markers of one element: for each keyword its tags, then the lines of the summary and of the
description. -/
def markersOf (keywords : List String) (info : Info) : List Marker :=
  let fromTags := keywords.flatMap fun k =>
    (info.tags.get (Text.lowercase k)).map fun t => ⟨k, t.description, info.line⟩
  let fromText (text : String) : List Marker :=
    (Text.lines text.toList).filterMap fun line =>
      (keywordIn keywords line).map fun (k, message) => ⟨k, message, info.line⟩
  fromTags ++ fromText info.summary ++ fromText info.description

/-- The markers of all indexed elements with the numbers of their files; fails at the first element
whose file is not there. -/
def markersIn (keywords : List String) (s : ApiSet) : Except BuildError (List (Nat × Marker)) := do
  let refs := (s.index Index.elements).values.filterMap Target.element?
  let found ← refs.mapM fun ref =>
    if (s.file? ref.file).isNone then .error (.orphanedElement ref.fqsen.text)
    else
      match s.item? ref with
      | some item => .ok ((markersOf keywords item.info).map fun m => (ref.file, m))
      | none => .ok []
  return found.flatten

/-- The file with a marker, unless it has it already. -/
def addMarker (m : Marker) (f : File) : File :=
  if f.markers.contains m then f else { f with markers := f.markers ++ [m] }

/-- Lists the markers of a set at its files. -/
def mark (keywords : List String) (s : ApiSet) : Attempt ApiSet :=
  if keywords.isEmpty then { state := s }
  else
    match markersIn keywords s with
    | .error e => .fail s e
    | .ok found => { state := found.foldl (fun s (id, m) => s.modifyFile id (addMarker m)) s }

def markersPass : Pass :=
  .onApiSets "Add markers from tags and descriptions to files" 8800
    fun _ settings => mark settings.markers

end ApiDoc.Compile
