import ApiDoc.Compile.Pass

/-!
# Indexes of elements

The index `elements` holds every element under its full name, and one index per kind holds the
elements that are no members. Of several elements with one name the last one stays, unless names
are strict: then the first repeated name is an error and the set keeps the indexes it had.
-/

namespace ApiDoc.Compile

/-- The index of a list of elements by full name; of several with one name the last counts. -/
def indexOf (refs : List ElementRef) : Index :=
  refs.foldl (fun i ref => i.insert ref.fqsen.text (.element ref)) .empty

/-- The elements of one kind that are no members. -/
def ofKind (kind : ElementKind) (refs : List ElementRef) : List ElementRef :=
  refs.filter fun ref => ref.kind = kind && !ref.fqsen.isMember

/-- The elements that repeat a name, each with the last one of that name before it. -/
def repeats (seen : NameMap ElementRef) : List ElementRef → List (ElementRef × ElementRef)
  | [] => []
  | ref :: rest =>
    let later := repeats (seen.insert ref.fqsen.text ref) rest
    match seen.get? ref.fqsen.text with
    | some earlier => (earlier, ref) :: later
    | none => later

def withIndexes (s : ApiSet) : ApiSet :=
  let refs := s.allElements
  Index.byKind.foldl (fun s k => s.setIndex k.1 (indexOf (ofKind k.2 refs)))
    (s.setIndex Index.elements (indexOf refs))

/-- The report that one element takes the place of another. -/
def replacement (s : ApiSet) (pair : ElementRef × ElementRef) : Event :=
  .debug (pair.2.fqsen.text ++ " declared in " ++ s.fileLabel pair.1.file ++
    " is replaced by the declaration in " ++ s.fileLabel pair.2.file)

def buildIndexes (strict : Bool) (s : ApiSet) : Attempt ApiSet :=
  let pairs := repeats .empty s.allElements
  match strict, pairs with
  | true, (earlier, later) :: _ =>
    .fail s (.duplicateName later.fqsen.text (s.fileLabel earlier.file) (s.fileLabel later.file))
  | _, _ => { state := withIndexes s, events := pairs.map (replacement s) }

def elementsPass : Pass :=
  .onApiSets "Build \"elements\" index" 15000 fun _ settings => buildIndexes settings.strictNames

end ApiDoc.Compile
