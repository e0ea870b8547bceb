import ApiDoc.Compile.BackLink
import ApiDoc.Compile.Texts
import ApiDoc.Total

/-!
# Showing only what is wanted

The last step removes what the settings do not show: sources, members of other visibilities, what is
marked internal and, in API mode, what is not tagged for it. A member goes with its owner. After
that no index, tree or reference leads to what is gone.
-/

namespace ApiDoc.Compile

def internalTag : String := "internal"

def apiTag : String := "api"

/-! ### Removing elements -/

/-- Whether the filter shows an element, the API mode aside. -/
def isVisible (filter : VisibilityFilter) (item : Item) : Bool :=
  item.visibility.all filter.allows &&
    (filter.allowsInternal || !item.info.tags.contains internalTag)

/-- The names of class-likes with a member tagged for the API. -/
def apiOwners (present : List (ElementRef × Item)) : List Fqsen :=
  present.filterMap fun (ref, item) =>
    if item.info.tags.contains apiTag then ref.fqsen.owner? else none

def isKept (filter : VisibilityFilter) (owners : List Fqsen) (ref : ElementRef) (item : Item) :
    Bool :=
  isVisible filter item &&
    (!filter.isApiOnly || item.info.tags.contains apiTag ||
      (ref.kind.isContainer && owners.contains ref.fqsen))

/-- The elements to remove with one more, unless it is kept or its owner goes already. -/
def condemn (filter : VisibilityFilter) (owners : List Fqsen) (gone : List ElementRef)
    (entry : ElementRef × Item) : List ElementRef :=
  if isKept filter owners entry.1 entry.2 then gone
  else if entry.1.fqsen.owner?.any fun owner => gone.any (·.fqsen = owner) then gone
  else gone ++ [entry.1]

/-- The elements to remove, in order; a member of an owner that goes already is not listed. -/
def doomed (filter : VisibilityFilter) (present : List (ElementRef × Item)) : List ElementRef :=
  present.foldl (condemn filter (apiOwners present)) []

/-- The set without one element, and the number of elements removed so far. -/
def removeElement (acc : ApiSet × Nat) (ref : ElementRef) : ApiSet × Nat :=
  if (acc.1.item? ref).isSome then
    (acc.1.modifyFile ref.file fun f => f.erase ref.kind ref.fqsen, acc.2 + 1)
  else acc

/-- The set without some elements, and how many of them were there. -/
def removeAll (s : ApiSet) (refs : List ElementRef) : ApiSet × Nat :=
  refs.foldl removeElement (s, 0)

/-- The set without the elements that are not shown, and how many there were. -/
def removeHidden (filter : VisibilityFilter) (s : ApiSet) : ApiSet × Nat :=
  removeAll s (doomed filter s.present)

/-! ### Internal text -/

def internalStart : List Char := "\x7b@internal".toList

def internalEnd : List Char := ['}', '}']

/-- Internal text at the front: its body and what follows it. The body has at least one character
and goes to the first end after that. -/
def internalAt? (cs : List Char) : Option (List Char × List Char) :=
  match Text.after? internalStart cs with
  | some (gap :: first :: more) =>
    if Text.isBlank gap then
      (Text.cut? internalEnd more).map fun (body, rest) => (first :: body, rest)
    else none
  | _ => none

theorem length_internalAt? {cs body rest : List Char} (h : internalAt? cs = some (body, rest)) :
    rest.length < cs.length := by
  rw [internalAt?] at h
  split at h
  · next gap first more hm =>
    split at h
    · obtain ⟨⟨b, r⟩, hbr, heq⟩ := Option.map_eq_some_iff.mp h
      obtain ⟨-, rfl⟩ : first :: b = body ∧ r = rest := by simpa using heq
      have hcut := congrArg List.length (Text.append_of_cut? hbr)
      have hafter := congrArg List.length (Text.append_of_after? hm)
      simp only [List.length_append, List.length_cons] at hcut hafter
      omega
    · simp at h
  · simp at h

/-- A text with its internal parts unwrapped, or without them. -/
def settleInternal (unwrap : Bool) (cs : List Char) : List Char :=
  match _h : internalAt? cs with
  | some (body, rest) => (if unwrap then body else []) ++ settleInternal unwrap rest
  | none =>
    match cs with
    | [] => []
    | c :: rest => c :: settleInternal unwrap rest
termination_by cs.length
decreasing_by
  · exact length_internalAt? _h
  · simp

/-! ### Stale addresses -/

/-- The number of index entries that lead nowhere. -/
def staleEntries (s : ApiSet) : Nat :=
  total (s.indexes.values.map fun i => i.values.countP fun t => !s.resolves t)

/-- The elements attached to nodes of the trees that are gone, each once. -/
def staleAttached (s : ApiSet) : List ElementRef :=
  let attached := (s.namespaces.nodes ++ s.packages.nodes).flatMap Node.elements
  (attached.filter fun ref => !s.resolves (.element ref)).eraseDups

/-- The set without index entries and attached elements that lead nowhere. -/
def pruned (s : ApiSet) : ApiSet :=
  let keep (ref : ElementRef) : Bool := s.resolves (.element ref)
  { s with
    indexes := s.indexes.map fun i => i.filter fun _ t => s.resolves t
    namespaces := s.namespaces.mapNodes (Node.retain keep)
    packages := s.packages.mapNodes (Node.retain keep) }

/-- Whether a reference has an address that leads nowhere. -/
def isStale (s : ApiSet) (r : Reference) : Bool := r.resolved.any fun t => !s.resolves t

/-- A reference without an address that leads nowhere. -/
def unlinkReference (s : ApiSet) (r : Reference) : Reference :=
  if isStale s r then { r with resolved := none } else r

/-- Tags without back links that lead nowhere; the name goes with its last tag. -/
def dropBackLinks (s : ApiSet) (tags : Tags) : Tags :=
  let kept := (tags.get usedByTag).filter fun t => !t.reference?.any (isStale s)
  if kept.isEmpty then tags.erase usedByTag else tags.modify usedByTag fun _ => kept

def unlinkTags (s : ApiSet) (tags : Tags) : Tags :=
  (dropBackLinks s tags).map (Tag.mapReference (unlinkReference s))

def staleTags (s : ApiSet) (tags : Tags) : Nat := tags.references.countP (isStale s)

/-- The set with stale references of its files' own tags removed, and how many there were. -/
def unlinkFiles (s : ApiSet) : ApiSet × Nat :=
  let settle (f : File) : File :=
    if staleTags s f.tags = 0 then f else { f with tags := unlinkTags s f.tags }
  ({ s with files := s.files.map settle }, total (s.files.map fun f => staleTags s f.tags))

/-- The set with stale references of one element removed, and how many were removed so far. -/
def unlinkElement (acc : ApiSet × Nat) (ref : ElementRef) : ApiSet × Nat :=
  let s := acc.1
  match s.file? ref.file, s.item? ref with
  | some f, some item =>
    let bases := f.bases ref.kind ref.fqsen
    let count := bases.all.countP (isStale s) + staleTags s item.info.tags
    if count = 0 then acc
    else
      let settle (f : File) : File :=
        (f.setBases ref.kind ref.fqsen (bases.map (unlinkReference s))).modifyInfo ref.kind
          ref.fqsen fun i => { i with tags := unlinkTags s i.tags }
      (s.modifyFile ref.file settle, acc.2 + count)
  | _, _ => acc

/-- The set without references to what is gone, and how many there were. -/
def unlinkRemoved (s : ApiSet) : ApiSet × Nat :=
  s.allElements.foldl unlinkElement (unlinkFiles s)

/-! ### The step -/

def withoutSources (s : ApiSet) : ApiSet :=
  { s with files := s.files.map fun f => { f with source := none } }

/-- Shows only what the settings want of a set. -/
def filterSet (settings : Settings) (s : ApiSet) : Attempt ApiSet :=
  let start := if settings.includeSource then s else withoutSources s
  let (shown, removed) := removeHidden settings.visibility start
  let settle (_ : Scope) (text : String) : String :=
    String.ofList (settleInternal settings.visibility.allowsInternal text.toList)
  let settled := editAllTexts settle shown
  let dangling := staleEntries settled + (staleAttached settled).length
  let (final, unlinked) := unlinkRemoved (pruned settled)
  let stale := dangling + unlinked
  let events :=
    if removed + stale = 0 then []
    else [.debug ("removed " ++ Text.ofNat removed ++ " elements and " ++ Text.ofNat stale ++
      " stale references from " ++ s.name)]
  { state := final, events := events }

def filterPass : Pass :=
  .onApiSets "Filter elements by visibility and remove source code" 1000
    fun _ settings => filterSet settings

end ApiDoc.Compile
