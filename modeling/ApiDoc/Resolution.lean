import ApiDoc.ApiSet
import ApiDoc.Text.Lowercase

/-!
# What a written name refers to

In documentation a name is written as seen from its place: `Bar`, `Sub\Bar`, an imported alias,
`self::run()`, `$this->name`, `\Fully\Qualified`. A `Scope` is what the place knows: its namespace,
the imports of its file and the class-like around it. Resolving a name makes the full names it can
mean, best first, and takes the first that is a key of the index of elements, then the first that
is a namespace there; namespaces are kept under their full name behind a tilde.
-/

namespace ApiDoc

/-- The place from which names are seen. -/
structure Scope where
  space : Fqsen := Fqsen.root
  aliases : NameMap Fqsen := .empty
  container : Option Fqsen := none
deriving DecidableEq, Inhabited

namespace Scope

/-- The place of an element of a file: a class-like is its own container, a member has its owner. -/
def ofElement (f : File) (kind : ElementKind) (fqsen : Fqsen) : Scope where
  space := fqsen.enclosing
  aliases := f.aliases
  container := if kind.isContainer then some fqsen else fqsen.owner?

def ofFile (f : File) : Scope := { aliases := f.aliases }

/-- What an alias stands for: exactly as written, else the first in other letter case. -/
def alias? (s : Scope) (name : String) : Option Fqsen :=
  match s.aliases.get? name with
  | some target => some target
  | none => (s.aliases.entries.find? fun e => Text.sameLetters e.1 name).map Prod.snd

end Scope

/-- What a name was found to be: a key of the index with its entry, or the full name it would
have. -/
inductive Resolution
  | found (key : String) (target : Target)
  | missing (fqsen : Fqsen)
deriving DecidableEq, Inhabited

namespace Resolution

def spaceMark : Char := '~'

/-- The full name, without the mark of namespaces. -/
def text : Resolution → String
  | .found key _ => String.ofList (Text.dropLeadChar spaceMark key.toList)
  | .missing fqsen => fqsen.text

def target? : Resolution → Option Target
  | .found _ target => some target
  | .missing _ => none

/-- The words that stand for the container. -/
def selfWords : List String := ["self", "static", "$this"]

/-- The arrow that can be written for the member separator. -/
def arrow : List Char := ['-', '>']

/-- A trimmed name with arrows written as member separators and a word for the container replaced
by it. -/
def plainName (name : List Char) (scope : Scope) : List Char :=
  let name := Text.replaceAll arrow Fqsen.memberSeparator (Text.trim name)
  match scope.container with
  | none => name
  | some container =>
    let isSelf (head : List Char) : Bool :=
      selfWords.contains (Text.asciiLower (String.ofList head))
    match Text.cut? Fqsen.memberSeparator name with
    | some (head, tail) =>
      if isSelf head then container.chars ++ Fqsen.memberSeparator ++ tail else name
    | none => if isSelf name then container.chars else name

/-- The best full name of a class-like name and the others it can have. -/
def qualify (name : List Char) (scope : Scope) : List Char × List (List Char) :=
  let relative : List Char × List (List Char) :=
    let inSpace := (scope.space.join (String.ofList name)).chars
    if scope.space.isRoot then (inSpace, [])
    else (inSpace, [(Fqsen.root.join (String.ofList name)).chars])
  match name with
  | '\\' :: _ => (name, [])
  | _ =>
    match Text.cut? [Fqsen.separator] name with
    | some (first, rest) =>
      match scope.alias? (String.ofList first) with
      | some target => ((target.join (String.ofList rest)).chars, [])
      | none => relative
    | none =>
      match scope.alias? (String.ofList name) with
      | some target => (target.chars, [])
      | none => relative

/-- The spellings of a member: as written and, without any mark, also as a method and a property. -/
def memberSpellings (member : List Char) : List (List Char) :=
  if Text.endsWith Fqsen.callMark member || member.head? == some '$' then [member]
  else [member, member ++ Fqsen.callMark, '$' :: member]

/-- Whether a bare name looks like a method or a property. -/
def isMemberLike (name : List Char) : Bool :=
  !name.contains Fqsen.separator &&
    (Text.endsWith Fqsen.callMark name || name.head? == some '$')

/-- The keys a name can have, best first. -/
def candidates (name : String) (scope : Scope) : List String :=
  let name := plainName name.toList scope
  let found : List (List Char) :=
    match Text.cut? Fqsen.memberSeparator name with
    | some (owner, member) =>
      let (best, others) := qualify owner scope
      (best :: others).flatMap fun o =>
        (memberSpellings member).map fun m => o ++ Fqsen.memberSeparator ++ m
    | none =>
      let ofContainer :=
        match scope.container with
        | some container =>
          if isMemberLike name then [container.chars ++ Fqsen.memberSeparator ++ name] else []
        | none => []
      let (best, others) := qualify name scope
      ofContainer ++ best :: others
  found.map String.ofList

/-- The full name of a name that is not found. -/
def primary (name : String) (scope : Scope) : Fqsen :=
  let name := plainName name.toList scope
  match Text.cut? Fqsen.memberSeparator name with
  | some (owner, member) =>
    Fqsen.ofText (String.ofList ((qualify owner scope).1 ++ Fqsen.memberSeparator ++ member))
  | none => Fqsen.ofText (String.ofList (qualify name scope).1)

def firstEntry (lookup : String → Option Target) : List String → Option (String × Target)
  | [] => none
  | key :: keys =>
    match lookup key with
    | some target => some (key, target)
    | none => firstEntry lookup keys

/-- What a name refers to as seen from a place. -/
def resolve (lookup : String → Option Target) (name : String) (scope : Scope) : Resolution :=
  let keys := candidates name scope
  match firstEntry lookup keys with
  | some (key, target) => .found key target
  | none =>
    match firstEntry lookup (keys.map fun key => spaceMark.toString ++ key) with
    | some (key, target) => .found key target
    | none => .missing (primary name scope)

end Resolution

def ApiSet.resolve (s : ApiSet) (name : String) (scope : Scope) : Resolution :=
  Resolution.resolve s.lookup name scope

/-- The entry of a name that is already full. -/
def ApiSet.lookupFqsen (s : ApiSet) (name : String) : Option Target :=
  s.lookup (Fqsen.ofText name).text

end ApiDoc
