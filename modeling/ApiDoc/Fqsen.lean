import ApiDoc.Text.Pieces

/-!
# Fully qualified structural element names

Every documented element has one name that is unique in its documentation set:

* a namespace, class, interface, trait or constant is `\A\B\Name`;
* a function is `\A\B\name()`;
* a method is `\A\Owner::name()`, a property `\A\Owner::$name`, a class constant `\A\Owner::NAME`.

The root namespace is `\`. `Fqsen.ofText` normalizes what a person or a source file wrote; values
read back from storage are taken as they are.
-/

namespace ApiDoc

/-- The name of an element, a namespace or a package. -/
structure Fqsen where
  text : String
deriving DecidableEq, Inhabited

/-- The three sorts of members a class, interface or trait can own. -/
inductive MemberKind
  | method
  | property
  | constant
deriving DecidableEq

def MemberKind.ofName? : String → Option MemberKind
  | "method" => some .method
  | "property" => some .property
  | "constant" => some .constant
  | _ => none

namespace Fqsen

def separator : Char := '\\'

def memberSeparator : List Char := [':', ':']

/-- The parentheses that mark a function or a method. -/
def callMark : List Char := ['(', ')']

def chars (f : Fqsen) : List Char := f.text.toList

def ofChars (cs : List Char) : Fqsen := ⟨String.ofList cs⟩

def root : Fqsen := ofChars [separator]

/-- The name a text denotes: blanks at the ends are dropped and a missing leading separator is
added. -/
def ofText (s : String) : Fqsen :=
  match Text.trim s.toList with
  | '\\' :: rest => ofChars ('\\' :: rest)
  | cs => ofChars ('\\' :: cs)

/-- A member name as declared, without the sigil of variables and without call parentheses. -/
def bareMember (name : List Char) : List Char :=
  Text.dropTrails callMark (Text.dropLeadChar '$' name)

/-- How a bare member name is written for its kind. -/
def memberText : MemberKind → List Char → List Char
  | .method, name => name ++ callMark
  | .property, name => '$' :: name
  | .constant, name => name

def member (owner : Fqsen) (kind : MemberKind) (name : String) : Fqsen :=
  ofChars (owner.chars ++ memberSeparator ++ memberText kind (bareMember name.toList))

/-- Whether this is the root namespace: one byte of text. -/
def isRoot (f : Fqsen) : Bool := f.text.utf8ByteSize == 1

/-- This name as a namespace, followed by one more segment. -/
def join (f : Fqsen) (name : String) : Fqsen :=
  let segment := Text.dropTrailChar separator (Text.dropLeadChar separator name.toList)
  if f.isRoot then ofChars (separator :: segment)
  else ofChars (f.chars ++ separator :: segment)

def isMember (f : Fqsen) : Bool := Text.contains memberSeparator f.chars

def owner? (f : Fqsen) : Option Fqsen :=
  (Text.cut? memberSeparator f.chars).map fun (front, _) => ofChars front

def lastSegment (cs : List Char) : List Char :=
  match Text.cutLast? separator cs with
  | some (_, back) => back
  | none => cs

/-- The short name, without sigil and call parentheses. -/
def name (f : Fqsen) : String :=
  let tail :=
    match Text.cut? memberSeparator f.chars with
    | some (_, member) => Text.dropLeadChar '$' member
    | none => lastSegment f.chars
  String.ofList (Text.dropTrails callMark tail)

/-- The characters of the name without the member part. -/
def ownerChars (f : Fqsen) : List Char :=
  match Text.cut? memberSeparator f.chars with
  | some (front, _) => front
  | none => f.chars

/-- The namespace the element is declared in; for a member, that of its container. The namespace of
the root is the root. -/
def enclosing (f : Fqsen) : Fqsen :=
  match Text.cutLast? separator f.ownerChars with
  | none => root
  | some ([], _) => root
  | some (front, _) => ofChars front

/-- The parent namespace; the root has none. -/
def parent? (f : Fqsen) : Option Fqsen := if f.isRoot then none else some f.enclosing

/-- The nonempty segments between separators. -/
def segments (f : Fqsen) : List String :=
  ((Text.splitOn separator f.chars).filter fun s => !s.isEmpty).map String.ofList

@[simp] theorem chars_ofChars (cs : List Char) : (ofChars cs).chars = cs := by
  simp [ofChars, chars]

theorem ext_chars {f g : Fqsen} (h : f.chars = g.chars) : f = g := by
  cases f
  cases g
  simpa [chars, String.toList_inj] using h

/-- A normalized name starts with the separator. -/
theorem head?_ofText (s : String) : (ofText s).chars.head? = some '\\' := by
  rw [ofText]
  split <;> simp

end Fqsen

end ApiDoc
