import ApiDoc.Proofs.Phrases
import ApiDoc.Proofs.Spots
import ApiDoc.Reader.Statement

/-!
# What code declares

`Code` says of tokens that they are statements, with blocks, functions, class-likes and imports in
their usual form, and which declarations they hold (`Declaration`). It is a relation beside the
reader: it follows the brackets of the code and knows of no place or state. `Outline.enter` says what
a declaration in a namespace adds to what is known of a file: names are joined to the namespace, and
what a class-like is built on is qualified with the imports in front of it.

Not everything that may be written is covered. A group of imports in which functions or constants are
marked one by one, the hooks of a property, a doc comment between the parts of a declaration and the
word `namespace` in front of no block are not: the reader loses track of the braces or of the
namespace there.
-/

namespace ApiDoc

/-! ### Declarations -/

/-- What a statement declares, as it is written. -/
inductive Construct
  | imports (items : List (String × Fqsen))
  | constant (name : String)
  | defined (fqsen : Fqsen)
  | function (name : String)
  | classLike (kind : ElementKind) (name : String) (parent : Option String)
      (interfaces traits : List String)
deriving DecidableEq

/-- A construct and the namespace of the block around it, if there is one. -/
structure Declaration where
  construct : Construct
  space : Option Fqsen := none
deriving DecidableEq

/-- The declaration in the block of a namespace; that of an inner block stays. -/
def Declaration.within (space : Fqsen) (d : Declaration) : Declaration :=
  { d with space := some (d.space.getD space) }

/-- The kind and the name of the element that a construct declares in a namespace. -/
def Construct.element? (space : Fqsen) : Construct → Option (ElementKind × Fqsen)
  | .imports _ => none
  | .constant name => some (.constant, space.join name)
  | .defined fqsen => some (.constant, fqsen)
  | .function name => some (.function, space.join (name ++ "()"))
  | .classLike kind name _ _ _ => some (kind, space.join name)

/-- The kind and the name of the element that is declared; `space` is the namespace around the
code. -/
def Declaration.element? (space : Fqsen) (d : Declaration) : Option (ElementKind × Fqsen) :=
  d.construct.element? (d.space.getD space)

/-- What is known of a file while it is read: its imports, and what each element outside of any
class-like is built on. -/
structure Outline where
  aliases : NameMap Fqsen
  found : ElementKind → String → Option Bases

def File.outline (f : File) : Outline where
  aliases := f.aliases
  found kind key :=
    match kind with
    | .function => (f.functions.get? key).map fun _ => {}
    | .constant => (f.constants.get? key).map fun _ => {}
    | kind => f.basesAt? kind key

namespace Outline

/-- The outline with one more element, which replaces one of the same kind and name. -/
def add (o : Outline) (kind : ElementKind) (fqsen : Fqsen) (bases : Bases := {}) : Outline :=
  { o with found := fun k key =>
      if k = kind ∧ key = fqsen.text then some bases else o.found k key }

/-- What a written name of a class-like stands for in a namespace. -/
def target (o : Outline) (space : Fqsen) (name : String) : Reference :=
  let s : Reading := {
    cursor := { rest := [] }
    file := { path := "", hash := "", aliases := o.aliases }
    space := space }
  { target := s.qualify name }

/-- The outline behind a declaration; `space` is the namespace around the code. -/
def enter (space : Fqsen) (o : Outline) (d : Declaration) : Outline :=
  let space := d.space.getD space
  match d.construct with
  | .imports items =>
    { o with aliases := items.foldl (fun m item => m.insert item.1 item.2) o.aliases }
  | .constant name => o.add .constant (space.join name)
  | .defined fqsen => o.add .constant fqsen
  | .function name => o.add .function (space.join (name ++ "()"))
  | .classLike kind name parent interfaces traits =>
    o.add kind (space.join name) {
      parent := parent.map (o.target space)
      interfaces := interfaces.map (o.target space)
      usedTraits := traits.map (o.target space) }

/-- What is declared in the block of a namespace does not depend on what is around it. -/
theorem foldl_enter_within (space inner : Fqsen) (o : Outline) (ds : List Declaration) :
    (ds.map (Declaration.within inner)).foldl (enter space) o = ds.foldl (enter inner) o :=
  List.foldl_map

end Outline

/-! ### Lists -/

inductive NameList : List Token → List String → Prop
  | single {t : Token} : t.kind = .name → NameList [t] [t.text]
  | more {t comma : Token} {ts : List Token} {names : List String} : t.kind = .name →
    comma.is "," = true → NameList ts names → NameList (t :: comma :: ts) (t.text :: names)

/-- Constants with their values; names in front of that of a constant are its type. -/
inductive ConstantList : List Token → List String → Prop
  | single {t eq : Token} {types value : List Token} : (∀ u ∈ types, u.kind = .name) →
    t.kind = .name → eq.is "=" = true → Phrase [","] value →
    ConstantList (types ++ t :: eq :: value) [t.text]
  | more {t eq comma : Token} {types value ts : List Token} {names : List String} :
    (∀ u ∈ types, u.kind = .name) → t.kind = .name → eq.is "=" = true → Phrase [","] value →
    comma.is "," = true → ConstantList ts names →
    ConstantList (types ++ t :: eq :: (value ++ comma :: ts)) (t.text :: names)

/-- What may follow the name of an import: nothing, or another name for it. -/
inductive ImportAs (target : String) : List Token → String × Fqsen → Prop
  | short : ImportAs target [] ((Fqsen.ofText target).name, Fqsen.ofText target)
  | named {as t : Token} : as.isKeyword "as" = true → t.kind = .name →
    ImportAs target [as, t] (t.text, Fqsen.ofText target)

inductive ImportGroup (start : List Char) : List Token → List (String × Fqsen) → Prop
  | nil : ImportGroup start [] []
  | single {t : Token} {ts : List Token} {item : String × Fqsen} : t.kind = .name →
    ImportAs (String.ofList (start ++ Fqsen.separator :: t.text.toList)) ts item →
    ImportGroup start (t :: ts) [item]
  | more {t comma : Token} {ts us : List Token} {item : String × Fqsen}
    {items : List (String × Fqsen)} : t.kind = .name →
    ImportAs (String.ofList (start ++ Fqsen.separator :: t.text.toList)) ts item →
    comma.is "," = true → ImportGroup start us items →
    ImportGroup start (t :: (ts ++ comma :: us)) (item :: items)

/-- One import, or a group of them. -/
inductive ImportName : List Token → List (String × Fqsen) → Prop
  | name {t : Token} {ts : List Token} {item : String × Fqsen} : t.kind = .name →
    ImportAs t.text ts item → ImportName (t :: ts) [item]
  | group {t o c : Token} {ts : List Token} {items : List (String × Fqsen)} : t.kind = .name →
    o.opensBlock = true →
    ImportGroup (Text.dropTrailChar Fqsen.separator t.text.toList) ts items →
    c.closesBlock = true → ImportName (t :: o :: (ts ++ [c])) items

inductive ImportList : List Token → List (String × Fqsen) → Prop
  | single {ts : List Token} {items : List (String × Fqsen)} : ImportName ts items →
    ImportList ts items
  | more {comma : Token} {ts us : List Token} {items others : List (String × Fqsen)} :
    ImportName ts items → comma.is "," = true → ImportList us others →
    ImportList (ts ++ comma :: us) (items ++ others)

/-- What follows the first variable of a list of properties: default values and more of them. -/
inductive PropertyList : List Token → Prop
  | nil : PropertyList []
  | value {eq : Token} {ts : List Token} : eq.is "=" = true → Phrase [","] ts →
    PropertyList (eq :: ts)
  | more {comma t : Token} {ts : List Token} : comma.is "," = true → t.kind = .variableName →
    PropertyList ts → PropertyList (comma :: t :: ts)
  | valueMore {eq comma t : Token} {value ts : List Token} : eq.is "=" = true →
    Phrase [","] value → comma.is "," = true → t.kind = .variableName → PropertyList ts →
    PropertyList (eq :: (value ++ comma :: t :: ts))

/-! ### Functions -/

/-- What may stand between a parameter list and a body. -/
inductive ReturnType : List Token → Prop
  | none : ReturnType []
  | types {colon : Token} {ts : List Token} : colon.is ":" = true →
    (∀ t ∈ ts, t.opensBlock = false ∧ t.endsStatement = false) → ReturnType (colon :: ts)

inductive BodyOrEnd : List Token → Prop
  | block {o c : Token} {inner : List Token} : o.opensBlock = true → Nested inner →
    c.closesBlock = true → BodyOrEnd (o :: (inner ++ [c]))
  | none {e : Token} : e.endsStatement = true → BodyOrEnd [e]

inductive Signature : List Token → Prop
  | parts {o c : Token} {parameters types body : List Token} : o.is "(" = true →
    Nested parameters → c.is ")" = true → ReturnType types → BodyOrEnd body →
    Signature (o :: (parameters ++ c :: (types ++ body)))

/-- The sign that a function returns a reference, or nothing. -/
inductive ByReference : List Token → Prop
  | none : ByReference []
  | sign {t : Token} : t.is "&" = true → ByReference [t]

/-! ### Class-likes -/

/-- The words in a body of members that start more than a modifier or a type. -/
def memberWords : List String := ["use", "const", "function", "case"]

/-- The members of a class-like up to its closing brace, and the traits it uses. -/
inductive MemberList : List Token → List String → Prop
  | nil : MemberList [] []
  | token {t : Token} {ts : List Token} {traits : List String} : t.kind ≠ .variableName →
    t.opensBlock = false → t.closesBlock = false →
    (t.kind = .name → Text.asciiLower t.text ∉ memberWords) → MemberList ts traits →
    MemberList (t :: ts) traits
  | traits {kw : Token} {list body ts : List Token} {names traits : List String} :
    kw.isKeyword "use" = true → NameList list names → BodyOrEnd body → MemberList ts traits →
    MemberList (kw :: (list ++ (body ++ ts))) (names ++ traits)
  | constants {kw e : Token} {list ts : List Token} {traits : List String} :
    kw.isKeyword "const" = true → Phrase [] list → e.endsStatement = true →
    MemberList ts traits → MemberList (kw :: (list ++ e :: ts)) traits
  | method {kw name : Token} {sign parts ts : List Token} {traits : List String} :
    kw.isKeyword "function" = true → ByReference sign → name.kind = .name → Signature parts →
    MemberList ts traits → MemberList (kw :: (sign ++ name :: (parts ++ ts))) traits
  | properties {t e : Token} {list ts : List Token} {traits : List String} :
    t.kind = .variableName → PropertyList list → e.endsStatement = true →
    MemberList ts traits → MemberList (t :: (list ++ e :: ts)) traits

/-- The body of a class-like, and the traits it uses. -/
inductive ClassBlock : List Token → List String → Prop
  | braces {o c : Token} {members : List Token} {traits : List String} : o.opensBlock = true →
    MemberList members traits → c.closesBlock = true →
    ClassBlock (o :: (members ++ [c])) traits

inductive Extends : List Token → Option String → Prop
  | none : Extends [] none
  | parent {kw t : Token} : kw.isKeyword "extends" = true → t.kind = .name →
    Extends [kw, t] (some t.text)

inductive ListBehind (keyword : String) : List Token → List String → Prop
  | none : ListBehind keyword [] []
  | names {kw : Token} {ts : List Token} {names : List String} : kw.isKeyword keyword = true →
    NameList ts names → ListBehind keyword (kw :: ts) names

/-! ### Statements -/

/-- What stands in front of a token, as far as it matters for what a word means there. -/
inductive Lead
  | access
  | new
  | plain
deriving DecidableEq

def Lead.of (t : Option Token) : Lead :=
  if t.any fun t => t.is "::" || t.is "->" || t.is "?->" then .access
  else if t.any (·.isKeyword "new") then .new
  else .plain

/-- The words that start more than the next token. -/
def statementWords : List String :=
  ["namespace", "use", "class", "abstract", "final", "readonly", "interface", "trait", "enum",
    "function", "const", "define", "require", "require_once", "include", "include_once"]

def IsModifier (t : Token) : Prop :=
  t.isKeyword "abstract" = true ∨ t.isKeyword "final" = true ∨ t.isKeyword "readonly" = true

def IsInclude (t : Token) : Prop :=
  t.isKeyword "require" = true ∨ t.isKeyword "require_once" = true ∨
    t.isKeyword "include" = true ∨ t.isKeyword "include_once" = true

/-- No call with the name of a constant follows. -/
inductive NoDefinition : List Token → Prop
  | apart {t : Token} {ts : List Token} : t.is "(" = false → NoDefinition (t :: ts)
  | name {o name comma : Token} {ts : List Token} :
    name.kind ≠ .literal ∨ comma.is "," = false → NoDefinition (o :: name :: comma :: ts)

/-- A declaration, or a use of a word that starts declarations elsewhere: its tokens, the tokens
behind it as far as they matter, and what it declares. -/
inductive Statement (l : Lead) : List Token → List Token → List Declaration → Prop
  | imports {kw e : Token} {list more : List Token} {items : List (String × Fqsen)} :
    kw.isKeyword "use" = true → ImportList list items →
    (∀ t ∈ list.head?, t.isKeyword "function" = false ∧ t.isKeyword "const" = false) →
    e.endsStatement = true → Statement l (kw :: (list ++ [e])) more [⟨.imports items, none⟩]
  | otherImports {kw word e : Token} {list more : List Token} : kw.isKeyword "use" = true →
    word.isKeyword "function" = true ∨ word.isKeyword "const" = true → Phrase [] list →
    e.endsStatement = true → Statement l (kw :: word :: (list ++ [e])) more []
  | capture {kw o e : Token} {list more : List Token} : kw.isKeyword "use" = true →
    o.kind ≠ .name → Phrase [] (o :: list) → e.endsStatement = true →
    Statement l (kw :: o :: (list ++ [e])) more []
  | captureInner {kw o t : Token} {list more : List Token} : kw.isKeyword "use" = true →
    o.kind ≠ .name → Phrase [] (o :: list) → t.closes = true →
    Statement l (kw :: o :: list) (t :: more) []
  | constants {kw e : Token} {list more : List Token} {names : List String} :
    kw.isKeyword "const" = true → ConstantList list names → e.endsStatement = true →
    Statement l (kw :: (list ++ [e])) more (names.map fun name => ⟨.constant name, none⟩)
  | included {kw e : Token} {list more : List Token} : IsInclude kw → Phrase [] list →
    e.endsStatement = true → Statement l (kw :: (list ++ [e])) more []
  | includedInner {kw t : Token} {list more : List Token} : IsInclude kw → Phrase [] list →
    t.closes = true → Statement l (kw :: list) (t :: more) []
  | defined {kw o name comma c e : Token} {value more : List Token} : kw.isKeyword "define" = true →
    o.is "(" = true → name.kind = .literal → comma.is "," = true → Phrase [] value →
    c.is ")" = true → e.endsStatement = true →
    Statement l (kw :: o :: name :: comma :: (value ++ [c, e])) more
      [⟨.defined (Fqsen.ofText (Reader.unquote name.text)), none⟩]
  | definedInner {kw o name comma c t : Token} {value more : List Token} :
    kw.isKeyword "define" = true → o.is "(" = true → name.kind = .literal → comma.is "," = true →
    Phrase [] value → c.is ")" = true → t.endsStatement = false →
    Statement l (kw :: o :: name :: comma :: (value ++ [c])) (t :: more)
      [⟨.defined (Fqsen.ofText (Reader.unquote name.text)), none⟩]
  | noDefinition {kw : Token} {more : List Token} : kw.isKeyword "define" = true →
    NoDefinition more → Statement l [kw] more []
  | function {kw name : Token} {sign parts more : List Token} : kw.isKeyword "function" = true →
    ByReference sign → name.kind = .name → Signature parts →
    Statement l (kw :: (sign ++ name :: parts)) more [⟨.function name.text, none⟩]
  | closure {kw t : Token} {sign more : List Token} : kw.isKeyword "function" = true →
    ByReference sign → t.kind ≠ .name → t.is "&" = false →
    Statement l (kw :: sign) (t :: more) []
  | «class» {kw name : Token} {modifiers base list block more : List Token}
    {parent : Option String} {interfaces traits : List String} :
    (∀ t ∈ modifiers, IsModifier t) → (modifiers = [] → l ≠ .new) →
    kw.isKeyword "class" = true → name.kind = .name → Extends base parent →
    ListBehind "implements" list interfaces → ClassBlock block traits →
    Statement l (modifiers ++ kw :: name :: (base ++ (list ++ block))) more
      [⟨.classLike .class name.text parent interfaces traits, none⟩]
  | anonymous {kw o c : Token} {header body more : List Token} : l = .new →
    kw.isKeyword "class" = true → Header header → o.opensBlock = true → Nested body →
    c.closesBlock = true → Statement l (kw :: (header ++ o :: (body ++ [c]))) more []
  | «interface» {kw name : Token} {list block more : List Token} {parents traits : List String} :
    kw.isKeyword "interface" = true → name.kind = .name → ListBehind "extends" list parents →
    ClassBlock block traits → Statement l (kw :: name :: (list ++ block)) more
      [⟨.classLike .interface name.text none parents [], none⟩]
  | «trait» {kw name : Token} {block more : List Token} {traits : List String} :
    kw.isKeyword "trait" = true → name.kind = .name → ClassBlock block traits →
    Statement l (kw :: name :: block) more [⟨.classLike .trait name.text none [] traits, none⟩]
  | «enum» {kw name o c : Token} {header body more : List Token} : kw.isKeyword "enum" = true →
    name.kind = .name → Header header → o.opensBlock = true → Nested body →
    c.closesBlock = true → Statement l (kw :: name :: (header ++ o :: (body ++ [c]))) more []
  | nameless {kw t : Token} {modifiers more : List Token} : (∀ t ∈ modifiers, IsModifier t) →
    (modifiers = [] → l ≠ .new) → kw.isKeyword "class" = true → t.kind ≠ .name →
    Statement l (modifiers ++ [kw]) (t :: more) []
  | modifiers {first t : Token} {modifiers more : List Token} :
    (∀ t ∈ first :: modifiers, IsModifier t) → ¬ IsModifier t → t.isKeyword "class" = false →
    Statement l (first :: modifiers) (t :: more) []
  | word {kw t : Token} {more : List Token} : kw.isKeyword "interface" = true ∨
    kw.isKeyword "trait" = true ∨ kw.isKeyword "enum" = true → t.kind ≠ .name →
    Statement l [kw] (t :: more) []

/-- The name of a namespace, or none for that of the root. -/
inductive SpaceName : List Token → Fqsen → Prop
  | root : SpaceName [] Fqsen.root
  | named {t : Token} : t.kind = .name → SpaceName [t] (Fqsen.ofText t.text)

/-- Statements between a lead and the next token, and what they declare. -/
inductive Code : Lead → List Token → Option Token → List Declaration → Prop
  | nil {l : Lead} {next : Option Token} : Code l [] next []
  | token {l : Lead} {t : Token} {ts : List Token} {next : Option Token} {ds : List Declaration} :
    t.opensBlock = false → t.closesBlock = false →
    (t.kind = .name → l = .access ∨ Text.asciiLower t.text ∉ statementWords) →
    Code (.of (some t)) ts next ds → Code l (t :: ts) next ds
  | block {l : Lead} {o c : Token} {body more : List Token} {next : Option Token}
    {inside behind : List Declaration} : o.opensBlock = true → Code .plain body (some c) inside →
    c.closesBlock = true → Code .plain more next behind →
    Code l (o :: (body ++ c :: more)) next (inside ++ behind)
  | space {l : Lead} {kw o c : Token} {name body more : List Token} {next : Option Token}
    {space : Fqsen} {inside behind : List Declaration} : l ≠ .access →
    kw.isKeyword "namespace" = true → SpaceName name space → o.opensBlock = true →
    Code .plain body (some c) inside → c.closesBlock = true → Code .plain more next behind →
    Code l (kw :: (name ++ o :: (body ++ c :: more))) next
      (inside.map (Declaration.within space) ++ behind)
  | statement {l : Lead} {ts more : List Token} {next : Option Token}
    {ds others : List Declaration} : l ≠ .access → Statement l ts (more ++ next.toList) ds →
    Code .plain more next others → Code l (ts ++ more) next (ds ++ others)

end ApiDoc
