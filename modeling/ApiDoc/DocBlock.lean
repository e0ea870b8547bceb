import ApiDoc.Tag
import ApiDoc.Text.Pieces

/-!
# Doc comments

A doc comment is a summary, a description and tags. Its lines are read without the comment signs.
The lines before the first one that starts with an at sign are free text: the summary ends at a
blank line or with a line that ends in a period, the description is what follows. Each line that
starts with an at sign begins a tag, to which the lines up to the next one belong. The name of a tag
decides its shape (`Tag.parse?`).
-/

namespace ApiDoc

/-- The types of a list written with bars between them. -/
def splitTypes (s : String) : List String := Text.items '|' s

namespace Tag

/-- The tags that carry types and a variable. -/
def variableNames : List String := ["param", "var", "property", "property-read", "property-write"]

/-- The tags that carry types only. -/
def typedNames : List String := ["return", "throws"]

/-- Whether a word is a variable: a dollar sign after optional ampersands and dots in threes. -/
def isVariable (word : List Char) : Bool :=
  (Text.dropLeads ['.', '.', '.'] (Text.dropLeadChar '&' word)).head? == some '$'

/-- Types and a variable, either of which may be missing, and a description. -/
def variableTag (name : String) (rest : List Char) : Tag :=
  let (first, afterFirst) := Text.cutWord rest
  if isVariable first then
    { name := name, description := String.ofList afterFirst,
      body := .typedVariable [] (String.ofList first) }
  else
    let types := splitTypes (String.ofList first)
    let (second, afterSecond) := Text.cutWord afterFirst
    if isVariable second then
      { name := name, description := String.ofList afterSecond,
        body := .typedVariable types (String.ofList second) }
    else
      { name := name, description := String.ofList afterFirst, body := .typedVariable types "" }

def isMethodChar (c : Char) : Bool := c.isAlphanum || c == '_'

/-- A magic method once its modifier and its types are read: name, arguments in parentheses and the
description. -/
def magicCall? (isStatic : Bool) (types : List String) (cs : List Char) : Option Tag :=
  let name := cs.takeWhile isMethodChar
  if name.isEmpty || name.head?.any Char.isDigit then none
  else
    match Text.trimStart (cs.dropWhile isMethodChar) with
    | '(' :: rest =>
      (Text.cut? [')'] rest).map fun (arguments, description) =>
        { name := "method", description := String.ofList (Text.trim description),
          body := .magicMethod (String.ofList name) types
            (Text.items ',' (String.ofList arguments)) isStatic }
    | _ => none

/-- A magic method after its modifier: types before the name, if what follows them is a call. -/
def magicTyped? (isStatic : Bool) (cs : List Char) : Option Tag :=
  let (types, rest) := Text.spanWord cs
  let typed :=
    if types.isEmpty || rest.isEmpty then none
    else magicCall? isStatic (splitTypes (String.ofList types)) (Text.trimStart rest)
  typed.or (magicCall? isStatic [] cs)

/-- A magic method: an optional `static`, optional types, a name, arguments and a description. -/
def magicMethod? (cs : List Char) : Option Tag :=
  let modified :=
    match Text.spanWord cs with
    | (word, rest) =>
      if word == "static".toList && !rest.isEmpty then magicTyped? true (Text.trimStart rest)
      else none
  modified.or (magicTyped? false cs)

/-- Reads a tag from its text, which starts with an at sign and a name. -/
def parse? (cs : List Char) : Option Tag :=
  match cs with
  | '@' :: body =>
    let (word, rest) := Text.cutWord body
    let name := String.ofList word
    if word.isEmpty then none
    else if name ∈ variableNames then some (variableTag name rest)
    else if name ∈ typedNames then
      let (types, description) := Text.cutWord rest
      some { name := name, description := String.ofList description,
             body := .typed (splitTypes (String.ofList types)) }
    else if name ∈ referenceNames then
      let (target, description) := Text.cutWord rest
      some { name := name, description := String.ofList description,
             body := .reference { target := String.ofList target } }
    else
      let plain : Tag := { name := name, description := String.ofList rest }
      if name = "method" then some ((magicMethod? rest).getD plain) else some plain
  | _ => none

end Tag

/-- A doc comment and the line where it starts. -/
structure DocBlock where
  summary : String
  description : String
  tags : Tags
  line : Nat
deriving DecidableEq, Inhabited

namespace DocBlock

/-- A line without the star, and the blank after it, that leads it. -/
def bareLine (line : List Char) : List Char :=
  let line := Text.trimStart line
  let line := (Text.after? ['*'] line).getD line
  Text.trimEnd ((Text.after? [' '] line).getD line)

/-- The lines of a comment without the comment signs. -/
def bareLines (raw : List Char) : List (List Char) :=
  let opened := Text.dropLeads ['/', '*', '*'] (Text.trim raw)
  (Text.lines (Text.dropTrails ['*', '/'] opened)).map bareLine

def beginsTag (line : List Char) : Bool := line.head? == some '@'

/-- The lines of free text, and the text of each tag. -/
def divide : List (List Char) → List (List Char) × List (List Char)
  | [] => ([], [])
  | line :: rest =>
    let (free, tags) := divide rest
    if beginsTag line then
      ([], Text.joinWith ['\n'] (line :: free.map Text.trimStart) :: tags)
    else (line :: free, tags)

/-- The lines of the summary and those after it, of lines that do not start with an empty one. -/
def cutSummary : List (List Char) → List (List Char) × List (List Char)
  | [] => ([], [])
  | line :: rest =>
    if line.isEmpty then ([], line :: rest)
    else if line.getLast? == some '.' then ([line], rest)
    else
      let (summary, description) := cutSummary rest
      (line :: summary, description)

/-- Lines put together, without blanks at the ends. -/
def paragraph (lines : List (List Char)) : String :=
  String.ofList (Text.trim (Text.joinWith ['\n'] lines))

/-- Reads the raw text of a doc comment that starts at a line. -/
def parse (raw : String) (line : Nat) : DocBlock :=
  let (free, tagTexts) := divide (bareLines raw.toList)
  let (summary, description) := cutSummary (free.dropWhile List.isEmpty)
  { summary := paragraph summary
    description := paragraph description
    tags := (tagTexts.filterMap fun t => Tag.parse? (Text.trimEnd t)).foldl Tags.push {}
    line := line }

def package? (d : DocBlock) : Option String :=
  ((d.tags.get "package").head?.map fun t => Text.trimmed t.description).filter (!·.isEmpty)

/-- The description of the parameter with a name, from the first tag that documents it. -/
def parameterDescription (d : DocBlock) (variableName : String) : String :=
  let documents (t : Tag) : Bool :=
    match t.body with
    | .typedVariable _ v => v == variableName
    | _ => false
  (((d.tags.get "param").find? documents).map Tag.description).getD ""

end DocBlock

end ApiDoc
