import ApiDoc.Compile.Link
import ApiDoc.Compile.Texts
import ApiDoc.InlineTag

/-!
# Links in texts

Inline tags that point somewhere become links. A URL links to itself; a name links to the page of
what it refers to, under its full name or under the words given for it. A name without a page is
replaced by its full name.
-/

namespace ApiDoc.Compile

/-- The names of the inline tags that become links. -/
def inlineLinkTags : List String := ["see", "link"]

def linkText (label url : String) : String := "[" ++ label ++ "](" ++ url ++ ")"

/-- The page of what a name was found to refer to. -/
def pageOf? (router : Router) (s : ApiSet) (r : Resolution) : Option String := do
  let target ← r.target?
  let destination ← s.destination? target
  match router.page destination with
  | .ok url => some url
  | .error _ => none

/-- The text for one inline tag, as seen from a place. -/
def linkFor (router : Router) (s : ApiSet) (scope : Scope) (t : InlineTag) : Option String :=
  let (target, words) := t.splitArgument
  if !inlineLinkTags.contains t.name || target.isEmpty then none
  else
    let label (name : String) : String := if words.isEmpty then name else words
    if isUrl target then
      match router.page (.link target) with
      | .ok url => some (linkText (label target) url)
      | .error _ => some (linkText (label target) target)
    else
      let resolution := s.resolve target scope
      match pageOf? router s resolution with
      | some url => some (linkText (label resolution.text) url)
      | none => some resolution.text

def withLinks (router : Router) (s : ApiSet) (scope : Scope) (text : String) : String :=
  InlineTag.substitute (linkFor router s scope) text

def inlineLinksPass : Pass :=
  .onApiSets "Resolve @link and @see tags in descriptions" 8600
    fun services _ s => { state := editAllTexts (withLinks services.router s) s }

end ApiDoc.Compile
