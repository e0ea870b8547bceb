import ApiDoc.Path
import ApiDoc.Settings
import ApiDoc.Text.Lowercase

/-!
# Which files are documented

A path is selected when its extension is one of a list, in any letter case, and no pattern to ignore
matches it.
-/

namespace ApiDoc

/-- The extensions and patterns that select files. -/
structure Selection where
  extensions : List String
  ignore : List Glob
deriving Inhabited

namespace Selection

/-- The selection of settings: extensions without leading dots, in small letters. -/
def ofSettings (s : Settings) : Except ConfigError Selection := do
  let ignore ← s.ignored
  let bare (extension : String) : String :=
    Text.asciiLower (String.ofList (Text.dropLeadChar '.' extension.toList))
  return { extensions := s.extensions.map bare, ignore := ignore }

def accepts (s : Selection) (path : String) : Bool :=
  match Path.extension? path with
  | some extension =>
    s.extensions.contains (Text.asciiLower extension) && !s.ignore.any (·.isMatch path)
  | none => false

end Selection

end ApiDoc
