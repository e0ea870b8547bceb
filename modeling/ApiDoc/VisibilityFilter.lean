import ApiDoc.Kind
import ApiDoc.Text.Blank

/-!
# What the documentation shows

A filter is a set of five flags in one byte. Three of them name the declared visibilities that are
shown; `internal` shows what is marked internal; `api` restricts the documentation to elements that
carry the tag of that name.
-/

namespace ApiDoc

/-- A set of flags. -/
structure VisibilityFilter where
  bits : UInt8
deriving DecidableEq, Inhabited

namespace VisibilityFilter

/-- Only elements tagged `api`. -/
def api : UInt8 := 1

def publicFlag : UInt8 := 2

def protectedFlag : UInt8 := 4

def privateFlag : UInt8 := 8

def internal : UInt8 := 16

/-- The keywords of the flags, in the order in which they are listed. -/
def keywords : List (String × UInt8) :=
  [("api", api), ("public", publicFlag), ("protected", protectedFlag), ("private", privateFlag),
    ("internal", internal)]

/-- The filter that shows everything declared and nothing internal. -/
def standard : VisibilityFilter := ⟨publicFlag ||| protectedFlag ||| privateFlag⟩

def has (f : VisibilityFilter) (flag : UInt8) : Bool := f.bits &&& flag == flag

/-- Whether members with a declared visibility are shown. -/
def allows (f : VisibilityFilter) : Visibility → Bool
  | .public => f.has publicFlag
  | .protected => f.has protectedFlag
  | .private => f.has privateFlag

def allowsInternal (f : VisibilityFilter) : Bool := f.has internal

def isApiOnly (f : VisibilityFilter) : Bool := f.has api

/-- The keywords of the flags that are set. -/
def names (f : VisibilityFilter) : List String :=
  (keywords.filter fun k => f.has k.2).map Prod.fst

/-- A keyword as it is compared: without blanks around it, in small letters. -/
def keyword (word : String) : String := Text.asciiLower (Text.trimmed word)

/-- The filter with the flags of all words; fails with the first unknown one, as it was compared. -/
def parse (words : List String) : Except String VisibilityFilter :=
  words.foldlM (fun f word =>
    match keywords.find? fun k => k.1 = keyword word with
    | some k => .ok ⟨f.bits ||| k.2⟩
    | none => .error (keyword word)) ⟨0⟩

end VisibilityFilter

end ApiDoc
