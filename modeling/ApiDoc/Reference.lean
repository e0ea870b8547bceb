import ApiDoc.Fqsen
import ApiDoc.Kind

/-!
# References

What an index, a tree node or a tag stores about another part of a documentation set is an address,
never a copy: the file, kind and name of an element, or the number of a file or of a tree node.
-/

namespace ApiDoc

/-- The address of an element: the file that declares it (or its container), its kind and name. -/
structure ElementRef where
  file : Nat
  kind : ElementKind
  fqsen : Fqsen
deriving DecidableEq, Inhabited

/-- The address of anything a documentation set holds. -/
inductive Target
  | file (id : Nat)
  | element (ref : ElementRef)
  | spaceNode (id : Nat)
  | packageNode (id : Nat)
deriving DecidableEq, Inhabited

def Target.element? : Target → Option ElementRef
  | .element ref => some ref
  | _ => none

/-- A reference as written, and what it was found to address. -/
structure Reference where
  target : String
  resolved : Option Target := none
deriving DecidableEq, Inhabited

end ApiDoc
