import ApiDoc.Compile.Pass

/-!
# Back links

An element that another one says to use gets a tag that points back, once for each user.
-/

namespace ApiDoc.Compile

/-- The tag that says what an element uses. -/
def usesTag : String := "uses"

/-- The tag that says by what an element is used. -/
def usedByTag : String := "used-by"

/-- One use: the user, what it uses, and what is said about it. -/
structure Use where
  user : ElementRef
  used : ElementRef
  description : String
deriving DecidableEq, Inhabited

/-- The uses that an element states and that resolved to elements. -/
def usesOf (user : ElementRef) (tags : Tags) : List Use :=
  (tags.get usesTag).filterMap fun t =>
    match t.reference?.bind Reference.resolved with
    | some (.element used) => some ⟨user, used, t.description⟩
    | _ => none

/-- The uses of all indexed elements, in key order. -/
def usesIn (s : ApiSet) : List Use :=
  (s.index Index.elements).values.flatMap fun t =>
    match t.element? with
    | some ref =>
      match s.item? ref with
      | some item => usesOf ref item.info.tags
      | none => []
    | none => []

/-- Whether tags already point back at a user. -/
def pointsBack (user : ElementRef) (tags : Tags) : Bool :=
  (tags.get usedByTag).any fun t => t.reference?.bind Reference.resolved == some (.element user)

/-- The tag that points back at a user. -/
def backTag (u : Use) : Tag where
  name := usedByTag
  description := u.description
  body := .reference ⟨u.user.fqsen.text, some (.element u.user)⟩

/-- The set with the back link of one use, and the number of back links made so far. -/
def addBackLink (acc : ApiSet × Nat) (u : Use) : ApiSet × Nat :=
  match acc.1.item? u.used with
  | none => acc
  | some item =>
    if pointsBack u.user item.info.tags then acc
    else (acc.1.modifyInfo u.used fun i => { i with tags := i.tags.push (backTag u) }, acc.2 + 1)

def backLink (s : ApiSet) : Attempt ApiSet :=
  let (linked, count) := (usesIn s).foldl addBackLink (s, 0)
  let events :=
    if count = 0 then []
    else [.debug ("added " ++ Text.ofNat count ++ " used-by tags to " ++ s.name)]
  { state := linked, events := events }

def backLinksPass : Pass :=
  .onApiSets "Adds used-by tags to elements referenced by uses tags" 8000 fun _ _ => backLink

end ApiDoc.Compile
