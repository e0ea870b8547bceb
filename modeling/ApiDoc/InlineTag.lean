import ApiDoc.Text.Pieces
import ApiDoc.Total

/-!
# Inline tags

Free text may hold tags in braces: a name after an at sign, then optionally blanks and an argument
in which braces are balanced. `segments` divides a text into such tags and single characters,
outermost tags first, and loses nothing (`flatMap_raw_ofChars`); `scan` reports the tags with their
byte positions and `substitute` replaces the tags its function accepts and keeps every other
character.
-/

namespace ApiDoc

/-- One inline tag: its name, its trimmed argument and its whole text with the braces. -/
structure InlineTag where
  name : String
  argument : String
  raw : List Char
deriving DecidableEq, Inhabited

/-- A piece of a text: a tag, or a character outside all tags. -/
inductive Segment
  | char (c : Char)
  | tag (t : InlineTag)
deriving DecidableEq

namespace InlineTag

/-- The characters a tag name is made of. -/
def isNameChar (c : Char) : Bool := c.isAlphanum || c == '_' || c == '-'

/-- The characters that may separate a name from its argument. -/
def isGap (c : Char) : Bool := c == ' ' || c == '\t' || c == '\r' || c == '\n'

/-- The text up to the first closing brace that closes no brace opened within it. -/
def untilClose (depth : Nat) : List Char → Option (List Char)
  | [] => none
  | '{' :: rest => (untilClose (depth + 1) rest).map ('{' :: ·)
  | '}' :: rest =>
    match depth with
    | 0 => some []
    | outer + 1 => (untilClose outer rest).map ('}' :: ·)
  | c :: rest => (untilClose depth rest).map (c :: ·)

/-- The body of a tag after its name: a gap, if any, and the argument text as written. -/
def bodyAt (rest : List Char) : Option (List Char × List Char) :=
  match rest with
  | [] => none
  | c :: _ =>
    if c == '}' || isGap c then
      let gap := rest.takeWhile isGap
      (untilClose 0 (rest.dropWhile isGap)).map fun body => (gap, body)
    else none

/-- The tag at the start of a text that follows an opening brace, and how many characters after
the brace belong to it. -/
def at? : List Char → Option (InlineTag × Nat)
  | '@' :: rest =>
    let name := rest.takeWhile isNameChar
    if name.isEmpty then none
    else
      (bodyAt (rest.dropWhile isNameChar)).map fun (gap, body) =>
        let width := name.length + gap.length + body.length + 2
        ({ name := String.ofList name
           argument := String.ofList (Text.trim body)
           raw := '{' :: ('@' :: rest).take width }, width)
  | _ => none

end InlineTag

namespace Segment

def raw : Segment → List Char
  | .char c => [c]
  | .tag t => t.raw

/-- A text divided into tags and the characters between them. -/
def ofChars : List Char → List Segment
  | [] => []
  | c :: rest =>
    match if c == '{' then InlineTag.at? rest else none with
    | some (t, width) => .tag t :: ofChars (rest.drop width)
    | none => .char c :: ofChars rest
termination_by cs => cs.length
decreasing_by
  · simp only [List.length_drop, List.length_cons]
    omega
  · simp

end Segment

namespace InlineTag

def segments (s : String) : List Segment := Segment.ofChars s.toList

/-- A tag and the byte positions where it starts and ends. -/
structure Found where
  tag : InlineTag
  start : Nat
  stop : Nat
deriving DecidableEq

def byteLength (cs : List Char) : Nat := total (cs.map Char.utf8Size)

/-- The tags among pieces, of which the first starts at a byte offset. -/
def foundFrom (offset : Nat) : List Segment → List Found
  | [] => []
  | .char c :: rest => foundFrom (offset + c.utf8Size) rest
  | .tag t :: rest =>
    ⟨t, offset, offset + byteLength t.raw⟩ :: foundFrom (offset + byteLength t.raw) rest

/-- The tags of a text, in order. -/
def scan (s : String) : List Found := foundFrom 0 (segments s)

/-- The text with every tag replaced for which the function gives a text. -/
def substitute (f : InlineTag → Option String) (s : String) : String :=
  String.ofList <| (segments s).flatMap fun
    | .char c => [c]
    | .tag t => ((f t).map String.toList).getD t.raw

/-- `substitute` with a function that also carries a state from tag to tag. -/
def substituteWith {σ : Type} (f : InlineTag → σ → Option String × σ) :
    List Segment → σ → List Char × σ
  | [], s => ([], s)
  | .char c :: rest, s =>
    let (text, s) := substituteWith f rest s
    (c :: text, s)
  | .tag t :: rest, s =>
    let (new, s) := f t s
    let (text, s) := substituteWith f rest s
    (((new.map String.toList).getD t.raw) ++ text, s)

/-- The argument divided into its first word and the remaining text. -/
def splitArgument (t : InlineTag) : String × String := Text.firstWord t.argument

theorem raw_of_at? {rest : List Char} {t : InlineTag} {width : Nat}
    (h : at? rest = some (t, width)) : t.raw = '{' :: rest.take width := by
  unfold at? at h
  split at h
  · simp only at h
    split at h
    · simp at h
    · obtain ⟨⟨gap, body⟩, _, heq⟩ := Option.map_eq_some_iff.mp h
      simp only [Prod.mk.injEq] at heq
      obtain ⟨rfl, rfl⟩ := heq
      rfl
  · simp at h

/-- The pieces of a text put together are the text. -/
theorem flatMap_raw_ofChars (cs : List Char) : (Segment.ofChars cs).flatMap Segment.raw = cs := by
  fun_induction Segment.ofChars cs with
  | case1 => rfl
  | case2 c rest t width h ih =>
    split at h
    · next hc =>
      have hc' : c = '{' := by simpa using hc
      simp [Segment.raw, ih, raw_of_at? h, hc']
    · simp at h
  | case3 c rest h ih => simp [Segment.raw, ih]

end InlineTag

end ApiDoc
