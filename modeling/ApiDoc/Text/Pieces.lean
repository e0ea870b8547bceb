import ApiDoc.Text.Blank

/-!
# Cutting a text into pieces

Searching for a fixed piece of text, cutting at it, and the three standard divisions of a text:
at a separator (`splitOn`), into words (`words`, at runs of blanks) and into lines (`lines`).
All of them work on the list of characters; the functions on strings wrap them.
-/

namespace ApiDoc.Text

def startsWith (piece cs : List Char) : Bool := piece.isPrefixOf cs

def endsWith (piece cs : List Char) : Bool := piece.isSuffixOf cs

/-- What follows `piece`, if the text starts with it. -/
def after? (piece cs : List Char) : Option (List Char) :=
  if startsWith piece cs then some (cs.drop piece.length) else none

/-- What precedes `piece`, if the text ends with it. -/
def before? (piece cs : List Char) : Option (List Char) :=
  if endsWith piece cs then some (cs.take (cs.length - piece.length)) else none

theorem startsWith_iff {piece cs : List Char} : startsWith piece cs = true ↔ piece <+: cs :=
  List.isPrefixOf_iff_prefix

theorem append_of_after? {piece cs rest : List Char} (h : after? piece cs = some rest) :
    piece ++ rest = cs := by
  rw [after?] at h
  split at h
  · next hp =>
    obtain ⟨t, rfl⟩ := startsWith_iff.mp hp
    simp_all
  · simp at h

theorem after?_append (piece rest : List Char) : after? piece (piece ++ rest) = some rest := by
  rw [after?, if_pos (startsWith_iff.mpr (List.prefix_append piece rest)), List.drop_left]

theorem after?_eq_some_iff {piece cs rest : List Char} :
    after? piece cs = some rest ↔ cs = piece ++ rest :=
  ⟨fun h => (append_of_after? h).symm, fun h => h ▸ after?_append piece rest⟩

/-- Dropping a nonempty piece from the front makes the text shorter. -/
theorem length_drop_lt {piece cs : List Char} (h : piece ≠ [] ∧ startsWith piece cs = true) :
    (cs.drop piece.length).length < cs.length := by
  have hle : piece.length ≤ cs.length := (startsWith_iff.mp h.2).length_le
  have hpos : 0 < piece.length := List.length_pos_iff.mpr h.1
  simp only [List.length_drop]
  omega

/-- The text before and after the first occurrence of `piece`. -/
def cut? (piece : List Char) : List Char → Option (List Char × List Char)
  | [] => if piece.isEmpty then some ([], []) else none
  | c :: cs =>
    match after? piece (c :: cs) with
    | some rest => some ([], rest)
    | none => (cut? piece cs).map fun (front, rest) => (c :: front, rest)

/-- The text before and after the last occurrence of the character. -/
def cutLast? (sep : Char) (cs : List Char) : Option (List Char × List Char) :=
  match cs.reverse.span (· != sep) with
  | (_, []) => none
  | (back, _ :: front) => some (front.reverse, back.reverse)

def contains (piece cs : List Char) : Bool := (cut? piece cs).isSome

/-- The text without every leading repetition of a nonempty `piece`. -/
def dropLeads (piece cs : List Char) : List Char :=
  if _h : piece ≠ [] ∧ startsWith piece cs then
    dropLeads piece (cs.drop piece.length)
  else cs
termination_by cs.length
decreasing_by exact length_drop_lt _h

/-- The text without every trailing repetition of a nonempty `piece`. -/
def dropTrails (piece cs : List Char) : List Char :=
  (dropLeads piece.reverse cs.reverse).reverse

/-- The text without the leading run of one character. -/
def dropLeadChar (c : Char) (cs : List Char) : List Char := cs.dropWhile (· == c)

/-- The text without the trailing run of one character. -/
def dropTrailChar (c : Char) (cs : List Char) : List Char :=
  (cs.reverse.dropWhile (· == c)).reverse

/-- The parts between occurrences of a separator, empty ones included. -/
def splitOn (sep : Char) : List Char → List (List Char)
  | [] => [[]]
  | c :: cs =>
    if c == sep then [] :: splitOn sep cs
    else
      match splitOn sep cs with
      | [] => [[c]]
      | part :: parts => (c :: part) :: parts

/-- The word that starts the text, and what follows it. -/
def spanWord (cs : List Char) : List Char × List Char := cs.span (fun c => !isBlank c)

/-- The first word of the text after leading blanks, and the trimmed remainder. -/
def cutWord (cs : List Char) : List Char × List Char :=
  let (word, rest) := spanWord (trimStart cs)
  (word, trim rest)

/-- The first word of the trimmed text, and the trimmed remainder. -/
def firstWord (s : String) : String × String :=
  let (word, rest) := cutWord (trim s.toList)
  (String.ofList word, String.ofList rest)

/-- The words under construction: `word` is the current one, reversed. -/
def wordsFrom (word : List Char) : List Char → List (List Char)
  | [] => if word.isEmpty then [] else [word.reverse]
  | c :: cs =>
    if isBlank c then
      if word.isEmpty then wordsFrom [] cs else word.reverse :: wordsFrom [] cs
    else wordsFrom (c :: word) cs

/-- The maximal runs of characters that are not blank. -/
def words (cs : List Char) : List (List Char) := wordsFrom [] cs

/-- A line that was ended by a newline, without the carriage return before it. -/
def endLine (line : List Char) : List Char :=
  match line.reverse with
  | '\r' :: front => front.reverse
  | _ => line

/-- Lines of a text already divided at newlines: the last part is a line only if it is nonempty. -/
def linesOfParts : List (List Char) → List (List Char)
  | [] => []
  | [last] => if last.isEmpty then [] else [last]
  | line :: rest => endLine line :: linesOfParts rest

/-- The lines of a text. A newline, or a carriage return and a newline, ends a line; text after the
last newline is a line of its own and keeps its carriage return. -/
def lines (cs : List Char) : List (List Char) := linesOfParts (splitOn '\n' cs)

def joinWith (sep : List Char) : List (List Char) → List Char
  | [] => []
  | [part] => part
  | part :: parts => part ++ sep ++ joinWith sep parts

/-- The text with every occurrence of a nonempty `piece` replaced, from left to right. -/
def replaceAll (piece new cs : List Char) : List Char :=
  if _h : piece ≠ [] ∧ startsWith piece cs then
    new ++ replaceAll piece new (cs.drop piece.length)
  else
    match cs with
    | [] => []
    | c :: rest => c :: replaceAll piece new rest
termination_by cs.length
decreasing_by
  · exact length_drop_lt _h
  · simp

def join (sep : String) (parts : List String) : String := sep.intercalate parts

/-- The parts of a string between occurrences of a separator. -/
def parts (sep : Char) (s : String) : List String := (splitOn sep s.toList).map String.ofList

/-- The nonempty parts of a string between occurrences of a separator, each trimmed. -/
def items (sep : Char) (s : String) : List String :=
  ((splitOn sep s.toList).map trim).filterMap fun part =>
    if part.isEmpty then none else some (String.ofList part)

/-- `contains` on strings. -/
def holds (piece s : String) : Bool := contains piece.toList s.toList

@[simp] theorem splitOn_nil (sep : Char) : splitOn sep [] = [[]] := rfl

theorem splitOn_ne_nil (sep : Char) (cs : List Char) : splitOn sep cs ≠ [] := by
  cases cs with
  | nil => simp
  | cons c cs =>
    rw [splitOn]
    split
    · simp
    · split <;> simp

/-- Joining the parts with the separator gives the text back. -/
theorem joinWith_splitOn (sep : Char) (cs : List Char) :
    joinWith [sep] (splitOn sep cs) = cs := by
  induction cs with
  | nil => rfl
  | cons c cs ih =>
    rw [splitOn]
    split
    · next h =>
      have hc : c = sep := by simpa using h
      cases hs : splitOn sep cs with
      | nil => exact absurd hs (splitOn_ne_nil sep cs)
      | cons part parts =>
        rw [hs] at ih
        simp [joinWith, ih, hc]
    · split
      · next hs => exact absurd hs (splitOn_ne_nil sep cs)
      · next part parts hs =>
        rw [hs] at ih
        cases parts with
        | nil => simpa [joinWith] using ih
        | cons p ps => simpa [joinWith] using ih

/-- A cut loses only the piece it cuts at. -/
theorem append_of_cut? {piece cs front rest : List Char} (h : cut? piece cs = some (front, rest)) :
    front ++ piece ++ rest = cs := by
  induction cs generalizing front rest with
  | nil =>
    rw [cut?] at h
    split at h
    · next he => simp_all [List.isEmpty_iff]
    · simp at h
  | cons c cs ih =>
    rw [cut?] at h
    split at h
    · next r hr =>
      obtain ⟨rfl, rfl⟩ : [] = front ∧ r = rest := by simpa using h
      simpa using append_of_after? hr
    · obtain ⟨⟨f, r⟩, hfr, heq⟩ := Option.map_eq_some_iff.mp h
      obtain ⟨rfl, rfl⟩ : c :: f = front ∧ r = rest := by simpa using heq
      have := ih hfr
      simp_all

/-- What is not found does not occur. -/
theorem not_infix_of_cut? {piece cs : List Char} (h : cut? piece cs = none) :
    ¬ piece <:+: cs := by
  induction cs with
  | nil =>
    rw [cut?, ite_eq_right_iff, List.isEmpty_iff] at h
    rw [List.infix_nil]
    exact fun hnil => absurd (h hnil) (by simp)
  | cons c cs ih =>
    rw [cut?] at h
    split at h
    · simp at h
    · next hafter =>
      have hstart : ¬ piece <+: c :: cs := by
        simpa [after?, startsWith_iff] using hafter
      rw [List.infix_cons_iff, not_or]
      exact ⟨hstart, ih (Option.map_eq_none_iff.mp h)⟩

end ApiDoc.Text
