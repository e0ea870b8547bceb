import ApiDoc.DocBlock
import ApiDoc.Proofs.Words

/-!
# Doc comments that are written and read again

`CommentLines` is what a doc comment says, line by line, and `CommentLines.render` the comment as it
stands in a source: a line of its own for each of these lines, behind a blank, a star and a blank.
Main statement: a comment that is written so is read with its summary, its description and its tags
as they were, unless a line is one that no comment can say (`CommentLines.IsTidy`).
-/

namespace ApiDoc

open scoped Text

/-- The lines of a tag: the one it begins with, and those it goes on with. -/
structure TagLines where
  first : List Char
  more : List (List Char)

/-- What a doc comment says, line by line. -/
structure CommentLines where
  summary : List (List Char)
  description : List (List Char)
  tags : List TagLines

namespace TagLines

def lines (t : TagLines) : List (List Char) := t.first :: t.more

/-- The lines in one text. -/
def text (t : TagLines) : List Char := Text.joinWith ['\n'] t.lines

/-- A tag begins with an at sign, which no other of its lines does, and is not continued by empty
lines alone. -/
structure IsTidy (t : TagLines) : Prop where
  first : t.first.head? = some '@'
  more : ∀ line ∈ t.more, ∀ c ∈ line.head?, Text.isBlank c = false ∧ c ≠ '@'
  last : ∀ line ∈ t.lines.getLast?, line ≠ []

instance (t : TagLines) : Decidable t.IsTidy :=
  decidable_of_iff (t.first.head? = some '@' ∧
      (∀ line ∈ t.more, ∀ c ∈ line.head?, Text.isBlank c = false ∧ c ≠ '@') ∧
      ∀ line ∈ t.lines.getLast?, line ≠ [])
    ⟨fun ⟨first, more, last⟩ => ⟨first, more, last⟩, fun h => ⟨h.first, h.more, h.last⟩⟩

end TagLines

namespace CommentLines

/-- All lines: there is an empty one behind the summary. -/
def lines (d : CommentLines) : List (List Char) :=
  d.summary ++ [] :: (d.description ++ d.tags.flatMap TagLines.lines)

/-- A line as it is written between the first and the last line of a comment. -/
def starred (line : List Char) : List Char :=
  if line.isEmpty then [' ', '*'] else ' ' :: '*' :: ' ' :: line

/-- The comment as it stands in a source. -/
def render (d : CommentLines) : String :=
  String.ofList (Text.joinWith ['\n']
    (['/', '*', '*'] :: (d.lines.map starred ++ [[' ', '*', '/']])))

/-- A line stays one line and does not end in a blank. -/
structure IsLine (line : List Char) : Prop where
  unbroken : '\n' ∉ line ∧ '\r' ∉ line
  tight : ∀ c ∈ line.getLast?, Text.isBlank c = false

/-- The lines of a comment that says them as they are. Only the first line of a tag begins with an
at sign, no line of the summary but the last ends in a period, and the summary and the description
begin and end with lines that are not empty, the first of which is not indented. -/
structure IsTidy (d : CommentLines) : Prop where
  isLine : ∀ line ∈ d.lines, IsLine line
  untagged : ∀ line ∈ d.summary ++ d.description, line.head? ≠ some '@'
  summarized : d.summary ≠ []
  filled : ∀ line ∈ d.summary, line ≠ []
  unended : ∀ line ∈ d.summary.dropLast, line.getLast? ≠ some '.'
  summary_front : ∀ line ∈ d.summary.head?, ∀ c ∈ line.head?, Text.isBlank c = false
  description_front : ∀ line ∈ d.description.head?,
    line ≠ [] ∧ ∀ c ∈ line.head?, Text.isBlank c = false
  description_back : ∀ line ∈ d.description.getLast?, line ≠ []
  tags : ∀ t ∈ d.tags, t.IsTidy

instance (line : List Char) : Decidable (IsLine line) :=
  decidable_of_iff (('\n' ∉ line ∧ '\r' ∉ line) ∧ ∀ c ∈ line.getLast?, Text.isBlank c = false)
    ⟨fun ⟨unbroken, tight⟩ => ⟨unbroken, tight⟩, fun h => ⟨h.unbroken, h.tight⟩⟩

end CommentLines

namespace Text

/-! ### Lines -/

theorem isBlank_newline : ∀ c ∈ ['\n'], isBlank c = true := by decide

theorem endLine_eq_self {line : List Char} (h : line.getLast? ≠ some '\r') :
    endLine line = line := by
  rw [endLine]
  split
  · next front heq =>
    rw [← List.head?_reverse, heq] at h
    exact absurd rfl h
  · rfl

/-- The last part of a text is a line as well, unless it is empty. -/
theorem linesOfParts_append {parts : List (List Char)} {last : List Char} (hlast : last ≠ []) :
    linesOfParts (parts ++ [last]) = parts.map endLine ++ [last] := by
  induction parts with
  | nil => simp [linesOfParts, hlast]
  | cons part parts ih =>
    have hne : parts ++ [last] ≠ [] := by simp
    cases hrest : parts ++ [last] with
    | nil => exact absurd hrest hne
    | cons next rest =>
      rw [hrest] at ih
      rw [List.cons_append, hrest, linesOfParts, ih]
      · rfl
      · simp

theorem joinWith_append_nil (sep : List Char) {parts : List (List Char)} (h : parts ≠ []) :
    joinWith sep (parts ++ [[]]) = joinWith sep parts ++ sep := by
  cases parts with
  | nil => exact absurd rfl h
  | cons part parts =>
    rw [List.cons_append, joinWith_cons, joinWith_cons, List.flatMap_append]
    simp

end Text

namespace DocBlock

open Text (joinWith isBlank trim trimEnd trimStart IsTrimmed)

/-! ### Reading the lines of a comment -/

/-- The signs in front of a line are taken off again. -/
theorem bareLine_starred {line : List Char} (h : ∀ c ∈ line.getLast?, isBlank c = false) :
    bareLine (CommentLines.starred line) = line := by
  cases line with
  | nil => decide
  | cons c line =>
    have hstart : trimStart (' ' :: '*' :: ' ' :: c :: line) = '*' :: ' ' :: c :: line := by
      rw [Text.trimStart_cons_of_blank (by decide), Text.trimStart_cons_of_not_blank (by decide)]
    have hstar : Text.after? ['*'] ('*' :: ' ' :: c :: line) = some (' ' :: c :: line) := by
      simp [Text.after?, Text.startsWith]
    have hblank : Text.after? [' '] (' ' :: c :: line) = some (c :: line) := by
      simp [Text.after?, Text.startsWith]
    rw [CommentLines.starred, List.isEmpty_cons, if_neg (by decide), bareLine, hstart, hstar,
      Option.getD_some, hblank, Option.getD_some, Text.trimEnd_eq_self h]

theorem starred_getLast? {line : List Char} (h : ∀ c ∈ line.getLast?, isBlank c = false) :
    ∀ c ∈ (CommentLines.starred line).getLast?, isBlank c = false := by
  cases line with
  | nil => decide
  | cons c line => simpa [CommentLines.starred] using h

theorem newline_not_mem_starred {line : List Char} (h : '\n' ∉ line) :
    '\n' ∉ CommentLines.starred line := by
  cases line with
  | nil => decide
  | cons c line => simpa [CommentLines.starred] using h

/-- The signs at the ends of a comment are taken off once. -/
theorem dropSigns {inner : List Char} (hfront : inner.head? ≠ some '/')
    (hback : inner.getLast? ≠ some '/') :
    Text.dropTrails ['*', '/'] (Text.dropLeads ['/', '*', '*']
      (trim (['/', '*', '*'] ++ (inner ++ ['*', '/'])))) = inner := by
  have htrimmed : IsTrimmed (['/', '*', '*'] ++ (inner ++ ['*', '/'])) := by
    constructor
    · intro c hc
      obtain rfl : '/' = c := by simpa using hc
      decide
    · intro c hc
      rw [← List.append_assoc, List.getLast?_append_of_ne_nil _ (by simp)] at hc
      obtain rfl : '/' = c := by simpa using hc
      decide
  have hhead : (inner ++ ['*', '/']).head? ≠ some '/' := by
    cases inner with
    | nil => decide
    | cons c inner => exact hfront
  have hlead : Text.dropLeads ['/', '*', '*']
      ((List.replicate 1 ['/', '*', '*']).flatten ++ (inner ++ ['*', '/'])) = inner ++ ['*', '/'] :=
    Text.dropLeads_replicate (by decide) (Text.not_prefix_of_head? hhead) 1
  have hend : ¬ ['*', '/'] <:+ inner := by
    rintro ⟨front, rfl⟩
    exact hback (by simp)
  have htrail : Text.dropTrails ['*', '/']
      (inner ++ (List.replicate 1 ['*', '/']).flatten) = inner :=
    Text.dropTrails_replicate (by decide) hend 1
  rw [List.replicate_one, List.flatten_singleton] at hlead htrail
  rw [htrimmed.trim_eq, hlead, htrail]

/-- Between these signs a comment holds its lines, an empty one before them, and a blank behind the
last line break. -/
theorem toList_render (d : CommentLines) : d.render.toList = ['/', '*', '*'] ++
    (joinWith ['\n'] ([] :: (d.lines.map CommentLines.starred ++ [[' ']])) ++ ['*', '/']) := by
  rw [CommentLines.render, String.toList_ofList, Text.joinWith_cons, Text.joinWith_cons]
  simp

/-- The lines of a comment, with an empty line for what is left of each of its ends. -/
theorem bareLines_render {d : CommentLines} (hunbroken : ∀ line ∈ d.lines, '\n' ∉ line)
    (htight : ∀ line ∈ d.lines, ∀ c ∈ line.getLast?, isBlank c = false) :
    bareLines d.render.toList = [] :: (d.lines ++ [[]]) := by
  have hwhole : ∀ part ∈ d.lines.map CommentLines.starred ++ [[' ']], '\n' ∉ part := by
    intro part hpart
    rcases List.mem_append.mp hpart with hrow | hlast
    · obtain ⟨line, hline, rfl⟩ := List.mem_map.mp hrow
      exact newline_not_mem_starred (hunbroken line hline)
    · simp [List.mem_singleton.mp hlast]
  have hnil : '\n' ∉ ([] : List Char) := List.not_mem_nil
  have hsplit := Text.splitOn_joinWith hnil hnil hwhole
  have hrows : ([] :: d.lines.map CommentLines.starred).map Text.endLine =
      [] :: d.lines.map CommentLines.starred := by
    conv_rhs => rw [← List.map_id ([] :: d.lines.map CommentLines.starred)]
    refine List.map_congr_left fun row hrow => Text.endLine_eq_self fun hlast => ?_
    rcases List.mem_cons.mp hrow with rfl | hrow
    · simp at hlast
    · obtain ⟨line, hline, rfl⟩ := List.mem_map.mp hrow
      exact absurd (starred_getLast? (htight line hline) '\r' hlast) (by decide)
  have hlines : d.lines.map (bareLine ∘ CommentLines.starred) = d.lines := by
    conv_rhs => rw [← List.map_id d.lines]
    exact List.map_congr_left fun line hline => bareLine_starred (htight line hline)
  have hhead : (joinWith ['\n'] ([] :: (d.lines.map CommentLines.starred ++ [[' ']]))).head? ≠
      some '/' := by
    rw [Text.joinWith_cons]
    cases d.lines <;> simp
  have hlast : (joinWith ['\n'] ([] :: (d.lines.map CommentLines.starred ++ [[' ']]))).getLast? ≠
      some '/' := by
    have hblank : [' '] ∈ ([] :: (d.lines.map CommentLines.starred ++ [[' ']])).getLast? := by
      rw [← List.cons_append, List.getLast?_concat, Option.mem_some_iff]
    rw [Text.getLast?_joinWith _ hblank (by simp)]
    decide
  rw [bareLines, toList_render, dropSigns hhead hlast, Text.lines, hsplit]
  simp only [List.nil_append, List.map_id_fun', id_eq]
  rw [← List.cons_append, Text.linesOfParts_append (by simp), hrows, List.map_append,
    List.map_cons, List.map_map, hlines]
  rfl

/-! ### Dividing the lines -/

theorem divide_append {free : List (List Char)} (h : ∀ line ∈ free, line.head? ≠ some '@')
    (rest : List (List Char)) :
    divide (free ++ rest) = (free ++ (divide rest).1, (divide rest).2) := by
  induction free with
  | nil => rfl
  | cons line free ih =>
    obtain ⟨hline, hfree⟩ := List.forall_mem_cons.mp h
    have hbegins : beginsTag line = false := by simpa [beginsTag] using hline
    rw [List.cons_append, divide, ih hfree]
    simp only [hbegins, Bool.false_eq_true, if_false, List.cons_append]

/-- The lines of a tag, up to where the next tag begins. -/
theorem divide_tag {t : TagLines} (h : t.IsTidy) (rest : List (List Char)) :
    divide (t.lines ++ rest) =
      ([], joinWith ['\n'] (t.lines ++ (divide rest).1.map trimStart) :: (divide rest).2) := by
  have hbegins : beginsTag t.first = true := by simp [beginsTag, h.first]
  have hfree : ∀ line ∈ t.more, line.head? ≠ some '@' := fun line hline hhead =>
    (h.more line hline '@' hhead).2 rfl
  have hstart : t.more.map trimStart = t.more := by
    conv_rhs => rw [← List.map_id t.more]
    exact List.map_congr_left fun line hline =>
      Text.trimStart_eq_self fun c hc => (h.more line hline c hc).1
  rw [TagLines.lines, List.cons_append, divide, divide_append hfree]
  simp only [hbegins, if_true, List.map_append, hstart, List.cons_append]

theorem trimEnd_tagText {t : TagLines} (h : t.IsTidy)
    (htight : ∀ line ∈ t.lines, ∀ c ∈ line.getLast?, isBlank c = false) :
    trimEnd t.text = t.text := by
  have hlast : t.lines.getLast (List.cons_ne_nil t.first t.more) ∈ t.lines.getLast? :=
    List.getLast?_eq_some_getLast _
  refine Text.trimEnd_eq_self ?_
  rw [TagLines.text, Text.getLast?_joinWith _ hlast (h.last _ hlast)]
  exact htight _ (List.mem_of_getLast? hlast)

/-- Behind the tags nothing is left but the end of the comment, which the last of them takes as an
empty line, if there is one. -/
theorem divide_tags {tags : List TagLines} (h : ∀ t ∈ tags, t.IsTidy)
    (htight : ∀ line ∈ tags.flatMap TagLines.lines, ∀ c ∈ line.getLast?, isBlank c = false) :
    ((divide (tags.flatMap TagLines.lines ++ [[]])).1 = [] ∨
      (divide (tags.flatMap TagLines.lines ++ [[]])).1 = [[]]) ∧
    (divide (tags.flatMap TagLines.lines ++ [[]])).2.map trimEnd = tags.map TagLines.text := by
  induction tags with
  | nil => exact ⟨.inr rfl, rfl⟩
  | cons t tags ih =>
    obtain ⟨ht, htags⟩ := List.forall_mem_cons.mp h
    rw [List.flatMap_cons, List.forall_mem_append] at htight
    obtain ⟨hleft, htexts⟩ := ih htags htight.2
    have htrimmed := trimEnd_tagText ht htight.1
    rw [List.flatMap_cons, List.append_assoc, divide_tag ht]
    refine ⟨.inl rfl, ?_⟩
    rw [List.map_cons, List.map_cons, htexts]
    refine congrArg (· :: _) ?_
    rcases hleft with hleft | hleft
    · rw [hleft, List.map_nil, List.append_nil]
      exact htrimmed
    · have hne : t.lines ≠ [] := List.cons_ne_nil t.first t.more
      rw [hleft, List.map_singleton, Text.trimStart_nil, Text.joinWith_append_nil _ hne,
        Text.trimEnd_append Text.isBlank_newline]
      exact htrimmed

/-! ### Summary and description -/

/-- The summary ends in front of the empty line, also if its last line ends in a period. -/
theorem cutSummary_append {summary : List (List Char)} (hfilled : ∀ line ∈ summary, line ≠ [])
    (hunended : ∀ line ∈ summary.dropLast, line.getLast? ≠ some '.') (rest : List (List Char)) :
    cutSummary (summary ++ [] :: rest) = (summary, [] :: rest) := by
  induction summary with
  | nil => rfl
  | cons line summary ih =>
    obtain ⟨hline, hfilled⟩ := List.forall_mem_cons.mp hfilled
    have hempty : line.isEmpty = false := List.isEmpty_eq_false_iff.mpr hline
    rw [List.cons_append, cutSummary, hempty]
    cases summary with
    | nil =>
      by_cases hperiod : (line.getLast? == some '.') = true
      · simp [hperiod]
      · simp [hperiod, cutSummary]
    | cons next summary =>
      rw [List.dropLast_cons_cons, List.forall_mem_cons] at hunended
      have hperiod : (line.getLast? == some '.') = false := by simpa using hunended.1
      rw [ih hfilled hunended.2]
      simp only [hperiod, Bool.false_eq_true, if_false]

/-- Empty lines around a paragraph are not part of it. -/
theorem paragraph_padded {lines behind : List (List Char)}
    (h : IsTrimmed (joinWith ['\n'] lines)) (hbehind : behind = [] ∨ behind = [[]]) :
    paragraph ([] :: (lines ++ behind)) = String.ofList (joinWith ['\n'] lines) := by
  cases lines with
  | nil => rcases hbehind with rfl | rfl <;> rfl
  | cons line lines =>
    have hfront : joinWith ['\n'] ([] :: (line :: lines ++ behind)) =
        ['\n'] ++ joinWith ['\n'] (line :: lines ++ behind) := rfl
    rw [paragraph, hfront]
    rcases hbehind with rfl | rfl
    · have hnil : ∀ c ∈ ([] : List Char), isBlank c = true := by simp
      have htrim := h.trim_append_append Text.isBlank_newline hnil
      rw [List.append_nil] at htrim
      rw [List.append_nil, htrim]
    · rw [Text.joinWith_append_nil _ (List.cons_ne_nil line lines), ← List.append_assoc,
        h.trim_append_append Text.isBlank_newline Text.isBlank_newline]

/-- The free text of a comment is what stands in front of the first tag. -/
theorem divide_bareLines {d : CommentLines} (h : d.IsTidy) :
    ∃ behind tagTexts, (behind = [] ∨ behind = [[]]) ∧
      tagTexts.map trimEnd = d.tags.map TagLines.text ∧
      divide (bareLines d.render.toList) =
        ([] :: (d.summary ++ [] :: (d.description ++ behind)), tagTexts) := by
  have htight : ∀ l ∈ d.lines, ∀ c ∈ l.getLast?, isBlank c = false := fun l hl =>
    (h.isLine l hl).tight
  obtain ⟨hbehind, htexts⟩ := divide_tags h.tags fun l hl => htight l (by
    rw [CommentLines.lines]
    exact List.mem_append_right _ (List.mem_cons_of_mem _ (List.mem_append_right _ hl)))
  refine ⟨_, _, hbehind, htexts, ?_⟩
  have hfree : ∀ l ∈ [] :: (d.summary ++ [] :: d.description), l.head? ≠ some '@' := by
    obtain ⟨hsummary, hdescription⟩ := List.forall_mem_append.mp h.untagged
    simp only [List.forall_mem_cons, List.forall_mem_append]
    exact ⟨by simp, hsummary, by simp, hdescription⟩
  have hsplit : [] :: (d.lines ++ [[]]) = ([] :: (d.summary ++ [] :: d.description)) ++
      (d.tags.flatMap TagLines.lines ++ [[]]) := by simp [CommentLines.lines]
  rw [bareLines_render (fun l hl => (h.isLine l hl).unbroken.1) htight, hsplit,
    divide_append hfree]
  simp

/-- A comment that is written from tidy lines is read with these lines as its summary, as its
description and as the texts of its tags. -/
theorem parse_render {d : CommentLines} (h : d.IsTidy) (line : Nat) :
    parse d.render line =
      { summary := String.ofList (joinWith ['\n'] d.summary)
        description := String.ofList (joinWith ['\n'] d.description)
        tags := (d.tags.filterMap fun t => Tag.parse? t.text).foldl Tags.push {}
        line := line } := by
  obtain ⟨behind, tagTexts, hbehind, htexts, hdivide⟩ := divide_bareLines h
  have hsummary : IsTrimmed (joinWith ['\n'] d.summary) := Text.isTrimmed_joinWith _
    (fun l hl => ⟨h.filled l (List.mem_of_mem_head? hl), h.summary_front l hl⟩)
    (fun l hl => ⟨h.filled l (List.mem_of_getLast? hl), (h.isLine l (by
      simp [CommentLines.lines, List.mem_of_getLast? hl])).tight⟩)
  have hdescription : IsTrimmed (joinWith ['\n'] d.description) := Text.isTrimmed_joinWith _
    h.description_front
    (fun l hl => ⟨h.description_back l hl, (h.isLine l (by
      simp [CommentLines.lines, List.mem_of_getLast? hl])).tight⟩)
  have hdrop : ([] :: (d.summary ++ [] :: (d.description ++ behind))).dropWhile List.isEmpty =
      d.summary ++ [] :: (d.description ++ behind) := by
    obtain ⟨first, rest, hcons⟩ := List.exists_cons_of_ne_nil h.summarized
    have hfirst : first.isEmpty = false :=
      List.isEmpty_eq_false_iff.mpr (h.filled first (hcons ▸ List.mem_cons_self))
    rw [hcons, List.cons_append, List.dropWhile_cons_of_pos rfl,
      List.dropWhile_cons_of_neg (by simp [hfirst])]
  have htags : (tagTexts.filterMap fun t => Tag.parse? (trimEnd t)) =
      d.tags.filterMap fun t => Tag.parse? t.text := by
    have hmaps := congrArg (List.filterMap Tag.parse?) htexts
    rwa [List.filterMap_map, List.filterMap_map] at hmaps
  rw [parse, hdivide]
  simp only [hdrop, cutSummary_append h.filled h.unended, paragraph_padded hdescription hbehind,
    htags]
  rw [paragraph, hsummary.trim_eq]

/-- A comment with an indented line, an empty line and periods within its parts, and a tag that goes
on behind an empty line. -/
def invoiceComment : CommentLines where
  summary := ["Sends the invoice".toList, "  by mail.".toList]
  description := ["Two cases.".toList, [], "  * @todo none".toList]
  tags := [⟨"@see Mailer to".toList, [[], "send it".toList]⟩, ⟨"@internal".toList, []⟩]

theorem invoiceComment_isTidy : invoiceComment.IsTidy where
  isLine := by decide
  untagged := by decide
  summarized := by decide
  filled := by decide
  unended := by decide
  summary_front := by decide
  description_front := by decide
  description_back := by decide
  tags := by decide

theorem parse_render_invoice : invoiceComment.IsTidy ∧ parse invoiceComment.render 4 =
    { summary := "Sends the invoice\n  by mail."
      description := "Two cases.\n\n  * @todo none"
      tags := ([⟨"see", "to\n\nsend it", .reference ⟨"Mailer", none⟩⟩,
        ⟨"internal", "", .plain⟩] : List Tag).foldl Tags.push {}
      line := 4 } :=
  ⟨invoiceComment_isTidy, (parse_render invoiceComment_isTidy 4).trans (by decide +kernel)⟩

end DocBlock

end ApiDoc
