import ApiDoc.Proofs.Positions
import ApiDoc.Proofs.Seams
import ApiDoc.Proofs.Words

/-!
# What a scan for inline tags reports

`InlineTag.IsWritten` is the grammar of inline tags, and `Found.StandsIn` says that a tag of this
grammar is the part of a text between two byte positions. Main statement: a scan reports such tags
in the order of the text, none within another, and no tag starts outside of what it reports. So each
one that it reports starts at the first place, behind those before it, where a tag starts at all.
-/

namespace ApiDoc

namespace InlineTag

/-! ### Braces -/

/-- Text in which every brace has its partner. -/
inductive Matched : List Char → Prop
  | nil : Matched []
  | char {c : Char} {rest : List Char} :
    c ≠ '{' → c ≠ '}' → Matched rest → Matched (c :: rest)
  | group {inner rest : List Char} :
    Matched inner → Matched rest → Matched ('{' :: (inner ++ '}' :: rest))

/-- Text in which every opening brace has its partner, and every closing brace but as many as there
are groups to close. -/
def Closes : Nat → List Char → Prop
  | 0, cs => Matched cs
  | depth + 1, cs =>
    ∃ inner outer, cs = inner ++ '}' :: outer ∧ Matched inner ∧ Closes depth outer

namespace Matched

variable {a b : List Char}

theorem append (ha : Matched a) (hb : Matched b) : Matched (a ++ b) := by
  induction ha with
  | nil => exact hb
  | char hopen hclose _ ih => exact .char hopen hclose ih
  | group hinner _ _ ih =>
    rw [List.cons_append, List.append_assoc, List.cons_append]
    exact .group hinner ih

theorem append_closes (ha : Matched a) {depth : Nat} (hb : Closes depth b) :
    Closes depth (a ++ b) := by
  cases depth with
  | zero => exact ha.append hb
  | succ depth =>
    obtain ⟨inner, outer, rfl, hinner, houter⟩ := hb
    exact ⟨a ++ inner, outer, by rw [List.append_assoc], ha.append hinner, houter⟩

/-- Matched text does not close what is open in front of it. -/
theorem untilClose_append (ha : Matched a) (depth : Nat) (rest : List Char) :
    untilClose depth (a ++ rest) = (untilClose depth rest).map (a ++ ·) := by
  induction ha generalizing depth rest with
  | nil => simp
  | @char c a hopen hclose _ ih =>
    have hread : untilClose depth (c :: (a ++ rest)) =
        (untilClose depth (a ++ rest)).map (c :: ·) := by rw [untilClose] <;> assumption
    rw [List.cons_append, hread, ih, Option.map_map]
    rfl
  | @group inner outer _ _ ihinner ihouter =>
    have hopen (cs : List Char) : untilClose depth ('{' :: cs) =
        (untilClose (depth + 1) cs).map ('{' :: ·) := by rw [untilClose]
    have hclose (cs : List Char) : untilClose (depth + 1) ('}' :: cs) =
        (untilClose depth cs).map ('}' :: ·) := by rw [untilClose]
    rw [List.cons_append, List.append_assoc, List.cons_append, hopen, ihinner, hclose, ihouter]
    simp only [Option.map_map]
    congr 1
    funext cs
    simp

end Matched

/-- What is read up to a closing brace leaves as many groups open as were open before. -/
theorem closes_of_untilClose {depth : Nat} {cs body : List Char}
    (h : untilClose depth cs = some body) : Closes depth body := by
  fun_induction untilClose depth cs generalizing body with
  | case1 => simp at h
  | case2 depth rest ih =>
    obtain ⟨read, hread, rfl⟩ := Option.map_eq_some_iff.mp h
    obtain ⟨inner, outer, rfl, hinner, houter⟩ := ih hread
    have hgroup : Matched ('{' :: (inner ++ '}' :: [])) := .group hinner .nil
    simpa using hgroup.append_closes houter
  | case3 rest =>
    obtain rfl : [] = body := by simpa using h
    exact Matched.nil
  | case4 rest outer ih =>
    obtain ⟨read, hread, rfl⟩ := Option.map_eq_some_iff.mp h
    exact ⟨[], read, rfl, .nil, ih hread⟩
  | case5 depth c rest hopen hclose ih =>
    obtain ⟨read, hread, rfl⟩ := Option.map_eq_some_iff.mp h
    have hchar : Matched [c] := .char hopen hclose .nil
    exact hchar.append_closes (ih hread)

/-- Reading up to a closing brace is reading matched text that this brace follows. -/
theorem untilClose_eq_some_iff {cs body : List Char} :
    untilClose 0 cs = some body ↔ Matched body ∧ body ++ ['}'] <+: cs := by
  constructor
  · intro h
    obtain ⟨⟨rest, rfl⟩, -⟩ := append_of_untilClose h
    exact ⟨closes_of_untilClose h, rest, by simp⟩
  · rintro ⟨hbody, rest, rfl⟩
    rw [List.append_assoc, hbody.untilClose_append]
    simp [untilClose]

/-- Gaps hold no braces, so they may be taken off matched text and put in front of it. -/
theorem Matched.dropWhile_isGap {cs : List Char} (h : Matched cs) :
    Matched (cs.dropWhile isGap) := by
  induction h with
  | nil => exact .nil
  | @char c rest hopen hclose hrest ih =>
    cases hgap : isGap c with
    | true => simpa [hgap] using ih
    | false => simpa [hgap] using Matched.char hopen hclose hrest
  | @group inner rest hinner hrest _ _ =>
    have hgap : isGap '{' = false := by decide
    simpa [hgap] using Matched.group hinner hrest

theorem Matched.of_isGap {cs : List Char} (h : ∀ c ∈ cs, isGap c = true) : Matched cs := by
  induction cs with
  | nil => exact .nil
  | cons c cs ih =>
    obtain ⟨hc, hcs⟩ := List.forall_mem_cons.mp h
    refine .char ?_ ?_ (ih hcs)
    · rintro rfl
      exact absurd hc (by decide)
    · rintro rfl
      exact absurd hc (by decide)

/-! ### The grammar of tags -/

/-- The characters of a name: Latin letters, digits, underscores and hyphens. -/
def IsNameLetter (c : Char) : Prop :=
  ('A' ≤ c ∧ c ≤ 'Z') ∨ ('a' ≤ c ∧ c ≤ 'z') ∨ ('0' ≤ c ∧ c ≤ '9') ∨ c = '_' ∨ c = '-'

theorem isNameChar_iff {c : Char} : isNameChar c = true ↔ IsNameLetter c := by
  simp only [isNameChar, IsNameLetter, Bool.or_eq_true, Text.isAlphanum_iff, beq_iff_eq, or_assoc]

theorem isGap_iff {c : Char} : isGap c = true ↔ c = ' ' ∨ c = '\t' ∨ c = '\r' ∨ c = '\n' := by
  simp [isGap, or_assoc]

/-- A name: at least one letter. -/
structure IsName (cs : List Char) : Prop where
  nonempty : cs ≠ []
  letters : ∀ c ∈ cs, IsNameLetter c

/-- The grammar of tags. Behind `{@` and a name stands the closing brace, or a space, a tab, a
carriage return or a newline and then matched text up to the closing brace; that text without the
blanks at its ends is the argument. What follows the name is no letter, so the name is all letters
from the at sign on. -/
inductive IsWritten : InlineTag → Prop
  | bare {name : List Char} : IsName name →
    IsWritten ⟨String.ofList name, "", '{' :: '@' :: (name ++ ['}'])⟩
  | full {name body : List Char} {gap : Char} : IsName name →
    gap = ' ' ∨ gap = '\t' ∨ gap = '\r' ∨ gap = '\n' → Matched body →
    IsWritten ⟨String.ofList name, String.ofList (Text.trim body),
      '{' :: '@' :: (name ++ gap :: (body ++ ['}']))⟩

theorem IsName.isNameChar {name : List Char} (h : IsName name) :
    ∀ c ∈ name, isNameChar c = true := fun c hc => isNameChar_iff.mpr (h.letters c hc)

theorem IsName.isEmpty {name : List Char} (h : IsName name) : name.isEmpty = false :=
  List.isEmpty_eq_false_iff.mpr h.nonempty

theorem isName_takeWhile {cs : List Char} (h : (cs.takeWhile isNameChar).isEmpty = false) :
    IsName (cs.takeWhile isNameChar) where
  nonempty := List.isEmpty_eq_false_iff.mp h
  letters _ hc := isNameChar_iff.mp (List.mem_takeWhile_imp hc)

/-- Gaps in front of an argument are blanks. -/
theorem trim_dropWhile_isGap (cs : List Char) : Text.trim (cs.dropWhile isGap) = Text.trim cs := by
  have hblank : ∀ c ∈ cs.takeWhile isGap, Text.isBlank c = true := fun c hc =>
    (Compile.of_isGap (List.mem_takeWhile_imp hc)).1
  have hstart : Text.trimStart cs = Text.trimStart (cs.dropWhile isGap) := by
    conv_lhs => rw [← List.takeWhile_append_dropWhile (p := isGap) (l := cs)]
    exact List.dropWhile_append_of_pos hblank
  rw [Text.trim, Text.trim, hstart]

/-- Behind a name stands the closing brace, or a gap and matched text up to the closing brace. -/
theorem bodyAt_eq_some_iff {cs gap body : List Char} : bodyAt cs = some (gap, body) ↔
    (∃ rest, cs = '}' :: rest ∧ gap = [] ∧ body = []) ∨
      ∃ c text rest, isGap c = true ∧ cs = c :: (text ++ '}' :: rest) ∧ Matched text ∧
        gap = c :: text.takeWhile isGap ∧ body = text.dropWhile isGap := by
  have hbrace : isGap '}' = false := by decide
  constructor
  · intro h
    cases cs with
    | nil => simp [bodyAt] at h
    | cons c cs =>
      rw [bodyAt] at h
      split at h
      case isFalse => simp at h
      case isTrue hfirst =>
        obtain ⟨read, hread, heq⟩ := Option.map_eq_some_iff.mp h
        obtain ⟨rfl, rfl⟩ := Prod.mk.inj heq
        cases hgap : isGap c with
        | false =>
          obtain rfl : c = '}' := by simpa [hgap] using hfirst
          simp only [List.dropWhile_cons, hbrace, Bool.false_eq_true, if_false, untilClose,
            Option.some.injEq] at hread
          exact .inl ⟨cs, rfl, by simp [hbrace], hread.symm⟩
        | true =>
          rw [List.dropWhile_cons_of_pos hgap, untilClose_eq_some_iff] at hread
          obtain ⟨hmatched, rest, hrest⟩ := hread
          have hstop : ∀ x ∈ read.head?, isGap x = false := fun x hx =>
            head?_dropWhile cs x (by rw [← hrest]; cases read <;> simp_all)
          have hgaps : ∀ x ∈ cs.takeWhile isGap, isGap x = true := fun x hx =>
            List.mem_takeWhile_imp hx
          obtain ⟨htake, hdrop⟩ := span_eq hgaps hstop
          refine .inr ⟨c, cs.takeWhile isGap ++ read, rest, hgap, ?_, ?_, ?_, hdrop.symm⟩
          · have hsplit := List.takeWhile_append_dropWhile (p := isGap) (l := cs)
            rw [← hrest] at hsplit
            conv_lhs => rw [← hsplit]
            simp
          · exact (Matched.of_isGap hgaps).append hmatched
          · rw [List.takeWhile_cons_of_pos hgap, htake]
  · rintro (⟨rest, rfl, rfl, rfl⟩ | ⟨c, text, rest, hgap, rfl, htext, rfl, rfl⟩)
    · simp [bodyAt, hbrace, untilClose]
    · obtain ⟨htake, hdrop⟩ := span_stop hbrace text rest
      have hread : untilClose 0 (text.dropWhile isGap ++ '}' :: rest) =
          some (text.dropWhile isGap) :=
        untilClose_eq_some_iff.mpr ⟨htext.dropWhile_isGap, rest, by simp⟩
      rw [bodyAt, if_pos (by rw [hgap, Bool.or_true]), List.takeWhile_cons_of_pos hgap,
        List.dropWhile_cons_of_pos hgap, htake, hdrop, hread, Option.map_some]

theorem head?_of_bodyAt {cs gap body : List Char} (h : bodyAt cs = some (gap, body)) :
    ∀ x ∈ cs.head?, isNameChar x = false := by
  rcases bodyAt_eq_some_iff.mp h with ⟨rest, rfl, -, -⟩ | ⟨c, text, rest, hgap, rfl, -⟩
  · simp [show isNameChar '}' = false by decide]
  · simp [(Compile.of_isGap hgap).2]

/-! ### Reading one tag -/

/-- A name and what is read behind it make a tag. -/
theorem at?_append_name {name rest gap body : List Char} (hname : IsName name)
    (h : bodyAt rest = some (gap, body)) : at? ('@' :: (name ++ rest)) =
      some (⟨String.ofList name, String.ofList (Text.trim body),
        '{' :: '@' :: (name ++ (gap ++ (body ++ ['}'])))⟩,
          name.length + gap.length + body.length + 2) := by
  obtain ⟨htake, hdrop⟩ := span_eq hname.isNameChar (head?_of_bodyAt h)
  obtain ⟨⟨more, hrest⟩, -⟩ := append_of_bodyAt h
  have hraw : ('@' :: (name ++ rest)).take (name.length + gap.length + body.length + 2) =
      '@' :: (name ++ (gap ++ (body ++ ['}']))) := by
    rw [hrest, show '@' :: (name ++ (gap ++ body ++ '}' :: more)) =
      '@' :: (name ++ (gap ++ (body ++ ['}']))) ++ more by simp]
    refine List.take_left' ?_
    simp only [List.length_cons, List.length_append, List.length_nil]
    omega
  simp only [at?, htake, hdrop, hname.isEmpty, h, hraw, Bool.false_eq_true, if_false,
    Option.map_some]

/-- It does not matter that all gaps in front of an argument are read before the argument. -/
theorem parted_eq (name body : List Char) (gap : Char) :
    (⟨String.ofList name, String.ofList (Text.trim (body.dropWhile isGap)), '{' :: '@' ::
      (name ++ (gap :: body.takeWhile isGap ++ (body.dropWhile isGap ++ ['}'])))⟩ : InlineTag) =
    ⟨String.ofList name, String.ofList (Text.trim body),
      '{' :: '@' :: (name ++ gap :: (body ++ ['}']))⟩ := by
  rw [trim_dropWhile_isGap, List.cons_append, ← List.append_assoc (body.takeWhile isGap),
    List.takeWhile_append_dropWhile]

/-- Where the text of a tag of the grammar stands, this tag is read. -/
theorem at?_of_isWritten {t : InlineTag} (h : t.IsWritten) {rest more : List Char}
    (hrest : '{' :: rest = t.raw ++ more) : ∃ width, at? rest = some (t, width) := by
  cases h with
  | @bare name hname =>
    obtain rfl : rest = '@' :: (name ++ '}' :: more) := by simpa using hrest
    have hbody := bodyAt_eq_some_iff.mpr (.inl ⟨more, rfl, rfl, rfl⟩)
    exact ⟨_, at?_append_name hname hbody⟩
  | @full name body gap hname hgap hbody =>
    obtain rfl : rest = '@' :: (name ++ gap :: (body ++ '}' :: more)) := by simpa using hrest
    have hread := bodyAt_eq_some_iff.mpr
      (.inr ⟨gap, body, more, isGap_iff.mpr hgap, rfl, hbody, rfl, rfl⟩)
    have htag := at?_append_name hname hread
    rw [parted_eq] at htag
    exact ⟨_, htag⟩

/-- A tag that is read is one of the grammar. -/
theorem isWritten_of_at? {cs : List Char} {t : InlineTag} {width : Nat}
    (h : at? cs = some (t, width)) : t.IsWritten := by
  have hread := h
  unfold at? at h
  split at h
  case h_2 => simp at h
  case h_1 rest =>
    simp only at h
    split at h
    case isTrue => simp at h
    case isFalse hempty =>
      obtain ⟨⟨gap, body⟩, hbody, -⟩ := Option.map_eq_some_iff.mp h
      have hname := isName_takeWhile (Bool.eq_false_iff.mpr hempty)
      rw [← List.takeWhile_append_dropWhile (p := isNameChar) (l := rest),
        at?_append_name hname hbody] at hread
      obtain ⟨rfl, -⟩ := Prod.mk.inj (Option.some.inj hread)
      rcases bodyAt_eq_some_iff.mp hbody with
        ⟨more, -, rfl, rfl⟩ | ⟨c, text, more, hgap, -, htext, rfl, rfl⟩
      · exact .bare hname
      · rw [parted_eq]
        exact .full hname (isGap_iff.mp hgap) htext

/-! ### Places of tags -/

/-- A tag of the grammar is the part of a text between two byte positions. -/
structure Found.StandsIn (text : String) (found : Found) : Prop where
  written : found.tag.IsWritten
  placed : ∃ front back : String, text = front ++ String.ofList found.tag.raw ++ back ∧
    found.start = front.utf8ByteSize ∧
    found.stop = (front ++ String.ofList found.tag.raw).utf8ByteSize

/-- A position is covered by a tag that starts there or before, and ends behind it. -/
def Found.Covers (found : Found) (position : Nat) : Prop :=
  found.start ≤ position ∧ position < found.stop

/-- The tags of pieces lie side by side, from the offset of the first piece on. -/
theorem pairwise_foundFrom (offset : Nat) (pieces : List Segment) :
    (∀ found ∈ foundFrom offset pieces, offset ≤ found.start ∧
      found.stop = found.start + byteLength found.tag.raw) ∧
    (foundFrom offset pieces).Pairwise fun found later => found.stop ≤ later.start := by
  induction pieces generalizing offset with
  | nil => simp [foundFrom]
  | cons p rest ih =>
    cases p with
    | char c =>
      obtain ⟨hall, hpairs⟩ := ih (offset + c.utf8Size)
      refine ⟨fun found hfound => ?_, hpairs⟩
      obtain ⟨hstart, hstop⟩ := hall found hfound
      exact ⟨by omega, hstop⟩
    | tag t =>
      obtain ⟨hall, hpairs⟩ := ih (offset + byteLength t.raw)
      refine ⟨List.forall_mem_cons.mpr ⟨⟨le_rfl, rfl⟩, fun found hfound => ?_⟩,
        List.pairwise_cons.mpr ⟨fun found hfound => (hall found hfound).1, hpairs⟩⟩
      obtain ⟨hstart, hstop⟩ := hall found hfound
      exact ⟨by omega, hstop⟩

theorem byteLength_pos {cs : List Char} (h : cs ≠ []) : 0 < byteLength cs := by
  cases cs with
  | nil => exact absurd rfl h
  | cons c cs => exact Nat.lt_of_lt_of_le c.utf8Size_pos (Nat.le_add_right _ _)

/-- Of two texts at the front of one, the one with fewer bytes is at the front of the other. -/
theorem prefix_of_byteLength_le {a b cs : List Char} (ha : a <+: cs) (hb : b <+: cs)
    (hle : byteLength a ≤ byteLength b) : a <+: b := by
  rcases List.prefix_or_prefix_of_prefix ha hb with h | ⟨more, rfl⟩
  · exact h
  · rw [byteLength_append] at hle
    cases more with
    | nil => simp
    | cons c more =>
      have hpos := byteLength_pos (List.cons_ne_nil c more)
      omega

theorem IsWritten.exists_raw {t : InlineTag} (h : t.IsWritten) : ∃ more, t.raw = '{' :: more := by
  cases h <;> exact ⟨_, rfl⟩

/-- No tag starts at a character that is a piece of its own, so where a tag starts, one is found
that starts there or before, and ends behind it. -/
theorem exists_covers {cs front : List Char} {t : InlineTag} (ht : t.IsWritten)
    (hfront : front ++ t.raw <+: cs) (offset : Nat) :
    ∃ found ∈ foundFrom offset (Segment.ofChars cs),
      found.Covers (offset + byteLength front) := by
  obtain ⟨more, hraw⟩ := ht.exists_raw
  fun_induction Segment.ofChars cs generalizing offset front with
  | case1 => simp [hraw] at hfront
  | case2 c rest u width hat ih =>
    split at hat
    case isFalse => simp at hat
    case isTrue hc =>
      obtain rfl : c = '{' := by simpa using hc
      have hwhole : u.raw ++ rest.drop width = '{' :: rest := by
        rw [raw_of_at? hat, List.cons_append, List.take_append_drop]
      by_cases hinside : byteLength front < byteLength u.raw
      · exact ⟨_, List.mem_cons_self, Nat.le_add_right _ _, Nat.add_lt_add_left hinside _⟩
      · -- the place is behind the tag, so the tag is a part of the text in front of the place
        obtain ⟨behind, rfl⟩ := prefix_of_byteLength_le ⟨rest.drop width, hwhole⟩
          ((List.prefix_append _ _).trans hfront) (Nat.le_of_not_lt hinside)
        rw [← hwhole, List.append_assoc, List.prefix_append_right_inj] at hfront
        obtain ⟨found, hfound, hcovers⟩ := ih hfront (offset + byteLength u.raw)
        rw [byteLength_append, ← Nat.add_assoc]
        exact ⟨found, List.mem_cons_of_mem _ hfound, hcovers⟩
  | case3 c rest hat ih =>
    cases front with
    | nil =>
      obtain ⟨behind, hbehind⟩ := hfront
      obtain rfl : '{' = c := by simpa [hraw] using (congrArg List.head? hbehind)
      obtain ⟨width, hread⟩ := at?_of_isWritten ht hbehind.symm
      simp [hread] at hat
    | cons d front =>
      obtain ⟨rfl, hrest⟩ := List.cons_prefix_cons.mp hfront
      obtain ⟨found, hfound, hcovers⟩ := ih hrest (offset + d.utf8Size)
      refine ⟨found, hfound, ?_⟩
      rwa [show byteLength (d :: front) = d.utf8Size + byteLength front from rfl, ← Nat.add_assoc]

theorem isWritten_of_mem_ofChars {cs : List Char} {t : InlineTag}
    (h : .tag t ∈ Segment.ofChars cs) : t.IsWritten := by
  obtain ⟨rest, width, hread⟩ := at?_of_mem_ofChars h
  exact isWritten_of_at? hread

/-- What a scan reports stands in the text. -/
theorem standsIn_of_mem_scan {text : String} {found : Found} (h : found ∈ scan text) :
    found.StandsIn text := by
  obtain ⟨front, back, hpieces, hstart⟩ := exists_split_of_mem_foundFrom h
  have htext := flatMap_raw_ofChars text.toList
  rw [← segments, hpieces] at htext
  have hmem : .tag found.tag ∈ Segment.ofChars text.toList := by
    rw [← segments, hpieces]
    simp
  refine ⟨isWritten_of_mem_ofChars hmem, String.ofList (front.flatMap Segment.raw),
    String.ofList (back.flatMap Segment.raw), ?_, ?_, ?_⟩
  · rw [← String.toList_inj, ← htext]
    simp [Segment.raw]
  · rw [hstart, Nat.zero_add, byteLength_eq]
  · have hstop := ((pairwise_foundFrom 0 (segments text)).1 found h).2
    rw [hstop, hstart, String.utf8ByteSize_append, ← byteLength_eq, ← byteLength_eq, Nat.zero_add]

/-- Where a tag starts, the scan reports one that starts there or before, and ends behind it. -/
theorem exists_covers_of_standsIn {text : String} {other : Found} (h : other.StandsIn text) :
    ∃ found ∈ scan text, found.Covers other.start := by
  obtain ⟨hwritten, front, back, htext, hstart, -⟩ := h
  have hfront : front.toList ++ other.tag.raw <+: text.toList := ⟨back.toList, by rw [htext]; simp⟩
  obtain ⟨found, hfound, hcovers⟩ := exists_covers hwritten hfront 0
  rw [Nat.zero_add, byteLength_eq, String.ofList_toList, ← hstart] at hcovers
  exact ⟨found, hfound, hcovers⟩

theorem Found.StandsIn.bounds {text : String} {found : Found} (h : found.StandsIn text) :
    found.start < found.stop ∧ found.stop ≤ text.utf8ByteSize := by
  obtain ⟨hwritten, front, back, rfl, hstart, hstop⟩ := h
  obtain ⟨more, hraw⟩ := hwritten.exists_raw
  have hpos : 0 < byteLength found.tag.raw := byteLength_pos (by simp [hraw])
  rw [byteLength_eq] at hpos
  rw [String.utf8ByteSize_append] at hstop
  rw [String.utf8ByteSize_append, String.utf8ByteSize_append]
  omega

/-- A scan reports tags of the grammar where they stand in the text, one behind the other. A tag of
the grammar that stands in the text starts within one of them. Each of them starts at the first
place that is not covered by those before it and where a tag starts. -/
theorem scan_outermost (text : String) :
    (∀ found ∈ scan text, found.StandsIn text ∧ found.start < found.stop ∧
      found.stop ≤ text.utf8ByteSize) ∧
    (scan text).Pairwise (fun found later => found.stop ≤ later.start) ∧
    (∀ other : Found, other.StandsIn text → ∃ found ∈ scan text, found.Covers other.start) ∧
    ∀ before found behind, scan text = before ++ found :: behind →
      (∀ earlier ∈ before, ¬ earlier.Covers found.start) ∧
      ∀ other : Found, other.StandsIn text →
        (∀ earlier ∈ before, ¬ earlier.Covers other.start) → found.start ≤ other.start := by
  have hpairs := (pairwise_foundFrom 0 (segments text)).2
  refine ⟨fun found hfound => ⟨standsIn_of_mem_scan hfound, (standsIn_of_mem_scan hfound).bounds⟩,
    hpairs, fun other => exists_covers_of_standsIn, fun before found behind hscan => ?_⟩
  rw [← scan, hscan, List.pairwise_append, List.pairwise_cons] at hpairs
  obtain ⟨-, ⟨hlater, -⟩, hbefore⟩ := hpairs
  constructor
  · intro earlier hearlier hcovers
    exact absurd hcovers.2 (Nat.not_lt.mpr (hbefore earlier hearlier found List.mem_cons_self))
  · intro other hother huncovered
    obtain ⟨outer, houter, hcovers⟩ := exists_covers_of_standsIn hother
    rw [hscan] at houter
    rcases List.mem_append.mp houter with hin | hin
    · exact absurd hcovers (huncovered outer hin)
    · rcases List.mem_cons.mp hin with rfl | hin
      · exact hcovers.1
      · have hbounds := (standsIn_of_mem_scan (hscan ▸ List.mem_append_right _
          List.mem_cons_self : found ∈ scan text)).bounds
        exact (Nat.le_of_lt hbounds.1).trans ((hlater outer hin).trans hcovers.1)

end InlineTag

end ApiDoc
