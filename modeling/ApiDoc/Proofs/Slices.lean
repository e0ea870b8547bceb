import ApiDoc.Proofs.Scanning

/-!
# Parts of a text by byte positions

`Text.slice?` cuts a part out of a text. It has no result if the positions are not in order, behind
the end of the text or within a character (`Text.slice?_eq_some_iff`). The tokens of a source spell
it out up to what follows the last of them (`Token.Spells`): the source text of tokens in a row is
the part between the start of the first and the end of the last.
-/

namespace ApiDoc

open InlineTag (byteLength byteLength_eq byteLength_append prefix_of_byteLength_le)

namespace Text

/-- The part of a text between two byte positions. They have to be in order, within the text and
between its characters. -/
def slice? (s : String) (start stop : Nat) : Option String := do
  let slice ← s.slice? (← s.pos? ⟨start⟩) (← s.pos? ⟨stop⟩)
  some slice.copy

theorem pos?_eq {s : String} {offset : Nat} (h : String.Pos.Raw.IsValid s ⟨offset⟩) :
    s.pos? ⟨offset⟩ = some (s.pos ⟨offset⟩ h) := by
  have hslice : String.Pos.Raw.isValidForSlice s.toSlice ⟨offset⟩ = true :=
    String.Pos.Raw.isValidForSlice_eq_true_iff.mpr h.toSlice
  rw [String.pos?, String.Slice.pos?, dif_pos hslice]
  rfl

theorem slice?_append (front mid back : String) :
    slice? (front ++ mid ++ back) front.utf8ByteSize (front ++ mid).utf8ByteSize = some mid := by
  have hstart : String.Pos.Raw.IsValid (front ++ mid ++ back) ⟨front.utf8ByteSize⟩ :=
    String.Pos.Raw.isValid_iff_exists_append.mpr
      ⟨front, mid ++ back, by rw [String.append_assoc], rfl⟩
  have hstop : String.Pos.Raw.IsValid (front ++ mid ++ back) ⟨(front ++ mid).utf8ByteSize⟩ :=
    String.Pos.Raw.isValid_iff_exists_append.mpr ⟨front ++ mid, back, rfl, rfl⟩
  have hle : (front ++ mid ++ back).pos _ hstart ≤ (front ++ mid ++ back).pos _ hstop := by
    rw [String.Pos.le_iff, String.Pos.Raw.le_iff]
    simp
  have hfront : front.toByteArray.extract front.toByteArray.size
      (front.toByteArray.size + mid.toByteArray.size) = ByteArray.empty := by
    rw [ByteArray.extract_eq_empty_iff]
    omega
  rw [slice?, pos?_eq hstart, pos?_eq hstop]
  simp only [Option.bind_eq_bind, Option.bind_some, String.slice?, dif_pos hle]
  rw [Option.some_inj, ← String.toByteArray_inj, String.Slice.toByteArray_copy]
  simp [ByteArray.extract_append, ← String.size_toByteArray, hfront]

theorem isValid_of_pos? {s : String} {offset : Nat} {p : s.Pos} (h : s.pos? ⟨offset⟩ = some p) :
    String.Pos.Raw.IsValid s ⟨offset⟩ ∧ p.offset = ⟨offset⟩ := by
  rw [String.pos?, String.Slice.pos?] at h
  split at h
  · next hslice =>
    rw [String.Pos.Raw.isValidForSlice_eq_true_iff] at hslice
    obtain rfl := Option.some.inj h
    exact ⟨String.Pos.Raw.isValidForSlice_toSlice_iff.mp hslice, rfl⟩
  · cases h

/-- Where a part is cut out, the positions are in order and none is within a character. -/
theorem bounds_of_slice? {s part : String} {start stop : Nat}
    (h : slice? s start stop = some part) :
    String.Pos.Raw.IsValid s ⟨start⟩ ∧ String.Pos.Raw.IsValid s ⟨stop⟩ ∧ start ≤ stop := by
  simp only [slice?, Option.bind_eq_bind, Option.bind_eq_some_iff] at h
  obtain ⟨p, hp, q, hq, slice, hslice, -⟩ := h
  obtain ⟨hstart, hpOffset⟩ := isValid_of_pos? hp
  obtain ⟨hstop, hqOffset⟩ := isValid_of_pos? hq
  refine ⟨hstart, hstop, ?_⟩
  rw [String.slice?] at hslice
  split at hslice
  · next hle =>
    rw [String.Pos.le_iff, hpOffset, hqOffset] at hle
    exact hle
  · cases hslice

/-- A part is cut out just if the positions are those of its two ends. -/
theorem slice?_eq_some_iff {s part : String} {start stop : Nat} :
    slice? s start stop = some part ↔ ∃ front back, s = front ++ part ++ back ∧
      start = front.utf8ByteSize ∧ stop = (front ++ part).utf8ByteSize := by
  constructor
  · intro h
    obtain ⟨hstart, hstop, hle⟩ := bounds_of_slice? h
    obtain ⟨front, rest, hs, hfront⟩ := String.Pos.Raw.isValid_iff_exists_append.mp hstart
    obtain ⟨long, back, hs', hlong⟩ := String.Pos.Raw.isValid_iff_exists_append.mp hstop
    obtain rfl : start = front.utf8ByteSize := congrArg String.Pos.Raw.byteIdx hfront
    obtain rfl : stop = long.utf8ByteSize := congrArg String.Pos.Raw.byteIdx hlong
    have hfrontOf : front.toList <+: s.toList := ⟨rest.toList, by rw [hs, String.toList_append]⟩
    have hlongOf : long.toList <+: s.toList := ⟨back.toList, by rw [hs', String.toList_append]⟩
    have hprefix : front.toList <+: long.toList := prefix_of_byteLength_le hfrontOf hlongOf <| by
      rwa [byteLength_eq, byteLength_eq, String.ofList_toList, String.ofList_toList]
    obtain ⟨mid, hmid⟩ := hprefix
    have hparts : long = front ++ String.ofList mid := by
      rw [← String.toList_inj, ← hmid, String.toList_append, String.toList_ofList]
    obtain rfl : String.ofList mid = part := by
      have hslice := slice?_append front (String.ofList mid) back
      rw [← hparts, ← hs', h] at hslice
      exact (Option.some.inj hslice).symm
    exact ⟨front, back, by rw [← hparts, hs'], rfl, by rw [hparts]⟩
  · rintro ⟨front, back, rfl, rfl, rfl⟩
    exact slice?_append front part back

/-- The same by characters. -/
theorem slice?_of_toList {s : String} {front mid back : List Char}
    (h : s.toList = front ++ mid ++ back) :
    slice? s (byteLength front) (byteLength (front ++ mid)) = some (String.ofList mid) := by
  have hs : s = String.ofList front ++ String.ofList mid ++ String.ofList back := by
    rw [← String.toList_inj, h]
    simp
  rw [byteLength_eq, byteLength_eq, String.ofList_append, hs]
  exact slice?_append _ _ _

end Text

/-! ### Source text of tokens -/

namespace Token

/-- The tokens spell out the front of a source, each between its two byte positions. -/
structure Spells (source : String) (tokens : List Token) : Prop where
  text : gapped tokens <+: source.toList
  start : ∀ front t back, tokens = front ++ t :: back →
    t.start = byteLength (gapped front ++ t.lead.toList)
  stop : ∀ front t back, tokens = front ++ t :: back → t.stop = byteLength (gapped (front ++ [t]))

theorem gapped_append (front back : List Token) :
    gapped (front ++ back) = gapped front ++ gapped back :=
  List.flatMap_append

theorem gapped_cons (t : Token) (ts : List Token) :
    gapped (t :: ts) = t.lead.toList ++ sourceText (t :: ts) := by
  rw [gapped, List.flatMap_cons, sourceText, List.append_assoc, gapped]

/-- Tokens lie where the counting of bytes puts them, behind the text in front of them. -/
theorem spells_place (before lead : List Char) {offset : Nat}
    (hoffset : offset = byteLength (before ++ lead)) (line : Nat) (pieces : List Lexer.Piece) :
    let tokens := Lexer.place lead offset line pieces
    gapped tokens <+: lead ++ pieces.flatMap Lexer.Piece.text ∧
      ∀ front t back, tokens = front ++ t :: back →
        t.start = byteLength (before ++ (gapped front ++ t.lead.toList)) ∧
        t.stop = byteLength (before ++ gapped (front ++ [t])) := by
  fun_induction Lexer.place lead offset line pieces generalizing before with
  | case1 => simp [gapped]
  | case2 lead offset line text rest ih =>
    have hnext : offset + byteLength text = byteLength (before ++ (lead ++ text)) := by
      rw [hoffset, ← byteLength_append, List.append_assoc]
    obtain ⟨htext, hplaced⟩ := ih before hnext
    refine ⟨?_, hplaced⟩
    rwa [List.flatMap_cons, ← List.append_assoc]
  | case3 lead offset line kind text rest stop ih =>
    have hnext : stop = byteLength (before ++ (lead ++ text) ++ []) := by
      rw [List.append_nil, ← List.append_assoc, byteLength_append, ← hoffset]
    obtain ⟨htext, hplaced⟩ := ih (before ++ (lead ++ text)) hnext
    have hhead (ts : List Token) : gapped
        (⟨kind, String.ofList text, String.ofList lead, line, offset, stop⟩ :: ts) =
          lead ++ text ++ gapped ts := by
      simp [gapped]
    constructor
    · rw [hhead, List.flatMap_cons, List.append_assoc, List.prefix_append_right_inj,
        List.prefix_append_right_inj]
      simpa using htext
    · intro front t back hsplit
      cases front with
      | nil =>
        obtain ⟨rfl, -⟩ := List.cons.inj hsplit
        refine ⟨by simpa [gapped] using hoffset, ?_⟩
        rw [List.nil_append, hhead, hnext]
        simp [gapped]
      | cons u front =>
        obtain ⟨rfl, hrest⟩ := List.cons.inj hsplit
        obtain ⟨hstart, hstop⟩ := hplaced front t back hrest
        rw [hhead, List.cons_append, hhead, hstart, hstop]
        simp only [List.append_assoc, and_self]

theorem spells_ofSource {source : String} {tokens : List Token}
    (h : Token.ofSource source = .ok tokens) : Spells source tokens := by
  rw [ofSource] at h
  cases hfault : (Lexer.divide .markup source.toList).fault with
  | some fault => simp [hfault] at h
  | none =>
    obtain rfl : Lexer.place [] 0 1 (Lexer.divide .markup source.toList).pieces = tokens := by
      simpa [hfault] using h
    obtain ⟨htext, hplaced⟩ := spells_place [] [] rfl 1 (Lexer.divide .markup source.toList).pieces
    rw [Lexer.flatMap_text_divide _ _ hfault] at htext
    exact ⟨htext, fun front t back hsplit => (hplaced front t back hsplit).1,
      fun front t back hsplit => (hplaced front t back hsplit).2⟩

variable {source : String} {tokens : List Token}

/-- The source text of tokens in a row is cut out between the start of the first and the end of the
last. -/
theorem Spells.slice?_row (h : Spells source tokens) {first last : Token} {row : List Token}
    (hrow : first :: row <:+: tokens) (hlast : (first :: row).getLast? = some last) :
    Text.slice? source first.start last.stop =
      some (String.ofList (sourceText (first :: row))) := by
  obtain ⟨front, back, rfl⟩ := hrow
  obtain ⟨rest, htext⟩ := h.text
  obtain ⟨init, hinit⟩ := List.getLast?_eq_some_iff.mp hlast
  have hstart : first.start = byteLength (gapped front ++ first.lead.toList) :=
    h.start front first (row ++ back) (by simp)
  have hstop : last.stop =
      byteLength (gapped front ++ first.lead.toList ++ sourceText (first :: row)) := by
    rw [h.stop (front ++ init) last back (by simp [hinit]), List.append_assoc, ← hinit,
      gapped_append, gapped_cons, List.append_assoc]
  have hsource : source.toList = gapped front ++ first.lead.toList ++ sourceText (first :: row) ++
      (gapped back ++ rest) := by
    rw [← htext, gapped_append, gapped_append, gapped_cons]
    simp only [List.append_assoc]
  rw [hstart, hstop]
  exact Text.slice?_of_toList hsource

/-- Nothing is between the start of a token and itself. -/
theorem Spells.slice?_start (h : Spells source tokens) {t : Token} (ht : t ∈ tokens) :
    Text.slice? source t.start t.start = some "" := by
  obtain ⟨front, back, rfl⟩ := List.append_of_mem ht
  obtain ⟨rest, htext⟩ := h.text
  have hsource : source.toList = gapped front ++ t.lead.toList ++ [] ++
      (sourceText (t :: back) ++ rest) := by
    rw [← htext, gapped_append, gapped_cons]
    simp only [List.append_assoc, List.nil_append]
  have hslice := Text.slice?_of_toList hsource
  rwa [List.append_nil, ← h.start front t back rfl] at hslice

end Token

end ApiDoc
