import ApiDoc.Compile.LinkText
import ApiDoc.Proofs.Scanning
import ApiDoc.Proofs.Slices

/-!
# Replacing tags

A text is rewritten by asking a function about every tag that a scan reports. `InlineTag.rewrite`
puts the new text together from parts of the old one: each part goes from the end of the last tag
that was replaced to the start of the next. `Spliced` says what comes out of this, without parts and
positions that move: the spans of some tags are exchanged, and what is between them stays.

Main statement: whatever the function answers, and whether or not it remembers what it was asked, it
is asked once about each tag, in order, and exactly the spans of the tags it accepts are exchanged.
The replacements that carry no positions are rewritings of this kind, among them the step that puts
links into texts.
-/

namespace ApiDoc

namespace InlineTag

variable {σ : Type}

/-- Asks about tags, one after the other, and hands a state from each to the next. -/
def asks (f : Found → σ → Option String × σ) : List Found → σ → List (Found × Option String) × σ
  | [], state => ([], state)
  | found :: rest, state =>
    let (new, next) := f found state
    let (others, last) := asks f rest next
    ((found, new) :: others, last)

/-- The tags that get a new text, with it. -/
def accepted (answers : List (Found × Option String)) : List (Found × String) :=
  answers.filterMap fun answer => answer.2.map (answer.1, ·)

/-- Rewrites a text behind a byte position: the text up to the next tag that is replaced is kept. -/
def rewriteFrom (f : Found → σ → Option String × σ) (text : String) (last : Nat) :
    List Found → σ → Option (String × σ)
  | [], state => do some (← Text.slice? text last text.utf8ByteSize, state)
  | found :: rest, state =>
    match f found state with
    | (none, next) => rewriteFrom f text last rest next
    | (some new, next) => do
      let kept ← Text.slice? text last found.start
      let (others, after) ← rewriteFrom f text found.stop rest next
      some (kept ++ new ++ others, after)

/-- Rewrites a text, tag by tag. -/
def rewrite (f : Found → σ → Option String × σ) (text : String) (state : σ) :
    Option (String × σ) :=
  rewriteFrom f text 0 (scan text) state

/-- The second text is the first one, which starts at a byte offset, with the spans of some tags
exchanged. -/
inductive Spliced : Nat → List Char → List (Found × String) → List Char → Prop
  | kept {offset : Nat} {cs : List Char} : Spliced offset cs [] cs
  | exchanged {offset : Nat} {kept cs out : List Char} {edits : List (Found × String)}
      (found : Found) (new : String) :
    found.start = offset + byteLength kept →
    found.stop = found.start + byteLength found.tag.raw →
    Spliced found.stop cs edits out →
    Spliced offset (kept ++ (found.tag.raw ++ cs)) ((found, new) :: edits)
      (kept ++ (new.toList ++ out))

namespace Spliced

variable {offset : Nat} {cs out other : List Char} {edits : List (Found × String)}

/-- Two texts with fronts of the same number of bytes have the same front. -/
theorem append_inj_of_byteLength {front front' back back' : List Char}
    (h : front ++ back = front' ++ back') (hlength : byteLength front = byteLength front') :
    front = front' ∧ back = back' := by
  have hprefix : front <+: front' :=
    prefix_of_byteLength_le ⟨back, rfl⟩ ⟨back', h.symm⟩ (Nat.le_of_eq hlength)
  obtain ⟨more, rfl⟩ := hprefix
  rw [byteLength_append] at hlength
  cases more with
  | nil => exact ⟨(List.append_nil front).symm, by simpa using h⟩
  | cons c more =>
    have hpos := byteLength_pos (List.cons_ne_nil c more)
    omega

theorem eq_of_nil (h : Spliced offset cs [] out) : out = cs := by
  cases h with
  | kept => rfl

/-- A text in front of the first tag is kept. -/
theorem behind (front : List Char) (h : Spliced (offset + byteLength front) cs edits out) :
    Spliced offset (front ++ cs) edits (front ++ out) := by
  cases h with
  | kept => exact .kept
  | @exchanged _ kept cs out edits found new hstart hstop hrest =>
    rw [← List.append_assoc front kept, ← List.append_assoc front kept]
    refine .exchanged found new ?_ hstop hrest
    rw [hstart, byteLength_append, Nat.add_assoc]

/-- What comes out is settled by the text and the spans. -/
theorem unique (h : Spliced offset cs edits out) (k : Spliced offset cs edits other) :
    out = other := by
  induction h generalizing other with
  | kept => cases k with | kept => rfl
  | @exchanged offset kept cs out edits found new hstart hstop _ ih =>
    generalize hwhole : kept ++ (found.tag.raw ++ cs) = whole at k
    cases k with
    | @exchanged _ kept' cs' out' _ _ _ hstart' _ hrest =>
      obtain ⟨rfl, hrests⟩ := append_inj_of_byteLength hwhole (by omega)
      rw [List.append_cancel_left hrests] at ih
      rw [ih hrest]

end Spliced

section Rewriting

variable {f : Found → σ → Option String × σ} {text : String}

theorem accepted_cons (found : Found) (new : Option String)
    (answers : List (Found × Option String)) :
    accepted ((found, new) :: answers) = (new.map (found, ·)).toList ++ accepted answers := by
  cases new <;> rfl

/-- Every tag is asked about once, in order. -/
theorem map_fst_asks (f : Found → σ → Option String × σ) (tags : List Found) (state : σ) :
    (asks f tags state).1.map Prod.fst = tags := by
  induction tags generalizing state with
  | nil => rfl
  | cons found rest ih => exact congrArg (found :: ·) (ih _)

theorem mem_accepted_iff {answers : List (Found × Option String)} {edit : Found × String} :
    edit ∈ accepted answers ↔ (edit.1, some edit.2) ∈ answers := by
  induction answers with
  | nil => exact iff_of_false List.not_mem_nil List.not_mem_nil
  | cons answer rest ih =>
    obtain ⟨found, new⟩ := answer
    rw [accepted_cons, List.mem_append, List.mem_cons, ih]
    cases new <;> simp [Prod.ext_iff]

/-- What is cut out behind a position: `front` was dealt with, `kept` is behind it and in front of
the pieces that are still to come. -/
theorem rewriteFrom_foundFrom {front kept : List Char} {pieces : List Segment}
    (htext : text.toList = front ++ (kept ++ pieces.flatMap Segment.raw)) (state : σ) :
    let tags := foundFrom (byteLength (front ++ kept)) pieces
    ∃ out, rewriteFrom f text (byteLength front) tags state =
        some (String.ofList out, (asks f tags state).2) ∧
      Spliced (byteLength front) (kept ++ pieces.flatMap Segment.raw)
        (accepted (asks f tags state).1) out := by
  induction pieces generalizing front kept state with
  | nil =>
    have hwhole : text.toList = front ++ kept ++ [] := by simpa using htext
    have hsize : text.utf8ByteSize = byteLength (front ++ kept) := by
      rw [byteLength_eq, ← List.append_nil (front ++ kept), ← hwhole, String.ofList_toList]
    refine ⟨kept, ?_, ?_⟩
    · simp only [foundFrom, rewriteFrom, hsize, Text.slice?_of_toList hwhole]
      rfl
    · rw [List.flatMap_nil, List.append_nil]
      exact .kept
  | cons piece rest ih =>
    cases piece with
    | char c =>
      have hkept : kept ++ (Segment.char c :: rest).flatMap Segment.raw =
          (kept ++ [c]) ++ rest.flatMap Segment.raw := by simp [Segment.raw]
      have hoffset : byteLength (front ++ kept) + c.utf8Size =
          byteLength (front ++ (kept ++ [c])) := by
        rw [← List.append_assoc, byteLength_append _ [c]]
        rfl
      rw [hkept] at htext ⊢
      rw [foundFrom, hoffset]
      exact ih htext state
    | tag t =>
      have hkept : kept ++ (Segment.tag t :: rest).flatMap Segment.raw =
          (kept ++ t.raw) ++ rest.flatMap Segment.raw := by simp [Segment.raw]
      have hoffset : byteLength (front ++ kept) + byteLength t.raw =
          byteLength (front ++ (kept ++ t.raw)) := by
        rw [← List.append_assoc, byteLength_append _ t.raw]
      have hlater : front ++ ((kept ++ t.raw) ++ rest.flatMap Segment.raw) =
          (front ++ (kept ++ t.raw)) ++ ([] ++ rest.flatMap Segment.raw) := by simp
      rw [hkept] at htext ⊢
      rw [foundFrom, hoffset]
      cases hanswer : f ⟨t, byteLength (front ++ kept), byteLength (front ++ (kept ++ t.raw))⟩ state
        with
      | mk new next =>
        cases new with
        | none =>
          obtain ⟨out, hout, hspliced⟩ := ih htext next
          refine ⟨out, ?_, ?_⟩
          · simpa only [rewriteFrom, asks, hanswer] using hout
          · simpa only [asks, hanswer, accepted_cons, Option.map_none, Option.toList_none,
              List.nil_append] using hspliced
        | some new =>
          obtain ⟨out, hout, hspliced⟩ := ih (htext.trans hlater) next
          rw [List.append_nil] at hout hspliced
          have hkeptText : text.toList = front ++ kept ++ (t.raw ++ rest.flatMap Segment.raw) := by
            rw [htext]
            simp only [List.append_assoc]
          refine ⟨kept ++ (new.toList ++ out), ?_, ?_⟩
          · simp only [rewriteFrom, asks, hanswer, Text.slice?_of_toList hkeptText, hout,
              Option.bind_eq_bind, Option.bind_some, String.ofList_append, String.ofList_toList,
              String.append_assoc]
          · simp only [asks, hanswer, accepted_cons, Option.map_some, Option.toList_some,
              List.singleton_append, List.nil_append, List.append_assoc] at hspliced ⊢
            exact .exchanged ⟨t, _, _⟩ new (byteLength_append ..) hoffset.symm hspliced

/-- A function is asked about every tag once, and the spans of the tags it accepts are exchanged. -/
theorem exists_rewrite (f : Found → σ → Option String × σ) (text : String) (state : σ) :
    ∃ out, rewrite f text state = some (String.ofList out, (asks f (scan text) state).2) ∧
      Spliced 0 text.toList (accepted (asks f (scan text) state).1) out := by
  have htext : text.toList = [] ++ ([] ++ (segments text).flatMap Segment.raw) :=
    (flatMap_raw_ofChars text.toList).symm
  obtain ⟨out, hout, hspliced⟩ := rewriteFrom_foundFrom (f := f) htext state
  rw [List.nil_append, segments, flatMap_raw_ofChars] at hspliced
  exact ⟨out, hout, hspliced⟩

theorem accepted_eq_nil {answers : List (Found × Option String)}
    (h : ∀ answer ∈ answers, answer.2 = none) : accepted answers = [] :=
  List.filterMap_eq_nil_iff.mpr fun answer hanswer => by rw [h answer hanswer, Option.map_none]

/-- Answers that do not depend on what is remembered. -/
theorem asks_fst {g : Found → Option String} (h : ∀ found state, (f found state).1 = g found)
    (tags : List Found) (state : σ) :
    (asks f tags state).1 = tags.map fun found => (found, g found) := by
  induction tags generalizing state with
  | nil => rfl
  | cons found rest ih => rw [asks, List.map_cons, ← ih (f found state).2, ← h found state]

end Rewriting

/-! ### Replacements that carry no positions -/

section Substituting

variable {g : InlineTag → σ → Option String × σ}

/-- Replacing tags in pieces exchanges the spans of the tags that get a new text. -/
theorem spliced_substituteWith (offset : Nat) (pieces : List Segment) (state : σ) :
    let answered := asks (fun found => g found.tag) (foundFrom offset pieces) state
    Spliced offset (pieces.flatMap Segment.raw) (accepted answered.1)
        (substituteWith g pieces state).1 ∧
      (substituteWith g pieces state).2 = answered.2 := by
  induction pieces generalizing offset state with
  | nil => exact ⟨.kept, rfl⟩
  | cons piece rest ih =>
    cases piece with
    | char c =>
      obtain ⟨hspliced, hstate⟩ := ih (offset + c.utf8Size) state
      exact ⟨hspliced.behind [c], hstate⟩
    | tag t =>
      cases hanswer : g t state with
      | mk new next =>
        obtain ⟨hspliced, hstate⟩ := ih (offset + byteLength t.raw) next
        simp only [foundFrom, asks, substituteWith, hanswer, accepted_cons, List.flatMap_cons]
        refine ⟨?_, hstate⟩
        cases new with
        | none => exact hspliced.behind t.raw
        | some new => exact @Spliced.exchanged offset [] _ _ _ ⟨t, offset, _⟩ new rfl rfl hspliced

/-- Such a replacement is a rewriting. -/
theorem rewrite_tag (g : InlineTag → σ → Option String × σ) (text : String) (state : σ) :
    rewrite (fun found => g found.tag) text state =
      some (String.ofList (substituteWith g (segments text) state).1,
        (substituteWith g (segments text) state).2) := by
  obtain ⟨out, hout, hspliced⟩ := exists_rewrite (fun found => g found.tag) text state
  obtain ⟨hsubstituted, hstate⟩ := spliced_substituteWith (g := g) 0 (segments text) state
  rw [segments, flatMap_raw_ofChars] at hsubstituted
  rw [hout, hspliced.unique hsubstituted, hstate]
  rfl

/-- Without a state, every tag has its own answer. -/
theorem spliced_substitute (g : InlineTag → Option String) (text : String) :
    Spliced 0 text.toList (accepted ((scan text).map fun found => (found, g found.tag)))
      (substitute g text).toList := by
  obtain ⟨hspliced, -⟩ :=
    spliced_substituteWith (g := fun t (_ : Unit) => (g t, ())) 0 (segments text) ()
  rw [asks_fst (g := fun found => g found.tag) (fun _ _ => rfl), substituteWith_unit,
    ← toList_substitute, segments, flatMap_raw_ofChars] at hspliced
  exact hspliced

theorem substitute_eq_self {g : InlineTag → Option String} {text : String}
    (h : ∀ found ∈ scan text, g found.tag = none) : substitute g text = text := by
  have hspliced := spliced_substitute g text
  rw [accepted_eq_nil (by simpa using h)] at hspliced
  rw [← String.toList_inj]
  exact hspliced.eq_of_nil

end Substituting

end InlineTag

/-! ### Links -/

namespace Compile

open InlineTag

variable (router : Router) (s : ApiSet) (scope : Scope)

/-- How tags start that become links. -/
def linkStarts : List String := inlineLinkTags.map ("\x7b@" ++ ·)

/-- The text for one tag, which is remembered. -/
def linkNoted (found : Found) (changed : Bool) : Option String × Bool :=
  match linkFor router s scope found.tag with
  | none => (none, changed)
  | some new => (some new, true)

/-- Puts links into a text, without a result if a part of the text cannot be cut out. There is a new
text only if a tag was replaced, and only a text that holds the start of a tag is searched. -/
def linksIn? (text : String) : Option (Option String) :=
  if linkStarts.any (Text.holds · text) then do
    let (new, changed) ← rewrite (linkNoted router s scope) text false
    some (if changed then some new else none)
  else some none

theorem linkNoted_fst (found : Found) (changed : Bool) :
    (linkNoted router s scope found changed).1 = linkFor router s scope found.tag := by
  unfold linkNoted
  cases linkFor router s scope found.tag <;> rfl

variable {router s scope}

/-- What becomes a link is a tag for one, with an argument. -/
theorem of_linkFor {t : InlineTag} {new : String} (h : linkFor router s scope t = some new) :
    t.name ∈ inlineLinkTags ∧ t.argument ≠ "" := by
  have hlinked : ¬ (!inlineLinkTags.contains t.name || t.splitArgument.1.isEmpty) = true := by
    intro hnot
    have hnone : linkFor router s scope t = none := if_pos hnot
    rw [hnone] at h
    cases h
  rw [Bool.or_eq_true, not_or] at hlinked
  refine ⟨by simpa using hlinked.1, fun hempty => hlinked.2 ?_⟩
  rw [InlineTag.splitArgument, hempty]
  rfl

/-- The start of every tag for a link is looked for. -/
theorem holds_of_linkFor {text : String} {t : InlineTag} {new : String}
    (ht : .tag t ∈ segments text) (h : linkFor router s scope t = some new) :
    linkStarts.any (Text.holds · text) = true := by
  refine List.any_eq_true.mpr ⟨"\x7b@" ++ t.name, ?_, holds_of_mem_segments ht ?_⟩
  · exact List.mem_map_of_mem (of_linkFor h).1
  · rw [String.toList_append]
    exact List.prefix_refl _

/-- What is remembered is whether a tag was replaced. -/
theorem asks_linkNoted_snd (tags : List Found) (changed : Bool) :
    (asks (linkNoted router s scope) tags changed).2 =
      (changed || tags.any fun found => (linkFor router s scope found.tag).isSome) := by
  induction tags generalizing changed with
  | nil => exact (Bool.or_false changed).symm
  | cons found rest ih =>
    simp only [asks, ih, List.any_cons, linkNoted]
    cases linkFor router s scope found.tag <;> simp

/-- The step that puts links into texts rewrites them, if it changes them. -/
theorem linksIn?_spliced (router : Router) (s : ApiSet) (scope : Scope) (text : String) :
    ∃ answer, linksIn? router s scope text = some answer ∧
      answer.getD text = withLinks router s scope text ∧
      ∀ new, answer = some new → ∃ edits, Spliced 0 text.toList edits new.toList ∧
        ∀ edit ∈ edits, edit.1 ∈ scan text ∧ edit.1.tag.name ∈ inlineLinkTags ∧
          edit.1.tag.argument ≠ "" ∧ linkFor router s scope edit.1.tag = some edit.2 := by
  have hlinks := spliced_substitute (linkFor router s scope) text
  by_cases hstart : linkStarts.any (Text.holds · text) = true
  · obtain ⟨out, hout, hspliced⟩ := exists_rewrite (linkNoted router s scope) text false
    rw [asks_fst (linkNoted_fst router s scope)] at hspliced
    rw [hspliced.unique hlinks, String.ofList_toList, asks_linkNoted_snd, Bool.false_or] at hout
    rw [linksIn?, if_pos hstart, hout]
    cases hany : (scan text).any fun found => (linkFor router s scope found.tag).isSome with
    | false =>
      refine ⟨none, rfl, (substitute_eq_self fun found hfound => ?_).symm, nofun⟩
      simpa using List.any_eq_false.mp hany found hfound
    | true =>
      refine ⟨some (withLinks router s scope text), rfl, rfl, fun new hnew => ?_⟩
      obtain rfl := Option.some.inj hnew
      refine ⟨_, hlinks, fun edit hedit => ?_⟩
      obtain ⟨found, hfound, heq⟩ := List.mem_map.mp (mem_accepted_iff.mp hedit)
      obtain ⟨rfl, hlink⟩ := Prod.mk.inj heq
      exact ⟨hfound, (of_linkFor hlink).1, (of_linkFor hlink).2, hlink⟩
  · rw [linksIn?, if_neg hstart]
    refine ⟨none, rfl, (substitute_eq_self fun found hfound => ?_).symm, nofun⟩
    obtain ⟨front, back, hpieces, -⟩ := exists_split_of_mem_foundFrom hfound
    have hmem : .tag found.tag ∈ segments text :=
      hpieces ▸ List.mem_append_right front List.mem_cons_self
    rw [Option.eq_none_iff_forall_ne_some]
    exact fun new hnew => hstart (holds_of_linkFor hmem hnew)

end Compile

namespace InlineTag

/-- Rewriting changes a text within the tags that the function accepts and nowhere else. The
function is asked about every tag of the scan once, in order, whatever it remembers from one tag to
the next, and no part of the text is out of reach. Replacements that see the tag alone are
rewritings; putting links into a text either leaves it or exchanges spans of tags for links. -/
theorem rewrite_spliced (text : String) :
    (∀ {σ : Type} (f : Found → σ → Option String × σ) (state : σ),
      (asks f (scan text) state).1.map Prod.fst = scan text ∧
      ∃ out, rewrite f text state = some (String.ofList out, (asks f (scan text) state).2) ∧
        Spliced 0 text.toList (accepted (asks f (scan text) state).1) out ∧
        ((∀ answer ∈ (asks f (scan text) state).1, answer.2 = none) → String.ofList out = text)) ∧
    (∀ {σ : Type} (g : InlineTag → σ → Option String × σ) (state : σ),
      rewrite (fun found => g found.tag) text state =
        some (String.ofList (substituteWith g (segments text) state).1,
          (substituteWith g (segments text) state).2)) ∧
    ∀ (router : Router) (s : ApiSet) (scope : Scope),
      ∃ answer, Compile.linksIn? router s scope text = some answer ∧
        answer.getD text = Compile.withLinks router s scope text ∧
        ∀ new, answer = some new → ∃ edits, Spliced 0 text.toList edits new.toList ∧
          ∀ edit ∈ edits, edit.1 ∈ scan text ∧ edit.1.tag.name ∈ Compile.inlineLinkTags ∧
            edit.1.tag.argument ≠ "" ∧
            Compile.linkFor router s scope edit.1.tag = some edit.2 := by
  refine ⟨fun f state => ⟨map_fst_asks f (scan text) state, ?_⟩,
    fun g state => rewrite_tag g text state,
    fun router s scope => Compile.linksIn?_spliced router s scope text⟩
  obtain ⟨out, hout, hspliced⟩ := exists_rewrite f text state
  refine ⟨out, hout, hspliced, fun hnone => ?_⟩
  rw [accepted_eq_nil hnone] at hspliced
  rw [hspliced.eq_of_nil, String.ofList_toList]

end InlineTag

end ApiDoc
