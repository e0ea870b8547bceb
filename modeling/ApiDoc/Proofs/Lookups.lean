import Mathlib.Data.List.TakeWhile
import ApiDoc.Compile.ExampleText

/-!
# Kept look-ups

The text of an inline tag determines the tag: `InlineTag.at?` reads no further than the brace that
closes it. So a look-up that was kept under the text of a tag is the one that the tag would start
itself, and examples are put into every text as if nothing had been looked up before.
-/

namespace ApiDoc

namespace InlineTag

/-! ### The text of a tag -/

/-- What closes a tag stands right behind its body, and what follows does not matter. -/
theorem append_of_untilClose {depth : Nat} {cs body : List Char}
    (h : untilClose depth cs = some body) :
    (∃ rest, cs = body ++ '}' :: rest) ∧
      ∀ rest, untilClose depth (body ++ '}' :: rest) = some body := by
  induction cs generalizing depth body with
  | nil => simp [untilClose] at h
  | cons c cs ih =>
    -- a character that stays in the body is read alike in front of any rest
    have hkeep (next : Nat) (hread : ∀ cs, untilClose depth (c :: cs) =
        (untilClose next cs).map (c :: ·)) : (∃ rest, c :: cs = body ++ '}' :: rest) ∧
        ∀ rest, untilClose depth (body ++ '}' :: rest) = some body := by
      rw [hread] at h
      obtain ⟨inner, hinner, rfl⟩ := Option.map_eq_some_iff.mp h
      obtain ⟨⟨rest, rfl⟩, hany⟩ := ih hinner
      refine ⟨⟨rest, rfl⟩, fun rest => ?_⟩
      rw [List.cons_append, hread, hany, Option.map_some]
    by_cases hopen : c = '{'
    · subst hopen
      exact hkeep (depth + 1) fun cs => by simp [untilClose]
    · by_cases hclose : c = '}'
      · subst hclose
        cases depth with
        | zero =>
          obtain rfl : [] = body := by simpa [untilClose] using h
          exact ⟨⟨cs, rfl⟩, fun rest => by simp [untilClose]⟩
        | succ outer => exact hkeep outer fun cs => by simp [untilClose]
      · exact hkeep depth fun cs => by rw [untilClose] <;> assumption

/-- A front of characters that pass a test, up to where the test fails. -/
theorem span_eq {p : Char → Bool} {front rest : List Char} (hfront : ∀ x ∈ front, p x = true)
    (hrest : ∀ x ∈ rest.head?, p x = false) :
    (front ++ rest).takeWhile p = front ∧ (front ++ rest).dropWhile p = rest := by
  rw [List.takeWhile_append_of_pos hfront, List.dropWhile_append_of_pos hfront]
  cases rest with
  | nil => simp
  | cons x xs => simp [hrest x rfl]

/-- Where a run of characters that pass a test ends does not depend on what is behind a character
that fails it. -/
theorem span_stop {p : Char → Bool} {c : Char} (hc : p c = false) (x rest : List Char) :
    (x ++ c :: rest).takeWhile p = x.takeWhile p ∧
      (x ++ c :: rest).dropWhile p = x.dropWhile p ++ c :: rest := by
  induction x with
  | nil => simp [hc]
  | cons d ds ih =>
    cases hd : p d with
    | true => simpa [hd] using ih
    | false => simp [hd]

theorem head?_dropWhile {p : Char → Bool} (cs : List Char) :
    ∀ x ∈ (cs.dropWhile p).head?, p x = false := by
  intro x hx
  have hne : cs.dropWhile p ≠ [] := fun h => by simp [h] at hx
  have hhead := List.head_dropWhile_not p hne
  rw [List.head?_eq_some_head hne] at hx
  rwa [Option.mem_some_iff.mp hx] at hhead

/-- Up to a closing brace it does not matter what follows. -/
theorem head?_closed (front rest rest' : List Char) :
    (front ++ '}' :: rest).head? = (front ++ '}' :: rest').head? := by
  cases front <;> rfl

theorem append_of_bodyAt {cs gap body : List Char} (h : bodyAt cs = some (gap, body)) :
    (∃ rest, cs = gap ++ body ++ '}' :: rest) ∧
      ∀ rest, bodyAt (gap ++ body ++ '}' :: rest) = some (gap, body) := by
  cases cs with
  | nil => simp [bodyAt] at h
  | cons c cs =>
    rw [bodyAt] at h
    split at h
    case isFalse => simp at h
    case isTrue hfirst =>
      obtain ⟨read, hread, heq⟩ := Option.map_eq_some_iff.mp h
      obtain ⟨hgap, rfl⟩ : (c :: cs).takeWhile isGap = gap ∧ read = body := by simpa using heq
      obtain ⟨⟨rest, hrest⟩, hany⟩ := append_of_untilClose hread
      have hsplit : c :: cs = gap ++ read ++ '}' :: rest := by
        rw [List.append_assoc, ← hrest, ← hgap, List.takeWhile_append_dropWhile]
      refine ⟨⟨rest, hsplit⟩, fun rest' => ?_⟩
      have hblank : ∀ x ∈ gap, isGap x = true := fun x hx =>
        List.mem_takeWhile_imp (hgap ▸ hx)
      have hbehind : ∀ x ∈ (read ++ '}' :: rest').head?, isGap x = false := by
        rw [head?_closed read rest' rest, ← hrest]
        exact head?_dropWhile (c :: cs)
      obtain ⟨htake, hdrop⟩ := span_eq hblank hbehind
      have hlead := head?_closed (gap ++ read) rest' rest
      rw [← hsplit] at hlead
      cases hwhole : gap ++ read ++ '}' :: rest' with
      | nil => simp [hwhole] at hlead
      | cons x xs =>
        obtain rfl : x = c := by simpa [hwhole] using hlead
        rw [bodyAt, if_pos hfirst, ← hwhole, List.append_assoc, htake, hdrop, hany, Option.map_some]

/-- A tag is read from its own text as from the text it stands in, whatever follows. -/
theorem at?_take_append {cs : List Char} {t : InlineTag} {width : Nat}
    (h : at? cs = some (t, width)) (more : List Char) :
    at? (cs.take width ++ more) = some (t, width) ∧ (cs.take width).length = width := by
  unfold at? at h
  split at h
  case h_2 => simp at h
  case h_1 rest =>
    simp only at h
    split at h
    case isTrue => simp at h
    case isFalse hname =>
      obtain ⟨⟨gap, body⟩, hbody, heq⟩ := Option.map_eq_some_iff.mp h
      obtain ⟨⟨tail, htail⟩, hany⟩ := append_of_bodyAt hbody
      obtain ⟨rfl, rfl⟩ := Prod.mk.inj heq
      have hletters : ∀ x ∈ rest.takeWhile isNameChar, isNameChar x = true := fun x hx =>
        List.mem_takeWhile_imp hx
      have hbehind : ∀ x ∈ (gap ++ body ++ '}' :: more).head?, isNameChar x = false := by
        rw [head?_closed (gap ++ body) more tail, ← htail]
        exact head?_dropWhile rest
      obtain ⟨htake, hdrop⟩ := span_eq hletters hbehind
      have hrest : rest = (rest.takeWhile isNameChar ++ (gap ++ body ++ '}' :: [])) ++ tail := by
        have hsplit := List.takeWhile_append_dropWhile (p := isNameChar) (l := rest)
        rw [htail] at hsplit
        rw [List.append_assoc, List.append_assoc (gap ++ body)]
        exact hsplit.symm
      have hlength : ('@' :: (rest.takeWhile isNameChar ++ (gap ++ body ++ '}' :: []))).length =
          (rest.takeWhile isNameChar).length + gap.length + body.length + 2 := by
        simp only [List.length_append, List.length_cons, List.length_nil]
        omega
      have hwidth : ('@' :: rest).take
          ((rest.takeWhile isNameChar).length + gap.length + body.length + 2) =
            '@' :: (rest.takeWhile isNameChar ++ (gap ++ body ++ '}' :: [])) :=
        (congrArg (fun text => ('@' :: text).take _) hrest).trans (List.take_left' hlength)
      have hwhole : '@' :: (rest.takeWhile isNameChar ++ (gap ++ body ++ '}' :: [])) ++ more =
          '@' :: (rest.takeWhile isNameChar ++ (gap ++ body ++ '}' :: more)) := by
        simp only [List.cons_append, List.append_assoc, List.nil_append]
      have hraw := (congrArg (List.take _) hwhole.symm).trans (List.take_left' hlength)
      rw [hwidth]
      refine ⟨?_, hlength⟩
      rw [hwhole]
      simp only [at?, htake, hdrop, hname, hany, Bool.false_eq_true, if_false, Option.map_some,
        hraw]

theorem at?_take {cs : List Char} {t : InlineTag} {width : Nat} (h : at? cs = some (t, width)) :
    at? (cs.take width) = some (t, width) := by
  have hread := (at?_take_append h []).1
  rwa [List.append_nil] at hread

/-- What follows a text does not change a tag at its front. -/
theorem at?_append {cs : List Char} {t : InlineTag} {width : Nat} (h : at? cs = some (t, width))
    (more : List Char) : at? (cs ++ more) = some (t, width) ∧ width ≤ cs.length := by
  have hread := (at?_take_append h (cs.drop width ++ more)).1
  rw [← List.append_assoc, List.take_append_drop] at hread
  have hlength := (at?_take_append h []).2
  rw [List.length_take] at hlength
  exact ⟨hread, by omega⟩

/-- The text of a tag determines the tag. -/
theorem eq_of_raw_eq {cs cs' : List Char} {t u : InlineTag} {width width' : Nat}
    (ht : at? cs = some (t, width)) (hu : at? cs' = some (u, width')) (hraw : t.raw = u.raw) :
    t = u := by
  have hsame : cs.take width = cs'.take width' := by
    simpa [raw_of_at? ht, raw_of_at? hu] using hraw
  have hread := at?_take ht
  rw [hsame, at?_take hu] at hread
  exact (Prod.mk.inj (Option.some.inj hread)).1.symm

/-! ### Examples without what was looked up before -/

theorem at?_of_mem_ofChars {cs : List Char} {t : InlineTag} (h : .tag t ∈ Segment.ofChars cs) :
    ∃ rest width, at? rest = some (t, width) := by
  fun_induction Segment.ofChars cs with
  | case1 => simp at h
  | case2 c rest u width hat ih =>
    rcases List.mem_cons.mp h with heq | hmem
    · obtain rfl := Segment.tag.inj heq
      split at hat
      · exact ⟨rest, width, hat⟩
      · simp at hat
    · exact ih hmem
  | case3 c rest hat ih => exact ih (by simpa using h)

theorem prefix_raw {cs : List Char} {t : InlineTag} {width : Nat} (h : at? cs = some (t, width)) :
    '{' :: '@' :: t.name.toList <+: t.raw := by
  unfold at? at h
  split at h
  case h_2 => simp at h
  case h_1 rest =>
    simp only at h
    split at h
    case isTrue => simp at h
    case isFalse =>
      obtain ⟨⟨gap, body⟩, -, heq⟩ := Option.map_eq_some_iff.mp h
      obtain ⟨rfl, -⟩ := Prod.mk.inj heq
      have hname : rest.takeWhile isNameChar <+: rest := List.takeWhile_prefix _
      have hlong : (rest.takeWhile isNameChar).length ≤
          (rest.takeWhile isNameChar).length + gap.length + body.length + 1 := by omega
      simpa [List.prefix_cons_inj] using List.prefix_take_iff.mpr ⟨hname, hlong⟩

/-- The text of a tag that was found stands in the text it was found in. -/
theorem raw_infix_of_mem_ofChars {cs : List Char} {t : InlineTag}
    (h : .tag t ∈ Segment.ofChars cs) : t.raw <:+: cs := by
  have hpieces := List.infix_of_mem_flatten (List.mem_map_of_mem (f := Segment.raw) h)
  rwa [← List.flatMap_def, flatMap_raw_ofChars] at hpieces

/-- A text that holds a tag holds the start of its name. -/
theorem holds_of_mem_segments {text start : String} {t : InlineTag} (ht : .tag t ∈ segments text)
    (hstart : start.toList <+: '{' :: '@' :: t.name.toList) : Text.holds start text = true := by
  obtain ⟨rest, width, hread⟩ := at?_of_mem_ofChars ht
  by_contra hnone
  have hcut : Text.cut? start.toList text.toList = none := by
    simpa [Text.holds, Text.contains] using hnone
  exact Text.not_infix_of_cut? hcut
    ((hstart.trans (prefix_raw hread)).isInfix.trans (raw_infix_of_mem_ofChars ht))

/-- A replacement whose state changes none of its answers. -/
theorem substituteWith_eq {σ : Type} {f : InlineTag → σ → Option String × σ}
    {g : InlineTag → Option String} {P : σ → Prop} {pieces : List Segment}
    (h : ∀ t, .tag t ∈ pieces → ∀ state, P state → (f t state).1 = g t ∧ P (f t state).2)
    {state : σ} (hstate : P state) :
    (substituteWith f pieces state).1 =
        (substituteWith (fun t (_ : Unit) => (g t, ())) pieces ()).1 ∧
      P (substituteWith f pieces state).2 := by
  induction pieces generalizing state with
  | nil => exact ⟨rfl, hstate⟩
  | cons p rest ih =>
    have hrest := fun t (ht : .tag t ∈ rest) => h t (List.mem_cons_of_mem p ht)
    cases p with
    | char c =>
      obtain ⟨htext, hlast⟩ := ih hrest hstate
      exact ⟨congrArg (c :: ·) htext, hlast⟩
    | tag t =>
      obtain ⟨hnew, hnext⟩ := h t List.mem_cons_self state hstate
      obtain ⟨htext, hlast⟩ := ih hrest hnext
      refine ⟨?_, hlast⟩
      simp only [substituteWith, hnew, htext]

end InlineTag

namespace Compile

/-- The text for one inline tag, looked up anew. -/
def exampleText (finder : ExampleFinder) (t : InlineTag) : Option String :=
  if t.name ≠ "example" then none
  else (ExampleRequest.parse? t.argument).map fun request =>
    (Lookup.mk t.raw request (finder request)).text

/-- A look-up that some tag started. -/
structure Lookup.IsOwn (finder : ExampleFinder) (l : Lookup) (t : InlineTag) : Prop where
  read : ∃ rest width, InlineTag.at? rest = some (t, width)
  raw_eq : t.raw = l.raw
  name_eq : t.name = "example"
  request_eq : ExampleRequest.parse? t.argument = some l.request
  answer_eq : l.answer = finder l.request

def AllOwn (finder : ExampleFinder) (done : List Lookup) : Prop :=
  ∀ l ∈ done, ∃ t, l.IsOwn finder t

/-- A kept look-up gives the text that a new one would give. -/
theorem exampleFor_eq {finder : ExampleFinder} {t : InlineTag} {done : List Lookup}
    (ht : ∃ rest width, InlineTag.at? rest = some (t, width)) (hdone : AllOwn finder done) :
    (exampleFor finder t done).1 = exampleText finder t ∧
      AllOwn finder (exampleFor finder t done).2 := by
  rw [exampleFor, exampleText]
  by_cases hname : t.name ≠ "example"
  · rw [if_pos hname, if_pos hname]
    exact ⟨rfl, hdone⟩
  rw [if_neg hname, if_neg hname]
  cases hfind : done.find? (·.raw = t.raw) with
  | some l =>
    obtain ⟨u, hu⟩ := hdone l (List.mem_of_find?_eq_some hfind)
    have hraw : l.raw = t.raw := by simpa using List.find?_some hfind
    obtain ⟨rest, width, hread⟩ := ht
    obtain ⟨rest', width', hread'⟩ := hu.read
    obtain rfl := InlineTag.eq_of_raw_eq hread hread' (hraw.symm.trans hu.raw_eq.symm)
    refine ⟨?_, hdone⟩
    rw [hu.request_eq, Option.map_some, ← hu.answer_eq, hu.raw_eq]
  | none =>
    cases hrequest : ExampleRequest.parse? t.argument with
    | none => exact ⟨rfl, hdone⟩
    | some request =>
      refine ⟨rfl, fun l hl => ?_⟩
      rcases List.mem_append.mp hl with hl | hl
      · exact hdone l hl
      · obtain rfl := List.mem_singleton.mp hl
        exact ⟨t, ht, rfl, not_not.mp hname, hrequest, rfl⟩

/-- A text with its examples, looked up anew. -/
def withExampleTexts (finder : ExampleFinder) (text : String) : String :=
  String.ofList (InlineTag.substituteWith (fun t (_ : Unit) => (exampleText finder t, ()))
    (InlineTag.segments text) ()).1

/-- Pieces with no tag for an example stay as they are. -/
theorem substituteWith_exampleFor (finder : ExampleFinder) {pieces : List Segment}
    (h : ∀ t, .tag t ∈ pieces → t.name ≠ "example") (done : List Lookup) :
    InlineTag.substituteWith (exampleFor finder) pieces done = (pieces.flatMap Segment.raw, done) := by
  induction pieces with
  | nil => rfl
  | cons p rest ih =>
    have hrest := ih fun t ht => h t (List.mem_cons_of_mem _ ht)
    cases p with
    | char c =>
      simp only [InlineTag.substituteWith, hrest]
      rfl
    | tag t =>
      have hkept : exampleFor finder t done = (none, done) := by
        rw [exampleFor, if_pos (h t List.mem_cons_self)]
      simp only [InlineTag.substituteWith, hkept, hrest]
      rfl

theorem holds_exampleStart {text : String} {t : InlineTag} (ht : .tag t ∈ InlineTag.segments text)
    (hname : t.name = "example") : Text.holds exampleStart text = true :=
  InlineTag.holds_of_mem_segments ht (by rw [hname]; exact List.prefix_refl _)

/-- A text that is not searched has nothing that a search would replace. -/
theorem withExamples_eq_substituteWith (finder : ExampleFinder) (scope : Scope) (text : String)
    (done : List Lookup) :
    withExamples finder scope text done =
      (String.ofList
          (InlineTag.substituteWith (exampleFor finder) (InlineTag.segments text) done).1,
        (InlineTag.substituteWith (exampleFor finder) (InlineTag.segments text) done).2) := by
  rw [withExamples]
  split
  · rfl
  · next hnot =>
    rw [substituteWith_exampleFor finder fun t ht hname => hnot (holds_exampleStart ht hname),
      InlineTag.segments, InlineTag.flatMap_raw_ofChars, String.ofList_toList]

theorem withExamples_eq {finder : ExampleFinder} {done : List Lookup} (hdone : AllOwn finder done)
    (scope : Scope) (text : String) :
    (withExamples finder scope text done).1 = withExampleTexts finder text ∧
      AllOwn finder (withExamples finder scope text done).2 := by
  have htags (t : InlineTag) (ht : .tag t ∈ InlineTag.segments text) (done : List Lookup)
      (hdone : AllOwn finder done) := exampleFor_eq (InlineTag.at?_of_mem_ofChars ht) hdone
  obtain ⟨htext, hlast⟩ := InlineTag.substituteWith_eq htags hdone
  rw [withExamples_eq_substituteWith]
  exact ⟨congrArg String.ofList htext, hlast⟩

/-- Edits whose state changes none of the new texts. -/
theorem editAllTextsWith_eq {σ : Type} {edit : TextEdit σ} {new : Scope → String → String}
    {P : σ → Prop} (h : ∀ scope text state, P state →
      (edit scope text state).1 = new scope text ∧ P (edit scope text state).2)
    (s : ApiSet) {state : σ} (hstate : P state) :
    (editAllTextsWith edit s state).1 = editAllTexts new s ∧
      P (editAllTextsWith edit s state).2 := by
  have htexts (scope : Scope) (summary description : String) {state : σ} (hstate : P state) :
      (editTexts edit scope summary description state).1 =
          ⟨new scope summary, new scope description⟩ ∧
        P (editTexts edit scope summary description state).2 := by
    obtain ⟨hsummary, hnext⟩ := h scope summary state hstate
    obtain ⟨hdescription, hlast⟩ := h scope description _ hnext
    refine ⟨?_, hlast⟩
    simp only [editTexts, hsummary, hdescription]
  have hfiles (files : List File) {state : σ} (hstate : P state) :
      (editFiles edit state files).1 =
          (editFiles (fun scope text (_ : Unit) => (new scope text, ())) () files).1 ∧
        P (editFiles edit state files).2 := by
    induction files generalizing state with
    | nil => exact ⟨rfl, hstate⟩
    | cons f rest ih =>
      obtain ⟨hnew, hnext⟩ := htexts (.ofFile f) f.summary f.description hstate
      obtain ⟨hothers, hlast⟩ := ih hnext
      have hfile := congrArg (fun texts : NewTexts =>
        { f with summary := texts.summary, description := texts.description }) hnew
      exact ⟨congrArg₂ List.cons hfile hothers, hlast⟩
  have helements (entries : List (ElementRef × Item)) {state : σ} (hstate : P state) :
      (editElements edit s state entries).1 =
          (editElements (fun scope text (_ : Unit) => (new scope text, ())) s () entries).1 ∧
        P (editElements edit s state entries).2 := by
    induction entries generalizing state with
    | nil => exact ⟨rfl, hstate⟩
    | cons e rest ih =>
      obtain ⟨hnew, hnext⟩ :=
        htexts (s.scopeOf e.1) e.2.info.summary e.2.info.description hstate
      obtain ⟨hothers, hlast⟩ := ih hnext
      exact ⟨congrArg₂ List.cons (congrArg (Prod.mk e.1) hnew) hothers, hlast⟩
  obtain ⟨hedited, hnext⟩ := hfiles s.files hstate
  obtain ⟨hnew, hlast⟩ := helements s.present hnext
  refine ⟨?_, hlast⟩
  unfold editAllTexts editAllTextsWith
  dsimp only
  rw [hedited, hnew]

/-- Examples are put into the texts of a set as if each were looked up anew. -/
theorem editAllTextsWith_withExamples {finder : ExampleFinder} (s : ApiSet) {done : List Lookup}
    (hdone : AllOwn finder done) :
    (editAllTextsWith (withExamples finder) s done).1 =
        editAllTexts (fun _ => withExampleTexts finder) s ∧
      AllOwn finder (editAllTextsWith (withExamples finder) s done).2 :=
  editAllTextsWith_eq (P := AllOwn finder)
    (fun scope text _ hstate => withExamples_eq hstate scope text) s hdone

theorem allOwn_nil (finder : ExampleFinder) : AllOwn finder [] :=
  fun _ hl => absurd hl List.not_mem_nil

end Compile

end ApiDoc
