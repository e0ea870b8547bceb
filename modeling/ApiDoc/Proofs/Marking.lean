import ApiDoc.Proofs.Attachment
import ApiDoc.Proofs.RenamedFilter

/-!
# What becomes a marker

A line mentions a keyword where the keyword stands as a whole word. Of all such places the leftmost
counts, and of several keywords that stand there the one that was configured first. The markers of an
element are those of its tags, one keyword after the other, and those of the lines of its texts. A
file gets the markers of its indexed elements in the order of the index, each one that it does not
have yet. The step fails where an indexed element has no file, before anything is written, and a
second run finds the same markers and adds none.
-/

namespace ApiDoc

namespace Compile

/-! ### Keywords in a line -/

/-- The keyword stands as a whole word between the front and the back of a line. -/
structure StandsWhole (keyword : String) (front back : List Char) : Prop where
  begins : Text.isBoundary front.getLast? (keyword.toList ++ back).head? = true
  ends : Text.isBoundary (front ++ keyword.toList).getLast? back.head? = true

/-- None of the keywords stands behind the front of a line. -/
def NoneAt (keywords : List String) (front cs : List Char) : Prop :=
  ∀ k ∈ keywords, ∀ back, cs = k.toList ++ back → ¬ StandsWhole k front back

/-- Of the keywords that stand behind the front of a line, this is the one that comes first. -/
structure FirstAt (keywords : List String) (front cs : List Char) (keyword : String)
    (back : List Char) : Prop where
  split : cs = keyword.toList ++ back
  whole : StandsWhole keyword front back
  first : ∃ before after, keywords = before ++ keyword :: after ∧ NoneAt before front cs

/-- The keyword and what follows it, if it stands as a whole word in front of the text. -/
def standing? (left : Option Char) (cs : List Char) (k : String) : Option (String × List Char) :=
  match Text.after? k.toList cs with
  | none => none
  | some rest =>
    if Text.isBoundary left cs.head? && Text.isBoundary ((k.toList.getLast?).or left) rest.head? then
      some (k, rest)
    else none

theorem keywordAt_eq (keywords : List String) (left : Option Char) (cs : List Char) :
    keywordAt keywords left cs = keywords.findSome? (standing? left cs) := rfl

theorem standing?_eq_some_iff {front cs back : List Char} {k k' : String} :
    standing? front.getLast? cs k = some (k', back) ↔
      k' = k ∧ cs = k.toList ++ back ∧ StandsWhole k front back := by
  have hends : (k.toList.getLast?).or front.getLast? = (front ++ k.toList).getLast? :=
    List.getLast?_append.symm
  rw [standing?, hends]
  constructor
  · intro h
    split at h
    · simp at h
    · next rest hafter =>
      obtain rfl := Text.after?_eq_some_iff.mp hafter
      split at h
      · next hwhole =>
        obtain ⟨rfl, rfl⟩ := Prod.mk.inj (Option.some.inj h)
        rw [Bool.and_eq_true] at hwhole
        exact ⟨rfl, rfl, hwhole.1, hwhole.2⟩
      · simp at h
  · rintro ⟨rfl, rfl, hwhole⟩
    rw [Text.after?_append]
    simp only [hwhole.begins, hwhole.ends, Bool.and_self, if_true]

theorem keywordAt_cases (keywords : List String) (front cs : List Char) :
    (keywordAt keywords front.getLast? cs = none ∧ NoneAt keywords front cs) ∨
      ∃ k back, keywordAt keywords front.getLast? cs = some (k, back) ∧
        FirstAt keywords front cs k back := by
  have hfree {others : List String}
      (h : ∀ k ∈ others, standing? front.getLast? cs k = none) : NoneAt others front cs := by
    intro k hk back hsplit hwhole
    have hstands := standing?_eq_some_iff.mpr ⟨rfl, hsplit, hwhole⟩
    rw [h k hk] at hstands
    simp at hstands
  rw [keywordAt_eq]
  cases hfind : keywords.findSome? (standing? front.getLast? cs) with
  | none => exact .inl ⟨rfl, hfree (List.findSome?_eq_none_iff.mp hfind)⟩
  | some found =>
    obtain ⟨before, k, after, hkeywords, hk, hbefore⟩ := List.findSome?_eq_some_iff.mp hfind
    obtain ⟨hname, hsplit, hwhole⟩ := standing?_eq_some_iff.mp hk
    rw [← hname] at hkeywords hsplit hwhole
    exact .inr ⟨found.1, found.2, rfl, hsplit, hwhole, before, after, hkeywords, hfree hbefore⟩

/-- The search stops at the first place where a keyword stands, or there is none. -/
theorem findKeyword_cases (keywords : List String) (front cs : List Char) :
    (findKeyword keywords front.getLast? cs = none ∧
        ∀ mid rest, cs = mid ++ rest → NoneAt keywords (front ++ mid) rest) ∨
      ∃ mid rest k back, findKeyword keywords front.getLast? cs = some (k, back) ∧
        cs = mid ++ rest ∧ FirstAt keywords (front ++ mid) rest k back ∧
        ∀ mid' rest', cs = mid' ++ rest' → mid'.length < mid.length →
          NoneAt keywords (front ++ mid') rest' := by
  induction cs generalizing front with
  | nil =>
    rcases keywordAt_cases keywords front [] with ⟨hnone, hfree⟩ | ⟨k, back, hsome, hfirst⟩
    · refine .inl ⟨hnone, fun mid rest hsplit => ?_⟩
      obtain ⟨rfl, rfl⟩ := List.nil_eq_append_iff.mp hsplit
      rwa [List.append_nil]
    · refine .inr ⟨[], [], k, back, hsome, rfl, ?_, fun _ _ _ hlt => absurd hlt (by simp)⟩
      rwa [List.append_nil]
  | cons c cs ih =>
    have hlast : (front ++ [c]).getLast? = some c := List.getLast?_concat ..
    rcases keywordAt_cases keywords front (c :: cs) with ⟨hnone, hfree⟩ | ⟨k, back, hsome, hfirst⟩
    · -- No keyword stands in front of the character, so what the rest says is what the line says.
      have hstep : findKeyword keywords front.getLast? (c :: cs) =
          findKeyword keywords (front ++ [c]).getLast? cs := by
        rw [findKeyword, hnone, hlast]
      have hshift (mid' rest' : List Char) (hsplit : c :: cs = mid' ++ rest')
          (hrest : ∀ mid, mid' = c :: mid → cs = mid ++ rest' →
            NoneAt keywords (front ++ [c] ++ mid) rest') : NoneAt keywords (front ++ mid') rest' := by
        cases mid' with
        | nil =>
          obtain rfl : rest' = c :: cs := hsplit.symm
          rwa [List.append_nil]
        | cons d mid =>
          obtain ⟨rfl, hcs⟩ := List.cons.inj hsplit
          rw [List.append_cons]
          exact hrest mid rfl hcs
      rw [hstep]
      rcases ih (front ++ [c]) with ⟨hrest, hnever⟩ | ⟨mid, rest, k, back, hsome, rfl, hfirst, hleft⟩
      · exact .inl ⟨hrest, fun mid' rest' hsplit =>
          hshift mid' rest' hsplit fun mid _ hcs => hnever mid rest' hcs⟩
      · refine .inr ⟨c :: mid, rest, k, back, hsome, rfl, ?_, fun mid' rest' hsplit hlt =>
          hshift mid' rest' hsplit fun mid'' hmid hcs => hleft mid'' rest' hcs ?_⟩
        · rwa [List.append_cons]
        · rw [hmid] at hlt
          exact Nat.lt_of_succ_lt_succ hlt
    · refine .inr ⟨[], c :: cs, k, back, ?_, rfl, ?_, fun _ _ _ hlt => absurd hlt (by simp)⟩
      · rw [findKeyword, hsome]
      · rwa [List.append_nil]

/-- What a line mentions: the keyword between the front and the back stands there as a whole word, no
keyword does so further to the left, and no keyword that comes earlier does so at that place. -/
structure FirstMention (keywords : List String) (line front : List Char) (keyword : String)
    (back : List Char) : Prop where
  split : line = front ++ (keyword.toList ++ back)
  whole : StandsWhole keyword front back
  leftmost : ∀ k ∈ keywords, ∀ front' back', line = front' ++ (k.toList ++ back') →
    StandsWhole k front' back' → front.length ≤ front'.length
  first : ∃ before after, keywords = before ++ keyword :: after ∧
    ∀ k ∈ before, ∀ back', line = front ++ (k.toList ++ back') → ¬ StandsWhole k front back'

/-- No keyword stands in the line as a whole word. -/
def Unmentioned (keywords : List String) (line : List Char) : Prop :=
  ∀ k ∈ keywords, ∀ front back, line = front ++ (k.toList ++ back) → ¬ StandsWhole k front back

theorem FirstMention.not_unmentioned {keywords : List String} {line front back : List Char}
    {keyword : String} (h : FirstMention keywords line front keyword back) :
    ¬ Unmentioned keywords line := by
  obtain ⟨before, after, hkeywords, -⟩ := h.first
  exact fun hnone => hnone keyword (hkeywords ▸ List.mem_append_right _ List.mem_cons_self) front back
    h.split h.whole

/-- A line mentions one thing at most. -/
theorem FirstMention.unique {keywords : List String} {line front front' back back' : List Char}
    {k k' : String} (h : FirstMention keywords line front k back)
    (h' : FirstMention keywords line front' k' back') : k = k' ∧ back = back' := by
  obtain ⟨before, after, hkeywords, hfirst⟩ := h.first
  obtain ⟨before', after', hkeywords', hfirst'⟩ := h'.first
  have hmem : k ∈ keywords := hkeywords ▸ List.mem_append_right _ List.mem_cons_self
  have hmem' : k' ∈ keywords := hkeywords' ▸ List.mem_append_right _ List.mem_cons_self
  have hlength : front.length = front'.length := Nat.le_antisymm
    (h.leftmost k' hmem' front' back' h'.split h'.whole)
    (h'.leftmost k hmem front back h.split h.whole)
  obtain ⟨rfl, hrest⟩ := List.append_inj (h.split.symm.trans h'.split) hlength
  -- Of the two keywords none comes before the other.
  have hsame : k = k' := by
    rcases List.append_eq_append_iff.mp (hkeywords.symm.trans hkeywords') with
      ⟨between, hbefore, hafter⟩ | ⟨between, hbefore, hafter⟩
    · cases between with
      | nil => exact (List.cons.inj hafter).1
      | cons first between =>
        obtain rfl : k = first := (List.cons.inj hafter).1
        have hearly : k ∈ before' := hbefore ▸ List.mem_append_right _ List.mem_cons_self
        exact absurd h.whole (hfirst' k hearly back h.split)
    · cases between with
      | nil => exact (List.cons.inj hafter).1.symm
      | cons first between =>
        obtain rfl : k' = first := (List.cons.inj hafter).1
        have hearly : k' ∈ before := hbefore ▸ List.mem_append_right _ List.mem_cons_self
        exact absurd h'.whole (hfirst k' hearly back' h'.split)
  subst hsame
  exact ⟨rfl, List.append_cancel_left hrest⟩

/-- The search finds what the line mentions. -/
theorem keywordIn_cases (keywords : List String) (line : List Char) :
    (keywordIn keywords line = none ∧ Unmentioned keywords line) ∨
      ∃ front k back, keywordIn keywords line = some (k, messageAfter back) ∧
        FirstMention keywords line front k back := by
  rw [keywordIn]
  rcases findKeyword_cases keywords [] line with ⟨hnone, hnever⟩ | ⟨mid, rest, k, back, hsome, hsplit,
    ⟨hrest, hwhole, before, after, hkeywords, hbefore⟩, hleft⟩
  · rw [List.getLast?_nil] at hnone
    rw [hnone]
    exact .inl ⟨rfl, fun k hk front back hsplit => hnever front _ hsplit k hk back rfl⟩
  · rw [List.getLast?_nil] at hsome
    rw [hsome]
    subst hrest
    refine .inr ⟨mid, k, back, rfl, hsplit, hwhole, fun other hother front' back' hother' hstands =>
      ?_, before, after, hkeywords, fun other hother back' hother' => ?_⟩
    · by_contra hlt
      exact hleft front' _ hother' (Nat.lt_of_not_le hlt) other hother back' rfl hstands
    · exact hbefore other hother back' (List.append_cancel_left (hsplit.symm.trans hother'))

/-! ### Markers of an element -/

/-- The markers that the lines of a text give: one for each line that mentions something, with the
line of the element. -/
inductive LineMarkers (keywords : List String) (number : Nat) :
    List (List Char) → List Marker → Prop
  | nil : LineMarkers keywords number [] []
  | silent {line : List Char} {rest : List (List Char)} {markers : List Marker} :
      Unmentioned keywords line → LineMarkers keywords number rest markers →
      LineMarkers keywords number (line :: rest) markers
  | mention {line front back : List Char} {k : String} {rest : List (List Char)}
      {markers : List Marker} :
      FirstMention keywords line front k back → LineMarkers keywords number rest markers →
      LineMarkers keywords number (line :: rest) (⟨k, messageAfter back, number⟩ :: markers)

/-- The markers of an element: for each keyword one for every tag that bears its name in lower case,
then those of the lines of the summary and of the description. -/
def ElementMarkers (keywords : List String) (info : Info) (markers : List Marker) : Prop :=
  ∃ inSummary inDescription,
    LineMarkers keywords info.line (Text.lines info.summary.toList) inSummary ∧
    LineMarkers keywords info.line (Text.lines info.description.toList) inDescription ∧
    markers = keywords.flatMap (fun k =>
        (info.tags.get (Text.lowercase k)).map fun t => ⟨k, t.description, info.line⟩) ++
      inSummary ++ inDescription

theorem lineMarkers_iff {keywords : List String} {number : Nat} {lines : List (List Char)}
    {markers : List Marker} : LineMarkers keywords number lines markers ↔
      markers = lines.filterMap fun line =>
        (keywordIn keywords line).map fun (k, message) => ⟨k, message, number⟩ := by
  constructor
  · intro h
    induction h with
    | nil => rfl
    | @silent line _ _ hnone _ ih =>
      rcases keywordIn_cases keywords line with ⟨hline, -⟩ | ⟨_, _, _, -, hfirst⟩
      · rw [ih, List.filterMap_cons, hline]
        rfl
      · exact absurd hnone hfirst.not_unmentioned
    | @mention line _ _ _ _ _ hmention _ ih =>
      rcases keywordIn_cases keywords line with ⟨-, hnone⟩ | ⟨_, _, _, hline, hfirst⟩
      · exact absurd hnone hmention.not_unmentioned
      · obtain ⟨rfl, rfl⟩ := hmention.unique hfirst
        rw [ih, List.filterMap_cons, hline]
        rfl
  · rintro rfl
    induction lines with
    | nil => exact .nil
    | cons line rest ih =>
      rw [List.filterMap_cons]
      rcases keywordIn_cases keywords line with ⟨hline, hnone⟩ | ⟨_, _, _, hline, hfirst⟩
      · rw [hline]
        exact .silent hnone ih
      · rw [hline]
        exact .mention hfirst ih

theorem elementMarkers_iff {keywords : List String} {info : Info} {markers : List Marker} :
    ElementMarkers keywords info markers ↔ markers = markersOf keywords info := by
  simp only [ElementMarkers, lineMarkers_iff]
  constructor
  · rintro ⟨_, _, rfl, rfl, rfl⟩
    rfl
  · rintro rfl
    exact ⟨_, _, rfl, rfl, rfl⟩

/-! ### Markers of a file -/

theorem markers_addMarkers (found : List Marker) (f : File) :
    found.foldl (fun f m => addMarker m f) f =
      { f with markers := f.markers ++ (found.filter (· ∉ f.markers)).eraseDups } := by
  induction found generalizing f with
  | nil => simp
  | cons m rest ih =>
    rw [List.foldl_cons, ih, addMarker]
    by_cases hm : m ∈ f.markers
    · rw [if_pos (List.contains_iff_mem.mpr hm), List.filter_cons_of_neg (by simpa using hm)]
    · rw [if_neg (mt List.contains_iff_mem.mp hm), List.filter_cons_of_pos (by simpa using hm),
        List.eraseDups_cons, List.filter_filter, List.append_assoc, List.singleton_append]
      have hsame : (rest.filter fun a => decide (a ∉ f.markers ++ [m])) =
          rest.filter fun a => (!a == m) && decide (a ∉ f.markers) := by
        refine List.filter_congr fun a _ => ?_
        by_cases ha : a = m <;> by_cases hmem : a ∈ f.markers <;> simp [ha, hmem]
      rw [hsame]

end Compile

namespace ApiSet

open Compile

/-- The addresses in the index of elements, in the order of their keys. -/
def indexed (s : ApiSet) : List ElementRef :=
  (s.index Index.elements).values.filterMap Target.element?

/-- The elements of a file that addresses in the index of elements lead to, in the order of the
index. -/
def indexedIn (s : ApiSet) (id : Nat) : List Item :=
  (s.indexed.filter (·.file = id)).filterMap s.item?

/-- The set with the markers of the indexed elements at their files: behind the markers that a file
had stand those of its elements that are not among them, each once. -/
structure MarkedAs (keywords : List String) (s t : ApiSet) : Prop where
  rest : t = { s with files := t.files }
  length_eq : t.files.length = s.files.length
  file : ∀ id f, s.file? id = some f → ∃ found,
    List.Forall₂ (fun item => ElementMarkers keywords item.info) (s.indexedIn id) found ∧
      t.file? id = some
        { f with markers := f.markers ++ (found.flatten.filter (· ∉ f.markers)).eraseDups }

end ApiSet

namespace Compile

/-- The markers of the element at an address, with the number of its file. -/
def markersBehind (keywords : List String) (s : ApiSet) (ref : ElementRef) : List (Nat × Marker) :=
  (((s.item? ref).map fun item => markersOf keywords item.info).getD []).map fun m => (ref.file, m)

/-- Looking for markers fails at the first address that names a missing file. -/
theorem markersIn_eq (keywords : List String) (s : ApiSet) :
    markersIn keywords s =
      match s.indexed.find? fun ref => (s.file? ref.file).isNone with
      | some ref => .error (.orphanedElement ref.fqsen.text)
      | none => .ok (s.indexed.flatMap (markersBehind keywords s)) := by
  rw [markersIn_eq_mapM, ApiSet.indexed, List.flatMap]
  generalize (s.index Index.elements).values.filterMap Target.element? = refs
  have hmapM (refs : List ElementRef) : refs.mapM (markersAt keywords s) =
      match refs.find? fun ref => (s.file? ref.file).isNone with
      | some ref => .error (.orphanedElement ref.fqsen.text)
      | none => .ok (refs.map (markersBehind keywords s)) := by
    induction refs with
    | nil => rfl
    | cons ref rest ih =>
      rw [List.mapM_cons, List.find?_cons, markersAt]
      cases hfile : (s.file? ref.file).isNone with
      | true => rfl
      | false =>
        rw [ih]
        cases rest.find? fun ref => (s.file? ref.file).isNone <;> rfl
  rw [hmapM]
  cases refs.find? fun ref => (s.file? ref.file).isNone <;> rfl

/-- The set with markers at files, each where it is not yet. -/
def addMarkers (found : List (Nat × Marker)) (s : ApiSet) : ApiSet :=
  found.foldl (fun s e => s.modifyFile e.1 (addMarker e.2)) s

theorem file?_addMarkers (found : List (Nat × Marker)) (s : ApiSet) (id : Nat) :
    (addMarkers found s).file? id = (s.file? id).map fun f =>
      { f with markers := f.markers ++
        (((found.filter (·.1 = id)).map Prod.snd).filter (· ∉ f.markers)).eraseDups } := by
  rw [addMarkers, ApiSet.file?_foldl_modifyFile Prod.fst (fun e => addMarker e.2)]
  refine congrArg (Option.map · (s.file? id)) (funext fun f => ?_)
  rw [← markers_addMarkers, List.foldl_map]

/-- The markers for one file are those of its indexed elements. -/
theorem filter_markersBehind (keywords : List String) (s : ApiSet) (refs : List ElementRef)
    (id : Nat) : ((refs.flatMap (markersBehind keywords s)).filter (·.1 = id)).map Prod.snd =
      (((refs.filter (·.file = id)).filterMap s.item?).map fun item =>
        markersOf keywords item.info).flatten := by
  induction refs with
  | nil => rfl
  | cons ref rest ih =>
    rw [List.flatMap_cons, List.filter_append, List.map_append, ih]
    by_cases href : ref.file = id
    · rw [List.filter_cons_of_pos (by simpa using href)]
      cases hitem : s.item? ref with
      | none => simp [markersBehind, hitem]
      | some item => simp [markersBehind, hitem, href, List.filter_map, Function.comp_def]
    · rw [List.filter_cons_of_neg (by simpa using href)]
      simp [markersBehind, href]

theorem markedAs_addMarkers (keywords : List String) (s : ApiSet) :
    s.MarkedAs keywords (addMarkers (s.indexed.flatMap (markersBehind keywords s)) s) := by
  obtain ⟨files, hfiles⟩ := ApiSet.foldl_modifyFile_eq Prod.fst (fun e => addMarker e.2)
    (s.indexed.flatMap (markersBehind keywords s)) s
  have hretouch : s.Retouch (fun _ => ())
      (addMarkers (s.indexed.flatMap (markersBehind keywords s)) s) := retouch_addMarkers _ s
  refine ⟨?_, hretouch.length_eq, fun id f hf => ?_⟩
  · rw [addMarkers, hfiles]
  · refine ⟨(s.indexedIn id).map fun item => markersOf keywords item.info, ?_, ?_⟩
    · exact List.forall₂_map_right_iff.mpr
        (List.forall₂_same.mpr fun item _ => elementMarkers_iff.mpr rfl)
    · rw [file?_addMarkers, hf, filter_markersBehind]
      rfl

section Again

variable (found : List (Nat × Marker)) (s : ApiSet)

theorem indexed_addMarkers : (addMarkers found s).indexed = s.indexed := by
  have hframe : (addMarkers found s).frame = s.frame := by
    refine ApiSet.frame_foldl (fun s e => ?_) found s
    rfl
  rw [ApiSet.indexed, ApiSet.index_congr hframe, ApiSet.indexed]

/-- Markers are not read from markers. -/
theorem markersIn_addMarkers (keywords : List String) :
    markersIn keywords (addMarkers found s) = markersIn keywords s := by
  have hretouch : s.Retouch (fun item => item) (addMarkers found s) := retouch_addMarkers found s
  have hitem (ref : ElementRef) : (addMarkers found s).item? ref = s.item? ref :=
    hretouch.item?_eq ref
  have hfile (id : Nat) : ((addMarkers found s).file? id).isNone = (s.file? id).isNone := by
    rw [file?_addMarkers, Option.isNone_map]
  have hbehind : markersBehind keywords (addMarkers found s) = markersBehind keywords s :=
    funext fun ref => by rw [markersBehind, hitem, markersBehind]
  rw [markersIn_eq, markersIn_eq, indexed_addMarkers, hbehind]
  simp only [hfile]

/-- The same markers are not added again. -/
theorem addMarkers_addMarkers : addMarkers found (addMarkers found s) = addMarkers found s := by
  refine foldl_eq_self fun e he => modifyFile_eq_self fun g hg => ?_
  rw [file?_addMarkers] at hg
  obtain ⟨f, -, rfl⟩ := Option.map_eq_some_iff.mp hg
  rw [addMarker, if_pos]
  rw [List.contains_iff_mem, List.mem_append]
  by_cases hold : e.2 ∈ f.markers
  · exact .inl hold
  · refine .inr (List.mem_eraseDups.mpr (List.mem_filter.mpr ⟨?_, by simpa using hold⟩))
    exact List.mem_map_of_mem (List.mem_filter.mpr ⟨he, by simp⟩)

end Again

theorem mark_eq {keywords : List String} (hne : keywords ≠ []) (s : ApiSet) :
    mark keywords s =
      match markersIn keywords s with
      | .error e => .fail s e
      | .ok found => { state := addMarkers found s } := by
  have hempty : keywords.isEmpty = false := by simpa using hne
  rw [mark, hempty]
  cases markersIn keywords s <;> rfl

/-- A second run comes to what the first one came to. -/
theorem mark_mark (keywords : List String) (s : ApiSet) :
    mark keywords (mark keywords s).state = mark keywords s := by
  by_cases hne : keywords = []
  · subst hne
    rfl
  · cases hfound : markersIn keywords s with
    | error e =>
      have hfirst : mark keywords s = .fail s e := by rw [mark_eq hne, hfound]
      rw [hfirst]
      exact hfirst
    | ok found =>
      have hfirst : mark keywords s = { state := addMarkers found s } := by rw [mark_eq hne, hfound]
      rw [hfirst, mark_eq hne, markersIn_addMarkers, hfound]
      simp only [addMarkers_addMarkers]

/-- The markers of a set: if an indexed element has no file, looking for them fails at the first such
element and leaves the set as it is; else every file gets the markers of its indexed elements, and
nothing else is changed. Looking for them again changes nothing. -/
theorem markedAs_mark {keywords : List String} (hne : keywords ≠ []) (s : ApiSet) :
    ((∃ ref ∈ s.indexed, s.file? ref.file = none) → ∃ front ref back,
      s.indexed = front ++ ref :: back ∧ (∀ r ∈ front, (s.file? r.file).isSome) ∧
        s.file? ref.file = none ∧
        (mark keywords s).failure = some (.orphanedElement ref.fqsen.text) ∧
        (mark keywords s).state = s) ∧
    ((∀ ref ∈ s.indexed, (s.file? ref.file).isSome) →
      (mark keywords s).failure = none ∧ s.MarkedAs keywords (mark keywords s).state) ∧
    mark keywords (mark keywords s).state = mark keywords s := by
  refine ⟨?_, fun hfiles => ?_, mark_mark keywords s⟩
  · rintro ⟨orphan, horphan, hnone⟩
    rw [mark_eq hne, markersIn_eq]
    cases hfind : s.indexed.find? fun ref => (s.file? ref.file).isNone with
    | none =>
      have hsome := List.find?_eq_none.mp hfind orphan horphan
      simp [hnone] at hsome
    | some ref =>
      obtain ⟨href, front, back, hsplit, hfront⟩ := List.find?_eq_some_iff_append.mp hfind
      refine ⟨front, ref, back, hsplit, fun r hr => ?_, by simpa using href, rfl, rfl⟩
      simpa [Option.isSome_iff_ne_none] using hfront r hr
  · have hfind : (s.indexed.find? fun ref => (s.file? ref.file).isNone) = none := by
      refine List.find?_eq_none.mpr fun ref href => ?_
      simpa [Option.isSome_iff_ne_none] using hfiles ref href
    rw [mark_eq hne, markersIn_eq, hfind]
    exact ⟨rfl, markedAs_addMarkers keywords s⟩

/-- A set of one class whose documentation has a keyword in a line and another one as a tag. -/
def sums : ApiSet := withIndexes <| .ofSources
  [⟨"sum.php", "<?php\n/** Adds up. FIXME: overflow\n * @todo round the sum */\nclass Sum \x7b\x7d"⟩]

/-- The tag comes first, for its keyword was configured first. -/
theorem markedAs_mark_sums :
    (mark ["TODO", "FIXME"] sums).failure = none ∧
      sums.MarkedAs ["TODO", "FIXME"] (mark ["TODO", "FIXME"] sums).state ∧
      (mark ["TODO", "FIXME"] sums).state.files.map File.markers =
        [[⟨"TODO", "round the sum", 4⟩, ⟨"FIXME", "overflow", 4⟩]] := by
  obtain ⟨-, hmarked, -⟩ := markedAs_mark (show ["TODO", "FIXME"] ≠ [] by decide) sums
  obtain ⟨hnone, hfiles⟩ := hmarked (by decide +kernel)
  exact ⟨hnone, hfiles, by decide +kernel⟩

end Compile

/-! ### Runs on projects -/

/-- A step that comes to the same when it is repeated on every item does so on all of them, also if
it fails at one. -/
theorem Attempt.visit_visit {α : Type} {step : α → Attempt α}
    (h : ∀ x, step (step x).state = step x) (xs : List α) :
    visit step (visit step xs).state = visit step xs := by
  induction xs with
  | nil => rfl
  | cons x rest ih =>
    have hx := h x
    cases hfailure : (step x).failure with
    | some e => simp only [visit, hfailure, hx]
    | none => simp only [visit, hfailure, hx, ih]

theorem Project.visitSets_visitSets {step : DocSet → Attempt DocSet}
    (h : ∀ d, step (step d).state = step d) (p : Project) :
    (p.visitSets step).state.visitSets step = p.visitSets step := by
  refine congrArg (Attempt.map fun versions => { p with versions := versions }) ?_
  refine Attempt.visit_visit (fun v => ?_) p.versions
  exact congrArg (Attempt.map fun sets => { v with sets := sets }) (Attempt.visit_visit h v.sets)

theorem Project.visitApis_visitApis {step : ApiSet → Attempt ApiSet}
    (h : ∀ s, step (step s).state = step s) (p : Project) :
    (p.visitApis step).state.visitApis step = p.visitApis step := by
  refine visitSets_visitSets (fun d => ?_) p
  cases d with
  | api s => exact congrArg (Attempt.map DocSet.api) (h s)
  | guide g => rfl

/-- The step that lists markers comes to the same when it is repeated. -/
theorem Compile.markersPass_again (services : Services) (p : Project) :
    markersPass.run services (markersPass.run services p).state = markersPass.run services p :=
  Project.visitApis_visitApis (mark_mark p.settings.markers) p

end ApiDoc
