import ApiDoc.Proofs.Independence
import ApiDoc.Proofs.Listing
import ApiDoc.Proofs.Seams

/-!
# Examples, each expanded by itself

The step that puts examples into texts searches only some texts for tags and keeps what it looked up.
Main statement: it leaves what a plain replacement of the tags of every text leaves, and it looks up
what the tags ask for once for each tag text. The texts are those of all files and of all elements
that a listed address leads to; so a listed element is left out exactly if no listed address leads
to it, as with a constant outside class-likes that has the name of a member.
-/

namespace ApiDoc

namespace InlineTag

/-! ### The tags of a text -/

def tags (text : String) : List InlineTag := (scan text).map Found.tag

theorem mem_map_tag_foundFrom_iff {pieces : List Segment} {offset : Nat} {t : InlineTag} :
    t ∈ (foundFrom offset pieces).map Found.tag ↔ .tag t ∈ pieces := by
  induction pieces generalizing offset with
  | nil => simp [foundFrom]
  | cons p rest ih => cases p <;> simp [foundFrom, ih]

theorem mem_tags_iff {text : String} {t : InlineTag} : t ∈ tags text ↔ .tag t ∈ segments text :=
  mem_map_tag_foundFrom_iff

/-- The last state of a replacement is what one tag after the other leaves. -/
theorem substituteWith_snd {σ : Type} (f : InlineTag → σ → Option String × σ)
    (pieces : List Segment) (offset : Nat) (state : σ) :
    (substituteWith f pieces state).2 =
      ((foundFrom offset pieces).map Found.tag).foldl (fun state t => (f t state).2) state := by
  induction pieces generalizing offset state with
  | nil => rfl
  | cons p rest ih => cases p <;> exact ih _ _

theorem substitute_congr {f g : InlineTag → Option String} {text : String}
    (h : ∀ t ∈ tags text, f t = g t) : substitute f text = substitute g text := by
  rw [← String.toList_inj, toList_substitute, toList_substitute, List.flatMap_def, List.flatMap_def]
  refine congrArg List.flatten (List.map_congr_left fun p hp => ?_)
  cases p with
  | char c => rfl
  | tag t => rw [written, written, h t (mem_tags_iff.mpr hp)]

end InlineTag

/-! ### Replaced texts -/

namespace ApiSet

/-- A listed address leads to the spot. -/
def LedTo (s : ApiSet) (id : Nat) (p : Spot) : Prop :=
  ∃ ref ∈ s.allElements, ref.file = id ∧ s.spotOf ref = some p

def Listed (s : ApiSet) (id : Nat) (p : Spot) : Prop :=
  ∃ f, s.file? id = some f ∧ p ∈ f.listing.map Prod.fst

/-- A set with texts replaced: those of all files and those of the elements at the chosen spots.
Everything else is as it was. -/
structure ReplacedAt (text : String → String) (s : ApiSet) (chosen : Nat → Spot → Prop)
    (t : ApiSet) : Prop where
  rest : t.reword { text := fun _ => "" } = s.reword { text := fun _ => "" }
  files : t.files.map (fun f => (f.summary, f.description)) =
    s.files.map fun f => (text f.summary, text f.description)
  here : ∀ id p, chosen id p →
    t.at? id p = (s.at? id p).map (Item.mapInfo (Wording.info { text := text }))
  away : ∀ id p, ¬ chosen id p → t.at? id p = s.at? id p

namespace ReplacedAt

variable {text : String → String} {s t u : ApiSet} {chosen other : Nat → Spot → Prop}

/-- What the replacement leaves is determined. -/
theorem unique (ht : s.ReplacedAt text chosen t) (hu : s.ReplacedAt text chosen u) : t = u := by
  refine Compile.eq_of_texts_eq (ht.rest.trans hu.rest.symm) (ht.files.trans hu.files.symm)
    fun id p => ?_
  by_cases hp : chosen id p
  · rw [ht.here id p hp, hu.here id p hp]
  · rw [ht.away id p hp, hu.away id p hp]

/-- Replacing texts at some spots is replacing them at others exactly if that makes no difference to
the elements at spots which are among one of them only. -/
theorem iff_forall (h : s.ReplacedAt text chosen t) :
    s.ReplacedAt text other t ↔ ∀ id p item, s.at? id p = some item →
      ¬ (chosen id p ↔ other id p) → item.mapInfo (Wording.info { text := text }) = item := by
  constructor
  · intro hother id p item hitem hdiffers
    by_cases hp : chosen id p
    · have hnot : ¬ other id p := fun ho => hdiffers ⟨fun _ => ho, fun _ => hp⟩
      have hsame := (h.here id p hp).symm.trans (hother.away id p hnot)
      simpa [hitem] using hsame
    · have ho : other id p := by
        by_contra hnot
        exact hdiffers ⟨fun hc => absurd hc hp, fun hc => absurd hc hnot⟩
      have hsame := (hother.here id p ho).symm.trans (h.away id p hp)
      simpa [hitem] using hsame
  · intro hsame
    -- where the choices differ, the replaced element is the old one
    have hboth (id : Nat) (p : Spot) (hdiffers : ¬ (chosen id p ↔ other id p)) :
        (s.at? id p).map (Item.mapInfo (Wording.info { text := text })) = s.at? id p := by
      cases hitem : s.at? id p with
      | none => rfl
      | some item => rw [Option.map_some, hsame id p item hitem hdiffers]
    refine ⟨h.rest, h.files, fun id p ho => ?_, fun id p ho => ?_⟩
    · by_cases hp : chosen id p
      · exact h.here id p hp
      · rw [h.away id p hp, hboth id p fun hiff => hp (hiff.mpr ho)]
    · by_cases hp : chosen id p
      · rw [h.here id p hp, hboth id p fun hiff => ho (hiff.mp hp)]
      · exact h.away id p hp

end ReplacedAt

/-- In a set whose elements have the names they are kept under, the spots of listed elements are
those that listed addresses lead to, but for constants outside class-likes that have the name of a
member. -/
theorem Keyed.ledTo_iff_listed_iff {s : ApiSet} (hs : s.Keyed) {id : Nat} {p : Spot} {item : Item}
    (hitem : s.at? id p = some item) :
    (s.LedTo id p ↔ s.Listed id p) ↔
      ∀ key, p = .top .constant key → item.info.fqsen.isMember = false := by
  obtain ⟨f, hf, hat⟩ := Option.bind_eq_some_iff.mp hitem
  have hkeyed := hs id f hf
  have hlisted : s.Listed id p ↔ (p, item) ∈ f.listing := by
    constructor
    · rintro ⟨g, hg, hmem⟩
      obtain rfl := Option.some.inj (hf.symm.trans hg)
      obtain ⟨⟨q, other⟩, hplaced, rfl⟩ := List.mem_map.mp hmem
      have hother : f.at? q = some other := ((File.mem_listing_iff hkeyed).mp hplaced).1
      obtain rfl : other = item := Option.some.inj (hother.symm.trans hat)
      exact hplaced
    · exact fun hmem => ⟨f, hf, List.mem_map_of_mem hmem⟩
  have hled : s.LedTo id p ↔ f.spotOf item.kind item.info.fqsen = some p := by
    constructor
    · rintro ⟨ref, -, rfl, hspot⟩
      rw [spotOf, hf] at hspot
      exact hkeyed.spotOf_self hspot hat
    · intro hspot
      exact ⟨_, (mem_present_iff.mp (Compile.mem_present_of_reached hf hkeyed hspot hat)).1, rfl,
        by rw [spotOf, hf]; exact hspot⟩
  have hsub : f.spotOf item.kind item.info.fqsen = some p → (p, item) ∈ f.listing := fun hspot =>
    (File.mem_listing_iff hkeyed).mpr ⟨hat, File.lists_of_spotOf hspot⟩
  rw [hled, hlisted]
  constructor
  · rintro hiff key rfl
    have hmem : (.top .constant key, item) ∈ f.listing :=
      (File.mem_listing_iff hkeyed).mpr ⟨hat, trivial⟩
    exact (File.spotOf_listing_iff hkeyed hmem).mp (hiff.mpr hmem) key rfl
  · exact fun houtside => ⟨hsub, fun hmem => (File.spotOf_listing_iff hkeyed hmem).mpr houtside⟩

/-- The texts that an edit of all texts goes through: those of the files, then those of the elements
that listed addresses lead to. -/
def texts (s : ApiSet) : List String :=
  s.files.flatMap (fun f => [f.summary, f.description]) ++
    s.present.flatMap fun e => [e.2.info.summary, e.2.info.description]

end ApiSet

def Project.texts (p : Project) : List String := p.apiSets.flatMap ApiSet.texts

namespace Compile

/-- Editing all texts alike replaces the texts of all files and of the elements that listed addresses
lead to. -/
theorem replacedAt_editAllTexts (g : String → String) (s : ApiSet) :
    s.ReplacedAt g s.LedTo (editAllTexts (fun _ => g) s) := by
  have hstart : s.Retouch (fun item => item) { s with files := s.files.map fun f =>
      { f with summary := g f.summary, description := g f.description } } :=
    .mapFiles s fun f => File.Retouch.of_declarations rfl rfl rfl rfl rfl
  have hsame (id : Nat) (p : Spot) := hstart.view_eq id p
  simp only [Option.map_id'] at hsame
  have hpresent : ∀ e ∈ s.present, s.item? e.1 = some e.2 := fun e he =>
    (ApiSet.mem_present_iff.mp he).2
  refine ⟨reword_editAllTexts (fun _ _ => rfl) _ s, texts_editAllTexts (fun _ => g) s,
    fun id p hp => ?_, fun id p hp => ?_⟩
  · cases hitem : s.at? id p with
    | none =>
      have hnone := (retouch_editAllTexts (fun _ => g) s).1.isSome_at? id p
      simpa [hitem] using hnone
    | some item =>
      obtain ⟨ref, hall, rfl, hspot⟩ := hp
      have hfound : s.item? ref = some item := by rw [ApiSet.item?_eq, hspot, Option.bind_some, hitem]
      rw [editAllTexts_eq, at?_putTexts (g := g) (k := fun _ => g) hpresent (fun _ _ _ _ => rfl)
        hstart.spotOf_eq (.inl (hsame _ _))
        (.inr ⟨_, ApiSet.mem_present_iff.mpr ⟨hall, hfound⟩, rfl, hspot⟩), hitem]
  · have hkeeps : (s.at? id p).map (Item.mapInfo (Wording.info { text := fun a => a })) =
        s.at? id p := Option.map_id'
    have haway (e : ElementRef × Item) (he : e ∈ s.present) (hfile : e.1.file = id)
        (hspot : s.spotOf e.1 = some p) : (fun _ => g) e.1 = fun a => a :=
      absurd ⟨e.1, (ApiSet.mem_present_iff.mp he).1, hfile, hspot⟩ hp
    rw [editAllTexts_eq, at?_putTexts (k := fun _ => g) hpresent haway hstart.spotOf_eq (.inl (hsame _ _))
      (.inl ((hsame _ _).trans hkeeps.symm)), hkeeps]

/-- What an edit of all texts has come to: what one text after the other leaves. -/
theorem editAllTextsWith_snd {σ : Type} {edit : TextEdit σ} {next : σ → String → σ}
    (h : ∀ scope text state, (edit scope text state).2 = next state text) (s : ApiSet) (state : σ) :
    (editAllTextsWith edit s state).2 = s.texts.foldl next state := by
  have htexts (scope : Scope) (summary description : String) (state : σ) :
      (editTexts edit scope summary description state).2 =
        [summary, description].foldl next state := by
    simp only [editTexts, h, List.foldl_cons, List.foldl_nil]
  have hfiles (files : List File) (state : σ) : (editFiles edit state files).2 =
      (files.flatMap fun f => [f.summary, f.description]).foldl next state := by
    induction files generalizing state with
    | nil => rfl
    | cons f rest ih => rw [List.flatMap_cons, List.foldl_append, ← htexts (.ofFile f), ← ih]; rfl
  have helements (entries : List (ElementRef × Item)) (state : σ) :
      (editElements edit s state entries).2 =
        (entries.flatMap fun e => [e.2.info.summary, e.2.info.description]).foldl next state := by
    induction entries generalizing state with
    | nil => rfl
    | cons e rest ih =>
      rw [List.flatMap_cons, List.foldl_append, ← htexts (s.scopeOf e.1), ← ih]
      rfl
  rw [ApiSet.texts, List.foldl_append, ← hfiles, ← helements]
  rfl

/-- An edit of all texts depends on what it makes of the texts of the set only. -/
theorem editAllTexts_congr {g h : String → String} {s : ApiSet} (heq : ∀ text ∈ s.texts, g text = h text) :
    editAllTexts (fun _ => g) s = editAllTexts (fun _ => h) s := by
  have hfiles (f : File) (hf : f ∈ s.files) : g f.summary = h f.summary ∧
      g f.description = h f.description := by
    have hmem : ∀ text ∈ [f.summary, f.description], g text = h text := fun text htext =>
      heq text (List.mem_append_left _ (List.mem_flatMap.mpr ⟨f, hf, htext⟩))
    exact ⟨hmem _ (by simp), hmem _ (by simp)⟩
  have helements (e : ElementRef × Item) (he : e ∈ s.present) : newTexts g e.2 = newTexts h e.2 := by
    have hmem : ∀ text ∈ [e.2.info.summary, e.2.info.description], g text = h text :=
      fun text htext => heq text (List.mem_append_right _ (List.mem_flatMap.mpr ⟨e, he, htext⟩))
    rw [newTexts, newTexts, hmem _ (by simp), hmem _ (by simp)]
  rw [editAllTexts_eq, editAllTexts_eq]
  congr 1
  · refine congrArg (fun files => { s with files := files }) (List.map_congr_left fun f hf => ?_)
    rw [(hfiles f hf).1, (hfiles f hf).2]
  · exact List.map_congr_left fun e he => by rw [helements e he]

/-! ### Look-ups -/

/-- What a tag asks for, with the answer. -/
def lookup? (finder : ExampleFinder) (t : InlineTag) : Option Lookup :=
  if t.name ≠ "example" then none
  else (ExampleRequest.parse? t.argument).map fun request => ⟨t.raw, request, finder request⟩

variable {finder other : ExampleFinder} {t : InlineTag}

theorem exampleText_eq (finder : ExampleFinder) (t : InlineTag) :
    exampleText finder t = (lookup? finder t).map Lookup.text := by
  rw [exampleText, lookup?]
  split
  · rfl
  · rw [Option.map_map]
    rfl

theorem raw_of_lookup? {l : Lookup} (h : lookup? finder t = some l) : l.raw = t.raw := by
  rw [lookup?] at h
  split at h
  · simp at h
  · obtain ⟨request, -, rfl⟩ := Option.map_eq_some_iff.mp h
    rfl

/-- What a tag asks for is answered alike by whoever answers that request alike. -/
theorem lookup?_congr (h : ∀ l, lookup? finder t = some l → other l.request = finder l.request) :
    lookup? other t = lookup? finder t := by
  rw [lookup?, lookup?] at *
  split at h
  · next hname => rw [if_pos hname, if_pos hname]
  · next hname =>
    rw [if_neg hname, if_neg hname]
    refine Option.map_congr fun request hrequest => ?_
    rw [h ⟨t.raw, request, finder request⟩ (by rw [hrequest]; rfl)]

/-- A tag adds what it asks for, unless a tag of this text was met before. -/
theorem exampleFor_snd (finder : ExampleFinder) (t : InlineTag) (done : List Lookup) :
    (exampleFor finder t done).2 =
      if t.raw ∈ done.map Lookup.raw then done else done ++ (lookup? finder t).toList := by
  rw [exampleFor, lookup?]
  by_cases hname : t.name ≠ "example"
  · rw [if_pos hname, if_pos hname, Option.toList_none, List.append_nil, ite_self]
  rw [if_neg hname, if_neg hname]
  cases hfind : done.find? (·.raw = t.raw) with
  | some l =>
    have hraw : l.raw = t.raw := by simpa using List.find?_some hfind
    rw [if_pos (List.mem_map.mpr ⟨l, List.mem_of_find?_eq_some hfind, hraw⟩)]
  | none =>
    have hnew : t.raw ∉ done.map Lookup.raw := fun hmem => by
      obtain ⟨l, hl, hraw⟩ := List.mem_map.mp hmem
      have hother := List.find?_eq_none.mp hfind l hl
      simp [hraw] at hother
    rw [if_neg hnew]
    cases hrequest : ExampleRequest.parse? t.argument with
    | none => exact (List.append_nil done).symm
    | some request => rfl

def lookedUp (finder : ExampleFinder) (tags : List InlineTag) (done : List Lookup) : List Lookup :=
  tags.foldl (fun done t => (exampleFor finder t done).2) done

theorem lookedUp_append (before behind : List InlineTag) (done : List Lookup) :
    lookedUp finder (before ++ behind) done =
      lookedUp finder behind (lookedUp finder before done) :=
  List.foldl_append

/-- The look-ups are what the tags ask for, each tag text once. -/
structure Serves (finder : ExampleFinder) (tags : List InlineTag) (done : List Lookup) : Prop where
  nodup : (done.map Lookup.raw).Nodup
  mem_iff : ∀ l, l ∈ done ↔ ∃ t ∈ tags, lookup? finder t = some l

/-- One more tag is served. -/
theorem Serves.step {tags : List InlineTag} {done : List Lookup} (h : Serves finder tags done)
    (hread : ∀ u ∈ tags ++ [t], ∃ rest width, InlineTag.at? rest = some (u, width)) :
    Serves finder (tags ++ [t]) (exampleFor finder t done).2 := by
  have hlast (l : Lookup) : (∃ u ∈ tags ++ [t], lookup? finder u = some l) ↔
      l ∈ done ∨ lookup? finder t = some l := by
    simp only [List.mem_append, List.mem_singleton, or_and_right, exists_or, exists_eq_left,
      h.mem_iff]
  rw [exampleFor_snd]
  split
  · next hmem =>
    refine ⟨h.nodup, fun l => ?_⟩
    obtain ⟨old, hold, hraw⟩ := List.mem_map.mp hmem
    obtain ⟨u, hu, hserved⟩ := (h.mem_iff old).mp hold
    -- the tag that was served has the same text, so it is the same tag
    obtain ⟨rest, width, hfirst⟩ := hread u (List.mem_append_left _ hu)
    obtain ⟨rest', width', hagain⟩ := hread t (List.mem_append_right _ List.mem_cons_self)
    obtain rfl := InlineTag.eq_of_raw_eq hfirst hagain ((raw_of_lookup? hserved).symm.trans hraw)
    rw [hlast, hserved, Option.some.injEq]
    exact ⟨.inl, fun hl => hl.elim id fun heq => heq ▸ hold⟩
  · next hnew =>
    refine ⟨?_, fun l => ?_⟩
    · rw [List.map_append, List.nodup_append]
      refine ⟨h.nodup, ?_, fun raw hraw other hother heq => ?_⟩
      · cases lookup? finder t <;> simp
      · obtain ⟨l, hl, rfl⟩ := List.mem_map.mp hother
        rw [heq, raw_of_lookup? (Option.mem_toList.mp hl)] at hraw
        exact hnew hraw
    · rw [hlast, List.mem_append, Option.mem_toList]

theorem serves_lookedUp {tags : List InlineTag}
    (hread : ∀ t ∈ tags, ∃ rest width, InlineTag.at? rest = some (t, width)) :
    Serves finder tags (lookedUp finder tags []) := by
  induction tags using List.reverseRecOn with
  | nil => exact ⟨List.nodup_nil, by simp [lookedUp]⟩
  | append_singleton tags t ih =>
    have hbefore := ih fun u hu => hread u (List.mem_append_left _ hu)
    rw [lookedUp_append]
    exact hbefore.step hread

theorem lookedUp_congr {tags : List InlineTag}
    (h : ∀ t ∈ tags, lookup? other t = lookup? finder t) (done : List Lookup) :
    lookedUp other tags done = lookedUp finder tags done :=
  List.foldl_ext _ _ done fun done t ht => by rw [exampleFor_snd, exampleFor_snd, h t ht]

/-! ### The run of the step -/

/-- What a run of the step looks up, in order. -/
def lookups (finder : ExampleFinder) (p : Project) : List Lookup :=
  (exampleVersions finder p.versions []).2

theorem lookups_eq (finder : ExampleFinder) (p : Project) :
    lookups finder p = lookedUp finder (p.texts.flatMap InlineTag.tags) [] := by
  have htext (scope : Scope) (text : String) (done : List Lookup) :
      (withExamples finder scope text done).2 = lookedUp finder (InlineTag.tags text) done := by
    rw [withExamples_eq_substituteWith]
    exact InlineTag.substituteWith_snd _ _ 0 done
  have hset (s : ApiSet) (done : List Lookup) :
      (editAllTextsWith (withExamples finder) s done).2 =
        lookedUp finder (s.texts.flatMap InlineTag.tags) done := by
    rw [editAllTextsWith_snd htext, lookedUp, List.foldl_flatMap]
    rfl
  have hsets (sets : List DocSet) (done : List Lookup) : (exampleSets finder sets done).2 =
      lookedUp finder (((sets.filterMap DocSet.api?).flatMap ApiSet.texts).flatMap InlineTag.tags)
        done := by
    induction sets generalizing done with
    | nil => rfl
    | cons d rest ih =>
      cases d with
      | guide g => exact ih done
      | api s =>
        have hfirst : (DocSet.api s :: rest).filterMap DocSet.api? =
            s :: rest.filterMap DocSet.api? := rfl
        rw [hfirst, List.flatMap_cons, List.flatMap_append, lookedUp_append, ← hset, ← ih]
        rfl
  have hversions (versions : List Version) (done : List Lookup) :
      (exampleVersions finder versions done).2 =
        lookedUp finder (((versions.flatMap Version.apiSets).flatMap ApiSet.texts).flatMap
          InlineTag.tags) done := by
    induction versions generalizing done with
    | nil => rfl
    | cons v rest ih =>
      rw [List.flatMap_cons, List.flatMap_append, List.flatMap_append, lookedUp_append,
        Version.apiSets, ← hsets, ← ih]
      rfl
  exact hversions p.versions []

theorem run_examplesPass (services : Services) (p : Project) :
    examplesPass.run services p =
      { state := p.mapSets (exampledSet services.finder)
        events := (lookups services.finder p).filterMap Lookup.warning? } := by
  have hversions := exampleVersions_eq p.versions (allOwn_nil services.finder)
  rw [Project.mapSets, ← hversions]
  rfl

theorem serves_lookups (finder : ExampleFinder) (p : Project) :
    Serves finder (p.texts.flatMap InlineTag.tags) (lookups finder p) := by
  rw [lookups_eq]
  refine serves_lookedUp fun t ht => ?_
  obtain ⟨text, -, ht⟩ := List.mem_flatMap.mp ht
  exact InlineTag.at?_of_mem_ofChars (InlineTag.mem_tags_iff.mp ht)

/-- The run depends on the answers to what it looks up only. -/
theorem run_examplesPass_congr (services : Services) {p : Project}
    (h : ∀ l ∈ lookups services.finder p, other l.request = services.finder l.request) :
    examplesPass.run { services with finder := other } p = examplesPass.run services p := by
  have htags (t : InlineTag) (ht : t ∈ p.texts.flatMap InlineTag.tags) :
      lookup? other t = lookup? services.finder t :=
    lookup?_congr fun l hl => h l (((serves_lookups services.finder p).mem_iff l).mpr ⟨t, ht, hl⟩)
  have hsets (d : DocSet) (hd : d ∈ p.sets) :
      exampledSet other d = exampledSet services.finder d := by
    cases d with
    | guide g => rfl
    | api s =>
      obtain ⟨v, hv, hs⟩ := List.mem_flatMap.mp hd
      refine congrArg DocSet.api (editAllTexts_congr fun text htext => ?_)
      have htext : text ∈ p.texts :=
        List.mem_flatMap.mpr ⟨s, Project.mem_apiSets_iff.mpr ⟨v, hv, hs⟩, htext⟩
      rw [InlineTag.withExampleTexts_eq, InlineTag.withExampleTexts_eq]
      refine InlineTag.substitute_congr fun t ht => ?_
      rw [exampleText_eq, exampleText_eq, htags t (List.mem_flatMap.mpr ⟨text, htext, ht⟩)]
  rw [run_examplesPass, run_examplesPass, Project.mapSets_congr hsets]
  simp only [lookups_eq, lookedUp_congr htags]

/-- A run of the step does not fail. It leaves what a plain replacement of tags leaves, in the texts of
all files and of all elements that listed addresses lead to, and nothing else is changed; these are
the texts of all files and of all listed elements exactly if the replacement leaves alone the elements
that are among one of the two only. What is looked up is what the tags of these texts ask for, once
for each tag text; each look-up that fails is reported. To a request that was not looked up the answer
does not matter. -/
theorem examplesPass_expands (services : Services) (p : Project) :
    let expand := InlineTag.substitute (exampleText services.finder)
    let done := lookups services.finder p
    examplesPass.run services p =
        { state := p.mapSets (exampledSet services.finder)
          events := done.filterMap Lookup.warning? } ∧
      (∀ s : ApiSet, s.ReplacedAt expand s.LedTo (exampled services.finder s)) ∧
      (∀ s : ApiSet, s.ReplacedAt expand s.Listed (exampled services.finder s) ↔
        ∀ id p item, s.at? id p = some item → ¬ (s.LedTo id p ↔ s.Listed id p) →
          item.mapInfo (Wording.info { text := expand }) = item) ∧
      (done.map Lookup.raw).Nodup ∧
      (∀ l, l ∈ done ↔ ∃ text ∈ p.texts, ∃ t ∈ InlineTag.tags text,
        lookup? services.finder t = some l) ∧
      ∀ other : ExampleFinder, (∀ l ∈ done, other l.request = services.finder l.request) →
        examplesPass.run { services with finder := other } p = examplesPass.run services p := by
  intro expand done
  have hled (s : ApiSet) : s.ReplacedAt expand s.LedTo (exampled services.finder s) := by
    rw [exampled, InlineTag.withExampleTexts_eq]
    exact replacedAt_editAllTexts expand s
  have hserves := serves_lookups services.finder p
  refine ⟨run_examplesPass services p, hled, fun s => (hled s).iff_forall, hserves.nodup,
    fun l => (hserves.mem_iff l).trans ?_, fun other => run_examplesPass_congr services⟩
  constructor
  · rintro ⟨t, ht, hl⟩
    obtain ⟨text, htext, ht⟩ := List.mem_flatMap.mp ht
    exact ⟨text, htext, t, ht, hl⟩
  · rintro ⟨text, htext, t, ht, hl⟩
    exact ⟨t, List.mem_flatMap.mpr ⟨text, htext, ht⟩, hl⟩

/-- A constant that is declared under the name of a member, with an example in its documentation. -/
def unexpanded : SourceText where
  path := "a.php"
  content := "<?php class A \x7b\x7d /** \x7b@example e.php\x7d */ define('Foo::BAR', 1);"

/-- The text of the constant is left as it was, although the constant is listed. -/
theorem examplesPass_expands_unexpanded : ∃ f, unexpanded.read = .ok f ∧
    let s : ApiSet := { name := "api", files := [f] }
    let finder : ExampleFinder := fun _ => .ok "code"
    ¬ s.ReplacedAt (InlineTag.substitute (exampleText finder)) s.Listed (exampled finder s) := by
  have hconstant : (unexpanded.read.toOption.bind fun f =>
      (f.topItem? .constant "\\Foo::BAR").filter fun item =>
        item.info.fqsen.isMember && item.mapInfo (Wording.info
          { text := InlineTag.substitute (exampleText fun _ => .ok "code") }) != item).isSome := by
    decide +kernel
  cases hf : unexpanded.read with
  | error e => simp [hf, Except.toOption] at hconstant
  | ok f =>
    simp only [hf, Except.toOption, Option.bind_some] at hconstant
    obtain ⟨item, hitem⟩ := Option.isSome_iff_exists.mp hconstant
    obtain ⟨htop, hdiffers⟩ := Option.filter_eq_some_iff.mp hitem
    obtain ⟨hmember, hne⟩ := (Bool.and_eq_true _ _).mp hdiffers
    have hread : f.AsRead :=
      File.Reflected.asRead ⟨unexpanded, f, hf, rfl⟩
    have hkeyed : ApiSet.Keyed { name := "api", files := [f] } := fun id g hg => by
      obtain rfl : g = f := List.mem_singleton.mp (List.mem_of_getElem? hg)
      exact hread.keyed
    have hat : ApiSet.at? { name := "api", files := [f] } 0 (.top .constant "\\Foo::BAR") = some item :=
      htop
    refine ⟨f, rfl, fun hlisted => ?_⟩
    obtain ⟨-, -, hiff, -⟩ := examplesPass_expands ⟨.standard, fun _ => .ok "code"⟩ default
    have hsame := (hiff _).mp hlisted 0 _ item hat fun hled => by
      have houtside := (hkeyed.ledTo_iff_listed_iff hat).mp hled _ rfl
      simp [hmember] at houtside
    simp [hsame] at hne

end Compile

end ApiDoc
