import ApiDoc.Proofs.BackLinks
import ApiDoc.Proofs.Conservation

/-!
# Names in tags and names in texts

A run resolves names twice: those that tags refer to, right after the indexes were built, and those
that inline tags of texts mention, behind the trees. Both times a name has the same candidates, and
they start with the separator. In between the index of elements grows by the nodes of the trees
behind marks, so it keeps what it has for every candidate. A tag therefore refers to an element if
and only if a text does, and to the same one; a namespace, which is looked for behind its mark, is
there for texts only.
-/

namespace ApiDoc

namespace Resolution

/-! ### Candidates are full names -/

theorem rooted_of_mem_qualify {name : List Char} {scope : Scope} (hs : scope.Rooted)
    {o : List Char} (ho : o ∈ (qualify name scope).1 :: (qualify name scope).2) :
    o.head? = some Fqsen.separator := by
  have hroot : Fqsen.root.Rooted := Fqsen.plain_root.1
  cases qualified_of_mem_qualify ho with
  | full h => rw [h]; rfl
  | inSpace => exact hs.space.join _
  | inRoot => exact hroot.join _
  | imported h => exact hs.aliases _ _ h
  | behindImport h _ => exact (hs.aliases _ _ h).join _

theorem head?_append {cs : List Char} {c : Char} (h : cs.head? = some c) (rest : List Char) :
    (cs ++ rest).head? = some c := by
  rw [List.head?_append, h, Option.some_or]

theorem rooted_of_mem_candidates {name : String} {scope : Scope} (hs : scope.Rooted) {key : String}
    (h : key ∈ candidates name scope) : key.toList.head? = some Fqsen.separator := by
  rw [candidates] at h
  obtain ⟨chars, hchars, rfl⟩ := List.mem_map.mp h
  rw [String.toList_ofList]
  split at hchars
  · obtain ⟨owner, howner, hmember⟩ := List.mem_flatMap.mp hchars
    obtain ⟨spelling, -, rfl⟩ := List.mem_map.mp hmember
    exact head?_append (head?_append (rooted_of_mem_qualify hs howner) _) _
  · rcases List.mem_append.mp hchars with hcontainer | hqualified
    · split at hcontainer
      · next container hc =>
        split at hcontainer
        · rw [List.mem_singleton.mp hcontainer]
          exact head?_append (head?_append (hs.container container hc) _) _
        · simp at hcontainer
      · simp at hcontainer
    · exact rooted_of_mem_qualify hs hqualified

/-! ### An index that grows -/

theorem firstEntry_congr {lookup later : String → Option Target} {keys : List String}
    (h : ∀ key ∈ keys, later key = lookup key) : firstEntry later keys = firstEntry lookup keys := by
  induction keys with
  | nil => rfl
  | cons key rest ih =>
    rw [firstEntry, firstEntry, h key List.mem_cons_self,
      ih fun k hk => h k (List.mem_cons_of_mem _ hk)]

section Growing

variable {lookup later : String → Option Target} {name : String} {scope : Scope}
  (hsame : ∀ key ∈ candidates name scope, later key = lookup key)
  (hnone : ∀ key ∈ candidates name scope, lookup (spaceKey key) = none)
include hsame hnone

/-- With an index that has got namespaces a name is what it was, unless it was nothing and now is a
namespace. -/
theorem resolve_grown :
    resolve later name scope = resolve lookup name scope ∨
      (resolve lookup name scope).target? = none ∧ ∃ key ∈ candidates name scope, ∃ target,
        later (spaceKey key) = some target ∧
          resolve later name scope = .found (spaceKey key) target := by
  have hspaces : firstEntry (lookup ∘ spaceKey) (candidates name scope) = none :=
    firstEntry_eq_none_iff.mpr hnone
  rw [resolve, resolve, firstEntry_congr hsame, firstEntry_map_spaceKey, firstEntry_map_spaceKey,
    hspaces]
  cases firstEntry lookup (candidates name scope) with
  | some found => exact .inl rfl
  | none =>
    cases hlater : firstEntry (later ∘ spaceKey) (candidates name scope) with
    | none => exact .inl rfl
    | some found =>
      obtain ⟨key, target⟩ := found
      obtain ⟨hkey, hentry⟩ := firstEntry_spec hlater
      exact .inr ⟨rfl, key, hkey, target, hentry, rfl⟩

theorem target?_resolve_eq_iff :
    (resolve lookup name scope).target? = (resolve later name scope).target? ↔
      (resolve lookup name scope).target? ≠ none ∨
        ∀ key ∈ candidates name scope, later (spaceKey key) = none := by
  constructor
  · intro heq
    by_cases hfound : (resolve lookup name scope).target? = none
    · right
      intro key hkey
      rw [hfound] at heq
      have houtcome := outcome_resolve later name scope
      cases hlater : resolve later name scope with
      | found key target => simp [hlater, target?] at heq
      | missing fqsen =>
        rw [hlater] at houtcome
        cases houtcome with
        | none hdirect hspace => exact hspace key hkey
    · exact .inl hfound
  · intro h
    rcases resolve_grown hsame hnone with hsame | ⟨hfound, key, hkey, target, hentry, -⟩
    · rw [hsame]
    · rcases h with hsome | hall
      · exact absurd hfound hsome
      · rw [hall key hkey] at hentry
        exact absurd hentry (by simp)

end Growing

end Resolution

/-- Some namespace of the set has the full name. -/
def ApiSet.HasSpace (s : ApiSet) (name : String) : Prop :=
  ∃ node ∈ s.namespaces.nodes, node.fullName.text = name

namespace Compile

/-! ### The index of elements, behind the trees -/

theorem spaceKey_eq (key : String) : Resolution.spaceKey key = "~" ++ key := rfl

theorem lookup_withPackages_of_ne {s : ApiSet} {key : String} (h : ∀ rest, key ≠ "@" ++ rest)
    (defaultName : String) : (withPackages defaultName s).lookup key = s.lookup key := by
  unfold withPackages
  rcases lookup_enterNodes "@" Index.packages .packageNode _ (by decide) _ key with
    hsame | ⟨n, -, hkey, -⟩
  · rw [hsame, ApiSet.lookup, ApiSet.lookupIn, (frame_placed ..).1, ApiSet.lookup, ApiSet.lookupIn]
  · exact absurd hkey (h _)

theorem lookup_withSpaces (s : ApiSet) (key : String) :
    (withSpaces s).lookup key = s.lookup key ∨
      ∃ n ∈ (withSpaces s).namespaces.nodes, key = "~" ++ n.fullName.text ∧
        (withSpaces s).lookup key = some (.spaceNode n.id) := by
  rw [withSpaces, (trees_enterNodes ..).1]
  exact lookup_enterNodes "~" Index.namespaces .spaceNode _ (by decide) _ key

theorem isSome_lookup_withSpaces {s : ApiSet} {n : Node}
    (h : n ∈ (withSpaces s).namespaces.nodes) :
    ((withSpaces s).lookup ("~" ++ n.fullName.text)).isSome := by
  rw [withSpaces, (trees_enterNodes ..).1] at h
  exact isSome_lookup_enterNodes "~" Index.namespaces .spaceNode _ (by decide) _ h

section Prepared

variable {settings : Settings} {s u : ApiSet} (hs : s.Fresh) (hu : Prepared settings s u)

include hu in
/-- Full names are looked up as before the trees were built. -/
theorem Prepared.lookup_of_rooted {key : String}
    (hkey : key.toList.head? = some Fqsen.separator) :
    u.lookup key = (withIndexes s).lookup key := by
  have hmark {c : Char} {mark : String} (hchars : mark.toList = [c]) (hc : c ≠ '\\')
      (rest : String) : key ≠ mark ++ rest := by
    intro heq
    rw [heq, String.toList_append, hchars] at hkey
    exact hc (Option.some.inj hkey)
  rw [ApiSet.lookup_congr hu.frame_eq,
    lookup_withPackages_of_ne (hmark (c := '@') (by decide) (by decide)),
    ← ApiSet.lookup_congr (frame_linked (withIndexes s)) key]
  rcases lookup_withSpaces (linked (withIndexes s)) key with hsame | ⟨n, -, heq, -⟩
  · exact hsame
  · exact absurd heq (hmark (c := '~') (by decide) (by decide) _)

include hs in
/-- No namespace is there when the indexes were just built. -/
theorem lookup_spaceKey_withIndexes (key : String) :
    (withIndexes s).lookup (Resolution.spaceKey key) = none := by
  cases hlookup : (withIndexes s).lookup (Resolution.spaceKey key) with
  | none => rfl
  | some target =>
    obtain ⟨ref, href, -, htext⟩ := exists_of_lookup_withIndexes hlookup
    exact absurd htext (text_ne_of_rooted (rooted_of_mem_allElements hs href) (c := '~')
      (by decide) (by decide) key)

include hs hu in
/-- Behind their mark, namespaces are what is looked up. -/
theorem Prepared.lookup_spaceKey (key : String) :
    (∀ target, u.lookup (Resolution.spaceKey key) = some target →
      ∃ node ∈ u.namespaces.nodes, node.fullName.text = key ∧ target = .spaceNode node.id) ∧
    (u.lookup (Resolution.spaceKey key) = none ↔ ¬ u.HasSpace key) := by
  have hpackages : u.lookup (Resolution.spaceKey key) =
      (withSpaces (linked (withIndexes s))).lookup (Resolution.spaceKey key) := by
    rw [ApiSet.lookup_congr hu.frame_eq]
    refine lookup_withPackages_of_ne (fun rest heq => ?_) _
    have hhead := congrArg (fun text : String => text.toList.head?) heq
    simp [spaceKey_eq] at hhead
  have htree : u.namespaces = (withSpaces (linked (withIndexes s))).namespaces :=
    (ApiSet.namespaces_congr hu.frame_eq).trans (namespaces_withPackages _ _)
  have hfound (target : Target) (h : u.lookup (Resolution.spaceKey key) = some target) :
      ∃ node ∈ u.namespaces.nodes, node.fullName.text = key ∧ target = .spaceNode node.id := by
    rw [hpackages] at h
    rw [htree]
    rcases lookup_withSpaces (linked (withIndexes s)) (Resolution.spaceKey key) with
      hsame | ⟨n, hn, hkey, hnode⟩
    · rw [hsame, ApiSet.lookup_congr (frame_linked _), lookup_spaceKey_withIndexes hs] at h
      exact absurd h (by simp)
    · rw [hnode] at h
      rw [spaceKey_eq, String.append_right_inj] at hkey
      exact ⟨n, hn, hkey.symm, (Option.some.inj h).symm⟩
  refine ⟨hfound, fun hnone hspace => ?_, fun hspace => ?_⟩
  · obtain ⟨node, hnode, rfl⟩ := hspace
    have hsome := isSome_lookup_withSpaces (htree ▸ hnode)
    rw [← spaceKey_eq, ← hpackages, hnone] at hsome
    exact absurd hsome (by decide)
  · cases hlookup : u.lookup (Resolution.spaceKey key) with
    | none => rfl
    | some target =>
      obtain ⟨node, hnode, hname, -⟩ := hfound target hlookup
      exact absurd ⟨node, hnode, hname⟩ hspace

include hs hu in
/-- A name as it is resolved for tags and behind the trees. -/
theorem Prepared.resolve_cases {scope : Scope} (hscope : scope.Rooted) (name : String) :
    ((withIndexes s).resolve name scope).target? ≠ (u.resolve name scope).target? →
      ((withIndexes s).resolve name scope).target? = none ∧
        ∃ node ∈ u.namespaces.nodes, node.fullName.text ∈ Resolution.candidates name scope ∧
          (u.resolve name scope).target? = some (.spaceNode node.id) := by
  intro hne
  have hsame (key : String) (hkey : key ∈ Resolution.candidates name scope) :
      u.lookup key = (withIndexes s).lookup key :=
    hu.lookup_of_rooted (Resolution.rooted_of_mem_candidates hscope hkey)
  rcases Resolution.resolve_grown hsame fun key _ => lookup_spaceKey_withIndexes hs key with
    hsame | ⟨hnone, key, hkey, target, hentry, hfound⟩
  · exact absurd (congrArg Resolution.target? hsame.symm) hne
  · obtain ⟨node, hnode, rfl, rfl⟩ := (hu.lookup_spaceKey hs key).1 target hentry
    exact ⟨hnone, node, hnode, hkey, congrArg Resolution.target? hfound⟩

include hs hu in
theorem Prepared.target?_resolve_eq_iff {scope : Scope} (hscope : scope.Rooted) (name : String) :
    ((withIndexes s).resolve name scope).target? = (u.resolve name scope).target? ↔
      ((withIndexes s).resolve name scope).target? ≠ none ∨
        ∀ key ∈ Resolution.candidates name scope, ¬ u.HasSpace key := by
  simp only [← (hu.lookup_spaceKey hs _).2]
  exact Resolution.target?_resolve_eq_iff
    (fun key hkey => hu.lookup_of_rooted (Resolution.rooted_of_mem_candidates hscope hkey))
    fun key _ => lookup_spaceKey_withIndexes hs key

end Prepared

/-! ### The same element, before and behind the trees -/

theorem keeps_arranged (services : Services) (settings : Settings) (s : ApiSet) :
    s.Keeps (arranged services settings s) :=
  ((((keeps_buildIndexes false s).trans (keeps_linked _)).trans (keeps_withSpaces _)).trans
    (keeps_withPackages _ _)).trans ((keeps_mark _ _).trans (keeps_editAllTextsWith _ _ _))

/-- What a step keeps is seen from the same places. -/
theorem scopeOf_eq_of_keeps {s u : ApiSet} (h : s.Keeps u) {ref : ElementRef} {f : File}
    (hf : s.file? ref.file = some f) : u.scopeOf ref = s.scopeOf ref := by
  have hlength : ref.file < u.files.length := by
    rw [h.length_eq]
    exact (List.getElem?_eq_some_iff.mp hf).1
  have hg : u.file? ref.file = some u.files[ref.file] := List.getElem?_eq_getElem hlength
  rw [ApiSet.scopeOf_eq hf, ApiSet.scopeOf_eq hg, Scope.ofElement, Scope.ofElement,
    (h.file _ _ _ hf hg).aliases]

/-- The tags of an element behind the trees are those it was read with, linked. -/
theorem Prepared.exists_item? {settings : Settings} {s u : ApiSet} (hs : s.Keyed)
    (hu : Prepared settings s u) {ref : ElementRef} {old : Item} (h : s.item? ref = some old) :
    ∃ item, u.item? ref = some item ∧
      item.info.tags = linkTags (withIndexes s) (s.scopeOf ref) old.info.tags := by
  have hfiles := files_withIndexes s
  have hfile (id : Nat) : (withIndexes s).file? id = s.file? id := by
    rw [ApiSet.file?, hfiles, ApiSet.file?]
  obtain ⟨f, hf, hitem⟩ := Option.bind_eq_some_iff.mp h
  rw [File.item?_eq] at hitem
  obtain ⟨p, hp, hat⟩ := Option.bind_eq_some_iff.mp hitem
  have hkeyed : (withIndexes s).Keyed := fun id f hf => hs id f (hfile id ▸ hf)
  have hlinkedAt := linkedAt_linked hkeyed
  obtain ⟨g, hg⟩ : ∃ g, (linked (withIndexes s)).file? ref.file = some g :=
    ⟨_, List.getElem?_eq_getElem (by
      rw [hlinkedAt.length_eq, hfiles]
      exact (List.getElem?_eq_some_iff.mp hf).1)⟩
  have hfileLinked := hlinkedAt.files ref.file f g ((hfile _).trans hf) hg
  have hlinkedItem : (linked (withIndexes s)).item? ref = some (old.linkedIn (withIndexes s) f) := by
    have hbare : g.spotOf ref.kind ref.fqsen = some p := by
      rw [← hp]
      refine File.spotOf_congr (File.ownerKind?_congr fun kind key => ?_) _ _
      have hshow := (retouch_linked (withIndexes s)).files ref.file f g ((hfile _).trans hf) hg
      exact hshow.isSome_at? (.top kind key)
    rw [ApiSet.item?, hg, Option.bind_some, File.item?_eq, hbare, Option.bind_some,
      hfileLinked.here p ⟨_, _, hp⟩, hat, Option.map_some]
  obtain ⟨item, hnew, -, htags⟩ := hu.retouch.exists_new_item? hlinkedItem
  refine ⟨item, hnew, ?_⟩
  rw [ApiSet.scopeOf_eq hf, (hs ref.file f hf).scope_eq hp hat]
  exact htags.symm

/-! ### Inline tags -/

/-- The text of a link to what a name was found to refer to. -/
def linkShown (router : Router) (s : ApiSet) (words : String) (found : Resolution) : String :=
  match pageOf? router s found with
  | some url => linkText (if words.isEmpty then found.text else words) url
  | none => found.text

theorem splitArgument_of_blankless {t : InlineTag}
    (h : ∀ c ∈ t.argument.toList, Text.isBlank c = false) : t.splitArgument = (t.argument, "") := by
  have hall : ∀ c ∈ t.argument.toList, (!Text.isBlank c) = true := fun c hc => by rw [h c hc]; rfl
  have htake := List.takeWhile_eq_self_iff.mpr hall
  have hdrop := List.dropWhile_eq_nil_iff.mpr hall
  have hstart : Text.trimStart t.argument.toList = t.argument.toList := by
    cases hchars : t.argument.toList with
    | nil => rfl
    | cons c cs =>
      exact Text.trimStart_cons_of_not_blank (h c (hchars ▸ List.mem_cons_self))
  rw [InlineTag.splitArgument, Text.firstWord, Text.trim_of_blankless h]
  simp only [Text.cutWord, Text.spanWord, hstart, List.span_eq_takeWhile_dropWhile, htake, hdrop]
  rw [String.ofList_toList]
  rfl

/-- A single name in an inline tag becomes the text for what it resolves to. -/
theorem linkFor_of_blankless (router : Router) (s : ApiSet) (scope : Scope) {t : InlineTag}
    (hname : t.name ∈ inlineLinkTags) (hne : t.argument ≠ "")
    (hblank : ∀ c ∈ t.argument.toList, Text.isBlank c = false) (hurl : isUrl t.argument = false) :
    linkFor router s scope t = some (linkShown router s "" (s.resolve t.argument scope)) := by
  have hcontains : inlineLinkTags.contains t.name = true := List.contains_iff_mem.mpr hname
  have hempty : t.argument.isEmpty = false := by simpa using hne
  rw [linkFor, splitArgument_of_blankless hblank]
  simp only [hcontains, hempty, hurl, Bool.not_true, Bool.or_self, Bool.false_eq_true, if_false,
    linkShown]
  cases pageOf? router s (s.resolve t.argument scope) <;> rfl

end Compile

namespace Compiler

/-- In a compiled project, a tag of an element that refers to a name and an inline tag of its texts
that mentions the name get the same target if and only if the tag got one or no candidate of the name
is a namespace. What they otherwise differ in is that the inline tag gets the namespace. -/
theorem mention_agrees_iff {services : Services} {p : Project} (hp : p.Fresh)
    (hok : (standard.compile services p).failure = none) {v i : Nat} {s u : ApiSet}
    (hs : p.apiSet? v i = some s)
    (hu : ((standard.before Compile.inlineLinksPass).compile services p).state.apiSet? v i = some u)
    {ref : ElementRef} {old : Item} (hold : (ref, old) ∈ s.present) {name : String}
    (hname : name ∈ Compile.linkedTags) {n : Nat} {tag : Tag} {target : String}
    (htag : (old.info.tags.get name)[n]? = some tag)
    (hwritten : tag.reference? = some ⟨target, none⟩) (hne : target ≠ "")
    (hblank : ∀ c ∈ target.toList, Text.isBlank c = false) (hurl : Compile.isUrl target = false)
    {mention : InlineTag} (hmention : mention.name ∈ Compile.inlineLinkTags)
    (hargument : mention.argument = target) :
    let found := u.resolve target (u.scopeOf ref)
    ∃ item stored, u.item? ref = some item ∧
      (item.info.tags.get name)[n]?.bind Tag.reference? = some stored ∧
      Compile.linkFor services.router u (u.scopeOf ref) mention =
        some (Compile.linkShown services.router u "" found) ∧
      (stored.resolved = found.target? ↔ stored.resolved ≠ none ∨
        ∀ key ∈ Resolution.candidates target (u.scopeOf ref), ¬ u.HasSpace key) ∧
      (stored.resolved ≠ found.target? → stored.resolved = none ∧
        ∃ node ∈ u.namespaces.nodes,
          node.fullName.text ∈ Resolution.candidates target (u.scopeOf ref) ∧
          found.target? = some (.spaceNode node.id)) := by
  intro found
  have hfresh : s.Fresh := hp s (Project.mem_apiSets_iff_apiSet?.mpr ⟨v, i, hs⟩)
  rw [Compile.apiSet?_before_inlineLinksPass hok, hs, Option.map_some, Option.some.injEq] at hu
  subst hu
  have hprepared := Compile.prepared_arranged services p.settings s
  obtain ⟨hall, hitem⟩ := ApiSet.mem_present_iff.mp hold
  obtain ⟨f, hf, -⟩ := ApiSet.mem_allElements_iff.mp hall
  have hscope := Compile.scopeOf_eq_of_keeps (Compile.keeps_arranged services p.settings s) hf
  have hrooted : (s.scopeOf ref).Rooted := by
    rw [ApiSet.scopeOf_eq hf]
    exact Scope.rooted_ofElement (hfresh.asRead hf) _ (Compile.rooted_of_mem_allElements hfresh hall)
  obtain ⟨item, hnew, htags⟩ := hprepared.exists_item? hfresh.keyed hitem
  have hstored : (item.info.tags.get name)[n]?.bind Tag.reference? =
      some (Compile.linkReference (Compile.withIndexes s) (s.scopeOf ref) ⟨target, none⟩) := by
    rw [htags, Compile.get_linkTags, if_pos hname, List.getElem?_map, htag, Option.map_some,
      Option.bind_some, Tag.reference?_mapReference, hwritten, Option.map_some]
  have hlink := Compile.linkFor_of_blankless services.router
    (Compile.arranged services p.settings s)
    ((Compile.arranged services p.settings s).scopeOf ref) hmention (hargument ▸ hne)
    (hargument ▸ hblank) (hargument ▸ hurl)
  rw [hargument] at hlink
  refine ⟨item, _, hnew, hstored, hlink, ?_⟩
  simp only [Compile.linkReference, hurl, Bool.false_eq_true, if_false, found, hscope]
  exact ⟨hprepared.target?_resolve_eq_iff hfresh hrooted target,
    hprepared.resolve_cases hfresh hrooted target⟩

/-- A class with a tag that refers to its namespace. -/
def spaceSource : SourceText where
  path := "a.php"
  content := "<?php namespace N; /** @see \\N */ class A \x7b\x7d"

/-- The inline tag that mentions the namespace. -/
def spaceMention : InlineTag := ⟨"see", "\\N", "\x7b@see \\N\x7d".toList⟩

/-- A project with that class alone, without packages and markers. -/
def spaceProject : Project := .ofSources { defaultPackage := "", markers := [] } [spaceSource]

def plainServices : Services := ⟨.standard, .none⟩

/-- The set of that class, as the step that puts links into texts finds it. -/
def spaceSet : ApiSet :=
  Compile.arranged plainServices spaceProject.settings (.ofSources [spaceSource])

/-- What the two tags of the class are resolved to. -/
theorem resolved_spaceSet :
    ((spaceSet.item? ⟨0, .class, ⟨"\\N\\A"⟩⟩).bind fun item =>
      (item.info.tags.get "see")[0]?.bind Tag.reference?) = some ⟨"\\N", none⟩ ∧
    (spaceSet.resolve "\\N" (spaceSet.scopeOf ⟨0, .class, ⟨"\\N\\A"⟩⟩)).target? =
      some (.spaceNode 1) := by
  decide +kernel

/-- The tag stays without a target, and the inline tag gets the namespace. -/
theorem mention_disagrees_space : ∃ item stored,
    ((standard.before Compile.inlineLinksPass).compile plainServices spaceProject).state.apiSet? 0 0 =
      some spaceSet ∧
    spaceSet.item? ⟨0, .class, ⟨"\\N\\A"⟩⟩ = some item ∧
    (item.info.tags.get "see")[0]?.bind Tag.reference? = some stored ∧
    stored.resolved = none ∧
    ∃ node ∈ spaceSet.namespaces.nodes,
      (spaceSet.resolve "\\N" (spaceSet.scopeOf ⟨0, .class, ⟨"\\N\\A"⟩⟩)).target? =
        some (.spaceNode node.id) := by
  have hok : (standard.compile plainServices spaceProject).failure = none :=
    failure_standard Router.exists_page_standard rfl rfl
  have hs : spaceProject.apiSet? 0 0 = some (.ofSources [spaceSource]) := rfl
  have hu : ((standard.before Compile.inlineLinksPass).compile plainServices
      spaceProject).state.apiSet? 0 0 = some spaceSet := by
    rw [Compile.apiSet?_before_inlineLinksPass hok, hs, Option.map_some, spaceSet]
  have hpresent : ∃ e ∈ (ApiSet.ofSources [spaceSource]).present,
      e.1 = ⟨0, .class, ⟨"\\N\\A"⟩⟩ ∧
        ((e.2.info.tags.get "see")[0]?.bind Tag.reference?) = some ⟨"\\N", none⟩ := by
    decide +kernel
  obtain ⟨⟨ref, old⟩, hold, rfl, hwritten⟩ := hpresent
  obtain ⟨tag, htag, hreference⟩ := Option.bind_eq_some_iff.mp hwritten
  have hmention : spaceMention.name ∈ Compile.inlineLinkTags := by decide
  have hall : "\\N".toList.all (fun c => !Text.isBlank c) = true := by decide
  have hblank : ∀ c ∈ "\\N".toList, Text.isBlank c = false := fun c hc => by
    simpa using List.all_eq_true.mp hall c hc
  obtain ⟨item, stored, hitem, hstored, -, -, hdiffer⟩ := mention_agrees_iff
    (Project.fresh_ofSources _ _) hok hs hu hold (by decide) htag hreference (by decide)
    hblank (by decide +kernel) hmention rfl
  obtain ⟨htagged, hfound⟩ := resolved_spaceSet
  have hvalue : some stored = some ⟨"\\N", none⟩ := by
    rw [← htagged, ← hstored, hitem, Option.bind_some]
  have hne : stored.resolved ≠ some (.spaceNode 1) := by
    rw [Option.some.inj hvalue]
    decide
  obtain ⟨hnone, node, hnode, -, htarget⟩ := hdiffer fun heq => hne (heq.trans hfound)
  exact ⟨item, stored, hu, hitem, hstored, hnone, node, hnode, htarget⟩

end Compiler

end ApiDoc
