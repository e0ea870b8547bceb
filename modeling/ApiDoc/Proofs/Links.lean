import ApiDoc.Compile.BackLink
import ApiDoc.Compile.Filter
import ApiDoc.Compile.Link
import ApiDoc.Proofs.Reflection

/-!
# Links of tags

The links of a name among tags are the addresses that its references were found to lead to, in
order. Three steps of the compiler write tags, and each is described by what it does to the links:
linking adds entries of the index of elements, making back links adds one link behind a name, and
unlinking keeps the links that still lead somewhere.
-/

namespace ApiDoc

/-- The address that a tag was found to refer to. -/
def Tag.link? (t : Tag) : Option Target := t.reference?.bind Reference.resolved

namespace Tags

/-- The addresses that the tags of a name were found to refer to, in order. -/
def links (tags : Tags) (name : String) : List Target := (tags.get name).filterMap Tag.link?

theorem mem_links_iff {tags : Tags} {name : String} {target : Target} :
    target ∈ tags.links name ↔
      ∃ t ∈ tags.get name, ∃ r, t.reference? = some r ∧ r.resolved = some target := by
  simp only [links, List.mem_filterMap, Tag.link?, Option.bind_eq_some_iff]

/-- The address of a reference is among the links of a name. -/
theorem mem_links_of_mem_references {tags : Tags} {r : Reference} {target : Target}
    (h : r ∈ tags.references) (hr : r.resolved = some target) :
    ∃ name, target ∈ tags.links name := by
  obtain ⟨name, t, ht, htr⟩ := mem_references_iff.mp h
  exact ⟨name, mem_links_iff.mpr ⟨t, ht, r, htr, hr⟩⟩

theorem Unlinked.links_eq {tags : Tags} (h : tags.Unlinked) (name : String) :
    tags.links name = [] := by
  refine List.eq_nil_iff_forall_not_mem.mpr fun target hmem => ?_
  obtain ⟨t, ht, r, htr, hr⟩ := mem_links_iff.mp hmem
  have := h r (mem_references_iff.mpr ⟨name, t, ht, htr⟩)
  simp [this] at hr

/-! ### Changes of tags -/

theorem get_map (f : Tag → Tag) (tags : Tags) (name : String) :
    (tags.map f).get name = (tags.get name).map f := by
  rw [get, map, NameMap.get?_map, get]
  cases tags.byName.get? name <;> rfl

theorem get_erase (tags : Tags) (key name : String) :
    (tags.erase key).get name = if name = key then [] else tags.get name := by
  rw [get, erase, NameMap.get?_erase]
  split <;> rfl

/-- Tags of a name are replaced where there are some. -/
theorem get_modify_const {tags : Tags} {key : String} (new : List Tag) (h : tags.get key ≠ [])
    (name : String) :
    (tags.modify key fun _ => new).get name = if name = key then new else tags.get name := by
  rw [get, modify, NameMap.get?_modify]
  split
  · next heq =>
    subst heq
    cases hkey : tags.byName.get? name with
    | none => simp [get, hkey] at h
    | some group => rfl
  · rfl

theorem links_push (tags : Tags) (t : Tag) (name : String) :
    (tags.push t).links name =
      if t.name = name then tags.links name ++ t.link?.toList else tags.links name := by
  rw [links, get_push]
  split
  · rw [List.filterMap_append, links]
    cases h : t.link? <;> simp [h]
  · rfl

end Tags

theorem Tag.reference?_mapReference (f : Reference → Reference) (t : Tag) :
    (t.mapReference f).reference? = t.reference?.map f := by
  cases h : t.body <;> simp [Tag.reference?, Tag.mapReference, h]

theorem Tag.link?_mapReference (f : Reference → Reference) (t : Tag) :
    (t.mapReference f).link? = t.reference?.bind fun r => (f r).resolved := by
  rw [Tag.link?, Tag.reference?_mapReference, Option.bind_map]
  rfl

namespace Compile

/-! ### Linking -/

theorem get?_linkTags (s : ApiSet) (scope : Scope) (tags : Tags) (name : String) :
    (linkTags s scope tags).byName.get? name =
      (tags.byName.get? name).map fun group =>
        if name ∈ linkedTags then group.map (Tag.mapReference (linkReference s scope)) else group := by
  simp only [linkTags, linkedTags, List.foldl_cons, List.foldl_nil, Tags.modify, NameMap.get?_modify,
    List.mem_cons, List.not_mem_nil, or_false]
  by_cases hsee : name = "see"
  · simp [hsee]
  · by_cases huses : name = "uses"
    · simp [huses]
    · by_cases hcovers : name = "covers"
      · simp [hcovers]
      · simp [hsee, huses, hcovers]

theorem get_linkTags (s : ApiSet) (scope : Scope) (tags : Tags) (name : String) :
    (linkTags s scope tags).get name =
      if name ∈ linkedTags then (tags.get name).map (Tag.mapReference (linkReference s scope))
      else tags.get name := by
  rw [Tags.get, get?_linkTags, Tags.get]
  cases tags.byName.get? name with
  | none => simp
  | some group => split <;> rfl

theorem exists_lookup_of_firstEntry {lookup : String → Option Target} {keys : List String}
    {key : String} {target : Target} (h : Resolution.firstEntry lookup keys = some (key, target)) :
    lookup key = some target := by
  induction keys with
  | nil => simp [Resolution.firstEntry] at h
  | cons k rest ih =>
    rw [Resolution.firstEntry] at h
    split at h
    · next found hfound =>
      cases h
      exact hfound
    · exact ih h

/-- What a name is found to refer to is an entry of the index. -/
theorem exists_lookup_of_resolve {s : ApiSet} {name : String} {scope : Scope} {target : Target}
    (h : (s.resolve name scope).target? = some target) : ∃ key, s.lookup key = some target := by
  simp only [ApiSet.resolve, Resolution.resolve] at h
  split at h
  · next key found hfound =>
    cases h
    exact ⟨key, exists_lookup_of_firstEntry hfound⟩
  · split at h
    · next key found hfound =>
      cases h
      exact ⟨key, exists_lookup_of_firstEntry hfound⟩
    · simp [Resolution.target?] at h

theorem exists_lookup_of_linkReference {s : ApiSet} {scope : Scope} {r : Reference}
    {target : Target} (hr : r.resolved = none)
    (h : (linkReference s scope r).resolved = some target) :
    ∃ key, s.lookup key = some target := by
  rw [linkReference] at h
  split at h
  · simp [hr] at h
  · exact exists_lookup_of_resolve h

/-- The links that linking makes are entries of the index, and only some names have them. -/
theorem mem_links_linkTags {s : ApiSet} {scope : Scope} {tags : Tags} (h : tags.Unlinked)
    {name : String} {target : Target} (hmem : target ∈ (linkTags s scope tags).links name) :
    name ∈ linkedTags ∧ ∃ key, s.lookup key = some target := by
  have hold (t : Tag) (ht : t ∈ tags.get name) (r : Reference) (hr : t.reference? = some r) :
      r.resolved = none :=
    h r (Tags.mem_references_iff.mpr ⟨name, t, ht, hr⟩)
  rw [Tags.links, get_linkTags] at hmem
  split at hmem
  · next hname =>
    refine ⟨hname, ?_⟩
    obtain ⟨new, hnew, hlink⟩ := List.mem_filterMap.mp hmem
    obtain ⟨t, ht, rfl⟩ := List.mem_map.mp hnew
    rw [Tag.link?_mapReference] at hlink
    obtain ⟨r, hr, hresolved⟩ := Option.bind_eq_some_iff.mp hlink
    exact exists_lookup_of_linkReference (hold t ht r hr) hresolved
  · rw [← Tags.links, h.links_eq] at hmem
    simp at hmem

/-! ### Back links -/

theorem links_push_backTag (tags : Tags) (u : Use) (name : String) :
    (tags.push (backTag u)).links name =
      if name = usedByTag then tags.links name ++ [.element u.user] else tags.links name := by
  rw [Tags.links_push]
  simp only [backTag, eq_comm (a := name)]
  rfl

theorem pointsBack_iff {user : ElementRef} {tags : Tags} :
    pointsBack user tags = true ↔ .element user ∈ tags.links usedByTag := by
  rw [pointsBack, List.any_eq_true, Tags.links, List.mem_filterMap]
  simp only [beq_iff_eq, Tag.link?]

theorem mem_usesOf_iff {user : ElementRef} {tags : Tags} {used : ElementRef} :
    (∃ u ∈ usesOf user tags, u.used = used) ↔ .element used ∈ tags.links usesTag := by
  simp only [usesOf, List.mem_filterMap, Tags.links]
  constructor
  · rintro ⟨u, ⟨t, ht, hu⟩, rfl⟩
    refine ⟨t, ht, ?_⟩
    split at hu
    · next found hfound =>
      cases hu
      exact hfound
    · simp at hu
  · rintro ⟨t, ht, hlink⟩
    refine ⟨⟨user, used, t.description⟩, ⟨t, ht, ?_⟩, rfl⟩
    rw [Tag.link?] at hlink
    rw [hlink]

theorem user_of_mem_usesOf {user : ElementRef} {tags : Tags} {u : Use}
    (h : u ∈ usesOf user tags) : u.user = user := by
  obtain ⟨t, -, hu⟩ := List.mem_filterMap.mp h
  split at hu
  · cases hu
    rfl
  · simp at hu

/-! ### Unlinking -/

theorem resolved_unlinkReference (s : ApiSet) (r : Reference) :
    (unlinkReference s r).resolved = r.resolved.filter s.resolves := by
  rw [unlinkReference, isStale]
  cases hr : r.resolved with
  | none => simp [hr]
  | some target => cases ht : s.resolves target <;> simp [hr, ht, Option.filter]

theorem get_dropBackLinks (s : ApiSet) (tags : Tags) (name : String) :
    (dropBackLinks s tags).get name =
      if name = usedByTag then (tags.get name).filter fun t => !t.reference?.any (isStale s)
      else tags.get name := by
  simp only [dropBackLinks]
  split
  · next hempty =>
    rw [Tags.get_erase]
    split
    · next heq => rw [heq, List.isEmpty_iff.mp hempty]
    · rfl
  · next hkept =>
    have hne : tags.get usedByTag ≠ [] := by
      intro hnil
      simp [hnil] at hkept
    rw [Tags.get_modify_const _ hne]
    split
    · next heq => rw [heq]
    · rfl

/-- Unlinking keeps the links that lead somewhere, under every name. -/
theorem links_unlinkTags (s : ApiSet) (tags : Tags) (name : String) :
    (unlinkTags s tags).links name = (tags.links name).filter s.resolves := by
  have hlink (t : Tag) : (t.mapReference (unlinkReference s)).link? = t.link?.filter s.resolves := by
    rw [Tag.link?_mapReference, Tag.link?]
    cases t.reference? with
    | none => rfl
    | some r => exact resolved_unlinkReference s r
  have hstale (t : Tag) (h : (!t.reference?.any (isStale s)) = false) :
      t.link?.filter s.resolves = none := by
    cases hr : t.reference? with
    | none => simp [hr] at h
    | some r =>
      rw [Tag.link?, hr, Option.bind_some]
      cases htarget : r.resolved with
      | none => rfl
      | some target => simpa [hr, isStale, htarget] using h
  rw [Tags.links, unlinkTags, Tags.get_map, List.filterMap_map, get_dropBackLinks]
  have hcomp : Tag.link? ∘ Tag.mapReference (unlinkReference s) =
      fun t => t.link?.filter s.resolves := funext hlink
  rw [hcomp, Tags.links, List.filter_filterMap]
  split
  · rw [List.filterMap_filter]
    congr 1
    funext t
    cases h : !t.reference?.any (isStale s) with
    | true => rfl
    | false => simpa using (hstale t h).symm
  · rfl

theorem contains_unlinkTags (s : ApiSet) (tags : Tags) {name : String} (h : name ≠ usedByTag) :
    (unlinkTags s tags).contains name = tags.contains name := by
  rw [Tags.contains, unlinkTags, Tags.get_map, get_dropBackLinks, if_neg h, Tags.contains]
  cases tags.get name <;> rfl

/-- Tags without stale references keep their links. -/
theorem filter_links_of_staleTags {s : ApiSet} {tags : Tags} (h : staleTags s tags = 0)
    (name : String) : (tags.links name).filter s.resolves = tags.links name := by
  refine List.filter_eq_self.mpr fun target hmem => ?_
  obtain ⟨t, ht, r, htr, hr⟩ := Tags.mem_links_iff.mp hmem
  have hnot := List.countP_eq_zero.mp h r (Tags.mem_references_iff.mpr ⟨name, t, ht, htr⟩)
  simpa [isStale, hr] using hnot

end Compile

end ApiDoc
