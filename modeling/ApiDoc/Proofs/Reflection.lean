import ApiDoc.Proofs.Addresses
import ApiDoc.Source

/-!
# Files as they are read

What reading a source guarantees of the file, whatever the source is: every element stands under its
own name, members under the short name within their owner; all names are full names; class-likes
and functions have no colon in their names, for no name token has one; and nothing is linked yet.
The proof goes through the reader step by step: `Reading.Sound` is what every step keeps.
-/

namespace ApiDoc

/-! ### Names -/

namespace Text

theorem cut?_append_of_not_mem {sep : Char} {rest more : List Char} :
    ∀ {front : List Char}, sep ∉ front →
      cut? (sep :: rest) (front ++ sep :: rest ++ more) = some (front, more)
  | [], _ => by simp [cut?, after?, startsWith]
  | c :: front, h => by
    obtain ⟨hc, hfront⟩ := not_or.mp (mt List.mem_cons.mpr h)
    have hafter : after? (sep :: rest) (c :: (front ++ sep :: rest ++ more)) = none := by
      simp [after?, startsWith, hc]
    rw [List.cons_append, List.cons_append, cut?, hafter, cut?_append_of_not_mem hfront]
    rfl

theorem cut?_eq_none_of_not_mem {sep : Char} {rest cs : List Char} (h : sep ∉ cs) :
    cut? (sep :: rest) cs = none := by
  induction cs with
  | nil => rfl
  | cons c cs ih =>
    obtain ⟨hc, hcs⟩ := not_or.mp (mt List.mem_cons.mpr h)
    have hafter : after? (sep :: rest) (c :: cs) = none := by simp [after?, startsWith, hc]
    rw [cut?, hafter, ih hcs]
    rfl

theorem mem_of_mem_dropLeadChar {c d : Char} {cs : List Char} (h : d ∈ dropLeadChar c cs) :
    d ∈ cs :=
  (List.dropWhile_sublist _).subset h

theorem mem_of_mem_dropTrailChar {c d : Char} {cs : List Char} (h : d ∈ dropTrailChar c cs) :
    d ∈ cs := by
  rw [dropTrailChar, List.mem_reverse] at h
  exact List.mem_reverse.mp ((List.dropWhile_sublist _).subset h)

theorem mem_of_mem_trim {d : Char} {cs : List Char} (h : d ∈ trim cs) : d ∈ cs := by
  rw [trim, trimEnd, List.mem_reverse] at h
  exact (List.dropWhile_sublist _).subset
    (List.mem_reverse.mp ((List.dropWhile_sublist _).subset h))

end Text

namespace Fqsen

/-- A full name starts with the separator. -/
def Rooted (f : Fqsen) : Prop := f.chars.head? = some '\\'

/-- The name of something that is no member: a full name without a colon. -/
def Plain (f : Fqsen) : Prop := f.Rooted ∧ ':' ∉ f.chars

theorem Rooted.join {f : Fqsen} (h : f.Rooted) (name : String) : (f.join name).Rooted := by
  rw [Fqsen.join, Rooted]
  split
  · simp [separator]
  · rw [chars_ofChars]
    cases hc : f.chars with
    | nil => simp [Rooted, hc] at h
    | cons c cs => simpa [Rooted, hc] using h

theorem Plain.join {f : Fqsen} (h : f.Plain) {name : String} (hname : ':' ∉ name.toList) :
    (f.join name).Plain := by
  refine ⟨h.1.join name, fun hmem => ?_⟩
  have hsegment : ':' ∉ Text.dropTrailChar separator (Text.dropLeadChar separator name.toList) :=
    fun hm => hname (Text.mem_of_mem_dropLeadChar (Text.mem_of_mem_dropTrailChar hm))
  rw [Fqsen.join] at hmem
  split at hmem
  · simp only [chars_ofChars, List.mem_cons] at hmem
    rcases hmem with hmem | hmem
    · simp [separator] at hmem
    · exact hsegment hmem
  · simp only [chars_ofChars, List.mem_append, List.mem_cons] at hmem
    rcases hmem with hmem | hmem | hmem
    · exact h.2 hmem
    · simp [separator] at hmem
    · exact hsegment hmem

theorem rooted_ofText (s : String) : (ofText s).Rooted := head?_ofText s

theorem plain_ofText {s : String} (h : ':' ∉ s.toList) : (ofText s).Plain := by
  refine ⟨rooted_ofText s, fun hmem => ?_⟩
  have htrim : ':' ∉ Text.trim s.toList := fun hm => h (Text.mem_of_mem_trim hm)
  rw [ofText] at hmem
  split at hmem
  · next rest hr =>
    rw [chars_ofChars, ← hr] at hmem
    exact htrim hmem
  · rw [chars_ofChars, List.mem_cons] at hmem
    rcases hmem with hmem | hmem
    · simp at hmem
    · exact htrim hmem

theorem plain_root : root.Plain := by
  refine ⟨by simp [Rooted, root, separator], by simp [root, separator]⟩

theorem Rooted.member {owner : Fqsen} (h : owner.Rooted) (kind : MemberKind) (name : String) :
    (owner.member kind name).Rooted := by
  rw [Rooted, Fqsen.member, chars_ofChars]
  cases hc : owner.chars with
  | nil => simp [Rooted, hc] at h
  | cons c cs => simpa [Rooted, hc] using h

/-- The owner in the name of a member can be told from it. -/
theorem Plain.cut?_member {owner : Fqsen} (h : owner.Plain) (kind : MemberKind) (name : String) :
    Text.cut? memberSeparator (owner.member kind name).chars =
      some (owner.chars, memberText kind (bareMember name.toList)) := by
  rw [Fqsen.member, chars_ofChars]
  exact Text.cut?_append_of_not_mem h.2

theorem Plain.owner?_member {owner : Fqsen} (h : owner.Plain) (kind : MemberKind) (name : String) :
    (owner.member kind name).owner? = some owner := by
  rw [owner?, h.cut?_member]
  simp [ofChars, chars]

theorem Plain.isMember_member {owner : Fqsen} (h : owner.Plain) (kind : MemberKind)
    (name : String) : (owner.member kind name).isMember = true := by
  rw [isMember, Text.contains, h.cut?_member]
  rfl

theorem isSome_owner? (f : Fqsen) : f.owner?.isSome = f.isMember := by
  rw [owner?, Option.isSome_map]
  rfl

theorem Plain.owner?_eq_none {f : Fqsen} (h : f.Plain) : f.owner? = none := by
  rw [owner?, memberSeparator, Text.cut?_eq_none_of_not_mem h.2]
  rfl

end Fqsen

/-! ### Tags without addresses -/

/-- No reference among the tags has an address. -/
def Tags.Unlinked (tags : Tags) : Prop := ∀ r ∈ tags.references, r.resolved = none

theorem Tags.mem_references_iff {tags : Tags} {r : Reference} :
    r ∈ tags.references ↔ ∃ name, ∃ t ∈ tags.get name, t.reference? = some r := by
  rw [references, List.mem_filterMap]
  constructor
  · rintro ⟨t, ht, hr⟩
    obtain ⟨group, hgroup, htg⟩ := List.mem_flatten.mp ht
    obtain ⟨name, hname⟩ := NameMap.mem_values_iff.mp hgroup
    exact ⟨name, t, by simpa [get, hname] using htg, hr⟩
  · rintro ⟨name, t, ht, hr⟩
    rw [get] at ht
    cases hname : tags.byName.get? name with
    | none => simp [hname] at ht
    | some group =>
      refine ⟨t, List.mem_flatten.mpr ⟨group, NameMap.mem_values_iff.mpr ⟨name, hname⟩, ?_⟩, hr⟩
      simpa [hname] using ht

theorem Tags.get_push (tags : Tags) (t : Tag) (name : String) :
    (tags.push t).get name = if t.name = name then tags.get name ++ [t] else tags.get name := by
  rw [push, get, NameMap.get?_insert]
  split
  · next h => simp [h]
  · rfl

theorem Tags.unlinked_empty : Tags.Unlinked {} := by
  intro r hr
  obtain ⟨name, t, ht, -⟩ := Tags.mem_references_iff.mp hr
  simp [Tags.get] at ht

theorem Tags.Unlinked.push {tags : Tags} (h : tags.Unlinked) {t : Tag}
    (ht : ∀ r, t.reference? = some r → r.resolved = none) : (tags.push t).Unlinked := by
  intro r hr
  obtain ⟨name, u, hu, hur⟩ := Tags.mem_references_iff.mp hr
  rw [Tags.get_push] at hu
  split at hu
  · rcases List.mem_append.mp hu with hu | hu
    · exact h r (Tags.mem_references_iff.mpr ⟨name, u, hu, hur⟩)
    · rw [List.mem_singleton.mp hu] at hur
      exact ht r hur
  · exact h r (Tags.mem_references_iff.mpr ⟨name, u, hu, hur⟩)

namespace Tag

theorem reference?_variableTag (name : String) (rest : List Char) :
    (variableTag name rest).reference? = none := by
  simp only [variableTag]
  split
  · rfl
  · split <;> rfl

theorem reference?_magicCall? {isStatic : Bool} {types : List String} {cs : List Char} {t : Tag}
    (h : magicCall? isStatic types cs = some t) : t.reference? = none := by
  simp only [magicCall?] at h
  split at h
  · simp at h
  · split at h
    · obtain ⟨pair, -, rfl⟩ := Option.map_eq_some_iff.mp h
      rfl
    · simp at h

theorem reference?_magicTyped? {isStatic : Bool} {cs : List Char} {t : Tag}
    (h : magicTyped? isStatic cs = some t) : t.reference? = none := by
  simp only [magicTyped?] at h
  rcases Option.or_eq_some_iff.mp h with h | ⟨-, h⟩
  · split at h
    · simp at h
    · exact reference?_magicCall? h
  · exact reference?_magicCall? h

theorem reference?_magicMethod? {cs : List Char} {t : Tag} (h : magicMethod? cs = some t) :
    t.reference? = none := by
  simp only [magicMethod?] at h
  rcases Option.or_eq_some_iff.mp h with h | ⟨-, h⟩
  · split at h
    · exact reference?_magicTyped? h
    · simp at h
  · exact reference?_magicTyped? h

/-- A tag as written has no address. -/
theorem resolved_parse? {cs : List Char} {t : Tag} (h : parse? cs = some t) {r : Reference}
    (hr : t.reference? = some r) : r.resolved = none := by
  unfold parse? at h
  split at h
  · dsimp only at h
    split at h
    · simp at h
    · split at h
      · cases h
        rw [reference?_variableTag] at hr
        simp at hr
      · split at h
        · cases h
          simp [reference?] at hr
        · split at h
          · cases h
            simp only [reference?, Option.some.injEq] at hr
            rw [← hr]
          · split at h
            · simp only [Option.some.injEq] at h
              cases hm : magicMethod? (Text.cutWord _).2 with
              | none =>
                rw [hm] at h
                subst h
                simp [reference?] at hr
              | some found =>
                rw [hm] at h
                subst h
                rw [Option.getD_some, reference?_magicMethod? hm] at hr
                simp at hr
            · cases h
              simp [reference?] at hr
  · simp at h

end Tag

theorem DocBlock.unlinked_parse (raw : String) (line : Nat) : (parse raw line).tags.Unlinked := by
  have hfold (texts : List (List Char)) (tags : Tags) (h : tags.Unlinked) :
      ((texts.filterMap fun t => Tag.parse? (Text.trimEnd t)).foldl Tags.push tags).Unlinked := by
    induction texts generalizing tags with
    | nil => exact h
    | cons text rest ih =>
      rw [List.filterMap_cons]
      split
      · exact ih tags h
      · next t ht => exact ih _ (h.push fun r hr => Tag.resolved_parse? ht hr)
  exact hfold _ _ Tags.unlinked_empty

/-! ### What holds of a file that was read -/

/-- The documentation of an element as it is read. -/
structure Info.Sound (i : Info) : Prop where
  rooted : i.fqsen.Rooted
  unlinked : i.tags.Unlinked
  unfiled : i.package = none

theorem Info.Sound.document {i : Info} (h : i.Sound) {doc : Option DocBlock}
    (hdoc : ∀ d, doc = some d → d.tags.Unlinked) : (Reading.document doc i).Sound := by
  cases doc with
  | none => exact h
  | some d => exact ⟨h.rooted, hdoc d rfl, h.unfiled⟩

theorem Info.sound_ofFqsen {f : Fqsen} (h : f.Rooted) (line : Nat) : (Info.ofFqsen f line).Sound :=
  ⟨h, Tags.unlinked_empty, rfl⟩

theorem Reading.fqsen_document (doc : Option DocBlock) (i : Info) :
    (Reading.document doc i).fqsen = i.fqsen := by
  cases doc <;> rfl

theorem Reading.name_document (doc : Option DocBlock) (i : Info) :
    (Reading.document doc i).name = i.name := by
  cases doc <;> rfl

/-- The documentation of a member of an owner as it is read. -/
structure Info.Declared (owner : Fqsen) (kind : MemberKind) (i : Info) : Prop where
  fqsen_eq : ∃ name, i.fqsen = owner.member kind name
  name_eq : i.name = i.fqsen.name
  sound : i.Sound

theorem Info.declared_document {owner : Fqsen} (h : owner.Plain) (kind : MemberKind) (name : String)
    (line : Nat) {doc : Option DocBlock} (hdoc : ∀ d, doc = some d → d.tags.Unlinked) :
    (Reading.document doc (Info.ofFqsen (owner.member kind name) line)).Declared owner kind where
  fqsen_eq := ⟨name, Reading.fqsen_document doc _⟩
  name_eq := by rw [Reading.name_document, Reading.fqsen_document]; rfl
  sound := (Info.sound_ofFqsen (h.1.member kind name) line).document hdoc

def Members.Sound (owner : Fqsen) (m : Members) : Prop :=
  ∀ kind key item, m.item? kind key = some item →
    (Spot.member .class owner.text kind key).Names item ∧ item.info.Sound

/-- A file as it is read. -/
structure File.AsRead (f : File) : Prop where
  top : ∀ kind key item, f.topItem? kind key = some item →
    (Spot.top kind key).Names item ∧ item.info.Sound ∧ (kind ≠ .constant → item.info.fqsen.Plain)
  members : ∀ kind key m, f.membersIn? kind key = some m → m.Sound ⟨key⟩
  bases : ∀ kind key b, f.basesAt? kind key = some b → ∀ r ∈ b.all, r.resolved = none
  tags : f.tags.Unlinked
  aliases : ∀ name target, f.aliases.get? name = some target → target.Rooted

namespace Members

theorem sound_empty (owner : Fqsen) : Members.Sound owner {} := by
  intro kind key item h
  cases kind <;> simp [Members.item?] at h

variable {owner : Fqsen} {m : Members} (hp : owner.Plain) (hm : m.Sound owner)
include hp hm

theorem Sound.addMethod {e : Element MethodBody} (he : e.info.Declared owner .method) :
    (m.addMethod e).Sound owner := by
  intro kind key item hi
  cases kind with
  | method =>
    simp only [Members.item?, Members.addMethod, NameMap.get?_insert] at hi
    split at hi
    · next heq =>
      cases hi
      obtain ⟨name, hname⟩ := he.fqsen_eq
      exact ⟨⟨rfl, rfl, by rw [Element.methodItem, hname, hp.owner?_member],
        heq ▸ he.name_eq.symm⟩, he.sound⟩
    · exact hm .method key item hi
  | «class» | interface | trait | function | constant | property => exact hm _ key item hi

theorem Sound.addProperty {e : Element PropertyBody} (he : e.info.Declared owner .property) :
    (m.addProperty e).Sound owner := by
  intro kind key item hi
  cases kind with
  | property =>
    simp only [Members.item?, Members.addProperty, NameMap.get?_insert] at hi
    split at hi
    · next heq =>
      cases hi
      obtain ⟨name, hname⟩ := he.fqsen_eq
      exact ⟨⟨rfl, rfl, by rw [Element.propertyItem, hname, hp.owner?_member],
        heq ▸ he.name_eq.symm⟩, he.sound⟩
    · exact hm .property key item hi
  | «class» | interface | trait | function | constant | method => exact hm _ key item hi

theorem Sound.addConstant {e : Element ConstantBody} (he : e.info.Declared owner .constant) :
    (m.addConstant e).Sound owner := by
  intro kind key item hi
  cases kind with
  | constant =>
    simp only [Members.item?, Members.addConstant, NameMap.get?_insert] at hi
    split at hi
    · next heq =>
      cases hi
      obtain ⟨name, hname⟩ := he.fqsen_eq
      refine ⟨⟨rfl, ?_, by rw [Element.constantItem, hname, hp.owner?_member],
        heq ▸ he.name_eq.symm⟩, he.sound⟩
      rw [Element.constantItem, hname]
      exact hp.isMember_member .constant name
    · exact hm .constant key item hi
  | «class» | interface | trait | function | property | method => exact hm _ key item hi

end Members

namespace File

theorem AsRead.keyed {f : File} (h : f.AsRead) : f.Keyed := by
  intro p item hi
  cases p with
  | top kind key => exact (h.top kind key item hi).1
  | member k ownerKey kind key =>
    obtain ⟨m, hm, hitem⟩ := Option.bind_eq_some_iff.mp hi
    exact (h.members k ownerKey m hm kind key item hitem).1

theorem AsRead.sound {f : File} (h : f.AsRead) {p : Spot} {item : Item}
    (hi : f.at? p = some item) : item.info.Sound := by
  cases p with
  | top kind key => exact (h.top kind key item hi).2.1
  | member k ownerKey kind key =>
    obtain ⟨m, hm, hitem⟩ := Option.bind_eq_some_iff.mp hi
    exact (h.members k ownerKey m hm kind key item hitem).2

/-- Two files with the same declarations. -/
theorem AsRead.congr {f g : File} (h : f.AsRead) (hc : g.classes = f.classes)
    (hi : g.interfaces = f.interfaces) (ht : g.traits = f.traits) (hf : g.functions = f.functions)
    (hk : g.constants = f.constants) (htags : g.tags.Unlinked)
    (haliases : ∀ name target, g.aliases.get? name = some target → target.Rooted) : g.AsRead := by
  constructor
  · intro kind key item hitem
    refine h.top kind key item ?_
    cases kind <;> simpa only [topItem?, hc, hi, ht, hf, hk] using hitem
  · intro kind key m hm
    refine h.members kind key m ?_
    cases kind <;> simpa only [membersIn?, hc, hi, ht] using hm
  · intro kind key b hb
    refine h.bases kind key b ?_
    cases kind <;> simpa only [basesAt?, hc, hi, ht] using hb
  · exact htags
  · exact haliases

/-- A file that is read, with one more element: what is new is sound, and all else was there. -/
theorem AsRead.gain {f g : File} (h : f.AsRead) (added : Item)
    (hsound : added.info.Sound) (hplain : added.kind ≠ .constant → added.info.fqsen.Plain)
    (htop : ∀ kind key item, g.topItem? kind key = some item →
      kind = added.kind ∧ key = added.info.fqsen.text ∧ item = added ∨
        f.topItem? kind key = some item)
    (hmembers : ∀ kind key m, g.membersIn? kind key = some m →
      m.Sound ⟨key⟩ ∨ f.membersIn? kind key = some m)
    (hbases : ∀ kind key b, g.basesAt? kind key = some b →
      (∀ r ∈ b.all, r.resolved = none) ∨ f.basesAt? kind key = some b)
    (htags : g.tags = f.tags) (haliases : g.aliases = f.aliases) : g.AsRead := by
  constructor
  · intro kind key item hi
    rcases htop kind key item hi with ⟨rfl, rfl, rfl⟩ | hold
    · exact ⟨⟨rfl, rfl⟩, hsound, hplain⟩
    · exact h.top kind key item hold
  · intro kind key m hi
    exact (hmembers kind key m hi).elim id (h.members kind key m)
  · intro kind key b hi
    exact (hbases kind key b hi).elim id (h.bases kind key b)
  · exact htags ▸ h.tags
  · exact haliases ▸ h.aliases

section Adding

variable {f : File} (h : f.AsRead)
include h

theorem AsRead.addClass {e : Element ClassBody} (hp : e.info.fqsen.Plain) (hs : e.info.Sound)
    (hm : e.body.members.Sound e.info.fqsen)
    (hb : ∀ r ∈ e.body.parent.toList ++ e.body.interfaces ++ e.body.usedTraits,
      r.resolved = none) : (f.addClass e).AsRead := by
  refine h.gain e.classItem hs (fun _ => hp) (fun kind key item hi => ?_)
    (fun kind key m hi => ?_) (fun kind key b hi => ?_) rfl rfl
  all_goals cases kind with
  | «class» =>
    simp only [topItem?, membersIn?, basesAt?, File.addClass, NameMap.get?_insert] at hi
    split at hi
    · next heq =>
      cases hi
      subst heq
      first | exact .inl ⟨rfl, rfl, rfl⟩ | exact .inl hm | exact .inl hb
    · exact .inr hi
  | interface | trait | function | constant | method | property => exact .inr hi

theorem AsRead.addInterface {e : Element InterfaceBody} (hp : e.info.fqsen.Plain)
    (hs : e.info.Sound) (hm : e.body.members.Sound e.info.fqsen)
    (hb : ∀ r ∈ e.body.parents, r.resolved = none) : (f.addInterface e).AsRead := by
  have hb : ∀ r ∈ Bases.all { interfaces := e.body.parents }, r.resolved = none := by
    simpa [Bases.all] using hb
  refine h.gain e.interfaceItem hs (fun _ => hp) (fun kind key item hi => ?_)
    (fun kind key m hi => ?_) (fun kind key b hi => ?_) rfl rfl
  all_goals cases kind with
  | interface =>
    simp only [topItem?, membersIn?, basesAt?, File.addInterface, NameMap.get?_insert] at hi
    split at hi
    · next heq =>
      cases hi
      subst heq
      first | exact .inl ⟨rfl, rfl, rfl⟩ | exact .inl hm | exact .inl hb
    · exact .inr hi
  | «class» | trait | function | constant | method | property => exact .inr hi

theorem AsRead.addTrait {e : Element TraitBody} (hp : e.info.fqsen.Plain)
    (hs : e.info.Sound) (hm : e.body.members.Sound e.info.fqsen)
    (hb : ∀ r ∈ e.body.usedTraits, r.resolved = none) : (f.addTrait e).AsRead := by
  have hb : ∀ r ∈ Bases.all { usedTraits := e.body.usedTraits }, r.resolved = none := by
    simpa [Bases.all] using hb
  refine h.gain e.traitItem hs (fun _ => hp) (fun kind key item hi => ?_)
    (fun kind key m hi => ?_) (fun kind key b hi => ?_) rfl rfl
  all_goals cases kind with
  | trait =>
    simp only [topItem?, membersIn?, basesAt?, File.addTrait, NameMap.get?_insert] at hi
    split at hi
    · next heq =>
      cases hi
      subst heq
      first | exact .inl ⟨rfl, rfl, rfl⟩ | exact .inl hm | exact .inl hb
    · exact .inr hi
  | «class» | interface | function | constant | method | property => exact .inr hi

theorem AsRead.addFunction {e : Element FunctionBody} (hp : e.info.fqsen.Plain)
    (hs : e.info.Sound) : (f.addFunction e).AsRead := by
  refine h.gain e.functionItem hs (fun _ => hp) (fun kind key item hi => ?_)
    (fun kind key m hi => .inr (by cases kind <;> exact hi))
    (fun kind key b hi => .inr (by cases kind <;> exact hi)) rfl rfl
  cases kind with
  | function =>
    simp only [topItem?, File.addFunction, NameMap.get?_insert] at hi
    split at hi
    · next heq =>
      cases hi
      exact .inl ⟨rfl, heq.symm, rfl⟩
    · exact .inr hi
  | «class» | interface | trait | constant | method | property => exact .inr hi

theorem AsRead.addConstant {e : Element ConstantBody} (hs : e.info.Sound) :
    (f.addConstant e).AsRead := by
  refine h.gain e.constantItem hs (fun hne => absurd rfl hne)
    (fun kind key item hi => ?_) (fun kind key m hi => .inr (by cases kind <;> exact hi))
    (fun kind key b hi => .inr (by cases kind <;> exact hi)) rfl rfl
  cases kind with
  | constant =>
    simp only [topItem?, File.addConstant, NameMap.get?_insert] at hi
    split at hi
    · next heq =>
      cases hi
      exact .inl ⟨rfl, heq.symm, rfl⟩
    · exact .inr hi
  | «class» | interface | trait | function | method | property => exact .inr hi

end Adding

end File

end ApiDoc
