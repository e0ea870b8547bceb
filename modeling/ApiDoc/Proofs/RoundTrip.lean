import ApiDoc.Codec.Project
import ApiDoc.Proofs.Records

/-!
# What is stored can be read again

`Recovers` says that a reader gives nothing else than what was written. Here it is shown to give it:
a file, a tree, a table of contents, a document and a manifest come back from the value they are
written as, and from both texts of that value. The one condition is that the numbers in them fit in
32 bits (`fits`), which a reader checks at every number.

The induction over a record is in two steps. `Returns` carries along that what is written holds no
number out of bounds (`Json.isWorded`): such a value has no flaw, which readers of tags ask for, and
it is the same when it comes back from its text.
-/

namespace ApiDoc

open Codec (wordBound)
open Json (isShallow)

/-! ### Numbers within 32 bits -/

/-- Whether a number fits in 32 bits. -/
def Codec.isWord (n : Nat) : Bool := n < wordBound

/-- Whether all numbers of an address fit. -/
def ElementRef.fits (r : ElementRef) : Bool := Codec.isWord r.file

def Target.fits : Target → Bool
  | .file id => Codec.isWord id
  | .element r => r.fits
  | .spaceNode id => Codec.isWord id
  | .packageNode id => Codec.isWord id

def Reference.fits (r : Reference) : Bool := r.resolved.all Target.fits

/-- Whether the reference in the body of a tag fits; the other bodies have no numbers. -/
def TagBody.fits : TagBody → Bool
  | .reference r => r.fits
  | _ => true

def Tag.fits (t : Tag) : Bool := t.body.fits

def Tags.fits (ts : Tags) : Bool := ts.byName.values.all fun group => group.all Tag.fits

def Info.fits (i : Info) : Bool := Codec.isWord i.line && i.tags.fits

def Element.fits {α : Type} (body : α → Bool) (e : Element α) : Bool := e.info.fits && body e.body

def Argument.fits (a : Argument) : Bool := Codec.isWord a.line

def FunctionBody.fits (b : FunctionBody) : Bool := b.arguments.all Argument.fits

def MethodBody.fits (b : MethodBody) : Bool := b.arguments.all Argument.fits

/-- Constants and properties have no numbers besides those of their documentation. -/
def anyFits {α : Type} (_ : α) : Bool := true

def Members.fits (m : Members) : Bool :=
  m.methods.values.all (Element.fits MethodBody.fits) &&
    m.properties.values.all (Element.fits anyFits) && m.constants.values.all (Element.fits anyFits)

def ClassBody.fits (b : ClassBody) : Bool :=
  b.parent.all Reference.fits && b.interfaces.all Reference.fits &&
    b.usedTraits.all Reference.fits && b.members.fits

def InterfaceBody.fits (b : InterfaceBody) : Bool := b.parents.all Reference.fits && b.members.fits

def TraitBody.fits (b : TraitBody) : Bool := b.usedTraits.all Reference.fits && b.members.fits

def File.fits (f : File) : Bool :=
  f.tags.fits && f.classes.values.all (Element.fits ClassBody.fits) &&
    f.interfaces.values.all (Element.fits InterfaceBody.fits) &&
    f.traits.values.all (Element.fits TraitBody.fits) &&
    f.functions.values.all (Element.fits FunctionBody.fits) &&
    f.constants.values.all (Element.fits anyFits) &&
    f.markers.all (fun m => Codec.isWord m.line) && f.problems.all fun p => Codec.isWord p.line

def Node.fits (n : Node) : Bool :=
  Codec.isWord n.id && n.parent.all Codec.isWord && n.children.values.all Codec.isWord &&
    n.classes.values.all ElementRef.fits && n.interfaces.values.all ElementRef.fits &&
    n.traits.values.all ElementRef.fits && n.functions.values.all ElementRef.fits &&
    n.constants.values.all ElementRef.fits && n.files.values.all Codec.isWord

def Taxonomy.fits (t : Taxonomy) : Bool := t.nodes.all Node.fits

def Manifest.fits (m : Manifest) : Bool := Codec.isWord m.schema

/-! ### Values without numbers out of bounds -/

namespace Json

mutual

/-- Whether all numbers of a value fit in 32 bits and no part of it is flawed. -/
def isWorded : Json → Bool
  | .int n => 0 ≤ n && n < wordBound
  | .arr items => itemsWorded items
  | .obj fields => fieldsWorded fields
  | .real _ => false
  | .flawed => false
  | _ => true

def itemsWorded : List Json → Bool
  | [] => true
  | item :: rest => isWorded item && itemsWorded rest

def fieldsWorded : List (String × Json) → Bool
  | [] => true
  | (_, value) :: rest => isWorded value && fieldsWorded rest

end

theorem itemsWorded_eq_all (items : List Json) : itemsWorded items = items.all isWorded := by
  induction items with
  | nil => rfl
  | cons item rest ih => rw [itemsWorded, ih, List.all_cons]

theorem fieldsWorded_eq_all (fields : List (String × Json)) :
    fieldsWorded fields = fields.all fun f => f.2.isWorded := by
  induction fields with
  | nil => rfl
  | cons f rest ih => rw [fieldsWorded, ih, List.all_cons]

mutual

theorem isSound_of_isWorded : ∀ j : Json, isWorded j = true → isSound j = true
  | .arr items, h => itemsSound_of_itemsWorded items h
  | .obj fields, h => fieldsSound_of_fieldsWorded fields h
  | .null, _ => rfl
  | .bool _, _ => rfl
  | .int _, _ => rfl
  | .real _, _ => rfl
  | .str _, _ => rfl
  | .flawed, h => h

theorem itemsSound_of_itemsWorded :
    ∀ items : List Json, itemsWorded items = true → itemsSound items = true
  | [], _ => rfl
  | item :: rest, h => by
    simp only [itemsWorded, itemsSound, Bool.and_eq_true] at h ⊢
    exact ⟨isSound_of_isWorded item h.1, itemsSound_of_itemsWorded rest h.2⟩

theorem fieldsSound_of_fieldsWorded :
    ∀ fields : List (String × Json), fieldsWorded fields = true → fieldsSound fields = true
  | [], _ => rfl
  | (_, value) :: rest, h => by
    simp only [fieldsWorded, fieldsSound, Bool.and_eq_true] at h ⊢
    exact ⟨isSound_of_isWorded value h.1, fieldsSound_of_fieldsWorded rest h.2⟩

end

mutual

/-- A value without numbers out of bounds comes back from its text as it is. -/
theorem reread_of_isWorded : ∀ j : Json, isWorded j = true → reread j = j
  | .int n, h => by
    simp only [isWorded, Bool.and_eq_true, decide_eq_true_eq] at h
    have hlt : n < digitsBound := Int.lt_of_lt_of_le h.2 (by decide)
    rw [reread, rereadInt_of_fits h.1 hlt]
  | .arr items, h => congrArg Json.arr (rereadItems_of_itemsWorded items h)
  | .obj fields, h => congrArg Json.obj (rereadFields_of_fieldsWorded fields h)
  | .null, _ => rfl
  | .bool _, _ => rfl
  | .real _, _ => rfl
  | .str _, _ => rfl
  | .flawed, _ => rfl

theorem rereadItems_of_itemsWorded :
    ∀ items : List Json, itemsWorded items = true → rereadItems items = items
  | [], _ => rfl
  | item :: rest, h => by
    simp only [itemsWorded, Bool.and_eq_true] at h
    rw [rereadItems, reread_of_isWorded item h.1, rereadItems_of_itemsWorded rest h.2]

theorem rereadFields_of_fieldsWorded :
    ∀ fields : List (String × Json), fieldsWorded fields = true → rereadFields fields = fields
  | [], _ => rfl
  | (_, value) :: rest, h => by
    simp only [fieldsWorded, Bool.and_eq_true] at h
    rw [rereadFields, reread_of_isWorded value h.1, rereadFields_of_fieldsWorded rest h.2]

end

end Json

namespace Codec

variable {α : Type}

/-! ### What it means to be read again -/

/-- Everything that fits is written without numbers out of bounds, and read from that again. -/
structure Returns (fits : α → Bool) (encode : α → Json) (decode : Decoder α) : Prop where
  worded : ∀ a, fits a = true → (encode a).isWorded = true
  read : ∀ a, fits a = true → decode (encode a) = some a

theorem text_returns : Returns anyFits .str text := ⟨fun _ _ => rfl, fun _ _ => rfl⟩

theorem boolean_returns : Returns anyFits .bool boolean := ⟨fun _ _ => rfl, fun _ _ => rfl⟩

theorem fqsen?_returns : Returns anyFits (fun f : Fqsen => .str f.text) fqsen? :=
  ⟨fun _ _ => rfl, fun _ _ => rfl⟩

theorem word_returns : Returns isWord .nat word where
  worded n h := by
    simpa [Json.nat, Json.isWorded, isWord] using h
  read n h := by
    have hlt : n < wordBound := of_decide_eq_true h
    simp [Json.nat, word, hlt]

theorem wordOf_returns (c : Closeness) {name : α → String} {ofName? : String → Option α}
    (h : ∀ a, ofName? (name a) = some a) :
    Returns anyFits (fun a => .str (name a)) (wordOf c ofName?) :=
  ⟨fun _ _ => rfl, fun a _ => h a⟩

theorem mapM_read {β γ : Type} {encode : β → γ} {decode : γ → Option β} {items : List β}
    (h : ∀ b ∈ items, decode (encode b) = some b) :
    (items.map encode).mapM decode = some items := by
  induction items with
  | nil => rfl
  | cons item rest ih =>
    simp [List.mapM_cons, h item List.mem_cons_self, ih fun b hb => h b (.tail _ hb)]

section Combined

variable {fits : α → Bool} {encode : α → Json} {decode : Decoder α}
  (h : Returns fits encode decode)
include h

theorem listOf_returns : Returns (·.all fits) (ofList encode) (listOf decode) where
  worded items hitems := by
    rw [ofList, Json.isWorded, Json.itemsWorded_eq_all, List.all_map, List.all_eq_true]
    exact fun a ha => h.worded a (List.all_eq_true.mp hitems a ha)
  read items hitems := mapM_read fun a ha => h.read a (List.all_eq_true.mp hitems a ha)

theorem mapOf_returns : Returns (·.values.all fits) (ofMap encode) (mapOf decode) where
  worded m hm := by
    rw [ofMap, Json.isWorded, Json.fieldsWorded_eq_all, List.all_map, List.all_eq_true]
    exact fun e he => h.worded e.2 (List.all_eq_true.mp hm e.2 (List.mem_map_of_mem he))
  read m hm := by
    have hentries : (m.entries.map fun e => (e.1, encode e.2)).mapM
        (fun f => (decode f.2).map fun v => (f.1, v)) = some m.entries := by
      refine mapM_read fun e he => ?_
      rw [h.read e.2 (List.all_eq_true.mp hm e.2 (List.mem_map_of_mem he))]
      rfl
    rw [ofMap, mapOf, hentries, Option.map_some, NameMap.ofList_entries]

/-! ### Fields that are read again -/

theorem required_read {fields : List (String × Json)} {key : String} (a : α) (ha : fits a = true)
    (hf : Json.fieldsNamed key fields = [encode a]) : required fields key decode = some a := by
  rw [required, hf]
  exact h.read a ha

theorem optional_read {fields : List (String × Json)} {key : String} {default : α} (a : α)
    (ha : fits a = true) (hf : Json.fieldsNamed key fields = [encode a]) :
    optional fields key default decode = some a := by
  rw [optional, hf]
  exact h.read a ha

theorem whenSome_read {fields : List (String × Json)} {key : String} (a : Option α)
    (hnull : ∀ a, encode a ≠ .null) (ha : a.all fits = true)
    (hf : Json.fieldsNamed key fields = (a.map encode).toList) :
    optional fields key none (orNull decode) = some a := by
  rw [optional, hf]
  cases a with
  | none => rfl
  | some a =>
    simp only [Option.map_some, Option.toList_some]
    rw [orNull, h.read a ha, Option.map_some]
    exact hnull a

theorem whenNonempty_read {fields : List (String × Json)} {key : String} (a : List α)
    (ha : a.all fits = true)
    (hf : Json.fieldsNamed key fields = if a.isEmpty then [] else [ofList encode a]) :
    optional fields key [] (listOf decode) = some a := by
  cases a with
  | nil => rw [optional, hf]; rfl
  | cons item rest => exact optional_read (listOf_returns h) (item :: rest) ha hf

theorem whenEntries_read {fields : List (String × Json)} {key : String} (a : NameMap α)
    (ha : a.values.all fits = true)
    (hf : Json.fieldsNamed key fields = if a.isEmpty then [] else [ofMap encode a]) :
    optional fields key .empty (mapOf decode) = some a := by
  by_cases he : a.isEmpty = true
  · have hempty : a = .empty := NameMap.ext (List.isEmpty_iff.mp he)
    rw [optional, hf, if_pos he, hempty]
  · rw [if_neg he] at hf
    exact optional_read (mapOf_returns h) a ha hf

theorem worded_whenSome (key : String) {a : Option α} (ha : a.all fits = true) :
    Json.fieldsWorded (whenSome key encode a) = true := by
  cases a with
  | none => rfl
  | some a => simp [whenSome, Json.fieldsWorded, h.worded a ha]

theorem worded_whenNonempty (key : String) {a : List α} (ha : a.all fits = true) :
    Json.fieldsWorded (whenNonempty key encode a) = true := by
  rw [whenNonempty]
  split
  · rfl
  · simp [Json.fieldsWorded, (listOf_returns h).worded a ha]

theorem worded_whenEntries (key : String) {a : NameMap α} (ha : a.values.all fits = true) :
    Json.fieldsWorded (whenEntries key encode a) = true := by
  rw [whenEntries]
  split
  · rfl
  · simp [Json.fieldsWorded, (mapOf_returns h).worded a ha]

end Combined

@[simp] theorem fieldsWorded_append (a b : List (String × Json)) :
    Json.fieldsWorded (a ++ b) = (Json.fieldsWorded a && Json.fieldsWorded b) := by
  simp [Json.fieldsWorded_eq_all]

/-- One value is read, then the rest. -/
theorem bind_read {β γ : Type} {x : Option β} {a : β} {rest : β → Option γ} {c : γ}
    (hx : x = some a) (hrest : rest a = some c) : x.bind rest = some c := by
  rw [hx, Option.bind_some, hrest]

theorem guard_read {p : Prop} [Decidable p] (h : p) : (guard p : Option Unit) = some () :=
  if_pos h

/-- The fields of an object are those of its record. -/
theorem record_obj (keys : List String) (least : Nat) (fields : List (String × Json)) :
    record keys least (.obj fields) = some fields := rfl

@[simp] theorem all_anyFits (items : List α) : items.all anyFits = true := by
  simp [anyFits]

@[simp] theorem option_all_anyFits (a : Option α) : a.all anyFits = true := by
  cases a <;> rfl

theorem texts_returns : Returns anyFits .texts (listOf text) where
  worded items _ := (listOf_returns text_returns).worded items (all_anyFits items)
  read items _ := (listOf_returns text_returns).read items (all_anyFits items)

/-! ### References and tags -/

theorem elementRef_returns (c : Closeness) :
    Returns ElementRef.fits elementRef (elementRef? c) where
  worded r h := by
    have hfile := word_returns.worded r.file h
    simp [elementRef, Json.isWorded, Json.fieldsWorded, hfile]
  read r h := by
    have hkind := wordOf_returns c ElementKind.ofName?_name
    rw [elementRef, elementRef?]
    refine bind_read (record_obj _ _ _) ?_
    refine bind_read (required_read word_returns r.file h (by simp)) ?_
    refine bind_read (required_read hkind r.kind rfl (by simp)) ?_
    exact bind_read (required_read fqsen?_returns r.fqsen rfl (by simp)) rfl

theorem target_returns (c : Closeness) : Returns Target.fits target (target? c) where
  worded t h := by
    cases t with
    | file id => simpa [target, Json.isWorded, Json.fieldsWorded] using word_returns.worded id h
    | element r =>
      simpa [target, Json.isWorded, Json.fieldsWorded] using (elementRef_returns c).worded r h
    | spaceNode id =>
      simpa [target, Json.isWorded, Json.fieldsWorded] using word_returns.worded id h
    | packageNode id =>
      simpa [target, Json.isWorded, Json.fieldsWorded] using word_returns.worded id h
  read t h := by
    cases t with
    | file id => rw [target, target?, word_returns.read id h, Option.map_some]
    | element r => rw [target, target?, (elementRef_returns c).read r h, Option.map_some]
    | spaceNode id => rw [target, target?, word_returns.read id h, Option.map_some]
    | packageNode id => rw [target, target?, word_returns.read id h, Option.map_some]

theorem target_ne_null (t : Target) : target t ≠ .null := by
  cases t <;> simp [target]

theorem reference_returns (c : Closeness) :
    Returns Reference.fits reference (reference? c) where
  worded r h := by
    have hresolved := worded_whenSome (target_returns c) "resolved" h
    simp [reference, Json.isWorded, Json.fieldsWorded, hresolved]
  read r h := by
    rw [reference, reference?]
    refine bind_read (record_obj _ _ _) ?_
    refine bind_read (required_read text_returns r.target rfl (by simp)) ?_
    exact bind_read (whenSome_read (target_returns c) r.resolved target_ne_null h (by simp)) rfl

theorem reference_ne_null (r : Reference) : reference r ≠ .null := by
  simp [reference]

/-- What a body is read from: the name of its shape and its fields. -/
theorem tagBodyFields?_obj (c : Closeness) (name : String) (fields : List (String × Json))
    (hf : Json.fieldsNamed "variant" fields = []) :
    tagBodyFields? c (.obj (("variant", .str name) :: fields)) =
      some (name, ("variant", .str name) :: fields) := by
  simp [tagBodyFields?, required, hf, tagShape?]

theorem worded_tagBody (body : TagBody) (h : body.fits = true) : (tagBody body).isWorded = true := by
  have htexts := fun items => texts_returns.worded items rfl
  cases body with
  | plain => rfl
  | typed types => simp [tagBody, Json.isWorded, Json.fieldsWorded, htexts]
  | typedVariable types name => simp [tagBody, Json.isWorded, Json.fieldsWorded, htexts]
  | reference r =>
    have hr := (reference_returns .loose).worded r h
    simp [tagBody, Json.isWorded, Json.fieldsWorded, hr]
  | magicMethod name returnTypes arguments isStatic =>
    simp [tagBody, Json.isWorded, Json.fieldsWorded, htexts]

theorem tagBody_returns (c : Closeness) : Returns TagBody.fits tagBody (tagBody? c) where
  worded := worded_tagBody
  read body h := by
    have hsound := Json.isSound_of_isWorded _ (worded_tagBody body h)
    rw [tagBody?]
    refine bind_read (guard_read hsound) ?_
    cases body with
    | plain => rfl
    | typed types =>
      refine bind_read (tagBodyFields?_obj c _ _ (by simp)) ?_
      exact bind_read (required_read texts_returns types rfl (by simp)) rfl
    | typedVariable types name =>
      refine bind_read (tagBodyFields?_obj c _ _ (by simp)) ?_
      refine bind_read (required_read texts_returns types rfl (by simp)) ?_
      exact bind_read (required_read text_returns name rfl (by simp)) rfl
    | reference r =>
      refine bind_read (tagBodyFields?_obj c _ _ (by simp)) ?_
      exact bind_read (required_read (reference_returns .loose) r h (by simp)) rfl
    | magicMethod name returnTypes arguments isStatic =>
      refine bind_read (tagBodyFields?_obj c _ _ (by simp)) ?_
      refine bind_read (required_read text_returns name rfl (by simp)) ?_
      refine bind_read (required_read texts_returns returnTypes rfl (by simp)) ?_
      refine bind_read (required_read texts_returns arguments rfl (by simp)) ?_
      exact bind_read (required_read boolean_returns isStatic rfl (by simp)) rfl

theorem tag_returns (c : Closeness) : Returns Tag.fits tag (tag? c) where
  worded t h := by
    have hbody := (tagBody_returns c).worded t.body h
    simp [tag, Json.isWorded, Json.fieldsWorded, hbody]
  read t h := by
    rw [tag, tag?]
    refine bind_read (record_obj _ _ _) ?_
    refine bind_read (required_read text_returns t.name rfl (by simp)) ?_
    refine bind_read (optional_read text_returns t.description rfl (by simp)) ?_
    exact bind_read (required_read (tagBody_returns c) t.body h (by simp)) rfl

theorem tags_returns (c : Closeness) : Returns Tags.fits tags (tags? c) where
  worded ts h := (mapOf_returns (listOf_returns (tag_returns c))).worded ts.byName h
  read ts h := by
    rw [tags, tags?, (mapOf_returns (listOf_returns (tag_returns c))).read ts.byName h,
      Option.map_some]

/-! ### Elements -/

theorem text_ne_null (s : String) : Json.str s ≠ .null := by
  simp

theorem worded_infoFields {i : Info} (h : i.fits = true) :
    Json.fieldsWorded (infoFields i) = true := by
  simp only [Info.fits, Bool.and_eq_true] at h
  have hline := word_returns.worded i.line h.1
  have htags := (tags_returns .loose).worded i.tags h.2
  have hpackage := worded_whenSome text_returns "package" (option_all_anyFits i.package)
  simp [infoFields, Json.fieldsWorded, Json.isWorded, hline, htags, hpackage]

/-- The documentation of an element is read from among fields with other keys. -/
theorem info_read {i : Info} (h : i.fits = true) {others : List (String × Json)}
    (hothers : ∀ key ∈ infoKeys, Json.fieldsNamed key others = []) :
    info? (infoFields i ++ others) = some i := by
  simp only [infoKeys, List.mem_cons, List.not_mem_nil, or_false, forall_eq_or_imp,
    forall_eq] at hothers
  obtain ⟨o1, o2, o3, o4, o5, o6, o7⟩ := hothers
  simp only [Info.fits, Bool.and_eq_true] at h
  rw [info?]
  refine bind_read (required_read fqsen?_returns i.fqsen rfl (by simp [infoFields, o1])) ?_
  refine bind_read (required_read text_returns i.name rfl (by simp [infoFields, o2])) ?_
  refine bind_read (required_read word_returns i.line h.1 (by simp [infoFields, o3])) ?_
  refine bind_read (optional_read text_returns i.summary rfl (by simp [infoFields, o4])) ?_
  refine bind_read (optional_read text_returns i.description rfl (by simp [infoFields, o5])) ?_
  refine bind_read
    (optional_read (tags_returns .loose) i.tags h.2 (by simp [infoFields, o6])) ?_
  exact bind_read (whenSome_read text_returns i.package text_ne_null
    (option_all_anyFits i.package) (by simp [infoFields, o7])) rfl

/-- The body of an element that fits is read from behind its documentation. -/
structure BodyReturns (fits : α → Bool) (encode : α → List (String × Json))
    (decode : List (String × Json) → Option α) : Prop where
  worded : ∀ a, fits a = true → Json.fieldsWorded (encode a) = true
  read : ∀ (i : Info) (a : α), fits a = true → decode (infoFields i ++ encode a) = some a

theorem othersSound_of_fieldsWorded (keys : List String) {fields : List (String × Json)}
    (h : Json.fieldsWorded fields = true) : othersSound keys fields = true := by
  rw [Json.fieldsWorded_eq_all, List.all_eq_true] at h
  rw [othersSound, List.all_eq_true]
  intro f hf
  rw [Json.isSound_of_isWorded f.2 (h f hf), Bool.or_true]

theorem element_returns {fits : α → Bool} {encode : α → List (String × Json)}
    {decode : List (String × Json) → Option α} (keys : List String)
    (hkeys : ∀ a, ∀ key ∈ infoKeys, Json.fieldsNamed key (encode a) = [])
    (h : BodyReturns fits encode decode) :
    Returns (Element.fits fits) (element encode) (element? keys decode) := by
  have hworded : ∀ e : Element α, e.fits fits = true →
      Json.fieldsWorded (infoFields e.info ++ encode e.body) = true := by
    intro e he
    simp only [Element.fits, Bool.and_eq_true] at he
    rw [fieldsWorded_append, worded_infoFields he.1, h.worded e.body he.2, Bool.and_true]
  refine ⟨hworded, fun e he => ?_⟩
  have hothers := othersSound_of_fieldsWorded keys (hworded e he)
  simp only [Element.fits, Bool.and_eq_true] at he
  rw [element, element?]
  refine bind_read rfl (bind_read (guard_read hothers) ?_)
  refine bind_read (info_read he.1 (hkeys e.body)) ?_
  exact bind_read (h.read e.info e.body he.2) rfl

theorem argument_returns : Returns Argument.fits argument argument? where
  worded a h := by
    have hline := word_returns.worded a.line h
    have htypes := worded_whenNonempty text_returns "types" (all_anyFits a.types)
    have hdefault := worded_whenSome text_returns "default" (option_all_anyFits a.default)
    simp [argument, Json.isWorded, Json.fieldsWorded, hline, htypes, hdefault]
  read a h := by
    rw [argument, argument?]
    refine bind_read (record_obj _ _ _) ?_
    refine bind_read (required_read text_returns a.name rfl (by simp)) ?_
    refine bind_read (required_read word_returns a.line h (by simp)) ?_
    refine bind_read (whenNonempty_read text_returns a.types (all_anyFits _) (by simp)) ?_
    refine bind_read
      (whenSome_read text_returns a.default text_ne_null (option_all_anyFits _) (by simp)) ?_
    refine bind_read (optional_read boolean_returns a.byReference rfl (by simp)) ?_
    refine bind_read (optional_read boolean_returns a.isVariadic rfl (by simp)) ?_
    exact bind_read (optional_read text_returns a.description rfl (by simp)) rfl

theorem visibility_read {fs : List (String × Json)} (v : Visibility)
    (hf : Json.fieldsNamed "visibility" fs = [.str v.name]) : visibility? fs = some v :=
  optional_read (wordOf_returns .strict Visibility.ofName?_name) v rfl hf

theorem functionBody_returns : BodyReturns FunctionBody.fits functionFields functionBody? where
  worded b h := by
    have harguments := (listOf_returns argument_returns).worded b.arguments h
    have htypes := worded_whenNonempty text_returns "return_types" (all_anyFits b.returnTypes)
    simp [functionFields, Json.fieldsWorded, harguments, htypes]
  read i b h := by
    rw [functionBody?]
    refine bind_read (optional_read (listOf_returns argument_returns) b.arguments h
      (by simp [infoFields, functionFields])) ?_
    exact bind_read (whenNonempty_read text_returns b.returnTypes (all_anyFits _)
      (by simp [infoFields, functionFields])) rfl

theorem constantBody_returns : BodyReturns anyFits constantFields constantBody? where
  worded b _ := by simp [constantFields, Json.isWorded, Json.fieldsWorded]
  read i b _ := by
    rw [constantBody?]
    refine bind_read
      (optional_read text_returns b.value rfl (by simp [infoFields, constantFields])) ?_
    exact bind_read (visibility_read b.visibility (by simp [infoFields, constantFields])) rfl

theorem methodBody_returns : BodyReturns MethodBody.fits methodFields methodBody? where
  worded b h := by
    have harguments := (listOf_returns argument_returns).worded b.arguments h
    have htypes := worded_whenNonempty text_returns "return_types" (all_anyFits b.returnTypes)
    simp [methodFields, Json.isWorded, Json.fieldsWorded, harguments, htypes]
  read i b h := by
    rw [methodBody?]
    refine bind_read (visibility_read b.visibility (by simp [infoFields, methodFields])) ?_
    refine bind_read
      (optional_read boolean_returns b.isAbstract rfl (by simp [infoFields, methodFields])) ?_
    refine bind_read
      (optional_read boolean_returns b.isFinal rfl (by simp [infoFields, methodFields])) ?_
    refine bind_read
      (optional_read boolean_returns b.isStatic rfl (by simp [infoFields, methodFields])) ?_
    refine bind_read (optional_read (listOf_returns argument_returns) b.arguments h
      (by simp [infoFields, methodFields])) ?_
    exact bind_read (whenNonempty_read text_returns b.returnTypes (all_anyFits _)
      (by simp [infoFields, methodFields])) rfl

theorem propertyBody_returns : BodyReturns anyFits propertyFields propertyBody? where
  worded b _ := by
    have htypes := worded_whenNonempty text_returns "types" (all_anyFits b.types)
    have hdefault := worded_whenSome text_returns "default" (option_all_anyFits b.default)
    simp [propertyFields, Json.isWorded, Json.fieldsWorded, htypes, hdefault]
  read i b _ := by
    rw [propertyBody?]
    refine bind_read (visibility_read b.visibility (by simp [infoFields, propertyFields])) ?_
    refine bind_read
      (optional_read boolean_returns b.isStatic rfl (by simp [infoFields, propertyFields])) ?_
    refine bind_read (whenNonempty_read text_returns b.types (all_anyFits _)
      (by simp [infoFields, propertyFields])) ?_
    exact bind_read (whenSome_read text_returns b.default text_ne_null (option_all_anyFits _)
      (by simp [infoFields, propertyFields])) rfl

theorem function_returns : Returns (Element.fits FunctionBody.fits) (element functionFields)
    (element? functionKeys functionBody?) :=
  element_returns functionKeys (by simp [infoKeys, functionFields]) functionBody_returns

theorem constant_returns : Returns (Element.fits anyFits) (element constantFields)
    (element? constantKeys constantBody?) :=
  element_returns constantKeys (by simp [infoKeys, constantFields]) constantBody_returns

theorem method_returns : Returns (Element.fits MethodBody.fits) (element methodFields)
    (element? methodKeys methodBody?) :=
  element_returns methodKeys (by simp [infoKeys, methodFields]) methodBody_returns

theorem property_returns : Returns (Element.fits anyFits) (element propertyFields)
    (element? propertyKeys propertyBody?) :=
  element_returns propertyKeys (by simp [infoKeys, propertyFields]) propertyBody_returns

theorem members_returns : Returns Members.fits members members? where
  worded m h := by
    simp only [Members.fits, Bool.and_eq_true] at h
    obtain ⟨⟨hmethods, hproperties⟩, hconstants⟩ := h
    have h1 := worded_whenEntries method_returns "methods" hmethods
    have h2 := worded_whenEntries property_returns "properties" hproperties
    have h3 := worded_whenEntries constant_returns "constants" hconstants
    simp [members, Json.isWorded, h1, h2, h3]
  read m h := by
    simp only [Members.fits, Bool.and_eq_true] at h
    obtain ⟨⟨hmethods, hproperties⟩, hconstants⟩ := h
    rw [members, members?]
    refine bind_read (record_obj _ _ _) ?_
    refine bind_read (whenEntries_read method_returns m.methods hmethods (by simp)) ?_
    refine bind_read (whenEntries_read property_returns m.properties hproperties (by simp)) ?_
    exact bind_read (whenEntries_read constant_returns m.constants hconstants (by simp)) rfl

theorem classBody_returns : BodyReturns ClassBody.fits classFields classBody? where
  worded b h := by
    simp only [ClassBody.fits, Bool.and_eq_true] at h
    obtain ⟨⟨⟨hparent, hinterfaces⟩, htraits⟩, hmembers⟩ := h
    have href := reference_returns .strict
    have h1 := worded_whenSome href "parent" hparent
    have h2 := worded_whenNonempty href "interfaces" hinterfaces
    have h3 := worded_whenNonempty href "used_traits" htraits
    have h4 := members_returns.worded b.members hmembers
    simp [classFields, Json.isWorded, Json.fieldsWorded, h1, h2, h3, h4]
  read i b h := by
    simp only [ClassBody.fits, Bool.and_eq_true] at h
    obtain ⟨⟨⟨hparent, hinterfaces⟩, htraits⟩, hmembers⟩ := h
    have href := reference_returns .strict
    rw [classBody?]
    refine bind_read (whenSome_read href b.parent reference_ne_null hparent
      (by simp [infoFields, classFields])) ?_
    refine bind_read (whenNonempty_read href b.interfaces hinterfaces
      (by simp [infoFields, classFields])) ?_
    refine bind_read (whenNonempty_read href b.usedTraits htraits
      (by simp [infoFields, classFields])) ?_
    refine bind_read
      (optional_read boolean_returns b.isAbstract rfl (by simp [infoFields, classFields])) ?_
    refine bind_read
      (optional_read boolean_returns b.isFinal rfl (by simp [infoFields, classFields])) ?_
    exact bind_read (optional_read members_returns b.members hmembers
      (by simp [infoFields, classFields])) rfl

theorem interfaceBody_returns :
    BodyReturns InterfaceBody.fits interfaceFields interfaceBody? where
  worded b h := by
    simp only [InterfaceBody.fits, Bool.and_eq_true] at h
    have h1 := worded_whenNonempty (reference_returns .strict) "parents" h.1
    have h2 := members_returns.worded b.members h.2
    simp [interfaceFields, Json.fieldsWorded, h1, h2]
  read i b h := by
    simp only [InterfaceBody.fits, Bool.and_eq_true] at h
    rw [interfaceBody?]
    refine bind_read (whenNonempty_read (reference_returns .strict) b.parents h.1
      (by simp [infoFields, interfaceFields])) ?_
    exact bind_read (optional_read members_returns b.members h.2
      (by simp [infoFields, interfaceFields])) rfl

theorem traitBody_returns : BodyReturns TraitBody.fits traitFields traitBody? where
  worded b h := by
    simp only [TraitBody.fits, Bool.and_eq_true] at h
    have h1 := worded_whenNonempty (reference_returns .strict) "used_traits" h.1
    have h2 := members_returns.worded b.members h.2
    simp [traitFields, Json.fieldsWorded, h1, h2]
  read i b h := by
    simp only [TraitBody.fits, Bool.and_eq_true] at h
    rw [traitBody?]
    refine bind_read (whenNonempty_read (reference_returns .strict) b.usedTraits h.1
      (by simp [infoFields, traitFields])) ?_
    exact bind_read (optional_read members_returns b.members h.2
      (by simp [infoFields, traitFields])) rfl

theorem class_returns : Returns (Element.fits ClassBody.fits) (element classFields)
    (element? classKeys classBody?) :=
  element_returns classKeys (by simp [infoKeys, classFields]) classBody_returns

theorem interface_returns : Returns (Element.fits InterfaceBody.fits) (element interfaceFields)
    (element? interfaceKeys interfaceBody?) :=
  element_returns interfaceKeys (by simp [infoKeys, interfaceFields]) interfaceBody_returns

theorem trait_returns : Returns (Element.fits TraitBody.fits) (element traitFields)
    (element? traitKeys traitBody?) :=
  element_returns traitKeys (by simp [infoKeys, traitFields]) traitBody_returns

/-! ### Files and manifests -/

theorem marker_returns : Returns (fun m => isWord m.line) marker marker? where
  worded m h := by
    have hline := word_returns.worded m.line h
    simp [marker, Json.isWorded, Json.fieldsWorded, hline]
  read m h := by
    rw [marker, marker?]
    refine bind_read (record_obj _ _ _) ?_
    refine bind_read (required_read text_returns m.keyword rfl (by simp)) ?_
    refine bind_read (required_read text_returns m.message rfl (by simp)) ?_
    exact bind_read (required_read word_returns m.line h (by simp)) rfl

theorem sourceProblem_returns : Returns (fun p => isWord p.line) sourceProblem sourceProblem? where
  worded p h := by
    have hline := word_returns.worded p.line h
    simp [sourceProblem, Json.isWorded, Json.fieldsWorded, hline]
  read p h := by
    rw [sourceProblem, sourceProblem?]
    refine bind_read (record_obj _ _ _) ?_
    refine bind_read (required_read word_returns p.line h (by simp)) ?_
    exact bind_read (required_read text_returns p.message rfl (by simp)) rfl

theorem worded_file {f : File} (h : f.fits = true) : (file f).isWorded = true := by
  simp only [File.fits, Bool.and_eq_true] at h
  obtain ⟨⟨⟨⟨⟨⟨⟨htags, hclasses⟩, hinterfaces⟩, htraits⟩, hfunctions⟩, hconstants⟩, hmarkers⟩,
    hproblems⟩ := h
  have h1 := (tags_returns .strict).worded f.tags htags
  have h2 := worded_whenSome text_returns "package" (option_all_anyFits f.package)
  have h3 := (mapOf_returns fqsen?_returns).worded f.aliases (all_anyFits f.aliases.values)
  have h4 := worded_whenNonempty text_returns "includes" (all_anyFits f.includes)
  have h5 := (mapOf_returns class_returns).worded f.classes hclasses
  have h6 := (mapOf_returns interface_returns).worded f.interfaces hinterfaces
  have h7 := (mapOf_returns trait_returns).worded f.traits htraits
  have h8 := (mapOf_returns function_returns).worded f.functions hfunctions
  have h9 := (mapOf_returns constant_returns).worded f.constants hconstants
  have h10 := (listOf_returns marker_returns).worded f.markers hmarkers
  have h11 := (listOf_returns sourceProblem_returns).worded f.problems hproblems
  have h12 := worded_whenSome text_returns "source" (option_all_anyFits f.source)
  simp [file, Json.isWorded, Json.fieldsWorded, h1, h2, h3, h4, h5, h6, h7, h8, h9, h10, h11, h12]

/-- A file that fits is read again from the value it is written as. -/
theorem file_read {f : File} (h : f.fits = true) : file? (file f) = some f := by
  simp only [File.fits, Bool.and_eq_true] at h
  obtain ⟨⟨⟨⟨⟨⟨⟨htags, hclasses⟩, hinterfaces⟩, htraits⟩, hfunctions⟩, hconstants⟩, hmarkers⟩,
    hproblems⟩ := h
  rw [file, file?]
  refine bind_read (record_obj _ _ _) ?_
  refine bind_read (required_read text_returns f.path rfl (by simp)) ?_
  refine bind_read (required_read text_returns f.hash rfl (by simp)) ?_
  refine bind_read (optional_read text_returns f.summary rfl (by simp)) ?_
  refine bind_read (optional_read text_returns f.description rfl (by simp)) ?_
  refine bind_read (optional_read (tags_returns .strict) f.tags htags (by simp)) ?_
  refine bind_read
    (whenSome_read text_returns f.package text_ne_null (option_all_anyFits _) (by simp)) ?_
  refine bind_read
    (optional_read (mapOf_returns fqsen?_returns) f.aliases (all_anyFits _) (by simp)) ?_
  refine bind_read (whenNonempty_read text_returns f.includes (all_anyFits _) (by simp)) ?_
  refine bind_read (optional_read (mapOf_returns class_returns) f.classes hclasses (by simp)) ?_
  refine bind_read
    (optional_read (mapOf_returns interface_returns) f.interfaces hinterfaces (by simp)) ?_
  refine bind_read (optional_read (mapOf_returns trait_returns) f.traits htraits (by simp)) ?_
  refine bind_read
    (optional_read (mapOf_returns function_returns) f.functions hfunctions (by simp)) ?_
  refine bind_read
    (optional_read (mapOf_returns constant_returns) f.constants hconstants (by simp)) ?_
  refine bind_read (optional_read (listOf_returns marker_returns) f.markers hmarkers (by simp)) ?_
  refine bind_read
    (optional_read (listOf_returns sourceProblem_returns) f.problems hproblems (by simp)) ?_
  exact bind_read
    (whenSome_read text_returns f.source text_ne_null (option_all_anyFits _) (by simp)) rfl

theorem file_returns : Returns File.fits file file? :=
  ⟨fun _ h => worded_file h, fun _ h => file_read h⟩

/-- The sets of a manifest hold texts only. -/
theorem sets_returns : Returns anyFits (ofMap (ofMap .str)) (mapOf (mapOf text)) :=
  have hmaps := mapOf_returns (mapOf_returns text_returns)
  have hall : ∀ m : NameMap (NameMap String),
      (m.values.all fun paths => paths.values.all anyFits) = true := by simp
  ⟨fun m _ => hmaps.worded m (hall m), fun m _ => hmaps.read m (hall m)⟩

theorem manifest_returns : Returns Manifest.fits manifest manifest? where
  worded m h := by
    have h1 := word_returns.worded m.schema h
    have h2 := sets_returns.worded m.sets rfl
    simp [manifest, Json.isWorded, Json.fieldsWorded, h1, h2]
  read m h := by
    rw [manifest, manifest?]
    refine bind_read (record_obj _ _ _) ?_
    refine bind_read (required_read word_returns m.schema h (by simp)) ?_
    refine bind_read (required_read text_returns m.writtenAt rfl (by simp)) ?_
    exact bind_read (optional_read sets_returns m.sets rfl (by simp)) rfl

/-! ### Trees, tables of contents and documents -/

theorem numberOrNull_read {fields : List (String × Json)} {key : String} (n : Option Nat)
    (h : n.all isWord = true) (hf : Json.fieldsNamed key fields = [numberOrNull n]) :
    optional fields key none (orNull word) = some n := by
  rw [optional, hf]
  cases n with
  | none => rfl
  | some n =>
    simp only [numberOrNull]
    rw [orNull, word_returns.read n h, Option.map_some]
    simp [Json.nat]

theorem worded_numberOrNull {n : Option Nat} (h : n.all isWord = true) :
    (numberOrNull n).isWorded = true := by
  cases n with
  | none => rfl
  | some n => exact word_returns.worded n h

theorem node_returns : Returns Node.fits node node? where
  worded n h := by
    simp only [Node.fits, Bool.and_eq_true] at h
    obtain ⟨⟨⟨⟨⟨⟨⟨⟨hid, hparent⟩, hchildren⟩, hclasses⟩, hinterfaces⟩, htraits⟩, hfunctions⟩,
      hconstants⟩, hfiles⟩ := h
    have href := mapOf_returns (elementRef_returns .strict)
    have h1 := word_returns.worded n.id hid
    have h2 := worded_numberOrNull hparent
    have h3 := (mapOf_returns word_returns).worded n.children hchildren
    have h4 := href.worded n.classes hclasses
    have h5 := href.worded n.interfaces hinterfaces
    have h6 := href.worded n.traits htraits
    have h7 := href.worded n.functions hfunctions
    have h8 := href.worded n.constants hconstants
    have h9 := (mapOf_returns word_returns).worded n.files hfiles
    simp [node, Json.isWorded, Json.fieldsWorded, h1, h2, h3, h4, h5, h6, h7, h8, h9]
  read n h := by
    simp only [Node.fits, Bool.and_eq_true] at h
    obtain ⟨⟨⟨⟨⟨⟨⟨⟨hid, hparent⟩, hchildren⟩, hclasses⟩, hinterfaces⟩, htraits⟩, hfunctions⟩,
      hconstants⟩, hfiles⟩ := h
    have href := mapOf_returns (elementRef_returns .strict)
    rw [node, node?]
    refine bind_read (record_obj _ _ _) ?_
    refine bind_read (required_read word_returns n.id hid (by simp)) ?_
    refine bind_read (required_read text_returns n.name rfl (by simp)) ?_
    refine bind_read (required_read fqsen?_returns n.fullName rfl (by simp)) ?_
    refine bind_read (numberOrNull_read n.parent hparent (by simp)) ?_
    refine bind_read (required_read (mapOf_returns word_returns) n.children hchildren (by simp)) ?_
    refine bind_read (required_read href n.classes hclasses (by simp)) ?_
    refine bind_read (required_read href n.interfaces hinterfaces (by simp)) ?_
    refine bind_read (required_read href n.traits htraits (by simp)) ?_
    refine bind_read (required_read href n.functions hfunctions (by simp)) ?_
    refine bind_read (required_read href n.constants hconstants (by simp)) ?_
    exact bind_read (required_read (mapOf_returns word_returns) n.files hfiles (by simp)) rfl

theorem taxonomy_returns : Returns Taxonomy.fits taxonomy taxonomy? where
  worded t h := by
    have hnodes := (listOf_returns node_returns).worded t.nodes h
    simp [taxonomy, Json.isWorded, Json.fieldsWorded, hnodes]
  read t h := by
    have hkind := wordOf_returns .strict TaxonomyKind.ofName?_name
    rw [taxonomy, taxonomy?]
    refine bind_read (record_obj _ _ _) ?_
    refine bind_read (required_read hkind t.kind rfl (by simp)) ?_
    exact bind_read (required_read (listOf_returns node_returns) t.nodes h (by simp)) rfl

theorem tocEntry_returns : Returns anyFits tocEntry tocEntry? where
  worded e _ := by
    have h1 := worded_whenSome text_returns "parent" (option_all_anyFits e.parent)
    have h2 := texts_returns.worded e.children rfl
    simp [tocEntry, Json.isWorded, Json.fieldsWorded, h1, h2]
  read e _ := by
    rw [tocEntry, tocEntry?]
    refine bind_read (record_obj _ _ _) ?_
    refine bind_read (required_read text_returns e.url rfl (by simp)) ?_
    refine bind_read (required_read text_returns e.title rfl (by simp)) ?_
    refine bind_read
      (whenSome_read text_returns e.parent text_ne_null (option_all_anyFits _) (by simp)) ?_
    exact bind_read (optional_read texts_returns e.children rfl (by simp)) rfl

theorem toc_returns : Returns anyFits toc toc? where
  worded t _ := by
    have hentries := (listOf_returns tocEntry_returns).worded t.entries (all_anyFits _)
    simp [toc, Json.isWorded, Json.fieldsWorded, hentries]
  read t _ := by
    rw [toc, toc?]
    refine bind_read (record_obj _ _ _) ?_
    refine bind_read (required_read text_returns t.name rfl (by simp)) ?_
    exact bind_read
      (required_read (listOf_returns tocEntry_returns) t.entries (all_anyFits _) (by simp)) rfl

theorem document_returns : Returns anyFits document document? where
  worded d _ := by
    have hlisted := texts_returns.worded d.listed rfl
    simp [document, Json.isWorded, Json.fieldsWorded, hlisted]
  read d _ := by
    rw [document, document?]
    refine bind_read (record_obj _ _ _) ?_
    refine bind_read (required_read text_returns d.path rfl (by simp)) ?_
    refine bind_read (required_read text_returns d.title rfl (by simp)) ?_
    exact bind_read (optional_read texts_returns d.listed rfl (by simp)) rfl

theorem shallow_node : Shallow 3 node := by
  have hnumbers : Shallow 2 (ofMap Json.nat) :=
    Shallow.ofMap (show Shallow 1 Json.nat from fun _ => rfl)
  have hrefs := shallow_elementRef.ofMap
  intro n
  have hparent : isShallow 2 (numberOrNull n.parent) = true := by cases n.parent <;> rfl
  exact isShallow_obj (by
    simp [Json.fieldsShallow, isShallow, Json.nat, hparent, hnumbers n.children, hrefs n.classes,
      hrefs n.interfaces, hrefs n.traits, hrefs n.functions, hrefs n.constants,
      hnumbers n.files])

theorem shallow_taxonomy : Shallow 5 taxonomy := by
  intro t
  exact isShallow_obj (by
    simp [Json.fieldsShallow, isShallow, shallow_node.ofList t.nodes])

theorem shallow_tocEntry : Shallow 2 tocEntry := by
  intro e
  exact isShallow_obj (by
    simp [Json.fieldsShallow, isShallow, fieldsShallow_whenSome (shallow_str 1),
      shallow_texts e.children])

theorem shallow_toc : Shallow 4 toc := by
  intro t
  exact isShallow_obj (by
    simp [Json.fieldsShallow, isShallow, shallow_tocEntry.ofList t.entries])

theorem shallow_document : Shallow 2 document := by
  intro d
  exact isShallow_obj (by simp [Json.fieldsShallow, isShallow, shallow_texts d.listed])

/-! ### Values and their texts -/

/-- Everything that fits comes back from the value it is written as and from both texts of it. -/
def Lossless (fits : α → Bool) (encode : α → Json) (decode : Decoder α) : Prop :=
  ∀ a, fits a = true → decode (encode a) = some a ∧
    (Json.skim? (encode a).compact).bind decode = some a ∧
    (Json.skim? (encode a).pretty).bind decode = some a

/-- What is nested within the limit of the parser comes back from its texts as well. -/
theorem Returns.lossless {fits : α → Bool} {encode : α → Json} {decode : Decoder α} {depth : Nat}
    (h : Returns fits encode decode) (hshallow : Shallow depth encode)
    (hdepth : depth ≤ Json.depthLimit) : Lossless fits encode decode := by
  intro a ha
  have hlimit := hshallow.mono hdepth a
  have hreread := Json.reread_of_isWorded _ (h.worded a ha)
  have hread := h.read a ha
  refine ⟨hread, ?_, ?_⟩
  · rw [Json.skim?_compact hlimit, hreread, Option.bind_some, hread]
  · rw [Json.skim?_pretty hlimit, hreread, Option.bind_some, hread]

theorem file_lossless : Lossless File.fits file file? :=
  file_returns.lossless shallow_file (by decide)

theorem manifest_lossless : Lossless Manifest.fits manifest manifest? :=
  manifest_returns.lossless shallow_manifest (by decide)

/-- A file with tags of all shapes, references to all kinds of parts and a class with members. -/
def sampleFile : File :=
  let see (name : String) (target : Target) : Tag :=
    { name := "see", body := .reference ⟨name, some target⟩ }
  let tags : List Tag :=
    [{ name := "api" }, { name := "throws", body := .typed ["\\E"] },
      { name := "param", description := "Much.", body := .typedVariable ["int"] "$n" },
      { name := "method", body := .magicMethod "get" ["int"] ["$n"] true },
      see "\\A" (.element ⟨7, .class, ⟨"\\A"⟩⟩), see "a.php" (.file 7), see "\\N" (.spaceNode 1),
      see "P" (.packageNode 2), { name := "see", body := .reference ⟨"\\B", none⟩ }]
  let argument : Argument := { name := "$n", line := 12, types := ["int"], default := some "1" }
  let method : Element MethodBody :=
    ⟨.ofFqsen ⟨"\\A::m()"⟩ 12, { visibility := .private, arguments := [argument] }⟩
  let body : ClassBody := { parent := some ⟨"\\B", none⟩, members := ({} : Members).addMethod method }
  let info : Info := { Info.ofFqsen ⟨"\\A"⟩ 4294967295 with tags := tags.foldl Tags.push .empty }
  { ({ path := "a.php", hash := "" } : File).addClass ⟨info, body⟩ with
    markers := [⟨"TODO", "all", 3⟩], problems := [⟨4, "odd"⟩], source := some "<?php" }

/-- Every source file, tree, table of contents, document and manifest whose numbers fit in 32 bits
comes back as it was written. -/
theorem records_lossless :
    Lossless File.fits file file? ∧ Lossless Taxonomy.fits taxonomy taxonomy? ∧
      Lossless anyFits toc toc? ∧ Lossless anyFits document document? ∧
      Lossless Manifest.fits manifest manifest? :=
  ⟨file_lossless, taxonomy_returns.lossless shallow_taxonomy (by decide),
    toc_returns.lossless shallow_toc (by decide),
    document_returns.lossless shallow_document (by decide), manifest_lossless⟩

theorem records_lossless_sample :
    sampleFile.fits = true ∧ file? (file sampleFile) = some sampleFile ∧
      (Json.skim? (file sampleFile).compact).bind file? = some sampleFile :=
  have hfits : sampleFile.fits = true := by decide +kernel
  have h := records_lossless.1 sampleFile hfits
  ⟨hfits, h.1, h.2.1⟩

end Codec

end ApiDoc
