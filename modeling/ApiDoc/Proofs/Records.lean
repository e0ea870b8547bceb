import ApiDoc.Cache.Manifest
import ApiDoc.Codec.Element
import ApiDoc.Proofs.JsonText
import Mathlib.Data.Option.Basic

/-!
# Records come back as they were written

For every kind of record that is stored, whatever its reader makes of the text of a written record
is that record. A reader may refuse what was written, because a number in it does not fit in 32
bits, but it never gives anything else.
-/

namespace ApiDoc

open Json (reread rereadFields rereadItems isShallow)

/-! ### Maps from their entries -/

namespace NameMap

variable {α : Type}

/-- An entry whose key is behind all others comes last. -/
theorem insertIn_of_lt (key : String) (value : α) {entries : List (String × α)}
    (h : ∀ e ∈ entries, e.1 < key) : insertIn key value entries = entries ++ [(key, value)] := by
  induction entries with
  | nil => rfl
  | cons head rest ih =>
    have hlt := h head List.mem_cons_self
    have hnot : ¬ key < head.1 := fun hk => String.lt_irrefl key (String.lt_trans hk hlt)
    have hne : head.1 ≠ key := by
      intro he
      rw [he] at hlt
      exact String.lt_irrefl key hlt
    rw [insertIn, if_neg hnot, if_neg hne, ih fun e he => h e (.tail _ he)]
    rfl

theorem entries_foldl_insert (m : NameMap α) {rest : List (String × α)}
    (h : InKeyOrder (m.entries ++ rest)) :
    (rest.foldl (fun m e => m.insert e.1 e.2) m).entries = m.entries ++ rest := by
  induction rest generalizing m with
  | nil => simp
  | cons e rest ih =>
    have hins : (m.insert e.1 e.2).entries = m.entries ++ [e] :=
      insertIn_of_lt e.1 e.2 fun d hd => (List.pairwise_append.mp h).2.2 d hd e List.mem_cons_self
    have hsorted : InKeyOrder ((m.insert e.1 e.2).entries ++ rest) := by
      rw [hins, List.append_assoc]
      exact h
    rw [List.foldl_cons, ih _ hsorted, hins, List.append_assoc]
    rfl

/-- A map is the map of its entries. -/
theorem ofList_entries (m : NameMap α) : ofList m.entries = m := by
  have hsorted : InKeyOrder ((empty : NameMap α).entries ++ m.entries) := m.sorted
  exact ext (entries_foldl_insert empty hsorted)

end NameMap

/-! ### Fields -/

namespace Json

theorem rereadItems_eq_map (items : List Json) : rereadItems items = items.map reread := by
  induction items with
  | nil => rfl
  | cons item rest ih => rw [rereadItems, ih, List.map_cons]

theorem rereadFields_eq_map (fields : List (String × Json)) :
    rereadFields fields = fields.map fun f => (f.1, f.2.reread) := by
  induction fields with
  | nil => rfl
  | cons f rest ih => rw [rereadFields, ih, List.map_cons]

theorem itemsShallow_eq_all (depth : Nat) (items : List Json) :
    itemsShallow depth items = items.all (isShallow depth) := by
  induction items with
  | nil => rfl
  | cons item rest ih => rw [itemsShallow, ih, List.all_cons]

theorem fieldsShallow_eq_all (depth : Nat) (fields : List (String × Json)) :
    fieldsShallow depth fields = fields.all fun f => isShallow depth f.2 := by
  induction fields with
  | nil => rfl
  | cons f rest ih => rw [fieldsShallow, ih, List.all_cons]

theorem fieldsNamed_rereadFields (key : String) (fields : List (String × Json)) :
    fieldsNamed key (rereadFields fields) = (fieldsNamed key fields).map reread := by
  induction fields with
  | nil => rfl
  | cons f rest ih =>
    obtain ⟨k, v⟩ := f
    simp only [fieldsNamed] at ih
    by_cases h : k = key <;> simp [fieldsNamed, rereadFields, h, ih]

@[simp] theorem fieldsNamed_nil (key : String) : fieldsNamed key [] = [] := rfl

@[simp] theorem fieldsNamed_cons (key k : String) (v : Json) (fields : List (String × Json)) :
    fieldsNamed key ((k, v) :: fields) =
      if k = key then v :: fieldsNamed key fields else fieldsNamed key fields := by
  by_cases h : k = key <;> simp [fieldsNamed, h]

@[simp] theorem fieldsNamed_append (key : String) (a b : List (String × Json)) :
    fieldsNamed key (a ++ b) = fieldsNamed key a ++ fieldsNamed key b :=
  List.filterMap_append

mutual

theorem isShallow_mono {small large : Nat} (hle : small ≤ large) :
    ∀ j : Json, isShallow small j = true → isShallow large j = true
  | .arr items, h => by
    simp only [isShallow, Bool.and_eq_true, decide_eq_true_eq] at h ⊢
    exact ⟨by omega, itemsShallow_mono (by omega) items h.2⟩
  | .obj fields, h => by
    simp only [isShallow, Bool.and_eq_true, decide_eq_true_eq] at h ⊢
    exact ⟨by omega, fieldsShallow_mono (by omega) fields h.2⟩
  | .null, h => h
  | .bool _, h => h
  | .int _, h => h
  | .real _, h => h
  | .str _, h => h
  | .flawed, h => h

theorem itemsShallow_mono {small large : Nat} (hle : small ≤ large) :
    ∀ items : List Json, itemsShallow small items = true → itemsShallow large items = true
  | [], _ => rfl
  | item :: rest, h => by
    simp only [itemsShallow, Bool.and_eq_true] at h ⊢
    exact ⟨isShallow_mono hle item h.1, itemsShallow_mono hle rest h.2⟩

theorem fieldsShallow_mono {small large : Nat} (hle : small ≤ large) :
    ∀ fields : List (String × Json),
      fieldsShallow small fields = true → fieldsShallow large fields = true
  | [], _ => rfl
  | (_, value) :: rest, h => by
    simp only [fieldsShallow, Bool.and_eq_true] at h ⊢
    exact ⟨isShallow_mono hle value h.1, fieldsShallow_mono hle rest h.2⟩

end

end Json

namespace Codec

variable {α : Type}

/-! ### What it means to come back -/

/-- Whatever the reader makes of something written is what was written. -/
def Recovers (encode : α → Json) (decode : Decoder α) : Prop :=
  ∀ a b, decode (encode a).reread = some b → b = a

theorem text_recovers : Recovers .str text := by
  intro a b h
  simpa [reread, text, eq_comm] using h

theorem boolean_recovers : Recovers .bool boolean := by
  intro a b h
  simpa [reread, boolean, eq_comm] using h

theorem word_recovers : Recovers .nat word := by
  intro n m h
  rw [Json.nat, reread] at h
  cases hr : Json.rereadInt n with
  | int k =>
    have hk := Json.eq_of_rereadInt hr
    rw [hr, word] at h
    split at h
    · simp only [Option.some.injEq] at h
      omega
    · simp at h
  | _ => simp [hr, word] at h

theorem fqsen?_recovers : Recovers (fun f : Fqsen => .str f.text) fqsen? := by
  intro a b h
  obtain ⟨s, hs, rfl⟩ := Option.map_eq_some_iff.mp h
  rw [text_recovers a.text s hs]

theorem wordOf_recovers (c : Closeness) {name : α → String} {ofName? : String → Option α}
    (h : ∀ a, ofName? (name a) = some a) :
    Recovers (fun a => .str (name a)) (wordOf c ofName?) := by
  intro a b hb
  simpa [reread, wordOf, h, eq_comm] using hb

theorem mapM_recovers {β γ : Type} {encode : β → γ} {decode : γ → Option β}
    (h : ∀ a b, decode (encode a) = some b → b = a) {items read : List β}
    (hread : (items.map encode).mapM decode = some read) : read = items := by
  induction items generalizing read with
  | nil => simpa [eq_comm] using hread
  | cons item rest ih =>
    simp only [List.map_cons, List.mapM_cons, Option.bind_eq_bind, Option.bind_eq_some_iff,
      Option.pure_def, Option.some.injEq] at hread
    obtain ⟨b, hb, others, hothers, rfl⟩ := hread
    rw [h item b hb, ih hothers]

theorem listOf_recovers {encode : α → Json} {decode : Decoder α} (h : Recovers encode decode) :
    Recovers (ofList encode) (listOf decode) := by
  intro items read hread
  rw [ofList, reread, Json.rereadItems_eq_map, listOf, List.map_map] at hread
  exact mapM_recovers h hread

theorem texts_recovers : Recovers .texts (listOf text) := listOf_recovers text_recovers

theorem mapOf_recovers {encode : α → Json} {decode : Decoder α} (h : Recovers encode decode) :
    Recovers (ofMap encode) (mapOf decode) := by
  intro m read hread
  rw [ofMap, reread, Json.rereadFields_eq_map, mapOf, List.map_map] at hread
  obtain ⟨entries, hentries, rfl⟩ := Option.map_eq_some_iff.mp hread
  rw [mapM_recovers ?_ hentries, NameMap.ofList_entries]
  intro e d hd
  obtain ⟨v, hv, rfl⟩ := Option.map_eq_some_iff.mp hd
  rw [h e.2 v hv]
  rfl

/-! ### Fields that come back -/

theorem required_recovers {encode : α → Json} {decode : Decoder α} (h : Recovers encode decode)
    {fields : List (String × Json)} {key : String} {a b : α}
    (hf : Json.fieldsNamed key fields = [encode a])
    (hb : required (rereadFields fields) key decode = some b) : b = a := by
  rw [required, Json.fieldsNamed_rereadFields, hf] at hb
  exact h a b hb

theorem optional_recovers {encode : α → Json} {decode : Decoder α} (h : Recovers encode decode)
    {fields : List (String × Json)} {key : String} {default a b : α}
    (hf : Json.fieldsNamed key fields = [encode a])
    (hb : optional (rereadFields fields) key default decode = some b) : b = a := by
  rw [optional, Json.fieldsNamed_rereadFields, hf] at hb
  exact h a b hb

theorem whenSome_recovers {encode : α → Json} {decode : Decoder α} (h : Recovers encode decode)
    (hnull : ∀ a, (encode a).reread ≠ .null) {fields : List (String × Json)} {key : String}
    {a b : Option α} (hf : Json.fieldsNamed key fields = (a.map encode).toList)
    (hb : optional (rereadFields fields) key none (orNull decode) = some b) : b = a := by
  rw [optional, Json.fieldsNamed_rereadFields, hf] at hb
  cases a with
  | none => simpa [eq_comm] using hb
  | some a =>
    simp only [Option.map_some, Option.toList_some, List.map_cons, List.map_nil] at hb
    rw [orNull] at hb
    · obtain ⟨v, hv, rfl⟩ := Option.map_eq_some_iff.mp hb
      rw [h a v hv]
    · exact hnull a

theorem whenNonempty_recovers {encode : α → Json} {decode : Decoder α}
    (h : Recovers encode decode) {fields : List (String × Json)} {key : String} {a b : List α}
    (hf : Json.fieldsNamed key fields = if a.isEmpty then [] else [ofList encode a])
    (hb : optional (rereadFields fields) key [] (listOf decode) = some b) : b = a := by
  cases a with
  | nil =>
    rw [optional, Json.fieldsNamed_rereadFields, hf] at hb
    simpa [eq_comm] using hb
  | cons item rest => exact optional_recovers (listOf_recovers h) hf hb

theorem whenEntries_recovers {encode : α → Json} {decode : Decoder α}
    (h : Recovers encode decode) {fields : List (String × Json)} {key : String} {a b : NameMap α}
    (hf : Json.fieldsNamed key fields = if a.isEmpty then [] else [ofMap encode a])
    (hb : optional (rereadFields fields) key .empty (mapOf decode) = some b) : b = a := by
  by_cases he : a.isEmpty = true
  · rw [optional, Json.fieldsNamed_rereadFields, hf, if_pos he] at hb
    have hempty : a = .empty := NameMap.ext (List.isEmpty_iff.mp he)
    rw [hempty]
    simpa [eq_comm] using hb
  · rw [if_neg he] at hf
    exact optional_recovers (mapOf_recovers h) hf hb

@[simp] theorem fieldsNamed_whenSome (key k : String) (encode : α → Json) (a : Option α) :
    Json.fieldsNamed key (whenSome k encode a) = if k = key then (a.map encode).toList else [] := by
  cases a <;> simp [whenSome]

@[simp] theorem fieldsNamed_whenNonempty (key k : String) (encode : α → Json) (a : List α) :
    Json.fieldsNamed key (whenNonempty k encode a) =
      if k = key then if a.isEmpty then [] else [ofList encode a] else [] := by
  by_cases h : a.isEmpty = true <;> simp [whenNonempty, h]

@[simp] theorem fieldsNamed_whenEntries (key k : String) (encode : α → Json) (a : NameMap α) :
    Json.fieldsNamed key (whenEntries k encode a) =
      if k = key then if a.isEmpty then [] else [ofMap encode a] else [] := by
  by_cases h : a.isEmpty = true <;> simp [whenEntries, h]

/-! ### References and tags -/

theorem elementRef_recovers (c : Closeness) : Recovers elementRef (elementRef? c) := by
  intro r b h
  simp only [elementRef, elementRef?, reread, record, Option.bind_eq_bind, Option.bind_some,
    Option.bind_eq_some_iff, Option.pure_def, Option.some.injEq] at h
  obtain ⟨file, hfile, kind, hkind, fqsen, hfqsen, rfl⟩ := h
  have e1 : file = r.file := required_recovers word_recovers (by simp) hfile
  have e2 : kind = r.kind :=
    required_recovers (wordOf_recovers c ElementKind.ofName?_name) (by simp) hkind
  have e3 : fqsen = r.fqsen := required_recovers fqsen?_recovers (by simp) hfqsen
  rw [e1, e2, e3]

theorem target_recovers (c : Closeness) : Recovers target (target? c) := by
  intro t b h
  cases t with
  | file id =>
    simp only [target, reread, rereadFields, target?] at h
    obtain ⟨n, hn, rfl⟩ := Option.map_eq_some_iff.mp h
    rw [word_recovers id n hn]
  | element r =>
    simp only [target, reread, rereadFields, target?] at h
    obtain ⟨n, hn, rfl⟩ := Option.map_eq_some_iff.mp h
    rw [elementRef_recovers c r n hn]
  | spaceNode id =>
    simp only [target, reread, rereadFields, target?] at h
    obtain ⟨n, hn, rfl⟩ := Option.map_eq_some_iff.mp h
    rw [word_recovers id n hn]
  | packageNode id =>
    simp only [target, reread, rereadFields, target?] at h
    obtain ⟨n, hn, rfl⟩ := Option.map_eq_some_iff.mp h
    rw [word_recovers id n hn]

theorem target_reread_ne_null (t : Target) : (target t).reread ≠ .null := by
  cases t <;> simp [target, reread]

theorem reference_recovers (c : Closeness) : Recovers reference (reference? c) := by
  intro r b h
  simp only [reference, reference?, reread, record, Option.bind_eq_bind, Option.bind_some,
    Option.bind_eq_some_iff, Option.pure_def, Option.some.injEq] at h
  obtain ⟨goal, hgoal, resolved, hresolved, rfl⟩ := h
  have e1 : goal = r.target := required_recovers text_recovers (by simp) hgoal
  have e2 : resolved = r.resolved :=
    whenSome_recovers (target_recovers c) target_reread_ne_null (by simp) hresolved
  rw [e1, e2]

theorem reference_reread_ne_null (r : Reference) : (reference r).reread ≠ .null := by
  simp [reference, reread]

theorem tagBody_recovers (c : Closeness) : Recovers tagBody (tagBody? c) := by
  intro body b h
  simp only [tagBody?, Option.bind_eq_bind, Option.bind_eq_some_iff] at h
  obtain ⟨-, -, ⟨shape, fs⟩, hshape, h⟩ := h
  cases body with
  | plain =>
    simp [tagBody, reread, rereadFields, tagBodyFields?, required, tagShape?] at hshape
    obtain ⟨rfl, rfl⟩ := hshape
    simpa [eq_comm] using h
  | typed types =>
    simp [tagBody, reread, tagBodyFields?, required, tagShape?,
      Json.fieldsNamed_rereadFields] at hshape
    obtain ⟨rfl, rfl⟩ := hshape
    simp only [Option.bind_eq_some_iff, Option.pure_def, Option.some.injEq] at h
    obtain ⟨found, hfound, rfl⟩ := h
    have e1 : found = types := required_recovers texts_recovers (by simp) hfound
    rw [e1]
  | typedVariable types name =>
    simp [tagBody, reread, tagBodyFields?, required, tagShape?,
      Json.fieldsNamed_rereadFields] at hshape
    obtain ⟨rfl, rfl⟩ := hshape
    simp only [Option.bind_eq_some_iff, Option.pure_def, Option.some.injEq] at h
    obtain ⟨found, hfound, other, hother, rfl⟩ := h
    have e1 : found = types := required_recovers texts_recovers (by simp) hfound
    have e2 : other = name := required_recovers text_recovers (by simp) hother
    rw [e1, e2]
  | reference r =>
    simp [tagBody, reread, tagBodyFields?, required, tagShape?,
      Json.fieldsNamed_rereadFields] at hshape
    obtain ⟨rfl, rfl⟩ := hshape
    simp only [Option.bind_eq_some_iff, Option.pure_def, Option.some.injEq] at h
    obtain ⟨found, hfound, rfl⟩ := h
    have e1 : found = r := required_recovers (reference_recovers .loose) (by simp) hfound
    rw [e1]
  | magicMethod name returnTypes arguments isStatic =>
    simp [tagBody, reread, tagBodyFields?, required, tagShape?,
      Json.fieldsNamed_rereadFields] at hshape
    obtain ⟨rfl, rfl⟩ := hshape
    simp only [Option.bind_eq_some_iff, Option.pure_def, Option.some.injEq] at h
    obtain ⟨n, hn, r, hr, a, ha, s, hs, rfl⟩ := h
    have e1 : n = name := required_recovers text_recovers (by simp) hn
    have e2 : r = returnTypes := required_recovers texts_recovers (by simp) hr
    have e3 : a = arguments := required_recovers texts_recovers (by simp) ha
    have e4 : s = isStatic := required_recovers boolean_recovers (by simp) hs
    rw [e1, e2, e3, e4]

theorem tag_recovers (c : Closeness) : Recovers tag (tag? c) := by
  intro t b h
  simp only [tag, tag?, reread, record, Option.bind_eq_bind, Option.bind_some,
    Option.bind_eq_some_iff, Option.pure_def, Option.some.injEq] at h
  obtain ⟨name, hname, description, hdescription, body, hbody, rfl⟩ := h
  have e1 : name = t.name := required_recovers text_recovers (by simp) hname
  have e2 : description = t.description := optional_recovers text_recovers (by simp) hdescription
  have e3 : body = t.body := required_recovers (tagBody_recovers c) (by simp) hbody
  rw [e1, e2, e3]

theorem tags_recovers (c : Closeness) : Recovers tags (tags? c) := by
  intro ts b h
  obtain ⟨m, hm, rfl⟩ := Option.map_eq_some_iff.mp h
  rw [mapOf_recovers (listOf_recovers (tag_recovers c)) ts.byName m hm]

/-! ### Elements -/

theorem text_reread_ne_null (s : String) : (Json.str s).reread ≠ .null := by
  simp [reread]

def infoKeys : List String :=
  ["fqsen", "name", "line", "summary", "description", "tags", "package"]

/-- The documentation of an element comes back from among fields with other keys. -/
theorem info_recovers {i b : Info} {others : List (String × Json)}
    (hothers : ∀ key ∈ infoKeys, Json.fieldsNamed key others = [])
    (h : info? (rereadFields (infoFields i ++ others)) = some b) : b = i := by
  simp only [infoKeys, List.mem_cons, List.not_mem_nil, or_false, forall_eq_or_imp,
    forall_eq] at hothers
  obtain ⟨o1, o2, o3, o4, o5, o6, o7⟩ := hothers
  simp only [info?, Option.bind_eq_bind, Option.bind_eq_some_iff, Option.pure_def,
    Option.some.injEq] at h
  obtain ⟨fqsen, h1, name, h2, line, h3, summary, h4, description, h5, tags, h6, package, h7,
    rfl⟩ := h
  have e1 : fqsen = i.fqsen := required_recovers fqsen?_recovers (by simp [infoFields, o1]) h1
  have e2 : name = i.name := required_recovers text_recovers (by simp [infoFields, o2]) h2
  have e3 : line = i.line := required_recovers word_recovers (by simp [infoFields, o3]) h3
  have e4 : summary = i.summary := optional_recovers text_recovers (by simp [infoFields, o4]) h4
  have e5 : description = i.description :=
    optional_recovers text_recovers (by simp [infoFields, o5]) h5
  have e6 : tags = i.tags := optional_recovers (tags_recovers .loose) (by simp [infoFields, o6]) h6
  have e7 : package = i.package :=
    whenSome_recovers text_recovers text_reread_ne_null (by simp [infoFields, o7]) h7
  rw [e1, e2, e3, e4, e5, e6, e7]

/-- The body of an element comes back from behind its documentation. -/
def BodyRecovers (encode : α → List (String × Json)) (decode : List (String × Json) → Option α) :
    Prop :=
  ∀ (i : Info) (a b : α), decode (rereadFields (infoFields i ++ encode a)) = some b → b = a

theorem element_recovers {encode : α → List (String × Json)}
    {decode : List (String × Json) → Option α} (keys : List String)
    (hkeys : ∀ a, ∀ key ∈ infoKeys, Json.fieldsNamed key (encode a) = [])
    (h : BodyRecovers encode decode) : Recovers (element encode) (element? keys decode) := by
  intro e b hb
  simp only [element, element?, reread, fields, Option.bind_eq_bind, Option.bind_some,
    Option.bind_eq_some_iff, Option.pure_def, Option.some.injEq] at hb
  obtain ⟨-, -, info, hinfo, body, hbody, rfl⟩ := hb
  have e1 : info = e.info := info_recovers (hkeys e.body) hinfo
  have e2 : body = e.body := h e.info e.body body hbody
  rw [e1, e2]

theorem argument_recovers : Recovers argument argument? := by
  intro a b h
  simp only [argument, argument?, reread, record, Option.bind_eq_bind, Option.bind_some,
    Option.bind_eq_some_iff, Option.pure_def, Option.some.injEq] at h
  obtain ⟨name, h1, line, h2, types, h3, default, h4, byReference, h5, isVariadic, h6,
    description, h7, rfl⟩ := h
  have e1 : name = a.name := required_recovers text_recovers (by simp) h1
  have e2 : line = a.line := required_recovers word_recovers (by simp) h2
  have e3 : types = a.types := whenNonempty_recovers text_recovers (by simp) h3
  have e4 : default = a.default :=
    whenSome_recovers text_recovers text_reread_ne_null (by simp) h4
  have e5 : byReference = a.byReference := optional_recovers boolean_recovers (by simp) h5
  have e6 : isVariadic = a.isVariadic := optional_recovers boolean_recovers (by simp) h6
  have e7 : description = a.description := optional_recovers text_recovers (by simp) h7
  rw [e1, e2, e3, e4, e5, e6, e7]

theorem visibility_recovers {fs : List (String × Json)} {a b : Visibility}
    (hf : Json.fieldsNamed "visibility" fs = [.str a.name])
    (hb : visibility? (rereadFields fs) = some b) : b = a :=
  optional_recovers (wordOf_recovers .strict Visibility.ofName?_name) hf hb

theorem functionBody_recovers : BodyRecovers functionFields functionBody? := by
  intro i a b h
  simp only [functionBody?, Option.bind_eq_bind, Option.bind_eq_some_iff, Option.pure_def,
    Option.some.injEq] at h
  obtain ⟨arguments, h1, returnTypes, h2, rfl⟩ := h
  have e1 : arguments = a.arguments := optional_recovers (listOf_recovers argument_recovers)
    (by simp [infoFields, functionFields]) h1
  have e2 : returnTypes = a.returnTypes :=
    whenNonempty_recovers text_recovers (by simp [infoFields, functionFields]) h2
  rw [e1, e2]

theorem constantBody_recovers : BodyRecovers constantFields constantBody? := by
  intro i a b h
  simp only [constantBody?, Option.bind_eq_bind, Option.bind_eq_some_iff, Option.pure_def,
    Option.some.injEq] at h
  obtain ⟨value, h1, visibility, h2, rfl⟩ := h
  have e1 : value = a.value :=
    optional_recovers text_recovers (by simp [infoFields, constantFields]) h1
  have e2 : visibility = a.visibility :=
    visibility_recovers (by simp [infoFields, constantFields]) h2
  rw [e1, e2]

theorem methodBody_recovers : BodyRecovers methodFields methodBody? := by
  intro i a b h
  simp only [methodBody?, Option.bind_eq_bind, Option.bind_eq_some_iff, Option.pure_def,
    Option.some.injEq] at h
  obtain ⟨visibility, h1, isAbstract, h2, isFinal, h3, isStatic, h4, arguments, h5, returnTypes,
    h6, rfl⟩ := h
  have e1 : visibility = a.visibility :=
    visibility_recovers (by simp [infoFields, methodFields]) h1
  have e2 : isAbstract = a.isAbstract :=
    optional_recovers boolean_recovers (by simp [infoFields, methodFields]) h2
  have e3 : isFinal = a.isFinal :=
    optional_recovers boolean_recovers (by simp [infoFields, methodFields]) h3
  have e4 : isStatic = a.isStatic :=
    optional_recovers boolean_recovers (by simp [infoFields, methodFields]) h4
  have e5 : arguments = a.arguments := optional_recovers (listOf_recovers argument_recovers)
    (by simp [infoFields, methodFields]) h5
  have e6 : returnTypes = a.returnTypes :=
    whenNonempty_recovers text_recovers (by simp [infoFields, methodFields]) h6
  rw [e1, e2, e3, e4, e5, e6]

theorem propertyBody_recovers : BodyRecovers propertyFields propertyBody? := by
  intro i a b h
  simp only [propertyBody?, Option.bind_eq_bind, Option.bind_eq_some_iff, Option.pure_def,
    Option.some.injEq] at h
  obtain ⟨visibility, h1, isStatic, h2, types, h3, default, h4, rfl⟩ := h
  have e1 : visibility = a.visibility :=
    visibility_recovers (by simp [infoFields, propertyFields]) h1
  have e2 : isStatic = a.isStatic :=
    optional_recovers boolean_recovers (by simp [infoFields, propertyFields]) h2
  have e3 : types = a.types :=
    whenNonempty_recovers text_recovers (by simp [infoFields, propertyFields]) h3
  have e4 : default = a.default := whenSome_recovers text_recovers text_reread_ne_null
    (by simp [infoFields, propertyFields]) h4
  rw [e1, e2, e3, e4]

theorem function_recovers :
    Recovers (element functionFields) (element? functionKeys functionBody?) :=
  element_recovers functionKeys (by simp [infoKeys, functionFields]) functionBody_recovers

theorem constant_recovers :
    Recovers (element constantFields) (element? constantKeys constantBody?) :=
  element_recovers constantKeys (by simp [infoKeys, constantFields]) constantBody_recovers

theorem method_recovers : Recovers (element methodFields) (element? methodKeys methodBody?) :=
  element_recovers methodKeys (by simp [infoKeys, methodFields]) methodBody_recovers

theorem property_recovers :
    Recovers (element propertyFields) (element? propertyKeys propertyBody?) :=
  element_recovers propertyKeys (by simp [infoKeys, propertyFields]) propertyBody_recovers

theorem members_recovers : Recovers members members? := by
  intro m b h
  simp only [members, members?, reread, record, Option.bind_eq_bind, Option.bind_some,
    Option.bind_eq_some_iff, Option.pure_def, Option.some.injEq] at h
  obtain ⟨methods, h1, properties, h2, constants, h3, rfl⟩ := h
  have e1 : methods = m.methods := whenEntries_recovers method_recovers (by simp) h1
  have e2 : properties = m.properties := whenEntries_recovers property_recovers (by simp) h2
  have e3 : constants = m.constants := whenEntries_recovers constant_recovers (by simp) h3
  rw [e1, e2, e3]

theorem classBody_recovers : BodyRecovers classFields classBody? := by
  intro i a b h
  simp only [classBody?, Option.bind_eq_bind, Option.bind_eq_some_iff, Option.pure_def,
    Option.some.injEq] at h
  obtain ⟨parent, h1, interfaces, h2, usedTraits, h3, isAbstract, h4, isFinal, h5, members, h6,
    rfl⟩ := h
  have e1 : parent = a.parent := whenSome_recovers (reference_recovers .strict)
    reference_reread_ne_null (by simp [infoFields, classFields]) h1
  have e2 : interfaces = a.interfaces :=
    whenNonempty_recovers (reference_recovers .strict) (by simp [infoFields, classFields]) h2
  have e3 : usedTraits = a.usedTraits :=
    whenNonempty_recovers (reference_recovers .strict) (by simp [infoFields, classFields]) h3
  have e4 : isAbstract = a.isAbstract :=
    optional_recovers boolean_recovers (by simp [infoFields, classFields]) h4
  have e5 : isFinal = a.isFinal :=
    optional_recovers boolean_recovers (by simp [infoFields, classFields]) h5
  have e6 : members = a.members :=
    optional_recovers members_recovers (by simp [infoFields, classFields]) h6
  rw [e1, e2, e3, e4, e5, e6]

theorem interfaceBody_recovers : BodyRecovers interfaceFields interfaceBody? := by
  intro i a b h
  simp only [interfaceBody?, Option.bind_eq_bind, Option.bind_eq_some_iff, Option.pure_def,
    Option.some.injEq] at h
  obtain ⟨parents, h1, members, h2, rfl⟩ := h
  have e1 : parents = a.parents :=
    whenNonempty_recovers (reference_recovers .strict) (by simp [infoFields, interfaceFields]) h1
  have e2 : members = a.members :=
    optional_recovers members_recovers (by simp [infoFields, interfaceFields]) h2
  rw [e1, e2]

theorem traitBody_recovers : BodyRecovers traitFields traitBody? := by
  intro i a b h
  simp only [traitBody?, Option.bind_eq_bind, Option.bind_eq_some_iff, Option.pure_def,
    Option.some.injEq] at h
  obtain ⟨usedTraits, h1, members, h2, rfl⟩ := h
  have e1 : usedTraits = a.usedTraits :=
    whenNonempty_recovers (reference_recovers .strict) (by simp [infoFields, traitFields]) h1
  have e2 : members = a.members :=
    optional_recovers members_recovers (by simp [infoFields, traitFields]) h2
  rw [e1, e2]

theorem class_recovers : Recovers (element classFields) (element? classKeys classBody?) :=
  element_recovers classKeys (by simp [infoKeys, classFields]) classBody_recovers

theorem interface_recovers :
    Recovers (element interfaceFields) (element? interfaceKeys interfaceBody?) :=
  element_recovers interfaceKeys (by simp [infoKeys, interfaceFields]) interfaceBody_recovers

theorem trait_recovers : Recovers (element traitFields) (element? traitKeys traitBody?) :=
  element_recovers traitKeys (by simp [infoKeys, traitFields]) traitBody_recovers

/-! ### Files and manifests -/

theorem marker_recovers : Recovers marker marker? := by
  intro m b h
  simp only [marker, marker?, reread, record, Option.bind_eq_bind, Option.bind_some,
    Option.bind_eq_some_iff, Option.pure_def, Option.some.injEq] at h
  obtain ⟨keyword, h1, message, h2, line, h3, rfl⟩ := h
  have e1 : keyword = m.keyword := required_recovers text_recovers (by simp) h1
  have e2 : message = m.message := required_recovers text_recovers (by simp) h2
  have e3 : line = m.line := required_recovers word_recovers (by simp) h3
  rw [e1, e2, e3]

theorem sourceProblem_recovers : Recovers sourceProblem sourceProblem? := by
  intro p b h
  simp only [sourceProblem, sourceProblem?, reread, record, Option.bind_eq_bind, Option.bind_some,
    Option.bind_eq_some_iff, Option.pure_def, Option.some.injEq] at h
  obtain ⟨line, h1, message, h2, rfl⟩ := h
  have e1 : line = p.line := required_recovers word_recovers (by simp) h1
  have e2 : message = p.message := required_recovers text_recovers (by simp) h2
  rw [e1, e2]

/-- A file comes back from its text as it was. -/
theorem file_recovers : Recovers file file? := by
  intro f b h
  rw [file?] at h
  -- one field after the other: all at once is too much for one call of `simp`
  obtain ⟨fields, hfields, h⟩ := Option.bind_eq_some_iff.mp h
  obtain ⟨path, h1, h⟩ := Option.bind_eq_some_iff.mp h
  obtain ⟨hash, h2, h⟩ := Option.bind_eq_some_iff.mp h
  obtain ⟨summary, h3, h⟩ := Option.bind_eq_some_iff.mp h
  obtain ⟨description, h4, h⟩ := Option.bind_eq_some_iff.mp h
  obtain ⟨tags, h5, h⟩ := Option.bind_eq_some_iff.mp h
  obtain ⟨package, h6, h⟩ := Option.bind_eq_some_iff.mp h
  obtain ⟨aliases, h7, h⟩ := Option.bind_eq_some_iff.mp h
  obtain ⟨includes, h8, h⟩ := Option.bind_eq_some_iff.mp h
  obtain ⟨classes, h9, h⟩ := Option.bind_eq_some_iff.mp h
  obtain ⟨interfaces, h10, h⟩ := Option.bind_eq_some_iff.mp h
  obtain ⟨traits, h11, h⟩ := Option.bind_eq_some_iff.mp h
  obtain ⟨functions, h12, h⟩ := Option.bind_eq_some_iff.mp h
  obtain ⟨constants, h13, h⟩ := Option.bind_eq_some_iff.mp h
  obtain ⟨markers, h14, h⟩ := Option.bind_eq_some_iff.mp h
  obtain ⟨problems, h15, h⟩ := Option.bind_eq_some_iff.mp h
  obtain ⟨source, h16, h⟩ := Option.bind_eq_some_iff.mp h
  obtain rfl := Option.some.inj h
  simp only [file, reread, record, Option.some.injEq] at hfields
  subst hfields
  have e1 : path = f.path := required_recovers text_recovers (by simp) h1
  have e2 : hash = f.hash := required_recovers text_recovers (by simp) h2
  have e3 : summary = f.summary := optional_recovers text_recovers (by simp) h3
  have e4 : description = f.description := optional_recovers text_recovers (by simp) h4
  have e5 : tags = f.tags := optional_recovers (tags_recovers .strict) (by simp) h5
  have e6 : package = f.package :=
    whenSome_recovers text_recovers text_reread_ne_null (by simp) h6
  have e7 : aliases = f.aliases := optional_recovers (mapOf_recovers fqsen?_recovers) (by simp) h7
  have e8 : includes = f.includes := whenNonempty_recovers text_recovers (by simp) h8
  have e9 : classes = f.classes := optional_recovers (mapOf_recovers class_recovers) (by simp) h9
  have e10 : interfaces = f.interfaces :=
    optional_recovers (mapOf_recovers interface_recovers) (by simp) h10
  have e11 : traits = f.traits := optional_recovers (mapOf_recovers trait_recovers) (by simp) h11
  have e12 : functions = f.functions :=
    optional_recovers (mapOf_recovers function_recovers) (by simp) h12
  have e13 : constants = f.constants :=
    optional_recovers (mapOf_recovers constant_recovers) (by simp) h13
  have e14 : markers = f.markers :=
    optional_recovers (listOf_recovers marker_recovers) (by simp) h14
  have e15 : problems = f.problems :=
    optional_recovers (listOf_recovers sourceProblem_recovers) (by simp) h15
  have e16 : source = f.source :=
    whenSome_recovers text_recovers text_reread_ne_null (by simp) h16
  rw [e1, e2, e3, e4, e5, e6, e7, e8, e9, e10, e11, e12, e13, e14, e15, e16]

theorem manifest_recovers : Recovers manifest manifest? := by
  intro m b h
  simp only [manifest, manifest?, reread, record, Option.bind_eq_bind, Option.bind_some,
    Option.bind_eq_some_iff, Option.pure_def, Option.some.injEq] at h
  obtain ⟨schema, h1, writtenAt, h2, sets, h3, rfl⟩ := h
  have e1 : schema = m.schema := required_recovers word_recovers (by simp) h1
  have e2 : writtenAt = m.writtenAt := required_recovers text_recovers (by simp) h2
  have e3 : sets = m.sets :=
    optional_recovers (mapOf_recovers (mapOf_recovers text_recovers)) (by simp) h3
  rw [e1, e2, e3]

/-! ### How deep records are nested -/

/-- Whatever is written is nested at most `depth` deep. -/
def Shallow (depth : Nat) (encode : α → Json) : Prop := ∀ a, isShallow depth (encode a) = true

theorem Shallow.mono {small large : Nat} {encode : α → Json} (h : Shallow small encode)
    (hle : small ≤ large) : Shallow large encode :=
  fun a => Json.isShallow_mono hle _ (h a)

theorem isShallow_obj {depth : Nat} {fields : List (String × Json)}
    (h : Json.fieldsShallow depth fields = true) : isShallow (depth + 1) (.obj fields) = true := by
  simpa [isShallow] using h

theorem Shallow.ofList {depth : Nat} {encode : α → Json} (h : Shallow depth encode) :
    Shallow (depth + 1) (ofList encode) := by
  intro items
  simp [Codec.ofList, isShallow, Json.itemsShallow_eq_all, h _]

theorem Shallow.ofMap {depth : Nat} {encode : α → Json} (h : Shallow depth encode) :
    Shallow (depth + 1) (ofMap encode) := by
  intro m
  simp [Codec.ofMap, isShallow, Json.fieldsShallow_eq_all, h _]

theorem shallow_str (depth : Nat) : Shallow depth Json.str := fun _ => rfl

theorem shallow_texts : Shallow 1 Json.texts := (shallow_str 0).ofList

@[simp] theorem fieldsShallow_append (depth : Nat) (a b : List (String × Json)) :
    Json.fieldsShallow depth (a ++ b) =
      (Json.fieldsShallow depth a && Json.fieldsShallow depth b) := by
  simp [Json.fieldsShallow_eq_all]

theorem fieldsShallow_whenSome {depth : Nat} {encode : α → Json} (h : Shallow depth encode)
    (key : String) (a : Option α) : Json.fieldsShallow depth (whenSome key encode a) = true := by
  cases a with
  | none => rfl
  | some a => simp [whenSome, Json.fieldsShallow, h a]

theorem fieldsShallow_whenNonempty {depth : Nat} {encode : α → Json} (h : Shallow depth encode)
    (key : String) (a : List α) :
    Json.fieldsShallow (depth + 1) (whenNonempty key encode a) = true := by
  rw [whenNonempty]
  split
  · rfl
  · simp [Json.fieldsShallow, h.ofList a]

theorem fieldsShallow_whenEntries {depth : Nat} {encode : α → Json} (h : Shallow depth encode)
    (key : String) (a : NameMap α) :
    Json.fieldsShallow (depth + 1) (whenEntries key encode a) = true := by
  rw [whenEntries]
  split
  · rfl
  · simp [Json.fieldsShallow, h.ofMap a]

theorem shallow_elementRef : Shallow 1 elementRef := by
  intro r
  exact isShallow_obj (by simp [Json.fieldsShallow, isShallow, Json.nat])

theorem shallow_target : Shallow 2 target := by
  intro t
  cases t with
  | element r => exact isShallow_obj (by simp [Json.fieldsShallow, shallow_elementRef r])
  | file id => exact isShallow_obj (by simp [Json.fieldsShallow, isShallow, Json.nat])
  | spaceNode id => exact isShallow_obj (by simp [Json.fieldsShallow, isShallow, Json.nat])
  | packageNode id => exact isShallow_obj (by simp [Json.fieldsShallow, isShallow, Json.nat])

theorem shallow_reference : Shallow 3 reference := by
  intro r
  exact isShallow_obj (by
    simp [Json.fieldsShallow, isShallow, fieldsShallow_whenSome shallow_target])

theorem shallow_tagBody : Shallow 4 tagBody := by
  have htexts := shallow_texts.mono (show 1 ≤ 3 by decide)
  intro body
  cases body with
  | plain => rfl
  | typed types => exact isShallow_obj (by simp [Json.fieldsShallow, isShallow, htexts types])
  | typedVariable types name =>
    exact isShallow_obj (by simp [Json.fieldsShallow, isShallow, htexts types])
  | reference r =>
    exact isShallow_obj (by simp [Json.fieldsShallow, isShallow, shallow_reference r])
  | magicMethod name returnTypes arguments isStatic =>
    exact isShallow_obj (by
      simp [Json.fieldsShallow, isShallow, htexts returnTypes, htexts arguments])

theorem shallow_tag : Shallow 5 tag := by
  intro t
  exact isShallow_obj (by simp [Json.fieldsShallow, isShallow, shallow_tagBody t.body])

theorem shallow_tags : Shallow 7 tags := fun ts => shallow_tag.ofList.ofMap ts.byName

theorem shallow_argument : Shallow 2 argument := by
  intro a
  exact isShallow_obj (by
    simp [Json.fieldsShallow, isShallow, Json.nat, fieldsShallow_whenSome (shallow_str 1),
      fieldsShallow_whenNonempty (shallow_str 0)])

theorem fieldsShallow_infoFields {depth : Nat} (h : 7 ≤ depth) (i : Info) :
    Json.fieldsShallow depth (infoFields i) = true := by
  simp [infoFields, Json.fieldsShallow, isShallow, Json.nat, (shallow_tags.mono h) i.tags,
    fieldsShallow_whenSome (shallow_str depth)]

/-- An element is nested as deep as the deeper of its documentation and its body. -/
theorem shallow_element {depth : Nat} (h : 7 ≤ depth) {encode : α → List (String × Json)}
    (hbody : ∀ a, Json.fieldsShallow depth (encode a) = true) :
    Shallow (depth + 1) (element encode) := by
  intro e
  exact isShallow_obj (by simp [fieldsShallow_infoFields h, hbody])

theorem shallow_function : Shallow 8 (element functionFields) := by
  refine shallow_element (Nat.le_refl 7) fun a => ?_
  have harguments := (shallow_argument.ofList.mono (show 3 ≤ 7 by decide)) a.arguments
  simp [functionFields, Json.fieldsShallow, harguments, fieldsShallow_whenNonempty (shallow_str 6)]

theorem shallow_constant : Shallow 8 (element constantFields) := by
  refine shallow_element (Nat.le_refl 7) fun a => ?_
  simp [constantFields, Json.fieldsShallow, isShallow]

theorem shallow_method : Shallow 8 (element methodFields) := by
  refine shallow_element (Nat.le_refl 7) fun a => ?_
  have harguments := (shallow_argument.ofList.mono (show 3 ≤ 7 by decide)) a.arguments
  simp [methodFields, Json.fieldsShallow, isShallow, harguments,
    fieldsShallow_whenNonempty (shallow_str 6)]

theorem shallow_property : Shallow 8 (element propertyFields) := by
  refine shallow_element (Nat.le_refl 7) fun a => ?_
  simp [propertyFields, Json.fieldsShallow, isShallow, fieldsShallow_whenNonempty (shallow_str 6),
    fieldsShallow_whenSome (shallow_str 7)]

theorem shallow_members : Shallow 10 members := by
  intro m
  exact isShallow_obj (by
    simp [fieldsShallow_whenEntries shallow_method, fieldsShallow_whenEntries shallow_property,
      fieldsShallow_whenEntries shallow_constant])

theorem shallow_class : Shallow 11 (element classFields) := by
  have href := shallow_reference.mono (show 3 ≤ 10 by decide)
  have href' := shallow_reference.mono (show 3 ≤ 9 by decide)
  refine shallow_element (by decide) fun a => ?_
  simp [classFields, Json.fieldsShallow, isShallow, shallow_members a.members,
    fieldsShallow_whenSome href, fieldsShallow_whenNonempty href']

theorem shallow_interface : Shallow 11 (element interfaceFields) := by
  have href := shallow_reference.mono (show 3 ≤ 9 by decide)
  refine shallow_element (by decide) fun a => ?_
  simp [interfaceFields, Json.fieldsShallow, shallow_members a.members,
    fieldsShallow_whenNonempty href]

theorem shallow_trait : Shallow 11 (element traitFields) := by
  have href := shallow_reference.mono (show 3 ≤ 9 by decide)
  refine shallow_element (by decide) fun a => ?_
  simp [traitFields, Json.fieldsShallow, shallow_members a.members,
    fieldsShallow_whenNonempty href]

theorem shallow_marker : Shallow 1 marker := by
  intro m
  exact isShallow_obj (by simp [Json.fieldsShallow, isShallow, Json.nat])

theorem shallow_sourceProblem : Shallow 1 sourceProblem := by
  intro p
  exact isShallow_obj (by simp [Json.fieldsShallow, isShallow, Json.nat])

theorem shallow_file : Shallow 13 file := by
  intro f
  have h1 := (shallow_tags.mono (show 7 ≤ 12 by decide)) f.tags
  have h3 := shallow_class.ofMap f.classes
  have h4 := shallow_interface.ofMap f.interfaces
  have h5 := shallow_trait.ofMap f.traits
  have h6 := (shallow_function.ofMap.mono (show 9 ≤ 12 by decide)) f.functions
  have h7 := (shallow_constant.ofMap.mono (show 9 ≤ 12 by decide)) f.constants
  have h8 := (shallow_marker.ofList.mono (show 2 ≤ 12 by decide)) f.markers
  have h9 := (shallow_sourceProblem.ofList.mono (show 2 ≤ 12 by decide)) f.problems
  have haliases : Shallow 11 (fun a : Fqsen => .str a.text) := fun _ => rfl
  exact isShallow_obj (by
    simp [Json.fieldsShallow, isShallow, h1, haliases.ofMap f.aliases, h3, h4, h5, h6, h7, h8, h9,
      fieldsShallow_whenSome (shallow_str 12), fieldsShallow_whenNonempty (shallow_str 11)])

theorem shallow_manifest : Shallow 3 manifest := by
  intro m
  have hsets := ((shallow_str 0).ofMap.ofMap) m.sets
  exact isShallow_obj (by simp [Json.fieldsShallow, isShallow, Json.nat, hsets])

/-! ### Texts of records -/

/-- A file is the only file that its stored text can be read as. -/
theorem eq_of_file?_skim? {f g : File}
    (h : (Json.skim? (file f).compact).bind file? = some g) : g = f := by
  have hdeep := (shallow_file.mono (show 13 ≤ Json.depthLimit by decide)) f
  rw [Json.skim?_compact hdeep, Option.bind_some] at h
  exact file_recovers f g h

/-- A manifest is the only manifest that its stored text can be read as. -/
theorem eq_of_manifest?_skim? {m n : Manifest}
    (h : (Json.skim? (manifest m).pretty).bind manifest? = some n) : n = m := by
  have hdeep := (shallow_manifest.mono (show 3 ≤ Json.depthLimit by decide)) m
  rw [Json.skim?_pretty hdeep, Option.bind_some] at h
  exact manifest_recovers m n h

end Codec

end ApiDoc
