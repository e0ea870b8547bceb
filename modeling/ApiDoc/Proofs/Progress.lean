import ApiDoc.Proofs.Turns

/-!
# The reader moves forward

A place leads to another if that is reached by passing over tokens (`Cursor.Leads`). There is one
lemma for each routine of the reader: the place in front of it leads to the place behind it, and
routines that read a part of a declaration change nothing else but the problems of the file
(`Reading.Moves`). A statement and a member pass at least one token, so the bounds on the rounds of
all loops suffice and can be replaced by any other that does.
-/

namespace ApiDoc

namespace Cursor

/-- The second place is reached from the first by passing over tokens. -/
def Leads (c d : Cursor) : Prop := ∃ n, d = c.skip n

theorem skip_add (c : Cursor) (m n : Nat) : c.skip (m + n) = (c.skip m).skip n := by
  induction m generalizing c with
  | zero => rw [Nat.zero_add, skip_zero]
  | succ m ih => rw [Nat.add_right_comm, skip, ih, skip]

@[simp] theorem Leads.refl (c : Cursor) : c.Leads c := ⟨0, rfl⟩

theorem Leads.trans {c d e : Cursor} (h : c.Leads d) (k : d.Leads e) : c.Leads e := by
  obtain ⟨m, rfl⟩ := h
  obtain ⟨n, rfl⟩ := k
  exact ⟨m + n, (skip_add c m n).symm⟩

theorem leads_skip (c : Cursor) (n : Nat) : c.Leads (c.skip n) := ⟨n, rfl⟩

theorem leads_step (c : Cursor) : c.Leads c.step := ⟨1, rfl⟩

theorem Leads.suffix {c d : Cursor} (h : c.Leads d) : d.rest <:+ c.rest := by
  obtain ⟨n, rfl⟩ := h
  rw [rest_skip]
  exact List.drop_suffix n c.rest

theorem Leads.length_le {c d : Cursor} (h : c.Leads d) : d.rest.length ≤ c.rest.length :=
  h.suffix.length_le

theorem step_of_nil {c : Cursor} (h : c.rest = []) : c.step = c := by
  rw [step, h]

/-- A place behind the next token, or at the end. -/
theorem step_leads_skip (c : Cursor) {n : Nat} (h : 0 < n ∨ c.rest = []) :
    c.step.Leads (c.skip n) := by
  cases n with
  | zero =>
    rw [step_of_nil (h.resolve_left (Nat.lt_irrefl 0))]
    exact .refl c
  | succ n => exact ⟨n, rfl⟩

theorem length_step_lt {c : Cursor} (h : c.rest ≠ []) : c.step.rest.length < c.rest.length := by
  obtain ⟨t, rest, hrest⟩ := List.exists_cons_of_ne_nil h
  rw [step_of_rest hrest, hrest]
  exact Nat.lt_succ_self _

theorem ne_nil_of_peek {c : Cursor} {t : Token} (h : c.peek = some t) : c.rest ≠ [] := by
  intro hnil
  simp [peek, hnil] at h

section Tests

variable {c d : Cursor} {test : Token → Bool} {kind : TokenKind} {t : Token}

theorem eat_eq_some (h : c.eat test = some d) :
    ∃ t rest, c.rest = t :: rest ∧ test t = true ∧ d = ⟨some t, rest⟩ := by
  rw [eat] at h
  split at h
  · next hnext =>
    cases hrest : c.rest with
    | nil => simp [next, peek, hrest] at hnext
    | cons t rest =>
      refine ⟨t, rest, rfl, by simpa [next, peek, hrest] using hnext, ?_⟩
      rw [← step_of_rest hrest]
      exact (Option.some.inj h).symm
  · simp at h

theorem take?_eq_some (h : c.take? kind = some (t, d)) :
    ∃ rest, c.rest = t :: rest ∧ t.kind = kind ∧ d = ⟨some t, rest⟩ := by
  rw [take?] at h
  split at h
  · simp at h
  · next first rest hrest =>
    split at h
    · next hkind =>
      cases h
      exact ⟨rest, hrest, hkind, step_of_rest hrest⟩
    · simp at h

theorem step_eq_of_eat (h : c.eat test = some d) : c.step = d := by
  obtain ⟨t, rest, hrest, -, rfl⟩ := eat_eq_some h
  exact step_of_rest hrest

theorem step_eq_of_take? (h : c.take? kind = some (t, d)) : c.step = d := by
  obtain ⟨rest, hrest, -, rfl⟩ := take?_eq_some h
  exact step_of_rest hrest

theorem leads_eat (h : c.eat test = some d) : c.Leads d := step_eq_of_eat h ▸ c.leads_step

theorem leads_take? (h : c.take? kind = some (t, d)) : c.Leads d :=
  step_eq_of_take? h ▸ c.leads_step

theorem leads_name? (h : c.name? = some (t, d)) : c.Leads d := leads_take? h

theorem leads_eat_getD (c : Cursor) (test : Token → Bool) : c.Leads ((c.eat test).getD c) := by
  cases h : c.eat test with
  | none => exact .refl c
  | some d => exact leads_eat h

theorem length_eat_lt (h : c.eat test = some d) : d.rest.length < c.rest.length := by
  obtain ⟨t, rest, hrest, -, rfl⟩ := eat_eq_some h
  rw [hrest]
  exact Nat.lt_succ_self _

theorem length_take?_lt (h : c.take? kind = some (t, d)) : d.rest.length < c.rest.length := by
  obtain ⟨rest, hrest, -, rfl⟩ := take?_eq_some h
  rw [hrest]
  exact Nat.lt_succ_self _

theorem leads_dropEnd (c : Cursor) : c.Leads c.dropEnd := c.leads_eat_getD _

theorem leads_skipStatement (c : Cursor) : c.Leads c.skipStatement := c.leads_skip _

theorem leads_expression (c : Cursor) (stops : List String) : c.Leads (c.expression stops).2 :=
  c.leads_skip _

end Tests

end Cursor

/-! ### Parts of declarations -/

namespace Reader

open Cursor

theorem leads_parameters (doc : Option DocBlock) (c : Cursor) :
    c.Leads (parameters doc c).after := by
  rw [parameters]
  split
  · exact .refl c
  · next inner hinner => exact (leads_eat hinner).trans (inner.leads_skip _)

theorem leads_returnTypes (c : Cursor) : c.Leads (returnTypes c).2 := by
  rw [returnTypes]
  split
  · exact .refl c
  · next inner hinner => exact (leads_eat hinner).trans (inner.leads_skip _)

end Reader

namespace Reading

open Cursor

theorem leads_nameList (fuel : Nat) (c : Cursor) : c.Leads (nameList fuel c).2 := by
  induction fuel generalizing c with
  | zero => exact .refl c
  | succ fuel ih =>
    rw [nameList]
    split
    · exact .refl c
    · next name d hd =>
      split
      · exact leads_name? hd
      · next e he => exact ((leads_name? hd).trans (leads_eat he)).trans (ih e)

/-- Any bound above the number of tokens gives the same list. -/
theorem nameList_congr {fuel fuel' : Nat} {c : Cursor} (h : c.rest.length < fuel)
    (h' : c.rest.length < fuel') : nameList fuel c = nameList fuel' c := by
  induction fuel generalizing c fuel' with
  | zero => exact absurd h (Nat.not_lt_zero _)
  | succ fuel ih =>
    obtain ⟨fuel', rfl⟩ : ∃ n, fuel' = n + 1 := ⟨fuel' - 1, by omega⟩
    rw [nameList, nameList]
    cases hname : c.name? with
    | none => rfl
    | some found =>
      obtain ⟨name, d⟩ := found
      have hd := length_take?_lt hname
      cases hcomma : d.eatPunct "," with
      | none => simp only [hcomma]
      | some e =>
        have he := length_eat_lt hcomma
        have hmore : nameList fuel e = nameList fuel' e := ih (by omega) (by omega)
        simp only [hcomma, hmore]

/-- The second state differs from the first one in its place, which is further on, and in the
problems that were found. -/
structure Moves (s u : Reading) : Prop where
  leads : s.cursor.Leads u.cursor
  frame : ∃ problems,
    u = { s with cursor := u.cursor, file := { s.file with problems := problems } }

theorem Moves.refl (s : Reading) : s.Moves s := ⟨.refl _, s.file.problems, rfl⟩

theorem Moves.trans {s u v : Reading} (h : s.Moves u) (k : u.Moves v) : s.Moves v := by
  obtain ⟨hleads, problems, hu⟩ := h
  obtain ⟨kleads, others, hv⟩ := k
  refine ⟨hleads.trans kleads, others, ?_⟩
  rw [hv, hu]

theorem Moves.pending {s u : Reading} (h : s.Moves u) : u.pending = s.pending := by
  obtain ⟨-, problems, hu⟩ := h
  rw [hu]

theorem Moves.fileDocSettled {s u : Reading} (h : s.Moves u) :
    u.fileDocSettled = s.fileDocSettled := by
  obtain ⟨-, problems, hu⟩ := h
  rw [hu]

theorem moves_moveTo {s : Reading} {c : Cursor} (h : s.cursor.Leads c) : s.Moves (s.moveTo c) :=
  ⟨h, s.file.problems, rfl⟩

theorem moves_report (s : Reading) (line : Nat) (message : String) :
    s.Moves (s.report line message) := ⟨.refl _, _, rfl⟩

theorem moves_references (s : Reading) : s.Moves s.references.2 :=
  moves_moveTo (leads_nameList s.cursor.fuel s.cursor)

/-- The names in front of a constant are passed over in any case. -/
theorem skip_leads_succ {fuel : Nat} (hmore : ∀ d, Leads d (constantList fuel d).2) (c : Cursor) :
    (c.skip (c.rest.takeWhile fun t => t.kind == .name).length).Leads
      (constantList (fuel + 1) c).2 := by
  rw [constantList]
  dsimp only
  split
  · next name sign _ hsign =>
    have hvalue := (leads_eat hsign).trans (sign.leads_expression [","])
    split
    · exact hvalue
    · next d hd => exact (hvalue.trans (leads_eat hd)).trans (hmore d)
  · exact .refl _

theorem leads_constantList (fuel : Nat) (c : Cursor) : c.Leads (constantList fuel c).2 := by
  induction fuel generalizing c with
  | zero => exact .refl c
  | succ fuel ih => exact (c.leads_skip _).trans (skip_leads_succ ih c)

theorem skip_leads_constantList (fuel : Nat) (c : Cursor) :
    (c.skip (c.rest.takeWhile fun t => t.kind == .name).length).Leads
      (constantList (fuel + 1) c).2 :=
  skip_leads_succ (leads_constantList fuel) c

theorem constantList_congr {fuel fuel' : Nat} {c : Cursor} (h : c.rest.length < fuel)
    (h' : c.rest.length < fuel') : constantList fuel c = constantList fuel' c := by
  induction fuel generalizing c fuel' with
  | zero => exact absurd h (Nat.not_lt_zero _)
  | succ fuel ih =>
    obtain ⟨fuel', rfl⟩ : ∃ n, fuel' = n + 1 := ⟨fuel' - 1, by omega⟩
    rw [constantList, constantList]
    dsimp only
    split
    · next name sign _ hsign =>
      cases hcomma : (sign.expression [","]).2.eatPunct "," with
      | none => rfl
      | some d =>
        have hskip := (c.leads_skip (c.rest.takeWhile fun t => t.kind == .name).length).length_le
        have hsign := length_eat_lt hsign
        have hvalue := (sign.leads_expression [","]).length_le
        have hd := length_eat_lt hcomma
        have hmore : constantList fuel d = constantList fuel' d := ih (by omega) (by omega)
        simp only [hmore]
    · rfl

theorem moves_constants (s : Reading) : s.Moves s.constants.2 :=
  moves_moveTo ((leads_constantList s.cursor.fuel s.cursor).trans (leads_skipStatement _))

theorem moves_skipBlock (s : Reading) (line : Nat) : s.Moves (s.skipBlock line) := by
  rw [skipBlock]
  split
  · exact moves_moveTo (s.cursor.leads_skip _)
  · exact (moves_moveTo (s.cursor.leads_skip _)).trans (moves_report _ _ _)

theorem moves_skipBody (s : Reading) : s.Moves s.skipBody := by
  rw [skipBody]
  split
  · next inner hinner => exact (moves_moveTo (leads_eat hinner)).trans (moves_skipBlock _ _)
  · exact moves_moveTo s.cursor.leads_dropEnd

theorem moves_signature (s : Reading) (doc : Option DocBlock) :
    s.Moves (s.signature doc).2.2 := by
  have hparts := (Reader.leads_parameters doc s.cursor).trans (Reader.leads_returnTypes _)
  rw [signature]
  dsimp only
  split
  · next line _ =>
    exact ((moves_report s line _).trans (moves_moveTo hparts)).trans (moves_skipBody _)
  · exact (moves_moveTo hparts).trans (moves_skipBody _)

theorem leads_importAt (target : String) (c : Cursor) : c.Leads (importAt target c).2 := by
  rw [importAt]
  split
  · exact .refl c
  · next d hd =>
    split
    · next he => exact (leads_eat hd).trans (leads_name? he)
    · exact leads_eat hd

theorem leads_importGroup (start : List Char) (fuel : Nat) (c : Cursor) :
    c.Leads (importGroup start fuel c).2 := by
  induction fuel generalizing c with
  | zero => exact .refl c
  | succ fuel ih =>
    rw [importGroup]
    split
    · exact .refl c
    · next t d hd =>
      have hitem := (leads_name? hd).trans (leads_importAt
        (String.ofList (start ++ Fqsen.separator :: t.text.toList)) d)
      dsimp only
      split
      · exact hitem
      · next e he => exact (hitem.trans (leads_eat he)).trans (ih e)

theorem importGroup_congr {start : List Char} {fuel fuel' : Nat} {c : Cursor}
    (h : c.rest.length < fuel) (h' : c.rest.length < fuel') :
    importGroup start fuel c = importGroup start fuel' c := by
  induction fuel generalizing c fuel' with
  | zero => exact absurd h (Nat.not_lt_zero _)
  | succ fuel ih =>
    obtain ⟨fuel', rfl⟩ : ∃ n, fuel' = n + 1 := ⟨fuel' - 1, by omega⟩
    rw [importGroup, importGroup]
    cases hname : c.name? with
    | none => rfl
    | some found =>
      obtain ⟨t, d⟩ := found
      let target := String.ofList (start ++ Fqsen.separator :: t.text.toList)
      have hd := length_take?_lt hname
      have hitem := (leads_importAt target d).length_le
      dsimp only
      cases hcomma : (importAt target d).2.eatPunct "," with
      | none => rfl
      | some e =>
        have he := length_eat_lt hcomma
        have hmore : importGroup start fuel e = importGroup start fuel' e :=
          ih (by omega) (by omega)
        simp only [hmore]

theorem leads_importName (t : Token) (c : Cursor) : c.Leads (importName t c).2 := by
  rw [importName]
  split
  · exact leads_importAt t.text c
  · next d hd =>
    exact ((leads_eat hd).trans (leads_importGroup _ _ d)).trans (leads_eat_getD _ _)

theorem leads_importList (fuel : Nat) (c : Cursor) : c.Leads (importList fuel c).2 := by
  induction fuel generalizing c with
  | zero => exact .refl c
  | succ fuel ih =>
    rw [importList]
    split
    · exact .refl c
    · next t d hd =>
      have hitem := (leads_name? hd).trans (leads_importName t d)
      dsimp only
      split
      · exact hitem
      · next e he => exact (hitem.trans (leads_eat he)).trans (ih e)

theorem importList_congr {fuel fuel' : Nat} {c : Cursor} (h : c.rest.length < fuel)
    (h' : c.rest.length < fuel') : importList fuel c = importList fuel' c := by
  induction fuel generalizing c fuel' with
  | zero => exact absurd h (Nat.not_lt_zero _)
  | succ fuel ih =>
    obtain ⟨fuel', rfl⟩ : ∃ n, fuel' = n + 1 := ⟨fuel' - 1, by omega⟩
    rw [importList, importList]
    cases hname : c.name? with
    | none => rfl
    | some found =>
      obtain ⟨t, d⟩ := found
      have hd := length_take?_lt hname
      have hitem := (leads_importName t d).length_le
      dsimp only
      cases hcomma : (importName t d).2.eatPunct "," with
      | none => rfl
      | some e =>
        have he := length_eat_lt hcomma
        have hmore : importList fuel e = importList fuel' e := ih (by omega) (by omega)
        simp only [hmore]

theorem leads_parentAt (s : Reading) (c : Cursor) : c.Leads (s.parentAt c).2 := by
  rw [parentAt]
  split
  · exact .refl c
  · next d hd =>
    split
    · next t e he => exact (leads_eat hd).trans (leads_name? he)
    · exact leads_eat hd

theorem moves_listBehind (s : Reading) (keyword : String) : s.Moves (s.listBehind keyword).2 := by
  rw [listBehind]
  split
  · next c hc => exact (moves_moveTo (leads_eat hc)).trans (moves_references _)
  · exact .refl s

theorem moves_skipDeclaration (s : Reading) : s.Moves s.skipDeclaration := by
  have hheader := moves_moveTo (s.cursor.leads_skip (headerWidth 0 s.cursor.rest).1)
  rw [skipDeclaration]
  dsimp only
  split
  · exact hheader.trans (moves_skipBlock _ _)
  · exact hheader

end Reading

/-! ### Members -/

namespace BodyReading

open Cursor Reading

theorem leads_traitUse (b : BodyReading) : b.state.cursor.Leads b.traitUse.state.cursor :=
  ((moves_references b.state).trans (moves_skipBody b.state.references.2)).leads

theorem leads_method (b : BodyReading) : b.state.cursor.Leads b.method.state.cursor := by
  have hsign := b.state.cursor.leads_eat_getD (·.is "&")
  rw [method]
  dsimp only
  split
  · exact hsign
  · next name c hc =>
    exact (hsign.trans (leads_name? hc)).trans (moves_signature (Reading.moveTo _ c) _).leads

/-- The default value of a property, if an equals sign is next, and the place after it. -/
def defaultAt (c : Cursor) : Option String × Cursor :=
  match c.eatPunct "=" with
  | some c => (some (c.expression [","]).1, (c.expression [","]).2)
  | none => (none, c)

def propertyOf (owner : Fqsen) (modifiers : Modifiers) (doc : Option DocBlock) (t : Token)
    (default : Option String) : Element PropertyBody where
  info := document doc (Element.property owner t.text (modifiers.line.getD t.line)).info
  body := {
    visibility := modifiers.visibility.getD .public
    isStatic := modifiers.isStatic
    types := Reader.declaredTypes modifiers.types
    default := default }

theorem leads_defaultAt (c : Cursor) : c.Leads (defaultAt c).2 := by
  rw [defaultAt]
  split
  · next d hd => exact (leads_eat hd).trans (d.leads_expression [","])
  · exact .refl c

section PropertyList

variable {owner : Fqsen} {modifiers : Modifiers} {doc : Option DocBlock}

/-- A list of properties is the first of them and, behind a comma, the list of the others. -/
theorem propertyList_succ (fuel : Nat) (t : Token) (c : Cursor) (members : Members) :
    propertyList owner modifiers doc (fuel + 1) t c members =
      let found := members.addProperty (propertyOf owner modifiers doc t (defaultAt c).1)
      match (defaultAt c).2.eatPunct "," with
      | none => (found, (defaultAt c).2)
      | some d =>
        match d.take? .variableName with
        | none => (found, d)
        | some (u, e) => propertyList owner modifiers doc fuel u e found := by
  rw [propertyList, defaultAt]
  cases c.eatPunct "=" <;> rfl

theorem leads_propertyList (fuel : Nat) (t : Token) (c : Cursor) (members : Members) :
    c.Leads (propertyList owner modifiers doc fuel t c members).2 := by
  induction fuel generalizing t c members with
  | zero => exact .refl c
  | succ fuel ih =>
    have hvalue := leads_defaultAt c
    rw [propertyList_succ]
    dsimp only
    split
    · exact hvalue
    · next d hd =>
      split
      · exact hvalue.trans (leads_eat hd)
      · next u e he => exact ((hvalue.trans (leads_eat hd)).trans (leads_take? he)).trans (ih u e _)

theorem propertyList_congr {fuel fuel' : Nat} {t : Token} {c : Cursor} {members : Members}
    (h : c.rest.length < fuel) (h' : c.rest.length < fuel') :
    propertyList owner modifiers doc fuel t c members =
      propertyList owner modifiers doc fuel' t c members := by
  induction fuel generalizing t c members fuel' with
  | zero => exact absurd h (Nat.not_lt_zero _)
  | succ fuel ih =>
    obtain ⟨fuel', rfl⟩ : ∃ n, fuel' = n + 1 := ⟨fuel' - 1, by omega⟩
    have hvalue := (leads_defaultAt c).length_le
    rw [propertyList_succ, propertyList_succ]
    dsimp only
    cases hcomma : (defaultAt c).2.eatPunct "," with
    | none => rfl
    | some d =>
      dsimp only
      cases hvariable : d.take? .variableName with
      | none => rfl
      | some found =>
        have hd := length_eat_lt hcomma
        have he := length_take?_lt hvariable
        exact ih (by omega) (by omega)

end PropertyList

theorem leads_properties (b : BodyReading) (t : Token) :
    b.state.cursor.Leads (b.properties t).state.cursor := by
  have hlist : b.state.cursor.Leads (propertyList b.owner b.modifiers b.state.pending
      b.state.cursor.fuel t b.state.cursor b.members).2 := leads_propertyList _ t _ _
  exact hlist.trans (leads_dropEnd _)

theorem leads_constants (b : BodyReading) : b.state.cursor.Leads b.constants.state.cursor :=
  (moves_constants b.state.forget).leads

theorem leads_token (b : BodyReading) (t : Token) :
    b.state.cursor.Leads (b.token t).state.cursor := by
  have hturn := b.turn_token t
  revert hturn
  generalize b.token t = d
  intro hturn
  cases hturn with
  | docComment | ends | collects => exact .refl _
  | traits => exact leads_traitUse b
  | constants => exact leads_constants { b with modifiers := _ }
  | method => exact leads_method { b with modifiers := _ }
  | case => exact b.state.cursor.leads_skipStatement
  | properties => exact leads_properties { b with modifiers := _ } t

theorem leads_untilClose (line fuel : Nat) (b : BodyReading) :
    b.state.cursor.Leads (untilClose line fuel b).state.cursor := by
  induction fuel generalizing b with
  | zero => exact .refl _
  | succ fuel ih =>
    rw [untilClose]
    split
    · exact .refl _
    · next t ht =>
      have hstep : b.state.cursor.Leads b.state.step.cursor := b.state.cursor.leads_step
      dsimp only
      split
      · exact hstep
      · exact (hstep.trans (leads_token { b with state := b.state.step } t)).trans (ih _)

theorem untilClose_congr {line fuel fuel' : Nat} {b : BodyReading}
    (h : b.state.cursor.rest.length < fuel) (h' : b.state.cursor.rest.length < fuel') :
    untilClose line fuel b = untilClose line fuel' b := by
  induction fuel generalizing b fuel' with
  | zero => exact absurd h (Nat.not_lt_zero _)
  | succ fuel ih =>
    obtain ⟨fuel', rfl⟩ : ∃ n, fuel' = n + 1 := ⟨fuel' - 1, by omega⟩
    rw [untilClose, untilClose]
    cases ht : b.state.cursor.peek with
    | none => rfl
    | some t =>
      have hstep : b.state.step.cursor.rest.length < b.state.cursor.rest.length :=
        length_step_lt (ne_nil_of_peek ht)
      have htoken := (leads_token { b with state := b.state.step } t).length_le
      dsimp only at htoken ⊢
      split
      · rfl
      · exact ih (by omega) (by omega)

end BodyReading

/-! ### Statements -/

namespace Reading

open Cursor

theorem leads_classBody (s : Reading) (owner : Fqsen) (isInterface : Bool) :
    s.cursor.Leads (s.classBody owner isInterface).2.cursor := by
  rw [classBody]
  split
  · exact .refl _
  · next inner hinner =>
    exact (leads_eat hinner).trans
      (BodyReading.leads_untilClose _ _ { state := s.moveTo inner, .. })

theorem step_leads_namespaceDeclaration (s : Reading) :
    s.cursor.step.Leads s.namespaceDeclaration.cursor := by
  rw [namespaceDeclaration]
  dsimp only
  cases hname : s.cursor.step.name? with
  | none =>
    dsimp only
    split
    · next inner hinner => exact leads_eat hinner
    · exact leads_dropEnd _
  | some found =>
    obtain ⟨t, d⟩ := found
    dsimp only
    split
    · next inner hinner => exact (leads_name? hname).trans (leads_eat hinner)
    · exact (leads_name? hname).trans (leads_dropEnd d)

theorem step_leads_useDeclaration (s : Reading) :
    s.cursor.step.Leads s.useDeclaration.cursor := by
  rw [useDeclaration]
  split
  · exact leads_skipStatement _
  · exact (leads_importList _ _).trans (leads_skipStatement _)

theorem step_leads_includeStatement (s : Reading) :
    s.cursor.step.Leads s.includeStatement.cursor :=
  (leads_expression s.cursor.step []).trans (leads_dropEnd _)

/-- The place behind the words of a class-like is that in front of its body, or all that is read. -/
def endOf (r : Reading ⊕ Head) : Cursor := r.elim Reading.cursor fun h => h.state.cursor

theorem leads_read (h : Head) : h.state.cursor.Leads h.read.cursor := by
  have hbody := leads_classBody h.state h.owner h.isInterface
  rw [Head.read]
  split
  · next hnone => rwa [hnone] at hbody
  · next hsome => rwa [hsome] at hbody

theorem endOf_leads (r : Reading ⊕ Head) : (endOf r).Leads (r.elim id Head.read).cursor :=
  match r with
  | .inl _ => .refl _
  | .inr h => leads_read h

theorem classModifiers_pos {t : Token} (h : IsModifier t) (ts : List Token) :
    0 < (classModifiers (t :: ts)).2.2 := by
  rw [classModifiers]
  rcases h with h | h | h
  · simp [h]
  · cases t.isKeyword "abstract" <;> simp [h]
  · cases t.isKeyword "abstract" <;> cases t.isKeyword "final" <;> simp [h]

/-- The next token in front of the tokens behind it. -/
theorem exists_rest_of_peek {c : Cursor} {t : Token} (h : c.peek = some t) :
    ∃ rest, c.rest = t :: rest := by
  obtain ⟨first, rest, hrest⟩ := List.exists_cons_of_ne_nil (ne_nil_of_peek h)
  rw [peek, hrest] at h
  cases h
  exact ⟨rest, hrest⟩

/-- Behind the modifiers of a class stands its keyword, which is passed over too if nothing else
is. -/
theorem step_leads_modifiers {c : Cursor} {t : Token} (ht : c.peek = some t)
    (hword : IsModifier t ∨ t.isKeyword "class" = true) :
    let d := c.skip (classModifiers c.rest).2.2
    c.step.Leads ((d.eatKeyword "class").getD d) := by
  obtain ⟨rest, hrest⟩ := exists_rest_of_peek ht
  rcases hword with hword | hword
  · have hpos : 0 < (classModifiers c.rest).2.2 := hrest ▸ classModifiers_pos hword rest
    exact (step_leads_skip c (.inl hpos)).trans (leads_eat_getD _ _)
  · obtain ⟨isAbstract, isFinal, hnone⟩ : ∃ isAbstract isFinal,
        classModifiers ([] ++ t :: rest) = (isAbstract, isFinal, 0) :=
      classModifiers_of (by simp) (not_isModifier_class hword) rest
    rw [List.nil_append] at hnone
    dsimp only
    rw [hrest, hnone, skip_zero, eatKeyword_of_rest hrest hword,
      step_of_rest hrest]
    exact .refl _

theorem step_leads_classHead {s : Reading} {t : Token} (ht : s.cursor.peek = some t)
    (hword : IsModifier t ∨ t.isKeyword "class" = true) :
    s.cursor.step.Leads (endOf s.classHead) := by
  have hfront := step_leads_modifiers ht hword
  rw [classHead]
  dsimp only at hfront ⊢
  split
  · next hnone => rwa [hnone] at hfront
  · next c hc =>
    rw [hc] at hfront
    split
    · exact hfront
    · next name d hd =>
      exact (hfront.trans ((leads_name? hd).trans (leads_parentAt s d))).trans
        (moves_listBehind (s.forget.moveTo (s.parentAt d).2) "implements").leads

theorem step_leads_interfaceHead (s : Reading) :
    s.cursor.step.Leads (endOf s.interfaceHead) := by
  rw [interfaceHead]
  dsimp only
  split
  · exact .refl _
  · next name c hc =>
    exact (leads_name? hc).trans (moves_listBehind (s.forget.moveTo c) "extends").leads

theorem step_leads_traitHead (s : Reading) : s.cursor.step.Leads (endOf s.traitHead) := by
  rw [traitHead]
  dsimp only
  split
  · exact .refl _
  · next hc => exact leads_name? hc

theorem step_leads_classDeclaration {s : Reading} {t : Token} (ht : s.cursor.peek = some t)
    (hword : IsModifier t ∨ t.isKeyword "class" = true) :
    s.cursor.step.Leads s.classDeclaration.cursor := by
  rw [classDeclaration_eq]
  exact (step_leads_classHead ht hword).trans (endOf_leads _)

theorem step_leads_interfaceDeclaration (s : Reading) :
    s.cursor.step.Leads s.interfaceDeclaration.cursor := by
  rw [interfaceDeclaration_eq]
  exact (step_leads_interfaceHead s).trans (endOf_leads _)

theorem step_leads_traitDeclaration (s : Reading) :
    s.cursor.step.Leads s.traitDeclaration.cursor := by
  rw [traitDeclaration_eq]
  exact (step_leads_traitHead s).trans (endOf_leads _)

theorem headerWidth_pos (depth : Nat) (t : Token) (ts : List Token) :
    0 < (headerWidth depth (t :: ts)).1 := by
  rw [headerWidth]
  dsimp only
  split
  · exact Nat.succ_pos _
  · split
    · exact Nat.succ_pos _
    · split
      · exact Nat.one_pos
      · split
        · exact Nat.one_pos
        · exact Nat.succ_pos _

theorem step_leads_skipDeclaration {s : Reading} {t : Token} (ht : s.cursor.peek = some t) :
    s.cursor.step.Leads s.skipDeclaration.cursor := by
  obtain ⟨rest, hrest⟩ := exists_rest_of_peek ht
  have hpos : 0 < (headerWidth 0 s.cursor.rest).1 := hrest ▸ headerWidth_pos 0 t rest
  have hheader := step_leads_skip s.cursor (.inl hpos)
  rw [skipDeclaration]
  dsimp only
  split
  · exact hheader.trans (moves_skipBlock (s.moveTo _) _).leads
  · exact hheader

theorem step_leads_functionDeclaration (s : Reading) :
    s.cursor.step.Leads s.functionDeclaration.cursor := by
  have hsign := s.cursor.step.leads_eat_getD (·.is "&")
  rw [functionDeclaration]
  dsimp only
  split
  · exact hsign
  · next name c hc =>
    split
    · exact (hsign.trans (leads_name? hc)).trans
        (moves_signature (s.forget.moveTo c) s.pending).leads
    · exact hsign

theorem step_leads_constantDeclaration (s : Reading) :
    s.cursor.step.Leads s.constantDeclaration.cursor := (moves_constants s.forget.step).leads

theorem step_leads_defineCall (s : Reading) : s.cursor.step.Leads s.defineCall.cursor := by
  rw [defineCall]
  dsimp only
  split
  · split
    · exact (((leads_skip _ 3).trans (leads_expression _ [])).trans
        (leads_eat_getD _ (·.is ")"))).trans (leads_dropEnd _)
    · exact .refl _
  · exact .refl _

/-- Every step of the reader passes over the next token. -/
theorem step_leads_tokenAhead {s : Reading} {t : Token} (ht : s.cursor.peek = some t) :
    s.cursor.step.Leads (s.tokenAhead t).cursor := by
  have hturn := s.turn_tokenAhead t
  revert hturn
  generalize s.tokenAhead t = u
  intro hturn
  cases hturn with
  | docComment =>
    rw [docComment]
    dsimp only
    split <;> exact .refl _
  | closes =>
    rw [closeBlock]
    split <;> exact .refl _
  | opens | ends | passed | enumWord => exact .refl _
  | space => exact step_leads_namespaceDeclaration s
  | imports => exact step_leads_useDeclaration s
  | anonymous => exact step_leads_skipDeclaration (s := s.settled.forget) ht
  | «class» _ hword => exact step_leads_classDeclaration (s := s.settled) ht (hword.imp id And.left)
  | interface => exact step_leads_interfaceDeclaration s.settled
  | trait => exact step_leads_traitDeclaration s.settled
  | enum => exact step_leads_skipDeclaration (s := s.settled.forget) ht
  | function => exact step_leads_functionDeclaration s.settled
  | constant => exact step_leads_constantDeclaration s.settled
  | define => exact step_leads_defineCall s.settled
  | «include» => exact step_leads_includeStatement s

theorem length_tokenAhead_lt {s : Reading} {t : Token} (ht : s.cursor.peek = some t) :
    (s.tokenAhead t).cursor.rest.length < s.cursor.rest.length :=
  Nat.lt_of_le_of_lt (step_leads_tokenAhead ht).length_le (length_step_lt (ne_nil_of_peek ht))

/-- Any bound above the number of tokens reads all of them. -/
theorem run_congr {fuel fuel' : Nat} {s : Reading} (h : s.cursor.rest.length < fuel)
    (h' : s.cursor.rest.length < fuel') : run fuel s = run fuel' s := by
  induction fuel generalizing s fuel' with
  | zero => exact absurd h (Nat.not_lt_zero _)
  | succ fuel ih =>
    obtain ⟨fuel', rfl⟩ : ∃ n, fuel' = n + 1 := ⟨fuel' - 1, by omega⟩
    rw [run, run]
    cases ht : s.cursor.peek with
    | none => rfl
    | some t =>
      have hstep := length_tokenAhead_lt ht
      exact ih (by omega) (by omega)

/-- What every step keeps holds when all tokens are read. -/
theorem run_induction {P : Reading → Prop}
    (hstep : ∀ {s : Reading} {t : Token}, s.cursor.peek = some t → P s → P (s.tokenAhead t))
    (fuel : Nat) {s : Reading} (hs : P s) : P (run fuel s) := by
  induction fuel generalizing s with
  | zero => exact hs
  | succ fuel ih =>
    rw [run]
    cases ht : s.cursor.peek with
    | none => exact hs
    | some t => exact ih (hstep ht hs)

end Reading

end ApiDoc
