import ApiDoc.Proofs.Lookahead

/-!
# Statements and another ending

The equations of `Ending` for members, class-likes and statements, up to a whole step of the reader
(`Reading.tokenAhead_swap`).
-/

namespace ApiDoc

/-- The tokens that stay reach as far as a statement looks beyond what it passes over: to the third
token behind it if a parenthesis is the first of them. -/
def Ending.Clear (e : Ending) (c : Cursor) : Prop :=
  e.Fits 3 c ∨ e.Fits 2 c ∧ c.next (·.is "(") = false

/-! ### Members -/

def BodyReading.swap (b : BodyReading) (e : Ending) : BodyReading :=
  { b with state := b.state.swap e }

namespace BodyReading

open Cursor Reading

variable {e : Ending} {b : BodyReading}

@[simp] theorem state_swap (b : BodyReading) (e : Ending) : (b.swap e).state = b.state.swap e := rfl

theorem traitUse_eq (b : BodyReading) : b.traitUse =
    { b with
      state := b.state.references.2.skipBody.forget
      traits := b.traits ++ b.state.references.1
      modifiers := {} } := rfl

theorem traitUse_swap (h : e.Fits 1 b.traitUse.state.cursor) :
    (b.swap e).traitUse = b.traitUse.swap e := by
  have hbody : e.Fits 1 b.state.references.2.skipBody.cursor := h
  have hnames := hbody.back (moves_skipBody _).leads
  rw [traitUse_eq, traitUse_eq, state_swap, references_swap hnames]
  dsimp only
  rw [skipBody_swap hbody]
  rfl

theorem method_swap (h : e.Fits 1 b.method.state.cursor) :
    (b.swap e).method = b.method.swap e := by
  have hb : e.Fits 1 b.state.cursor := h.back (leads_method b)
  rw [method] at h
  rw [method, method, state_swap, cursor_swap, eatPunct_getD_swap hb, moveTo_swap]
  dsimp only at h ⊢
  generalize b.state.moveTo ((b.state.cursor.eatPunct "&").getD b.state.cursor) = s at h ⊢
  have hs : e.Fits 1 s.cursor := by
    refine h.back ?_
    split
    · exact .refl _
    · next name c hc => exact (leads_name? hc).trans (moves_signature (s.forget.moveTo c) _).leads
  rw [cursor_swap, name?_swap hs]
  cases hname : s.cursor.name? with
  | none => rfl
  | some found =>
    obtain ⟨name, c⟩ := found
    rw [hname] at h
    dsimp only [Option.map_some] at h ⊢
    have hsame : (s.swap e).forget.moveTo (c.swap e) = (s.forget.moveTo c).swap e := rfl
    rw [hsame, pending_swap, signature_swap h]
    rfl

theorem defaultAt_swap {c : Cursor} (h : e.Fits 1 (defaultAt c).2) :
    defaultAt (c.swap e) = ((defaultAt c).1, (defaultAt c).2.swap e) := by
  have hc : e.Fits 1 c := h.back (leads_defaultAt c)
  rw [defaultAt] at h
  rw [defaultAt, defaultAt, eatPunct_swap hc]
  cases hsign : c.eatPunct "=" with
  | none => rfl
  | some d =>
    rw [hsign] at h
    dsimp only [Option.map_some] at h ⊢
    rw [expression_swap h]

theorem propertyList_swap {owner : Fqsen} {modifiers : Modifiers} {doc : Option DocBlock}
    {fuel : Nat} {t : Token} {c : Cursor} {members : Members}
    (h : e.Fits 1 (propertyList owner modifiers doc fuel t c members).2) :
    propertyList owner modifiers doc fuel t.bare (c.swap e) members =
      ((propertyList owner modifiers doc fuel t c members).1,
        (propertyList owner modifiers doc fuel t c members).2.swap e) := by
  induction fuel generalizing t c members with
  | zero => rfl
  | succ fuel ih =>
    have hproperty (default : Option String) :
        propertyOf owner modifiers doc t.bare default = propertyOf owner modifiers doc t default :=
      rfl
    rw [propertyList_succ] at h
    rw [propertyList_succ, propertyList_succ]
    dsimp only at h ⊢
    cases hcomma : (defaultAt c).2.eatPunct "," with
    | none =>
      rw [hcomma] at h
      rw [defaultAt_swap h, eatPunct_swap h, hcomma, hproperty]
      rfl
    | some d =>
      rw [hcomma] at h
      dsimp only at h
      have hd : e.Fits 1 d := by
        refine h.back ?_
        split
        · exact .refl d
        · next u f hf => exact (leads_take? hf).trans (leads_propertyList fuel u f _)
      have hvalue : e.Fits 1 (defaultAt c).2 := hd.back (leads_eat hcomma)
      rw [defaultAt_swap hvalue, eatPunct_swap hvalue, hcomma, hproperty]
      dsimp only [Option.map_some]
      rw [take?_swap hd]
      cases hvariable : d.take? .variableName with
      | none => rfl
      | some found =>
        rw [hvariable] at h
        exact ih h

theorem properties_swap {t : Token} (h : e.Fits 1 (b.properties t).state.cursor) :
    (b.swap e).properties t.bare = (b.properties t).swap e := by
  obtain ⟨fuel, hold, hnew⟩ := exists_fuel b.state.cursor (b.state.cursor.swap e)
  rw [properties, propertyList_congr (lt_fuel _) hold] at h
  have hlist : e.Fits 1 (propertyList b.owner b.modifiers b.state.pending fuel t b.state.cursor
      b.members).2 := h.back (leads_dropEnd _)
  rw [properties, properties, propertyList_congr (lt_fuel _) hold, state_swap, cursor_swap,
    propertyList_congr (lt_fuel _) hnew, pending_swap]
  dsimp only
  have hfields : (b.swap e).owner = b.owner ∧ (b.swap e).modifiers = b.modifiers ∧
      (b.swap e).members = b.members := ⟨rfl, rfl, rfl⟩
  rw [hfields.1, hfields.2.1, hfields.2.2, propertyList_swap hlist]
  dsimp only
  rw [dropEnd_swap hlist]
  rfl

theorem constants_swap (h : e.Fits 1 b.constants.state.cursor) :
    (b.swap e).constants = b.constants.swap e := by
  have hlist : e.Fits 1 b.state.forget.constants.2.cursor := h
  have hsame : (b.swap e).state.forget = b.state.forget.swap e := rfl
  rw [constants, constants, hsame, Reading.constants_swap hlist]
  dsimp only
  rw [List.foldl_map]
  rfl

theorem collects_swap {t : Token} (hdoc : t.kind ≠ .docComment) (hvariable : t.kind ≠ .variableName)
    (hend : t.endsStatement = false)
    (hword : t.kind = .name → Text.asciiLower t.text ∉ memberWords) :
    (b.swap e).token t.bare = (b.token t).swap e := by
  by_cases hname : t.kind = .name
  · have hword := hword hname
    rw [token_name (t := t.bare) hname, token_name hname, word, word]
    dsimp only [Token.text_bare, Token.line_bare]
    simp only [memberWords, List.mem_cons, List.not_mem_nil, or_false, not_or] at hword
    split <;> first | rfl | simp_all
  · rw [token_of_kind (t := t.bare) hdoc hname hvariable, token_of_kind hdoc hname hvariable,
      Token.endsStatement_bare, hend]
    have hpunct : isTypePunct t.bare = isTypePunct t := rfl
    rw [hpunct]
    cases isTypePunct t <;> rfl

theorem token_swap {t : Token} (h : e.Fits 1 (b.token t).state.cursor) :
    (b.swap e).token t.bare = (b.token t).swap e := by
  have hturn := b.turn_token t
  revert h hturn
  generalize hd : b.token t = d
  intro h hturn
  cases hturn with
  | docComment hdoc => exact (Turn.docComment (t := t.bare) hdoc).eq
  | traits hk => exact (Turn.traits (t := t.bare) hk).eq.trans (traitUse_swap h)
  | constants hk =>
    refine (Turn.constants (t := t.bare) hk).eq.trans ?_
    have hsame : { b.swap e with modifiers := (b.swap e).modifiers.startAt t.bare.line } =
        swap { b with modifiers := b.modifiers.startAt t.line } e := rfl
    rw [hsame, constants_swap h]
  | method hk =>
    refine (Turn.method (t := t.bare) hk).eq.trans ?_
    have hsame : { b.swap e with modifiers := { (b.swap e).modifiers.startAt t.bare.line with
          isAbstract := (b.swap e).modifiers.isAbstract || (b.swap e).isInterface } } =
        swap { b with modifiers := { b.modifiers.startAt t.line with
          isAbstract := b.modifiers.isAbstract || b.isInterface } } e := rfl
    rw [hsame, method_swap h]
  | case hk =>
    refine (Turn.case (t := t.bare) hk).eq.trans ?_
    have hrest : e.Fits 1 b.state.cursor.skipStatement := h
    rw [state_swap, cursor_swap, skipStatement_swap hrest]
    rfl
  | properties hvariable =>
    refine (Turn.properties (t := t.bare) hvariable).eq.trans ?_
    have hsame : { b.swap e with modifiers := (b.swap e).modifiers.startAt t.bare.line } =
        swap { b with modifiers := b.modifiers.startAt t.line } e := rfl
    rw [hsame, properties_swap h]
  | ends hend => exact (Turn.ends (t := t.bare) hend).eq
  | collects hdoc hvariable hend hword =>
    exact (collects_swap hdoc hvariable hend hword).trans (congrArg (·.swap e) hd)

theorem untilClose_swap {line fuel : Nat} (h : e.Fits 1 (untilClose line fuel b).state.cursor) :
    untilClose line fuel (b.swap e) = (untilClose line fuel b).swap e := by
  induction fuel generalizing b with
  | zero => rfl
  | succ fuel ih =>
    have hb : e.Fits 1 b.state.cursor := h.back (leads_untilClose line (fuel + 1) b)
    rw [untilClose] at h
    rw [untilClose, untilClose, state_swap, cursor_swap, peek_swap hb]
    cases ht : b.state.cursor.peek with
    | none => rfl
    | some t =>
      rw [ht] at h
      dsimp only [Option.map_some] at h ⊢
      rw [swap_step hb, Token.closesBlock_bare]
      by_cases hclose : t.closesBlock = true
      · rw [if_pos hclose, if_pos hclose]
        rfl
      · rw [if_neg hclose] at h
        rw [if_neg hclose, if_neg hclose]
        have htoken : e.Fits 1 (token { b with state := b.state.step } t).state.cursor :=
          h.back (leads_untilClose line fuel _)
        exact (congrArg (untilClose line fuel) (token_swap htoken)).trans (ih h)

end BodyReading

/-! ### Class-likes -/

def Head.swap (h : Head) (e : Ending) : Head := { h with state := h.state.swap e }

namespace Reading

open Cursor
open Ending (Short)

variable {e : Ending} {s : Reading}

theorem classBody_swap {owner : Fqsen} {isInterface : Bool}
    (h : e.Fits 1 (s.classBody owner isInterface).2.cursor) :
    (s.swap e).classBody owner isInterface =
      ((s.classBody owner isInterface).1, (s.classBody owner isInterface).2.swap e) := by
  have hs : e.Fits 1 s.cursor := h.back (leads_classBody s owner isInterface)
  rw [classBody] at h
  rw [classBody, classBody, cursor_swap, eat_swap (fun _ => rfl) hs, line_swap hs]
  cases hopen : s.cursor.eat Token.opensBlock with
  | none => rfl
  | some inner =>
    rw [hopen] at h
    dsimp only [Option.map_some] at h ⊢
    obtain ⟨fuel, hold, hnew⟩ := exists_fuel inner (inner.swap e)
    let b : BodyReading := { owner := owner, isInterface := isInterface, state := s.moveTo inner }
    have hfuel : BodyReading.untilClose s.cursor.line inner.fuel b =
        BodyReading.untilClose s.cursor.line fuel b :=
      BodyReading.untilClose_congr (lt_fuel inner) hold
    have hfuel' : BodyReading.untilClose s.cursor.line (inner.swap e).fuel (b.swap e) =
        BodyReading.untilClose s.cursor.line fuel (b.swap e) :=
      BodyReading.untilClose_congr (lt_fuel (inner.swap e)) hnew
    have hend : e.Fits 1 (BodyReading.untilClose s.cursor.line fuel b).state.cursor := hfuel ▸ h
    have hbody : BodyReading.untilClose s.cursor.line (inner.swap e).fuel (b.swap e) =
        (BodyReading.untilClose s.cursor.line inner.fuel b).swap e := by
      rw [hfuel', hfuel, BodyReading.untilClose_swap hend]
    exact congrArg (fun d : BodyReading => (some (d.members, d.traits), d.state)) hbody

theorem read_swap {head : Head} (h : e.Fits 1 head.read.cursor) :
    (head.swap e).read = head.read.swap e := by
  have hbody : e.Fits 1 (head.state.classBody head.owner head.isInterface).2.cursor := by
    rw [Head.read] at h
    split at h
    · next hnone => exact hnone ▸ h
    · next hsome => exact hsome ▸ h
  have hsame : (head.swap e).state.classBody (head.swap e).owner (head.swap e).isInterface =
      ((head.state.classBody head.owner head.isInterface).1,
        (head.state.classBody head.owner head.isInterface).2.swap e) := classBody_swap hbody
  rw [Head.read, Head.read, hsame]
  rcases head.state.classBody head.owner head.isInterface with ⟨_ | found, u⟩ <;> rfl

def swapHead (r : Reading ⊕ Head) (e : Ending) : Reading ⊕ Head := r.map (·.swap e) (·.swap e)

theorem elim_swapHead {r : Reading ⊕ Head} (h : e.Fits 1 (r.elim id Head.read).cursor) :
    (swapHead r e).elim id Head.read = (r.elim id Head.read).swap e :=
  match r with
  | .inl _ => rfl
  | .inr _ => read_swap h

theorem classModifiers_exchange {front tail new : List Token}
    (h : Short front tail new ((classModifiers (front ++ tail)).2.2 + 1)) :
    classModifiers (front.map Token.bare ++ new) = classModifiers (front ++ tail) := by
  induction front with
  | nil => exact congrArg _ h.eq_of_nil
  | cons t front ih =>
    rw [List.cons_append, classModifiers] at h
    rw [List.cons_append, List.map_cons, List.cons_append, classModifiers, classModifiers]
    simp only [Token.isKeyword_bare] at h ⊢
    grind [Short.of_cons]

theorem classHead_swap (h : e.Fits 1 (endOf s.classHead)) :
    (s.swap e).classHead = swapHead s.classHead e := by
  rw [classHead] at h
  dsimp only at h
  have hafter : e.Fits 1 (s.cursor.skip (classModifiers s.cursor.rest).2.2) := by
    refine h.back ?_
    split
    · exact .refl _
    · next c hc =>
      split
      · exact leads_eat hc
      · next name d hd =>
        exact (leads_eat hc).trans (((leads_name? hd).trans (leads_parentAt s d)).trans
          (moves_listBehind (s.forget.moveTo (s.parentAt d).2) "implements").leads)
  have hwidth := hafter.of_skip
  obtain ⟨front, tail, hsplit, hswap, hshort⟩ := hwidth.split
  have hsame : classModifiers (s.cursor.swap e).rest = classModifiers s.cursor.rest := by
    rw [hsplit] at hshort ⊢
    exact hswap ▸ classModifiers_exchange hshort
  have hs : e.Fits 1 s.cursor := hafter.back (leads_skip _ _)
  rw [classHead, classHead, cursor_swap, hsame, skip_swap (hwidth.mono (Nat.le_succ _)),
    line_swap hs]
  dsimp only
  rw [eatKeyword_swap hafter]
  cases hword : (s.cursor.skip (classModifiers s.cursor.rest).2.2).eatKeyword "class" with
  | none => rfl
  | some c =>
    rw [hword] at h
    dsimp only [Option.map_some] at h ⊢
    have hc : e.Fits 1 c := by
      refine h.back ?_
      split
      · exact .refl _
      · next name d hd =>
        exact ((leads_name? hd).trans (leads_parentAt s d)).trans
          (moves_listBehind (s.forget.moveTo (s.parentAt d).2) "implements").leads
    rw [name?_swap hc]
    cases hname : c.name? with
    | none => rfl
    | some found =>
      obtain ⟨name, d⟩ := found
      rw [hname] at h
      have hlist : e.Fits 1
          ((s.forget.moveTo (s.parentAt d).2).listBehind "implements").2.cursor := h
      have hparent : e.Fits 1 (s.parentAt d).2 := hlist.back (moves_listBehind _ _).leads
      have hstate : (s.swap e).forget.moveTo ((s.parentAt d).2.swap e) =
          (s.forget.moveTo (s.parentAt d).2).swap e := rfl
      dsimp only [Option.map_some, Token.text_bare]
      rw [parentAt_swap hparent]
      dsimp only
      rw [hstate, listBehind_swap hlist]
      rfl

theorem interfaceHead_swap (h : e.Fits 1 (endOf s.interfaceHead)) (hs : e.Fits 1 s.cursor) :
    (s.swap e).interfaceHead = swapHead s.interfaceHead e := by
  have hstep : e.Fits 1 s.cursor.step := h.back (step_leads_interfaceHead s)
  rw [interfaceHead] at h
  rw [interfaceHead, interfaceHead, cursor_swap, line_swap hs, step_swap hs]
  dsimp only at h ⊢
  rw [name?_swap hstep]
  cases hname : s.cursor.step.name? with
  | none => exact congrArg Sum.inl (swap_step hs)
  | some found =>
    obtain ⟨name, c⟩ := found
    rw [hname] at h
    have hlist : e.Fits 1 ((s.forget.moveTo c).listBehind "extends").2.cursor := h
    have hstate : (s.swap e).forget.moveTo (c.swap e) = (s.forget.moveTo c).swap e := rfl
    dsimp only [Option.map_some, Token.text_bare]
    rw [hstate, listBehind_swap hlist]
    rfl

theorem traitHead_swap (h : e.Fits 1 (endOf s.traitHead)) (hs : e.Fits 1 s.cursor) :
    (s.swap e).traitHead = swapHead s.traitHead e := by
  have hstep : e.Fits 1 s.cursor.step := h.back (step_leads_traitHead s)
  rw [traitHead, traitHead, cursor_swap, line_swap hs, step_swap hs]
  dsimp only
  rw [name?_swap hstep]
  cases hname : s.cursor.step.name? with
  | none => exact congrArg Sum.inl (swap_step hs)
  | some found => rfl

/-! ### Statements -/

@[simp] theorem forget_swap (s : Reading) (e : Ending) : (s.swap e).forget = s.forget.swap e := rfl

@[simp] theorem settled_swap (s : Reading) (e : Ending) : (s.swap e).settled = s.settled.swap e :=
  rfl

theorem docComment_swap {t : Token} (h : e.Fits 1 s.cursor) :
    (s.swap e).docComment t.bare = (s.docComment t).swap e := by
  have hbehind : (s.swap e).behindFileDoc = s.behindFileDoc := by
    rw [behindFileDoc, behindFileDoc, cursor_swap, peek_swap h]
    cases s.cursor.peek <;> rfl
  have hsettled : (s.swap e).fileDocSettled = s.fileDocSettled := rfl
  rw [docComment, docComment, hbehind, hsettled]
  cases !s.fileDocSettled && s.behindFileDoc <;> rfl

theorem closeBlock_swap (s : Reading) (e : Ending) :
    (s.swap e).closeBlock = s.closeBlock.swap e := by
  have hblocks : (s.swap e).blocks = s.blocks := rfl
  rw [closeBlock, closeBlock, hblocks]
  cases s.blocks <;> rfl

theorem namespaceDeclaration_swap (h : e.Fits 1 s.namespaceDeclaration.cursor)
    (hs : e.Fits 1 s.cursor) :
    (s.swap e).namespaceDeclaration = s.namespaceDeclaration.swap e := by
  have hstep : e.Fits 1 s.cursor.step := h.back (step_leads_namespaceDeclaration s)
  rw [namespaceDeclaration] at h
  rw [namespaceDeclaration, namespaceDeclaration, cursor_swap, step_swap hs, name?_swap hstep]
  cases hname : s.cursor.step.name? with
  | none =>
    dsimp only [Option.map_none]
    rw [eat_swap (fun _ => rfl) hstep, line_swap hstep, dropEnd_swap hstep]
    cases s.cursor.step.eat Token.opensBlock <;> rfl
  | some found =>
    obtain ⟨t, c⟩ := found
    rw [hname] at h
    dsimp only [Option.map_some] at h ⊢
    have hc : e.Fits 1 c := by
      refine h.back ?_
      split
      · next inner hinner => exact leads_eat hinner
      · exact leads_dropEnd c
    rw [eat_swap (fun _ => rfl) hc, line_swap hc, dropEnd_swap hc]
    cases c.eat Token.opensBlock <;> rfl

theorem useDeclaration_swap (h : e.Fits 1 s.useDeclaration.cursor) (hs : e.Fits 1 s.cursor) :
    (s.swap e).useDeclaration = s.useDeclaration.swap e := by
  have hstep : e.Fits 1 s.forget.step.cursor := h.back (step_leads_useDeclaration s)
  have hforget : e.Fits 1 s.forget.cursor := hs
  rw [useDeclaration] at h
  rw [useDeclaration, useDeclaration, forget_swap, swap_step hforget]
  generalize s.forget.step = u at h hstep ⊢
  dsimp only at h ⊢
  rw [cursor_swap, next_swap (fun _ => rfl) hstep]
  by_cases hword : u.cursor.next (fun t => t.isKeyword "function" || t.isKeyword "const") = true
  · rw [if_pos hword] at h
    rw [if_pos hword, if_pos hword, skipStatement_swap h]
    rfl
  · obtain ⟨fuel, hold, hnew⟩ := exists_fuel u.cursor (u.cursor.swap e)
    rw [if_neg hword, importList_congr (lt_fuel _) hold] at h
    rw [if_neg hword, if_neg hword, importList_congr (lt_fuel _) hold,
      importList_congr (lt_fuel _) hnew, importList_swap (h.back (leads_skipStatement _))]
    dsimp only
    rw [skipStatement_swap h]
    rfl

theorem includeStatement_swap (h : e.Fits 1 s.includeStatement.cursor) (hs : e.Fits 1 s.cursor) :
    (s.swap e).includeStatement = s.includeStatement.swap e := by
  have hvalue : e.Fits 1 (s.cursor.step.expression []).2 := h.back (leads_dropEnd _)
  rw [includeStatement, includeStatement, cursor_swap, step_swap hs, expression_swap hvalue]
  dsimp only
  rw [dropEnd_swap hvalue]
  rfl

theorem classDeclaration_swap (h : e.Fits 1 s.classDeclaration.cursor) :
    (s.swap e).classDeclaration = s.classDeclaration.swap e := by
  rw [classDeclaration_eq] at h
  rw [classDeclaration_eq, classDeclaration_eq, classHead_swap (h.back (endOf_leads _)),
    elim_swapHead h]

theorem interfaceDeclaration_swap (h : e.Fits 1 s.interfaceDeclaration.cursor)
    (hs : e.Fits 1 s.cursor) :
    (s.swap e).interfaceDeclaration = s.interfaceDeclaration.swap e := by
  rw [interfaceDeclaration_eq] at h
  rw [interfaceDeclaration_eq, interfaceDeclaration_eq,
    interfaceHead_swap (h.back (endOf_leads _)) hs, elim_swapHead h]

theorem traitDeclaration_swap (h : e.Fits 1 s.traitDeclaration.cursor) (hs : e.Fits 1 s.cursor) :
    (s.swap e).traitDeclaration = s.traitDeclaration.swap e := by
  rw [traitDeclaration_eq] at h
  rw [traitDeclaration_eq, traitDeclaration_eq, traitHead_swap (h.back (endOf_leads _)) hs,
    elim_swapHead h]

theorem constantDeclaration_swap (h : e.Fits 1 s.constantDeclaration.cursor)
    (hs : e.Fits 1 s.cursor) :
    (s.swap e).constantDeclaration = s.constantDeclaration.swap e := by
  have hlist : e.Fits 1 s.forget.step.constants.2.cursor := h
  have hforget : e.Fits 1 s.forget.cursor := hs
  rw [constantDeclaration, constantDeclaration, cursor_swap, line_swap hs, forget_swap,
    swap_step hforget, constants_swap hlist]
  dsimp only
  rw [List.foldl_map]
  rfl

/-- A word that is no function with a name is passed over after a look at the token behind the
next. -/
theorem functionDeclaration_swap (h : e.Fits 2 s.functionDeclaration.cursor)
    (hs : e.Fits 1 s.cursor) :
    (s.swap e).functionDeclaration = s.functionDeclaration.swap e := by
  have hstep : e.Fits 1 s.cursor.step :=
    (h.back (step_leads_functionDeclaration s)).mono (Nat.le_succ 1)
  rw [functionDeclaration] at h
  rw [functionDeclaration, functionDeclaration, cursor_swap, line_swap hs, step_swap hs,
    eatPunct_getD_swap hstep]
  dsimp only at h ⊢
  generalize (s.cursor.step.eatPunct "&").getD s.cursor.step = c at h ⊢
  cases hname : c.name? with
  | none =>
    rw [hname] at h
    have hc : e.Fits 2 c := h
    rw [name?_swap (hc.mono (Nat.le_succ 1)), hname]
    rfl
  | some found =>
    obtain ⟨name, d⟩ := found
    rw [hname] at h
    dsimp only at h
    by_cases hparen : d.next (·.is "(") = true
    · rw [if_pos hparen] at h
      have hend : e.Fits 1 ((s.forget.moveTo d).signature s.pending).2.2.cursor :=
        h.mono (Nat.le_succ 1)
      have hd : e.Fits 1 d := hend.back (moves_signature (s.forget.moveTo d) _).leads
      rw [name?_swap (hd.back (leads_name? hname)), hname]
      dsimp only [Option.map_some]
      rw [next_swap (fun _ => rfl) hd, if_pos hparen, if_pos hparen, forget_swap, moveTo_swap,
        pending_swap, signature_swap hend]
      rfl
    · rw [if_neg hparen] at h
      have hc : e.Fits 2 c := h
      have hd : e.Fits 1 d := step_eq_of_take? hname ▸ hc.step
      rw [name?_swap (hc.mono (Nat.le_succ 1)), hname]
      dsimp only [Option.map_some]
      rw [next_swap (fun _ => rfl) hd, if_neg hparen, if_neg hparen, moveTo_swap]

theorem defineCall_of_next {s : Reading} (h : s.cursor.step.next (·.is "(") = false) :
    s.defineCall = s.moveTo s.cursor.step := by
  rw [defineCall]
  dsimp only
  split
  · next paren name comma rest hrest =>
    have hparen : paren.is "(" = false := by simpa [next, peek, hrest] using h
    rw [hparen]
    rfl
  · rfl

/-- The three tokens behind the word decide whether it is a definition. -/
theorem defineCall_eq_of_fits (h : e.Fits 3 s.cursor.step) (hs : e.Fits 1 s.cursor)
    (hend : e.Fits 1 s.defineCall.cursor) :
    (s.swap e).defineCall = s.defineCall.swap e := by
  have hsame : (s.swap e).cursor.step = s.cursor.step.swap e := step_swap hs
  rw [defineCall] at hend
  rw [defineCall, defineCall, hsame, cursor_swap, line_swap hs]
  generalize s.cursor.step = c at h hend ⊢
  dsimp only at hend ⊢
  rcases hrest : c.rest with _ | ⟨paren, _ | ⟨name, _ | ⟨comma, ts⟩⟩⟩
  · rw [swap_nil (h.mono (by omega)) hrest]
    rfl
  · rw [swap_cons (h.mono (by omega)) hrest, swap_nil (h.step.mono (by omega)) (by
      rw [step_of_rest hrest])]
    rfl
  · have hstep : c.step.rest = [name] := by rw [step_of_rest hrest]
    rw [swap_cons (h.mono (by omega)) hrest, swap_cons (h.step.mono (by omega)) hstep,
      swap_nil h.step.step (by rw [step_of_rest hstep])]
    rfl
  · have hstep : c.step.rest = name :: comma :: ts := by rw [step_of_rest hrest]
    have hnext : c.step.step.rest = comma :: ts := by rw [step_of_rest hstep]
    rw [hrest] at hend
    rw [swap_cons (h.mono (by omega)) hrest, swap_cons (h.step.mono (by omega)) hstep,
      swap_cons h.step.step hnext]
    dsimp only at hend ⊢
    rw [Token.is_bare, Token.is_bare, Token.kind_bare, Token.text_bare]
    by_cases hcall : (paren.is "(" && name.kind == .literal && comma.is ",") = true
    · rw [if_pos hcall] at hend
      rw [if_pos hcall, if_pos hcall, skip_swap h]
      have hclose := hend.back (leads_dropEnd _)
      have hvalue := hclose.back (leads_eat_getD _ _)
      rw [expression_swap hvalue]
      dsimp only
      rw [eatPunct_getD_swap hvalue, dropEnd_swap hclose]
      rfl
    · rw [if_neg hcall, if_neg hcall, moveTo_swap]

theorem defineCall_cases (s : Reading) : s.defineCall = s.moveTo s.cursor.step ∨
    (s.cursor.step.skip 3).Leads s.defineCall.cursor := by
  rw [defineCall]
  dsimp only
  split
  · split
    · exact .inr (((leads_expression _ []).trans (leads_eat_getD _ (·.is ")"))).trans
        (leads_dropEnd _))
    · exact .inl rfl
  · exact .inl rfl

/-- Of a word that is no definition only the next token is looked at if that is no parenthesis. -/
theorem defineCall_swap (h : e.Fits 3 s.defineCall.cursor ∨
      e.Fits 1 s.defineCall.cursor ∧ s.defineCall.cursor.next (·.is "(") = false)
    (hs : e.Fits 1 s.cursor) :
    (s.swap e).defineCall = s.defineCall.swap e := by
  have hend : e.Fits 1 s.defineCall.cursor := h.elim (·.mono (by omega)) And.left
  rcases h with h | ⟨-, hnext⟩
  · exact defineCall_eq_of_fits (h.back (step_leads_defineCall s)) hs hend
  · rcases defineCall_cases s with hsame | hleads
    · have hplain : s.cursor.step.next (·.is "(") = false := by rwa [hsame] at hnext
      have hplain' : (s.swap e).cursor.step.next (·.is "(") = false := by
        rw [cursor_swap, step_swap hs,
          next_swap (fun _ => rfl) (hend.back (step_leads_defineCall s)), hplain]
      rw [defineCall_of_next hplain, defineCall_of_next hplain', cursor_swap, step_swap hs,
        moveTo_swap]
    · exact defineCall_eq_of_fits ((hend.back hleads).of_skip.mono (by omega)) hs hend

/-! ### Steps -/

theorem previous_any_swap {test : Token → Bool} (htest : ∀ t : Token, test t.bare = test t)
    (s : Reading) (e : Ending) :
    (s.swap e).cursor.previous.any test = s.cursor.previous.any test := by
  have hprevious : (s.swap e).cursor.previous = s.cursor.previous.map Token.bare := rfl
  rw [hprevious, Option.any_map]
  exact congrArg (s.cursor.previous.any ·) (funext htest)

theorem behindAccess_swap (s : Reading) (e : Ending) : (s.swap e).behindAccess = s.behindAccess :=
  previous_any_swap (fun _ => rfl) s e

/-- A step in front of another ending is the same step. -/
theorem tokenAhead_swap {t : Token} (ht : s.cursor.peek = some t)
    (h : e.Clear (s.tokenAhead t).cursor) :
    (s.swap e).tokenAhead t.bare = (s.tokenAhead t).swap e := by
  have hend : e.Fits 2 (s.tokenAhead t).cursor := h.elim (·.mono (by omega)) And.left
  have hstep : e.Fits 2 s.cursor.step := hend.back (step_leads_tokenAhead ht)
  have hstart : e.Fits 2 s.cursor := hstep.back (leads_step _)
  have hs : e.Fits 1 s.cursor := hstart.mono (by omega)
  have hforget : e.Fits 1 s.forget.cursor := hs
  have haccess := behindAccess_swap s e
  have hturn := s.turn_tokenAhead t
  revert h hend hturn
  generalize s.tokenAhead t = u
  intro h hend hturn
  have hu : e.Fits 1 u.cursor := hend.mono (by omega)
  cases hturn with
  | docComment hdoc =>
    refine (Turn.docComment (t := t.bare) hdoc).eq.trans ?_
    rw [swap_step hs, docComment_swap (hstep.mono (by omega))]
  | opens hopens =>
    refine (Turn.opens (t := t.bare) hopens).eq.trans ?_
    rw [forget_swap, swap_step hforget]
    rfl
  | closes hcloses =>
    refine (Turn.closes (t := t.bare) hcloses).eq.trans ?_
    rw [forget_swap, swap_step hforget, closeBlock_swap]
  | ends hends =>
    refine (Turn.ends (t := t.bare) hends).eq.trans ?_
    rw [forget_swap, swap_step hforget]
  | passed hdoc hopens hcloses hends hword =>
    exact (Turn.passed (t := t.bare) hdoc hopens hcloses hends (haccess ▸ hword)).eq.trans
      (swap_step hs)
  | space hplain hk =>
    exact (Turn.space (t := t.bare) (haccess.trans hplain) hk).eq.trans
      (namespaceDeclaration_swap hu hs)
  | imports hplain hk =>
    exact (Turn.imports (t := t.bare) (haccess.trans hplain) hk).eq.trans
      (useDeclaration_swap hu hs)
  | anonymous hplain hk hnew =>
    refine (Turn.anonymous (t := t.bare) (haccess.trans hplain) hk
      ((previous_any_swap (fun _ => rfl) s e).trans hnew)).eq.trans ?_
    rw [settled_swap, forget_swap, skipDeclaration_swap hu]
  | «class» hplain hk =>
    refine (Turn.class (t := t.bare) (haccess.trans hplain) (hk.imp id fun hk =>
      ⟨hk.1, (previous_any_swap (fun _ => rfl) s e).trans hk.2⟩)).eq.trans ?_
    rw [settled_swap, classDeclaration_swap hu]
  | interface hplain hk =>
    refine (Turn.interface (t := t.bare) (haccess.trans hplain) hk).eq.trans ?_
    rw [settled_swap, interfaceDeclaration_swap hu hs]
  | trait hplain hk =>
    refine (Turn.trait (t := t.bare) (haccess.trans hplain) hk).eq.trans ?_
    rw [settled_swap, traitDeclaration_swap hu hs]
  | enum hplain hk hnext =>
    have hsame : ((s.swap e).cursor.peekAt 1).any (·.kind == .name) = true := by
      rw [cursor_swap, peekAt_swap hstart, Option.any_map, ← hnext]
      rfl
    refine (Turn.enum (t := t.bare) (haccess.trans hplain) hk hsame).eq.trans ?_
    rw [settled_swap, forget_swap, skipDeclaration_swap hu]
  | enumWord hplain hk hnext =>
    have hsame : ((s.swap e).cursor.peekAt 1).any (·.kind == .name) = false := by
      rw [cursor_swap, peekAt_swap hstart, Option.any_map, ← hnext]
      rfl
    refine (Turn.enumWord (t := t.bare) (haccess.trans hplain) hk hsame).eq.trans ?_
    rw [settled_swap, swap_step (s := s.settled) hs]
  | function hplain hk =>
    refine (Turn.function (t := t.bare) (haccess.trans hplain) hk).eq.trans ?_
    rw [settled_swap, functionDeclaration_swap hend hs]
  | constant hplain hk =>
    refine (Turn.constant (t := t.bare) (haccess.trans hplain) hk).eq.trans ?_
    rw [settled_swap, constantDeclaration_swap hu hs]
  | define hplain hk =>
    refine (Turn.define (t := t.bare) (haccess.trans hplain) hk).eq.trans ?_
    rw [settled_swap, defineCall_swap (h.imp id fun h => ⟨hu, h.2⟩) hs]
  | «include» hplain hk =>
    exact (Turn.include (t := t.bare) (haccess.trans hplain) hk).eq.trans
      (includeStatement_swap hu hs)

/-! ### Byte positions -/

theorem clear_none (c : Cursor) : Ending.none.Clear c := .inl (.none 3 c)

/-- The reader reads the same without byte positions. -/
theorem run_bare (fuel : Nat) (s : Reading) :
    run fuel (s.swap .none) = (run fuel s).swap .none := by
  induction fuel generalizing s with
  | zero => rfl
  | succ fuel ih =>
    rw [run, run, cursor_swap, peek_swap (.none 1 _)]
    cases ht : s.cursor.peek with
    | none => rfl
    | some t =>
      dsimp only [Option.map_some]
      rw [tokenAhead_swap ht (clear_none _), ih]

end Reading

end ApiDoc
