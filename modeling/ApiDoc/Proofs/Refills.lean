import ApiDoc.Proofs.Traces

/-!
# Other contents of a block

The contents of a block are exchanged (`Ending.Refills`). Behind a block that is passed over as a
whole nothing is left of the difference but the closing brace as the token behind the place: this
is so for the body of a function and of a method, for the block of a declaration that is not
documented, and for a block within what is passed over by counting brackets. In the first cases it
is enough that the braces of both contents match, in the last one all brackets have to.
-/

namespace ApiDoc

/-! ### Contents of a block -/

/-- Tokens whose braces match. -/
inductive Balanced : List Token → Prop
  | nil : Balanced []
  | token {t : Token} {ts : List Token} :
    t.opensBlock = false → t.closesBlock = false → Balanced ts → Balanced (t :: ts)
  | block {o c : Token} {inner ts : List Token} : o.opensBlock = true → c.closesBlock = true →
    Balanced inner → Balanced ts → Balanced (o :: (inner ++ c :: ts))

theorem Balanced.bare {ts : List Token} (h : Balanced ts) : Balanced (ts.map Token.bare) := by
  induction h with
  | nil => exact .nil
  | token hopens hcloses _ ih => exact .token hopens hcloses ih
  | block ho hc _ _ ihinner ih =>
    rw [List.map_cons, List.map_append, List.map_cons]
    exact .block ho hc ihinner ih

theorem Nested.bare {ts : List Token} (h : Nested ts) : Nested (ts.map Token.bare) := by
  induction h with
  | nil => exact .nil
  | token hopens hcloses _ ih => exact .token hopens hcloses ih
  | group hpairs _ _ ihinner ih =>
    rw [List.map_cons, List.map_append, List.map_cons]
    exact .group hpairs ihinner ih

namespace Cursor

theorem blockWidth_opens {t : Token} (h : t.opensBlock = true) (depth : Nat) (ts : List Token) :
    blockWidth depth (t :: ts) = (blockWidth (depth + 1) ts).map (· + 1) := by
  rw [blockWidth.eq_def]
  simp only [h, if_true]

theorem blockWidth_closes {t : Token} (h : t.closesBlock = true) (depth : Nat) (ts : List Token) :
    blockWidth (depth + 1) (t :: ts) = (blockWidth depth ts).map (· + 1) := by
  have hopens : t.opensBlock = false := Token.is_eq_false h (by decide)
  rw [blockWidth.eq_def]
  simp [hopens, h]

theorem blockWidth_balanced {ts : List Token} (h : Balanced ts) (depth : Nat)
    (rest : List Token) :
    blockWidth depth (ts ++ rest) = (blockWidth depth rest).map (· + ts.length) := by
  induction h generalizing depth rest with
  | nil => simp
  | token hopens hcloses _ ih =>
    rw [List.cons_append, blockWidth_token hopens hcloses, ih, Option.map_map]
    rfl
  | @block o c inner ts ho hc _ _ ihinner ih =>
    rw [List.cons_append, List.append_assoc, List.cons_append, blockWidth_opens ho, ihinner,
      blockWidth_closes hc, ih, Option.map_map, Option.map_map, Option.map_map]
    refine congrArg ((blockWidth depth rest).map ·) (funext fun n => ?_)
    simp only [Function.comp, List.length_cons, List.length_append]
    omega

/-- The tokens in front of one that a statement goes on to count in any case, and leave a number of
brackets open. -/
theorem statementWidth_split {mid : List Token} {depth : Nat} {rest : List Token}
    (h : mid.length < statementWidth depth (mid ++ rest)) :
    ∃ inner, ∀ ts, statementWidth depth (mid ++ ts) = statementWidth inner ts + mid.length := by
  induction mid generalizing depth with
  | nil => exact ⟨depth, fun _ => rfl⟩
  | cons t mid ih =>
    have hnext {more : Nat} (hstep : ∀ ts, statementWidth depth (t :: ts) =
        statementWidth more ts + 1) : ∃ inner, ∀ ts, statementWidth depth (t :: mid ++ ts) =
          statementWidth inner ts + (t :: mid).length := by
      rw [List.cons_append, hstep, List.length_cons] at h
      obtain ⟨inner, hinner⟩ := ih (Nat.lt_of_succ_lt_succ h)
      refine ⟨inner, fun ts => ?_⟩
      rw [List.cons_append, hstep, hinner, List.length_cons, Nat.add_assoc]
    cases hopens : t.opens with
    | true => exact hnext (statementWidth_opens hopens depth)
    | false =>
      cases hcloses : t.closes with
      | true =>
        cases depth with
        | zero =>
          rw [List.cons_append, statementWidth.eq_def] at h
          simp [hopens, hcloses] at h
        | succ outer => exact hnext (statementWidth_closes hcloses outer)
      | false =>
        by_cases hend : 0 < depth ∨ t.endsStatement = false
        · exact hnext (statementWidth_token hopens hcloses hend)
        · obtain ⟨hdepth, hend⟩ := not_or.mp hend
          rw [List.cons_append, statementWidth.eq_def] at h
          simp [hopens, hcloses, Nat.eq_zero_of_not_pos hdepth,
            eq_true_of_ne_false hend] at h

theorem headerWidth_split {mid : List Token} {depth : Nat} {rest : List Token}
    (h : mid.length < (headerWidth depth (mid ++ rest)).1) :
    ∃ inner, ∀ ts, headerWidth depth (mid ++ ts) =
      ((headerWidth inner ts).1 + mid.length, (headerWidth inner ts).2) := by
  induction mid generalizing depth with
  | nil => exact ⟨depth, fun _ => rfl⟩
  | cons t mid ih =>
    have hnext {more : Nat} (hstep : ∀ ts, headerWidth depth (t :: ts) =
        ((headerWidth more ts).1 + 1, (headerWidth more ts).2)) :
        ∃ inner, ∀ ts, headerWidth depth (t :: mid ++ ts) =
          ((headerWidth inner ts).1 + (t :: mid).length, (headerWidth inner ts).2) := by
      rw [List.cons_append, hstep, List.length_cons] at h
      obtain ⟨inner, hinner⟩ := ih (Nat.lt_of_succ_lt_succ h)
      refine ⟨inner, fun ts => ?_⟩
      rw [List.cons_append, hstep, hinner, List.length_cons, Nat.add_assoc]
    by_cases hopen : t.is "(" = true
    · exact hnext (headerWidth_open hopen depth)
    by_cases hclose : t.is ")" = true
    · have hstep (ts : List Token) : headerWidth depth (t :: ts) =
          ((headerWidth (depth - 1) ts).1 + 1, (headerWidth (depth - 1) ts).2) := by
        rw [headerWidth.eq_def]
        simp [hopen, hclose]
      exact hnext hstep
    by_cases hpass : 0 < depth ∨ t.opensBlock = false ∧ t.endsStatement = false
    · exact hnext (headerWidth_token (Bool.eq_false_iff.mpr hopen)
        (Bool.eq_false_iff.mpr hclose) hpass)
    · obtain ⟨hdepth, hend⟩ := not_or.mp hpass
      rw [List.cons_append, headerWidth.eq_def] at h
      cases hblock : t.opensBlock with
      | true => simp [hopen, hclose, Nat.eq_zero_of_not_pos hdepth, hblock] at h
      | false => simp_all [Nat.eq_zero_of_not_pos hdepth]

end Cursor

/-- The ending puts other tokens into a block, and keeps what stands behind it but for the byte
positions. -/
def Ending.Refills (e : Ending) (Inside : List Token → Prop) (rest : List Token) : Prop :=
  ∃ body close body' close' back, rest = body ++ close :: back ∧
    e = ⟨rest.length, body' ++ close' :: back.map Token.bare⟩ ∧
    close.closesBlock = true ∧ close'.closesBlock = true ∧ Inside body ∧ Inside body'

namespace Reading

open Cursor

variable {e : Ending} {s u : Reading} {rest : List Token}

theorem fits_of_refills {Inside : List Token → Prop} {c : Cursor} {n : Nat}
    (h : e.Refills Inside rest) (hc : rest.length + n ≤ c.rest.length) : e.Fits n c := by
  obtain ⟨body, close, body', close', back, -, rfl, -⟩ := h
  exact .inl hc

theorem fits_of_block {Inside : List Token → Prop} {c : Cursor} {mid : List Token} {o : Token}
    (h : e.Refills Inside rest) (hc : c.rest = mid ++ o :: rest) : e.Fits (mid.length + 1) c := by
  refine fits_of_refills h ?_
  rw [hc, List.length_append, List.length_cons]
  omega

theorem fits_of_brace {Inside : List Token → Prop} {c : Cursor} {o : Token}
    (h : e.Refills Inside rest) (hc : c.rest = o :: rest) : e.Fits 1 c :=
  fits_of_refills h (Nat.le_of_eq (congrArg List.length hc).symm)

theorem skipBlock_balanced {body back : List Token} {close : Token}
    (hs : s.cursor.rest = body ++ close :: back) (hbody : Balanced body)
    (hclose : close.closesBlock = true) (line : Nat) :
    s.skipBlock line = s.moveTo ⟨some close, back⟩ := by
  have hwidth : blockWidth 0 (body ++ close :: back) = some (body.length + 1) := by
    have hopens : close.opensBlock = false := Token.is_eq_false hclose (by decide)
    rw [blockWidth_balanced hbody, blockWidth.eq_def]
    simp [hopens, hclose, Nat.add_comm]
  rw [skipBlock, hs, hwidth]
  dsimp only
  rw [skip_concat hs]

theorem shown_eq_of_closesBlock {t u : Token} (ht : t.closesBlock = true)
    (hu : u.closesBlock = true) : t.shown = u.shown := by
  rw [Token.shown, Token.shown, Token.kind_of_is ht, Token.kind_of_is hu,
    (Token.is_eq_true.mp ht).2, (Token.is_eq_true.mp hu).2]

/-- Behind a block there is no difference left. -/
theorem near_behind (s : Reading) {close close' : Token} (hclose : close.closesBlock = true)
    (hclose' : close'.closesBlock = true) (back : List Token) :
    Near ((s.moveTo ⟨some close, back⟩).swap .none)
      (s.moveTo ⟨some close', back.map Token.bare⟩) := by
  have hback : (Cursor.swap ⟨some close, back⟩ .none).rest = back.map Token.bare :=
    rest_swap_none _
  refine ⟨some close', congrArg some (shown_eq_of_closesBlock hclose' hclose), ?_⟩
  rw [retrace, swap_moveTo]
  exact congrArg (fun ts => s.moveTo ⟨some close', ts⟩) hback.symm

theorem skipBlock_refill (h : e.Refills Balanced rest) (hs : s.cursor.rest = rest) (line : Nat) :
    ((s.skipBlock line).swap .none).Near ((s.swap e).skipBlock line) := by
  obtain ⟨body, close, body', close', back, rfl, rfl, hclose, hclose', hbody, hbody'⟩ := h
  have hnew : (s.cursor.swap ⟨(body ++ close :: back).length,
      body' ++ close' :: back.map Token.bare⟩).rest = body' ++ close' :: back.map Token.bare := by
    simp [Cursor.swap, hs]
  rw [skipBlock_balanced hs hbody hclose, skipBlock_balanced hnew hbody' hclose']
  exact near_behind s hclose hclose' back

theorem Near.withFile (h : s.Near u) (g : File → File) :
    Near { s with file := g s.file } { u with file := g u.file } := by
  obtain ⟨p, hp, rfl⟩ := h
  exact ⟨p, hp, rfl⟩

/-! ### Bodies of functions -/

theorem skipBody_refill {o : Token} (h : e.Refills Balanced rest) (hs : s.cursor.rest = o :: rest)
    (ho : o.opensBlock = true) : ((s.skipBody).swap .none).Near ((s.swap e).skipBody) := by
  have hfits : e.Fits 1 s.cursor := fits_of_brace h hs
  have heat : s.cursor.eat Token.opensBlock = some ⟨some o, rest⟩ := eat_of_rest hs ho
  rw [skipBody, skipBody, cursor_swap, eat_swap (fun _ => rfl) hfits, line_swap hfits, heat]
  exact skipBlock_refill (s := s.moveTo ⟨some o, rest⟩) h rfl s.cursor.line

/-- Right behind the name of a function, these are the tokens behind the opening brace of its
body. -/
def BodyBehind (c : Cursor) (rest : List Token) : Prop :=
  ∃ o, (Reader.returnTypes (Reader.parameters none c).after).2.rest = o :: rest ∧
    o.opensBlock = true

theorem after_parameters (doc : Option DocBlock) (c : Cursor) :
    (Reader.parameters doc c).after = (Reader.parameters none c).after := by
  rw [Reader.parameters, Reader.parameters]
  cases c.eatPunct "(" <;> rfl

theorem BodyBehind.fits {Inside : List Token → Prop} {c : Cursor} (hbody : BodyBehind c rest)
    (h : e.Refills Inside rest) : e.Fits 1 c := by
  obtain ⟨o, hrest, -⟩ := hbody
  exact ((fits_of_brace h hrest).back (Reader.leads_returnTypes _)).back
    (Reader.leads_parameters none c)

theorem signature_refill (doc : Option DocBlock) (h : e.Refills Balanced rest)
    (hbody : BodyBehind s.cursor rest) :
    ((s.swap e).signature doc).1 = (s.signature doc).1 ∧
      ((s.swap e).signature doc).2.1 = (s.signature doc).2.1 ∧
      ((s.signature doc).2.2.swap .none).Near ((s.swap e).signature doc).2.2 := by
  obtain ⟨o, hrest, ho⟩ := hbody
  rw [← after_parameters doc] at hrest
  have htypes : e.Fits 1 (Reader.returnTypes (Reader.parameters doc s.cursor).after).2 :=
    fits_of_brace h hrest
  have hlist := htypes.back (Reader.leads_returnTypes _)
  rw [signature, signature, cursor_swap, Reader.parameters_swap hlist]
  dsimp only
  rw [Reader.returnTypes_swap htypes]
  refine ⟨rfl, rfl, ?_⟩
  dsimp only
  cases (Reader.parameters doc s.cursor).unclosed with
  | none => exact skipBody_refill (s := s.moveTo _) h hrest ho
  | some line => exact skipBody_refill (s := (s.report line _).moveTo _) h hrest ho

theorem name?_behind_swap {c d : Cursor} {name : Token}
    (hname : ((c.eatPunct "&").getD c).name? = some (name, d)) (hd : e.Fits 1 d) :
    (((c.swap e).eatPunct "&").getD (c.swap e)).name? = some (name.bare, d.swap e) := by
  have hsign := hd.back (leads_name? hname)
  rw [eatPunct_getD_swap (hsign.back (leads_eat_getD c (·.is "&"))), name?_swap hsign, hname]
  rfl

theorem functionDeclaration_refill {name : Token} {d : Cursor} (h : e.Refills Balanced rest)
    (hname : ((s.cursor.step.eatPunct "&").getD s.cursor.step).name? = some (name, d))
    (hparen : d.next (·.is "(") = true) (hbody : BodyBehind d rest) :
    (s.functionDeclaration.swap .none).Near (s.swap e).functionDeclaration := by
  have hd : e.Fits 1 d := hbody.fits h
  have hstep := (hd.back (leads_name? hname)).back (leads_eat_getD s.cursor.step (·.is "&"))
  have hs := hstep.back (leads_step _)
  have hparen' : (d.swap e).next (·.is "(") = true := (next_swap (fun _ => rfl) hd).trans hparen
  have hname' : (((s.swap e).cursor.step.eatPunct "&").getD (s.swap e).cursor.step).name? =
      some (name.bare, d.swap e) := by
    rw [cursor_swap, step_swap hs]
    exact name?_behind_swap hname hd
  obtain ⟨harguments, htypes, hnear⟩ := signature_refill (s := s.forget.moveTo d) s.pending h hbody
  rw [functionDeclaration, functionDeclaration]
  dsimp only
  rw [hname, hname']
  dsimp only
  rw [if_pos hparen, if_pos hparen', forget_swap, moveTo_swap, pending_swap, harguments, htypes,
    cursor_swap, line_swap hs]
  exact hnear.withFile fun f => f.addFunction _

/-! ### Blocks in the rest of a statement -/

theorem skip_of_nil {c : Cursor} (hc : c.rest = []) (n : Nat) : c.skip n = c := by
  induction n with
  | zero => rfl
  | succ n ih => rw [skip, step_of_nil hc, ih]

theorem Near.skip (h : s.Near u) (n : Nat) :
    Near (s.moveTo (s.cursor.skip n)) (u.moveTo (u.cursor.skip n)) := by
  obtain ⟨p, hp, rfl⟩ := h
  cases n with
  | zero => exact ⟨p, hp, rfl⟩
  | succ n =>
    by_cases hend : s.cursor.rest = []
    · have hend' : (s.retrace p).cursor.rest = [] := hend
      rw [skip_of_nil hend, skip_of_nil hend']
      exact ⟨p, hp, rfl⟩
    · rw [skip_retrace hend p (Nat.succ_pos n)]
      exact .refl _

theorem rest_swap_refill {c : Cursor} {mid : List Token} {o : Token} {new : List Token}
    (hc : c.rest = mid ++ o :: rest) :
    (c.swap ⟨rest.length, new⟩).rest = mid.map Token.bare ++ o.bare :: new := by
  have hlength : c.rest.length - rest.length = mid.length + 1 := by
    rw [hc, List.length_append, List.length_cons]
    omega
  rw [Cursor.swap, hlength, hc, List.take_length_add_append]
  simp

/-- Passing over a block with another inside, and over the same number of tokens behind it. -/
theorem skip_refill {c : Cursor} {mid : List Token} {o : Token}
    {body back body' : List Token} {close close' : Token}
    (hc : c.rest = mid ++ o :: (body ++ close :: back)) (hclose : close.closesBlock = true)
    (hclose' : close'.closesBlock = true) (n : Nat) :
    let e : Ending := ⟨(body ++ close :: back).length, body' ++ close' :: back.map Token.bare⟩
    Near ((s.moveTo (c.skip (mid.length + (body.length + 2) + n))).swap .none)
      (s.moveTo ((c.swap e).skip (mid.length + (body'.length + 2) + n))) := by
  have hold : c.skip (mid.length + (body.length + 2)) = ⟨some close, back⟩ := by
    have hrest : c.rest = (mid ++ o :: body) ++ close :: back := by
      rw [hc, List.append_assoc, List.cons_append]
    rw [← skip_concat hrest, List.length_append, List.length_cons]
    rfl
  have hnew : (c.swap ⟨(body ++ close :: back).length, body' ++ close' :: back.map Token.bare⟩).skip
      (mid.length + (body'.length + 2)) = ⟨some close', back.map Token.bare⟩ := by
    have hrest : (c.swap ⟨(body ++ close :: back).length,
        body' ++ close' :: back.map Token.bare⟩).rest =
        (mid.map Token.bare ++ o.bare :: body') ++ close' :: back.map Token.bare := by
      rw [rest_swap_refill hc, List.append_assoc, List.cons_append]
    have hlength : (mid.map Token.bare ++ o.bare :: body').length + 1 =
        mid.length + (body'.length + 2) := by
      rw [List.length_append, List.length_map, List.length_cons]
      rfl
    rw [← hlength, skip_concat hrest]
  dsimp only
  rw [skip_add, hold, skip_add, hnew, swap_moveTo, ← skip_swap (.none n _)]
  exact (near_behind s hclose hclose' back).skip n

/-- The tokens with another inside, but for the byte positions. -/
theorem bare_refill (mid : List Token) (o : Token) (body' : List Token) (close' : Token)
    (back : List Token) :
    (mid.map Token.bare ++ o.bare :: (body' ++ close' :: back.map Token.bare)).map Token.bare =
      (mid ++ o :: (body' ++ close' :: back)).map Token.bare := by
  have htwice : Token.bare ∘ Token.bare = Token.bare := funext Token.bare_bare
  simp [htwice]

theorem statementWidth_bare (depth : Nat) (ts : List Token) :
    statementWidth depth (ts.map Token.bare) = statementWidth depth ts := by
  have hsame : statementWidth depth (ts.map Token.bare ++ []) = statementWidth depth (ts ++ []) :=
    statementWidth_exchange (.inr ⟨rfl, rfl⟩)
  rwa [List.append_nil, List.append_nil] at hsame

theorem statementWidth_block {o close : Token} {body : List Token} (ho : o.opensBlock = true)
    (hclose : close.closesBlock = true) (hbody : Nested body) (depth : Nat) (back : List Token) :
    statementWidth depth (o :: (body ++ close :: back)) =
      statementWidth depth back + (body.length + 2) := by
  have hpairs : o.Pairs close := .inr (.inr ⟨ho, hclose⟩)
  rw [statementWidth_opens hpairs.opens, hbody.count_append counts_statementWidth,
    statementWidth_closes hpairs.closes]
  omega

/-- The rest of a statement has a block in it; these are the tokens behind the opening brace. -/
def HasBlock (c : Cursor) (rest : List Token) : Prop :=
  ∃ mid o, c.rest = mid ++ o :: rest ∧ o.opensBlock = true ∧
    mid.length < statementWidth 0 c.rest

theorem HasBlock.fits {Inside : List Token → Prop} {c : Cursor} (hblock : HasBlock c rest)
    (h : e.Refills Inside rest) : e.Fits 1 c := by
  obtain ⟨mid, o, hrest, -, -⟩ := hblock
  exact (fits_of_block h hrest).mono (Nat.le_add_left 1 _)

theorem skipStatement_refill (s : Reading) {c : Cursor} (h : e.Refills Nested rest)
    (hblock : HasBlock c rest) :
    Near ((s.moveTo c.skipStatement).swap .none) (s.moveTo (c.swap e).skipStatement) := by
  obtain ⟨mid, o, hrest, ho, hwidth⟩ := hblock
  obtain ⟨body, close, body', close', back, rfl, rfl, hclose, hclose', hbody, hbody'⟩ := h
  rw [hrest] at hwidth
  obtain ⟨inner, hinner⟩ := statementWidth_split hwidth
  have hold : statementWidth 0 c.rest =
      mid.length + (body.length + 2) + statementWidth inner back := by
    rw [hrest, hinner, statementWidth_block ho hclose hbody]
    omega
  have hnew : statementWidth 0 (c.swap ⟨(body ++ close :: back).length,
      body' ++ close' :: back.map Token.bare⟩).rest =
      mid.length + (body'.length + 2) + statementWidth inner back := by
    rw [rest_swap_refill hrest, ← statementWidth_bare, bare_refill, statementWidth_bare, hinner,
      statementWidth_block ho hclose' hbody']
    omega
  rw [skipStatement, skipStatement, hold, hnew]
  exact skip_refill hrest hclose hclose' _

/-- Constants are read up to a block in the rest of their statement. -/
theorem constants_refill (h : e.Refills Nested rest) (hblock : HasBlock s.behindConstants rest) :
    ∃ u, (s.swap e).constants = (s.constants.1.map fun p => (p.1.bare, p.2), u) ∧
      (s.constants.2.swap .none).Near u := by
  rw [constants, cursor_swap, constantList_fuel_swap (hblock.fits h)]
  exact ⟨_, rfl, skipStatement_refill s h hblock⟩

theorem constantDeclaration_refill (h : e.Refills Nested rest)
    (hblock : HasBlock s.step.behindConstants rest) :
    (s.constantDeclaration.swap .none).Near (s.swap e).constantDeclaration := by
  have hstep : e.Fits 1 s.cursor.step := (hblock.fits h).back (leads_constantList _ _)
  have hs : e.Fits 1 s.cursor := hstep.back (leads_step _)
  have hforget : e.Fits 1 s.forget.cursor := hs
  obtain ⟨u, hlist, p, hp, rfl⟩ := constants_refill (s := s.forget.step) h hblock
  rw [constantDeclaration, constantDeclaration, cursor_swap, line_swap hs, forget_swap,
    swap_step hforget, hlist]
  dsimp only
  rw [List.foldl_map]
  exact ⟨p, hp, rfl⟩

/-- The place behind the names of an import, which is passed over from there to the end of the
statement. -/
def behindImports (s : Reading) : Cursor :=
  if s.cursor.step.next (fun t => t.isKeyword "function" || t.isKeyword "const") then s.cursor.step
  else (importList s.cursor.step.fuel s.cursor.step).2

/-- What is read of imports does not depend on the place that is come to. -/
theorem useDeclaration_swap_of_fits (h : e.Fits 1 s.behindImports) (hs : e.Fits 1 s.cursor) :
    ∃ v : Reading, s.useDeclaration = v.moveTo s.behindImports.skipStatement ∧
      (s.swap e).useDeclaration = v.moveTo (s.behindImports.swap e).skipStatement := by
  have hforget : e.Fits 1 s.forget.cursor := hs
  have hsame : s.forget.step.cursor = s.cursor.step := rfl
  rw [behindImports] at h ⊢
  rw [useDeclaration, useDeclaration, forget_swap, swap_step hforget]
  dsimp only
  rw [cursor_swap, hsame]
  by_cases hword :
      s.cursor.step.next (fun t => t.isKeyword "function" || t.isKeyword "const") = true
  · rw [if_pos hword] at h
    rw [next_swap (fun _ => rfl) h, if_pos hword, if_pos hword, if_pos hword]
    exact ⟨s.forget, rfl, rfl⟩
  · rw [if_neg hword] at h
    have hstep : e.Fits 1 s.cursor.step := h.back (leads_importList _ _)
    obtain ⟨fuel, hold, hnew⟩ := exists_fuel s.cursor.step (s.cursor.step.swap e)
    rw [importList_congr (lt_fuel _) hold] at h
    rw [next_swap (fun _ => rfl) hstep, if_neg hword, if_neg hword, if_neg hword,
      importList_congr (lt_fuel _) hold, importList_congr (lt_fuel _) hnew, importList_swap h]
    exact ⟨{ s.forget with file := { s.file with
      aliases := (importList fuel s.cursor.step).1.foldl (fun m item => m.insert item.1 item.2)
        s.file.aliases } }, rfl, rfl⟩

theorem useDeclaration_refill (h : e.Refills Nested rest)
    (hblock : HasBlock s.behindImports rest) :
    (s.useDeclaration.swap .none).Near (s.swap e).useDeclaration := by
  have hleads : s.cursor.step.Leads s.behindImports := by
    rw [behindImports]
    split
    · exact .refl _
    · exact leads_importList _ _
  have hs : e.Fits 1 s.cursor := ((hblock.fits h).back hleads).back (leads_step _)
  obtain ⟨v, hv, hv'⟩ := useDeclaration_swap_of_fits (hblock.fits h) hs
  rw [hv, hv']
  exact skipStatement_refill v h hblock

/-! ### Declarations that are not documented -/

theorem skipDeclaration_refill {o : Token} {mid : List Token} (h : e.Refills Balanced rest)
    (hs : s.cursor.rest = mid ++ o :: rest)
    (hwidth : headerWidth 0 s.cursor.rest = (mid.length + 1, some o.line)) :
    (s.skipDeclaration.swap .none).Near (s.swap e).skipDeclaration := by
  have hfits : e.Fits (mid.length + 1) s.cursor := fits_of_block h hs
  obtain ⟨front, tail, hsplit, hswap, hshort⟩ := hfits.split
  have hsame : headerWidth 0 (s.cursor.swap e).rest = (mid.length + 1, some o.line) := by
    rw [← hwidth, hsplit, hswap]
    refine headerWidth_exchange ?_
    rw [← hsplit, hwidth]
    exact hshort
  rw [skipDeclaration, skipDeclaration, cursor_swap, hsame, hwidth]
  dsimp only
  rw [skip_swap hfits, skip_concat hs]
  exact skipBlock_refill (s := s.moveTo ⟨some o, rest⟩) h rfl o.line

theorem headerWidth_bare (depth : Nat) (ts : List Token) :
    headerWidth depth (ts.map Token.bare) = headerWidth depth ts := by
  have hsame : headerWidth depth (ts.map Token.bare ++ []) = headerWidth depth (ts ++ []) :=
    headerWidth_exchange (.inr ⟨rfl, rfl⟩)
  rwa [List.append_nil, List.append_nil] at hsame

/-- A block in parentheses counts as a whole. -/
theorem headerWidth_block {o close : Token} {body : List Token} (ho : o.opensBlock = true)
    (hclose : close.closesBlock = true) (hbody : Nested body) (depth : Nat) (back : List Token) :
    headerWidth (depth + 1) (o :: (body ++ close :: back)) =
      ((headerWidth (depth + 1) back).1 + (body.length + 2), (headerWidth (depth + 1) back).2) := by
  have hgroup : Nested (o :: (body ++ [close])) := .group (.inr (.inr ⟨ho, hclose⟩)) hbody .nil
  have hcount := hgroup.count_append counts_headerWidth depth back
  simpa [Nat.add_assoc] using hcount

theorem skipDeclaration_refill_header {o : Token} {mid : List Token} (h : e.Refills Nested rest)
    (hs : s.cursor.rest = mid ++ o :: rest) (ho : o.opensBlock = true)
    (hwidth : mid.length + 1 < (headerWidth 0 s.cursor.rest).1) :
    (s.skipDeclaration.swap .none).Near (s.swap e).skipDeclaration := by
  obtain ⟨body, close, body', close', back, rfl, rfl, hclose, hclose', hbody, hbody'⟩ := h
  rw [hs] at hwidth
  obtain ⟨inner, hinner⟩ := headerWidth_split (Nat.lt_of_succ_lt hwidth)
  obtain ⟨depth, rfl⟩ : ∃ depth, inner = depth + 1 := by
    cases inner with
    | zero =>
      have hend : headerWidth 0 (o :: (body ++ close :: back)) = (1, some o.line) :=
        headerWidth_header .nil ho _
      rw [hinner, hend] at hwidth
      omega
    | succ depth => exact ⟨depth, rfl⟩
  have hold : headerWidth 0 s.cursor.rest =
      (mid.length + (body.length + 2) + (headerWidth (depth + 1) back).1,
        (headerWidth (depth + 1) back).2) := by
    rw [hs, hinner, headerWidth_block ho hclose hbody]
    exact Prod.ext (by dsimp only; omega) rfl
  have hnew : headerWidth 0 (s.cursor.swap ⟨(body ++ close :: back).length,
      body' ++ close' :: back.map Token.bare⟩).rest =
      (mid.length + (body'.length + 2) + (headerWidth (depth + 1) back).1,
        (headerWidth (depth + 1) back).2) := by
    rw [rest_swap_refill hs, ← headerWidth_bare, bare_refill, headerWidth_bare, hinner,
      headerWidth_block ho hclose' hbody']
    exact Prod.ext (by dsimp only; omega) rfl
  have hnear := @skip_refill s _ _ _ _ _ body' _ _ hs hclose hclose'
    (headerWidth (depth + 1) back).1
  rw [skipDeclaration, skipDeclaration, cursor_swap, hold, hnew]
  dsimp only at hnear ⊢
  cases (headerWidth (depth + 1) back).2 with
  | none => exact hnear
  | some line =>
    have hblock := hnear.skipBlock line
    rwa [skipBlock_swap (.none 1 _)] at hblock

end Reading

namespace BodyReading

open Cursor Reading

variable {e : Ending} {b : BodyReading} {rest : List Token}

theorem method_refill {name : Token} {d : Cursor} (h : e.Refills Balanced rest)
    (hname : ((b.state.cursor.eatPunct "&").getD b.state.cursor).name? = some (name, d))
    (hbody : BodyBehind d rest) : (b.method.swap .none).Near (b.swap e).method := by
  obtain ⟨harguments, htypes, hnear⟩ :=
    signature_refill (s := b.state.forget.moveTo d) b.state.pending h hbody
  have hname₁ : (b.state.moveTo ((b.state.cursor.eatPunct "&").getD b.state.cursor)).cursor.name? =
      some (name, d) := hname
  have hname₂ : ((b.swap e).state.moveTo (((b.swap e).state.cursor.eatPunct "&").getD
      (b.swap e).state.cursor)).cursor.name? = some (name.bare, d.swap e) :=
    name?_behind_swap hname (hbody.fits h)
  rw [method, method]
  dsimp only
  rw [hname₁, hname₂]
  have hstate (c : Cursor) : (b.state.moveTo c).forget.moveTo d = b.state.forget.moveTo d := rfl
  have hstate' (c : Cursor) : ((b.swap e).state.moveTo c).forget.moveTo (d.swap e) =
      (b.state.forget.moveTo d).swap e := rfl
  have hpending (c : Cursor) : (b.state.moveTo c).pending = b.state.pending := rfl
  have hpending' (c : Cursor) : ((b.swap e).state.moveTo c).pending = b.state.pending := rfl
  dsimp only
  rw [hstate, hstate', hpending, hpending', harguments, htypes]
  exact ⟨_, hnear, rfl⟩

theorem traitUse_refill {o : Token} (h : e.Refills Balanced rest)
    (hrest : b.state.references.2.cursor.rest = o :: rest) (ho : o.opensBlock = true) :
    (b.traitUse.swap .none).Near (b.swap e).traitUse := by
  have hnames : e.Fits 1 b.state.references.2.cursor := fits_of_brace h hrest
  obtain ⟨p, hp, hnear⟩ := skipBody_refill h hrest ho
  rw [traitUse_eq, traitUse_eq, state_swap, references_swap hnames]
  dsimp only
  rw [hnear]
  exact ⟨_, ⟨p, hp, rfl⟩, rfl⟩

theorem constants_refill (h : e.Refills Nested rest)
    (hblock : HasBlock b.state.behindConstants rest) :
    (b.constants.swap .none).Near (b.swap e).constants := by
  obtain ⟨u, hlist, hnear⟩ := Reading.constants_refill (s := b.state.forget) h hblock
  have hsame : (b.swap e).state.forget = b.state.forget.swap e := rfl
  rw [constants, constants, hsame, hlist]
  dsimp only
  rw [List.foldl_map]
  exact ⟨_, hnear, rfl⟩

/-! ### Members -/

/-- Behind a word, the reader of members passes over a block whatever it finds inside, as long as
that is of a sort: the body of a method, the block of a use of traits, and what is left of a
statement where constants end or that starts with `case`. These are the tokens behind the opening
brace. -/
inductive Skips (b : BodyReading) (t : Token) : (List Token → Prop) → List Token → Prop
  | method {name : Token} {c : Cursor} {rest : List Token} : t.isKeyword "function" = true →
    ((b.state.cursor.eatPunct "&").getD b.state.cursor).name? = some (name, c) →
    BodyBehind c rest → Skips b t Balanced rest
  | traits {o : Token} {rest : List Token} : t.isKeyword "use" = true →
    b.state.references.2.cursor.rest = o :: rest → o.opensBlock = true → Skips b t Balanced rest
  | constants {rest : List Token} : t.isKeyword "const" = true →
    HasBlock b.state.behindConstants rest → Skips b t Nested rest
  | case {rest : List Token} : t.isKeyword "case" = true → HasBlock b.state.cursor rest →
    Skips b t Nested rest

variable {Inside : List Token → Prop} {t : Token}

theorem Skips.name (h : b.Skips t Inside rest) : t.kind = .name := by
  cases h with
  | method hk | traits hk | constants hk | case hk => exact Token.kind_of_isKeyword hk

theorem Skips.fits (hskips : b.Skips t Inside rest) (h : e.Refills Inside rest) :
    e.Fits 1 b.state.cursor := by
  cases hskips with
  | method _ hname hbody =>
    exact ((hbody.fits h).back (leads_name? hname)).back (leads_eat_getD _ (·.is "&"))
  | traits _ hrest => exact (fits_of_brace h hrest).back (moves_references b.state).leads
  | constants _ hblock => exact (hblock.fits h).back (leads_constantList _ _)
  | case _ hblock => exact hblock.fits h

theorem token_refill (h : e.Refills Inside rest) (hskips : b.Skips t Inside rest) :
    ((b.token t).swap .none).Near ((b.swap e).token t.bare) := by
  cases hskips with
  | method hk hname hbody =>
    rw [(Turn.method hk).eq, (Turn.method (t := t.bare) hk).eq]
    exact method_refill (b := { b with modifiers := _ }) h hname hbody
  | traits hk hrest ho =>
    rw [(Turn.traits hk).eq, (Turn.traits (t := t.bare) hk).eq]
    exact traitUse_refill h hrest ho
  | constants hk hblock =>
    rw [(Turn.constants hk).eq, (Turn.constants (t := t.bare) hk).eq]
    exact constants_refill (b := { b with modifiers := _ }) h hblock
  | case hk hblock =>
    rw [(Turn.case hk).eq, (Turn.case (t := t.bare) hk).eq]
    exact ⟨_, skipStatement_refill b.state.forget h hblock, rfl⟩

/-- The reader of members comes from one state to another. -/
inductive Comes : BodyReading → BodyReading → Prop
  | refl (b : BodyReading) : Comes b b
  | step {b d : BodyReading} {t : Token} : b.state.cursor.peek = some t → t.closesBlock = false →
    Comes ({ b with state := b.state.step }.token t) d → Comes b d

/-- Among the members the reader comes to a block that it passes over. -/
def PassesOver (b : BodyReading) (Inside : List Token → Prop) (rest : List Token) : Prop :=
  ∃ (d : BodyReading) (t : Token), b.Comes d ∧ d.state.cursor.peek = some t ∧
    Skips { d with state := d.state.step } t Inside rest

/-- The state behind the closing brace. -/
def closed (line : Nat) (b : BodyReading) : BodyReading := untilClose line b.state.cursor.fuel b

variable {d : BodyReading} {line : Nat}

theorem step_swap_state (h : e.Fits 1 b.state.cursor) :
    { b.swap e with state := (b.swap e).state.step } =
      BodyReading.swap { b with state := b.state.step } e :=
  congrArg (fun u => { b with state := u }) (swap_step h)

theorem closed_of_peek {t : Token} (h : b.state.cursor.peek = some t)
    (hclose : t.closesBlock = false) :
    b.closed line = ({ b with state := b.state.step }.token t).closed line := by
  have hstep : b.state.step.cursor.rest.length < b.state.cursor.rest.length :=
    length_step_lt (ne_nil_of_peek h)
  have htoken := (leads_token { b with state := b.state.step } t).length_le
  dsimp only at htoken
  rw [closed, closed, Cursor.fuel, untilClose, h]
  dsimp only
  rw [hclose]
  exact untilClose_congr (by omega) (lt_fuel _)

theorem closed_bare (b : BodyReading) :
    (b.swap .none).closed line = (b.closed line).swap .none := by
  have hlength : (b.state.cursor.swap .none).fuel = b.state.cursor.fuel := by
    simp [Cursor.fuel]
  rw [closed, closed, state_swap, cursor_swap, hlength, untilClose_swap (.none 1 _)]

theorem Near.closed (h : b.Near d) : (b.closed line).Near (d.closed line) := by
  have hfuel : d.state.cursor.fuel = b.state.cursor.fuel := by
    obtain ⟨u, ⟨p, hp, rfl⟩, rfl⟩ := h
    rfl
  rw [BodyReading.closed, BodyReading.closed, hfuel]
  exact h.untilClose line _

theorem Comes.closed (h : b.Comes d) : b.closed line = d.closed line := by
  induction h with
  | refl b => rfl
  | step ht hclose _ ih => rw [closed_of_peek ht hclose, ih]

theorem Comes.leads (h : b.Comes d) : b.state.cursor.Leads d.state.cursor := by
  induction h with
  | refl b => exact .refl _
  | @step b d t ht hclose _ ih =>
    have hstep : b.state.cursor.Leads b.state.step.cursor := leads_step _
    exact (hstep.trans (leads_token { b with state := b.state.step } t)).trans ih

theorem Comes.swap (h : b.Comes d) (hd : e.Fits 1 d.state.cursor) :
    (b.swap e).Comes (d.swap e) := by
  induction h with
  | refl b => exact .refl _
  | @step b d t ht hclose hcomes ih =>
    have htoken := hd.back hcomes.leads
    have hstep := htoken.back (leads_token { b with state := b.state.step } t)
    have hb : e.Fits 1 b.state.cursor := hstep.back (leads_step _)
    refine .step ((peek_swap hb).trans (congrArg (Option.map Token.bare) ht)) hclose ?_
    rw [step_swap_state hb, token_swap htoken]
    exact ih hd

theorem PassesOver.fits (hover : b.PassesOver Inside rest) (h : e.Refills Inside rest) :
    e.Fits 1 b.state.cursor := by
  obtain ⟨d, t, hcomes, -, hskips⟩ := hover
  exact (hskips.fits h).back (hcomes.leads.trans (leads_step _))

theorem closed_refill (h : e.Refills Inside rest) (hover : b.PassesOver Inside rest) :
    ((b.closed line).swap .none).Near ((b.swap e).closed line) := by
  obtain ⟨d, t, hcomes, ht, hskips⟩ := hover
  have hd : e.Fits 1 d.state.cursor := (hskips.fits h).back (leads_step _)
  have hclose : t.closesBlock = false :=
    Token.is_eq_false_of_kind (by rw [hskips.name]; decide)
  have ht' : (d.swap e).state.cursor.peek = some t.bare :=
    (peek_swap hd).trans (congrArg (Option.map Token.bare) ht)
  rw [hcomes.closed, (hcomes.swap hd).closed, closed_of_peek ht hclose,
    closed_of_peek ht' hclose, ← closed_bare, step_swap_state hd]
  exact (token_refill h hskips).closed

end BodyReading

/-- The body of a class-like with no member read. -/
def Head.opened (head : Head) (inner : Cursor) : BodyReading where
  owner := head.owner
  isInterface := head.isInterface
  state := head.state.moveTo inner

/-- In its body the reader of a class-like comes to a block that it passes over. -/
def Head.PassesOver (head : Head) (Inside : List Token → Prop) (rest : List Token) : Prop :=
  ∃ inner, head.state.cursor.eat Token.opensBlock = some inner ∧
    (head.opened inner).PassesOver Inside rest

namespace Reading

open Cursor

variable {e : Ending} {s u : Reading} {rest : List Token}

/-- A class-like stands ahead. -/
inductive HeadAhead (s : Reading) (t : Token) : Head → Prop
  | «class» {head : Head} : s.behindAccess = false →
    IsModifier t ∨ t.isKeyword "class" = true ∧
      s.cursor.previous.any (·.isKeyword "new") = false →
    s.settled.classHead = .inr head → HeadAhead s t head
  | interface {head : Head} : s.behindAccess = false → t.isKeyword "interface" = true →
    s.settled.interfaceHead = .inr head → HeadAhead s t head
  | trait {head : Head} : s.behindAccess = false → t.isKeyword "trait" = true →
    s.settled.traitHead = .inr head → HeadAhead s t head

theorem HeadAhead.tokenAhead {t : Token} {head : Head} (h : s.HeadAhead t head) :
    s.tokenAhead t = head.read := by
  cases h with
  | «class» hplain hk hhead => rw [(Turn.class hplain hk).eq, classDeclaration_eq, hhead]; rfl
  | interface hplain hk hhead =>
    rw [(Turn.interface hplain hk).eq, interfaceDeclaration_eq, hhead]; rfl
  | trait hplain hk hhead => rw [(Turn.trait hplain hk).eq, traitDeclaration_eq, hhead]; rfl

theorem HeadAhead.name {t : Token} {head : Head} (h : s.HeadAhead t head) : t.kind = .name := by
  cases h with
  | «class» _ hk => exact hk.elim kind_of_isModifier fun hk => Token.kind_of_isKeyword hk.1
  | interface _ hk | trait _ hk => exact Token.kind_of_isKeyword hk

theorem HeadAhead.leads {t : Token} {head : Head} (h : s.HeadAhead t head)
    (ht : s.cursor.peek = some t) : s.cursor.step.Leads head.state.cursor := by
  cases h with
  | «class» _ hk hhead =>
    have hleads := step_leads_classHead (s := s.settled) ht (hk.imp id And.left)
    rwa [hhead] at hleads
  | interface _ _ hhead =>
    have hleads := step_leads_interfaceHead s.settled
    rwa [hhead] at hleads
  | trait _ _ hhead =>
    have hleads := step_leads_traitHead s.settled
    rwa [hhead] at hleads

theorem HeadAhead.swap {t : Token} {head : Head} (h : s.HeadAhead t head)
    (hhead : e.Fits 1 head.state.cursor) (hs : e.Fits 1 s.cursor) :
    (s.swap e).HeadAhead t.bare (head.swap e) := by
  have haccess := behindAccess_swap s e
  cases h with
  | «class» hplain hk hread =>
    have hend : e.Fits 1 (endOf s.settled.classHead) := by rwa [hread]
    refine .class (haccess.trans hplain) (hk.imp id fun hk =>
      ⟨hk.1, (previous_any_swap (fun _ => rfl) s e).trans hk.2⟩) ?_
    rw [settled_swap, classHead_swap hend, hread]
    rfl
  | interface hplain hk hread =>
    have hend : e.Fits 1 (endOf s.settled.interfaceHead) := by rwa [hread]
    refine .interface (haccess.trans hplain) hk ?_
    rw [settled_swap, interfaceHead_swap hend hs, hread]
    rfl
  | trait hplain hk hread =>
    have hend : e.Fits 1 (endOf s.settled.traitHead) := by rwa [hread]
    refine .trait (haccess.trans hplain) hk ?_
    rw [settled_swap, traitHead_swap hend hs, hread]
    rfl

theorem read_of_eat {head : Head} {inner : Cursor}
    (h : head.state.cursor.eat Token.opensBlock = some inner) : head.read =
      let d := (head.opened inner).closed head.state.cursor.line
      { d.state with file := head.entry d.members d.traits d.state.file } := by
  rw [Head.read, classBody, h]
  rfl

theorem read_refill {Inside : List Token → Prop} {head : Head} (h : e.Refills Inside rest)
    (hover : head.PassesOver Inside rest) : (head.read.swap .none).Near (head.swap e).read := by
  obtain ⟨inner, hinner, hcomes⟩ := hover
  have hfits : e.Fits 1 head.state.cursor := (hcomes.fits h).back (leads_eat hinner)
  have hinner' : (head.swap e).state.cursor.eat Token.opensBlock = some (inner.swap e) :=
    (eat_swap (fun _ => rfl) hfits).trans (congrArg (Option.map (·.swap e)) hinner)
  have hline : (head.swap e).state.cursor.line = head.state.cursor.line := line_swap hfits
  obtain ⟨v, hnear, hclosed⟩ := BodyReading.closed_refill h hcomes
  have hsame : (head.swap e).opened (inner.swap e) = (head.opened inner).swap e := rfl
  rw [read_of_eat hinner, read_of_eat hinner', hline, hsame, hclosed]
  exact hnear.withFile _

end Reading

end ApiDoc
