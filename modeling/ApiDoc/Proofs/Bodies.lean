import Mathlib.Data.List.Basic
import ApiDoc.Proofs.Refills

/-!
# Bodies that are passed over

The bodies of functions and methods do not count. `Reading.PassesOver` says that the reader comes to
a block that it passes over, one case for each kind of place. Main statement: with other contents of
such a block, and other byte positions behind it, the tokens make the same file. Values are no such
place: they are kept as they are written, with the bodies in them.
-/

namespace ApiDoc

namespace Reading

open Cursor

variable {e : Ending} {s u : Reading} {rest : List Token}

/-! ### Blocks on the way -/

/-- The reader comes from one state to another by whole steps. -/
inductive Comes : Reading → Reading → Prop
  | refl (s : Reading) : Comes s s
  | step {s u : Reading} {t : Token} : s.cursor.peek = some t → Comes (s.tokenAhead t) u →
    Comes s u

theorem Comes.finished (h : s.Comes u) : s.finished = u.finished := by
  induction h with
  | refl s => rfl
  | step ht _ ih => rw [finished_of_peek ht, ih]

theorem Comes.eq_or_lt (h : s.Comes u) :
    s = u ∨ u.cursor.rest.length < s.cursor.rest.length := by
  induction h with
  | refl s => exact .inl rfl
  | step ht _ ih =>
    have hstep := length_tokenAhead_lt ht
    exact .inr (ih.elim (fun heq => heq ▸ hstep) fun hlt => Nat.lt_trans hlt hstep)

theorem Comes.clear (h : s.Comes u) (hu : e.Clear u.cursor) : e.Clear s.cursor := by
  rcases h.eq_or_lt with rfl | hlt
  · exact hu
  · refine .inl ((hu.elim (·.mono (Nat.le_succ 2)) And.left).imp (fun hfits => ?_) id)
    omega

theorem Comes.swap (h : s.Comes u) (hu : e.Clear u.cursor) : (s.swap e).Comes (u.swap e) := by
  induction h with
  | refl s => exact .refl _
  | step ht hcomes ih =>
    have hs : e.Fits 1 _ := ((Comes.step ht hcomes).clear hu).elim
      (·.mono (by omega)) (·.1.mono (by omega))
    refine .step ((peek_swap hs).trans (congrArg (Option.map Token.bare) ht)) ?_
    rw [tokenAhead_swap ht (hcomes.clear hu)]
    exact ih hu

theorem clear_of_leads {t : Token} {d : Cursor} (ht : s.cursor.peek = some t)
    (hname : t.kind = .name) (hd : s.cursor.step.Leads d) (hfits : e.Fits 1 d) :
    e.Clear s.cursor := by
  have hnext : s.cursor.next (·.is "(") = false := by
    rw [next, ht]
    exact Token.is_eq_false_of_kind (by rw [hname]; decide)
  refine .inr ⟨(hfits.back hd).imp (fun hstep => ?_) id, hnext⟩
  have hlength := length_step_lt (ne_nil_of_peek ht)
  omega

/-! ### Blocks that are passed over -/

/-- A declaration that is not documented stands ahead: an anonymous class or an enumeration. -/
def Undocumented (s : Reading) (t : Token) : Prop :=
  s.behindAccess = false ∧
    (t.isKeyword "class" = true ∧ s.cursor.previous.any (·.isKeyword "new") = true ∨
      t.isKeyword "enum" = true ∧ (s.cursor.peekAt 1).any (·.kind == .name) = true)

theorem Undocumented.tokenAhead {t : Token} (h : s.Undocumented t) :
    s.tokenAhead t = s.settled.forget.skipDeclaration := by
  obtain ⟨hplain, ⟨hk, hnew⟩ | ⟨hk, hnext⟩⟩ := h
  · exact (Turn.anonymous hplain hk hnew).eq
  · exact (Turn.enum hplain hk hnext).eq

theorem Undocumented.name {t : Token} (h : s.Undocumented t) : t.kind = .name := by
  obtain ⟨-, ⟨hk, -⟩ | ⟨hk, -⟩⟩ := h <;> exact Token.kind_of_isKeyword hk

theorem Undocumented.swap {t : Token} (h : s.Undocumented t) (hs : e.Fits 2 s.cursor) :
    (s.swap e).Undocumented t.bare := by
  obtain ⟨hplain, h⟩ := h
  refine ⟨(behindAccess_swap s e).trans hplain, h.imp (fun h => ⟨h.1, ?_⟩) fun h => ⟨h.1, ?_⟩⟩
  · exact (previous_any_swap (fun _ => rfl) s e).trans h.2
  · rw [cursor_swap, peekAt_swap hs, Option.any_map, ← h.2]
    rfl

/-- The brace of a block is not the first token of a declaration. -/
theorem leads_brace {t o : Token} {mid : List Token} (ht : s.cursor.peek = some t)
    (hname : t.kind = .name) (hs : s.cursor.rest = mid ++ o :: rest) (ho : o.opensBlock = true) :
    ∃ d : Cursor, s.cursor.step.Leads d ∧ d.rest = o :: rest := by
  cases mid with
  | nil =>
    rw [peek, hs] at ht
    cases ht
    exact absurd hname (Token.not_name_of_is ho)
  | cons first mid =>
    refine ⟨s.cursor.step.skip mid.length, leads_skip _ _, ?_⟩
    rw [step_of_rest hs, rest_skip]
    exact List.drop_left

/-- With its next step the reader passes over a block whatever it finds inside, as long as that is
of a sort: the body of a function, a block among the members of a class-like, the block of a
declaration that is not documented, and what is in parentheses in front of that or left of a
statement where imports or constants end. These are the tokens behind the opening brace. -/
inductive Skips (s : Reading) (t : Token) : (List Token → Prop) → List Token → Prop
  | function {name : Token} {d : Cursor} {rest : List Token} : s.behindAccess = false →
    t.isKeyword "function" = true →
    ((s.cursor.step.eatPunct "&").getD s.cursor.step).name? = some (name, d) →
    d.next (·.is "(") = true → BodyBehind d rest → Skips s t Balanced rest
  | members {head : Head} {Inside : List Token → Prop} {rest : List Token} : s.HeadAhead t head →
    head.PassesOver Inside rest → Skips s t Inside rest
  | block {o : Token} {mid rest : List Token} : s.Undocumented t →
    s.cursor.rest = mid ++ o :: rest → o.opensBlock = true →
    headerWidth 0 s.cursor.rest = (mid.length + 1, some o.line) → Skips s t Balanced rest
  | header {o : Token} {mid rest : List Token} : s.Undocumented t →
    s.cursor.rest = mid ++ o :: rest → o.opensBlock = true →
    mid.length + 1 < (headerWidth 0 s.cursor.rest).1 → Skips s t Nested rest
  | imports {rest : List Token} : s.behindAccess = false → t.isKeyword "use" = true →
    HasBlock s.behindImports rest → Skips s t Nested rest
  | constants {rest : List Token} : s.behindAccess = false → t.isKeyword "const" = true →
    HasBlock s.step.behindConstants rest → Skips s t Nested rest

variable {Inside : List Token → Prop} {t : Token}

theorem Skips.name (h : s.Skips t Inside rest) : t.kind = .name := by
  cases h with
  | function _ hk | imports _ hk | constants _ hk => exact Token.kind_of_isKeyword hk
  | members hahead => exact hahead.name
  | block hpassed | header hpassed => exact hpassed.name

theorem Skips.leads (hskips : s.Skips t Inside rest) (ht : s.cursor.peek = some t)
    (h : e.Refills Inside rest) : ∃ d, s.cursor.step.Leads d ∧ e.Fits 1 d := by
  have hbrace {o : Token} {mid : List Token} (hname : t.kind = .name)
      (hs : s.cursor.rest = mid ++ o :: rest) (ho : o.opensBlock = true) :
      ∃ d, s.cursor.step.Leads d ∧ e.Fits 1 d := by
    obtain ⟨d, hd, hrest⟩ := leads_brace ht hname hs ho
    exact ⟨d, hd, fits_of_brace h hrest⟩
  cases hskips with
  | function _ _ hname _ hbody =>
    exact ⟨_, .refl _, ((hbody.fits h).back (leads_name? hname)).back
      (leads_eat_getD _ (·.is "&"))⟩
  | members hahead hover =>
    obtain ⟨inner, hinner, hmembers⟩ := hover
    exact ⟨_, hahead.leads ht, (hmembers.fits h).back (leads_eat hinner)⟩
  | block hpassed hs ho | header hpassed hs ho => exact hbrace hpassed.name hs ho
  | imports _ _ hblock =>
    refine ⟨_, ?_, hblock.fits h⟩
    rw [behindImports]
    split
    · exact .refl _
    · exact leads_importList _ _
  | constants _ _ hblock => exact ⟨_, leads_constantList _ s.cursor.step, hblock.fits h⟩

/-- The step over the block comes to the same with other contents. -/
theorem tokenAhead_refill (h : e.Refills Inside rest) (hskips : s.Skips t Inside rest)
    (hs : e.Fits 2 s.cursor) :
    ((s.tokenAhead t).swap .none).Near ((s.swap e).tokenAhead t.bare) := by
  have haccess := behindAccess_swap s e
  cases hskips with
  | function hplain hk hname hparen hbody =>
    rw [(Turn.function hplain hk).eq, (Turn.function (t := t.bare) (haccess.trans hplain) hk).eq,
      settled_swap]
    exact functionDeclaration_refill (s := s.settled) h hname hparen hbody
  | @members head _ _ hahead hover =>
    have hhead : e.Fits 1 head.state.cursor := by
      obtain ⟨inner, hinner, hmembers⟩ := hover
      exact (hmembers.fits h).back (leads_eat hinner)
    rw [hahead.tokenAhead, (hahead.swap hhead (hs.mono (Nat.le_succ 1))).tokenAhead]
    exact read_refill h hover
  | block hpassed hrest ho hwidth =>
    rw [hpassed.tokenAhead, (hpassed.swap hs).tokenAhead, settled_swap, forget_swap]
    exact skipDeclaration_refill (s := s.settled.forget) h hrest hwidth
  | header hpassed hrest ho hwidth =>
    rw [hpassed.tokenAhead, (hpassed.swap hs).tokenAhead, settled_swap, forget_swap]
    exact skipDeclaration_refill_header (s := s.settled.forget) h hrest ho hwidth
  | imports hplain hk hblock =>
    rw [(Turn.imports hplain hk).eq, (Turn.imports (t := t.bare) (haccess.trans hplain) hk).eq]
    exact useDeclaration_refill h hblock
  | constants hplain hk hblock =>
    rw [(Turn.constant hplain hk).eq, (Turn.constant (t := t.bare) (haccess.trans hplain) hk).eq,
      settled_swap]
    exact constantDeclaration_refill (s := s.settled) h hblock

/-- From a state on, the reader comes to a block that it passes over. -/
def PassesOver (s : Reading) (Inside : List Token → Prop) (rest : List Token) : Prop :=
  ∃ u t, s.Comes u ∧ u.cursor.peek = some t ∧ u.Skips t Inside rest

/-- With other contents of that block it makes the same file. -/
theorem PassesOver.finished_swap (hover : s.PassesOver Inside rest) (h : e.Refills Inside rest) :
    (s.swap e).finished = s.finished := by
  obtain ⟨u, t, hcomes, ht, hskips⟩ := hover
  obtain ⟨d, hd, hfits⟩ := hskips.leads ht h
  have hclear := clear_of_leads ht hskips.name hd hfits
  have hu : e.Fits 2 u.cursor := hclear.elim (·.mono (Nat.le_succ 2)) And.left
  have ht' : (u.swap e).cursor.peek = some t.bare :=
    (peek_swap (hu.mono (Nat.le_succ 1))).trans (congrArg (Option.map Token.bare) ht)
  rw [(hcomes.swap hclear).finished, finished_of_peek ht',
    (tokenAhead_refill h hskips hu).finished, finished_bare, ← finished_of_peek ht,
    hcomes.finished]

end Reading

theorem BodyReading.Skips.bare {b : BodyReading} {t : Token} {Inside : List Token → Prop}
    {rest ts : List Token} (h : b.Skips t Inside rest) (hts : Inside ts) :
    Inside (ts.map Token.bare) := by
  cases h with
  | method | traits => exact Balanced.bare hts
  | constants | case => exact Nested.bare hts

theorem Reading.Skips.bare {s : Reading} {t : Token} {Inside : List Token → Prop}
    {rest ts : List Token} (h : s.Skips t Inside rest) (hts : Inside ts) :
    Inside (ts.map Token.bare) := by
  cases h with
  | function | block => exact Balanced.bare hts
  | members _ hover =>
    obtain ⟨inner, -, d, t, -, -, hskips⟩ := hover
    exact hskips.bare hts
  | header | imports | constants => exact Nested.bare hts

/-- The state in front of all tokens of a file. -/
def Reading.start (file : File) (tokens : List Token) : Reading where
  cursor := { rest := tokens }
  file := file

theorem File.ofTokens_eq_finished (file : File) (tokens : List Token) :
    file.ofTokens tokens = (Reading.start file tokens).finished := rfl

/-- Two lists of tokens that agree but for the byte positions, except inside a block that the reader
passes over, make the same file. -/
theorem File.ofTokens_congr_inside {file : File} {Inside : List Token → Prop}
    {front front' body body' back back' : List Token} {close close' : Token}
    (hover : (Reading.start file (front ++ (body ++ close :: back))).PassesOver Inside
      (body ++ close :: back))
    (hbody : Inside body) (hbody' : Inside body') (hclose : close.closesBlock = true)
    (hclose' : close'.closesBlock = true)
    (hfront : front.map Token.bare = front'.map Token.bare)
    (hback : back.map Token.bare = back'.map Token.bare) :
    file.ofTokens (front ++ (body ++ close :: back)) =
      file.ofTokens (front' ++ (body' ++ close' :: back')) := by
  let e : Ending := ⟨(body ++ close :: back).length,
    body'.map Token.bare ++ close'.bare :: back.map Token.bare⟩
  have hbare : Inside (body'.map Token.bare) := by
    obtain ⟨u, t, -, -, hskips⟩ := hover
    exact hskips.bare hbody'
  have hrefill : e.Refills Inside (body ++ close :: back) :=
    ⟨body, close, body'.map Token.bare, close'.bare, back, rfl, rfl, hclose, hclose', hbody,
      hbare⟩
  have hswap : (Reading.start file (front ++ (body ++ close :: back))).swap e =
      (Reading.start file (front' ++ (body' ++ close' :: back'))).swap .none := by
    have hrest : ((Reading.start file (front ++ (body ++ close :: back))).cursor.swap e).rest =
        ((Reading.start file (front' ++ (body' ++ close' :: back'))).cursor.swap .none).rest := by
      rw [Cursor.rest_swap_none]
      simp [Reading.start, Cursor.swap, e, hfront, hback]
    exact congrArg (Reading.start file) hrest
  rw [ofTokens_eq_finished, ofTokens_eq_finished, ← hover.finished_swap hrefill, hswap,
    Reading.finished_bare]

namespace File

/-- A class with a method, up to the brace that opens the body of the method. -/
def methodFront : List Token := [
  ⟨.name, "class", "<?php ", 1, 6, 11⟩, ⟨.name, "A", " ", 1, 12, 13⟩,
  ⟨.punct, "\x7b", " ", 1, 14, 15⟩, ⟨.name, "function", " ", 1, 16, 24⟩,
  ⟨.name, "f", " ", 1, 25, 26⟩, ⟨.punct, "(", "", 1, 26, 27⟩, ⟨.punct, ")", "", 1, 27, 28⟩,
  ⟨.punct, "\x7b", " ", 1, 29, 30⟩]

def returnBody : List Token := [
  ⟨.name, "return", " ", 1, 31, 37⟩, ⟨.number, "1", " ", 1, 38, 39⟩, ⟨.punct, ";", "", 1, 39, 40⟩]

/-- A body that declares a class under a condition. -/
def conditionBody : List Token := [
  ⟨.name, "if", " ", 1, 31, 33⟩, ⟨.punct, "(", " ", 1, 34, 35⟩, ⟨.number, "1", "", 1, 35, 36⟩,
  ⟨.punct, ")", "", 1, 36, 37⟩, ⟨.punct, "\x7b", " ", 1, 38, 39⟩,
  ⟨.name, "class", " ", 1, 40, 45⟩, ⟨.name, "B", " ", 1, 46, 47⟩, ⟨.punct, "\x7b", " ", 1, 48, 49⟩,
  ⟨.punct, "\x7d", "", 1, 49, 50⟩, ⟨.punct, "\x7d", " ", 1, 51, 52⟩]

def closeAt (start : Nat) : Token := ⟨.punct, "\x7d", " ", 1, start, start + 1⟩

theorem balanced_returnBody : Balanced returnBody :=
  .token rfl rfl (.token rfl rfl (.token rfl rfl .nil))

theorem balanced_conditionBody : Balanced conditionBody := by
  have hclass : Balanced (conditionBody.drop 5 |>.take 4) :=
    .token rfl rfl (.token rfl rfl (@Balanced.block _ _ [] _ rfl rfl .nil .nil))
  exact .token rfl rfl (.token rfl rfl (.token rfl rfl (.token rfl rfl
    (@Balanced.block _ _ (conditionBody.drop 5 |>.take 4) _ rfl rfl hclass .nil))))

/-- The class that a method declares under a condition is not seen. -/
theorem ofTokens_congr_inside_method : ∃ tokens tokens',
    Token.ofSource "<?php class A \x7b function f() \x7b return 1; \x7d \x7d" = .ok tokens ∧
    Token.ofSource
      "<?php class A \x7b function f() \x7b if (1) \x7b class B \x7b\x7d \x7d \x7d \x7d" =
        .ok tokens' ∧
    ofTokens { path := "a.php", hash := "" } tokens =
      ofTokens { path := "a.php", hash := "" } tokens' ∧
    (ofTokens { path := "a.php", hash := "" } tokens').classes.keys = ["\\A"] := by
  refine ⟨methodFront ++ (returnBody ++ closeAt 41 :: [closeAt 43]),
    methodFront ++ (conditionBody ++ closeAt 53 :: [closeAt 55]), by decide +kernel,
    by decide +kernel, ?_, by decide +kernel⟩
  have hover : (Reading.start { path := "a.php", hash := "" }
      (methodFront ++ (returnBody ++ closeAt 41 :: [closeAt 43]))).PassesOver Balanced
        (returnBody ++ closeAt 41 :: [closeAt 43]) :=
    ⟨_, _, .refl _, rfl, .members (.class rfl (.inr ⟨rfl, rfl⟩) rfl)
      ⟨_, rfl, _, _, .refl _, rfl, .method rfl rfl ⟨_, rfl, rfl⟩⟩⟩
  exact ofTokens_congr_inside hover balanced_returnBody balanced_conditionBody rfl rfl rfl rfl

/-- A constant with an anonymous class as its value, up to the brace that opens the body of a
method. -/
def valueFront : List Token := [
  ⟨.name, "define", "<?php ", 1, 6, 12⟩, ⟨.punct, "(", "", 1, 12, 13⟩,
  ⟨.literal, "'X'", "", 1, 13, 16⟩, ⟨.punct, ",", "", 1, 16, 17⟩, ⟨.name, "new", " ", 1, 18, 21⟩,
  ⟨.name, "class", " ", 1, 22, 27⟩, ⟨.punct, "\x7b", " ", 1, 28, 29⟩,
  ⟨.name, "function", " ", 1, 30, 38⟩, ⟨.name, "f", " ", 1, 39, 40⟩, ⟨.punct, "(", "", 1, 40, 41⟩,
  ⟨.punct, ")", "", 1, 41, 42⟩, ⟨.punct, "\x7b", " ", 1, 43, 44⟩]

/-- The rest of that source behind the body. -/
def valueBack : List Token := [
  ⟨.punct, "\x7d", " ", 1, 57, 58⟩, ⟨.punct, ")", "", 1, 58, 59⟩, ⟨.punct, ";", "", 1, 59, 60⟩]

def digitBody (digit : String) : List Token := [
  ⟨.name, "return", " ", 1, 45, 51⟩, ⟨.number, digit, " ", 1, 52, 53⟩,
  ⟨.punct, ";", "", 1, 53, 54⟩]

theorem balanced_digitBody (digit : String) : Balanced (digitBody digit) :=
  .token rfl rfl (.token rfl rfl (.token rfl rfl .nil))

/-- Values are kept as they are written, so the body of a method within a value makes a
difference. -/
theorem ofTokens_ne_inside_value :
    let one := valueFront ++ (digitBody "1" ++ closeAt 55 :: valueBack)
    let two := valueFront ++ (digitBody "2" ++ closeAt 55 :: valueBack)
    Token.ofSource "<?php define('X', new class \x7b function f() \x7b return 1; \x7d \x7d);" =
      .ok one ∧
    Token.ofSource "<?php define('X', new class \x7b function f() \x7b return 2; \x7d \x7d);" =
      .ok two ∧
    ["function", "f", "(", ")", "\x7b"] <:+ valueFront.map Token.text ∧
    Balanced (digitBody "1") ∧ Balanced (digitBody "2") ∧
    ofTokens { path := "a.php", hash := "" } one ≠ ofTokens { path := "a.php", hash := "" } two ∧
    ((ofTokens { path := "a.php", hash := "" } two).constants.get? "\\X").map (·.body.value) =
      some "new class \x7b function f() \x7b return 2; \x7d \x7d" := by
  refine ⟨by decide +kernel, by decide +kernel, by decide, balanced_digitBody "1",
    balanced_digitBody "2", by decide +kernel, by decide +kernel⟩

end File

end ApiDoc
