import ApiDoc.Proofs.Locality

/-!
# The token behind the place

Of the token that it has passed over last the reader knows the kind and the text only, and this for
the next step alone. So states that differ in nothing else lead to the same file (`Reading.Near`,
`Reading.Near.finished`), as do states that differ in byte positions (`Reading.finished_bare`).
-/

namespace ApiDoc

/-! ### The token behind the place -/

/-- What the reader knows of the token behind its place. -/
def Token.shown (t : Token) : TokenKind × String := (t.kind, t.text)

namespace Reading

open Cursor

variable {s u : Reading} {p : Option Token}

/-- The state with another token behind the place. -/
def retrace (s : Reading) (p : Option Token) : Reading := s.moveTo ⟨p, s.cursor.rest⟩

/-- The states differ at most in the token behind the place, and not in its kind and text. -/
def Near (s u : Reading) : Prop :=
  ∃ p : Option Token, p.map Token.shown = s.cursor.previous.map Token.shown ∧ u = s.retrace p

theorem Near.refl (s : Reading) : s.Near s := ⟨s.cursor.previous, rfl, rfl⟩

theorem any_of_shown {p q : Option Token} (h : p.map Token.shown = q.map Token.shown)
    {test : Token → Bool} (htest : ∀ t u : Token, t.shown = u.shown → test t = test u) :
    p.any test = q.any test := by
  cases p with
  | none =>
    cases q with
    | none => rfl
    | some u => simp at h
  | some t =>
    cases q with
    | none => simp at h
    | some u => exact htest t u (Option.some.inj h)

theorem is_of_shown {t u : Token} (h : t.shown = u.shown) (punct : String) :
    t.is punct = u.is punct := by
  rw [Token.is, Token.is, (Prod.mk.inj h).1, (Prod.mk.inj h).2]

theorem isKeyword_of_shown {t u : Token} (h : t.shown = u.shown) (word : String) :
    t.isKeyword word = u.isKeyword word := by
  rw [Token.isKeyword, Token.isKeyword, (Prod.mk.inj h).1, (Prod.mk.inj h).2]

theorem step_retrace (h : s.cursor.rest ≠ []) (p : Option Token) :
    (s.retrace p).cursor.step = s.cursor.step := by
  obtain ⟨t, rest, hrest⟩ := List.exists_cons_of_ne_nil h
  have hsame : (s.retrace p).cursor.rest = t :: rest := hrest
  rw [step_of_rest hrest, step_of_rest hsame]

theorem skip_retrace (h : s.cursor.rest ≠ []) (p : Option Token) {n : Nat} (hn : 0 < n) :
    (s.retrace p).cursor.skip n = s.cursor.skip n := by
  obtain ⟨n, rfl⟩ : ∃ k, n = k + 1 := ⟨n - 1, by omega⟩
  rw [skip, skip, step_retrace h]

theorem retrace_step (h : s.cursor.rest ≠ []) (p : Option Token) : (s.retrace p).step = s.step :=
  congrArg s.moveTo (step_retrace h p)

theorem namespaceDeclaration_retrace (h : s.cursor.rest ≠ []) (p : Option Token) :
    (s.retrace p).namespaceDeclaration = s.namespaceDeclaration := by
  rw [namespaceDeclaration, namespaceDeclaration, step_retrace h]
  rfl

theorem useDeclaration_retrace (h : s.cursor.rest ≠ []) (p : Option Token) :
    (s.retrace p).useDeclaration = s.useDeclaration := by
  have hstep : (s.retrace p).forget.step = s.forget.step := retrace_step (s := s.forget) h p
  rw [useDeclaration, useDeclaration, hstep]

theorem includeStatement_retrace (h : s.cursor.rest ≠ []) (p : Option Token) :
    (s.retrace p).includeStatement = s.includeStatement := by
  rw [includeStatement, includeStatement, step_retrace h]
  rfl

theorem interfaceDeclaration_retrace (h : s.cursor.rest ≠ []) (p : Option Token) :
    (s.retrace p).interfaceDeclaration = s.interfaceDeclaration := by
  have hhead : (s.retrace p).interfaceHead = s.interfaceHead := by
    rw [interfaceHead, interfaceHead, step_retrace h, retrace_step h]
    rfl
  rw [interfaceDeclaration_eq, interfaceDeclaration_eq, hhead]

theorem traitDeclaration_retrace (h : s.cursor.rest ≠ []) (p : Option Token) :
    (s.retrace p).traitDeclaration = s.traitDeclaration := by
  have hhead : (s.retrace p).traitHead = s.traitHead := by
    rw [traitHead, traitHead, step_retrace h, retrace_step h]
    rfl
  rw [traitDeclaration_eq, traitDeclaration_eq, hhead]

theorem functionDeclaration_retrace (h : s.cursor.rest ≠ []) (p : Option Token) :
    (s.retrace p).functionDeclaration = s.functionDeclaration := by
  rw [functionDeclaration, functionDeclaration, step_retrace h]
  rfl

theorem constantDeclaration_retrace (h : s.cursor.rest ≠ []) (p : Option Token) :
    (s.retrace p).constantDeclaration = s.constantDeclaration := by
  have hstep : (s.retrace p).forget.step = s.forget.step := retrace_step (s := s.forget) h p
  rw [constantDeclaration, constantDeclaration, hstep]
  rfl

theorem defineCall_retrace (h : s.cursor.rest ≠ []) (p : Option Token) :
    (s.retrace p).defineCall = s.defineCall := by
  rw [defineCall, defineCall, step_retrace h]
  rfl

theorem skipDeclaration_retrace (h : s.cursor.rest ≠ []) (p : Option Token) :
    (s.retrace p).skipDeclaration = s.skipDeclaration := by
  obtain ⟨t, rest, hrest⟩ := List.exists_cons_of_ne_nil h
  have hpos : 0 < (headerWidth 0 s.cursor.rest).1 := hrest ▸ headerWidth_pos 0 t rest
  have hsame : (s.retrace p).cursor.rest = s.cursor.rest := rfl
  rw [skipDeclaration, skipDeclaration, hsame]
  dsimp only
  rw [skip_retrace h p hpos]
  rfl

theorem parentAt_retrace (s : Reading) (p : Option Token) (c : Cursor) :
    (s.retrace p).parentAt c = s.parentAt c := by
  have hqualify : (s.retrace p).qualify = s.qualify := by
    funext name
    have hspace : (s.retrace p).space = s.space := rfl
    have haliases : (s.retrace p).file.aliases = s.file.aliases := rfl
    exact qualify_congr hspace haliases name
  rw [parentAt, parentAt, hqualify]

theorem classDeclaration_retrace {t : Token} (ht : s.cursor.peek = some t)
    (hword : IsModifier t ∨ t.isKeyword "class" = true) (p : Option Token) :
    (s.retrace p).classDeclaration = s.classDeclaration := by
  have h := ne_nil_of_peek ht
  -- Without modifiers the keyword is next, so no place is kept with the token behind it.
  have hplace : ∃ c d : Cursor, (s.retrace p).cursor.skip (classModifiers s.cursor.rest).2.2 = c ∧
      s.cursor.skip (classModifiers s.cursor.rest).2.2 = d ∧
      c.eatKeyword "class" = d.eatKeyword "class" ∧ (d.eatKeyword "class" = none → c = d) := by
    refine ⟨_, _, rfl, rfl, ?_⟩
    rcases Nat.eq_zero_or_pos (classModifiers s.cursor.rest).2.2 with hzero | hpos
    · obtain ⟨rest, hrest⟩ := exists_rest_of_peek ht
      have hkeyword : t.isKeyword "class" = true := hword.resolve_left fun hmodifier =>
        Nat.ne_of_gt (classModifiers_pos hmodifier rest) (hrest ▸ hzero)
      have hrest' : (s.retrace p).cursor.rest = t :: rest := hrest
      rw [hzero, skip_zero, skip_zero, eatKeyword_of_rest hrest hkeyword,
        eatKeyword_of_rest hrest' hkeyword]
      exact ⟨rfl, fun hnone => by simp at hnone⟩
    · rw [skip_retrace h p hpos]
      exact ⟨rfl, fun _ => rfl⟩
  have hhead : (s.retrace p).classHead = s.classHead := by
    have hsame : (s.retrace p).cursor.rest = s.cursor.rest := rfl
    have hline : (s.retrace p).cursor.line = s.cursor.line := rfl
    obtain ⟨c, d, hc, hd, heat, hnone⟩ := hplace
    rw [classHead, classHead, hsame, hline]
    dsimp only
    rw [hc, hd, heat]
    cases hclass : d.eatKeyword "class" with
    | none => exact congrArg (fun c => Sum.inl (s.moveTo c)) (hnone hclass)
    | some c =>
      dsimp only
      cases c.name? with
      | none => rfl
      | some found =>
        dsimp only
        rw [parentAt_retrace]
        rfl
  rw [classDeclaration_eq, classDeclaration_eq, hhead]

/-- A step does not depend on more of the token behind the place than its kind and text. -/
theorem tokenAhead_retrace {t : Token} (ht : s.cursor.peek = some t)
    (hp : p.map Token.shown = s.cursor.previous.map Token.shown) :
    (s.retrace p).tokenAhead t = s.tokenAhead t := by
  have h := ne_nil_of_peek ht
  have hstep : (s.retrace p).step = s.step := retrace_step h p
  have hforget : (s.retrace p).forget.step = s.forget.step := retrace_step (s := s.forget) h p
  have haccess : (s.retrace p).behindAccess = s.behindAccess :=
    any_of_shown hp fun t u htu => by rw [is_of_shown htu, is_of_shown htu, is_of_shown htu]
  have hnew : (s.retrace p).cursor.previous.any (·.isKeyword "new") =
      s.cursor.previous.any (·.isKeyword "new") :=
    any_of_shown hp fun t u htu => isKeyword_of_shown htu "new"
  have hturn := s.turn_tokenAhead t
  revert hturn
  generalize s.tokenAhead t = u
  intro hturn
  cases hturn with
  | docComment hdoc => exact hstep ▸ (Turn.docComment (s := s.retrace p) hdoc).eq
  | opens hopens =>
    refine (Turn.opens hopens).eq.trans ?_
    rw [hforget]
    rfl
  | closes hcloses => exact hforget ▸ (Turn.closes (s := s.retrace p) hcloses).eq
  | ends hends => exact hforget ▸ (Turn.ends (s := s.retrace p) hends).eq
  | passed hdoc hopens hcloses hends hword =>
    exact (Turn.passed hdoc hopens hcloses hends (haccess ▸ hword)).eq.trans hstep
  | space hplain hk =>
    exact (Turn.space (haccess.trans hplain) hk).eq.trans (namespaceDeclaration_retrace h p)
  | imports hplain hk =>
    exact (Turn.imports (haccess.trans hplain) hk).eq.trans (useDeclaration_retrace h p)
  | anonymous hplain hk hbehind =>
    exact (Turn.anonymous (haccess.trans hplain) hk (hnew.trans hbehind)).eq.trans
      (skipDeclaration_retrace (s := s.settled.forget) h p)
  | «class» hplain hk =>
    exact (Turn.class (haccess.trans hplain) (hk.imp id fun hk => ⟨hk.1, hnew.trans hk.2⟩)).eq.trans
      (classDeclaration_retrace (s := s.settled) ht (hk.imp id And.left) p)
  | interface hplain hk =>
    exact (Turn.interface (haccess.trans hplain) hk).eq.trans
      (interfaceDeclaration_retrace (s := s.settled) h p)
  | trait hplain hk =>
    exact (Turn.trait (haccess.trans hplain) hk).eq.trans
      (traitDeclaration_retrace (s := s.settled) h p)
  | enum hplain hk hnext =>
    exact (Turn.enum (haccess.trans hplain) hk hnext).eq.trans
      (skipDeclaration_retrace (s := s.settled.forget) h p)
  | enumWord hplain hk hnext =>
    exact (Turn.enumWord (haccess.trans hplain) hk hnext).eq.trans
      (retrace_step (s := s.settled) h p)
  | function hplain hk =>
    exact (Turn.function (haccess.trans hplain) hk).eq.trans
      (functionDeclaration_retrace (s := s.settled) h p)
  | constant hplain hk =>
    exact (Turn.constant (haccess.trans hplain) hk).eq.trans
      (constantDeclaration_retrace (s := s.settled) h p)
  | define hplain hk =>
    exact (Turn.define (haccess.trans hplain) hk).eq.trans
      (defineCall_retrace (s := s.settled) h p)
  | «include» hplain hk =>
    exact (Turn.include (haccess.trans hplain) hk).eq.trans (includeStatement_retrace h p)

/-! ### Reading to the end -/

/-- The file that the reader makes from a state on. -/
def finished (s : Reading) : File := (run s.cursor.fuel s).finish

theorem finished_of_end (h : s.cursor.peek = none) : s.finished = s.finish := by
  rw [finished, Cursor.fuel, run, h]

theorem finished_of_peek {t : Token} (h : s.cursor.peek = some t) :
    s.finished = (s.tokenAhead t).finished := by
  have hshorter := length_tokenAhead_lt h
  rw [finished, finished, Cursor.fuel, run, h]
  exact congrArg finish (run_congr hshorter (lt_fuel _))

theorem finish_eq (s : Reading) (c : Cursor) : (s.moveTo c).finish = s.finish := by
  have hblocks (blocks : List OpenBlock) (u v : Reading) (h : u.file = v.file) :
      (blocks.foldl (fun s block => s.report block.line "unclosed block") u).file =
        (blocks.foldl (fun s block => s.report block.line "unclosed block") v).file := by
    induction blocks generalizing u v with
    | nil => exact h
    | cons block blocks ih =>
      have hreport (w : Reading) : (w.report block.line "unclosed block").file =
          { w.file with problems := w.file.problems ++ [⟨block.line, "unclosed block"⟩] } := rfl
      exact ih _ _ (by rw [hreport, hreport, h])
  exact hblocks s.blocks _ _ rfl

theorem Near.finished (h : s.Near u) : u.finished = s.finished := by
  obtain ⟨p, hp, rfl⟩ := h
  cases ht : s.cursor.peek with
  | none =>
    have hend : (s.retrace p).cursor.peek = none := ht
    rw [finished_of_end ht, finished_of_end hend]
    exact finish_eq s _
  | some t =>
    have hnext : (s.retrace p).cursor.peek = some t := ht
    rw [finished_of_peek ht, finished_of_peek hnext, tokenAhead_retrace ht hp]

/-- The byte positions do not count. -/
theorem finished_bare (s : Reading) : (s.swap .none).finished = s.finished := by
  have hlength : (s.cursor.swap .none).fuel = s.cursor.fuel := by
    simp [Cursor.fuel]
  rw [finished, finished, cursor_swap, hlength, run_bare]
  exact finish_eq _ _

/-! ### Blocks and members -/

theorem blockWidth_pos {depth n : Nat} {ts : List Token} (h : blockWidth depth ts = some n) :
    0 < n := by
  cases ts with
  | nil => simp [blockWidth] at h
  | cons t ts =>
    have hmap {found : Option Nat} (hfound : found.map (· + 1) = some n) : 0 < n := by
      obtain ⟨k, -, rfl⟩ := Option.map_eq_some_iff.mp hfound
      exact Nat.succ_pos k
    rw [blockWidth.eq_def] at h
    dsimp only at h
    split at h
    · exact hmap h
    · split at h
      · split at h
        · exact Option.some.inj h ▸ Nat.one_pos
        · exact hmap h
      · exact hmap h

theorem Near.skipBlock (h : s.Near u) (line : Nat) :
    (s.skipBlock line).Near (u.skipBlock line) := by
  obtain ⟨p, hp, rfl⟩ := h
  have hsame : (s.retrace p).cursor.rest = s.cursor.rest := rfl
  by_cases hend : s.cursor.rest = []
  · refine ⟨p, ?_, ?_⟩
    · rw [Reading.skipBlock, hend]
      exact hp
    · rw [Reading.skipBlock, Reading.skipBlock, hsame, hend]
      rfl
  · have hpos : 0 < s.cursor.rest.length := List.length_pos_iff.mpr hend
    have heq : (s.retrace p).skipBlock line = s.skipBlock line := by
      rw [Reading.skipBlock, Reading.skipBlock, hsame]
      cases hblock : blockWidth 0 s.cursor.rest with
      | some n =>
        dsimp only
        rw [skip_retrace hend p (blockWidth_pos hblock)]
        rfl
      | none =>
        dsimp only
        rw [skip_retrace hend p hpos]
        rfl
    exact heq ▸ .refl _

end Reading

/-- The bodies differ at most in the token behind the place, and not in its kind and text. -/
def BodyReading.Near (b d : BodyReading) : Prop := ∃ u, b.state.Near u ∧ d = { b with state := u }

theorem BodyReading.Near.untilClose {b d : BodyReading} (h : b.Near d) (line fuel : Nat) :
    (untilClose line fuel b).Near (untilClose line fuel d) := by
  obtain ⟨u, ⟨p, hp, rfl⟩, rfl⟩ := h
  cases fuel with
  | zero => exact ⟨_, ⟨p, hp, rfl⟩, rfl⟩
  | succ fuel =>
    have hpeek : (b.state.retrace p).cursor.peek = b.state.cursor.peek := rfl
    rw [BodyReading.untilClose, BodyReading.untilClose, hpeek]
    cases ht : b.state.cursor.peek with
    | none => exact ⟨_, ⟨p, hp, rfl⟩, rfl⟩
    | some t =>
      dsimp only
      rw [Reading.retrace_step (Cursor.ne_nil_of_peek ht)]
      exact ⟨_, .refl _, rfl⟩

end ApiDoc
