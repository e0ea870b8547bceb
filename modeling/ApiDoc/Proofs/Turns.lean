import ApiDoc.Proofs.Statements

/-!
# The turns of the reader

What the reader can do at the next token, one case for each routine and with the guard under which
it is taken: `Reading.Turn` for statements, `BodyReading.Turn` for the members of a class-like.
Every step is such a turn and every turn is a step, so what all steps keep is shown turn by turn.

The three class-likes differ in what stands in front of their bodies only: each of them is read as a
`Head`, and `Head.read` goes on with the body.
-/

namespace ApiDoc

theorem Token.isKeyword_of_word {t : Token} {word : String} (hname : t.kind = .name)
    (hword : Text.asciiLower t.text = word) (hsmall : Text.asciiLower word = word) :
    t.isKeyword word = true := by
  rw [isKeyword, hname, Text.sameLetters, hword, hsmall]
  simp

namespace Reading

/-! ### Statements -/

/-- What the reader of statements does at a token. -/
inductive Turn (s : Reading) (t : Token) : Reading → Prop
  | docComment : t.kind = .docComment → Turn s t (s.step.docComment t)
  | opens : t.opensBlock = true →
    Turn s t { s.forget.step with blocks := ⟨t.line, none⟩ :: s.blocks }
  | closes : t.closesBlock = true → Turn s t s.forget.step.closeBlock
  | ends : t.endsStatement = true → Turn s t s.forget.step
  | passed : t.kind ≠ .docComment → t.opensBlock = false → t.closesBlock = false →
    t.endsStatement = false →
    (t.kind = .name → s.behindAccess = true ∨ Text.asciiLower t.text ∉ statementWords) →
    Turn s t s.step
  | space : s.behindAccess = false → t.isKeyword "namespace" = true →
    Turn s t s.namespaceDeclaration
  | imports : s.behindAccess = false → t.isKeyword "use" = true → Turn s t s.useDeclaration
  | anonymous : s.behindAccess = false → t.isKeyword "class" = true →
    s.cursor.previous.any (·.isKeyword "new") = true →
    Turn s t s.settled.forget.skipDeclaration
  | «class» : s.behindAccess = false →
    IsModifier t ∨ t.isKeyword "class" = true ∧
      s.cursor.previous.any (·.isKeyword "new") = false →
    Turn s t s.settled.classDeclaration
  | interface : s.behindAccess = false → t.isKeyword "interface" = true →
    Turn s t s.settled.interfaceDeclaration
  | trait : s.behindAccess = false → t.isKeyword "trait" = true →
    Turn s t s.settled.traitDeclaration
  | enum : s.behindAccess = false → t.isKeyword "enum" = true →
    (s.cursor.peekAt 1).any (·.kind == .name) = true → Turn s t s.settled.forget.skipDeclaration
  | enumWord : s.behindAccess = false → t.isKeyword "enum" = true →
    (s.cursor.peekAt 1).any (·.kind == .name) = false → Turn s t s.settled.step
  | function : s.behindAccess = false → t.isKeyword "function" = true →
    Turn s t s.settled.functionDeclaration
  | constant : s.behindAccess = false → t.isKeyword "const" = true →
    Turn s t s.settled.constantDeclaration
  | define : s.behindAccess = false → t.isKeyword "define" = true → Turn s t s.settled.defineCall
  | «include» : s.behindAccess = false → IsInclude t → Turn s t s.includeStatement

variable {s u : Reading} {t : Token}

theorem lead_ne_access (h : s.behindAccess = false) : s.lead ≠ .access := by
  rw [behindAccess] at h
  rw [lead, Lead.of, if_neg (by rw [h]; decide)]
  split <;> decide

theorem wordAhead_class_eq (h : t.isKeyword "class" = true) : s.wordAhead t =
    if s.cursor.previous.any (·.isKeyword "new") then s.settled.forget.skipDeclaration
      else s.settled.classDeclaration := by
  simp only [wordAhead, Token.word_of_isKeyword h (by decide),
    settled_of_mem (show "class" ∈ declarationWords by decide)]
  rfl

theorem wordAhead_enum_eq (h : t.isKeyword "enum" = true) : s.wordAhead t =
    if (s.cursor.peekAt 1).any (·.kind == .name) then s.settled.forget.skipDeclaration
      else s.settled.step := by
  simp only [wordAhead, Token.word_of_isKeyword h (by decide),
    settled_of_mem (show "enum" ∈ declarationWords by decide)]
  rfl

theorem tokenAhead_name (hname : t.kind = .name) (h : s.behindAccess = false) :
    s.tokenAhead t = s.wordAhead t := tokenAhead_word hname (lead_ne_access h)

theorem tokenAhead_of_kind (hdoc : t.kind ≠ .docComment) (hname : t.kind ≠ .name) :
    s.tokenAhead t =
      if t.opensBlock then { s.forget.step with blocks := ⟨t.line, none⟩ :: s.blocks }
      else if t.closesBlock then s.forget.step.closeBlock
      else if t.endsStatement then s.forget.step
      else s.step := by
  rw [tokenAhead]
  split
  · next h => exact absurd h hdoc
  · next h => exact absurd h hname
  · rfl

/-- A word that starts more than the next token, in front of the reader. -/
theorem turn_wordAhead (hname : t.kind = .name) (h : s.behindAccess = false)
    (hmem : Text.asciiLower t.text ∈ statementWords) : s.Turn t (s.wordAhead t) := by
  have hkey {word : String} (hword : Text.asciiLower t.text = word)
      (hsmall : Text.asciiLower word = word) : t.isKeyword word = true :=
    Token.isKeyword_of_word hname hword hsmall
  simp only [statementWords, List.mem_cons, List.not_mem_nil, or_false] at hmem
  rcases hmem with hw | hw | hw | hw | hw | hw | hw | hw | hw | hw | hw | hw | hw | hw | hw | hw
  · have hk := hkey hw (by decide)
    exact wordAhead_namespace hk ▸ .space h hk
  · have hk := hkey hw (by decide)
    exact wordAhead_use hk ▸ .imports h hk
  · have hk := hkey hw (by decide)
    rw [wordAhead_class_eq hk]
    split
    · next hnew => exact .anonymous h hk hnew
    · next hnew => exact .class h (.inr ⟨hk, Bool.eq_false_iff.mpr hnew⟩)
  · have hk : IsModifier t := .inl (hkey hw (by decide))
    exact wordAhead_modifier hk ▸ .class h (.inl hk)
  · have hk : IsModifier t := .inr (.inl (hkey hw (by decide)))
    exact wordAhead_modifier hk ▸ .class h (.inl hk)
  · have hk : IsModifier t := .inr (.inr (hkey hw (by decide)))
    exact wordAhead_modifier hk ▸ .class h (.inl hk)
  · have hk := hkey hw (by decide)
    exact wordAhead_interface hk ▸ .interface h hk
  · have hk := hkey hw (by decide)
    exact wordAhead_trait hk ▸ .trait h hk
  · have hk := hkey hw (by decide)
    rw [wordAhead_enum_eq hk]
    split
    · next hnext => exact .enum h hk hnext
    · next hnext => exact .enumWord h hk (Bool.eq_false_iff.mpr hnext)
  · have hk := hkey hw (by decide)
    exact wordAhead_function hk ▸ .function h hk
  · have hk := hkey hw (by decide)
    exact wordAhead_const hk ▸ .constant h hk
  · have hk := hkey hw (by decide)
    exact wordAhead_define hk ▸ .define h hk
  all_goals
    have hk : IsInclude t := by
      first
        | exact .inl (hkey hw (by decide))
        | exact .inr (.inl (hkey hw (by decide)))
        | exact .inr (.inr (.inl (hkey hw (by decide))))
        | exact .inr (.inr (.inr (hkey hw (by decide))))
    exact wordAhead_include hk ▸ .include h hk

/-- Every step is a turn. -/
theorem turn_tokenAhead (s : Reading) (t : Token) : s.Turn t (s.tokenAhead t) := by
  by_cases hdoc : t.kind = .docComment
  · rw [tokenAhead, hdoc]
    exact .docComment hdoc
  by_cases hname : t.kind = .name
  · have hend : t.endsStatement = false := (Token.plain_of_name hname).2.2
    have hblock : t.opensBlock = false := Token.is_eq_false_of_kind (by rw [hname]; decide)
    have hclose : t.closesBlock = false := Token.is_eq_false_of_kind (by rw [hname]; decide)
    by_cases haccess : s.behindAccess = true
    · rw [tokenAhead, hname]
      dsimp only
      rw [if_pos haccess]
      exact .passed hdoc hblock hclose hend fun _ => .inl haccess
    · have haccess := Bool.eq_false_iff.mpr haccess
      rw [tokenAhead_name hname haccess]
      by_cases hmem : Text.asciiLower t.text ∈ statementWords
      · exact turn_wordAhead hname haccess hmem
      · rw [wordAhead_step hmem]
        exact .passed hdoc hblock hclose hend fun _ => .inr hmem
  · rw [tokenAhead_of_kind hdoc hname]
    split
    · next h => exact .opens h
    · next hopens =>
      split
      · next h => exact .closes h
      · next hcloses =>
        split
        · next h => exact .ends h
        · next hend =>
          exact .passed hdoc (Bool.eq_false_iff.mpr hopens) (Bool.eq_false_iff.mpr hcloses)
            (Bool.eq_false_iff.mpr hend) fun h => absurd h hname

/-- Every turn is a step. -/
theorem Turn.eq (h : s.Turn t u) : s.tokenAhead t = u := by
  have hpunct {p : String} (h : t.is p = true) : t.kind ≠ .docComment ∧ t.kind ≠ .name := by
    rw [Token.kind_of_is h]
    decide
  cases h with
  | docComment hdoc => rw [tokenAhead, hdoc]
  | opens hopens =>
    rw [tokenAhead_of_kind (hpunct hopens).1 (hpunct hopens).2, if_pos hopens]
  | closes hcloses =>
    have hopens : t.opensBlock = false := Token.is_eq_false hcloses (by decide)
    rw [tokenAhead_of_kind (hpunct hcloses).1 (hpunct hcloses).2, hopens, if_pos hcloses]
    rfl
  | ends hend =>
    have hdoc : t.kind ≠ .docComment := by
      rcases Bool.or_eq_true_iff.mp hend with h | h
      · exact (hpunct h).1
      · rw [beq_iff_eq.mp h]
        decide
    have hopens : t.opensBlock = false := Token.is_eq_false_of_endsStatement hend (by decide)
    have hcloses : t.closesBlock = false := Token.is_eq_false_of_endsStatement hend (by decide)
    rw [tokenAhead_of_kind hdoc (Token.not_name_of_endsStatement hend), hopens, hcloses,
      if_pos hend]
    rfl
  | passed hdoc hopens hcloses hend hword =>
    by_cases hname : t.kind = .name
    · by_cases haccess : s.behindAccess = true
      · rw [tokenAhead, hname]
        exact if_pos haccess
      · rw [tokenAhead_name hname (Bool.eq_false_iff.mpr haccess)]
        exact wordAhead_step ((hword hname).resolve_left haccess)
    · rw [tokenAhead_of_kind hdoc hname, hopens, hcloses, hend]
      rfl
  | space h hk => rw [tokenAhead_name (Token.kind_of_isKeyword hk) h, wordAhead_namespace hk]
  | imports h hk => rw [tokenAhead_name (Token.kind_of_isKeyword hk) h, wordAhead_use hk]
  | anonymous h hk hnew =>
    rw [tokenAhead_name (Token.kind_of_isKeyword hk) h, wordAhead_class_eq hk, if_pos hnew]
  | «class» h hk =>
    rcases hk with hk | ⟨hk, hnew⟩
    · rw [tokenAhead_name (kind_of_isModifier hk) h, wordAhead_modifier hk]
    · rw [tokenAhead_name (Token.kind_of_isKeyword hk) h, wordAhead_class_eq hk, hnew]
      rfl
  | interface h hk => rw [tokenAhead_name (Token.kind_of_isKeyword hk) h, wordAhead_interface hk]
  | trait h hk => rw [tokenAhead_name (Token.kind_of_isKeyword hk) h, wordAhead_trait hk]
  | enum h hk hnext =>
    rw [tokenAhead_name (Token.kind_of_isKeyword hk) h, wordAhead_enum_eq hk, if_pos hnext]
  | enumWord h hk hnext =>
    rw [tokenAhead_name (Token.kind_of_isKeyword hk) h, wordAhead_enum_eq hk, hnext]
    rfl
  | function h hk => rw [tokenAhead_name (Token.kind_of_isKeyword hk) h, wordAhead_function hk]
  | constant h hk => rw [tokenAhead_name (Token.kind_of_isKeyword hk) h, wordAhead_const hk]
  | define h hk => rw [tokenAhead_name (Token.kind_of_isKeyword hk) h, wordAhead_define hk]
  | «include» h hk => rw [tokenAhead_name (kind_of_isInclude hk) h, wordAhead_include hk]

end Reading

/-! ### Members -/

namespace BodyReading

/-- What the reader of members does at a token that it has passed over. The words that are left to
the last case and the signs of types only change the modifiers. -/
inductive Turn (b : BodyReading) (t : Token) : BodyReading → Prop
  | docComment : t.kind = .docComment →
    Turn b t { b with state := { b.state with pending := some (DocBlock.parse t.text t.line) } }
  | traits : t.isKeyword "use" = true → Turn b t b.traitUse
  | constants : t.isKeyword "const" = true →
    Turn b t { b with modifiers := b.modifiers.startAt t.line }.constants
  | method : t.isKeyword "function" = true →
    Turn b t { b with modifiers := { b.modifiers.startAt t.line with
      isAbstract := b.modifiers.isAbstract || b.isInterface } }.method
  | case : t.isKeyword "case" = true →
    Turn b t { b with
      state := b.state.forget.moveTo b.state.cursor.skipStatement, modifiers := {} }
  | properties : t.kind = .variableName →
    Turn b t ({ b with modifiers := b.modifiers.startAt t.line }.properties t)
  | ends : t.endsStatement = true → Turn b t { b with state := b.state.forget, modifiers := {} }
  | collects : t.kind ≠ .docComment → t.kind ≠ .variableName → t.endsStatement = false →
    (t.kind = .name → Text.asciiLower t.text ∉ memberWords) →
    Turn b t { b with modifiers := (b.token t).modifiers }

variable {b d : BodyReading} {t : Token}

theorem token_name (h : t.kind = .name) : b.token t = b.word t := by
  rw [token, h]

theorem token_of_kind (hdoc : t.kind ≠ .docComment) (hname : t.kind ≠ .name)
    (hvariable : t.kind ≠ .variableName) : b.token t =
      if isTypePunct t then
        { b with modifiers := { b.modifiers with types := b.modifiers.types ++ t.text } }
      else if t.endsStatement then { b with state := b.state.forget, modifiers := {} }
      else b := by
  rw [token]
  split
  · next h => exact absurd h hdoc
  · next h => exact absurd h hname
  · next h => exact absurd h hvariable
  · rfl

/-- Other words than those that start a member only change the modifiers. -/
theorem word_of_not_mem (h : Text.asciiLower t.text ∉ memberWords) :
    b.word t = { b with modifiers := (b.word t).modifiers } := by
  simp only [memberWords, List.mem_cons, List.not_mem_nil, or_false, not_or] at h
  rw [word]
  dsimp only
  split <;> first | rfl | simp_all

theorem isTypePunct_eq_false_of_endsStatement (h : t.endsStatement = true) :
    isTypePunct t = false := by
  simp [isTypePunct, Token.is_eq_false_of_endsStatement h]

/-- Every step is a turn. -/
theorem turn_token (b : BodyReading) (t : Token) : b.Turn t (b.token t) := by
  by_cases hdoc : t.kind = .docComment
  · have hstep : b.token t =
        { b with state := { b.state with pending := some (DocBlock.parse t.text t.line) } } := by
      rw [token, hdoc]
    exact hstep ▸ .docComment hdoc
  by_cases hvariable : t.kind = .variableName
  · have hstep : b.token t =
        { b with modifiers := b.modifiers.startAt t.line }.properties t := by
      rw [token, hvariable]
    exact hstep ▸ .properties hvariable
  by_cases hname : t.kind = .name
  · by_cases hmem : Text.asciiLower t.text ∈ memberWords
    · have hkey {word : String} (hword : Text.asciiLower t.text = word)
          (hsmall : Text.asciiLower word = word) : t.isKeyword word = true :=
        Token.isKeyword_of_word hname hword hsmall
      rw [token_name hname, word]
      simp only [memberWords, List.mem_cons, List.not_mem_nil, or_false] at hmem
      rcases hmem with hw | hw | hw | hw
      · rw [hw]
        exact .traits (hkey hw (by decide))
      · rw [hw]
        exact .constants (hkey hw (by decide))
      · rw [hw]
        exact .method (hkey hw (by decide))
      · rw [hw]
        exact .case (hkey hw (by decide))
    · have hend : t.endsStatement = false := (Token.plain_of_name hname).2.2
      have hstep : b.token t = { b with modifiers := (b.token t).modifiers } := by
        rw [token_name hname]
        exact word_of_not_mem hmem
      rw [hstep]
      exact .collects hdoc hvariable hend fun _ => hmem
  · by_cases hend : t.endsStatement = true
    · rw [token_of_kind hdoc hname hvariable, isTypePunct_eq_false_of_endsStatement hend,
        if_pos hend]
      exact .ends hend
    · have hstep : b.token t = { b with modifiers := (b.token t).modifiers } := by
        rw [token_of_kind hdoc hname hvariable, if_neg hend]
        split <;> rfl
      rw [hstep]
      exact .collects hdoc hvariable (Bool.eq_false_iff.mpr hend) fun h => absurd h hname

/-- Every turn is a step. -/
theorem Turn.eq (h : b.Turn t d) : b.token t = d := by
  cases h with
  | docComment hdoc => rw [token, hdoc]
  | traits hk | constants hk | method hk | case hk =>
    rw [token_of_isKeyword hk, word, Token.word_of_isKeyword hk (by decide)]
    rfl
  | properties hvariable => rw [token, hvariable]
  | ends hend =>
    have hname := Token.not_name_of_endsStatement hend
    have hkind : t.kind ≠ .docComment ∧ t.kind ≠ .variableName := by
      rcases Bool.or_eq_true_iff.mp hend with h | h
      · rw [Token.kind_of_is h]
        decide
      · rw [beq_iff_eq.mp h]
        decide
    rw [token_of_kind hkind.1 hname hkind.2, isTypePunct_eq_false_of_endsStatement hend,
      if_pos hend]
    rfl
  | collects hdoc hvariable hend hword =>
    by_cases hname : t.kind = .name
    · rw [token_name hname]
      exact word_of_not_mem (hword hname)
    · rw [token_of_kind hdoc hname hvariable, hend]
      split <;> rfl

end BodyReading

/-! ### Class-likes -/

/-- What was read of a class-like in front of its body: whose body it is, the state in front of it,
and how the file is extended with its members and the traits that it uses. -/
structure Head where
  owner : Fqsen
  isInterface : Bool
  state : Reading
  entry : Members → List Reference → File → File

/-- Reads the body and enters the class-like; without a body it is left out. -/
def Head.read (h : Head) : Reading :=
  match h.state.classBody h.owner h.isInterface with
  | (none, s) => s
  | (some (members, traits), s) => { s with file := h.entry members traits s.file }

namespace Reading

/-- A class up to its body, or the state behind the words if they are no class with a name. -/
def classHead (s : Reading) : Reading ⊕ Head :=
  let line := s.cursor.line
  let found := classModifiers s.cursor.rest
  let c := s.cursor.skip found.2.2
  match c.eatKeyword "class" with
  | none => .inl (s.moveTo c)
  | some c =>
    match c.name? with
    | none => .inl (s.moveTo c)
    | some (name, c) =>
      let fqsen := s.space.join name.text
      let parent := s.parentAt c
      let interfaces := (s.forget.moveTo parent.2).listBehind "implements"
      .inr {
        owner := fqsen
        isInterface := false
        state := interfaces.2
        entry := fun members traits f => f.addClass ⟨document s.pending (.ofFqsen fqsen line), {
          parent := parent.1
          interfaces := interfaces.1
          usedTraits := traits
          isAbstract := found.1
          isFinal := found.2.1
          members := members }⟩ }

/-- An interface up to its body, or the state behind the word if no name follows. -/
def interfaceHead (s : Reading) : Reading ⊕ Head :=
  let line := s.cursor.line
  match s.cursor.step.name? with
  | none => .inl s.step
  | some (name, c) =>
    let fqsen := s.space.join name.text
    let parents := (s.forget.moveTo c).listBehind "extends"
    .inr {
      owner := fqsen
      isInterface := true
      state := parents.2
      entry := fun members _ f => f.addInterface ⟨document s.pending (.ofFqsen fqsen line), {
        parents := parents.1
        members := members }⟩ }

/-- A trait up to its body, or the state behind the word if no name follows. -/
def traitHead (s : Reading) : Reading ⊕ Head :=
  let line := s.cursor.line
  match s.cursor.step.name? with
  | none => .inl s.step
  | some (name, c) =>
    let fqsen := s.space.join name.text
    .inr {
      owner := fqsen
      isInterface := false
      state := s.forget.moveTo c
      entry := fun members traits f => f.addTrait ⟨document s.pending (.ofFqsen fqsen line), {
        usedTraits := traits
        members := members }⟩ }

theorem classDeclaration_eq (s : Reading) :
    s.classDeclaration = s.classHead.elim id Head.read := by
  rw [classDeclaration, classHead]
  dsimp only
  cases (s.cursor.skip (classModifiers s.cursor.rest).2.2).eatKeyword "class" with
  | none => rfl
  | some c =>
    dsimp only
    cases c.name? <;> rfl

theorem interfaceDeclaration_eq (s : Reading) :
    s.interfaceDeclaration = s.interfaceHead.elim id Head.read := by
  rw [interfaceDeclaration, interfaceHead]
  dsimp only
  cases s.cursor.step.name? <;> rfl

theorem traitDeclaration_eq (s : Reading) :
    s.traitDeclaration = s.traitHead.elim id Head.read := by
  rw [traitDeclaration, traitHead]
  dsimp only
  cases s.cursor.step.name? <;> rfl

end Reading

end ApiDoc
