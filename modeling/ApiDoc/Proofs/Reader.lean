import Mathlib.Logic.Basic
import ApiDoc.Proofs.Cuts
import ApiDoc.Proofs.Reflection

/-!
# What every step of the reader keeps

The reader goes through the tokens of a source in one pass. `Reading.Sound` says what holds between
any two of its steps: no name token ahead has a colon, the file is as read so far, the namespace is
a plain name and the doc comment that waits has no addresses. Every reader of a declaration keeps
it, so it holds at the end, whatever the source is: `File.asRead_ofSource`.
-/

namespace ApiDoc

/-! ### Tokens -/

/-- A name has no colon in it. -/
def Token.Clean (t : Token) : Prop := t.kind = .name → ':' ∉ t.text.toList

namespace Lexer

theorem not_isQualifiedChar_colon : isQualifiedChar ':' = false := by decide

theorem not_mem_takeWhile {p : Char → Bool} {c : Char} (h : p c = false) (cs : List Char) :
    c ∉ cs.takeWhile p := by
  intro hmem
  have := List.all_takeWhile (p := p) (l := cs)
  rw [List.all_eq_true] at this
  simp [this c hmem] at h

theorem take_length_takeWhile (p : Char → Bool) (cs : List Char) :
    cs.take (cs.takeWhile p).length = cs.takeWhile p :=
  List.prefix_iff_eq_take.mp (List.takeWhile_prefix p) |>.symm

/-- Names and variables start as they must, and names go on with the characters of qualified names. -/
theorem word_of_codeWidth {c : Char} {cs : List Char} {kind : TokenKind} {n : Nat}
    (h : codeWidth c cs = .ok (some kind, n)) :
    (kind = .name → (isNameStart c || c == '\\') = true ∧
      n = (cs.takeWhile isQualifiedChar).length) ∧ (kind = .variableName → c = '$') := by
  cases codeWidth_eq_iff.mp h with
  | name hstart => exact ⟨fun _ => ⟨hstart, rfl⟩, fun hkind => by simp at hkind⟩
  | variableName _ => exact ⟨fun hkind => by simp at hkind, fun _ => rfl⟩
  | _ => simp

section Pieces

variable {P : TokenKind → List Char → Prop}

/-- What holds of every piece of code that is a token holds of the tokens of a text. -/
theorem of_mem_divide
    (hcode : ∀ c cs kind n, codeWidth c cs = .ok (some kind, n) → P kind (c :: cs.take n))
    {mode : Mode} {cs : List Char} {piece : Piece} (h : piece ∈ (divide mode cs).pieces)
    {kind : TokenKind} (hk : piece.kind = some kind) : P kind piece.text := by
  fun_induction divide mode cs with
  | case1 => simp at h
  | case2 mode c cs fault seen hw =>
    rw [List.mem_singleton] at h
    rw [h] at hk
    simp at hk
  | case3 mode c cs read n hw rest ih =>
    rcases List.mem_cons.mp h with rfl | h
    · cases mode with
      | markup =>
        simp only [width, Except.ok.injEq, Prod.mk.injEq] at hw
        simp [← hw.1] at hk
      | code => exact hcode c cs kind n (hk ▸ hw)
    · exact ih h

theorem of_mem_place {pieces : List Piece}
    (h : ∀ piece ∈ pieces, ∀ kind, piece.kind = some kind → P kind piece.text) (lead : List Char)
    (offset line : Nat) : ∀ t ∈ place lead offset line pieces, P t.kind t.text.toList := by
  fun_induction place lead offset line pieces with
  | case1 => simp
  | case2 lead offset line text rest ih =>
    exact ih fun piece hp => h piece (List.mem_cons_of_mem _ hp)
  | case3 lead offset line kind text rest stop ih =>
    intro t ht
    rcases List.mem_cons.mp ht with rfl | ht
    · simpa using h ⟨some kind, text⟩ List.mem_cons_self kind rfl
    · exact ih (fun piece hp => h piece (List.mem_cons_of_mem _ hp)) t ht

theorem of_mem_ofSource
    (hcode : ∀ c cs kind n, codeWidth c cs = .ok (some kind, n) → P kind (c :: cs.take n))
    {source : String} {tokens : List Token} (h : Token.ofSource source = .ok tokens) :
    ∀ t ∈ tokens, P t.kind t.text.toList := by
  simp only [Token.ofSource] at h
  split at h
  · cases h
    exact of_mem_place (fun piece hp kind hk => of_mem_divide hcode hp hk) [] 0 1
  · simp at h

end Pieces

end Lexer

theorem Token.clean_ofSource {source : String} {tokens : List Token}
    (h : Token.ofSource source = .ok tokens) : ∀ t ∈ tokens, t.Clean := by
  refine Lexer.of_mem_ofSource (P := fun kind text => kind = .name → ':' ∉ text)
    (fun c cs kind n hcode hname => ?_) h
  obtain ⟨hstart, rfl⟩ := (Lexer.word_of_codeWidth hcode).1 hname
  rw [Lexer.take_length_takeWhile, List.mem_cons, not_or]
  refine ⟨fun hc => ?_, Lexer.not_mem_takeWhile Lexer.not_isQualifiedChar_colon cs⟩
  subst hc
  simp [Lexer.isNameStart] at hstart

/-- The text of a variable starts with a dollar sign. -/
theorem Token.dollar_ofSource {source : String} {tokens : List Token}
    (h : Token.ofSource source = .ok tokens) :
    ∀ t ∈ tokens, t.kind = .variableName → t.text.toList.head? = some '$' :=
  Lexer.of_mem_ofSource (P := fun kind text => kind = .variableName → text.head? = some '$')
    (fun c cs kind n hcode hvariable => by
      rw [(Lexer.word_of_codeWidth hcode).2 hvariable]
      rfl) h

/-! ### Moves -/

namespace Cursor

/-- No name ahead has a colon. -/
def Clean (c : Cursor) : Prop := ∀ t ∈ c.rest, t.Clean

namespace Clean

variable {c d : Cursor} (h : c.Clean)
include h

theorem skip (n : Nat) : (c.skip n).Clean := by
  intro t ht
  rw [rest_skip] at ht
  exact h t (List.mem_of_mem_drop ht)

theorem step : c.step.Clean := h.skip 1

theorem eat {test : Token → Bool} (hd : c.eat test = some d) : d.Clean := by
  rw [Cursor.eat] at hd
  split at hd
  · cases hd
    exact h.step
  · simp at hd

theorem eat_getD (test : Token → Bool) : ((c.eat test).getD c).Clean := by
  cases hd : c.eat test with
  | none => exact h
  | some d => exact h.eat hd

theorem take? {kind : TokenKind} {t : Token} (hd : c.take? kind = some (t, d)) :
    t.kind = kind ∧ t.Clean ∧ d.Clean := by
  rw [Cursor.take?] at hd
  split at hd
  · simp at hd
  · next first rest hrest =>
    split at hd
    · next hkind =>
      cases hd
      exact ⟨hkind, h _ (by simp [hrest]), h.step⟩
    · simp at hd

theorem name? {t : Token} (hd : c.name? = some (t, d)) : ':' ∉ t.text.toList ∧ d.Clean := by
  obtain ⟨hkind, ht, hclean⟩ := h.take? hd
  exact ⟨ht hkind, hclean⟩

theorem dropEnd : c.dropEnd.Clean := h.eat_getD _

theorem skipStatement : c.skipStatement.Clean := h.skip _

theorem expression (stops : List String) : (c.expression stops).2.Clean := h.skip _

end Clean

end Cursor

namespace Reader

theorem clean_parameters {c : Cursor} (h : c.Clean) (doc : Option DocBlock) :
    (parameters doc c).after.Clean := by
  rw [parameters]
  split
  · exact h
  · next inner hinner => exact (h.eat hinner).skip _

theorem clean_returnTypes {c : Cursor} (h : c.Clean) : (returnTypes c).2.Clean := by
  rw [returnTypes]
  split
  · exact h
  · next inner hinner => exact (h.eat hinner).skip _

end Reader

namespace Reading

theorem clean_nameList (fuel : Nat) {c : Cursor} (h : c.Clean) : (nameList fuel c).2.Clean := by
  induction fuel generalizing c with
  | zero => exact h
  | succ fuel ih =>
    rw [nameList]
    split
    · exact h
    · next name d hd =>
      obtain ⟨-, hclean⟩ := h.name? hd
      split
      · exact hclean
      · next e he => exact ih (hclean.eat he)

theorem clean_constantList (fuel : Nat) {c : Cursor} (h : c.Clean) :
    (constantList fuel c).2.Clean := by
  induction fuel generalizing c with
  | zero => exact h
  | succ fuel ih =>
    simp only [constantList]
    split
    · next name sign _ hsign =>
      have hvalue := ((h.skip _).eat hsign).expression [","]
      split
      · exact hvalue
      · next d hd => exact ih (hvalue.eat hd)
    · exact h.skip _

theorem clean_importAt (target : String) {c : Cursor} (h : c.Clean) :
    (importAt target c).2.Clean := by
  simp only [importAt]
  split
  · exact h
  · next d hd =>
    split
    · next t e he => exact ((h.eat hd).name? he).2
    · exact h.eat hd

theorem clean_importGroup (start : List Char) (fuel : Nat) {c : Cursor} (h : c.Clean) :
    (importGroup start fuel c).2.Clean := by
  induction fuel generalizing c with
  | zero => exact h
  | succ fuel ih =>
    simp only [importGroup]
    split
    · exact h
    · next t d hd =>
      have himport := clean_importAt (String.ofList (start ++ Fqsen.separator :: t.text.toList))
        (h.name? hd).2
      split
      · exact himport
      · next e he => exact ih (himport.eat he)

theorem clean_importName (t : Token) {c : Cursor} (h : c.Clean) : (importName t c).2.Clean := by
  simp only [importName]
  split
  · exact clean_importAt t.text h
  · next d hd => exact (clean_importGroup _ _ (h.eat hd)).eat_getD _

theorem clean_importList (fuel : Nat) {c : Cursor} (h : c.Clean) :
    (importList fuel c).2.Clean := by
  induction fuel generalizing c with
  | zero => exact h
  | succ fuel ih =>
    simp only [importList]
    split
    · exact h
    · next t d hd =>
      have himport := clean_importName t (h.name? hd).2
      split
      · exact himport
      · next e he => exact ih (himport.eat he)

theorem snd_importAt (target : String) (c : Cursor) :
    (importAt target c).1.2 = Fqsen.ofText target := by
  simp only [importAt]
  split
  · rfl
  · split <;> rfl

theorem rooted_importGroup (start : List Char) (fuel : Nat) (c : Cursor) :
    ∀ item ∈ (importGroup start fuel c).1, item.2.Rooted := by
  induction fuel generalizing c with
  | zero => simp [importGroup]
  | succ fuel ih =>
    simp only [importGroup]
    split
    · simp
    · split
      · intro item hitem
        rw [List.mem_singleton.mp hitem, snd_importAt]
        exact Fqsen.rooted_ofText _
      · intro item hitem
        rcases List.mem_cons.mp hitem with rfl | hitem
        · rw [snd_importAt]
          exact Fqsen.rooted_ofText _
        · exact ih _ item hitem

theorem rooted_importName (t : Token) (c : Cursor) :
    ∀ item ∈ (importName t c).1, item.2.Rooted := by
  simp only [importName]
  split
  · intro item hitem
    rw [List.mem_singleton.mp hitem, snd_importAt]
    exact Fqsen.rooted_ofText _
  · exact rooted_importGroup _ _ _

/-- What is imported has a full name. -/
theorem rooted_importList (fuel : Nat) (c : Cursor) :
    ∀ item ∈ (importList fuel c).1, item.2.Rooted := by
  induction fuel generalizing c with
  | zero => simp [importList]
  | succ fuel ih =>
    simp only [importList]
    split
    · simp
    · split
      · exact rooted_importName _ _
      · intro item hitem
        rcases List.mem_append.mp hitem with hitem | hitem
        · exact rooted_importName _ _ item hitem
        · exact ih _ item hitem

/-- Imports that have full names, written over aliases that do. -/
theorem rooted_foldl_insert (items : List (String × Fqsen)) {aliases : NameMap Fqsen}
    (hitems : ∀ item ∈ items, item.2.Rooted)
    (h : ∀ name target, aliases.get? name = some target → target.Rooted) :
    ∀ name target,
      (items.foldl (fun m item => m.insert item.1 item.2) aliases).get? name = some target →
        target.Rooted := by
  induction items generalizing aliases with
  | nil => exact h
  | cons item rest ih =>
    refine ih (fun item hitem => hitems item (List.mem_cons_of_mem _ hitem)) fun name target ht => ?_
    rw [NameMap.get?_insert] at ht
    split at ht
    · cases ht
      exact hitems item List.mem_cons_self
    · exact h name target ht

/-! ### The state between steps -/

/-- What holds between any two steps of the reader. -/
structure Sound (s : Reading) : Prop where
  cursor : s.cursor.Clean
  file : s.file.AsRead
  space : s.space.Plain
  pending : ∀ d, s.pending = some d → d.tags.Unlinked
  blocks : ∀ b ∈ s.blocks, ∀ f, b.outer = some f → f.Plain

namespace Sound

variable {s : Reading} (h : s.Sound)
include h

theorem moveTo {c : Cursor} (hc : c.Clean) : (s.moveTo c).Sound :=
  ⟨hc, h.file, h.space, h.pending, h.blocks⟩

theorem step : s.step.Sound := h.moveTo h.cursor.step

theorem forget : s.forget.Sound :=
  ⟨h.cursor, h.file, h.space, fun _ hd => by simp [Reading.forget] at hd, h.blocks⟩

theorem withFile {f : File} (hf : f.AsRead) : Sound { s with file := f } :=
  ⟨h.cursor, hf, h.space, h.pending, h.blocks⟩

theorem await {d : DocBlock} (hd : d.tags.Unlinked) : Sound { s with pending := some d } := by
  refine ⟨h.cursor, h.file, h.space, fun e he => ?_, h.blocks⟩
  cases he
  exact hd

theorem report (line : Nat) (message : String) : (s.report line message).Sound :=
  h.withFile (h.file.congr rfl rfl rfl rfl rfl h.file.tags h.file.aliases)

theorem skipBlock (line : Nat) : (s.skipBlock line).Sound := by
  rw [Reading.skipBlock]
  split
  · exact h.moveTo (h.cursor.skip _)
  · exact (h.moveTo (h.cursor.skip _)).report _ _

theorem skipBody : s.skipBody.Sound := by
  rw [Reading.skipBody]
  split
  · next inner hinner => exact (h.moveTo (h.cursor.eat hinner)).skipBlock _
  · exact h.moveTo h.cursor.dropEnd

theorem references : s.references.2.Sound ∧ ∀ r ∈ s.references.1, r.resolved = none := by
  refine ⟨h.moveTo (clean_nameList s.cursor.fuel h.cursor), fun r hr => ?_⟩
  obtain ⟨t, -, rfl⟩ := List.mem_map.mp hr
  rfl

theorem constants : s.constants.2.Sound :=
  h.moveTo (clean_constantList s.cursor.fuel h.cursor).skipStatement

theorem signature (doc : Option DocBlock) : (s.signature doc).2.2.Sound := by
  have hparameters := Reader.clean_parameters h.cursor doc
  have hclean := Reader.clean_returnTypes hparameters
  simp only [Reading.signature]
  split
  · exact ((h.report _ _).moveTo hclean).skipBody
  · exact (h.moveTo hclean).skipBody

end Sound

end Reading

/-! ### Bodies -/

/-- What holds between any two steps of reading the body of an owner. -/
structure BodyReading.Sound (owner : Fqsen) (b : BodyReading) : Prop where
  owner_eq : b.owner = owner
  plain : owner.Plain
  state : b.state.Sound
  members : b.members.Sound owner
  traits : ∀ r ∈ b.traits, r.resolved = none

namespace BodyReading

theorem sound_propertyList {owner : Fqsen} (hp : owner.Plain) {modifiers : Modifiers}
    {doc : Option DocBlock} (hdoc : ∀ d, doc = some d → d.tags.Unlinked) {fuel : Nat} {t : Token}
    {c last : Cursor} (hc : c.Clean) {m found : Members} (hm : m.Sound owner)
    (h : propertyList owner modifiers doc fuel t c m = (found, last)) :
    found.Sound owner ∧ last.Clean := by
  induction fuel generalizing t c m with
  | zero =>
    cases h
    exact ⟨hm, hc⟩
  | succ fuel ih =>
    rw [propertyList] at h
    split at h
    next value d hvalue =>
    have hd : d.Clean := by
      split at hvalue
      · next sign hsign =>
        cases hvalue
        exact (hc.eat hsign).expression _
      · cases hvalue
        exact hc
    have hadded (body : PropertyBody) := Members.Sound.addProperty hp hm
      (e := ⟨_, body⟩) (Info.declared_document hp .property t.text (modifiers.line.getD t.line) hdoc)
    dsimp only at h
    split at h
    · cases h
      exact ⟨hadded _, hd⟩
    · next comma hcomma =>
      have hclean := hd.eat hcomma
      split at h
      · cases h
        exact ⟨hadded _, hclean⟩
      · next next e he => exact ih (hclean.take? he).2.2 (hadded _) h

namespace Sound

variable {owner : Fqsen} {b : BodyReading} (h : b.Sound owner)
include h

/-- What was found stays; the place and what waits for a member may change. -/
theorem reach {s : Reading} (hs : s.Sound) (modifiers : Modifiers) :
    BodyReading.Sound owner { b with state := s, modifiers := modifiers } :=
  ⟨h.owner_eq, h.plain, hs, h.members, h.traits⟩

theorem traitUse : b.traitUse.Sound owner := by
  obtain ⟨hstate, hunlinked⟩ := h.state.references
  refine ⟨h.owner_eq, h.plain, ?_, h.members, fun r hr => ?_⟩
  · simp only [BodyReading.traitUse]
    split
    · next inner hinner => exact ((hstate.moveTo (hstate.cursor.eat hinner)).skipBlock _).forget
    · exact (hstate.moveTo hstate.cursor.dropEnd).forget
  · exact (List.mem_append.mp hr).elim (h.traits r) (hunlinked r)

theorem method : b.method.Sound owner := by
  have hs := h.state.moveTo (h.state.cursor.eat_getD (·.is "&"))
  rw [BodyReading.method]
  split
  · exact h.reach hs.forget {}
  · next name c hname =>
    have hsignature := (hs.forget.moveTo (hs.cursor.name? hname).2).signature b.state.pending
    refine ⟨h.owner_eq, h.plain, hsignature, ?_, h.traits⟩
    refine Members.Sound.addMethod h.plain h.members ?_
    have hdeclared := Info.declared_document h.plain .method name.text
      (b.modifiers.line.getD name.line) h.state.pending
    rw [← h.owner_eq] at hdeclared ⊢
    exact hdeclared

theorem properties (first : Token) : (b.properties first).Sound owner := by
  rw [BodyReading.properties, h.owner_eq]
  obtain ⟨hmembers, hclean⟩ := sound_propertyList h.plain h.state.pending h.state.cursor h.members
    (rfl : propertyList owner b.modifiers b.state.pending b.state.cursor.fuel first b.state.cursor
      b.members = (_, _))
  exact ⟨rfl, h.plain, h.state.forget.moveTo hclean.dropEnd, hmembers, h.traits⟩

theorem constants : b.constants.Sound owner := by
  have hadd (constants : List (Token × String)) (m : Members) (hm : m.Sound owner) :
      (constants.foldl (fun members constant => members.addConstant
        ⟨Reading.document b.state.pending (Element.classConstant b.owner constant.1.text
          (b.modifiers.line.getD constant.1.line)).info,
        { value := constant.2, visibility := b.modifiers.visibility.getD .public }⟩) m).Sound
          owner := by
    induction constants generalizing m with
    | nil => exact hm
    | cons constant rest ih =>
      refine ih _ (Members.Sound.addConstant h.plain hm ?_)
      rw [h.owner_eq]
      exact Info.declared_document h.plain .constant constant.1.text _ h.state.pending
  exact ⟨h.owner_eq, h.plain, h.state.forget.constants, hadd _ _ h.members, h.traits⟩

theorem word (t : Token) : (b.word t).Sound owner := by
  have hmodifiers (modifiers : Modifiers) :
      BodyReading.Sound owner { b with modifiers := modifiers } := h.reach h.state modifiers
  unfold BodyReading.word
  dsimp only
  split
  · exact h.traitUse
  all_goals try exact hmodifiers _
  · exact (hmodifiers _).constants
  · exact (hmodifiers _).method
  · exact h.reach (h.state.forget.moveTo h.state.cursor.skipStatement) {}

theorem token (t : Token) : (b.token t).Sound owner := by
  unfold BodyReading.token
  split
  · exact h.reach (h.state.await (DocBlock.unlinked_parse _ _)) _
  · exact h.word t
  · exact (h.reach h.state _).properties t
  · split
    · exact h.reach h.state _
    · split
      · exact h.reach h.state.forget {}
      · exact h

theorem untilClose (openLine fuel : Nat) : (untilClose openLine fuel b).Sound owner := by
  induction fuel generalizing b with
  | zero => exact h
  | succ fuel ih =>
    rw [BodyReading.untilClose]
    split
    · exact h.reach (h.state.report _ _) _
    · next t _ =>
      have hstep : BodyReading.Sound owner { b with state := b.state.step } :=
        h.reach h.state.step _
      dsimp only
      split
      · exact hstep
      · exact ih (hstep.token t)

end Sound

end BodyReading

/-! ### Declarations -/

namespace Reading

namespace Sound

variable {s : Reading} (h : s.Sound)
include h

theorem classBody {owner : Fqsen} (hp : owner.Plain) {isInterface : Bool} {t : Reading}
    {found : Option (Members × List Reference)}
    (ht : s.classBody owner isInterface = (found, t)) :
    t.Sound ∧ ∀ members traits, found = some (members, traits) →
      members.Sound owner ∧ ∀ r ∈ traits, r.resolved = none := by
  simp only [Reading.classBody] at ht
  split at ht
  · cases ht
    exact ⟨h.report _ _, by simp⟩
  · next inner hinner =>
    cases ht
    have hstart : BodyReading.Sound owner
        { owner := owner, isInterface := isInterface, state := s.moveTo inner } :=
      ⟨rfl, hp, h.moveTo (h.cursor.eat hinner), Members.sound_empty owner, by simp⟩
    have hbody := hstart.untilClose s.cursor.line inner.fuel
    refine ⟨hbody.state, ?_⟩
    rintro members traits heq
    cases heq
    exact ⟨hbody.members, hbody.traits⟩

theorem docComment (t : Token) : (s.docComment t).Sound := by
  have hdoc := DocBlock.unlinked_parse t.text t.line
  simp only [Reading.docComment]
  split
  · exact ⟨h.cursor, h.file.congr rfl rfl rfl rfl rfl hdoc h.file.aliases, h.space, h.pending,
      h.blocks⟩
  · have hawait := h.await hdoc
    exact ⟨h.cursor, h.file, h.space, hawait.pending, h.blocks⟩

theorem namespaceDeclaration : s.namespaceDeclaration.Sound := by
  rw [Reading.namespaceDeclaration]
  split
  next name c hname =>
  have hfound : name.Plain ∧ c.Clean := by
    split at hname
    · next t d hd =>
      cases hname
      obtain ⟨hplain, hclean⟩ := h.cursor.step.name? hd
      exact ⟨Fqsen.plain_ofText hplain, hclean⟩
    · cases hname
      exact ⟨Fqsen.plain_root, h.cursor.step⟩
  split
  · next inner hinner =>
    refine ⟨hfound.2.eat hinner, h.file, hfound.1, h.forget.pending, fun b hb f hf => ?_⟩
    rcases List.mem_cons.mp hb with rfl | hb
    · cases hf
      exact h.space
    · exact h.blocks b hb f hf
  · exact ⟨hfound.2.dropEnd, h.file, hfound.1, h.forget.pending, h.blocks⟩

theorem useDeclaration : s.useDeclaration.Sound := by
  have hs := h.forget.step
  simp only [Reading.useDeclaration]
  split
  · exact hs.moveTo hs.cursor.skipStatement
  · have hclean := clean_importList s.forget.step.cursor.fuel hs.cursor
    have hrooted := rooted_foldl_insert _
      (rooted_importList s.forget.step.cursor.fuel s.forget.step.cursor) hs.file.aliases
    exact ⟨hclean.skipStatement, hs.file.congr rfl rfl rfl rfl rfl hs.file.tags hrooted, hs.space,
      hs.pending, hs.blocks⟩

theorem includeStatement : s.includeStatement.Sound := by
  have hclean := h.cursor.step.expression []
  exact ⟨hclean.dropEnd, h.file.congr rfl rfl rfl rfl rfl h.file.tags h.file.aliases, h.space,
    h.pending, h.blocks⟩

/-- The documentation of an element that is being read. -/
theorem info {fqsen : Fqsen} (hr : fqsen.Rooted) (line : Nat) :
    (document s.pending (.ofFqsen fqsen line)).Sound :=
  (Info.sound_ofFqsen hr line).document h.pending

omit h in
theorem parentAt {c d : Cursor} (hc : c.Clean) {parent : Option Reference}
    (hd : s.parentAt c = (parent, d)) : d.Clean ∧ ∀ r ∈ parent, r.resolved = none := by
  rw [Reading.parentAt] at hd
  split at hd
  · cases hd
    exact ⟨hc, by simp⟩
  · next sign hsign =>
    have hclean := hc.eat hsign
    split at hd
    · next t e he =>
      cases hd
      refine ⟨(hclean.name? he).2, fun r hr => ?_⟩
      cases hr
      rfl
    · cases hd
      exact ⟨hclean, by simp⟩

theorem listBehind {keyword : String} {refs : List Reference} {t : Reading}
    (ht : s.listBehind keyword = (refs, t)) : t.Sound ∧ ∀ r ∈ refs, r.resolved = none := by
  rw [Reading.listBehind] at ht
  split at ht
  · next c hc =>
    have hrefs := (h.moveTo (h.cursor.eat hc)).references
    rwa [ht] at hrefs
  · cases ht
    exact ⟨h, by simp⟩

theorem classDeclaration : s.classDeclaration.Sound := by
  have hskip := h.cursor.skip (classModifiers s.cursor.rest).2.2
  rw [Reading.classDeclaration]
  dsimp only
  split
  · exact h.moveTo hskip
  · next keyword hkeyword =>
    have hclean := hskip.eat hkeyword
    split
    · exact h.moveTo hclean
    · next name c hname =>
      obtain ⟨hcolon, hc⟩ := hclean.name? hname
      have hplain := h.space.join hcolon
      obtain ⟨hd, hparent⟩ := Sound.parentAt (s := s) hc rfl
      obtain ⟨ht, hinterfaces⟩ := (h.forget.moveTo hd).listBehind rfl
      split
      · next u hbody => exact (ht.classBody hplain hbody).1
      · next members traits u hbody =>
        obtain ⟨hu, hfound⟩ := ht.classBody hplain hbody
        obtain ⟨hmembers, htraits⟩ := hfound members traits rfl
        refine hu.withFile (hu.file.addClass ?_ (h.info hplain.1 s.cursor.line) ?_ ?_)
        · rw [fqsen_document]
          exact hplain
        · rw [fqsen_document]
          exact hmembers
        · intro r hr
          rcases List.mem_append.mp hr with hr | hr
          · rcases List.mem_append.mp hr with hr | hr
            · exact hparent r (Option.mem_toList.mp hr)
            · exact hinterfaces r hr
          · exact htraits r hr

theorem interfaceDeclaration : s.interfaceDeclaration.Sound := by
  rw [Reading.interfaceDeclaration]
  split
  · exact h.step
  · next name c hname =>
    obtain ⟨hcolon, hclean⟩ := h.cursor.step.name? hname
    have hplain := h.space.join hcolon
    obtain ⟨ht, hparents⟩ := (h.forget.moveTo hclean).listBehind rfl
    dsimp only
    split
    · next u hbody => exact (ht.classBody hplain hbody).1
    · next members traits u hbody =>
      obtain ⟨hu, hfound⟩ := ht.classBody hplain hbody
      refine hu.withFile (hu.file.addInterface ?_ (h.info hplain.1 s.cursor.line) ?_ hparents)
      · rw [fqsen_document]
        exact hplain
      · rw [fqsen_document]
        exact (hfound members traits rfl).1

theorem traitDeclaration : s.traitDeclaration.Sound := by
  rw [Reading.traitDeclaration]
  split
  · exact h.step
  · next name c hname =>
    obtain ⟨hcolon, hclean⟩ := h.cursor.step.name? hname
    have hplain := h.space.join hcolon
    dsimp only
    split
    · next u hbody => exact ((h.forget.moveTo hclean).classBody hplain hbody).1
    · next members traits u hbody =>
      obtain ⟨hu, hfound⟩ := (h.forget.moveTo hclean).classBody hplain hbody
      obtain ⟨hmembers, htraits⟩ := hfound members traits rfl
      refine hu.withFile (hu.file.addTrait ?_ (h.info hplain.1 s.cursor.line) ?_ htraits)
      · rw [fqsen_document]
        exact hplain
      · rw [fqsen_document]
        exact hmembers

theorem skipDeclaration : s.skipDeclaration.Sound := by
  have hskip := h.moveTo (h.cursor.skip (Cursor.headerWidth 0 s.cursor.rest).1)
  rw [Reading.skipDeclaration]
  dsimp only
  split
  · exact hskip.skipBlock _
  · exact hskip

theorem functionDeclaration : s.functionDeclaration.Sound := by
  have hc := h.cursor.step.eat_getD (·.is "&")
  rw [Reading.functionDeclaration]
  dsimp only
  split
  · exact h.moveTo hc
  · next name afterName hname =>
    obtain ⟨hcolon, hclean⟩ := hc.name? hname
    split
    · have hplain : (s.space.join (name.text ++ "()")).Plain := by
        refine h.space.join fun hmem => ?_
        rw [String.toList_append, List.mem_append] at hmem
        exact hmem.elim hcolon (by decide)
      have ht := (h.forget.moveTo hclean).signature s.pending
      refine ht.withFile (ht.file.addFunction ?_ (h.info hplain.1 s.cursor.line))
      rw [fqsen_document]
      exact hplain
    · exact h.moveTo hc

theorem constantDeclaration : s.constantDeclaration.Sound := by
  have ht := h.forget.step.constants
  refine ht.withFile ?_
  have hadd (constants : List (Token × String)) (f : File) (hf : f.AsRead) :
      (constants.foldl (fun f constant => f.addConstant
        ⟨document s.pending (.ofFqsen (s.space.join constant.1.text) s.cursor.line),
          { value := constant.2 }⟩) f).AsRead := by
    induction constants generalizing f with
    | nil => exact hf
    | cons constant rest ih =>
      exact ih _ (hf.addConstant (h.info (h.space.1.join constant.1.text) s.cursor.line))
  exact hadd _ _ ht.file

theorem defineCall : s.defineCall.Sound := by
  have hc := h.cursor.step
  rw [Reading.defineCall]
  dsimp only
  split
  · split
    · refine ⟨?_, h.file.addConstant (h.info (Fqsen.rooted_ofText _) s.cursor.line), h.space,
        h.forget.pending, h.blocks⟩
      exact (((hc.skip 3).expression []).eat_getD _).dropEnd
    · exact h.moveTo hc
  · exact h.moveTo hc

theorem settled (b : Bool) : Sound { s with fileDocSettled := b } :=
  ⟨h.cursor, h.file, h.space, h.pending, h.blocks⟩

/-! ### Runs -/

theorem wordAhead (t : Token) : (s.wordAhead t).Sound := by
  unfold Reading.wordAhead
  dsimp only
  have hs : Sound (if declarationWords.contains (Text.asciiLower t.text) = true
      then { s with fileDocSettled := true } else s) := by
    split
    · exact h.settled true
    · exact h
  generalize (if declarationWords.contains (Text.asciiLower t.text) = true
      then { s with fileDocSettled := true } else s) = u at hs ⊢
  split
  · exact hs.namespaceDeclaration
  · exact hs.useDeclaration
  · split
    · exact hs.forget.skipDeclaration
    · exact hs.classDeclaration
  · exact hs.classDeclaration
  · exact hs.classDeclaration
  · exact hs.classDeclaration
  · exact hs.interfaceDeclaration
  · exact hs.traitDeclaration
  · split
    · exact hs.forget.skipDeclaration
    · exact hs.step
  · exact hs.functionDeclaration
  · exact hs.constantDeclaration
  · exact hs.defineCall
  · exact hs.includeStatement
  · exact hs.includeStatement
  · exact hs.includeStatement
  · exact hs.includeStatement
  · exact hs.step

theorem closeBlock : s.closeBlock.Sound := by
  rw [Reading.closeBlock]
  split
  · exact h
  · next block blocks hblocks =>
    refine ⟨h.cursor, h.file, ?_, h.pending, fun b hb => h.blocks b (by simp [hblocks, hb])⟩
    cases houter : block.outer with
    | none => exact h.space
    | some outer => exact h.blocks block (by simp [hblocks]) outer houter

/-- One step of the reader. -/
theorem tokenAhead (t : Token) : (s.tokenAhead t).Sound := by
  unfold Reading.tokenAhead
  split
  · exact h.step.docComment t
  · split
    · exact h.step
    · exact h.wordAhead t
  · split
    · have hs := h.forget.step
      refine ⟨hs.cursor, hs.file, hs.space, hs.pending, fun b hb f hf => ?_⟩
      rcases List.mem_cons.mp hb with rfl | hb
      · simp at hf
      · exact h.blocks b hb f hf
    · split
      · exact h.forget.step.closeBlock
      · split
        · exact h.forget.step
        · exact h.step

/-- All steps of the reader. -/
theorem run (fuel : Nat) : (Reading.run fuel s).Sound := by
  induction fuel generalizing s with
  | zero => exact h
  | succ fuel ih =>
    rw [Reading.run]
    split
    · exact h
    · next t _ => exact ih (h.tokenAhead t)

theorem finish : s.finish.AsRead := by
  have hreports (blocks : List OpenBlock) {u : Reading} (hu : u.Sound) :
      (blocks.foldl (fun s block => s.report block.line "unclosed block") u).Sound := by
    induction blocks generalizing u with
    | nil => exact hu
    | cons block rest ih => exact ih (hu.report _ _)
  exact (hreports s.blocks h).file

end Sound

end Reading

theorem File.asRead_empty (path hash : String) : File.AsRead { path := path, hash := hash } := by
  refine ⟨fun kind key item hi => ?_, fun kind key m hi => ?_, fun kind key b hi => ?_,
    Tags.unlinked_empty, by simp⟩
  all_goals cases kind <;> simp [topItem?, membersIn?, basesAt?] at hi

/-- What is read of a source is what is read of its tokens. -/
theorem File.ofSource_eq_ok_iff {path content : String} {f : File} :
    ofSource path content = .ok f ↔ ∃ tokens, Token.ofSource content = .ok tokens ∧
      ofTokens { path := path, hash := Digest.ofText content } tokens = f := by
  rw [ofSource]
  cases Token.ofSource content <;> simp [Except.map]

/-- A file is as read, whatever its source is. -/
theorem File.asRead_ofSource {path content : String} {f : File}
    (h : File.ofSource path content = .ok f) : f.AsRead := by
  obtain ⟨tokens, htokens, rfl⟩ := ofSource_eq_ok_iff.mp h
  have hstart : Reading.Sound
      { cursor := { rest := tokens }, file := { path := path, hash := Digest.ofText content } } :=
    ⟨Token.clean_ofSource htokens, File.asRead_empty _ _, Fqsen.plain_root, by simp, by simp⟩
  exact (hstart.run _).finish

end ApiDoc
