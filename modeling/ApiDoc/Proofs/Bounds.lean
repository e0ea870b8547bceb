import ApiDoc.Proofs.Bodies
import ApiDoc.Proofs.Guarded
import ApiDoc.Proofs.Includes

/-!
# The reader keeps to its bounds

Members and statements, read with guards. No routine moves a place back, and each round of a loop
goes on by a token, so the guards hold wherever the reader can be: `reads_within_bounds` says so for
every source that is divided into tokens.
-/

namespace ApiDoc.Guarded

open Cursor
open InlineTag (byteLength byteLength_eq byteLength_append)

variable {lim : Limits}

/-! ### Members -/

def traitUse (lim : Limits) (b : BodyReading) : Option BodyReading := do
  let (traits, s) ← references lim b.state
  let s ← skipBody lim s
  some { b with state := s.forget, traits := b.traits ++ traits, modifiers := {} }

theorem traitUse_eq (h : lim.Suffice) {b : BodyReading}
    (hb : b.state.cursor.rest <:+ lim.tokens) : traitUse lim b = some b.traitUse := by
  have hnames := (Reading.moves_references b.state).leads.suffix.trans hb
  rw [traitUse, references_eq h hb]
  simp only [Option.bind_eq_bind, Option.bind_some, skipBody_eq h hnames]
  rfl

def method (lim : Limits) (b : BodyReading) : Option BodyReading :=
  let s := b.state.moveTo ((b.state.cursor.eatPunct "&").getD b.state.cursor)
  match s.cursor.name? with
  | none => some { b with state := s.forget, modifiers := {} }
  | some (name, c) => do
    let doc := s.pending
    let (arguments, returnTypes, s) ← signature lim (s.forget.moveTo c) doc
    let declared := Element.method b.owner name.text (b.modifiers.line.getD name.line)
    let method : Element MethodBody := {
      info := Reading.document doc declared.info
      body := {
        visibility := b.modifiers.visibility.getD .public
        isAbstract := b.modifiers.isAbstract
        isFinal := b.modifiers.isFinal
        isStatic := b.modifiers.isStatic
        arguments := arguments
        returnTypes := returnTypes } }
    some { b with state := s, members := b.members.addMethod method, modifiers := {} }

theorem method_eq (h : lim.Suffice) {b : BodyReading}
    (hb : b.state.cursor.rest <:+ lim.tokens) : method lim b = some b.method := by
  have hsign := b.state.cursor.leads_eat_getD (·.is "&")
  rw [method, BodyReading.method]
  dsimp only
  cases hname : (b.state.moveTo ((b.state.cursor.eatPunct "&").getD b.state.cursor)).cursor.name?
    with
  | none => rfl
  | some found =>
    obtain ⟨name, c⟩ := found
    have hc : c.rest <:+ lim.tokens := (hsign.trans (leads_name? hname)).suffix.trans hb
    dsimp only
    rw [signature_eq h (s := Reading.moveTo _ c) hc]
    rfl

/-- The default value of a property, if an equals sign is next, and the place after it. -/
def defaultAt (lim : Limits) (c : Cursor) : Option (Option String × Cursor) :=
  match c.eatPunct "=" with
  | none => some (none, c)
  | some c => do
    let (value, c) ← expression lim c [","]
    some (some value, c)

theorem defaultAt_eq (h : lim.Suffice) {c : Cursor} (hc : c.rest <:+ lim.tokens) :
    defaultAt lim c = some (BodyReading.defaultAt c) := by
  rw [defaultAt, BodyReading.defaultAt]
  cases hsign : c.eatPunct "=" with
  | none => rfl
  | some sign =>
    dsimp only
    rw [expression_eq h ((leads_eat hsign).suffix.trans hc)]
    rfl

/-- Reads properties from the first variable on, which is already passed over. -/
def propertyList (lim : Limits) (owner : Fqsen) (modifiers : Modifiers) (doc : Option DocBlock) :
    Nat → Token → Cursor → Members → Option (Members × Cursor)
  | 0, _, _, _ => none
  | n + 1, t, c, members => do
    let (default, c) ← defaultAt lim c
    let members := members.addProperty (BodyReading.propertyOf owner modifiers doc t default)
    match c.eatPunct "," with
    | none => some (members, c)
    | some c =>
      match c.take? .variableName with
      | none => some (members, c)
      | some (t, c) => propertyList lim owner modifiers doc n t c members

theorem propertyList_eq (h : lim.Suffice) {owner : Fqsen} {modifiers : Modifiers}
    {doc : Option DocBlock} {n : Nat} {t : Token} {c : Cursor} {members : Members}
    (hc : c.rest <:+ lim.tokens) (hn : c.rest.length < n) :
    propertyList lim owner modifiers doc n t c members =
      some (BodyReading.propertyList owner modifiers doc n t c members) := by
  induction n generalizing t c members with
  | zero => exact absurd hn (Nat.not_lt_zero _)
  | succ n ih =>
    have hvalue := BodyReading.leads_defaultAt c
    rw [propertyList, BodyReading.propertyList_succ, defaultAt_eq h hc]
    dsimp only [Option.bind_eq_bind, Option.bind_some]
    cases hcomma : (BodyReading.defaultAt c).2.eatPunct "," with
    | none => rfl
    | some d =>
      dsimp only
      cases hvariable : d.take? .variableName with
      | none => rfl
      | some found =>
        have hle := hvalue.length_le
        have hd := length_eat_lt hcomma
        have he := length_take?_lt hvariable
        have hnext := (hvalue.trans (leads_eat hcomma)).trans (leads_take? hvariable)
        exact ih (hnext.suffix.trans hc) (by omega)

def properties (lim : Limits) (b : BodyReading) (first : Token) : Option BodyReading := do
  let (members, c) ← propertyList lim b.owner b.modifiers b.state.pending lim.rounds first
    b.state.cursor b.members
  some { b with state := b.state.forget.moveTo c.dropEnd, members := members, modifiers := {} }

theorem properties_eq (h : lim.Suffice) {b : BodyReading}
    (hb : b.state.cursor.rest <:+ lim.tokens) (first : Token) :
    properties lim b first = some (b.properties first) := by
  have hrounds := h.length_lt hb
  rw [properties, propertyList_eq h hb hrounds,
    BodyReading.propertyList_congr hrounds (Nat.lt_succ_self b.state.cursor.rest.length)]
  rfl

def classConstants (lim : Limits) (b : BodyReading) : Option BodyReading := do
  let doc := b.state.pending
  let (found, s) ← constants lim b.state.forget
  let add (members : Members) (constant : Token × String) : Members :=
    let declared := Element.classConstant b.owner constant.1.text
      (b.modifiers.line.getD constant.1.line)
    members.addConstant {
      info := Reading.document doc declared.info
      body := { value := constant.2, visibility := b.modifiers.visibility.getD .public } }
  some { b with state := s, members := found.foldl add b.members, modifiers := {} }

theorem classConstants_eq (h : lim.Suffice) {b : BodyReading}
    (hb : b.state.cursor.rest <:+ lim.tokens) : classConstants lim b = some b.constants := by
  rw [classConstants, constants_eq h (s := b.state.forget) hb]
  rfl

/-- Reads on after a token that is already passed over and does not close the body. Only words and
variables start what moves the place further. -/
def member (lim : Limits) (b : BodyReading) (t : Token) : Option BodyReading :=
  let started := b.modifiers.startAt t.line
  match t.kind with
  | .name =>
    match Text.asciiLower t.text with
    | "use" => traitUse lim b
    | "const" => classConstants lim { b with modifiers := started }
    | "function" =>
      let isAbstract := started.isAbstract || b.isInterface
      method lim { b with modifiers := { started with isAbstract := isAbstract } }
    | "case" => do
      let c ← statementEnd lim.rounds 0 b.state.cursor
      some { b with state := b.state.forget.moveTo c, modifiers := {} }
    | _ => some (b.token t)
  | .variableName => properties lim { b with modifiers := started } t
  | _ => some (b.token t)

theorem member_eq (h : lim.Suffice) {b : BodyReading}
    (hb : b.state.cursor.rest <:+ lim.tokens) (t : Token) :
    member lim b t = some (b.token t) := by
  rw [member]
  dsimp only
  split
  · next hname =>
    rw [BodyReading.token, hname]
    dsimp only
    split
    · next hword =>
      simp only [BodyReading.word, hword]
      exact traitUse_eq h hb
    · next hword =>
      simp only [BodyReading.word, hword]
      exact classConstants_eq h hb
    · next hword =>
      simp only [BodyReading.word, hword]
      exact method_eq h hb
    · next hword =>
      simp only [BodyReading.word, hword, statementEnd_eq (h.length_lt hb)]
      rfl
    · rfl
  · next hvariable =>
    rw [BodyReading.token, hvariable]
    exact properties_eq h (b := { b with modifiers := b.modifiers.startAt t.line }) hb t
  · rfl

def members (lim : Limits) (openLine : Nat) : Nat → BodyReading → Option BodyReading
  | 0, _ => none
  | n + 1, b =>
    match b.state.cursor.peek with
    | none =>
      some { b with state := b.state.report openLine ("unclosed body of " ++ b.owner.text) }
    | some t => do
      let b := { b with state := b.state.moveTo (← advance b.state.cursor) }
      if t.closesBlock then some b else members lim openLine n (← member lim b t)

theorem members_eq (h : lim.Suffice) {openLine n : Nat} {b : BodyReading}
    (hb : b.state.cursor.rest <:+ lim.tokens) (hn : b.state.cursor.rest.length < n) :
    members lim openLine n b = some (BodyReading.untilClose openLine n b) := by
  induction n generalizing b with
  | zero => exact absurd hn (Nat.not_lt_zero _)
  | succ n ih =>
    rw [members, BodyReading.untilClose]
    cases ht : b.state.cursor.peek with
    | none => rfl
    | some t =>
      let d : BodyReading := { b with state := b.state.step }
      have hstep : d.state.cursor.rest.length < b.state.cursor.rest.length :=
        length_step_lt (ne_nil_of_peek ht)
      have hd : d.state.cursor.rest <:+ lim.tokens := b.state.cursor.leads_step.suffix.trans hb
      have hmember := BodyReading.leads_token d t
      have hle := hmember.length_le
      have hmore := ih (b := d.token t) (hmember.suffix.trans hd)
        (Nat.lt_of_le_of_lt hle (by omega))
      dsimp only [Option.bind_eq_bind]
      rw [advance_of_peek ht, Option.bind_some]
      split
      · rfl
      · exact (congrArg (Option.bind · _) (member_eq h hd t)).trans hmore

def classBody (lim : Limits) (s : Reading) (owner : Fqsen) (isInterface : Bool) :
    Option (Option (Members × List Reference) × Reading) :=
  let line := s.cursor.line
  match s.cursor.eat Token.opensBlock with
  | none => some (none, s.report line ("expected body for " ++ owner.text))
  | some inner => do
    let b ← members lim line lim.rounds
      { owner := owner, isInterface := isInterface, state := s.moveTo inner }
    some (some (b.members, b.traits), b.state)

theorem classBody_eq (h : lim.Suffice) {s : Reading} (hs : s.cursor.rest <:+ lim.tokens)
    (owner : Fqsen) (isInterface : Bool) :
    classBody lim s owner isInterface = some (s.classBody owner isInterface) := by
  rw [classBody, Reading.classBody]
  cases hinner : s.cursor.eat Token.opensBlock with
  | none => rfl
  | some inner =>
    let b : BodyReading := { owner, isInterface, state := s.moveTo inner }
    have hrest : b.state.cursor.rest <:+ lim.tokens := (leads_eat hinner).suffix.trans hs
    have hrounds := h.length_lt hrest
    have hread : members lim s.cursor.line lim.rounds b =
        some (BodyReading.untilClose s.cursor.line lim.rounds b) := members_eq h hrest hrounds
    rw [BodyReading.untilClose_congr hrounds (Nat.lt_succ_self inner.rest.length)] at hread
    exact congrArg (Option.bind · _) hread

/-! ### Namespaces and imports -/

def namespaceDeclaration (s : Reading) : Option Reading := do
  let c ← advance s.cursor
  let (name, c) :=
    match c.name? with
    | some (t, c) => (Fqsen.ofText t.text, c)
    | none => (Fqsen.root, c)
  some <| match c.eat Token.opensBlock with
    | some inner =>
      { s.forget with cursor := inner, space := name, blocks := ⟨c.line, some s.space⟩ :: s.blocks }
    | none => { s.forget with cursor := c.dropEnd, space := name }

theorem namespaceDeclaration_eq {s : Reading} {t : Token} (ht : s.cursor.peek = some t) :
    namespaceDeclaration s = some s.namespaceDeclaration := by
  rw [namespaceDeclaration, advance_of_peek ht]
  rfl

def importGroup (start : List Char) : Nat → Cursor → Option (List (String × Fqsen) × Cursor)
  | 0, _ => none
  | n + 1, c =>
    match c.name? with
    | none => some ([], c)
    | some (t, c) =>
      let (item, c) :=
        Reading.importAt (String.ofList (start ++ Fqsen.separator :: t.text.toList)) c
      match c.eatPunct "," with
      | none => some ([item], c)
      | some c => do
        let (items, c) ← importGroup start n c
        some (item :: items, c)

theorem importGroup_eq {start : List Char} {n : Nat} {c : Cursor} (hn : c.rest.length < n) :
    importGroup start n c = some (Reading.importGroup start n c) := by
  induction n generalizing c with
  | zero => exact absurd hn (Nat.not_lt_zero _)
  | succ n ih =>
    rw [importGroup, Reading.importGroup]
    cases hname : c.name? with
    | none => rfl
    | some found =>
      obtain ⟨t, d⟩ := found
      let target := String.ofList (start ++ Fqsen.separator :: t.text.toList)
      have hd := length_take?_lt hname
      have hitem := (Reading.leads_importAt target d).length_le
      dsimp only
      cases hcomma : (Reading.importAt target d).2.eatPunct "," with
      | none => rfl
      | some e =>
        have he := length_eat_lt hcomma
        dsimp only
        rw [ih (c := e) (by omega)]
        rfl

def importName (lim : Limits) (t : Token) (c : Cursor) :
    Option (List (String × Fqsen) × Cursor) :=
  match c.eat Token.opensBlock with
  | none =>
    let (item, c) := Reading.importAt t.text c
    some ([item], c)
  | some c => do
    let start := Text.dropTrailChar Fqsen.separator t.text.toList
    let (items, c) ← importGroup start lim.rounds c
    some (items, (c.eat Token.closesBlock).getD c)

theorem importName_eq (h : lim.Suffice) (t : Token) {c : Cursor} (hc : c.rest <:+ lim.tokens) :
    importName lim t c = some (Reading.importName t c) := by
  rw [importName, Reading.importName]
  cases hopen : c.eat Token.opensBlock with
  | none => rfl
  | some d =>
    have hrounds := h.length_lt ((leads_eat hopen).suffix.trans hc)
    dsimp only
    rw [importGroup_eq hrounds,
      Reading.importGroup_congr hrounds (Nat.lt_succ_self d.rest.length)]
    rfl

def importList (lim : Limits) : Nat → Cursor → Option (List (String × Fqsen) × Cursor)
  | 0, _ => none
  | n + 1, c =>
    match c.name? with
    | none => some ([], c)
    | some (t, c) => do
      let (items, c) ← importName lim t c
      match c.eatPunct "," with
      | none => some (items, c)
      | some c =>
        let (more, c) ← importList lim n c
        some (items ++ more, c)

theorem importList_eq (h : lim.Suffice) {n : Nat} {c : Cursor} (hc : c.rest <:+ lim.tokens)
    (hn : c.rest.length < n) : importList lim n c = some (Reading.importList n c) := by
  induction n generalizing c with
  | zero => exact absurd hn (Nat.not_lt_zero _)
  | succ n ih =>
    rw [importList, Reading.importList]
    cases hname : c.name? with
    | none => rfl
    | some found =>
      obtain ⟨t, d⟩ := found
      have hd := length_take?_lt hname
      have hitem := Reading.leads_importName t d
      have hrest := (leads_name? hname).suffix.trans hc
      dsimp only [Option.bind_eq_bind]
      rw [importName_eq h t hrest, Option.bind_some]
      cases hcomma : (Reading.importName t d).2.eatPunct "," with
      | none => rfl
      | some e =>
        have hle := hitem.length_le
        have he := length_eat_lt hcomma
        dsimp only
        rw [ih (c := e) ((hitem.trans (leads_eat hcomma)).suffix.trans hrest) (by omega)]
        rfl

def useDeclaration (lim : Limits) (s : Reading) : Option Reading := do
  let s := s.forget.moveTo (← advance s.cursor)
  if s.cursor.next (fun t => t.isKeyword "function" || t.isKeyword "const") then
    some (s.moveTo (← statementEnd lim.rounds 0 s.cursor))
  else
    let (items, c) ← importList lim lim.rounds s.cursor
    let aliases := items.foldl (fun m item => m.insert item.1 item.2) s.file.aliases
    some { s with
      cursor := ← statementEnd lim.rounds 0 c, file := { s.file with aliases := aliases } }

theorem useDeclaration_eq (h : lim.Suffice) {s : Reading} (hs : s.cursor.rest <:+ lim.tokens)
    {t : Token} (ht : s.cursor.peek = some t) :
    useDeclaration lim s = some s.useDeclaration := by
  have hstep := s.cursor.leads_step.suffix.trans hs
  have hrounds := h.length_lt hstep
  have hlist := (Reading.leads_importList s.cursor.step.fuel s.cursor.step).suffix.trans hstep
  have hsame : Reading.importList lim.rounds s.cursor.step =
      Reading.importList s.cursor.step.fuel s.cursor.step :=
    Reading.importList_congr hrounds (Nat.lt_succ_self _)
  have hcursor : (s.forget.moveTo s.cursor.step).cursor = s.cursor.step := rfl
  rw [useDeclaration, advance_of_peek ht, Reading.useDeclaration]
  simp only [Option.bind_eq_bind, Option.bind_some, hcursor, importList_eq h hstep hrounds, hsame,
    statementEnd_eq hrounds, statementEnd_eq (h.length_lt hlist)]
  exact (apply_ite some _ _ _).symm

/-- Whether a text of at least two bytes starts and ends with the same quote. -/
def isQuoted (text : String) : Bool :=
  2 ≤ text.utf8ByteSize && ['\x27', '\x22'].any fun q =>
    text.toList.head? == some q && text.toList.getLast? == some q

/-- The content of a text between two equal quotes, cut out of it. -/
def unquote (text : String) : Option String :=
  if isQuoted text then do
    let inner ← Text.slice? text 1 (← lower text.utf8ByteSize)
    some (String.ofList (Text.replaceAll ['\\', '\\'] ['\\'] inner.toList))
  else some text

theorem byteLength_quote {q : Char} (h : Lexer.isQuote q = true) : byteLength [q] = 1 := by
  rcases Text.isQuote_iff.mp h with rfl | rfl <;> rfl

theorem size_of_quoted {q : Char} {content : List Char} (h : Lexer.isQuote q = true) :
    (String.ofList (q :: (content ++ [q]))).utf8ByteSize = 1 + byteLength content + 1 := by
  rw [← byteLength_eq, ← List.singleton_append, byteLength_append, byteLength_append,
    byteLength_quote h, Nat.add_assoc]

theorem isQuoted_iff (cs : List Char) :
    isQuoted (String.ofList cs) = true ↔ ∃ content, Text.Quoted cs content := by
  rw [isQuoted, String.toList_ofList]
  constructor
  · intro h
    obtain ⟨hsize, hends⟩ := Bool.and_eq_true_iff.mp h
    obtain ⟨q, hq, hboth⟩ := List.any_eq_true.mp hends
    rw [Bool.and_eq_true, beq_iff_eq, beq_iff_eq] at hboth
    have hquote : Lexer.isQuote q = true := Text.isQuote_iff.mpr (by simpa using hq)
    obtain ⟨rest, rfl⟩ := List.head?_eq_some_iff.mp hboth.1
    cases rest with
    | nil =>
      rw [← byteLength_eq, byteLength_quote hquote] at hsize
      cases hsize
    | cons c rest =>
      rw [List.getLast?_cons_cons] at hboth
      exact ⟨_, q, hquote, congrArg (q :: ·) (List.dropLast_append_getLast? q hboth.2).symm⟩
  · rintro ⟨content, q, hq, rfl⟩
    rw [size_of_quoted hq, Bool.and_eq_true, List.any_eq_true]
    refine ⟨decide_eq_true (by omega), q, by simpa using Text.isQuote_iff.mp hq, ?_⟩
    rw [← List.cons_append, List.getLast?_concat]
    simp

theorem unquote_eq (text : String) : unquote text = some (Reader.unquote text) := by
  obtain ⟨cs, rfl⟩ : ∃ cs, text = String.ofList cs := ⟨text.toList, String.ofList_toList.symm⟩
  rw [unquote]
  split
  · next hquoted =>
    obtain ⟨content, q, hq, rfl⟩ := (isQuoted_iff cs).mp hquoted
    have hslice := @Text.slice?_of_toList (String.ofList (q :: (content ++ [q]))) [q] content [q]
      (by rw [String.toList_ofList]; rfl)
    rw [byteLength_append, byteLength_quote hq] at hslice
    rw [size_of_quoted hq, lower_succ, Reader.unquote_of_quoted ⟨q, hq, rfl⟩]
    simp only [Option.bind_eq_bind, Option.bind_some, hslice, String.toList_ofList,
      Text.replaceAll_doubled]
  · next hquoted =>
    rw [isQuoted_iff, not_exists] at hquoted
    rw [Reader.unquote_of_not_quoted hquoted]

def includeText (expression : String) : Option (Option String) :=
  let inner := (Text.after? ['('] expression.toList).bind (Text.before? [')'])
  let text :=
    match inner with
    | some cs => String.ofList (Text.trim cs)
    | none => expression
  if text.isEmpty then some none else (unquote text).map some

theorem includeText_eq (expression : String) :
    includeText expression = some (Reading.includeText expression) := by
  simp only [includeText, unquote_eq, Option.map_some, ← apply_ite some]
  rfl

def includeStatement (lim : Limits) (s : Reading) : Option Reading := do
  let (text, c) ← expression lim (← advance s.cursor) []
  let found ← includeText text
  some { s with
    cursor := c.dropEnd
    file := { s.file with includes := s.file.includes ++ found.toList } }

theorem includeStatement_eq (h : lim.Suffice) {s : Reading}
    (hs : s.cursor.rest <:+ lim.tokens) {t : Token} (ht : s.cursor.peek = some t) :
    includeStatement lim s = some s.includeStatement := by
  have hstep : s.cursor.step.rest <:+ lim.tokens := s.cursor.leads_step.suffix.trans hs
  rw [includeStatement, advance_of_peek ht, Reading.includeStatement]
  dsimp only [Option.bind_eq_bind, Option.bind_some]
  rw [expression_eq h hstep, Option.bind_some, includeText_eq, Option.bind_some]

/-! ### Class-likes -/

def classModifiers : Nat → Bool → Bool → Cursor → Option (Bool × Bool × Cursor)
  | 0, _, _, _ => none
  | n + 1, isAbstract, isFinal, c =>
    match c.peek with
    | none => some (isAbstract, isFinal, c)
    | some t =>
      if t.isKeyword "abstract" then do classModifiers n true isFinal (← advance c)
      else if t.isKeyword "final" then do classModifiers n isAbstract true (← advance c)
      else if t.isKeyword "readonly" then do classModifiers n isAbstract isFinal (← advance c)
      else some (isAbstract, isFinal, c)

theorem classModifiers_eq {n : Nat} {c : Cursor} (hn : c.rest.length < n)
    (isAbstract isFinal : Bool) :
    let found := Reading.classModifiers c.rest
    classModifiers n isAbstract isFinal c =
      some (isAbstract || found.1, isFinal || found.2.1, c.skip found.2.2) := by
  induction n generalizing c isAbstract isFinal with
  | zero => exact absurd hn (Nat.not_lt_zero _)
  | succ n ih =>
    obtain ⟨previous, rest⟩ := c
    cases rest with
    | nil => simp [classModifiers, peek, Reading.classModifiers]
    | cons t rest =>
      have hmore := @ih ⟨some t, rest⟩ (Nat.lt_of_succ_lt_succ hn)
      rw [classModifiers, Reading.classModifiers]
      simp only [peek, List.head?_cons, advance_cons, Option.bind_eq_bind, Option.bind_some, hmore]
      split
      · simp [Cursor.skip, step]
      · split
        · simp [Cursor.skip, step]
        · split
          · simp [Cursor.skip, step]
          · simp

def listBehind (lim : Limits) (s : Reading) (keyword : String) :
    Option (List Reference × Reading) :=
  match s.cursor.eatKeyword keyword with
  | some c => references lim (s.moveTo c)
  | none => some ([], s)

theorem listBehind_eq (h : lim.Suffice) {s : Reading} (hs : s.cursor.rest <:+ lim.tokens)
    (keyword : String) : listBehind lim s keyword = some (s.listBehind keyword) := by
  rw [listBehind, Reading.listBehind]
  cases hkeyword : s.cursor.eatKeyword keyword with
  | none => rfl
  | some c => exact references_eq h (s := s.moveTo c) ((leads_eat hkeyword).suffix.trans hs)

/-- Reads the body of a class-like and enters it. -/
def readHead (lim : Limits) (head : Head) : Option Reading := do
  match ← classBody lim head.state head.owner head.isInterface with
  | (none, s) => some s
  | (some (members, traits), s) => some { s with file := head.entry members traits s.file }

theorem readHead_eq (h : lim.Suffice) {head : Head}
    (hhead : head.state.cursor.rest <:+ lim.tokens) : readHead lim head = some head.read := by
  rw [readHead, classBody_eq h hhead, Head.read]
  rcases head.state.classBody head.owner head.isInterface with ⟨_ | ⟨members, traits⟩, s⟩ <;> rfl

def classDeclaration (lim : Limits) (s : Reading) : Option Reading := do
  let line := s.cursor.line
  let (isAbstract, isFinal, c) ← classModifiers lim.rounds false false s.cursor
  match c.eatKeyword "class" with
  | none => some (s.moveTo c)
  | some c =>
    match c.name? with
    | none => some (s.moveTo c)
    | some (name, c) =>
      let fqsen := s.space.join name.text
      let (parent, c) := s.parentAt c
      let (interfaces, state) ← listBehind lim (s.forget.moveTo c) "implements"
      readHead lim {
        owner := fqsen
        isInterface := false
        state := state
        entry := fun members traits f =>
          f.addClass ⟨Reading.document s.pending (.ofFqsen fqsen line), {
            parent := parent
            interfaces := interfaces
            usedTraits := traits
            isAbstract := isAbstract
            isFinal := isFinal
            members := members }⟩ }

theorem classDeclaration_eq (h : lim.Suffice) {s : Reading}
    (hs : s.cursor.rest <:+ lim.tokens) :
    classDeclaration lim s = some s.classDeclaration := by
  have hmodifiers := s.cursor.leads_skip (Reading.classModifiers s.cursor.rest).2.2
  rw [classDeclaration, Reading.classDeclaration_eq, Reading.classHead,
    classModifiers_eq (h.length_lt hs)]
  dsimp only [Option.bind_eq_bind, Option.bind_some, Bool.false_or]
  cases hkeyword : (s.cursor.skip (Reading.classModifiers s.cursor.rest).2.2).eatKeyword "class"
    with
  | none => rfl
  | some c =>
    dsimp only
    cases hname : c.name? with
    | none => rfl
    | some found =>
      obtain ⟨name, d⟩ := found
      have hparent := ((hmodifiers.trans (leads_eat hkeyword)).trans (leads_name? hname)).trans
        (s.leads_parentAt d)
      have hlist := hparent.trans
        (Reading.moves_listBehind (s.forget.moveTo (s.parentAt d).2) "implements").leads
      dsimp only
      rw [listBehind_eq h (s := s.forget.moveTo _) (hparent.suffix.trans hs), Option.bind_some]
      exact readHead_eq h (hlist.suffix.trans hs)

def interfaceDeclaration (lim : Limits) (s : Reading) : Option Reading := do
  let line := s.cursor.line
  let c ← advance s.cursor
  match c.name? with
  | none => some (s.moveTo c)
  | some (name, c) =>
    let fqsen := s.space.join name.text
    let (parents, state) ← listBehind lim (s.forget.moveTo c) "extends"
    readHead lim {
      owner := fqsen
      isInterface := true
      state := state
      entry := fun members _ f =>
        f.addInterface ⟨Reading.document s.pending (.ofFqsen fqsen line), {
          parents := parents
          members := members }⟩ }

theorem interfaceDeclaration_eq (h : lim.Suffice) {s : Reading}
    (hs : s.cursor.rest <:+ lim.tokens) {t : Token} (ht : s.cursor.peek = some t) :
    interfaceDeclaration lim s = some s.interfaceDeclaration := by
  rw [interfaceDeclaration, advance_of_peek ht, Reading.interfaceDeclaration_eq,
    Reading.interfaceHead]
  dsimp only [Option.bind_eq_bind, Option.bind_some]
  cases hname : s.cursor.step.name? with
  | none => rfl
  | some found =>
    obtain ⟨name, c⟩ := found
    have hlead := s.cursor.leads_step.trans (leads_name? hname)
    have hlist := hlead.trans (Reading.moves_listBehind (s.forget.moveTo c) "extends").leads
    dsimp only
    rw [listBehind_eq h (s := s.forget.moveTo c) (hlead.suffix.trans hs), Option.bind_some]
    exact readHead_eq h (hlist.suffix.trans hs)

def traitDeclaration (lim : Limits) (s : Reading) : Option Reading := do
  let line := s.cursor.line
  let c ← advance s.cursor
  match c.name? with
  | none => some (s.moveTo c)
  | some (name, c) =>
    let fqsen := s.space.join name.text
    readHead lim {
      owner := fqsen
      isInterface := false
      state := s.forget.moveTo c
      entry := fun members traits f =>
        f.addTrait ⟨Reading.document s.pending (.ofFqsen fqsen line), {
          usedTraits := traits
          members := members }⟩ }

theorem traitDeclaration_eq (h : lim.Suffice) {s : Reading}
    (hs : s.cursor.rest <:+ lim.tokens) {t : Token} (ht : s.cursor.peek = some t) :
    traitDeclaration lim s = some s.traitDeclaration := by
  rw [traitDeclaration, advance_of_peek ht, Reading.traitDeclaration_eq, Reading.traitHead]
  dsimp only [Option.bind_eq_bind, Option.bind_some]
  cases hname : s.cursor.step.name? with
  | none => rfl
  | some found =>
    obtain ⟨name, c⟩ := found
    exact readHead_eq h ((s.cursor.leads_step.trans (leads_name? hname)).suffix.trans hs)

def skipDeclaration (lim : Limits) (s : Reading) : Option Reading := do
  let (blockLine, c) ← headerEnd lim.rounds 0 s.cursor
  match blockLine with
  | some line => skipBlock lim (s.moveTo c) line
  | none => some (s.moveTo c)

theorem skipDeclaration_eq (h : lim.Suffice) {s : Reading} (hs : s.cursor.rest <:+ lim.tokens) :
    skipDeclaration lim s = some s.skipDeclaration := by
  have hheader := (s.cursor.leads_skip (headerWidth 0 s.cursor.rest).1).suffix.trans hs
  rw [skipDeclaration, headerEnd_eq (h.length_lt hs), Reading.skipDeclaration]
  dsimp only [Option.bind_eq_bind, Option.bind_some]
  cases (headerWidth 0 s.cursor.rest).2 with
  | none => rfl
  | some line => exact skipBlock_eq h (s := s.moveTo _) hheader _

/-! ### Functions and constants -/

def functionDeclaration (lim : Limits) (s : Reading) : Option Reading := do
  let line := s.cursor.line
  let c ← advance s.cursor
  let c := (c.eatPunct "&").getD c
  match c.name? with
  | none => some (s.moveTo c)
  | some (name, afterName) =>
    if afterName.next (·.is "(") then
      let fqsen := s.space.join (name.text ++ "()")
      let doc := s.pending
      let (arguments, returnTypes, s) ← signature lim (s.forget.moveTo afterName) doc
      let function : Element FunctionBody := {
        info := Reading.document doc (.ofFqsen fqsen line)
        body := { arguments := arguments, returnTypes := returnTypes } }
      some { s with file := s.file.addFunction function }
    else some (s.moveTo c)

theorem functionDeclaration_eq (h : lim.Suffice) {s : Reading}
    (hs : s.cursor.rest <:+ lim.tokens) {t : Token} (ht : s.cursor.peek = some t) :
    functionDeclaration lim s = some s.functionDeclaration := by
  have hsign := s.cursor.leads_step.trans (s.cursor.step.leads_eat_getD (·.is "&"))
  rw [functionDeclaration, advance_of_peek ht, Reading.functionDeclaration]
  dsimp only [Option.bind_eq_bind, Option.bind_some]
  cases hname : ((s.cursor.step.eatPunct "&").getD s.cursor.step).name? with
  | none => rfl
  | some found =>
    obtain ⟨name, c⟩ := found
    have hrest : c.rest <:+ lim.tokens := (hsign.trans (leads_name? hname)).suffix.trans hs
    dsimp only
    rw [signature_eq h (s := s.forget.moveTo c) hrest, Option.bind_some]
    exact (apply_ite some _ _ _).symm

def constantDeclaration (lim : Limits) (s : Reading) : Option Reading := do
  let line := s.cursor.line
  let doc := s.pending
  let (found, s) ← constants lim (s.forget.moveTo (← advance s.cursor))
  let add (f : File) (constant : Token × String) : File :=
    f.addConstant ⟨Reading.document doc (.ofFqsen (s.space.join constant.1.text) line),
      { value := constant.2 }⟩
  some { s with file := found.foldl add s.file }

theorem constantDeclaration_eq (h : lim.Suffice) {s : Reading}
    (hs : s.cursor.rest <:+ lim.tokens) {t : Token} (ht : s.cursor.peek = some t) :
    constantDeclaration lim s = some s.constantDeclaration := by
  have hstep : s.cursor.step.rest <:+ lim.tokens := s.cursor.leads_step.suffix.trans hs
  rw [constantDeclaration, advance_of_peek ht]
  dsimp only [Option.bind_eq_bind, Option.bind_some]
  rw [constants_eq h (s := s.forget.moveTo s.cursor.step) hstep]
  rfl

def defineCall (lim : Limits) (s : Reading) : Option Reading := do
  let line := s.cursor.line
  let c ← advance s.cursor
  match c.rest with
  | paren :: name :: comma :: _ =>
    if paren.is "(" && name.kind == .literal && comma.is "," then
      let afterComma ← advance (← advance (← advance c))
      let (value, c) ← expression lim afterComma []
      let c := ((c.eatPunct ")").getD c).dropEnd
      let text ← unquote name.text
      let info := Reading.document s.pending (.ofFqsen (Fqsen.ofText text) line)
      some { s.forget with cursor := c, file := s.file.addConstant ⟨info, { value := value }⟩ }
    else some (s.moveTo c)
  | _ => some (s.moveTo c)

theorem defineCall_eq (h : lim.Suffice) {s : Reading}
    (hs : s.cursor.rest <:+ lim.tokens) {t : Token} (ht : s.cursor.peek = some t) :
    defineCall lim s = some s.defineCall := by
  have hstep : s.cursor.step.rest <:+ lim.tokens := s.cursor.leads_step.suffix.trans hs
  rw [defineCall, advance_of_peek ht, Reading.defineCall]
  dsimp only [Option.bind_eq_bind, Option.bind_some]
  revert hstep
  generalize s.cursor.step = c
  intro hstep
  rcases c with ⟨previous, _ | ⟨paren, _ | ⟨name, _ | ⟨comma, rest⟩⟩⟩⟩
  case cons.cons.cons =>
    have hrest : rest <:+ lim.tokens := (List.suffix_append [paren, name, comma] rest).trans hstep
    simp only [advance_cons, Option.bind_some, unquote_eq,
      expression_eq h (c := ⟨some comma, rest⟩) hrest]
    exact (apply_ite some _ _ _).symm
  all_goals rfl

/-! ### Statements -/

def declaration (lim : Limits) (s : Reading) (t : Token) : Option Reading :=
  let word := Text.asciiLower t.text
  let s := if Reading.declarationWords.contains word then { s with fileDocSettled := true } else s
  match word with
  | "namespace" => namespaceDeclaration s
  | "use" => useDeclaration lim s
  | "class" =>
    if s.cursor.previous.any (·.isKeyword "new") then skipDeclaration lim s.forget
    else classDeclaration lim s
  | "abstract" => classDeclaration lim s
  | "final" => classDeclaration lim s
  | "readonly" => classDeclaration lim s
  | "interface" => interfaceDeclaration lim s
  | "trait" => traitDeclaration lim s
  | "enum" =>
    if (s.cursor.peekAt 1).any (·.kind == .name) then skipDeclaration lim s.forget
    else (advance s.cursor).map s.moveTo
  | "function" => functionDeclaration lim s
  | "const" => constantDeclaration lim s
  | "define" => defineCall lim s
  | "require" => includeStatement lim s
  | "require_once" => includeStatement lim s
  | "include" => includeStatement lim s
  | "include_once" => includeStatement lim s
  | _ => (advance s.cursor).map s.moveTo

theorem declaration_eq (h : lim.Suffice) {s : Reading}
    (hs : s.cursor.rest <:+ lim.tokens) {t : Token} (ht : s.cursor.peek = some t) :
    declaration lim s t = some (s.wordAhead t) := by
  rw [declaration, Reading.wordAhead]
  generalize Text.asciiLower t.text = word
  have hcursor : (if Reading.declarationWords.contains word then
      { s with fileDocSettled := true } else s).cursor = s.cursor := by
    split <;> rfl
  revert hcursor
  generalize (if Reading.declarationWords.contains word then
    { s with fileDocSettled := true } else s) = u
  intro hcursor
  rw [← hcursor] at hs ht
  have hskip := skipDeclaration_eq h (s := u.forget) hs
  have hclass := classDeclaration_eq h hs
  have hstep : (advance u.cursor).map u.moveTo = some u.step := by
    rw [advance_of_peek ht]
    rfl
  rw [namespaceDeclaration_eq ht, useDeclaration_eq h hs ht,
    interfaceDeclaration_eq h hs ht, traitDeclaration_eq h hs ht, functionDeclaration_eq h hs ht,
    constantDeclaration_eq h hs ht, defineCall_eq h hs ht, includeStatement_eq h hs ht, hclass,
    hskip, hstep, ← apply_ite some, ← apply_ite some]
  split
  case h_17 => simp only [*]
  all_goals rfl

def statement (lim : Limits) (s : Reading) (t : Token) : Option Reading :=
  match t.kind with
  | .docComment => do
    let s := s.moveTo (← advance s.cursor)
    some (s.docComment t)
  | .name =>
    if s.behindAccess then (advance s.cursor).map s.moveTo else declaration lim s t
  | _ => do
    let next := s.moveTo (← advance s.cursor)
    if t.opensBlock then some { next.forget with blocks := ⟨t.line, none⟩ :: s.blocks }
    else if t.closesBlock then some next.forget.closeBlock
    else if t.endsStatement then some next.forget
    else some next

theorem statement_eq (h : lim.Suffice) {s : Reading}
    (hs : s.cursor.rest <:+ lim.tokens) {t : Token} (ht : s.cursor.peek = some t) :
    statement lim s t = some (s.tokenAhead t) := by
  rw [statement, Reading.tokenAhead, advance_of_peek ht, declaration_eq h hs ht]
  cases t.kind with
  | docComment => rfl
  | name => exact (apply_ite some _ _ _).symm
  | _ =>
    simp only [Option.bind_eq_bind, Option.bind_some, apply_ite some]
    rfl

def statements (lim : Limits) : Nat → Reading → Option Reading
  | 0, _ => none
  | n + 1, s =>
    match s.cursor.peek with
    | none => some s
    | some t => do statements lim n (← statement lim s t)

theorem statements_eq (h : lim.Suffice) {n : Nat} {s : Reading}
    (hs : s.cursor.rest <:+ lim.tokens) (hn : s.cursor.rest.length < n) :
    statements lim n s = some (Reading.run n s) := by
  induction n generalizing s with
  | zero => exact absurd hn (Nat.not_lt_zero _)
  | succ n ih =>
    rw [statements, Reading.run]
    cases ht : s.cursor.peek with
    | none => rfl
    | some t =>
      have hle := Reading.length_tokenAhead_lt ht
      have hleads := s.cursor.leads_step.trans (Reading.step_leads_tokenAhead ht)
      dsimp only [Option.bind_eq_bind]
      rw [statement_eq h hs ht, Option.bind_some]
      exact ih (hleads.suffix.trans hs) (by omega)

/-! ### The whole source -/

/-- What is passed over of the tokens ahead, which are no more than there are. -/
theorem exists_le_of_leads {c d : Cursor} (h : c.Leads d) : ∃ n ≤ c.rest.length, d = c.skip n := by
  obtain ⟨n, rfl⟩ := h
  obtain ⟨previous, rest⟩ := c
  induction rest generalizing previous n with
  | nil =>
    refine ⟨0, Nat.le_refl 0, ?_⟩
    induction n with
    | zero => rfl
    | succ n ih => exact ih
  | cons t rest ih =>
    cases n with
    | zero => exact ⟨0, Nat.zero_le _, rfl⟩
    | succ n =>
      obtain ⟨m, hm, hskip⟩ := ih n (some t)
      exact ⟨m + 1, Nat.succ_le_succ hm, hskip⟩

/-- One step goes on by at least one token, and by no more than there are. -/
theorem exists_skip_tokenAhead {s : Reading} {t : Token} (ht : s.cursor.peek = some t) :
    ∃ n, 0 < n ∧ n ≤ s.cursor.rest.length ∧ (s.tokenAhead t).cursor = s.cursor.skip n := by
  obtain ⟨n, hn, hskip⟩ := exists_le_of_leads (Reading.step_leads_tokenAhead ht)
  have hstep := length_step_lt (ne_nil_of_peek ht)
  exact ⟨n + 1, Nat.succ_pos n, by omega, hskip⟩

/-- When all tokens are read, the place is behind the last one. -/
theorem cursor_run {fuel : Nat} {s : Reading} (hfuel : s.cursor.rest.length < fuel) :
    (Reading.run fuel s).cursor = s.cursor.skip s.cursor.rest.length := by
  induction fuel generalizing s with
  | zero => exact absurd hfuel (Nat.not_lt_zero _)
  | succ fuel ih =>
    rw [Reading.run]
    cases ht : s.cursor.peek with
    | none =>
      have hend : s.cursor.rest = [] := List.head?_eq_none_iff.mp ht
      rw [hend]
      rfl
    | some t =>
      obtain ⟨n, hpos, hle, hskip⟩ := exists_skip_tokenAhead ht
      have hrest : (s.tokenAhead t).cursor.rest.length = s.cursor.rest.length - n := by
        rw [hskip, rest_skip, List.length_drop]
      dsimp only
      rw [ih (by omega), hrest, hskip, ← skip_add, Nat.add_sub_cancel' hle]

/-- The reader keeps to its bounds on every source that is divided into tokens. With all guards it
has a result, which is that of the reader without them: no counter went below zero, and every part
of the source and of the tokens was there to be cut out. It ends, and behind the last token: one
round for each token and one more is enough for every loop, and a larger number changes nothing.
From any place in the tokens a step goes on by at least one token and not past the last one; what
reads on from a word is such a step. -/
theorem reads_within_bounds {source : String} {tokens : List Token}
    (h : Token.ofSource source = .ok tokens) :
    (∀ path : String,
      let start := Reading.start { path := path, hash := Digest.ofText source } tokens
      ∃ last, (∀ rounds, tokens.length < rounds →
          statements ⟨source, tokens, rounds⟩ rounds start = some last) ∧
        last.cursor = start.cursor.skip tokens.length ∧ last.cursor.rest = [] ∧
        File.ofSource path source = .ok last.finish) ∧
    ∀ rounds, tokens.length < rounds → ∀ (s : Reading) (t : Token),
      s.cursor.rest <:+ tokens → s.cursor.peek = some t →
      ∃ u n, statement ⟨source, tokens, rounds⟩ s t = some u ∧ u = s.tokenAhead t ∧
        u.cursor = s.cursor.skip n ∧ 0 < n ∧ n ≤ s.cursor.rest.length ∧
        (t.kind = .name → s.behindAccess = false →
          declaration ⟨source, tokens, rounds⟩ s t = some u) := by
  have hsuffice {rounds : Nat} (hrounds : tokens.length < rounds) :
      Limits.Suffice ⟨source, tokens, rounds⟩ := ⟨Token.spells_ofSource h, hrounds⟩
  constructor
  · intro path start
    have hstart : start.cursor.rest.length < tokens.length + 1 := Nat.lt_succ_self tokens.length
    have hcursor := cursor_run hstart
    refine ⟨Reading.run (tokens.length + 1) start, fun rounds hrounds => ?_, hcursor, ?_,
      File.ofSource_eq_ok_iff.mpr ⟨tokens, h, rfl⟩⟩
    · rw [statements_eq (hsuffice hrounds) (List.suffix_refl tokens) hrounds,
        Reading.run_congr hrounds hstart]
    · rw [hcursor, rest_skip]
      exact List.drop_length
  · intro rounds hrounds s t hs ht
    obtain ⟨n, hpos, hle, hskip⟩ := exists_skip_tokenAhead ht
    refine ⟨_, n, statement_eq (hsuffice hrounds) hs ht, rfl, hskip, hpos, hle,
      fun hname haccess => ?_⟩
    rw [declaration_eq (hsuffice hrounds) hs ht, Reading.tokenAhead_name hname haccess]

/-- A source with brackets of different sorts against each other, and with a class, a method and a
parameter list that nothing closes. -/
def unclosedSource : String :=
  "<?php define(\x27A\x27, [1); class B \x7b const C = 2; function d($e = 3, $f"

theorem reads_within_bounds_unclosed : ∃ tokens last,
    Token.ofSource unclosedSource = .ok tokens ∧
    statements ⟨unclosedSource, tokens, tokens.length + 1⟩ (tokens.length + 1) (Reading.start
      { path := "a.php", hash := Digest.ofText unclosedSource } tokens) = some last ∧
    last.cursor.rest = [] ∧ File.ofSource "a.php" unclosedSource = .ok last.finish := by
  obtain ⟨tokens, htokens⟩ : ∃ tokens, Token.ofSource unclosedSource = .ok tokens := by
    have hread : (Token.ofSource unclosedSource).isOk = true := by decide +kernel
    cases hsource : Token.ofSource unclosedSource with
    | error e => rw [hsource] at hread; cases hread
    | ok tokens => exact ⟨tokens, rfl⟩
  obtain ⟨last, hlast, -, hend, hfile⟩ := (reads_within_bounds htokens).1 "a.php"
  exact ⟨tokens, last, htokens, hlast _ (Nat.lt_succ_self _), hend, hfile⟩

end ApiDoc.Guarded
