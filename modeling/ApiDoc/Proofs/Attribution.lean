import Mathlib.Data.List.Basic
import ApiDoc.Proofs.Spans
import ApiDoc.Proofs.Spots

/-!
# Where documentation comes from

An element that is read from a source is documented by a doc comment in front of its declaration
(`Documented`): between the two no statement ends and no block opens or closes. There are
exceptions, which `StatementGap` and `MemberGap` describe: a comment waits while a whole include is
read, it waits over an opening brace among the members of a class-like, and a comment behind the
last member waits over the brace that closes the body. `Reading.Sourced` is what every step of the
reader keeps.
-/

namespace ApiDoc

/-! ### What may stand in between -/

/-- A token that is no doc comment and ends neither a statement nor a block. -/
def Token.Inner (t : Token) : Prop :=
  t.kind ≠ .docComment ∧ t.endsStatement = false ∧ t.closesBlock = false

/-- A token that does not open a block either. -/
def Token.Loose (t : Token) : Prop := t.Inner ∧ t.opensBlock = false

/-- What may stand between a doc comment and the declaration of an element outside of class-likes:
tokens that are none of the signs for the end of a statement or a block, and whole includes. -/
inductive Gap : List Token → Prop
  | nil : Gap []
  | token {t : Token} {ts : List Token} : t.Loose → Gap ts → Gap (t :: ts)
  | include {kw : Token} {inner ts : List Token} {last : Option Token} : IsInclude kw →
    Cursor.Through inner [] → (∀ e ∈ last, e.endsStatement = true) → Gap ts →
    Gap (kw :: (inner ++ (last.toList ++ ts)))

/-- The words that stand in front of the bodies of class-likes. -/
def IsClassWord (t : Token) : Prop :=
  t.isKeyword "class" = true ∨ t.isKeyword "interface" = true ∨ t.isKeyword "trait" = true

/-- What may stand between the keyword of a class-like and its body. -/
def IsHeader (ts : List Token) : Prop := ∀ t ∈ ts, t.kind = .name ∨ t.is "," = true

/-- The tokens lead into the body of a class-like. -/
def IntoBody (front : List Token) : Prop :=
  ∃ before kw header o read, front = before ++ kw :: (header ++ o :: read) ∧ IsClassWord kw ∧
    IsHeader header ∧ o.opensBlock = true

/-- What may stand between a doc comment, which some tokens lead to, and a declaration outside of
class-likes. The comment may be the last one in the body of a class-like. -/
def StatementGap (front gap : List Token) : Prop :=
  Gap gap ∨ ∃ inside close behind, gap = inside ++ close :: behind ∧ IntoBody front ∧
    (∀ t ∈ inside, t.Inner) ∧ close.closesBlock = true ∧ Gap behind

/-- What may stand between a doc comment, which some tokens lead to, and a member. -/
def MemberGap (front gap : List Token) : Prop := IntoBody front ∧ ∀ t ∈ gap, t.Inner

/-! ### What is documented -/

/-- The tokens start with the declaration of an element outside of class-likes. -/
inductive Declares : ElementKind → List Token → Info → Prop
  | «class» {first kw name : Token} {modifiers front more : List Token} {space : Fqsen} {i : Info} :
    (∀ t ∈ modifiers, IsModifier t) → kw.isKeyword "class" = true → name.kind = .name →
    i.fqsen = space.join name.text → modifiers ++ [kw] = first :: front → i.line = first.line →
    Declares .class (modifiers ++ kw :: name :: more) i
  | interface {kw name : Token} {more : List Token} {space : Fqsen} {i : Info} :
    kw.isKeyword "interface" = true → name.kind = .name → i.fqsen = space.join name.text →
    i.line = kw.line → Declares .interface (kw :: name :: more) i
  | trait {kw name : Token} {more : List Token} {space : Fqsen} {i : Info} :
    kw.isKeyword "trait" = true → name.kind = .name → i.fqsen = space.join name.text →
    i.line = kw.line → Declares .trait (kw :: name :: more) i
  | function {kw name o : Token} {sign more : List Token} {space : Fqsen} {i : Info} :
    kw.isKeyword "function" = true → ByReference sign → name.kind = .name → o.is "(" = true →
    i.fqsen = space.join (name.text ++ "()") → i.line = kw.line →
    Declares .function (kw :: (sign ++ name :: o :: more)) i
  | constant {kw name eq : Token} {front more : List Token} {space : Fqsen} {i : Info} :
    kw.isKeyword "const" = true → Cursor.Through front (name :: eq :: more) → name.kind = .name →
    eq.is "=" = true → i.fqsen = space.join name.text → i.line = kw.line →
    Declares .constant (kw :: (front ++ name :: eq :: more)) i
  | defined {kw o name comma : Token} {more : List Token} {i : Info} :
    kw.isKeyword "define" = true → o.is "(" = true → name.kind = .literal → comma.is "," = true →
    i.fqsen = Fqsen.ofText (Reader.unquote name.text) → i.line = kw.line →
    Declares .constant (kw :: o :: name :: comma :: more) i

/-- The tokens start with the declaration of a member, from its keyword or its first variable on. -/
inductive DeclaresMember : ElementKind → List Token → Info → Prop
  | method {kw name : Token} {sign more : List Token} {owner : Fqsen} {i : Info} :
    kw.isKeyword "function" = true → ByReference sign → name.kind = .name →
    i.fqsen = owner.member .method name.text →
    DeclaresMember .method (kw :: (sign ++ name :: more)) i
  | constant {kw name eq : Token} {front more : List Token} {owner : Fqsen} {i : Info} :
    kw.isKeyword "const" = true → Cursor.Through front (name :: eq :: more) → name.kind = .name →
    eq.is "=" = true → i.fqsen = owner.member .constant name.text →
    DeclaresMember .constant (kw :: (front ++ name :: eq :: more)) i
  | property {t : Token} {more : List Token} {owner : Fqsen} {i : Info} : t.kind = .variableName →
    i.fqsen = owner.member .property t.text → DeclaresMember .property (t :: more) i
  | propertyBehind {first t : Token} {front more : List Token} {owner : Fqsen} {i : Info} :
    first.kind = .variableName → Cursor.Through front (t :: more) → t.kind = .variableName →
    i.fqsen = owner.member .property t.text →
    DeclaresMember .property (first :: (front ++ t :: more)) i

/-- The record of an element without a doc comment. -/
def Info.Bare (i : Info) : Prop := i.summary = "" ∧ i.description = "" ∧ i.tags = {}

/-- The record has what a doc comment says. -/
def Info.Carries (i : Info) (d : DocBlock) : Prop :=
  i.summary = d.summary ∧ i.description = d.description ∧ i.tags = d.tags

/-- A doc comment of the source waits in front of what is ahead, with what may stand in between. -/
def Awaits (between : List Token → List Token → Prop) (tokens : List Token) (d : DocBlock)
    (ahead : List Token) : Prop :=
  ∃ front t gap, tokens = front ++ t :: (gap ++ ahead) ∧ t.kind = .docComment ∧
    d = DocBlock.parse t.text t.line ∧ between front gap

/-- The element has no documentation, or that of a doc comment which stands in front of its
declaration. -/
def Documented (between : List Token → List Token → Prop)
    (declares : ElementKind → List Token → Info → Prop) (tokens : List Token)
    (item : Item) : Prop :=
  item.info.Bare ∨ ∃ d decl, Awaits between tokens d decl ∧ item.info.Carries d ∧
    declares item.kind decl item.info

/-! ### Files -/

def Members.Every (P : Item → Prop) (m : Members) : Prop :=
  ∀ kind key item, m.item? kind key = some item → P item

/-- Every element outside of class-likes has one property, every member another. -/
structure File.Every (P Q : Item → Prop) (f : File) : Prop where
  top : ∀ kind key item, f.topItem? kind key = some item → P item
  members : ∀ kind key m, f.membersIn? kind key = some m → m.Every Q

namespace Members

variable {Q : Item → Prop} {m : Members}

theorem every_empty (Q : Item → Prop) : Members.Every Q {} := by
  intro kind key item h
  cases kind <;> simp [item?] at h

theorem Every.addMethod (h : m.Every Q) {e : Element MethodBody} (he : Q e.methodItem) :
    (m.addMethod e).Every Q := by
  intro kind key item hi
  have hold : m.item? kind key = some item → Q item := h kind key item
  cases kind with
  | method =>
    simp only [item?, Members.addMethod, NameMap.get?_insert] at hi
    split at hi
    · cases hi
      exact he
    · exact hold hi
  | «class» | interface | trait | function | constant | property => exact hold hi

theorem Every.addProperty (h : m.Every Q) {e : Element PropertyBody} (he : Q e.propertyItem) :
    (m.addProperty e).Every Q := by
  intro kind key item hi
  have hold : m.item? kind key = some item → Q item := h kind key item
  cases kind with
  | property =>
    simp only [item?, Members.addProperty, NameMap.get?_insert] at hi
    split at hi
    · cases hi
      exact he
    · exact hold hi
  | «class» | interface | trait | function | constant | method => exact hold hi

theorem Every.addConstant (h : m.Every Q) {e : Element ConstantBody} (he : Q e.constantItem) :
    (m.addConstant e).Every Q := by
  intro kind key item hi
  have hold : m.item? kind key = some item → Q item := h kind key item
  cases kind with
  | constant =>
    simp only [item?, Members.addConstant, NameMap.get?_insert] at hi
    split at hi
    · cases hi
      exact he
    · exact hold hi
  | «class» | interface | trait | function | property | method => exact hold hi

end Members

namespace File

variable {P Q : Item → Prop} {f g : File}

theorem Every.congr (h : f.Every P Q) (hc : g.classes = f.classes)
    (hi : g.interfaces = f.interfaces) (ht : g.traits = f.traits) (hf : g.functions = f.functions)
    (hk : g.constants = f.constants) : g.Every P Q where
  top kind key item hitem := by
    refine h.top kind key item ?_
    cases kind <;> simpa only [topItem?, hc, hi, ht, hf, hk] using hitem
  members kind key m hm := by
    refine h.members kind key m ?_
    cases kind <;> simpa only [membersIn?, hc, hi, ht] using hm

/-- One more element, and maybe its members. -/
theorem Every.gain (h : f.Every P Q)
    (htop : ∀ kind key item, g.topItem? kind key = some item →
      P item ∨ f.topItem? kind key = some item)
    (hmembers : ∀ kind key m, g.membersIn? kind key = some m →
      m.Every Q ∨ f.membersIn? kind key = some m) : g.Every P Q where
  top kind key item hi := (htop kind key item hi).elim id (h.top kind key item)
  members kind key m hi := (hmembers kind key m hi).elim id (h.members kind key m)

theorem Every.addClass (h : f.Every P Q) {e : Element ClassBody} (he : P e.classItem)
    (hm : e.body.members.Every Q) : (f.addClass e).Every P Q := by
  refine h.gain (fun kind key item hi => ?_) fun kind key m hi => ?_
  all_goals cases kind with
  | «class» =>
    simp only [topItem?, membersIn?, File.addClass, NameMap.get?_insert] at hi
    split at hi
    · cases hi
      first | exact .inl he | exact .inl hm
    · exact .inr hi
  | interface | trait | function | constant | method | property => exact .inr hi

theorem Every.addInterface (h : f.Every P Q) {e : Element InterfaceBody} (he : P e.interfaceItem)
    (hm : e.body.members.Every Q) : (f.addInterface e).Every P Q := by
  refine h.gain (fun kind key item hi => ?_) fun kind key m hi => ?_
  all_goals cases kind with
  | interface =>
    simp only [topItem?, membersIn?, File.addInterface, NameMap.get?_insert] at hi
    split at hi
    · cases hi
      first | exact .inl he | exact .inl hm
    · exact .inr hi
  | «class» | trait | function | constant | method | property => exact .inr hi

theorem Every.addTrait (h : f.Every P Q) {e : Element TraitBody} (he : P e.traitItem)
    (hm : e.body.members.Every Q) : (f.addTrait e).Every P Q := by
  refine h.gain (fun kind key item hi => ?_) fun kind key m hi => ?_
  all_goals cases kind with
  | trait =>
    simp only [topItem?, membersIn?, File.addTrait, NameMap.get?_insert] at hi
    split at hi
    · cases hi
      first | exact .inl he | exact .inl hm
    · exact .inr hi
  | «class» | interface | function | constant | method | property => exact .inr hi

theorem Every.addFunction (h : f.Every P Q) {e : Element FunctionBody} (he : P e.functionItem) :
    (f.addFunction e).Every P Q := by
  refine h.gain (fun kind key item hi => ?_) fun kind key m hi => .inr (by cases kind <;> exact hi)
  cases kind with
  | function =>
    simp only [topItem?, File.addFunction, NameMap.get?_insert] at hi
    split at hi
    · cases hi
      exact .inl he
    · exact .inr hi
  | «class» | interface | trait | constant | method | property => exact .inr hi

theorem Every.addConstant (h : f.Every P Q) {e : Element ConstantBody} (he : P e.constantItem) :
    (f.addConstant e).Every P Q := by
  refine h.gain (fun kind key item hi => ?_) fun kind key m hi => .inr (by cases kind <;> exact hi)
  cases kind with
  | constant =>
    simp only [topItem?, File.addConstant, NameMap.get?_insert] at hi
    split at hi
    · cases hi
      exact .inl he
    · exact .inr hi
  | «class» | interface | trait | function | method | property => exact .inr hi

end File

/-! ### Comments that wait -/

theorem IntoBody.append {front : List Token} (h : IntoBody front) (ts : List Token) :
    IntoBody (front ++ ts) := by
  obtain ⟨before, kw, header, o, read, rfl, hkw, hheader, ho⟩ := h
  exact ⟨before, kw, header, o, read ++ ts, by simp, hkw, hheader, ho⟩

theorem Gap.append {ts us : List Token} (h : Gap ts) (k : Gap us) : Gap (ts ++ us) := by
  induction h with
  | nil => exact k
  | token ht _ ih => exact .token ht ih
  | «include» hkw hinner hlast _ ih =>
    rw [List.cons_append, List.append_assoc, List.append_assoc]
    exact .include hkw hinner hlast ih

theorem StatementGap.append {front gap ts : List Token} (h : StatementGap front gap)
    (k : Gap ts) : StatementGap front (gap ++ ts) := by
  rcases h with h | ⟨inside, close, behind, rfl, hbody, hinside, hclose, hbehind⟩
  · exact .inl (h.append k)
  · exact .inr ⟨inside, close, behind ++ ts, by simp, hbody, hinside, hclose, hbehind.append k⟩

theorem MemberGap.append {front gap ts : List Token} (h : MemberGap front gap)
    (k : ∀ t ∈ ts, t.Inner) : MemberGap front (gap ++ ts) :=
  ⟨h.1, fun t ht => (List.mem_append.mp ht).elim (h.2 t) (k t)⟩

/-- A comment behind the last member waits over the end of the body. -/
theorem MemberGap.close {front gap : List Token} {close : Token} (h : MemberGap front gap)
    (hclose : close.closesBlock = true) : StatementGap front (gap ++ [close]) :=
  .inr ⟨gap, close, [], rfl, h.1, h.2, hclose, .nil⟩

theorem Token.loose_of_name {t : Token} (h : t.kind = .name) : t.Loose := by
  have hplain (p : String) : t.is p = false := is_eq_false_of_kind (by rw [h]; decide)
  exact ⟨⟨by rw [h]; decide, (plain_of_name h).2.2, hplain _⟩, hplain _⟩

theorem Gap.of_loose {ts : List Token} (h : ∀ t ∈ ts, t.Loose) : Gap ts := by
  induction ts with
  | nil => exact .nil
  | cons t ts ih =>
    exact .token (h t List.mem_cons_self) (ih fun u hu => h u (List.mem_cons_of_mem t hu))

theorem Gap.names {ts : List Token} (h : ∀ t ∈ ts, t.kind = .name) : Gap ts :=
  .of_loose fun t ht => Token.loose_of_name (h t ht)

section Awaits

variable {between between' : List Token → List Token → Prop} {tokens front rest : List Token}
  {d : DocBlock} {t : Token}

theorem Awaits.append (ts : List Token) (h : Awaits between tokens d (ts ++ rest))
    (k : ∀ front gap, between front gap → between' front (gap ++ ts)) :
    Awaits between' tokens d rest := by
  obtain ⟨front, t, gap, rfl, ht, hd, hgap⟩ := h
  exact ⟨front, t, gap ++ ts, by simp, ht, hd, k front gap hgap⟩

theorem awaits_self (h : tokens = front ++ t :: rest) (ht : t.kind = .docComment)
    (hgap : between front []) : Awaits between tokens (DocBlock.parse t.text t.line) rest :=
  ⟨front, t, [], h, ht, rfl, hgap⟩

theorem documented_of {declares : ElementKind → List Token → Info → Prop} {kind : ElementKind}
    {fqsen : Fqsen} {line : Nat} {doc : Option DocBlock} {decl : List Token}
    (visibility : Option Visibility) (hdoc : ∀ d, doc = some d → Awaits between tokens d decl)
    (hdecl : ∀ i : Info, i.fqsen = fqsen → i.line = line → declares kind decl i) :
    Documented between declares tokens
      ⟨kind, Reading.document doc (.ofFqsen fqsen line), visibility⟩ := by
  cases doc with
  | none => exact .inl ⟨rfl, rfl, rfl⟩
  | some d => exact .inr ⟨d, decl, hdoc d rfl, ⟨rfl, rfl, rfl⟩, hdecl _ rfl rfl⟩

end Awaits

/-- All elements of a file are documented by comments of the source. -/
def File.Sourced (tokens : List Token) (f : File) : Prop :=
  f.Every (Documented StatementGap Declares tokens) (Documented MemberGap DeclaresMember tokens)

def Members.Sourced (tokens : List Token) (m : Members) : Prop :=
  m.Every (Documented MemberGap DeclaresMember tokens)

theorem Reading.Moves.sourced {tokens : List Token} {s u : Reading} (h : s.Moves u)
    (hs : s.file.Sourced tokens) : u.file.Sourced tokens := by
  obtain ⟨-, problems, hu⟩ := h
  rw [hu]
  exact File.Every.congr hs rfl rfl rfl rfl rfl

/-! ### Members -/

/-- What holds between any two steps of reading a body. -/
structure BodyReading.Sourced (tokens : List Token) (b : BodyReading) : Prop where
  body : ∃ front, tokens = front ++ b.state.cursor.rest ∧ IntoBody front
  pending : ∀ d, b.state.pending = some d → Awaits MemberGap tokens d b.state.cursor.rest
  settled : b.state.fileDocSettled = true
  file : b.state.file.Sourced tokens
  members : b.members.Sourced tokens

namespace BodyReading

open Cursor

theorem sourced_propertyList {tokens decl : List Token} {owner : Fqsen} {modifiers : Modifiers}
    {doc : Option DocBlock} (hdoc : ∀ d, doc = some d → Awaits MemberGap tokens d decl)
    {fuel : Nat} {t : Token} {c : Cursor} {m : Members} (hm : m.Sourced tokens)
    (ht : t.kind = .variableName)
    (hdecl : decl = t :: c.rest ∨ ∃ first front, decl = first :: (front ++ t :: c.rest) ∧
      first.kind = .variableName ∧ Through front (t :: c.rest)) :
    (propertyList owner modifiers doc fuel t c m).1.Sourced tokens := by
  induction fuel generalizing t c m with
  | zero => exact hm
  | succ fuel ih =>
    have hfound : (m.addProperty (propertyOf owner modifiers doc t (defaultAt c).1)).Sourced
        tokens := by
      refine Members.Every.addProperty hm (documented_of _ hdoc fun i hi _ => ?_)
      rcases hdecl with rfl | ⟨first, front, rfl, hfirst, hthrough⟩
      · exact .property ht hi
      · exact .propertyBehind hfirst hthrough ht hi
    rw [propertyList_succ]
    dsimp only
    split
    · exact hfound
    · next d hd =>
      split
      · exact hfound
      · next u e hu =>
        obtain ⟨comma, hbehind, hcomma⟩ := Reading.rest_eat hd
        obtain ⟨rest, hrest, hvariable, rfl⟩ := take?_eq_some hu
        obtain ⟨value, hvalue, hthrough⟩ := through_defaultAt c
        rw [hbehind, hrest] at hvalue hthrough
        have hbetween : Through (value ++ [comma]) (u :: rest) :=
          .append hthrough (.sign hcomma (by decide) (by decide) (by decide) _)
        refine ih hfound hvariable (.inr ?_)
        rcases hdecl with rfl | ⟨first, front, rfl, hfirst, hfront⟩
        · exact ⟨t, value ++ [comma], by rw [hvalue]; simp, ht, hbetween⟩
        · refine ⟨first, front ++ t :: (value ++ [comma]), by rw [hvalue]; simp, hfirst, ?_⟩
          have hsplit : t :: c.rest = (t :: (value ++ [comma])) ++ u :: rest := by
            rw [hvalue]
            simp
          exact .append (hsplit ▸ hfront) (.append (.variable ht _) hbetween)

/-- The place is further on, and no comment waits. -/
theorem Sourced.further {tokens : List Token} {b d : BodyReading} (h : b.Sourced tokens)
    (hleads : b.state.cursor.Leads d.state.cursor) (hpending : d.state.pending = none)
    (hsettled : d.state.fileDocSettled = true) (hfile : d.state.file.Sourced tokens)
    (hmembers : d.members.Sourced tokens) : d.Sourced tokens where
  body := by
    obtain ⟨front, htokens, hbody⟩ := h.body
    obtain ⟨passed, hrest⟩ := hleads.suffix
    exact ⟨front ++ passed, by rw [htokens, ← hrest, List.append_assoc], hbody.append passed⟩
  pending _ hd := by simp [hpending] at hd
  settled := hsettled
  file := hfile
  members := hmembers

section Turns

variable {tokens rest : List Token} {b : BodyReading} {t : Token} (h : b.Sourced tokens)
  (hrest : b.state.cursor.rest = t :: rest) (modifiers : Modifiers)
include h hrest

/-- A comment that waits in front of a token documents what starts with it. -/
theorem awaits_ahead {d : DocBlock} (hd : b.state.pending = some d) :
    Awaits MemberGap tokens d (t :: b.state.step.cursor.rest) := by
  have hstep : b.state.step.cursor.rest = rest := congrArg Cursor.rest (step_of_rest hrest)
  rw [hstep, ← hrest]
  exact h.pending d hd

omit hrest in
theorem sourced_traitUse :
    (traitUse { b with state := b.state.step, modifiers := modifiers }).Sourced tokens := by
  have hmoves := (Reading.moves_references b.state.step).trans
    (Reading.moves_skipBody b.state.step.references.2)
  exact h.further (b.state.cursor.leads_step.trans hmoves.leads) rfl
    (hmoves.fileDocSettled.trans h.settled) (hmoves.sourced h.file) h.members

theorem sourced_method (ht : t.isKeyword "function" = true) :
    (method { b with state := b.state.step, modifiers := modifiers }).Sourced tokens := by
  obtain ⟨sign, hsign, hbehind⟩ := Reading.exists_sign b.state.step.cursor
  have hleads := b.state.cursor.leads_step.trans (b.state.step.cursor.leads_eat_getD (·.is "&"))
  rw [method]
  dsimp only
  split
  · exact h.further hleads rfl h.settled h.file h.members
  · next name c hname =>
    obtain ⟨hrest', hkind⟩ := Reading.exists_name hname
    have hmoves := Reading.moves_signature
      (((b.state.step.moveTo
        ((b.state.step.cursor.eatPunct "&").getD b.state.step.cursor)).forget).moveTo c)
      b.state.pending
    refine h.further ((hleads.trans (leads_name? hname)).trans hmoves.leads) hmoves.pending
      (hmoves.fileDocSettled.trans h.settled) (hmoves.sourced h.file) ?_
    refine Members.Every.addMethod h.members (documented_of _
      (fun d hd => awaits_ahead h hrest hd) fun i hi _ => ?_)
    rw [hbehind]
    exact hrest' ▸ .method ht hsign hkind hi

theorem sourced_constants (ht : t.isKeyword "const" = true) :
    (constants { b with state := b.state.step, modifiers := modifiers }).Sourced tokens := by
  have hmoves := Reading.moves_constants b.state.step.forget
  have hadd (found : List (Token × String)) (m : Members) (hm : m.Sourced tokens)
      (hfound : ∀ constant ∈ found, ∃ front eq more, b.state.step.cursor.rest =
        front ++ constant.1 :: eq :: more ∧ constant.1.kind = .name ∧ eq.is "=" = true ∧
          Through front (constant.1 :: eq :: more)) :
      (found.foldl (fun members constant => members.addConstant
        ⟨Reading.document b.state.pending (Element.classConstant b.owner constant.1.text
          (modifiers.line.getD constant.1.line)).info,
        { value := constant.2, visibility := modifiers.visibility.getD .public }⟩) m).Sourced
          tokens := by
    induction found generalizing m with
    | nil => exact hm
    | cons constant found ih =>
      refine ih _ (Members.Every.addConstant hm (documented_of _
        (fun d hd => awaits_ahead h hrest hd) fun i hi _ => ?_))
        fun other hother => hfound other (List.mem_cons_of_mem constant hother)
      obtain ⟨front, eq, more, hlist, hkind, heq, hthrough⟩ := hfound constant List.mem_cons_self
      rw [hlist]
      exact .constant ht hthrough hkind heq hi
  have hconstants := hadd
    (Reading.constantList b.state.step.cursor.fuel b.state.step.cursor).1 b.members h.members
    fun constant hmem => Reading.exists_of_mem_constantList hmem
  exact h.further (b.state.cursor.leads_step.trans hmoves.leads) hmoves.pending
    (hmoves.fileDocSettled.trans h.settled) (hmoves.sourced h.file) hconstants

theorem sourced_properties (ht : t.kind = .variableName) :
    (properties { b with state := b.state.step, modifiers := modifiers } t).Sourced tokens := by
  have hleads := b.state.cursor.leads_step.trans
    (leads_properties { b with state := b.state.step, modifiers := modifiers } t)
  have hlist : (propertyList b.owner modifiers b.state.pending b.state.step.cursor.fuel t
      b.state.step.cursor b.members).1.Sourced tokens :=
    sourced_propertyList (fun _ hd => awaits_ahead h hrest hd) h.members ht (.inl rfl)
  exact h.further hleads rfl h.settled h.file hlist

theorem Sourced.token (hcloses : t.closesBlock = false) :
    ({ b with state := b.state.step }.token t).Sourced tokens := by
  have hstep : b.state.step.cursor.rest = rest := congrArg Cursor.rest (step_of_rest hrest)
  have hleads := b.state.cursor.leads_step
  have hbody : ∃ front, tokens = front ++ b.state.step.cursor.rest ∧ IntoBody front := by
    obtain ⟨front, htokens, hbody⟩ := h.body
    exact ⟨front ++ [t], by rw [htokens, hrest, hstep]; simp, hbody.append [t]⟩
  have hturn := turn_token { b with state := b.state.step } t
  revert hturn
  generalize ({ b with state := b.state.step } : BodyReading).token t = d
  intro hturn
  cases hturn with
  | docComment hdoc =>
    refine ⟨hbody, fun d hd => ?_, h.settled, h.file, h.members⟩
    obtain rfl : DocBlock.parse t.text t.line = d := Option.some.inj hd
    obtain ⟨front, htokens, hfront⟩ := h.body
    rw [hrest, ← hstep] at htokens
    exact awaits_self htokens hdoc ⟨hfront, by simp⟩
  | traits => exact sourced_traitUse h _
  | constants hk => exact sourced_constants h hrest _ hk
  | method hk => exact sourced_method h hrest _ hk
  | case =>
    exact h.further (hleads.trans (leads_skipStatement _)) rfl h.settled h.file h.members
  | properties hvariable => exact sourced_properties h hrest _ hvariable
  | ends => exact h.further hleads rfl h.settled h.file h.members
  | collects hdoc _ hend =>
    refine ⟨hbody, fun d hd => ?_, h.settled, h.file, h.members⟩
    exact (awaits_ahead h hrest hd).append [t] fun front gap hgap =>
      hgap.append fun u hu => List.mem_singleton.mp hu ▸ ⟨hdoc, hend, hcloses⟩

end Turns

end BodyReading

/-! ### Statements -/

/-- What holds between any two steps of the reader of statements. When all tokens are read, a
comment that still waits may be that of a body that is not closed. -/
structure Reading.Sourced (tokens : List Token) (s : Reading) : Prop where
  cursor : s.cursor.rest <:+ tokens
  pending : ∀ d, s.pending = some d → s.fileDocSettled = true ∧
    (s.cursor.rest ≠ [] → Awaits StatementGap tokens d s.cursor.rest)
  file : s.file.Sourced tokens

namespace Reading

open Cursor

/-- Members are read up to the end of the body, where a comment behind the last one still waits. -/
theorem sourced_untilClose (line : Nat) {tokens : List Token} {fuel : Nat} {b : BodyReading}
    (h : b.Sourced tokens) (hfuel : b.state.cursor.rest.length < fuel) :
    (BodyReading.untilClose line fuel b).state.Sourced tokens ∧
      (BodyReading.untilClose line fuel b).members.Sourced tokens := by
  induction fuel generalizing b with
  | zero => exact absurd hfuel (Nat.not_lt_zero _)
  | succ fuel ih =>
    obtain ⟨front, htokens, hbody⟩ := h.body
    rw [BodyReading.untilClose]
    cases hpeek : b.state.cursor.peek with
    | none =>
      have hnil : b.state.cursor.rest = [] := List.head?_eq_none_iff.mp hpeek
      refine ⟨⟨⟨front, htokens.symm⟩, fun d hd => ⟨h.settled, fun hne => absurd hnil hne⟩, ?_⟩,
        h.members⟩
      exact (moves_report b.state line _).sourced h.file
    | some t =>
      obtain ⟨rest, hrest⟩ := exists_rest_of_peek hpeek
      have hstep : b.state.step.cursor.rest = rest := congrArg Cursor.rest (step_of_rest hrest)
      dsimp only
      split
      · next hcloses =>
        refine ⟨⟨?_, fun d hd => ⟨h.settled, fun _ => ?_⟩, h.file⟩, h.members⟩
        · exact (b.state.cursor.leads_step.suffix).trans ⟨front, htokens.symm⟩
        · have hwaits := BodyReading.awaits_ahead h hrest hd
          exact hwaits.append [t] fun front gap hgap => hgap.close hcloses
      · next hcloses =>
        have htoken := BodyReading.Sourced.token h hrest (Bool.eq_false_iff.mpr hcloses)
        have hlt := (BodyReading.leads_token { b with state := b.state.step } t).length_le
        have hless := length_step_lt (ne_nil_of_peek hpeek)
        refine ih htoken ?_
        have hcursor : b.state.step.cursor = b.state.cursor.step := rfl
        rw [hcursor] at hlt
        omega

section Keeping

variable {tokens : List Token} {s u : Reading}

theorem sourced_of_none (hcursor : u.cursor.rest <:+ tokens) (hpending : u.pending = none)
    (hfile : u.file.Sourced tokens) : u.Sourced tokens :=
  ⟨hcursor, fun d hd => by simp [hpending] at hd, hfile⟩

theorem Sourced.moves (h : s.Sourced tokens) (hpending : s.pending = none) (hu : s.Moves u) :
    u.Sourced tokens :=
  sourced_of_none (hu.leads.suffix.trans h.cursor) (hu.pending.trans hpending)
    (hu.sourced h.file)

theorem Sourced.forget (h : s.Sourced tokens) : s.forget.Sourced tokens :=
  sourced_of_none h.cursor rfl h.file

theorem Sourced.withFile (h : s.Sourced tokens) {f : File} (hf : f.Sourced tokens) :
    Reading.Sourced tokens { s with file := f } := ⟨h.cursor, h.pending, hf⟩

theorem Sourced.settled (h : s.Sourced tokens) : s.settled.Sourced tokens :=
  ⟨h.cursor, fun d hd => ⟨rfl, (h.pending d hd).2⟩, h.file⟩

/-- A comment that waits, waits over more tokens that may stand in between. -/
theorem Sourced.pass (h : s.Sourced tokens) {c : Cursor} (ts : List Token)
    (hrest : s.cursor.rest = ts ++ c.rest) (hts : Gap ts) : (s.moveTo c).Sourced tokens where
  cursor := (hrest ▸ List.suffix_append ts c.rest).trans h.cursor
  pending d hd := by
    obtain ⟨hsettled, hwaits⟩ := h.pending d hd
    refine ⟨hsettled, fun hne => ?_⟩
    rw [hrest] at hwaits
    exact (hwaits (List.append_ne_nil_of_right_ne_nil ts hne)).append ts
      fun front gap hgap => hgap.append hts
  file := h.file

/-- A comment that waits documents the declaration at the place. -/
theorem Sourced.awaits (h : s.Sourced tokens) {t : Token} {rest : List Token}
    (hrest : s.cursor.rest = t :: rest) (d : DocBlock) (hd : s.pending = some d) :
    Awaits StatementGap tokens d s.cursor.rest :=
  (h.pending d hd).2 (by simp [hrest])

theorem line_of_rest {c : Cursor} {t : Token} {rest : List Token} (h : c.rest = t :: rest) :
    c.line = t.line := by
  rw [Cursor.line, peek, h]
  rfl

end Keeping

/-! ### Headers -/

theorem isHeader_nameList (fuel : Nat) (c : Cursor) :
    ∃ ts, c.rest = ts ++ (nameList fuel c).2.rest ∧ IsHeader ts := by
  induction fuel generalizing c with
  | zero => exact ⟨[], rfl, by simp [IsHeader]⟩
  | succ fuel ih =>
    rw [nameList]
    split
    · exact ⟨[], rfl, by simp [IsHeader]⟩
    · next name d hd =>
      obtain ⟨hrest, hkind⟩ := exists_name hd
      split
      · exact ⟨[name], hrest, by simp [IsHeader, hkind]⟩
      · next e he =>
        obtain ⟨comma, hbehind, hcomma⟩ := rest_eat he
        obtain ⟨ts, hts, hheader⟩ := ih e
        refine ⟨name :: comma :: ts, by rw [hrest, hbehind, hts]; rfl, fun t ht => ?_⟩
        rcases List.mem_cons.mp ht with rfl | ht
        · exact .inl hkind
        · rcases List.mem_cons.mp ht with rfl | ht
          · exact .inr hcomma
          · exact hheader t ht

theorem isHeader_parentAt (s : Reading) (c : Cursor) :
    ∃ ts, c.rest = ts ++ (s.parentAt c).2.rest ∧ IsHeader ts := by
  rw [parentAt]
  split
  · exact ⟨[], rfl, by simp [IsHeader]⟩
  · next d hd =>
    obtain ⟨kw, hrest, hkw⟩ := rest_eat hd
    split
    · next t e he =>
      obtain ⟨hbehind, hkind⟩ := exists_name he
      exact ⟨[kw, t], by rw [hrest, hbehind]; rfl,
        by simp [IsHeader, Token.kind_of_isKeyword hkw, hkind]⟩
    · exact ⟨[kw], hrest, by simp [IsHeader, Token.kind_of_isKeyword hkw]⟩

theorem isHeader_listBehind (s : Reading) (keyword : String) :
    ∃ ts, s.cursor.rest = ts ++ (s.listBehind keyword).2.cursor.rest ∧ IsHeader ts := by
  rw [listBehind]
  split
  · next d hd =>
    obtain ⟨kw, hrest, hkw⟩ := rest_eat hd
    obtain ⟨ts, hts, hheader⟩ := isHeader_nameList d.fuel d
    refine ⟨kw :: ts, by rw [hrest, hts]; rfl, List.forall_mem_cons.mpr
      ⟨.inl (Token.kind_of_isKeyword hkw), hheader⟩⟩
  · exact ⟨[], rfl, by simp [IsHeader]⟩

theorem isModifier_take (ts : List Token) :
    ∀ t ∈ ts.take (classModifiers ts).2.2, IsModifier t := by
  induction ts with
  | nil => simp
  | cons t ts ih =>
    have hcons (h : IsModifier t) (n : Nat) (hn : n = (classModifiers ts).2.2) :
        ∀ u ∈ (t :: ts).take (n + 1), IsModifier u := by
      rw [hn, List.take_succ_cons]
      exact List.forall_mem_cons.mpr ⟨h, ih⟩
    rw [classModifiers]
    split
    · next h => exact hcons (.inl h) _ rfl
    · split
      · next h => exact hcons (.inr (.inl h)) _ rfl
      · split
        · next h => exact hcons (.inr (.inr h)) _ rfl
        · simp

end Reading

/-! ### Class-likes -/

/-- What is read of a class-like in front of its body is as it should be, and so is what its entry
makes of a file. -/
structure Head.Sourced (tokens : List Token) (h : Head) : Prop where
  state : h.state.Sourced tokens
  none : h.state.pending = none
  settled : h.state.fileDocSettled = true
  header : ∃ before kw header, tokens = before ++ kw :: (header ++ h.state.cursor.rest) ∧
    IsClassWord kw ∧ IsHeader header
  entry : ∀ members traits f, members.Sourced tokens → f.Sourced tokens →
    (h.entry members traits f).Sourced tokens

namespace Reading

open Cursor

variable {tokens : List Token} {s : Reading}

theorem Head.Sourced.read {h : Head} (hh : h.Sourced tokens) : h.read.Sourced tokens := by
  rw [Head.read, classBody]
  dsimp only
  cases hinner : h.state.cursor.eat Token.opensBlock with
  | none => exact hh.state.moves hh.none (moves_report _ _ _)
  | some inner =>
    obtain ⟨o, hrest, ho⟩ := rest_eat hinner
    obtain ⟨before, kw, header, htokens, hkw, hheader⟩ := hh.header
    rw [hrest] at htokens
    have hstart : BodyReading.Sourced tokens
        { owner := h.owner, isInterface := h.isInterface, state := h.state.moveTo inner } := by
      refine ⟨⟨before ++ kw :: (header ++ [o]), by rw [htokens]; simp [moveTo], ?_⟩,
        fun d hd => ?_, hh.settled, hh.state.file, Members.every_empty _⟩
      · exact ⟨before, kw, header, o, [], rfl, hkw, hheader, ho⟩
      · simp [moveTo, hh.none] at hd
    obtain ⟨hstate, hmembers⟩ :=
      sourced_untilClose h.state.cursor.line hstart (Nat.lt_succ_self inner.rest.length)
    exact hstate.withFile (hh.entry _ _ _ hmembers hstate.file)

/-- A class-like up to its body, or what else was passed over. -/
def SourcedUpTo (tokens : List Token) (r : Reading ⊕ Head) : Prop :=
  r.elim (Reading.Sourced tokens) (Head.Sourced tokens)

theorem SourcedUpTo.read {r : Reading ⊕ Head} (h : SourcedUpTo tokens r) :
    (r.elim id Head.read).Sourced tokens := by
  cases r with
  | inl u => exact h
  | inr head => exact Head.Sourced.read h

/-- The state in front of a body, behind the keyword and what follows it. -/
theorem sourced_listBehind (h : s.Sourced tokens) {kw : Token} {header : List Token} {c : Cursor}
    (hrest : ∃ front, s.cursor.rest = front ++ kw :: (header ++ c.rest)) (hheader : IsHeader header)
    (keyword : String) :
    let u := ((s.forget.moveTo c).listBehind keyword).2
    u.Sourced tokens ∧ u.pending = none ∧ u.fileDocSettled = s.fileDocSettled ∧
      ∃ before more, tokens = before ++ kw :: (more ++ u.cursor.rest) ∧ IsHeader more := by
  obtain ⟨front, hrest⟩ := hrest
  obtain ⟨before, htokens⟩ := h.cursor
  have hmoves := moves_listBehind (s.forget.moveTo c) keyword
  obtain ⟨list, hlist, hnames⟩ := isHeader_listBehind (s.forget.moveTo c) keyword
  have hstart : (s.forget.moveTo c).Sourced tokens := by
    refine sourced_of_none ⟨before ++ front ++ kw :: header, ?_⟩ rfl h.file
    rw [← htokens, hrest]
    simp [moveTo]
  refine ⟨hstart.moves rfl hmoves, hmoves.pending, hmoves.fileDocSettled, before ++ front,
    header ++ list, ?_, List.forall_mem_append.mpr ⟨hheader, hnames⟩⟩
  have hc : c.rest = list ++ ((s.forget.moveTo c).listBehind keyword).2.cursor.rest := hlist
  rw [← htokens, hrest, hc]
  simp

theorem sourced_classHead (h : s.Sourced tokens) (hsettled : s.fileDocSettled = true) :
    SourcedUpTo tokens s.classHead := by
  have hsplit := List.take_append_drop (classModifiers s.cursor.rest).2.2 s.cursor.rest
  have hmodifiers := isModifier_take s.cursor.rest
  rw [← rest_skip] at hsplit
  rw [classHead]
  dsimp only
  generalize s.cursor.rest.take (classModifiers s.cursor.rest).2.2 = modifiers at *
  generalize s.cursor.skip (classModifiers s.cursor.rest).2.2 = c at *
  have hnames : ∀ t ∈ modifiers, t.kind = .name := fun t ht => kind_of_isModifier (hmodifiers t ht)
  split
  · exact h.pass modifiers hsplit.symm (.names hnames)
  · next d hd =>
    obtain ⟨kw, hrest, hkw⟩ := rest_eat hd
    have hkind := Token.kind_of_isKeyword hkw
    split
    · refine h.pass (modifiers ++ [kw]) (by rw [← hsplit, hrest]; simp) (.names ?_)
      exact List.forall_mem_append.mpr ⟨hnames, by simpa using hkind⟩
    · next name e he =>
      obtain ⟨hname, hnamed⟩ := exists_name he
      obtain ⟨base, hbase, hheader⟩ := isHeader_parentAt s e
      have hdecl : s.cursor.rest = modifiers ++ kw :: name :: e.rest := by
        rw [← hsplit, hrest, hname]
      have hfront : ∃ front,
          s.cursor.rest = front ++ kw :: ((name :: base) ++ (s.parentAt e).2.rest) :=
        ⟨modifiers, by rw [hdecl, hbase]; rfl⟩
      obtain ⟨hstate, hnone, hkept, before, more, htokens, hmore⟩ := sourced_listBehind h hfront
        (List.forall_mem_cons.mpr ⟨.inl hnamed, hheader⟩) "implements"
      refine ⟨hstate, hnone, hkept.trans hsettled, ⟨before, kw, more, htokens, .inl hkw, hmore⟩,
        fun members traits f hm hf => File.Every.addClass hf ?_ hm⟩
      obtain ⟨first, rest, hfirst⟩ : ∃ first rest, modifiers ++ [kw] = first :: rest := by
        cases modifiers with
        | nil => exact ⟨kw, [], rfl⟩
        | cons first rest => exact ⟨first, rest ++ [kw], rfl⟩
      have hline : s.cursor.rest = first :: (rest ++ name :: e.rest) := by
        rw [hdecl, ← List.cons_append, ← hfirst]
        simp
      refine documented_of none (h.awaits hline) fun i hi hi' => ?_
      rw [hdecl]
      exact .class hmodifiers hkw hnamed hi hfirst (hi'.trans (line_of_rest hline))

theorem sourced_interfaceHead (h : s.Sourced tokens) (hsettled : s.fileDocSettled = true)
    {kw : Token} {rest : List Token} (hrest : s.cursor.rest = kw :: rest)
    (hkw : kw.isKeyword "interface" = true) : SourcedUpTo tokens s.interfaceHead := by
  have hstep : s.cursor.step.rest = rest := congrArg Cursor.rest (step_of_rest hrest)
  rw [interfaceHead]
  dsimp only
  split
  · exact h.pass [kw] (by rw [hrest, hstep]; rfl) (.names (by simp [Token.kind_of_isKeyword hkw]))
  · next name c hc =>
    obtain ⟨hname, hnamed⟩ := exists_name hc
    rw [hstep] at hname
    have hfront : ∃ front, s.cursor.rest = front ++ kw :: ([name] ++ c.rest) :=
      ⟨[], by rw [hrest, hname]; rfl⟩
    obtain ⟨hstate, hnone, hkept, before, more, htokens, hmore⟩ := sourced_listBehind h hfront
      (List.forall_mem_singleton.mpr (.inl hnamed)) "extends"
    refine ⟨hstate, hnone, hkept.trans hsettled,
      ⟨before, kw, more, htokens, .inr (.inl hkw), hmore⟩,
      fun members traits f hm hf => File.Every.addInterface hf ?_ hm⟩
    refine documented_of none (h.awaits hrest) fun i hi hi' => ?_
    rw [hrest, hname]
    exact .interface hkw hnamed hi (hi'.trans (line_of_rest hrest))

theorem sourced_traitHead (h : s.Sourced tokens) (hsettled : s.fileDocSettled = true)
    {kw : Token} {rest : List Token} (hrest : s.cursor.rest = kw :: rest)
    (hkw : kw.isKeyword "trait" = true) : SourcedUpTo tokens s.traitHead := by
  have hstep : s.cursor.step.rest = rest := congrArg Cursor.rest (step_of_rest hrest)
  rw [traitHead]
  dsimp only
  split
  · exact h.pass [kw] (by rw [hrest, hstep]; rfl) (.names (by simp [Token.kind_of_isKeyword hkw]))
  · next name c hc =>
    obtain ⟨hname, hnamed⟩ := exists_name hc
    rw [hstep] at hname
    obtain ⟨before, htokens⟩ := h.cursor
    rw [hrest, hname] at htokens
    refine ⟨?_, rfl, hsettled, ⟨before, kw, [name], htokens.symm, .inr (.inr hkw), ?_⟩,
      fun members traits f hm hf => File.Every.addTrait hf ?_ hm⟩
    · exact sourced_of_none ⟨before ++ [kw, name], by rw [← htokens]; simp [moveTo]⟩ rfl h.file
    · exact List.forall_mem_singleton.mpr (.inl hnamed)
    · refine documented_of none (h.awaits hrest) fun i hi hi' => ?_
      rw [hrest, hname]
      exact .trait hkw hnamed hi (hi'.trans (line_of_rest hrest))

/-! ### Steps -/

section Steps

variable {t : Token} {rest : List Token} (h : s.Sourced tokens)
  (hrest : s.cursor.rest = t :: rest)
include h hrest

/-- The step over a token over which comments wait. -/
theorem sourced_step (ht : t.Loose) : s.step.Sourced tokens :=
  h.pass [t] (by rw [step_of_rest hrest]; exact hrest) (.of_loose (by simpa using ht))

omit hrest in
theorem sourced_forget_step : s.forget.step.Sourced tokens :=
  h.forget.moves rfl (moves_moveTo s.cursor.leads_step)

theorem sourced_docComment (ht : t.kind = .docComment) :
    (s.step.docComment t).Sourced tokens := by
  have hstep : s.step.cursor.rest = rest := congrArg Cursor.rest (step_of_rest hrest)
  obtain ⟨front, htokens⟩ := h.cursor
  have hcursor : s.step.cursor.rest <:+ tokens :=
    s.cursor.leads_step.suffix.trans ⟨front, htokens⟩
  rw [docComment]
  dsimp only
  split
  · next hfile =>
    -- nothing has been settled yet, so no comment waits
    have hnone : s.pending = none := by
      cases hpending : s.pending with
      | none => rfl
      | some d => simp [step, moveTo, (h.pending d hpending).1] at hfile
    exact sourced_of_none hcursor hnone (File.Every.congr h.file rfl rfl rfl rfl rfl)
  · refine ⟨hcursor, fun d hd => ⟨rfl, fun _ => ?_⟩, h.file⟩
    obtain rfl : DocBlock.parse t.text t.line = d := Option.some.inj hd
    rw [hrest, ← hstep] at htokens
    exact awaits_self htokens.symm ht (.inl .nil)

omit hrest in
theorem sourced_namespaceDeclaration : s.namespaceDeclaration.Sourced tokens := by
  have hleads := (s.cursor.leads_step.trans (step_leads_namespaceDeclaration s)).suffix
  refine sourced_of_none (hleads.trans h.cursor) ?_ ?_
  all_goals
    rw [namespaceDeclaration]
    dsimp only
    split
  · rfl
  · rfl
  · exact h.file
  · exact h.file

omit hrest in
theorem sourced_useDeclaration : s.useDeclaration.Sourced tokens := by
  have hleads := (s.cursor.leads_step.trans (step_leads_useDeclaration s)).suffix
  refine sourced_of_none (hleads.trans h.cursor) ?_ ?_
  all_goals
    rw [useDeclaration]
    dsimp only
    split
  · rfl
  · rfl
  · exact h.file
  · exact File.Every.congr h.file rfl rfl rfl rfl rfl

theorem sourced_includeStatement (ht : IsInclude t) : s.includeStatement.Sourced tokens := by
  have hstep : s.cursor.step.rest = rest := congrArg Cursor.rest (step_of_rest hrest)
  have hinner := through_take s.cursor.step.rest
  obtain ⟨last, hlast, hend⟩ : ∃ last : Option Token, (s.cursor.step.expression []).2.rest =
      last.toList ++ (s.cursor.step.expression []).2.dropEnd.rest ∧
        ∀ e ∈ last, e.endsStatement = true := by
    rw [dropEnd]
    cases he : (s.cursor.step.expression []).2.eat Token.endsStatement with
    | none => exact ⟨none, rfl, by simp⟩
    | some d =>
      obtain ⟨e, hrest', hend⟩ := rest_eat he
      exact ⟨some e, hrest', by simpa using hend⟩
  have hsplit := List.take_append_drop (expressionWidth [] 0 s.cursor.step.rest) s.cursor.step.rest
  rw [expression, rest_skip] at hlast
  rw [hlast] at hsplit
  have hpassed := h.pass (c := (s.cursor.step.expression []).2.dropEnd)
    (t :: (s.cursor.step.rest.take (expressionWidth [] 0 s.cursor.step.rest) ++
      (last.toList ++ []))) ?_ (.include ht hinner hend .nil)
  · exact hpassed.withFile (File.Every.congr h.file rfl rfl rfl rfl rfl)
  · rw [hrest, ← hstep]
    refine (congrArg (t :: ·) hsplit.symm).trans ?_
    simp [expression]

theorem sourced_functionDeclaration (ht : t.isKeyword "function" = true) :
    s.functionDeclaration.Sourced tokens := by
  have hstep : s.cursor.step.rest = rest := congrArg Cursor.rest (step_of_rest hrest)
  obtain ⟨sign, hsign, hbehind⟩ := exists_sign s.cursor.step
  have hgap : Gap (t :: sign) := by
    refine .token (Token.loose_of_name (Token.kind_of_isKeyword ht)) ?_
    cases hsign with
    | none => exact .nil
    | @sign u hu =>
      refine .token ⟨⟨?_, Token.endsStatement_of_is hu (by decide),
        Token.is_eq_false hu (by decide)⟩, Token.is_eq_false hu (by decide)⟩ .nil
      rw [Token.kind_of_is hu]
      decide
  have hclosure := h.pass (c := (s.cursor.step.eatPunct "&").getD s.cursor.step) (t :: sign)
    (by rw [hrest, ← hstep, hbehind]; rfl) hgap
  rw [functionDeclaration]
  dsimp only
  split
  · exact hclosure
  · next name c hc =>
    obtain ⟨hname, hnamed⟩ := exists_name hc
    split
    · next hparen =>
      obtain ⟨o, more, hmore, ho⟩ : ∃ o more, c.rest = o :: more ∧ o.is "(" = true := by
        cases hc' : c.rest with
        | nil => simp [next, peek, hc'] at hparen
        | cons o more => exact ⟨o, more, rfl, by simpa [next, peek, hc'] using hparen⟩
      have hleads := (s.cursor.leads_step.trans (s.cursor.step.leads_eat_getD (·.is "&"))).trans
        (leads_name? hc)
      have hmoves := (moves_moveTo (s := s.forget) hleads).trans
        (moves_signature (s.forget.moveTo c) s.pending)
      have hread := h.forget.moves rfl hmoves
      refine hread.withFile (File.Every.addFunction hread.file ?_)
      refine documented_of none (h.awaits hrest) fun i hi hi' => ?_
      rw [hrest, ← hstep, hbehind, hname, hmore]
      exact .function ht hsign hnamed ho hi (hi'.trans (line_of_rest hrest))
    · exact hclosure

theorem sourced_constantDeclaration (ht : t.isKeyword "const" = true) :
    s.constantDeclaration.Sourced tokens := by
  have hstep : s.cursor.step.rest = rest := congrArg Cursor.rest (step_of_rest hrest)
  have hmoves := moves_constants s.forget.step
  have hread := h.forget.moves rfl ((moves_moveTo (s := s.forget) s.cursor.leads_step).trans hmoves)
  have hadd (found : List (Token × String)) (f : File) (hf : f.Sourced tokens)
      (hfound : ∀ constant ∈ found, ∃ front eq more, s.cursor.step.rest =
        front ++ constant.1 :: eq :: more ∧ constant.1.kind = .name ∧ eq.is "=" = true ∧
          Through front (constant.1 :: eq :: more)) :
      (found.foldl (fun f constant => f.addConstant
        ⟨document s.pending (.ofFqsen (s.space.join constant.1.text) s.cursor.line),
          { value := constant.2 }⟩) f).Sourced tokens := by
    induction found generalizing f with
    | nil => exact hf
    | cons constant found ih =>
      refine ih _ (File.Every.addConstant hf (documented_of _ (h.awaits hrest) fun i hi hi' => ?_))
        fun other hother => hfound other (List.mem_cons_of_mem constant hother)
      obtain ⟨front, eq, more, hlist, hkind, heq, hthrough⟩ := hfound constant List.mem_cons_self
      rw [hrest, ← hstep, hlist]
      exact .constant ht hthrough hkind heq hi (hi'.trans (line_of_rest hrest))
  have hconstants := hadd (constantList s.cursor.step.fuel s.cursor.step).1 s.file h.file
    fun constant hmem => exists_of_mem_constantList hmem
  exact hread.withFile hconstants

theorem sourced_defineCall (ht : t.isKeyword "define" = true) :
    s.defineCall.Sourced tokens := by
  have hstep : s.cursor.step.rest = rest := congrArg Cursor.rest (step_of_rest hrest)
  have hleads := (s.cursor.leads_step.trans (step_leads_defineCall s)).suffix
  have hword := sourced_step h hrest (Token.loose_of_name (Token.kind_of_isKeyword ht))
  rw [defineCall] at hleads ⊢
  dsimp only at hleads ⊢
  split
  · next o name comma more hmore =>
    split
    · next hguard =>
      simp only [Bool.and_eq_true, beq_iff_eq] at hguard
      obtain ⟨⟨ho, hname⟩, hcomma⟩ := hguard
      simp only [hmore, ho, hname, hcomma] at hleads
      refine sourced_of_none (hleads.trans h.cursor) rfl (File.Every.addConstant h.file ?_)
      refine documented_of _ (h.awaits hrest) fun i hi hi' => ?_
      rw [hrest, ← hstep, hmore]
      exact .defined ht ho hname hcomma hi (hi'.trans (line_of_rest hrest))
    · exact hword
  · exact hword

/-- Every step of the reader keeps that all documentation is that of comments of the source. -/
theorem Sourced.tokenAhead : (s.tokenAhead t).Sourced tokens := by
  have hturn := s.turn_tokenAhead t
  revert hturn
  generalize s.tokenAhead t = u
  intro hturn
  cases hturn with
  | docComment hdoc => exact sourced_docComment h hrest hdoc
  | opens => exact sourced_of_none (sourced_forget_step h).cursor rfl h.file
  | closes =>
    have hclosed := sourced_forget_step h
    rw [closeBlock]
    split
    · exact hclosed
    · exact sourced_of_none hclosed.cursor rfl h.file
  | ends => exact sourced_forget_step h
  | passed hdoc hopens hcloses hend => exact sourced_step h hrest ⟨⟨hdoc, hend, hcloses⟩, hopens⟩
  | space => exact sourced_namespaceDeclaration h
  | imports => exact sourced_useDeclaration h
  | anonymous | enum => exact h.settled.forget.moves rfl (moves_skipDeclaration _)
  | «class» =>
    rw [classDeclaration_eq]
    exact (sourced_classHead h.settled rfl).read
  | interface _ hkw =>
    rw [interfaceDeclaration_eq]
    exact (sourced_interfaceHead h.settled rfl hrest hkw).read
  | trait _ hkw =>
    rw [traitDeclaration_eq]
    exact (sourced_traitHead h.settled rfl hrest hkw).read
  | enumWord _ hkw =>
    exact sourced_step h.settled hrest (Token.loose_of_name (Token.kind_of_isKeyword hkw))
  | function _ hkw => exact sourced_functionDeclaration h.settled hrest hkw
  | constant _ hkw => exact sourced_constantDeclaration h.settled hrest hkw
  | define _ hkw => exact sourced_defineCall h.settled hrest hkw
  | «include» _ hkw => exact sourced_includeStatement h hrest hkw

end Steps

end Reading

/-! ### Files as they are read -/

/-- What is said of the element at a spot: outside of class-likes and among members, other tokens
may stand between a doc comment and what it documents. -/
def Spot.Documented (tokens : List Token) (p : Spot) (item : Item) : Prop :=
  match p with
  | .top _ _ => ApiDoc.Documented StatementGap Declares tokens item
  | .member _ _ _ _ => ApiDoc.Documented MemberGap DeclaresMember tokens item

namespace File

theorem Sourced.at {tokens : List Token} {f : File} (h : f.Sourced tokens) {p : Spot} {item : Item}
    (hitem : f.at? p = some item) : p.Documented tokens item := by
  cases p with
  | top kind key => exact h.top kind key item hitem
  | member owner ownerKey kind key =>
    obtain ⟨m, hm, hi⟩ := Option.bind_eq_some_iff.mp hitem
    exact h.members owner ownerKey m hm kind key item hi

theorem sourced_fresh (tokens : List Token) (path hash : String) :
    File.Sourced tokens { path := path, hash := hash } where
  top kind key item h := by cases kind <;> simp [topItem?] at h
  members kind key m h := by cases kind <;> simp [membersIn?] at h

theorem sourced_finish {tokens : List Token} {s : Reading} (h : s.file.Sourced tokens) :
    s.finish.Sourced tokens := by
  rw [Reading.finish]
  generalize s.blocks = blocks
  induction blocks generalizing s with
  | nil => exact h
  | cons block blocks ih => exact ih ((Reading.moves_report s block.line _).sourced h)

/-- Reading a list of tokens documents every element with a comment among them. -/
theorem sourced_ofTokens (tokens : List Token) {f : File} (h : f.Sourced tokens) :
    (ofTokens f tokens).Sourced tokens := by
  have hstart : Reading.Sourced tokens { cursor := { rest := tokens }, file := f } :=
    Reading.sourced_of_none (List.suffix_refl tokens) rfl h
  refine sourced_finish (Reading.run_induction (fun {s t} ht hs => ?_) _ hstart).file
  obtain ⟨rest, hrest⟩ := Reading.exists_rest_of_peek ht
  exact hs.tokenAhead hrest

/-- Whatever is read from a source, the documentation of an element is that of a doc comment in
front of its declaration. No end of a statement and no brace stands between the two, but in two
places: outside of class-likes a comment stays while includes are read, and a comment that is the
last one in the body of a class-like stays over the brace that closes the body; among members an
opening brace does not end the wait. -/
theorem documented_of_ofSource {path content : String} {f : File}
    (hf : ofSource path content = .ok f) : ∃ tokens, Token.ofSource content = .ok tokens ∧
      ∀ p item, f.at? p = some item → p.Documented tokens item := by
  rw [ofSource] at hf
  cases htokens : Token.ofSource content with
  | error e => rw [htokens] at hf; simp [Except.map] at hf
  | ok tokens =>
    rw [htokens] at hf
    obtain rfl : ofTokens { path := path, hash := Digest.ofText content } tokens = f :=
      Except.ok.inj hf
    exact ⟨tokens, rfl, fun p item hitem => (sourced_ofTokens tokens (sourced_fresh ..)).at hitem⟩

/-- A comment in front of an include, which is followed by a class. -/
def includedSource : String :=
  "<?php\n/** File. */\n/** Inc. */\ninclude 'x.php';\nclass A \x7b\x7d"

def includedTokens : List Token := [
  ⟨.docComment, "/** File. */", "<?php\n", 2, 6, 18⟩, ⟨.docComment, "/** Inc. */", "\n", 3, 19, 30⟩,
  ⟨.name, "include", "\n", 4, 31, 38⟩, ⟨.literal, "'x.php'", " ", 4, 39, 46⟩,
  ⟨.punct, ";", "", 4, 46, 47⟩, ⟨.name, "class", "\n", 5, 48, 53⟩, ⟨.name, "A", " ", 5, 54, 55⟩,
  ⟨.punct, "\x7b", " ", 5, 56, 57⟩, ⟨.punct, "\x7d", "", 5, 57, 58⟩]

/-- The comment in front of the include documents the class. -/
theorem documented_of_ofSource_include : ∃ f item,
    ofSource "a.php" includedSource = .ok f ∧ Token.ofSource includedSource = .ok includedTokens ∧
      f.at? (.top .class "\\A") = some item ∧ item.info.summary = "Inc." ∧
      (Spot.top .class "\\A").Documented includedTokens item := by
  have htokens : Token.ofSource includedSource = .ok includedTokens := by decide +kernel
  have hf : ofSource "a.php" includedSource = .ok
      (ofTokens { path := "a.php", hash := Digest.ofText includedSource } includedTokens) := by
    rw [ofSource, htokens]
    rfl
  have hitem : (ofTokens { path := "a.php", hash := Digest.ofText includedSource }
      includedTokens).at? (.top .class "\\A") =
        some ⟨.class, { fqsen := ⟨"\\A"⟩, name := "A", line := 5, summary := "Inc." }, none⟩ := by
    decide +kernel
  obtain ⟨tokens, hsame, hall⟩ := documented_of_ofSource hf
  obtain rfl := Except.ok.inj (htokens.symm.trans hsame)
  exact ⟨_, _, hf, htokens, hitem, rfl, hall _ _ hitem⟩

end File

end ApiDoc
