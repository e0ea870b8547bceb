import ApiDoc.Proofs.Passage
import ApiDoc.Proofs.Reflection

/-!
# Statements

What one step of the reader takes in. A routine that reads a declaration stops right behind it
(`Reading.Takes`), and the file has what it declares. `Reading.reads_statement` puts them together:
whatever the statement is, the reader passes exactly its tokens.
-/

namespace ApiDoc

/-! ### Outlines of files -/

@[ext] theorem Outline.ext {o p : Outline} (haliases : o.aliases = p.aliases)
    (hfound : ∀ kind key, o.found kind key = p.found kind key) : o = p := by
  obtain ⟨aliases, found⟩ := o
  obtain ⟨others, more⟩ := p
  obtain rfl : aliases = others := haliases
  obtain rfl : found = more := funext fun kind => funext fun key => hfound kind key
  rfl

theorem NameMap.map_get?_insert {α β : Type} (view : α → β) (m : NameMap α) (key other : String)
    (value : α) : ((m.insert key value).get? other).map view =
      if other = key then some (view value) else (m.get? other).map view := by
  rw [get?_insert]
  by_cases h : other = key
  · rw [if_pos h.symm, if_pos h]
    rfl
  · rw [if_neg (Ne.symm h), if_neg h]

namespace File

theorem outline_congr {f g : File} (haliases : g.aliases = f.aliases)
    (hclasses : g.classes = f.classes) (hinterfaces : g.interfaces = f.interfaces)
    (htraits : g.traits = f.traits) (hfunctions : g.functions = f.functions)
    (hconstants : g.constants = f.constants) : g.outline = f.outline := by
  refine Outline.ext haliases fun kind key => ?_
  cases kind <;>
    simp only [outline, basesAt?, hclasses, hinterfaces, htraits, hfunctions, hconstants]

variable (f : File)

theorem outline_addClass (e : Element ClassBody) : (f.addClass e).outline =
    f.outline.add .class e.info.fqsen ⟨e.body.parent, e.body.interfaces, e.body.usedTraits⟩ := by
  refine Outline.ext rfl fun kind key => ?_
  cases kind with
  | «class» => simp [outline, Outline.add, basesAt?, addClass, NameMap.map_get?_insert]
  | _ => rfl

theorem outline_addInterface (e : Element InterfaceBody) : (f.addInterface e).outline =
    f.outline.add .interface e.info.fqsen { interfaces := e.body.parents } := by
  refine Outline.ext rfl fun kind key => ?_
  cases kind with
  | «interface» => simp [outline, Outline.add, basesAt?, addInterface, NameMap.map_get?_insert]
  | _ => rfl

theorem outline_addTrait (e : Element TraitBody) : (f.addTrait e).outline =
    f.outline.add .trait e.info.fqsen { usedTraits := e.body.usedTraits } := by
  refine Outline.ext rfl fun kind key => ?_
  cases kind with
  | «trait» => simp [outline, Outline.add, basesAt?, addTrait, NameMap.map_get?_insert]
  | _ => rfl

theorem outline_addFunction (e : Element FunctionBody) :
    (f.addFunction e).outline = f.outline.add .function e.info.fqsen := by
  refine Outline.ext rfl fun kind key => ?_
  cases kind with
  | function => simp [outline, Outline.add, addFunction, NameMap.map_get?_insert]
  | _ => rfl

theorem outline_addConstant (e : Element ConstantBody) :
    (f.addConstant e).outline = f.outline.add .constant e.info.fqsen := by
  refine Outline.ext rfl fun kind key => ?_
  cases kind with
  | constant => simp [outline, Outline.add, addConstant, NameMap.map_get?_insert]
  | _ => rfl

end File

@[simp] theorem Info.fqsen_ofFqsen (fqsen : Fqsen) (line : Nat) :
    (Info.ofFqsen fqsen line).fqsen = fqsen := rfl

namespace Reading

open Cursor

/-- What a name stands for is determined by the outline and the namespace. -/
theorem target_outline (s : Reading) : s.file.outline.target s.space = s.reference := by
  funext name
  rw [Outline.target, reference]
  rw [qualify_congr (s := s) _ _ name]
  · rfl
  · rfl

/-! ### What a step takes in -/

def lead (s : Reading) : Lead := .of s.cursor.previous

/-- The state has moved on and has entered declarations. -/
structure Enters (s : Reading) (ds : List Declaration) (u : Reading) : Prop where
  space : u.space = s.space
  blocks : u.blocks = s.blocks
  outline : u.file.outline = ds.foldl (Outline.enter s.space) s.file.outline

/-- The state has entered declarations and stands in front of tokens, where a word means what it
means at the start of a statement. -/
structure Takes (s : Reading) (rest : List Token) (ds : List Declaration) (u : Reading) : Prop
    extends Enters s ds u where
  rest : u.cursor.rest = rest
  lead : u.lead = .plain

/-- The reader gets from one state to the other in no more steps than there are tokens between
them. -/
structure Passes (s : Reading) (ts : List Token) (u : Reading) : Prop where
  steps : ∃ n ≤ ts.length, ∀ fuel, run (n + fuel) s = run fuel u
  rest : s.cursor.rest = ts ++ u.cursor.rest

/-- The reader passes tokens and enters declarations. -/
structure Reads (s : Reading) (ts : List Token) (ds : List Declaration) (u : Reading) : Prop
    extends Enters s ds u, Passes s ts u

theorem Enters.trans {s u v : Reading} {ds es : List Declaration} (h : s.Enters ds u)
    (k : u.Enters es v) : s.Enters (ds ++ es) v where
  space := k.space.trans h.space
  blocks := k.blocks.trans h.blocks
  outline := by rw [k.outline, h.outline, h.space, List.foldl_append]

theorem Passes.trans {s u v : Reading} {ts us : List Token} (h : s.Passes ts u)
    (k : u.Passes us v) : s.Passes (ts ++ us) v where
  steps := by
    obtain ⟨m, hm, hfirst⟩ := h.steps
    obtain ⟨n, hn, hsecond⟩ := k.steps
    refine ⟨m + n, ?_, fun fuel => ?_⟩
    · rw [List.length_append]
      omega
    · rw [Nat.add_assoc, hfirst, hsecond]
  rest := by rw [h.rest, k.rest, List.append_assoc]

/-- One step, over any number of tokens. -/
theorem passes_of_step {s u : Reading} {t : Token} {ts : List Token}
    (hs : s.cursor.rest = t :: (ts ++ u.cursor.rest)) (hstep : s.tokenAhead t = u) :
    s.Passes (t :: ts) u where
  steps := by
    refine ⟨1, Nat.succ_le_succ (Nat.zero_le _), fun fuel => ?_⟩
    rw [Nat.add_comm, run, Cursor.peek, hs]
    exact congrArg (run fuel) hstep
  rest := hs

theorem Reads.refl (s : Reading) : s.Reads [] [] s :=
  ⟨⟨rfl, rfl, rfl⟩, ⟨0, Nat.le_refl 0, fun fuel => by rw [Nat.zero_add]⟩, rfl⟩

theorem Reads.trans {s u v : Reading} {ts us : List Token} {ds es : List Declaration}
    (h : s.Reads ts ds u) (k : u.Reads us es v) : s.Reads (ts ++ us) (ds ++ es) v :=
  ⟨h.toEnters.trans k.toEnters, h.toPasses.trans k.toPasses⟩

/-- What a step takes in is read. -/
theorem Takes.reads {s u : Reading} {t : Token} {ts rest : List Token} {ds : List Declaration}
    (hs : s.cursor.rest = t :: (ts ++ rest)) (hstep : s.tokenAhead t = u)
    (h : s.Takes rest ds u) : s.Reads (t :: ts) ds u :=
  ⟨h.toEnters, passes_of_step (hs.trans (by rw [h.rest])) hstep⟩

theorem behindAccess_of_lead {s : Reading} (h : s.lead ≠ .access) : s.behindAccess = false := by
  rw [behindAccess, Bool.eq_false_iff]
  intro haccess
  rw [lead, Lead.of, if_pos haccess] at h
  exact h rfl

theorem tokenAhead_word {s : Reading} {t : Token} (hname : t.kind = .name)
    (h : s.lead ≠ .access) : s.tokenAhead t = s.wordAhead t := by
  rw [tokenAhead, hname]
  simp only [behindAccess_of_lead h, Bool.false_eq_true, if_false]

/-- Behind a punctuation that gives no access, a word starts a statement. -/
theorem lead_of_is {t : Token} {p : String} (h : t.is p = true)
    (hne : p ≠ "::" ∧ p ≠ "->" ∧ p ≠ "?->") : Lead.of (some t) = .plain := by
  rw [Lead.of, Option.any_some, Option.any_some,
    Token.isKeyword_eq_false_of_kind (Token.not_name_of_is h)]
  simp [Token.is_eq_false h hne.1, Token.is_eq_false h hne.2.1, Token.is_eq_false h hne.2.2]

theorem lead_of_endsStatement {t : Token} (h : t.endsStatement = true) :
    Lead.of (some t) = .plain := by
  rw [Lead.of, Option.any_some, Option.any_some,
    Token.isKeyword_eq_false_of_kind (Token.not_name_of_endsStatement h)]
  simp [Token.is_eq_false_of_endsStatement h]

theorem lead_of_isKeyword {t : Token} {word : String} (h : t.isKeyword word = true)
    (hne : Text.asciiLower word ≠ Text.asciiLower "new") : Lead.of (some t) = .plain := by
  have hpunct (p : String) : t.is p = false :=
    Token.is_eq_false_of_kind (by rw [Token.kind_of_isKeyword h]; decide)
  rw [Lead.of, Option.any_some, Option.any_some, Token.isKeyword_eq_false h hne]
  simp [hpunct]

theorem lead_withFile (u : Reading) (f : File) : lead { u with file := f } = u.lead := by
  rw [lead, lead]

theorem lead_of_cursor {u : Reading} {t : Token} {rest : List Token}
    (h : u.cursor = ⟨some t, rest⟩) (ht : Lead.of (some t) = .plain) : u.lead = .plain := by
  rw [lead, h]
  exact ht

theorem lead_of_isLast {t : Token} (h : IsLast t) : Lead.of (some t) = .plain := by
  rcases h with h | h
  · exact lead_of_is h (by decide)
  · exact lead_of_endsStatement h

/-! ### Imports and constants -/

theorem takes_imports {s : Reading} {kw e : Token} {list rest : List Token}
    {items : List (String × Fqsen)} (hs : s.cursor.rest = kw :: (list ++ e :: rest))
    (hlist : ImportList list items)
    (hfirst : ∀ t ∈ list.head?, t.isKeyword "function" = false ∧ t.isKeyword "const" = false)
    (he : e.endsStatement = true) : s.Takes rest [⟨.imports items, none⟩] s.useDeclaration := by
  have hstep : s.forget.step = s.forget.moveTo ⟨some kw, list ++ e :: rest⟩ :=
    congrArg s.forget.moveTo (step_of_rest hs)
  have hplain : (Cursor.mk (some kw) (list ++ e :: rest)).next
      (fun t => t.isKeyword "function" || t.isKeyword "const") = false := by
    cases list with
    | nil =>
      have hkind := Token.not_name_of_endsStatement he
      simp [Cursor.next, Cursor.peek, Token.isKeyword_eq_false_of_kind hkind]
    | cons t list => simp [Cursor.next, Cursor.peek, hfirst t rfl]
  have hfuel : list.length < (Cursor.mk (some kw) (list ++ e :: rest)).fuel := by
    simp only [Cursor.fuel, List.length_append]
    omega
  obtain ⟨d, hread, hd⟩ := importList_of hlist (c := ⟨some kw, list ++ e :: rest⟩) rfl he hfuel
  have hskip := skipStatement_of_end (.nil : Phrase [] []) he hd
  have hmoved : (s.forget.moveTo ⟨some kw, list ++ e :: rest⟩).cursor =
      ⟨some kw, list ++ e :: rest⟩ := rfl
  rw [useDeclaration, hstep]
  simp only [hmoved, hplain, hread, hskip, Bool.false_eq_true, if_false]
  exact ⟨⟨rfl, rfl, rfl⟩, rfl, lead_of_endsStatement he⟩

/-- A use that imports no class-likes is passed over as a statement. -/
theorem useDeclaration_eq {s : Reading} {kw word : Token} {rest : List Token}
    (hs : s.cursor.rest = kw :: word :: rest)
    (hword : word.kind ≠ .name ∨ word.isKeyword "function" = true ∨ word.isKeyword "const" = true) :
    s.Enters [] s.useDeclaration ∧
      s.useDeclaration.cursor = (Cursor.mk (some kw) (word :: rest)).skipStatement := by
  have hstep : s.forget.step = s.forget.moveTo ⟨some kw, word :: rest⟩ :=
    congrArg s.forget.moveTo (step_of_rest hs)
  have hmoved : (s.forget.moveTo ⟨some kw, word :: rest⟩).cursor = ⟨some kw, word :: rest⟩ := rfl
  rw [useDeclaration, hstep]
  simp only [hmoved]
  by_cases hnext : (Cursor.mk (some kw) (word :: rest)).next
      (fun t => t.isKeyword "function" || t.isKeyword "const") = true
  · rw [if_pos hnext]
    exact ⟨⟨rfl, rfl, rfl⟩, rfl⟩
  · have hkind : word.kind ≠ .name := by
      rcases hword with hkind | hword
      · exact hkind
      · simp [Cursor.next, Cursor.peek, hword] at hnext
    have hnone : importList (Cursor.mk (some kw) (word :: rest)).fuel
        (Cursor.mk (some kw) (word :: rest)) = ([], ⟨some kw, word :: rest⟩) := by
      rw [Cursor.fuel, importList, name?_eq_none rfl hkind]
    rw [if_neg hnext]
    simp only [hnone, and_true]
    exact ⟨rfl, rfl, rfl⟩

theorem constants_of {s : Reading} {list rest : List Token} {names : List String} {e : Token}
    (h : ConstantList list names) (hs : s.cursor.rest = list ++ e :: rest)
    (he : e.endsStatement = true) :
    ∃ found, s.constants = (found, s.moveTo ⟨some e, rest⟩) ∧
      found.map (fun constant => constant.1.text) = names := by
  have hfuel : list.length < s.cursor.fuel := by
    simp only [Cursor.fuel, hs, List.length_append]
    omega
  obtain ⟨found, d, hread, hd, hnames⟩ := constantList_of h hs he hfuel
  have hskip := skipStatement_of_end (.nil : Phrase [] []) he hd
  refine ⟨found, ?_, hnames⟩
  rw [constants, hread]
  simp only [hskip]

/-- Constants that are added one by one are entered one by one. -/
theorem outline_foldl_addConstant (space : Fqsen) (doc : Option DocBlock) (line : Nat)
    (found : List (Token × String)) (f : File) :
    (found.foldl (fun f constant => f.addConstant
      ⟨document doc (.ofFqsen (space.join constant.1.text) line), { value := constant.2 }⟩)
        f).outline =
      ((found.map fun constant => constant.1.text).map fun name =>
        (⟨.constant name, none⟩ : Declaration)).foldl (Outline.enter space) f.outline := by
  induction found generalizing f with
  | nil => rfl
  | cons constant found ih =>
    rw [List.foldl_cons, ih, File.outline_addConstant, fqsen_document]
    rfl

theorem takes_constants {s : Reading} {kw e : Token} {list rest : List Token}
    {names : List String} (hs : s.cursor.rest = kw :: (list ++ e :: rest))
    (hlist : ConstantList list names) (he : e.endsStatement = true) :
    s.Takes rest (names.map fun name => ⟨.constant name, none⟩) s.constantDeclaration := by
  obtain ⟨found, hread, rfl⟩ := constants_of (s := s.forget.step) hlist
    (congrArg Cursor.rest (step_of_rest hs)) he
  rw [constantDeclaration]
  simp only [hread]
  exact ⟨⟨rfl, rfl, outline_foldl_addConstant s.space s.pending s.cursor.line found s.file⟩, rfl,
    lead_of_endsStatement he⟩

/-! ### Includes and definitions -/

theorem includeStatement_eq {s : Reading} {kw t : Token} {list rest : List Token}
    (hs : s.cursor.rest = kw :: (list ++ t :: rest)) (hlist : Phrase [] list)
    (ht : t.endsStatement = true ∨ t.closes = true) :
    s.Enters [] s.includeStatement ∧ ∃ d : Cursor, d.rest = t :: rest ∧
      s.includeStatement.cursor = d.dropEnd := by
  have hstop : t.closes = true ∨ t.opens = false ∧
      (t.endsStatement || [].contains t.text) = true := by
    rcases ht with ht | ht
    · exact .inr ⟨(Token.plain_of_endsStatement ht).1, by rw [ht, Bool.true_or]⟩
    · exact .inl ht
  have hread := expression_of_stop (c := ⟨some kw, list ++ t :: rest⟩) rfl hlist hstop
  rw [includeStatement, step_of_rest hs]
  exact ⟨⟨rfl, rfl, rfl⟩, _, hread, rfl⟩

theorem defineCall_eq {s : Reading} {kw o name comma c : Token} {value rest : List Token}
    (hs : s.cursor.rest = kw :: o :: name :: comma :: (value ++ c :: rest)) (ho : o.is "(" = true)
    (hname : name.kind = .literal) (hcomma : comma.is "," = true) (hvalue : Phrase [] value)
    (hc : c.is ")" = true) :
    s.Enters [⟨.defined (Fqsen.ofText (Reader.unquote name.text)), none⟩] s.defineCall ∧
      s.defineCall.cursor = (Cursor.mk (some c) rest).dropEnd := by
  have hskip : (Cursor.mk (some kw) (o :: name :: comma :: (value ++ c :: rest))).skip 3 =
      ⟨some comma, value ++ c :: rest⟩ := rfl
  have hread := expression_of_stop (c := ⟨some comma, value ++ c :: rest⟩) rfl hvalue
    (.inl (by simp [Token.closes, hc]))
  have htest : (o.is "(" && name.kind == .literal && comma.is ",") = true := by
    simp [ho, hname, hcomma]
  rw [defineCall, step_of_rest hs]
  simp only [htest, if_true, hskip, eatPunct_of_rest hread hc, Option.getD_some, and_true]
  refine ⟨rfl, rfl, ?_⟩
  rw [File.outline_addConstant, fqsen_document]
  rfl

theorem defineCall_of_noDefinition {s : Reading} {kw : Token} {ts rest : List Token}
    (h : NoDefinition ts) (hs : s.cursor.rest = kw :: (ts ++ rest)) :
    s.defineCall = s.moveTo ⟨some kw, ts ++ rest⟩ := by
  rw [defineCall, step_of_rest hs]
  cases h with
  | @apart t ts ht =>
    dsimp only [List.cons_append]
    split
    · next paren name comma more heq =>
      obtain rfl : t = paren := (List.cons.inj heq).1
      rw [ht]
      rfl
    · rfl
  | @name o name comma ts hnone =>
    have htest : (o.is "(" && name.kind == .literal && comma.is ",") = false := by
      rcases hnone with hkind | hcomma
      · simp [hkind]
      · simp [hcomma]
    simp only [List.cons_append, htest, Bool.false_eq_true, if_false]

/-! ### Functions -/

theorem optional_sign {sign : List Token} (h : ByReference sign) {c : Cursor} {t : Token}
    {rest : List Token} (hc : c.rest = sign ++ t :: rest) (ht : t.is "&" = false) :
    ∃ d, (c.eatPunct "&").getD c = d ∧ d.rest = t :: rest ∧
      (d.previous = c.previous ∨ Lead.of d.previous = .plain) := by
  cases h with
  | none => exact ⟨c, by rw [eatPunct_eq_none hc ht]; rfl, hc, .inl rfl⟩
  | @sign u hu =>
    refine ⟨⟨some u, t :: rest⟩, by rw [eatPunct_of_rest hc hu]; rfl, rfl, .inr ?_⟩
    exact lead_of_is hu (by decide)

theorem takes_function {s : Reading} {kw name : Token} {sign parts rest : List Token}
    (hs : s.cursor.rest = kw :: (sign ++ name :: (parts ++ rest))) (hsign : ByReference sign)
    (hname : name.kind = .name) (hparts : Signature parts) :
    s.Takes rest [⟨.function name.text, none⟩] s.functionDeclaration := by
  obtain ⟨d, hd, hrest, -⟩ := optional_sign hsign
    (c := ⟨some kw, sign ++ name :: (parts ++ rest)⟩) rfl
    (Token.is_eq_false_of_kind (by rw [hname]; decide))
  obtain ⟨arguments, types, t, ht, hread⟩ := signature_of
    (s := s.forget.moveTo ⟨some name, parts ++ rest⟩) hparts rfl s.pending
  have hopen : (Cursor.mk (some name) (parts ++ rest)).next (·.is "(") = true := by
    cases hparts with
    | parts ho => simp [Cursor.next, Cursor.peek, ho]
  rw [functionDeclaration, step_of_rest hs]
  simp only [hd, name?_of_rest hrest hname, hopen, if_true, hread]
  refine ⟨⟨rfl, rfl, ?_⟩, rfl, lead_of_isLast ht⟩
  have hfqsen : (document s.pending
      (.ofFqsen (s.space.join (name.text ++ "()")) s.cursor.line)).fqsen =
        s.space.join (name.text ++ "()") := fqsen_document _ _
  simp only [File.outline_addFunction, hfqsen]
  rfl

theorem takes_closure {s : Reading} {kw t : Token} {sign rest : List Token}
    (hs : s.cursor.rest = kw :: (sign ++ t :: rest)) (hkw : kw.isKeyword "function" = true)
    (hsign : ByReference sign) (ht : t.kind ≠ .name) (hamp : t.is "&" = false) :
    s.Takes (t :: rest) [] s.functionDeclaration := by
  obtain ⟨d, hd, hrest, hlead⟩ := optional_sign hsign (c := ⟨some kw, sign ++ t :: rest⟩) rfl hamp
  rw [functionDeclaration, step_of_rest hs]
  simp only [hd, name?_eq_none hrest ht]
  refine ⟨⟨rfl, rfl, rfl⟩, hrest, ?_⟩
  rcases hlead with hlead | hlead
  · exact (congrArg Lead.of hlead).trans (lead_of_isKeyword hkw (by decide))
  · exact hlead

/-! ### Class-likes -/

theorem classModifiers_of {modifiers : List Token} (h : ∀ t ∈ modifiers, IsModifier t) {t : Token}
    (ht : ¬ IsModifier t) (rest : List Token) :
    ∃ isAbstract isFinal,
      classModifiers (modifiers ++ t :: rest) = (isAbstract, isFinal, modifiers.length) := by
  induction modifiers with
  | nil =>
    simp only [IsModifier, not_or, Bool.not_eq_true] at ht
    simp [classModifiers, ht]
  | cons first modifiers ih =>
    obtain ⟨isAbstract, isFinal, hrest⟩ := ih fun u hu => h u (List.mem_cons_of_mem _ hu)
    rw [List.cons_append, classModifiers, hrest]
    rcases h first List.mem_cons_self with hword | hword | hword
    · simp [hword]
    · cases first.isKeyword "abstract" <;> simp [hword]
    · cases first.isKeyword "abstract" <;> cases first.isKeyword "final" <;> simp [hword]

theorem not_isModifier_class {t : Token} (h : t.isKeyword "class" = true) : ¬ IsModifier t := by
  have hother (word : String) (hne : "class" ≠ Text.asciiLower word) : ¬ t.isKeyword word = true :=
    Bool.eq_false_iff.mp (Token.isKeyword_eq_false h hne)
  rintro (hword | hword | hword)
  · exact hother "abstract" (by decide) hword
  · exact hother "final" (by decide) hword
  · exact hother "readonly" (by decide) hword

theorem classBlock_head {block : List Token} {traits : List String} (h : ClassBlock block traits) :
    ∃ o ts, block = o :: ts ∧ o.opensBlock = true := by
  cases h with
  | braces ho _ _ => exact ⟨_, _, rfl, ho⟩

theorem takes_class {s : Reading} {kw name : Token} {modifiers base list block rest : List Token}
    {parent : Option String} {interfaces traits : List String}
    (hs : s.cursor.rest = modifiers ++ kw :: name :: (base ++ (list ++ (block ++ rest))))
    (hmodifiers : ∀ t ∈ modifiers, IsModifier t) (hkw : kw.isKeyword "class" = true)
    (hname : name.kind = .name) (hbase : Extends base parent)
    (hlist : ListBehind "implements" list interfaces) (hblock : ClassBlock block traits) :
    s.Takes rest [⟨.classLike .class name.text parent interfaces traits, none⟩]
      s.classDeclaration := by
  obtain ⟨isAbstract, isFinal, hfound⟩ := classModifiers_of hmodifiers (not_isModifier_class hkw)
    (name :: (base ++ (list ++ (block ++ rest))))
  obtain ⟨o, ts, rfl, ho⟩ := classBlock_head hblock
  have hnoExtends : ∀ t ∈ (list ++ (o :: ts ++ rest)).head?, t.isKeyword "extends" = false := by
    intro t ht
    cases hlist with
    | none =>
      obtain rfl : o = t := by simpa using ht
      exact Token.isKeyword_eq_false_of_kind (Token.not_name_of_is ho)
    | @names word names _ hword _ =>
      obtain rfl : word = t := by simpa using ht
      exact Token.isKeyword_eq_false hword (by decide)
  obtain ⟨d, hd, hparent⟩ := parentAt_of (s := s) hbase
    (c := ⟨some name, base ++ (list ++ (o :: ts ++ rest))⟩) rfl hnoExtends (by simp)
  have hlisted : (s.forget.moveTo d).cursor.rest = list ++ o :: (ts ++ rest) := hd
  obtain ⟨d', hd', hinterfaces⟩ := listBehind_of hlist hlisted ho
  obtain ⟨members, u, c, hbody, halike, hcursor, hc⟩ := classBody_of
    (s := (s.forget.moveTo d).moveTo d') hblock hd' (s.space.join name.text) false
  rw [classDeclaration, hs, hfound]
  simp only [eatKeyword_of_rest (skip_append hs) hkw, name?_of_rest (c := ⟨some kw, _⟩) rfl hname,
    hparent, hinterfaces, hbody]
  refine ⟨⟨halike.space, halike.blocks, ?_⟩, congrArg Cursor.rest hcursor, ?_⟩
  · have hfile : u.file = s.file := halike.file
    rw [File.outline_addClass, fqsen_document, hfile]
    simp only [List.foldl_cons, List.foldl_nil, Outline.enter, Option.getD_none, target_outline,
      reference_moveTo, reference_forget, Info.fqsen_ofFqsen]
  · rw [lead_withFile]
    exact lead_of_cursor hcursor (lead_of_is hc (by decide))

/-- Modifiers and the word for a class in front of no name. -/
theorem takes_nameless {s : Reading} {kw t : Token} {modifiers rest : List Token}
    (hs : s.cursor.rest = modifiers ++ kw :: t :: rest) (h : ∀ t ∈ modifiers, IsModifier t)
    (hkw : kw.isKeyword "class" = true) (ht : t.kind ≠ .name) :
    s.Takes (t :: rest) [] s.classDeclaration := by
  obtain ⟨isAbstract, isFinal, hfound⟩ := classModifiers_of h (not_isModifier_class hkw) (t :: rest)
  rw [classDeclaration, hs, hfound]
  simp only [eatKeyword_of_rest (skip_append hs) hkw,
    name?_eq_none (c := ⟨some kw, t :: rest⟩) rfl ht]
  exact ⟨⟨rfl, rfl, rfl⟩, rfl, lead_of_isKeyword hkw (by decide)⟩

theorem lead_of_isModifier {t : Token} (h : IsModifier t) : Lead.of (some t) = .plain := by
  rcases h with h | h | h <;> exact lead_of_isKeyword h (by decide)

/-- Modifiers in front of no class. -/
theorem takes_modifiers {s : Reading} {first t : Token} {modifiers rest : List Token}
    (hs : s.cursor.rest = first :: modifiers ++ t :: rest)
    (h : ∀ t ∈ first :: modifiers, IsModifier t) (ht : ¬ IsModifier t)
    (hclass : t.isKeyword "class" = false) : s.Takes (t :: rest) [] s.classDeclaration := by
  -- the last of the modifiers is the token behind which the reader stands
  obtain ⟨front, last, hlast⟩ : ∃ front last, first :: modifiers = front ++ [last] :=
    ⟨_, _, (List.dropLast_concat_getLast (List.cons_ne_nil first modifiers)).symm⟩
  have hmem : last ∈ first :: modifiers := by simp [hlast]
  have hs' : s.cursor.rest = front ++ last :: t :: rest := by simp [hs, hlast]
  have hskip : s.cursor.skip (first :: modifiers).length = ⟨some last, t :: rest⟩ := by
    rw [hlast, List.length_append]
    exact skip_concat hs'
  obtain ⟨isAbstract, isFinal, hfound⟩ := classModifiers_of h ht rest
  rw [classDeclaration, hs, hfound]
  simp only [eatKeyword_eq_none (skip_append hs) hclass]
  exact ⟨⟨rfl, rfl, rfl⟩, congrArg Cursor.rest hskip,
    lead_of_cursor hskip (lead_of_isModifier (h last hmem))⟩

theorem takes_interface {s : Reading} {kw name : Token} {list block rest : List Token}
    {parents traits : List String} (hs : s.cursor.rest = kw :: name :: (list ++ (block ++ rest)))
    (hname : name.kind = .name) (hlist : ListBehind "extends" list parents)
    (hblock : ClassBlock block traits) :
    s.Takes rest [⟨.classLike .interface name.text none parents [], none⟩]
      s.interfaceDeclaration := by
  obtain ⟨o, ts, rfl, ho⟩ := classBlock_head hblock
  have hlisted : (s.forget.moveTo ⟨some name, list ++ (o :: ts ++ rest)⟩).cursor.rest =
      list ++ o :: (ts ++ rest) := rfl
  obtain ⟨d, hd, hparents⟩ := listBehind_of hlist hlisted ho
  obtain ⟨members, u, c, hbody, halike, hcursor, hc⟩ := classBody_of
    (s := (s.forget.moveTo ⟨some name, list ++ (o :: ts ++ rest)⟩).moveTo d) hblock hd
    (s.space.join name.text) true
  rw [interfaceDeclaration, step_of_rest hs]
  simp only [name?_of_rest (c := ⟨some kw, _⟩) rfl hname, hparents, hbody]
  refine ⟨⟨halike.space, halike.blocks, ?_⟩, congrArg Cursor.rest hcursor, ?_⟩
  · have hfile : u.file = s.file := halike.file
    rw [File.outline_addInterface, fqsen_document, hfile]
    simp only [List.foldl_cons, List.foldl_nil, Outline.enter, Option.getD_none, target_outline,
      Option.map_none, List.map_nil, reference_moveTo, reference_forget, Info.fqsen_ofFqsen]
  · rw [lead_withFile]
    exact lead_of_cursor hcursor (lead_of_is hc (by decide))

theorem takes_trait {s : Reading} {kw name : Token} {block rest : List Token}
    {traits : List String} (hs : s.cursor.rest = kw :: name :: (block ++ rest))
    (hname : name.kind = .name) (hblock : ClassBlock block traits) :
    s.Takes rest [⟨.classLike .trait name.text none [] traits, none⟩] s.traitDeclaration := by
  obtain ⟨members, u, c, hbody, halike, hcursor, hc⟩ := classBody_of
    (s := s.forget.moveTo ⟨some name, block ++ rest⟩) hblock rfl (s.space.join name.text) false
  rw [traitDeclaration, step_of_rest hs]
  simp only [name?_of_rest (c := ⟨some kw, _⟩) rfl hname, hbody]
  refine ⟨⟨halike.space, halike.blocks, ?_⟩, congrArg Cursor.rest hcursor, ?_⟩
  · have hfile : u.file = s.file := halike.file
    rw [File.outline_addTrait, fqsen_document, hfile]
    simp only [List.foldl_cons, List.foldl_nil, Outline.enter, Option.getD_none, target_outline,
      Option.map_none, List.map_nil, reference_moveTo, reference_forget, Info.fqsen_ofFqsen]
  · rw [lead_withFile]
    exact lead_of_cursor hcursor (lead_of_is hc (by decide))

theorem takes_skipDeclaration {s : Reading} {o c : Token} {header body rest : List Token}
    (hs : s.cursor.rest = header ++ o :: (body ++ c :: rest)) (hheader : Header header)
    (ho : o.opensBlock = true) (hbody : Nested body) (hc : c.closesBlock = true) :
    s.Takes rest [] s.skipDeclaration := by
  rw [skipDeclaration, hs, headerWidth_header hheader ho]
  simp only [skip_concat hs]
  rw [skipBlock_of (s := s.moveTo ⟨some o, body ++ c :: rest⟩) hbody rfl hc]
  exact ⟨⟨rfl, rfl, rfl⟩, rfl, lead_of_is hc (by decide)⟩

/-! ### Words -/

/-- The state with the doc comment of the file settled. -/
def settled (s : Reading) : Reading := { s with fileDocSettled := true }

theorem Takes.of_settled {s u : Reading} {rest : List Token} {ds : List Declaration}
    (h : s.settled.Takes rest ds u) : s.Takes rest ds u :=
  ⟨⟨h.space, h.blocks, h.outline⟩, h.rest, h.lead⟩

theorem Takes.of_forget {s u : Reading} {rest : List Token} {ds : List Declaration}
    (h : s.forget.Takes rest ds u) : s.Takes rest ds u :=
  ⟨⟨h.space, h.blocks, h.outline⟩, h.rest, h.lead⟩

theorem Enters.of_settled {s u : Reading} {ds : List Declaration}
    (h : s.settled.Enters ds u) : s.Enters ds u :=
  ⟨h.space, h.blocks, h.outline⟩

variable {s : Reading} {kw : Token}

theorem contains_declarationWords : declarationWords.contains "use" = false ∧
    declarationWords.contains "namespace" = false ∧ declarationWords.contains "require" = false ∧
    declarationWords.contains "require_once" = false ∧
    declarationWords.contains "include" = false ∧
    declarationWords.contains "include_once" = false := by
  decide

theorem wordAhead_use (h : kw.isKeyword "use" = true) : s.wordAhead kw = s.useDeclaration := by
  have hword : Text.asciiLower kw.text = "use" :=
    Token.word_of_isKeyword h (by decide)
  simp only [wordAhead, hword, contains_declarationWords, Bool.false_eq_true, if_false]

theorem wordAhead_namespace (h : kw.isKeyword "namespace" = true) :
    s.wordAhead kw = s.namespaceDeclaration := by
  have hword : Text.asciiLower kw.text = "namespace" :=
    Token.word_of_isKeyword h (by decide)
  simp only [wordAhead, hword, contains_declarationWords, Bool.false_eq_true, if_false]

theorem kind_of_isInclude (h : IsInclude kw) : kw.kind = .name := by
  rcases h with h | h | h | h <;> exact Token.kind_of_isKeyword h

theorem kind_of_isModifier (h : IsModifier kw) : kw.kind = .name := by
  rcases h with h | h | h <;> exact Token.kind_of_isKeyword h

theorem wordAhead_include (h : IsInclude kw) : s.wordAhead kw = s.includeStatement := by
  obtain hword | hword | hword | hword : Text.asciiLower kw.text = "require" ∨
      Text.asciiLower kw.text = "require_once" ∨ Text.asciiLower kw.text = "include" ∨
      Text.asciiLower kw.text = "include_once" :=
    h.imp (Token.word_of_isKeyword · (by decide)) (Or.imp (Token.word_of_isKeyword · (by decide))
      (Or.imp (Token.word_of_isKeyword · (by decide)) (Token.word_of_isKeyword · (by decide))))
  all_goals
    simp only [wordAhead, hword, contains_declarationWords, Bool.false_eq_true, if_false]

/-- A word that starts declarations settles the doc comment of the file. -/
theorem settled_of_mem {word : String} (h : word ∈ declarationWords) :
    (if declarationWords.contains word = true then { s with fileDocSettled := true } else s) =
      s.settled :=
  if_pos (List.contains_iff_mem.mpr h)

theorem wordAhead_const (h : kw.isKeyword "const" = true) :
    s.wordAhead kw = s.settled.constantDeclaration := by
  have hword : Text.asciiLower kw.text = "const" :=
    Token.word_of_isKeyword h (by decide)
  simp only [wordAhead, hword, settled_of_mem (show "const" ∈ declarationWords by decide)]

theorem wordAhead_define (h : kw.isKeyword "define" = true) :
    s.wordAhead kw = s.settled.defineCall := by
  have hword : Text.asciiLower kw.text = "define" :=
    Token.word_of_isKeyword h (by decide)
  simp only [wordAhead, hword, settled_of_mem (show "define" ∈ declarationWords by decide)]

theorem wordAhead_function (h : kw.isKeyword "function" = true) :
    s.wordAhead kw = s.settled.functionDeclaration := by
  have hword : Text.asciiLower kw.text = "function" :=
    Token.word_of_isKeyword h (by decide)
  simp only [wordAhead, hword, settled_of_mem (show "function" ∈ declarationWords by decide)]

theorem wordAhead_interface (h : kw.isKeyword "interface" = true) :
    s.wordAhead kw = s.settled.interfaceDeclaration := by
  have hword : Text.asciiLower kw.text = "interface" :=
    Token.word_of_isKeyword h (by decide)
  simp only [wordAhead, hword, settled_of_mem (show "interface" ∈ declarationWords by decide)]

theorem wordAhead_trait (h : kw.isKeyword "trait" = true) :
    s.wordAhead kw = s.settled.traitDeclaration := by
  have hword : Text.asciiLower kw.text = "trait" :=
    Token.word_of_isKeyword h (by decide)
  simp only [wordAhead, hword, settled_of_mem (show "trait" ∈ declarationWords by decide)]

theorem wordAhead_modifier (h : IsModifier kw) : s.wordAhead kw = s.settled.classDeclaration := by
  obtain hword | hword | hword : Text.asciiLower kw.text = "abstract" ∨
      Text.asciiLower kw.text = "final" ∨ Text.asciiLower kw.text = "readonly" :=
    h.imp (Token.word_of_isKeyword · (by decide)) (Or.imp (Token.word_of_isKeyword · (by decide))
      (Token.word_of_isKeyword · (by decide)))
  · simp only [wordAhead, hword, settled_of_mem (show "abstract" ∈ declarationWords by decide)]
  · simp only [wordAhead, hword, settled_of_mem (show "final" ∈ declarationWords by decide)]
  · simp only [wordAhead, hword, settled_of_mem (show "readonly" ∈ declarationWords by decide)]

/-- Behind `new`, or not. -/
theorem any_new {s : Reading} (hne : s.lead ≠ .access) :
    s.cursor.previous.any (·.isKeyword "new") = decide (s.lead = .new) := by
  rw [lead, Lead.of] at hne ⊢
  split at hne
  · exact absurd rfl hne
  · next haccess =>
    rw [if_neg haccess]
    split
    · next hnew => rw [hnew]; rfl
    · next hnew => rw [Bool.eq_false_iff.mpr hnew]; rfl

theorem wordAhead_class (h : kw.isKeyword "class" = true) (hne : s.lead ≠ .access) :
    s.wordAhead kw = if s.lead = .new then s.settled.forget.skipDeclaration
      else s.settled.classDeclaration := by
  have hword : Text.asciiLower kw.text = "class" :=
    Token.word_of_isKeyword h (by decide)
  have hnew : s.settled.cursor.previous.any (·.isKeyword "new") = decide (s.lead = .new) :=
    any_new hne
  simp only [wordAhead, hword, settled_of_mem (show "class" ∈ declarationWords by decide), hnew,
    decide_eq_true_eq]

theorem wordAhead_enum {t : Token} {rest : List Token} (h : kw.isKeyword "enum" = true)
    (hs : s.cursor.rest = kw :: t :: rest) :
    s.wordAhead kw = if t.kind = .name then s.settled.forget.skipDeclaration
      else s.settled.step := by
  have hword : Text.asciiLower kw.text = "enum" :=
    Token.word_of_isKeyword h (by decide)
  have hpeek : s.settled.cursor.peekAt 1 = some t := by
    have hrest : s.settled.cursor.rest = kw :: t :: rest := hs
    rw [Cursor.peekAt, hrest]
    rfl
  simp only [wordAhead, hword, settled_of_mem (show "enum" ∈ declarationWords by decide), hpeek,
    Option.any_some, beq_iff_eq]

/-- A word that starts nothing is passed over. -/
theorem wordAhead_step {t : Token} (h : Text.asciiLower t.text ∉ statementWords) :
    s.wordAhead t = s.step := by
  simp only [statementWords, List.mem_cons, List.not_mem_nil, or_false, not_or] at h
  have hnone : declarationWords.contains (Text.asciiLower t.text) = false := by
    simp [declarationWords, h]
  rw [wordAhead, hnone]
  simp only [Bool.false_eq_true, if_false]
  split <;> first | rfl | simp_all

/-! ### Statements -/

/-- A token that is passed over by itself. -/
theorem reads_token {s : Reading} {t : Token} {rest : List Token} (hs : s.cursor.rest = t :: rest)
    (hopens : t.opensBlock = false) (hcloses : t.closesBlock = false)
    (hword : t.kind = .name → s.lead = .access ∨ Text.asciiLower t.text ∉ statementWords) :
    ∃ u, s.Reads [t] [] u ∧ u.cursor = ⟨some t, rest⟩ := by
  have hcursor : s.cursor.step = ⟨some t, rest⟩ := step_of_rest hs
  have hread (u : Reading) (hstep : s.tokenAhead t = u) (henters : s.Enters [] u)
      (hu : u.cursor = ⟨some t, rest⟩) : ∃ u, s.Reads [t] [] u ∧ u.cursor = ⟨some t, rest⟩ := by
    refine ⟨u, ⟨henters, passes_of_step ?_ hstep⟩, hu⟩
    rw [hs, hu]
    rfl
  have hpass : s.tokenAhead t = s.step → ∃ u, s.Reads [t] [] u ∧ u.cursor = ⟨some t, rest⟩ :=
    fun hstep => hread _ hstep ⟨rfl, rfl, rfl⟩ hcursor
  rw [tokenAhead] at hread hpass
  cases hkind : t.kind with
  | docComment =>
    simp only [hkind] at hread
    refine hread _ rfl ?_ ?_
    all_goals
      rw [docComment]
      dsimp only
      split
    · exact ⟨rfl, rfl, File.outline_congr rfl rfl rfl rfl rfl rfl⟩
    · exact ⟨rfl, rfl, rfl⟩
    · exact hcursor
    · exact hcursor
  | name =>
    simp only [hkind] at hpass
    refine hpass ?_
    split
    · rfl
    · next haccess =>
      refine wordAhead_step ((hword hkind).resolve_left fun hlead => haccess ?_)
      rw [lead, Lead.of] at hlead
      split at hlead
      · next h => exact h
      · split at hlead <;> simp at hlead
  | _ =>
    simp only [hkind, hopens, hcloses, Bool.false_eq_true, if_false] at hread
    refine hread _ rfl ?_ ?_
    all_goals
      split
    · exact ⟨rfl, rfl, rfl⟩
    · exact ⟨rfl, rfl, rfl⟩
    · exact hcursor
    · exact hcursor

/-- A statement that one word reads. -/
theorem exists_reads {s u : Reading} {kw : Token} {ts rest : List Token} {ds : List Declaration}
    (hs : s.cursor.rest = kw :: (ts ++ rest)) (hname : kw.kind = .name) (hne : s.lead ≠ .access)
    (hu : s.wordAhead kw = u) (h : s.Takes rest ds u) :
    ∃ u, s.Reads (kw :: ts) ds u ∧ ∀ t ∈ rest.head?, t.kind = .name → u.lead = .plain :=
  ⟨u, h.reads hs ((tokenAhead_word hname hne).trans hu), fun _ _ _ => h.lead⟩

/-- A statement that one word reads up to the bracket around it. -/
theorem exists_reads_inner {s u : Reading} {kw t : Token} {ts rest : List Token}
    {ds : List Declaration} (hs : s.cursor.rest = kw :: (ts ++ t :: rest)) (hname : kw.kind = .name)
    (hne : s.lead ≠ .access) (hu : s.wordAhead kw = u) (henters : s.Enters ds u)
    (hrest : u.cursor.rest = t :: rest) (ht : t.closes = true) :
    ∃ u, s.Reads (kw :: ts) ds u ∧ ∀ v ∈ (t :: rest).head?, v.kind = .name → u.lead = .plain := by
  refine ⟨u, ⟨henters, passes_of_step (hs.trans (by rw [hrest])) ?_⟩, fun v hv hkind => ?_⟩
  · exact (tokenAhead_word hname hne).trans hu
  · obtain rfl : t = v := by simpa using hv
    rw [Token.kind_of_closes ht] at hkind
    simp at hkind

/-- A class, which the first of its modifiers reads or the word for it. -/
theorem exists_reads_class {s : Reading} {kw : Token} {modifiers ts rest : List Token}
    {ds : List Declaration} (hs : s.cursor.rest = modifiers ++ kw :: (ts ++ rest))
    (hmodifiers : ∀ t ∈ modifiers, IsModifier t) (hnew : modifiers = [] → s.lead ≠ .new)
    (hkw : kw.isKeyword "class" = true) (hne : s.lead ≠ .access)
    (h : s.Takes rest ds s.settled.classDeclaration) :
    ∃ u, s.Reads (modifiers ++ kw :: ts) ds u ∧
      ∀ t ∈ rest.head?, t.kind = .name → u.lead = .plain := by
  cases modifiers with
  | nil =>
    have hword := wordAhead_class hkw hne
    rw [if_neg (hnew rfl)] at hword
    exact exists_reads hs (Token.kind_of_isKeyword hkw) hne hword h
  | cons first modifiers =>
    have hfirst := hmodifiers first List.mem_cons_self
    exact exists_reads (hs.trans (by simp)) (kind_of_isModifier hfirst) hne
      (wordAhead_modifier hfirst) h

/-- A word for a declaration in front of no name. -/
theorem exists_reads_word {s : Reading} {kw t : Token} {rest : List Token}
    (hs : s.cursor.rest = kw :: t :: rest)
    (hkw : kw.isKeyword "interface" = true ∨ kw.isKeyword "trait" = true ∨
      kw.isKeyword "enum" = true)
    (ht : t.kind ≠ .name) (hne : s.lead ≠ .access) :
    ∃ u, s.Reads [kw] [] u ∧ ∀ v ∈ (t :: rest).head?, v.kind = .name → u.lead = .plain := by
  have hs' : s.cursor.rest = kw :: ([] ++ t :: rest) := hs
  have hcursor : s.settled.cursor.step = ⟨some kw, t :: rest⟩ := step_of_rest hs
  have hnone : s.settled.cursor.step.name? = none := by
    rw [hcursor]
    exact name?_eq_none rfl ht
  have htakes (hplain : Lead.of (some kw) = .plain) : s.Takes (t :: rest) [] s.settled.step :=
    ⟨⟨rfl, rfl, rfl⟩, congrArg Cursor.rest hcursor, lead_of_cursor hcursor hplain⟩
  rcases hkw with hkw | hkw | hkw
  · refine exists_reads hs' (Token.kind_of_isKeyword hkw) hne ?_
      (htakes (lead_of_isKeyword hkw (by decide)))
    rw [wordAhead_interface hkw, interfaceDeclaration]
    simp only [hnone]
  · refine exists_reads hs' (Token.kind_of_isKeyword hkw) hne ?_
      (htakes (lead_of_isKeyword hkw (by decide)))
    rw [wordAhead_trait hkw, traitDeclaration]
    simp only [hnone]
  · exact exists_reads hs' (Token.kind_of_isKeyword hkw) hne
      ((wordAhead_enum hkw hs).trans (if_neg ht)) (htakes (lead_of_isKeyword hkw (by decide)))

/-- Each statement is read as it is written; a word behind it starts another one. -/
theorem reads_statement {l : Lead} {ts more : List Token} {ds : List Declaration}
    (h : Statement l ts more ds) {s : Reading} {tail : List Token}
    (hs : s.cursor.rest = ts ++ (more ++ tail)) (hl : s.lead = l) (hne : l ≠ .access) :
    ∃ u, s.Reads ts ds u ∧ ∀ t ∈ (more ++ tail).head?, t.kind = .name → u.lead = .plain := by
  subst hl
  cases h with
  | @imports kw e list more items hkw hlist hfirst he =>
    have hs' : s.cursor.rest = kw :: (list ++ e :: (more ++ tail)) := hs.trans (by simp)
    exact exists_reads hs (Token.kind_of_isKeyword hkw) hne (wordAhead_use hkw)
      (takes_imports hs' hlist hfirst he)
  | @otherImports kw word e list more hkw hword hlist he =>
    have hname : word.kind = .name := hword.elim Token.kind_of_isKeyword Token.kind_of_isKeyword
    obtain ⟨hopens, hcloses, hend⟩ := Token.plain_of_name hname
    have hs' : s.cursor.rest = kw :: word :: (list ++ e :: (more ++ tail)) := hs.trans (by simp)
    obtain ⟨henters, hcursor⟩ := useDeclaration_eq hs' (.inr hword)
    have hphrase : Phrase [] (word :: list) := .token hopens hcloses hend rfl hlist
    rw [skipStatement_of_end hphrase he rfl] at hcursor
    exact exists_reads hs (Token.kind_of_isKeyword hkw) hne (wordAhead_use hkw)
      ⟨henters, congrArg Cursor.rest hcursor, lead_of_cursor hcursor (lead_of_endsStatement he)⟩
  | @capture kw o e list more hkw ho hlist he =>
    have hs' : s.cursor.rest = kw :: o :: (list ++ e :: (more ++ tail)) := hs.trans (by simp)
    obtain ⟨henters, hcursor⟩ := useDeclaration_eq hs' (.inl ho)
    rw [skipStatement_of_end hlist he rfl] at hcursor
    exact exists_reads hs (Token.kind_of_isKeyword hkw) hne (wordAhead_use hkw)
      ⟨henters, congrArg Cursor.rest hcursor, lead_of_cursor hcursor (lead_of_endsStatement he)⟩
  | @captureInner kw o t list more hkw ho hlist ht =>
    obtain ⟨henters, hcursor⟩ := useDeclaration_eq hs (.inl ho)
    have hs' : s.cursor.rest = kw :: ((o :: list) ++ t :: (more ++ tail)) := hs
    have hrest := skipStatement_of_closes hlist ht
      (c := ⟨some kw, (o :: list) ++ t :: (more ++ tail)⟩) rfl
    exact exists_reads_inner hs' (Token.kind_of_isKeyword hkw) hne (wordAhead_use hkw) henters
      ((congrArg Cursor.rest hcursor).trans hrest) ht
  | @constants kw e list more names hkw hlist he =>
    have hs' : s.settled.cursor.rest = kw :: (list ++ e :: (more ++ tail)) := hs.trans (by simp)
    exact exists_reads hs (Token.kind_of_isKeyword hkw) hne (wordAhead_const hkw)
      (takes_constants hs' hlist he).of_settled
  | @included kw e list more hkw hlist he =>
    have hs' : s.cursor.rest = kw :: (list ++ e :: (more ++ tail)) := hs.trans (by simp)
    obtain ⟨henters, d, hd, hcursor⟩ := includeStatement_eq hs' hlist (.inl he)
    rw [dropEnd_of_rest hd he] at hcursor
    exact exists_reads hs (kind_of_isInclude hkw) hne (wordAhead_include hkw)
      ⟨henters, congrArg Cursor.rest hcursor, lead_of_cursor hcursor (lead_of_endsStatement he)⟩
  | @includedInner kw t list more hkw hlist ht =>
    obtain ⟨henters, d, hd, hcursor⟩ := includeStatement_eq hs hlist (.inr ht)
    rw [dropEnd_eq_self hd (Token.endsStatement_of_closes ht)] at hcursor
    exact exists_reads_inner hs (kind_of_isInclude hkw) hne (wordAhead_include hkw) henters
      ((congrArg Cursor.rest hcursor).trans hd) ht
  | @defined kw o name comma c e value more hkw ho hname hcomma hvalue hc he =>
    have hs' : s.settled.cursor.rest =
        kw :: o :: name :: comma :: (value ++ c :: e :: (more ++ tail)) := hs.trans (by simp)
    obtain ⟨henters, hcursor⟩ := defineCall_eq hs' ho hname hcomma hvalue hc
    rw [dropEnd_of_rest rfl he] at hcursor
    exact exists_reads hs (Token.kind_of_isKeyword hkw) hne (wordAhead_define hkw)
      ⟨henters.of_settled, congrArg Cursor.rest hcursor,
        lead_of_cursor hcursor (lead_of_endsStatement he)⟩
  | @definedInner kw o name comma c t value more hkw ho hname hcomma hvalue hc ht =>
    have hs' : s.settled.cursor.rest =
        kw :: o :: name :: comma :: (value ++ c :: t :: (more ++ tail)) := hs.trans (by simp)
    obtain ⟨henters, hcursor⟩ := defineCall_eq hs' ho hname hcomma hvalue hc
    rw [dropEnd_eq_self rfl ht] at hcursor
    exact exists_reads hs (Token.kind_of_isKeyword hkw) hne (wordAhead_define hkw)
      ⟨henters.of_settled, congrArg Cursor.rest hcursor,
        lead_of_cursor hcursor (lead_of_is hc (by decide))⟩
  | @noDefinition kw more hkw hnone =>
    have hcall := defineCall_of_noDefinition (s := s.settled) hnone hs
    refine exists_reads hs (Token.kind_of_isKeyword hkw) hne
      ((wordAhead_define hkw).trans hcall) ⟨⟨rfl, rfl, rfl⟩, rfl, ?_⟩
    exact lead_of_cursor rfl (lead_of_isKeyword hkw (by decide))
  | @function kw name sign parts more hkw hsign hname hparts =>
    have hs' : s.settled.cursor.rest = kw :: (sign ++ name :: (parts ++ (more ++ tail))) :=
      hs.trans (by simp)
    exact exists_reads hs (Token.kind_of_isKeyword hkw) hne (wordAhead_function hkw)
      (takes_function hs' hsign hname hparts).of_settled
  | @closure kw t sign more hkw hsign ht hamp =>
    exact exists_reads hs (Token.kind_of_isKeyword hkw) hne (wordAhead_function hkw)
      (takes_closure (s := s.settled) (hs.trans (by simp)) hkw hsign ht hamp).of_settled
  | @«class» kw name modifiers base list block more parent interfaces traits hmodifiers hnew hkw
      hname hbase hlist hblock =>
    have hs' : s.settled.cursor.rest =
        modifiers ++ kw :: name :: (base ++ (list ++ (block ++ (more ++ tail)))) :=
      hs.trans (by simp)
    exact exists_reads_class (hs'.trans (by simp)) hmodifiers hnew hkw hne
      (takes_class hs' hmodifiers hkw hname hbase hlist hblock).of_settled
  | @anonymous kw o c header body more hnew hkw hheader ho hbody hc =>
    have hword := wordAhead_class hkw hne
    rw [if_pos hnew] at hword
    have hs' : s.settled.forget.cursor.rest =
        (kw :: header) ++ o :: (body ++ c :: (more ++ tail)) := hs.trans (by simp)
    have hheader' := hheader.name (Token.kind_of_isKeyword hkw)
    exact exists_reads hs (Token.kind_of_isKeyword hkw) hne hword
      (takes_skipDeclaration hs' hheader' ho hbody hc).of_forget.of_settled
  | @«interface» kw name list block more parents traits hkw hname hlist hblock =>
    have hs' : s.settled.cursor.rest = kw :: name :: (list ++ (block ++ (more ++ tail))) :=
      hs.trans (by simp)
    exact exists_reads hs (Token.kind_of_isKeyword hkw) hne (wordAhead_interface hkw)
      (takes_interface hs' hname hlist hblock).of_settled
  | @«trait» kw name block more traits hkw hname hblock =>
    exact exists_reads hs (Token.kind_of_isKeyword hkw) hne (wordAhead_trait hkw)
      (takes_trait (s := s.settled) hs hname hblock).of_settled
  | @«enum» kw name o c header body more hkw hname hheader ho hbody hc =>
    have hword := wordAhead_enum hkw hs
    rw [if_pos hname] at hword
    have hs' : s.settled.forget.cursor.rest =
        (kw :: name :: header) ++ o :: (body ++ c :: (more ++ tail)) := hs.trans (by simp)
    have hheader' := (hheader.name hname).name (Token.kind_of_isKeyword hkw)
    exact exists_reads hs (Token.kind_of_isKeyword hkw) hne hword
      (takes_skipDeclaration hs' hheader' ho hbody hc).of_forget.of_settled
  | @nameless kw t modifiers more hmodifiers hnew hkw ht =>
    have hs' : s.cursor.rest = modifiers ++ kw :: ([] ++ t :: (more ++ tail)) := hs.trans (by simp)
    exact exists_reads_class hs' hmodifiers hnew hkw hne
      (takes_nameless (s := s.settled) hs' hmodifiers hkw ht).of_settled
  | @modifiers first t modifiers more hmodifiers ht hclass =>
    have hfirst := hmodifiers first List.mem_cons_self
    exact exists_reads hs (kind_of_isModifier hfirst) hne (wordAhead_modifier hfirst)
      (takes_modifiers (s := s.settled) hs hmodifiers ht hclass).of_settled
  | @word kw t more hkw ht => exact exists_reads_word hs hkw ht hne

end Reading

end ApiDoc
