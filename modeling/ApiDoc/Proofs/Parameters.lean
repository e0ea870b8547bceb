import ApiDoc.Proofs.Reader
import ApiDoc.Proofs.Spans
import ApiDoc.Proofs.Spots

/-!
# Parameters and their descriptions

`ParameterList` says, beside the reader, into which pieces the tokens behind an opening parenthesis
are divided. Main statement: the arguments of every function and every method that is read are the
variables of the pieces behind its name, and each has the description of the first tag for parameters
with exactly this variable. A tag may write signs in front of the variable, which the reader of tags
knows; such a tag is passed over, so an argument has not always the description of the first tag
about it.
-/

namespace ApiDoc

/-! ### Tags for parameters -/

/-- The variable word of a tag as it is written. -/
def Tag.variableWord? (t : Tag) : Option String :=
  match t.body with
  | .typedVariable _ v => some v
  | _ => none

/-- The variable that a tag is about: its variable word without the ampersands and dots in front. -/
def Tag.about? (t : Tag) : Option String :=
  t.variableWord?.map fun word =>
    String.ofList (Text.dropLeads ['.', '.', '.'] (Text.dropLeadChar '&' word.toList))

/-- The description of the first tag for a parameter that passes a test, empty if none does. -/
def Tags.parameterText (tags : Tags) (test : Tag → Bool) : String :=
  (((tags.get "param").find? test).map Tag.description).getD ""

theorem DocBlock.parameterDescription_eq (d : DocBlock) (name : String) :
    d.parameterDescription name = d.tags.parameterText fun t => t.variableWord? == some name := by
  rw [parameterDescription, Tags.parameterText]
  congr 3
  funext t
  rw [Tag.variableWord?]
  cases t.body <;> rfl

/-- A tag that has exactly a variable is about this variable. -/
theorem Tag.about?_of_variableWord? {t : Tag} {name : String} (hname : name.toList.head? = some '$')
    (h : t.variableWord? = some name) : t.about? = some name := by
  obtain ⟨rest, hrest⟩ := List.head?_eq_some_iff.mp hname
  have hamp : Text.dropLeadChar '&' ('$' :: rest) = '$' :: rest := by simp [Text.dropLeadChar]
  have hdots : Text.dropLeads ['.', '.', '.'] ('$' :: rest) = '$' :: rest := by
    rw [Text.dropLeads, dif_neg]
    simp [Text.startsWith]
  rw [about?, h, Option.map_some, hrest, hamp, hdots, ← hrest, String.ofList_toList]

/-- The first tag with exactly a variable says what the first tag about it says just if there is none
about it, or the first one has no signs in front of the variable, or says the same. -/
theorem Tags.parameterText_eq_iff {name : String} (hname : name.toList.head? = some '$')
    (tags : Tags) :
    tags.parameterText (fun t => t.variableWord? == some name) =
        tags.parameterText (fun t => t.about? == some name) ↔
      ∀ t, (tags.get "param").find? (fun t => t.about? == some name) = some t →
        t.variableWord? = some name ∨
          t.description = tags.parameterText fun t => t.variableWord? == some name := by
  have hsub (t : Tag) (h : (t.variableWord? == some name) = true) :
      (t.about? == some name) = true := by
    rw [beq_iff_eq] at h ⊢
    exact Tag.about?_of_variableWord? hname h
  simp only [parameterText]
  cases habout : (tags.get "param").find? fun t => t.about? == some name with
  | none =>
    have hnone : (tags.get "param").find? (fun t => t.variableWord? == some name) = none :=
      List.find?_eq_none.mpr fun t ht h => List.find?_eq_none.mp habout t ht (hsub t h)
    rw [hnone]
    exact iff_of_true rfl fun t h => nomatch h
  | some first =>
    have hexact (h : first.variableWord? = some name) :
        (tags.get "param").find? (fun t => t.variableWord? == some name) = some first := by
      obtain ⟨habout, before, after, hsplit, hbefore⟩ := List.find?_eq_some_iff_append.mp habout
      refine List.find?_eq_some_iff_append.mpr ⟨by simpa using h, before, after, hsplit, ?_⟩
      intro t ht
      rw [Bool.not_eq_true']
      exact Bool.eq_false_iff.mpr fun hvariable => by simpa [hsub t hvariable] using hbefore t ht
    simp only [Option.map_some, Option.getD_some, Option.some.injEq, forall_eq']
    constructor
    · exact fun heq => .inr heq.symm
    · rintro (h | h)
      · rw [hexact h]
        rfl
      · exact h.symm

/-! ### Parameter lists -/

/-- How many brackets are open behind tokens. -/
def depthBehind (depth : Nat) : List Token → Nat
  | [] => depth
  | t :: ts => depthBehind (if t.opens then depth + 1 else if t.closes then depth - 1 else depth) ts

/-- Commas and closing parentheses stand within brackets only. -/
def Undivided (ts : List Token) : Prop :=
  ∀ front t back, ts = front ++ t :: back → depthBehind 0 front = 0 →
    t.is ")" = false ∧ t.is "," = false

/-- The tokens behind an opening parenthesis start with these pieces: each is ended by a comma
outside of brackets, and the last one by the closing parenthesis. What is not ended is no piece. -/
inductive ParameterList : List Token → List (List Token) → Prop
  | unclosed {ts : List Token} : Undivided ts → ParameterList ts []
  | last {piece rest : List Token} {t : Token} : Undivided piece → depthBehind 0 piece = 0 →
    t.is ")" = true → ParameterList (piece ++ t :: rest) [piece]
  | more {piece rest : List Token} {t : Token} {pieces : List (List Token)} : Undivided piece →
    depthBehind 0 piece = 0 → t.is "," = true → ParameterList rest pieces →
    ParameterList (piece ++ t :: rest) (piece :: pieces)

/-- What is ahead starts with a parameter list of these pieces, or with none. -/
inductive ParametersAhead : List Token → List (List Token) → Prop
  | none {ts : List Token} : (∀ t ∈ ts.head?, t.is "(" = false) → ParametersAhead ts []
  | list {o : Token} {ts : List Token} {pieces : List (List Token)} : o.is "(" = true →
    ParameterList ts pieces → ParametersAhead (o :: ts) pieces

theorem depthBehind_append (depth : Nat) (front back : List Token) :
    depthBehind depth (front ++ back) = depthBehind (depthBehind depth front) back := by
  induction front generalizing depth with
  | nil => rfl
  | cons t ts ih => exact ih _

theorem undivided_nil : Undivided [] := fun front t back h => by simp at h

theorem Undivided.concat {ts : List Token} {t : Token} (h : Undivided ts)
    (ht : depthBehind 0 ts = 0 → t.is ")" = false ∧ t.is "," = false) : Undivided (ts ++ [t]) := by
  intro front u back heq hdepth
  rcases List.eq_nil_or_concat back with rfl | ⟨back, v, rfl⟩
  · obtain ⟨rfl, hlast⟩ := List.append_inj' heq rfl
    exact (List.cons.inj hlast).1 ▸ ht hdepth
  · rw [List.concat_eq_append, ← List.cons_append, ← List.append_assoc] at heq
    exact h front u back (List.append_inj' heq rfl).1 hdepth

namespace Reader

/-- The reader divides what is ahead as it should, whatever it has read of the current piece. -/
theorem parameterList_parameterPieces {depth : Nat} {piece : List Token} (ts : List Token)
    (hpiece : Undivided piece.reverse) (hdepth : depthBehind 0 piece.reverse = depth) :
    ParameterList (piece.reverse ++ ts) (parameterPieces depth piece ts).1 := by
  induction ts generalizing depth piece with
  | nil =>
    rw [List.append_nil]
    exact .unclosed hpiece
  | cons t ts ih =>
    -- one more token of the same piece
    have hmore (next : Nat) (hsign : depth = 0 → t.is ")" = false ∧ t.is "," = false)
        (hnext : (if t.opens then depth + 1 else if t.closes then depth - 1 else depth) = next) :
        ParameterList (piece.reverse ++ t :: ts) (parameterPieces next (t :: piece) ts).1 := by
      have hgrown : (t :: piece).reverse = piece.reverse ++ [t] := List.reverse_cons
      have hread := @ih next (t :: piece)
        (hgrown ▸ hpiece.concat fun h => hsign (hdepth.symm.trans h))
        (by rw [hgrown, depthBehind_append, hdepth]; exact hnext)
      rwa [hgrown, List.append_assoc, List.singleton_append] at hread
    rw [parameterPieces]
    dsimp only
    split
    · next hopens =>
      refine hmore (depth + 1) (fun _ => ?_) (by rw [if_pos hopens])
      simp only [Token.opens, Token.opensBlock, Bool.or_eq_true] at hopens
      rcases hopens with (h | h) | h <;>
        exact ⟨Token.is_eq_false h (by decide), Token.is_eq_false h (by decide)⟩
    · next hopens =>
      split
      · next hcloses =>
        obtain ⟨hcloses, hdeep⟩ := (Bool.and_eq_true _ _).mp hcloses
        have hdeep : 0 < depth := by simpa using hdeep
        exact hmore (depth - 1) (fun h => absurd h (Nat.ne_of_gt hdeep))
          (by rw [if_neg hopens, if_pos hcloses])
      · next hinside =>
        have hkept : (if t.closes then depth - 1 else depth) = depth := by
          split
          · next hcloses =>
            have hzero : ¬ 0 < depth := fun h => hinside (by simp [hcloses, h])
            omega
          · rfl
        split
        · next hparen =>
          have hcloses : t.closes = true := by simp [Token.closes, hparen]
          have hzero : depth = 0 :=
            Nat.eq_zero_of_not_pos fun hdeep => hinside (by simp [hcloses, hdeep])
          exact .last hpiece (hdepth.trans hzero) hparen
        · next hparen =>
          split
          · next hcomma =>
            obtain ⟨hzero, hcomma⟩ := (Bool.and_eq_true _ _).mp hcomma
            have hzero : depth = 0 := by simpa using hzero
            exact .more hpiece (hdepth.trans hzero) hcomma (@ih 0 [] undivided_nil rfl)
          · next hcomma =>
            refine hmore depth (fun hzero => ⟨Bool.eq_false_iff.mpr hparen, ?_⟩)
              (by rw [if_neg hopens, hkept])
            exact Bool.eq_false_iff.mpr fun h => hcomma (by simp [hzero, h])

end Reader

/-- The tokens of the pieces are tokens of the list. -/
theorem ParameterList.subset {ts : List Token} {pieces : List (List Token)}
    (h : ParameterList ts pieces) : ∀ piece ∈ pieces, piece ⊆ ts := by
  induction h with
  | unclosed => simp
  | last => simp
  | more _ _ _ _ ih =>
    refine List.forall_mem_cons.mpr ⟨by simp, fun piece hpiece => ?_⟩
    exact List.Subset.trans (ih piece hpiece) fun t ht =>
      List.mem_append_right _ (List.mem_cons_of_mem _ ht)

theorem ParametersAhead.subset {ts : List Token} {pieces : List (List Token)}
    (h : ParametersAhead ts pieces) : ∀ piece ∈ pieces, piece ⊆ ts := by
  cases h with
  | none => simp
  | list _ hlist =>
    exact fun piece hpiece => List.Subset.trans (hlist.subset piece hpiece)
      (List.subset_cons_self ..)

/-! ### Arguments -/

/-- The variable of a piece. -/
def variableIn? (piece : List Token) : Option Token := piece.find? (·.kind == .variableName)

/-- The arguments are the variables of the pieces, and each has the description of the first tag for
parameters with exactly this variable. -/
structure Argued (tags : Tags) (pieces : List (List Token)) (arguments : List Argument) :
    Prop where
  names : arguments.map Argument.name = (pieces.filterMap variableIn?).map Token.text
  described : ∀ a ∈ arguments,
    a.description = tags.parameterText fun t => t.variableWord? == some a.name

namespace Reader

theorem parameter?_eq (doc : Option DocBlock) (types : String) (sofar : Argument)
    (piece : List Token) :
    (parameter? doc types sofar piece).map (fun a => (a.name, a.description)) =
      (variableIn? piece).map fun v =>
        (v.text, (doc.map (·.parameterDescription v.text)).getD "") := by
  induction piece generalizing types sofar with
  | nil => rfl
  | cons t rest ih =>
    rw [parameter?, variableIn?, List.find?_cons]
    split
    · next hkind => simp [hkind]
    · next hkind =>
      have hother : (t.kind == .variableName) = false := by simpa using hkind
      rw [hother, ← variableIn?]
      split
      · exact ih ..
      · split
        · exact ih ..
        · split <;> exact ih ..

/-- The arguments that are read with a doc comment are those of an element that it documents. -/
theorem argued_parameters (doc : Option DocBlock) (c : Cursor) {i : Info} (hi : i.tags = {}) :
    ∃ pieces, ParametersAhead c.rest pieces ∧
      Argued (Reading.document doc i).tags pieces (parameters doc c).arguments := by
  have hdescription (name : String) : (doc.map (·.parameterDescription name)).getD "" =
      (Reading.document doc i).tags.parameterText fun t => t.variableWord? == some name := by
    cases doc with
    | none =>
      rw [Reading.document, hi]
      rfl
    | some d => exact d.parameterDescription_eq name
  rw [parameters]
  cases hparen : c.eatPunct "(" with
  | none =>
    refine ⟨[], .none fun t ht => ?_, ⟨rfl, by simp⟩⟩
    rw [Cursor.eatPunct, Cursor.eat, Cursor.next, Cursor.peek] at hparen
    simpa [Option.mem_def.mp ht] using hparen
  | some inner =>
    obtain ⟨o, hrest, ho⟩ := Reading.rest_eat hparen
    refine ⟨(parameterPieces 0 [] inner.rest).1, ?_, ?_, fun a ha => ?_⟩
    · rw [hrest]
      exact .list ho (@parameterList_parameterPieces 0 [] inner.rest undivided_nil rfl)
    · simp only [List.map_filterMap]
      refine congrArg (List.filterMap · _) (funext fun piece => ?_)
      have hread := congrArg (Option.map Prod.fst)
        (parameter?_eq doc "" { name := "", line := 0 } piece)
      simpa [Option.map_map, Function.comp_def] using hread
    · obtain ⟨piece, -, hread⟩ := List.mem_filterMap.mp ha
      have hboth := parameter?_eq doc "" { name := "", line := 0 } piece
      rw [hread, Option.map_some] at hboth
      obtain ⟨v, -, hv⟩ := Option.map_eq_some_iff.mp hboth.symm
      obtain ⟨hname, htext⟩ := Prod.mk.inj hv
      rw [← htext, hname, hdescription]

end Reader

/-! ### Functions and methods -/

/-- Every method has a property, which is one of its documentation and its arguments. -/
def Members.Callables (Q : Info → List Argument → Prop) (m : Members) : Prop :=
  ∀ name e, m.methods.get? name = some e → Q e.info e.body.arguments

/-- Every function has one such property, every method another. -/
structure File.Callables (P Q : Info → List Argument → Prop) (f : File) : Prop where
  functions : ∀ key e, f.functions.get? key = some e → P e.info e.body.arguments
  methods : ∀ kind key m, f.membersIn? kind key = some m → m.Callables Q

section Callables

variable {P Q : Info → List Argument → Prop}

theorem Members.callables_empty (Q : Info → List Argument → Prop) : Members.Callables Q {} := by
  intro name e he
  simp at he

theorem Members.Callables.addMethod {m : Members} (h : m.Callables Q) {e : Element MethodBody}
    (he : Q e.info e.body.arguments) : (m.addMethod e).Callables Q := by
  intro name other hother
  rw [Members.addMethod, NameMap.get?_insert] at hother
  split at hother
  · cases hother
    exact he
  · exact h name other hother

namespace File

variable {f g : File}

/-- Other members are those of one more class-like. -/
theorem Callables.gain (h : f.Callables P Q) (hf : g.functions = f.functions)
    (hm : ∀ kind key m, g.membersIn? kind key = some m →
      m.Callables Q ∨ f.membersIn? kind key = some m) : g.Callables P Q where
  functions := by
    rw [hf]
    exact h.functions
  methods kind key m hi := (hm kind key m hi).elim id (h.methods kind key m)

theorem Callables.congr (h : f.Callables P Q) (hf : g.functions = f.functions)
    (hc : g.classes = f.classes) (hi : g.interfaces = f.interfaces) (ht : g.traits = f.traits) :
    g.Callables P Q :=
  h.gain hf fun kind key m hm => .inr (by
    cases kind <;> simpa only [membersIn?, hc, hi, ht] using hm)

theorem Callables.addClass (h : f.Callables P Q) {e : Element ClassBody}
    (he : e.body.members.Callables Q) : (f.addClass e).Callables P Q := by
  refine h.gain rfl fun kind key m hm => ?_
  cases kind with
  | «class» =>
    simp only [membersIn?, File.addClass, NameMap.get?_insert] at hm
    split at hm
    · cases hm
      exact .inl he
    · exact .inr hm
  | interface | trait | function | constant | method | property => exact .inr hm

theorem Callables.addInterface (h : f.Callables P Q) {e : Element InterfaceBody}
    (he : e.body.members.Callables Q) : (f.addInterface e).Callables P Q := by
  refine h.gain rfl fun kind key m hm => ?_
  cases kind with
  | interface =>
    simp only [membersIn?, File.addInterface, NameMap.get?_insert] at hm
    split at hm
    · cases hm
      exact .inl he
    · exact .inr hm
  | «class» | trait | function | constant | method | property => exact .inr hm

theorem Callables.addTrait (h : f.Callables P Q) {e : Element TraitBody}
    (he : e.body.members.Callables Q) : (f.addTrait e).Callables P Q := by
  refine h.gain rfl fun kind key m hm => ?_
  cases kind with
  | trait =>
    simp only [membersIn?, File.addTrait, NameMap.get?_insert] at hm
    split at hm
    · cases hm
      exact .inl he
    · exact .inr hm
  | «class» | interface | function | constant | method | property => exact .inr hm

theorem Callables.addFunction (h : f.Callables P Q) {e : Element FunctionBody}
    (he : P e.info e.body.arguments) : (f.addFunction e).Callables P Q where
  functions key other hother := by
    rw [File.addFunction, NameMap.get?_insert] at hother
    split at hother
    · cases hother
      exact he
    · exact h.functions key other hother
  methods := h.methods

end File

end Callables

/-- A property that follows for every function and every method holds of all of them. -/
theorem File.Callables.mono {P Q P' Q' : Info → List Argument → Prop} {f : File}
    (h : f.Callables P Q) (hP : ∀ i arguments, P i arguments → P' i arguments)
    (hQ : ∀ i arguments, Q i arguments → Q' i arguments) : f.Callables P' Q' where
  functions key e he := hP _ _ (h.functions key e he)
  methods kind key m hm name e he := hQ _ _ (h.methods kind key m hm name e he)

/-! ### Signatures in the source -/

/-- The tokens hold the declaration of a function or method: the word, the name, which says what it is
called in full, and a signature with these arguments. -/
inductive Signed (tokens : List Token) (named : String → Fqsen → Prop) (i : Info)
    (arguments : List Argument) : Prop
  | intro {front sign ahead : List Token} {kw name : Token} {pieces : List (List Token)} :
    tokens = front ++ kw :: (sign ++ name :: ahead) → kw.isKeyword "function" = true →
    ByReference sign → name.kind = .name → named name.text i.fqsen →
    ParametersAhead ahead pieces → Argued i.tags pieces arguments → Signed tokens named i arguments

/-- What a function is called in full. -/
def FunctionName (name : String) (fqsen : Fqsen) : Prop :=
  ∃ space : Fqsen, fqsen = space.join (name ++ "()")

/-- What a method is called in full. -/
def MethodName (name : String) (fqsen : Fqsen) : Prop :=
  ∃ owner : Fqsen, fqsen = owner.member .method name

/-- Every function and every method has its signature in the source. -/
def File.Signed (tokens : List Token) (f : File) : Prop :=
  f.Callables (ApiDoc.Signed tokens FunctionName) (ApiDoc.Signed tokens MethodName)

def Members.Signed (tokens : List Token) (m : Members) : Prop :=
  m.Callables (ApiDoc.Signed tokens MethodName)

theorem Reading.Moves.signed {tokens : List Token} {s u : Reading} (h : s.Moves u)
    (hs : s.file.Signed tokens) : u.file.Signed tokens := by
  obtain ⟨-, problems, hu⟩ := h
  rw [hu]
  exact File.Callables.congr hs rfl rfl rfl rfl

/-- A signature that is read behind the word for functions and a name. -/
theorem signed_of {tokens rest sign : List Token} {t name : Token} {c d : Cursor}
    {named : String → Fqsen → Prop} (doc : Option DocBlock) {i : Info} (hi : i.tags = {})
    (hfqsen : (Reading.document doc i).fqsen = i.fqsen) (hnamed : named name.text i.fqsen)
    (htokens : t :: rest <:+ tokens) (ht : t.isKeyword "function" = true)
    (hsign : ByReference sign) (hrest : rest = sign ++ c.rest) (hname : c.name? = some (name, d)) :
    Signed tokens named (Reading.document doc i) (Reader.parameters doc d).arguments := by
  obtain ⟨front, htokens⟩ := htokens
  obtain ⟨hbehind, hkind⟩ := Reading.exists_name hname
  obtain ⟨pieces, hahead, hargued⟩ := Reader.argued_parameters doc d hi
  rw [hrest, hbehind] at htokens
  exact .intro htokens.symm ht hsign hkind (hfqsen.symm ▸ hnamed) hahead hargued

/-! ### Members -/

/-- What holds between any two steps of reading a body. -/
structure BodyReading.Signed (tokens : List Token) (b : BodyReading) : Prop where
  cursor : b.state.cursor.rest <:+ tokens
  file : b.state.file.Signed tokens
  members : b.members.Signed tokens

namespace BodyReading

open Cursor

theorem methods_propertyList (owner : Fqsen) (modifiers : Modifiers) (doc : Option DocBlock)
    (fuel : Nat) (t : Token) (c : Cursor) (m : Members) :
    (propertyList owner modifiers doc fuel t c m).1.methods = m.methods := by
  induction fuel generalizing t c m with
  | zero => rfl
  | succ fuel ih =>
    rw [propertyList_succ]
    dsimp only
    split
    · rfl
    · split
      · rfl
      · exact ih ..

theorem methods_properties (b : BodyReading) (first : Token) :
    (b.properties first).members.methods = b.members.methods := by
  rw [properties]
  dsimp only
  rw [methods_propertyList]

variable {tokens rest : List Token} {b : BodyReading} {t : Token}

theorem signed_method (h : b.Signed tokens) (hrest : b.state.cursor.rest = t :: rest)
    (ht : t.isKeyword "function" = true) (modifiers : Modifiers) :
    let d := method { b with state := b.state.step, modifiers := modifiers }
    d.state.file.Signed tokens ∧ d.members.Signed tokens := by
  have hstep : b.state.step.cursor.rest = rest := congrArg Cursor.rest (step_of_rest hrest)
  obtain ⟨sign, hsign, hbehind⟩ := Reading.exists_sign b.state.step.cursor
  rw [method]
  dsimp only
  split
  · exact ⟨h.file, h.members⟩
  · next name c hname =>
    have hmoves := Reading.moves_signature
      (((b.state.step.moveTo
        ((b.state.step.cursor.eatPunct "&").getD b.state.step.cursor)).forget).moveTo c)
      b.state.pending
    refine ⟨hmoves.signed h.file, Members.Callables.addMethod h.members ?_⟩
    exact signed_of b.state.pending rfl (Reading.fqsen_document _ _) ⟨b.owner, rfl⟩
      (hrest ▸ h.cursor) ht hsign (hstep.symm.trans hbehind) hname

/-- Every step among members keeps that all callables have their signature in the source. -/
theorem Signed.token (h : b.Signed tokens) (hrest : b.state.cursor.rest = t :: rest) :
    ({ b with state := b.state.step }.token t).Signed tokens := by
  have hleads := b.state.cursor.leads_step.trans (leads_token { b with state := b.state.step } t)
  have hturn := turn_token { b with state := b.state.step } t
  revert hturn hleads
  generalize ({ b with state := b.state.step } : BodyReading).token t = d
  intro hleads hturn
  have hcursor := hleads.suffix.trans h.cursor
  cases hturn with
  | docComment | case | ends | collects => exact ⟨hcursor, h.file, h.members⟩
  | traits =>
    have hmoves := (Reading.moves_references b.state.step).trans
      (Reading.moves_skipBody b.state.step.references.2)
    exact ⟨hcursor, hmoves.signed h.file, h.members⟩
  | constants =>
    have hadd (found : List (Token × String)) (m : Members) : (found.foldl (fun members constant =>
        members.addConstant ⟨Reading.document b.state.pending (Element.classConstant b.owner
          constant.1.text ((b.modifiers.startAt t.line).line.getD constant.1.line)).info,
          { value := constant.2
            visibility := (b.modifiers.startAt t.line).visibility.getD .public }⟩) m).methods =
          m.methods := by
      induction found generalizing m with
      | nil => rfl
      | cons constant found ih => exact ih _
    refine ⟨hcursor, (Reading.moves_constants b.state.step.forget).signed h.file, ?_⟩
    exact fun name e he => h.members name e (hadd _ b.members ▸ he)
  | method hk =>
    obtain ⟨hfile, hmembers⟩ := signed_method h hrest hk _
    exact ⟨hcursor, hfile, hmembers⟩
  | properties =>
    refine ⟨hcursor, h.file, fun name e he => h.members name e ?_⟩
    rwa [methods_properties] at he

theorem Signed.untilClose (line fuel : Nat) (h : b.Signed tokens) :
    (untilClose line fuel b).Signed tokens := by
  induction fuel generalizing b with
  | zero => exact h
  | succ fuel ih =>
    rw [BodyReading.untilClose]
    cases hpeek : b.state.cursor.peek with
    | none => exact ⟨h.cursor, (Reading.moves_report b.state line _).signed h.file, h.members⟩
    | some t =>
      obtain ⟨rest, hrest⟩ := Reading.exists_rest_of_peek hpeek
      dsimp only
      split
      · exact ⟨b.state.cursor.leads_step.suffix.trans h.cursor, h.file, h.members⟩
      · exact ih (h.token hrest)

end BodyReading

/-! ### Statements -/

namespace Reading

open Cursor

variable {tokens rest : List Token} {s : Reading} {t : Token}

/-- What was read of a class-like in front of its body keeps signatures, and so does its entry. -/
def SignedUpTo (tokens : List Token) (r : Reading ⊕ Head) : Prop :=
  r.elim (fun u => u.file.Signed tokens) fun h => h.state.file.Signed tokens ∧
    ∀ members traits f, members.Signed tokens → f.Signed tokens →
      (h.entry members traits f).Signed tokens

theorem SignedUpTo.read {r : Reading ⊕ Head} (hcursor : (endOf r).rest <:+ tokens)
    (h : SignedUpTo tokens r) : (r.elim id Head.read).file.Signed tokens := by
  cases r with
  | inl u => exact h
  | inr head =>
    obtain ⟨hfile, hentry⟩ := h
    change head.read.file.Signed tokens
    rw [Head.read, classBody]
    dsimp only
    cases hinner : head.state.cursor.eat Token.opensBlock with
    | none => exact (moves_report _ _ _).signed hfile
    | some inner =>
      have hstart : BodyReading.Signed tokens
          { owner := head.owner
            isInterface := head.isInterface
            state := head.state.moveTo inner } :=
        ⟨(leads_eat hinner).suffix.trans hcursor, hfile, Members.callables_empty _⟩
      have hbody := hstart.untilClose head.state.cursor.line inner.fuel
      exact hentry _ _ _ hbody.members hbody.file

theorem signedUpTo_classHead (h : s.file.Signed tokens) : SignedUpTo tokens s.classHead := by
  rw [classHead]
  dsimp only
  split
  · exact h
  · next c _ =>
    split
    · exact h
    · next name c _ =>
      exact ⟨(moves_listBehind (s.forget.moveTo (s.parentAt c).2) "implements").signed h,
        fun members traits f hm hf => File.Callables.addClass hf hm⟩

theorem signedUpTo_interfaceHead (h : s.file.Signed tokens) :
    SignedUpTo tokens s.interfaceHead := by
  rw [interfaceHead]
  dsimp only
  split
  · exact h
  · next name c _ =>
    exact ⟨(moves_listBehind (s.forget.moveTo c) "extends").signed h,
      fun members traits f hm hf => File.Callables.addInterface hf hm⟩

theorem signedUpTo_traitHead (h : s.file.Signed tokens) : SignedUpTo tokens s.traitHead := by
  rw [traitHead]
  dsimp only
  split
  · exact h
  · exact ⟨h, fun members traits f hm hf => File.Callables.addTrait hf hm⟩

theorem signed_functionDeclaration (h : s.file.Signed tokens) (hcursor : s.cursor.rest <:+ tokens)
    (hrest : s.cursor.rest = t :: rest) (ht : t.isKeyword "function" = true) :
    s.functionDeclaration.file.Signed tokens := by
  have hstep : s.cursor.step.rest = rest := congrArg Cursor.rest (step_of_rest hrest)
  obtain ⟨sign, hsign, hbehind⟩ := exists_sign s.cursor.step
  rw [functionDeclaration]
  dsimp only
  split
  · exact h
  · next name c hname =>
    split
    · have hmoves := moves_signature (s.forget.moveTo c) s.pending
      refine File.Callables.addFunction (hmoves.signed h) ?_
      exact signed_of s.pending rfl (fqsen_document _ _) ⟨s.space, rfl⟩ (hrest ▸ hcursor) ht hsign
        (hstep.symm.trans hbehind) hname
    · exact h

theorem signed_constantDeclaration (h : s.file.Signed tokens) :
    s.constantDeclaration.file.Signed tokens := by
  have hadd (found : List (Token × String)) (f : File) (hf : f.Signed tokens) :
      (found.foldl (fun f constant => f.addConstant
        ⟨document s.pending (.ofFqsen (s.space.join constant.1.text) s.cursor.line),
          { value := constant.2 }⟩) f).Signed tokens := by
    induction found generalizing f with
    | nil => exact hf
    | cons constant found ih => exact ih _ (File.Callables.congr hf rfl rfl rfl rfl)
  exact hadd _ s.file h

/-- Every step keeps that all callables have their signature in the source. -/
theorem signed_tokenAhead (h : s.file.Signed tokens) (hcursor : s.cursor.rest <:+ tokens)
    (ht : s.cursor.peek = some t) : (s.tokenAhead t).file.Signed tokens := by
  obtain ⟨rest, hrest⟩ := exists_rest_of_peek ht
  have hstep : s.cursor.step.rest <:+ tokens := s.cursor.leads_step.suffix.trans hcursor
  have hturn := s.turn_tokenAhead t
  revert hturn
  generalize s.tokenAhead t = u
  intro hturn
  cases hturn with
  | docComment =>
    rw [docComment]
    dsimp only
    split
    · exact File.Callables.congr h rfl rfl rfl rfl
    · exact h
  | closes =>
    rw [closeBlock]
    split <;> exact h
  | opens | ends | passed | enumWord => exact h
  | space =>
    rw [namespaceDeclaration]
    dsimp only
    split
    · exact h
    · exact h
  | imports =>
    rw [useDeclaration]
    dsimp only
    split
    · exact h
    · exact File.Callables.congr h rfl rfl rfl rfl
  | anonymous | enum => exact (moves_skipDeclaration _).signed h
  | «class» _ hword =>
    rw [classDeclaration_eq]
    have hleads := step_leads_classHead (s := s.settled) ht (hword.imp id And.left)
    exact (signedUpTo_classHead (s := s.settled) h).read (hleads.suffix.trans hstep)
  | interface =>
    rw [interfaceDeclaration_eq]
    exact (signedUpTo_interfaceHead (s := s.settled) h).read
      ((step_leads_interfaceHead s.settled).suffix.trans hstep)
  | trait =>
    rw [traitDeclaration_eq]
    exact (signedUpTo_traitHead (s := s.settled) h).read
      ((step_leads_traitHead s.settled).suffix.trans hstep)
  | function _ hk => exact signed_functionDeclaration (s := s.settled) h hcursor hrest hk
  | constant => exact signed_constantDeclaration (s := s.settled) h
  | define =>
    rw [defineCall]
    dsimp only
    split
    · split
      · exact File.Callables.congr h rfl rfl rfl rfl
      · exact h
    · exact h
  | «include» => exact File.Callables.congr h rfl rfl rfl rfl

end Reading

namespace File

theorem signed_ofTokens (tokens : List Token) {f : File} (h : f.Signed tokens) :
    (ofTokens f tokens).Signed tokens := by
  have hrun := Reading.run_induction
    (P := fun s => s.file.Signed tokens ∧ s.cursor.rest <:+ tokens) (fun ht hs =>
      ⟨Reading.signed_tokenAhead hs.1 hs.2 ht,
        ((Cursor.leads_step _).trans (Reading.step_leads_tokenAhead ht)).suffix.trans hs.2⟩)
    (tokens.length + 1) (s := { cursor := { rest := tokens }, file := f })
    ⟨h, List.suffix_refl tokens⟩
  rw [ofTokens, Reading.finish]
  generalize Reading.run _ _ = s at hrun
  generalize s.blocks = blocks
  induction blocks generalizing s with
  | nil => exact hrun.1
  | cons block blocks ih => exact ih _ ⟨(Reading.moves_report s block.line _).signed hrun.1, hrun.2⟩

end File

/-! ### Descriptions -/

/-- The arguments have the description of the first tag about them, unless this tag has signs in front
of the variable and says something else than the first tag with exactly the variable. -/
def Described (i : Info) (arguments : List Argument) : Prop :=
  ∀ a ∈ arguments, a.description = i.tags.parameterText (fun t => t.about? == some a.name) ↔
    ∀ t, (i.tags.get "param").find? (fun t => t.about? == some a.name) = some t →
      t.variableWord? = some a.name ∨
        t.description = i.tags.parameterText fun t => t.variableWord? == some a.name

/-- The arguments of a signature in the source are variables. -/
theorem Signed.described {source : String} {tokens : List Token} {named : String → Fqsen → Prop}
    {i : Info} {arguments : List Argument} (htokens : Token.ofSource source = .ok tokens)
    (h : Signed tokens named i arguments) : Described i arguments := by
  obtain ⟨heq, -, -, -, -, hahead, hargued⟩ := h
  intro a ha
  have hname : a.name.toList.head? = some '$' := by
    have hmem := List.mem_map_of_mem (f := Argument.name) ha
    rw [hargued.names] at hmem
    obtain ⟨v, hv, hname⟩ := List.mem_map.mp hmem
    obtain ⟨piece, hpiece, hvariable⟩ := List.mem_filterMap.mp hv
    have hkind : v.kind = .variableName := by simpa using List.find?_some hvariable
    have hbehind := hahead.subset piece hpiece (List.mem_of_find?_eq_some hvariable)
    rw [← hname]
    exact Token.dollar_ofSource htokens v (by simp [heq, hbehind]) hkind
  rw [hargued.described a ha]
  exact i.tags.parameterText_eq_iff hname

namespace File

/-- The arguments of a function or method are the variables of its signature, and each has the
description of the first tag for parameters with exactly this variable. This is the description of the
first tag about the variable unless that tag writes an ampersand or dots in front, as it does for an
argument by reference or a variadic one, and the two differ. -/
theorem parameters_of_ofSource {path content : String} {f : File}
    (hf : ofSource path content = .ok f) : ∃ tokens, Token.ofSource content = .ok tokens ∧
      f.Callables
        (fun i arguments => ApiDoc.Signed tokens FunctionName i arguments ∧ Described i arguments)
        (fun i arguments => ApiDoc.Signed tokens MethodName i arguments ∧ Described i arguments) := by
  obtain ⟨tokens, htokens, rfl⟩ := ofSource_eq_ok_iff.mp hf
  have hfresh : Signed tokens { path := path, hash := Digest.ofText content } :=
    ⟨fun key e he => by simp at he,
      fun kind key m hm => by cases kind <;> simp [membersIn?] at hm⟩
  exact ⟨tokens, htokens, (signed_ofTokens tokens hfresh).mono
    (fun i arguments h => ⟨h, h.described htokens⟩)
    (fun i arguments h => ⟨h, h.described htokens⟩)⟩

/-- A variadic argument, whose tag has the dots in front of the variable as well. -/
def variadicSource : String :=
  "<?php\n/** File. */\n/** @param int ...$xs Numbers */\nfunction f(int ...$xs) \x7b\x7d"

/-- The argument has no description, although there is a tag about it. -/
theorem parameters_of_ofSource_variadic : ∃ f e tokens,
    ofSource "a.php" variadicSource = .ok f ∧ f.functions.get? "\\f()" = some e ∧
      e.body.arguments.map (fun a => (a.name, a.description)) = [("$xs", "")] ∧
      e.info.tags.parameterText (fun t => t.about? == some "$xs") = "Numbers" ∧
      Token.ofSource variadicSource = .ok tokens ∧
      ApiDoc.Signed tokens FunctionName e.info e.body.arguments ∧
      Described e.info e.body.arguments := by
  have hread : ((ofSource "a.php" variadicSource).toOption.bind fun f =>
      (f.functions.get? "\\f()").filter fun e =>
        e.body.arguments.map (fun a => (a.name, a.description)) == [("$xs", "")] &&
          e.info.tags.parameterText (fun t => t.about? == some "$xs") == "Numbers").isSome := by
    decide +kernel
  cases hf : ofSource "a.php" variadicSource with
  | error e => simp [hf, Except.toOption] at hread
  | ok f =>
    obtain ⟨e, he⟩ := Option.isSome_iff_exists.mp hread
    simp only [hf, Except.toOption, Option.bind_some] at he
    obtain ⟨he, htexts⟩ := Option.filter_eq_some_iff.mp he
    rw [Bool.and_eq_true, beq_iff_eq, beq_iff_eq] at htexts
    obtain ⟨tokens, htokens, hall⟩ := parameters_of_ofSource hf
    obtain ⟨hsigned, hdescribed⟩ := hall.functions _ e he
    exact ⟨f, e, tokens, rfl, he, htexts.1, htexts.2, htokens, hsigned, hdescribed⟩

end File

end ApiDoc
