import Mathlib.Logic.Basic
import ApiDoc.Proofs.Grammar

/-!
# Reading well-formed code

Each reader of a part of a declaration has one lemma here: in front of such a part, whatever is
behind it, it reads that part and stops right behind it.
-/

namespace ApiDoc

/-! ### Single tokens -/

namespace Token

variable {t : Token}

theorem kind_of_isKeyword {word : String} (h : t.isKeyword word = true) : t.kind = .name := by
  rw [isKeyword, Bool.and_eq_true] at h
  exact beq_iff_eq.mp h.1

theorem asciiLower_of_isKeyword {word : String} (h : t.isKeyword word = true) :
    Text.asciiLower t.text = Text.asciiLower word := by
  rw [isKeyword, Bool.and_eq_true] at h
  exact beq_iff_eq.mp h.2

/-- A keyword in small letters is what the token has in small letters. -/
theorem word_of_isKeyword {word : String} (h : t.isKeyword word = true)
    (hword : Text.asciiLower word = word) : Text.asciiLower t.text = word :=
  (asciiLower_of_isKeyword h).trans hword

/-- A keyword is not another one. -/
theorem isKeyword_eq_false {word other : String} (h : t.isKeyword word = true)
    (hne : Text.asciiLower word ≠ Text.asciiLower other) : t.isKeyword other = false := by
  rw [Bool.eq_false_iff]
  exact fun ho => hne ((asciiLower_of_isKeyword h).symm.trans (asciiLower_of_isKeyword ho))

theorem isKeyword_eq_false_of_kind {word : String} (h : t.kind ≠ .name) :
    t.isKeyword word = false := by
  rw [isKeyword, beq_eq_false_iff_ne.mpr h]
  rfl

/-- A name is no punctuation. -/
theorem is_eq_false_of_kind {punct : String} (h : t.kind ≠ .punct) : t.is punct = false := by
  rw [Token.is, beq_eq_false_iff_ne.mpr h]
  rfl

theorem kind_of_is {punct : String} (h : t.is punct = true) : t.kind = .punct := (is_eq_true.mp h).1

theorem not_name_of_is {punct : String} (h : t.is punct = true) : t.kind ≠ .name := by
  rw [kind_of_is h]
  decide

theorem not_name_of_endsStatement (h : t.endsStatement = true) : t.kind ≠ .name := by
  rcases Bool.or_eq_true_iff.mp h with hsemi | hclose
  · exact not_name_of_is hsemi
  · rw [beq_iff_eq.mp hclose]
    decide

/-- The end of a statement is no other punctuation. -/
theorem is_eq_false_of_endsStatement {punct : String} (h : t.endsStatement = true)
    (hne : punct ≠ ";") : t.is punct = false := by
  rcases Bool.or_eq_true_iff.mp h with hsemi | hclose
  · exact is_eq_false hsemi hne.symm
  · refine is_eq_false_of_kind ?_
    rw [beq_iff_eq.mp hclose]
    decide

/-- A punctuation that is none of the opening brackets. -/
theorem opens_eq_false_of_is {punct : String} (h : t.is punct = true)
    (hne : punct ≠ "(" ∧ punct ≠ "[" ∧ punct ≠ "\x7b") : t.opens = false := by
  simp only [Token.opens, Token.opensBlock, Bool.or_eq_false_iff]
  exact ⟨⟨is_eq_false h hne.1, is_eq_false h hne.2.1⟩, is_eq_false h hne.2.2⟩

/-- A comma ends the parts of a list. -/
theorem stop_of_comma (h : t.is "," = true) :
    t.opens = false ∧ (t.endsStatement || [","].contains t.text) = true :=
  ⟨opens_eq_false_of_is h (by decide), by simp [(is_eq_true.mp h).2]⟩

theorem plain_of_name (h : t.kind = .name) :
    t.opens = false ∧ t.closes = false ∧ t.endsStatement = false := by
  have hplain (p : String) : t.is p = false := is_eq_false_of_kind (by rw [h]; decide)
  simp [Token.opens, Token.closes, Token.opensBlock, Token.closesBlock, Token.endsStatement, hplain,
    h]

theorem kind_of_closes (h : t.closes = true) : t.kind = .punct := by
  simp only [Token.closes, Token.closesBlock, Bool.or_eq_true] at h
  rcases h with (h | h) | h <;> exact kind_of_is h

theorem endsStatement_of_closes (h : t.closes = true) : t.endsStatement = false := by
  simp only [Token.closes, Token.closesBlock, Bool.or_eq_true] at h
  rcases h with (h | h) | h <;> exact endsStatement_of_is h (by decide)

end Token

theorem Header.name {t : Token} {ts : List Token} (h : Header ts) (ht : t.kind = .name) :
    Header (t :: ts) := by
  have hplain (p : String) : t.is p = false :=
    Token.is_eq_false_of_kind (by rw [ht]; decide)
  exact .token (hplain "(") (hplain ")") (hplain _) (Token.plain_of_name ht).2.2 h

/-! ### Lists of names -/

namespace Reading

open Cursor

theorem nameList_of {list : List Token} {names : List String} (h : NameList list names)
    {c : Cursor} {t : Token} {rest : List Token} (hc : c.rest = list ++ t :: rest)
    (ht : t.is "," = false) {fuel : Nat} (hfuel : list.length < fuel) :
    ∃ found d, nameList fuel c = (found, d) ∧ d.rest = t :: rest ∧
      found.map Token.text = names := by
  induction h generalizing c fuel with
  | @single name hname =>
    obtain ⟨n, rfl⟩ : ∃ n, fuel = n + 1 := ⟨fuel - 1, by omega⟩
    have hnone : Cursor.eatPunct ⟨some name, t :: rest⟩ "," = none := eatPunct_eq_none rfl ht
    rw [List.cons_append, List.nil_append] at hc
    rw [nameList, name?_of_rest hc hname]
    simp only [hnone]
    exact ⟨_, _, rfl, rfl, rfl⟩
  | @more name comma list names hname hcomma _ ih =>
    obtain ⟨n, rfl⟩ : ∃ n, fuel = n + 1 := ⟨fuel - 1, by omega⟩
    have hsome : Cursor.eatPunct ⟨some name, comma :: (list ++ t :: rest)⟩ "," =
        some ⟨some comma, list ++ t :: rest⟩ := eatPunct_of_rest rfl hcomma
    rw [List.cons_append, List.cons_append] at hc
    rw [List.length_cons, List.length_cons] at hfuel
    obtain ⟨found, d, hlist, hd, hnames⟩ := ih (c := ⟨some comma, list ++ t :: rest⟩) rfl
      (show list.length < n by omega)
    rw [nameList, name?_of_rest hc hname]
    simp only [hsome, hlist]
    exact ⟨_, d, rfl, hd, by rw [List.map_cons, hnames]⟩

/-! ### Constants -/

theorem takeWhile_name {types : List Token} (h : ∀ u ∈ types, u.kind = .name) {t : Token}
    (ht : t.kind ≠ .name) (rest : List Token) :
    (types ++ t :: rest).takeWhile (fun u => u.kind == .name) = types := by
  rw [List.takeWhile_append_of_pos fun u hu => beq_iff_eq.mpr (h u hu),
    List.takeWhile_cons_of_neg (by simpa using ht), List.append_nil]

/-- One constant of a list is read up to what is behind its value. -/
theorem constantList_head {types value : List Token} {name eq t : Token}
    (htypes : ∀ u ∈ types, u.kind = .name) (hname : name.kind = .name) (heq : eq.is "=" = true)
    (hvalue : Phrase [","] value) {c : Cursor} (rest : List Token)
    (hc : c.rest = types ++ name :: eq :: (value ++ t :: rest))
    (ht : t.opens = false ∧ (t.endsStatement || [","].contains t.text) = true) (fuel : Nat) :
    ∃ written d, d.rest = t :: rest ∧ constantList (fuel + 1) c =
      match d.eatPunct "," with
      | none => ([(name, written)], d)
      | some d => ((name, written) :: (constantList fuel d).1, (constantList fuel d).2) := by
  have hsplit : c.rest = (types ++ [name]) ++ eq :: (value ++ t :: rest) := by
    rw [hc]
    simp
  have hnames : c.rest.takeWhile (fun u => u.kind == .name) = types ++ [name] := by
    rw [hsplit]
    refine takeWhile_name (fun u hu => ?_) (Token.not_name_of_is heq) _
    rcases List.mem_append.mp hu with hu | hu
    · exact htypes u hu
    · exact List.mem_singleton.mp hu ▸ hname
  have hsign := eatPunct_of_rest (skip_append hsplit) heq
  have hexpression := expression_of_stop (c := ⟨some eq, value ++ t :: rest⟩) rfl hvalue (.inr ht)
  refine ⟨(Cursor.expression ⟨some eq, value ++ t :: rest⟩ [","]).1, _, hexpression, ?_⟩
  rw [constantList]
  simp only [hnames, hsign, List.getLast?_append, List.getLast?_singleton, Option.some_or]
  rfl

theorem constantList_of {list : List Token} {names : List String} (h : ConstantList list names)
    {c : Cursor} {t : Token} {rest : List Token} (hc : c.rest = list ++ t :: rest)
    (ht : t.endsStatement = true) {fuel : Nat} (hfuel : list.length < fuel) :
    ∃ found d, constantList fuel c = (found, d) ∧ d.rest = t :: rest ∧
      found.map (fun constant => constant.1.text) = names := by
  obtain ⟨hopens, -⟩ := Token.plain_of_endsStatement ht
  induction h generalizing c fuel with
  | @single name eq types value htypes hname heq hvalue =>
    obtain ⟨n, rfl⟩ : ∃ n, fuel = n + 1 := ⟨fuel - 1, by omega⟩
    obtain ⟨written, d, hd, hlist⟩ := constantList_head htypes hname heq hvalue rest
      (hc.trans (by simp)) ⟨hopens, by rw [ht, Bool.true_or]⟩ n
    have hnone := eatPunct_eq_none hd
      (Token.is_eq_false_of_endsStatement ht (show "," ≠ ";" by decide))
    simp only [hnone] at hlist
    exact ⟨_, d, hlist, hd, rfl⟩
  | @more name eq comma types value list names htypes hname heq hvalue hcomma _ ih =>
    obtain ⟨n, rfl⟩ : ∃ n, fuel = n + 1 := ⟨fuel - 1, by omega⟩
    simp only [List.length_append, List.length_cons] at hfuel
    obtain ⟨written, d, hd, hlist⟩ := constantList_head htypes hname heq hvalue
      (list ++ t :: rest) (hc.trans (by simp)) (Token.stop_of_comma hcomma) n
    obtain ⟨found, last, hfound, hlast, hnames⟩ := ih (c := ⟨some comma, list ++ t :: rest⟩) rfl
      (show list.length < n by omega)
    simp only [eatPunct_of_rest hd hcomma, hfound] at hlist
    exact ⟨_, last, hlist, hlast, by rw [List.map_cons, hnames]⟩

/-- The names in front of a phrase, and the phrase behind them. -/
theorem exists_names {stops : List String} {ts : List Token} (h : Phrase stops ts) :
    ∃ names more, ts = names ++ more ∧ (∀ u ∈ names, u.kind = .name) ∧ Phrase stops more ∧
      ∀ u ∈ more.head?, u.kind ≠ .name := by
  induction h with
  | nil => exact ⟨[], [], rfl, by simp, .nil, by simp⟩
  | @token t ts hopens hcloses hend hstop hts ih =>
    by_cases hname : t.kind = .name
    · obtain ⟨names, more, rfl, hnames, hmore, hhead⟩ := ih
      refine ⟨t :: names, more, rfl, fun u hu => ?_, hmore, hhead⟩
      rcases List.mem_cons.mp hu with rfl | hu
      · exact hname
      · exact hnames u hu
    · exact ⟨[], t :: ts, rfl, by simp, .token hopens hcloses hend hstop hts, by simpa using hname⟩
  | @group o c inner ts hpairs hinner hts _ =>
    refine ⟨[], o :: (inner ++ c :: ts), rfl, by simp, .group hpairs hinner hts, fun u hu => ?_⟩
    obtain rfl : o = u := by simpa using hu
    intro hname
    simpa [(Token.plain_of_name hname).1] using hpairs.opens

/-- Constants of any form are read within their statement. -/
theorem constantList_phrase (fuel : Nat) {list : List Token} (h : Phrase [] list) {c : Cursor}
    {t : Token} {rest : List Token} (hc : c.rest = list ++ t :: rest)
    (ht : t.endsStatement = true) :
    ∃ back, (constantList fuel c).2.rest = back ++ t :: rest ∧ Phrase [] back := by
  induction fuel generalizing list c with
  | zero => exact ⟨list, hc, h⟩
  | succ fuel ih =>
    obtain ⟨names, more, rfl, hnames, hmore, hhead⟩ := exists_names h
    have hsplit : c.rest = names ++ (more ++ t :: rest) := by rw [hc, List.append_assoc]
    have hfound : c.rest.takeWhile (fun u => u.kind == .name) = names := by
      rw [hsplit]
      cases more with
      | nil => exact takeWhile_name hnames (Token.not_name_of_endsStatement ht) rest
      | cons u more => exact takeWhile_name hnames (hhead u rfl) (more ++ t :: rest)
    have hbehind : (c.skip names.length).rest = more ++ t :: rest := skip_append hsplit
    have hstuck : ∃ back, (c.skip names.length).rest = back ++ t :: rest ∧ Phrase [] back :=
      ⟨more, hbehind, hmore⟩
    rw [constantList]
    simp only [hfound]
    split
    · next name afterSign hname hsign =>
      -- An equals sign is next, and it is part of the statement.
      obtain ⟨eq, value, rfl, heq⟩ : ∃ eq value, more = eq :: value ∧ eq.is "=" = true := by
        cases more with
        | nil =>
          rw [eatPunct_eq_none hbehind
            (Token.is_eq_false_of_endsStatement ht (show "=" ≠ ";" by decide))] at hsign
          simp at hsign
        | cons u more =>
          cases hu : u.is "=" with
          | true => exact ⟨u, more, rfl, hu⟩
          | false =>
            rw [eatPunct_eq_none hbehind hu] at hsign
            simp at hsign
      obtain rfl : ⟨some eq, value ++ t :: rest⟩ = afterSign := by
        rw [eatPunct_of_rest hbehind heq] at hsign
        exact Option.some.inj hsign
      obtain ⟨front, back, rfl, hfront, hback, hcase⟩ :=
        (hmore.of_cons (Token.opens_eq_false_of_is heq (by decide))).exists_stop ","
      rcases hcase with rfl | ⟨u, more, rfl, hopens, htext⟩
      · have hvalue := expression_of_stop (c := ⟨some eq, front ++ [] ++ t :: rest⟩)
          (by rw [List.append_nil]) hfront
          (.inr ⟨(Token.plain_of_endsStatement ht).1, by rw [ht, Bool.true_or]⟩)
        rw [eatPunct_eq_none hvalue
          (Token.is_eq_false_of_endsStatement ht (show "," ≠ ";" by decide))]
        exact ⟨[], hvalue, .nil⟩
      · have hvalue := expression_of_stop (c := ⟨some eq, front ++ u :: more ++ t :: rest⟩)
          (List.append_assoc _ _ _) hfront (.inr ⟨hopens, by simp [htext]⟩)
        cases hcomma : u.is "," with
        | true =>
          rw [eatPunct_of_rest hvalue hcomma]
          exact ih (hback.of_cons hopens) rfl
        | false =>
          rw [eatPunct_eq_none hvalue hcomma]
          exact ⟨u :: more, hvalue, hback⟩
    · exact hstuck

/-! ### Imports -/

theorem importAt_of {target : String} {ts : List Token} {item : String × Fqsen}
    (h : ImportAs target ts item) {c : Cursor} {t : Token} {rest : List Token}
    (hc : c.rest = ts ++ t :: rest) (ht : t.kind ≠ .name) :
    ∃ d, importAt target c = (item, d) ∧ d.rest = t :: rest := by
  cases h with
  | short =>
    rw [importAt, eatKeyword_eq_none hc (Token.isKeyword_eq_false_of_kind ht)]
    exact ⟨c, rfl, hc⟩
  | @named as name has hname =>
    have hc : c.rest = as :: name :: t :: rest := hc
    rw [importAt, eatKeyword_of_rest hc has]
    simp only [name?_of_rest (c := ⟨some as, name :: t :: rest⟩) rfl hname]
    exact ⟨_, rfl, rfl⟩

theorem importGroup_of {start : List Char} {ts : List Token} {items : List (String × Fqsen)}
    (h : ImportGroup start ts items) {c : Cursor} {t : Token} {rest : List Token}
    (hc : c.rest = ts ++ t :: rest) (ht : t.closesBlock = true) {fuel : Nat}
    (hfuel : ts.length < fuel) :
    ∃ d, importGroup start fuel c = (items, d) ∧ d.rest = t :: rest := by
  induction h generalizing c fuel with
  | nil =>
    obtain ⟨n, rfl⟩ : ∃ n, fuel = n + 1 := ⟨fuel - 1, by omega⟩
    rw [importGroup, name?_eq_none hc (Token.not_name_of_is ht)]
    exact ⟨c, rfl, hc⟩
  | @single name ts item hname has =>
    obtain ⟨n, rfl⟩ : ∃ n, fuel = n + 1 := ⟨fuel - 1, by omega⟩
    have hc : c.rest = name :: (ts ++ t :: rest) := hc
    obtain ⟨d, hitem, hd⟩ := importAt_of has (c := ⟨some name, ts ++ t :: rest⟩) rfl
      (Token.not_name_of_is ht)
    have hnone := eatPunct_eq_none hd (Token.is_eq_false ht (show "\x7d" ≠ "," by decide))
    rw [importGroup, name?_of_rest hc hname]
    simp only [hitem, hnone]
    exact ⟨d, rfl, hd⟩
  | @more name comma ts us item items hname has hcomma _ ih =>
    obtain ⟨n, rfl⟩ : ∃ n, fuel = n + 1 := ⟨fuel - 1, by omega⟩
    have hc : c.rest = name :: (ts ++ comma :: (us ++ t :: rest)) := hc.trans (by simp)
    simp only [List.length_cons, List.length_append] at hfuel
    obtain ⟨d, hitem, hd⟩ := importAt_of has
      (c := ⟨some name, ts ++ comma :: (us ++ t :: rest)⟩) rfl (Token.not_name_of_is hcomma)
    obtain ⟨last, hitems, hlast⟩ := ih (c := ⟨some comma, us ++ t :: rest⟩) rfl
      (show us.length < n by omega)
    rw [importGroup, name?_of_rest hc hname]
    simp only [hitem, eatPunct_of_rest hd hcomma, hitems]
    exact ⟨last, rfl, hlast⟩

/-- An import is read up to what is behind it, which is no brace and no name. -/
theorem importName_of {list : List Token} {items : List (String × Fqsen)}
    (h : ImportName list items) {c : Cursor} {t : Token} {rest : List Token}
    (hc : c.rest = list ++ t :: rest) (ht : t.opensBlock = false) (hname : t.kind ≠ .name) :
    ∃ first d last, c.name? = some (first, d) ∧ importName first d = (items, last) ∧
      last.rest = t :: rest := by
  cases h with
  | @name first ts item hfirst has =>
    have hc : c.rest = first :: (ts ++ t :: rest) := hc
    obtain ⟨d, hitem, hd⟩ := importAt_of has (c := ⟨some first, ts ++ t :: rest⟩) rfl hname
    refine ⟨first, _, d, name?_of_rest hc hfirst, ?_, hd⟩
    have hnone : (Cursor.mk (some first) (ts ++ t :: rest)).eat Token.opensBlock = none := by
      cases has with
      | short => exact eat_eq_none rfl ht
      | named has hname =>
        refine eat_eq_none rfl (Token.is_eq_false_of_kind ?_)
        rw [Token.kind_of_isKeyword has]
        decide
    rw [importName, hnone]
    simp only [hitem]
  | @group first o close ts items hfirst ho hgroup hclose =>
    have hc : c.rest = first :: o :: (ts ++ close :: t :: rest) := hc.trans (by simp)
    have hfuel : ts.length < (Cursor.mk (some o) (ts ++ close :: t :: rest)).fuel := by
      simp only [Cursor.fuel, List.length_append]
      omega
    obtain ⟨d, hitems, hd⟩ := importGroup_of hgroup
      (c := ⟨some o, ts ++ close :: t :: rest⟩) rfl hclose hfuel
    refine ⟨first, _, ⟨some close, t :: rest⟩, name?_of_rest hc hfirst, ?_, rfl⟩
    have hopen : (Cursor.mk (some first) (o :: (ts ++ close :: t :: rest))).eat Token.opensBlock =
        some ⟨some o, ts ++ close :: t :: rest⟩ := eat_of_rest rfl ho
    rw [importName, hopen]
    simp only [hitems, eat_of_rest hd hclose, Option.getD_some]

theorem importList_of {list : List Token} {items : List (String × Fqsen)}
    (h : ImportList list items) {c : Cursor} {t : Token} {rest : List Token}
    (hc : c.rest = list ++ t :: rest) (ht : t.endsStatement = true) {fuel : Nat}
    (hfuel : list.length < fuel) :
    ∃ d, importList fuel c = (items, d) ∧ d.rest = t :: rest := by
  induction h generalizing c fuel with
  | @single ts items hitems =>
    obtain ⟨n, rfl⟩ : ∃ n, fuel = n + 1 := ⟨fuel - 1, by omega⟩
    obtain ⟨first, d, last, hfirst, hread, hlast⟩ := importName_of hitems hc
      (Token.is_eq_false_of_endsStatement ht (by decide)) (Token.not_name_of_endsStatement ht)
    have hnone := eatPunct_eq_none hlast
      (Token.is_eq_false_of_endsStatement ht (show "," ≠ ";" by decide))
    rw [importList, hfirst]
    simp only [hread, hnone]
    exact ⟨last, rfl, hlast⟩
  | @more comma ts us items others hitems hcomma _ ih =>
    obtain ⟨n, rfl⟩ : ∃ n, fuel = n + 1 := ⟨fuel - 1, by omega⟩
    have hc : c.rest = ts ++ comma :: (us ++ t :: rest) := hc.trans (by simp)
    simp only [List.length_cons, List.length_append] at hfuel
    obtain ⟨first, d, last, hfirst, hread, hlast⟩ := importName_of hitems hc
      (Token.is_eq_false hcomma (by decide)) (Token.not_name_of_is hcomma)
    obtain ⟨final, hmore, hfinal⟩ := ih (c := ⟨some comma, us ++ t :: rest⟩) rfl
      (show us.length < n by omega)
    rw [importList, hfirst]
    simp only [hread, eatPunct_of_rest hlast hcomma, hmore]
    exact ⟨final, rfl, hfinal⟩

/-! ### Functions -/

/-- A block is passed over with its closing brace. -/
theorem skipBlock_of {inner rest : List Token} {t : Token} (h : Nested inner) {s : Reading}
    (hs : s.cursor.rest = inner ++ t :: rest) (ht : t.closesBlock = true) (line : Nat) :
    s.skipBlock line = s.moveTo ⟨some t, rest⟩ := by
  rw [skipBlock, hs, blockWidth_nested h ht]
  simp only [skip_concat hs]

/-- The token that ends a body. -/
def IsLast (t : Token) : Prop := t.closesBlock = true ∨ t.endsStatement = true

theorem skipBody_of {body rest : List Token} (h : BodyOrEnd body) {s : Reading}
    (hs : s.cursor.rest = body ++ rest) :
    ∃ t, IsLast t ∧ s.skipBody = s.moveTo ⟨some t, rest⟩ := by
  cases h with
  | @block o c inner ho hinner hc =>
    have hs : s.cursor.rest = o :: (inner ++ c :: rest) := hs.trans (by simp)
    refine ⟨c, .inl hc, ?_⟩
    rw [skipBody, eat_of_rest hs ho]
    exact skipBlock_of hinner rfl hc s.cursor.line
  | @none e he =>
    have hs : s.cursor.rest = e :: rest := hs
    refine ⟨e, .inr he, ?_⟩
    rw [skipBody, eat_eq_none hs (Token.is_eq_false_of_endsStatement he (by decide))]
    simp only [dropEnd_of_rest hs he]

theorem body_head {body : List Token} (h : BodyOrEnd body) :
    ∃ t ts, body = t :: ts ∧ (t.opensBlock = true ∨ t.endsStatement = true) := by
  cases h with
  | block ho _ _ => exact ⟨_, _, rfl, .inl ho⟩
  | none he => exact ⟨_, _, rfl, .inr he⟩

theorem returnTypes_of {types body rest : List Token} (h : ReturnType types) (hbody : BodyOrEnd body)
    {c : Cursor} (hc : c.rest = types ++ (body ++ rest)) :
    (Reader.returnTypes c).2.rest = body ++ rest := by
  obtain ⟨t, ts, rfl, ht⟩ := body_head hbody
  cases h with
  | none =>
    have hcolon : t.is ":" = false := by
      rcases ht with ht | ht
      · exact Token.is_eq_false ht (by decide)
      · exact Token.is_eq_false_of_endsStatement ht (by decide)
    rw [Reader.returnTypes, eatPunct_eq_none hc hcolon]
    exact hc
  | @types colon list hcolon hlist =>
    have htypes : (list ++ (t :: ts ++ rest)).takeWhile
        (fun u => !(u.opensBlock || u.endsStatement)) = list := by
      rw [List.takeWhile_append_of_pos (fun u hu => by simp [hlist u hu]), List.cons_append,
        List.takeWhile_cons_of_neg (by simp [Bool.or_eq_true_iff.mpr ht]), List.append_nil]
    have hc : c.rest = colon :: (list ++ (t :: ts ++ rest)) := hc
    rw [Reader.returnTypes, eatPunct_of_rest hc hcolon]
    simp only [htypes]
    exact skip_append rfl

theorem signature_of {parts rest : List Token} (h : Signature parts) {s : Reading}
    (hs : s.cursor.rest = parts ++ rest) (doc : Option DocBlock) :
    ∃ arguments types t, IsLast t ∧
      s.signature doc = (arguments, types, s.moveTo ⟨some t, rest⟩) := by
  cases h with
  | @parts o c parameters types body ho hparameters hc htypes hbody =>
    have hs : s.cursor.rest = o :: (parameters ++ c :: (types ++ (body ++ rest))) :=
      hs.trans (by simp)
    have hwidth := Reader.listWidth_nested hparameters hc (types ++ (body ++ rest))
    obtain ⟨pieces, hpieces⟩ : ∃ pieces, Reader.parameterPieces 0 []
        (parameters ++ c :: (types ++ (body ++ rest))) = (pieces, parameters.length + 1, true) :=
      ⟨_, Prod.ext rfl hwidth⟩
    have hlist : (Reader.parameters doc s.cursor).after = ⟨some c, types ++ (body ++ rest)⟩ ∧
        (Reader.parameters doc s.cursor).unclosed = none := by
      rw [Reader.parameters, eatPunct_of_rest hs ho]
      simp only [hpieces, if_true, and_true]
      exact skip_concat rfl
    have hreturn := returnTypes_of htypes hbody (c := ⟨some c, types ++ (body ++ rest)⟩) rfl
    obtain ⟨t, ht, hskip⟩ := skipBody_of (s := s.moveTo (Reader.returnTypes
      ⟨some c, types ++ (body ++ rest)⟩).2) hbody hreturn
    refine ⟨(Reader.parameters doc s.cursor).arguments,
      (Reader.returnTypes ⟨some c, types ++ (body ++ rest)⟩).1, t, ht, ?_⟩
    rw [signature, hlist.1, hlist.2]
    simp only [hskip]
    rfl

/-! ### Names of class-likes -/

/-- Two states with the same file, namespace and open blocks. -/
structure Alike (s u : Reading) : Prop where
  file : u.file = s.file
  space : u.space = s.space
  blocks : u.blocks = s.blocks

namespace Alike

variable {s u v : Reading}

theorem trans (h : s.Alike u) (k : u.Alike v) : s.Alike v :=
  ⟨k.file.trans h.file, k.space.trans h.space, k.blocks.trans h.blocks⟩

end Alike

/-- What a written name stands for. -/
def reference (s : Reading) (name : String) : Reference := { target := s.qualify name }

/-- A name stands for the same in states with the same imports and namespace. -/
theorem qualify_congr {s u : Reading} (hspace : u.space = s.space)
    (haliases : u.file.aliases = s.file.aliases) (name : String) :
    u.qualify name = s.qualify name := by
  simp only [qualify, alias?, hspace, haliases]

theorem Alike.reference {s u : Reading} (h : s.Alike u) : u.reference = s.reference :=
  funext fun name => congrArg (fun target => ({ target := target } : Reference))
    (qualify_congr h.space (congrArg File.aliases h.file) name)

@[simp] theorem reference_moveTo (s : Reading) (c : Cursor) :
    (s.moveTo c).reference = s.reference :=
  Alike.reference ⟨rfl, rfl, rfl⟩

@[simp] theorem reference_forget (s : Reading) : s.forget.reference = s.reference :=
  Alike.reference ⟨rfl, rfl, rfl⟩

theorem references_of {list : List Token} {names : List String} (h : NameList list names)
    {s : Reading} {t : Token} {rest : List Token} (hs : s.cursor.rest = list ++ t :: rest)
    (ht : t.is "," = false) :
    ∃ d, d.rest = t :: rest ∧ s.references = (names.map s.reference, s.moveTo d) := by
  have hfuel : list.length < s.cursor.fuel := by
    rw [Cursor.fuel, hs, List.length_append]
    omega
  obtain ⟨found, d, hlist, hd, rfl⟩ := nameList_of h hs ht hfuel
  refine ⟨d, hd, ?_⟩
  rw [references, hlist, List.map_map]
  rfl

theorem listBehind_of {keyword : String} {list : List Token} {names : List String}
    (h : ListBehind keyword list names) {s : Reading} {t : Token} {rest : List Token}
    (hs : s.cursor.rest = list ++ t :: rest) (ht : t.opensBlock = true) :
    ∃ d, d.rest = t :: rest ∧ s.listBehind keyword = (names.map s.reference, s.moveTo d) := by
  have hkind : t.kind ≠ .name := Token.not_name_of_is ht
  cases h with
  | none =>
    rw [listBehind, eatKeyword_eq_none hs (Token.isKeyword_eq_false_of_kind hkind)]
    exact ⟨s.cursor, hs, rfl⟩
  | @names kw list names hkw hlist =>
    have hs : s.cursor.rest = kw :: (list ++ t :: rest) := hs
    obtain ⟨d, hd, hreferences⟩ := references_of (s := s.moveTo ⟨some kw, list ++ t :: rest⟩) hlist
      rfl (Token.is_eq_false ht (by decide))
    rw [listBehind, eatKeyword_of_rest hs hkw]
    rw [reference_moveTo] at hreferences
    exact ⟨d, hd, hreferences⟩

theorem parentAt_of {base : List Token} {parent : Option String} (h : Extends base parent)
    {s : Reading} {c : Cursor} {rest : List Token} (hc : c.rest = base ++ rest)
    (hrest : ∀ t ∈ rest.head?, t.isKeyword "extends" = false) (hne : rest ≠ []) :
    ∃ d, d.rest = rest ∧ s.parentAt c = (parent.map s.reference, d) := by
  cases h with
  | none =>
    obtain ⟨t, more, rfl⟩ := List.exists_cons_of_ne_nil hne
    rw [parentAt, eatKeyword_eq_none hc (hrest t rfl)]
    exact ⟨c, hc, rfl⟩
  | @parent kw name hkw hname =>
    have hc : c.rest = kw :: name :: rest := hc
    rw [parentAt, eatKeyword_of_rest hc hkw]
    simp only [name?_of_rest (c := ⟨some kw, name :: rest⟩) rfl hname]
    exact ⟨_, rfl, rfl⟩

end Reading

/-! ### Class-likes -/

namespace BodyReading

open Cursor Reading

theorem propertyList_of {list : List Token} (h : PropertyList list) (owner : Fqsen)
    (modifiers : Modifiers) (doc : Option DocBlock) {fuel : Nat} (first : Token) {c : Cursor}
    {e : Token} {rest : List Token} (hc : c.rest = list ++ e :: rest)
    (he : e.endsStatement = true) (members : Members) (hfuel : list.length < fuel) :
    (propertyList owner modifiers doc fuel first c members).2.rest = e :: rest := by
  have hend (p : String) (hp : p ≠ ";") : e.is p = false := Token.is_eq_false_of_endsStatement he hp
  induction h generalizing fuel first c members with
  | nil =>
    obtain ⟨n, rfl⟩ : ∃ n, fuel = n + 1 := ⟨fuel - 1, by omega⟩
    simp only [propertyList, eatPunct_eq_none hc (hend "=" (by decide)),
      eatPunct_eq_none hc (hend "," (by decide))]
    exact hc
  | @value eq value heq hvalue =>
    obtain ⟨n, rfl⟩ : ∃ n, fuel = n + 1 := ⟨fuel - 1, by omega⟩
    have hc : c.rest = eq :: (value ++ e :: rest) := hc
    have hread := expression_of_stop (c := ⟨some eq, value ++ e :: rest⟩) rfl hvalue
      (.inr ⟨(Token.plain_of_endsStatement he).1, by rw [he, Bool.true_or]⟩)
    simp only [propertyList, eatPunct_of_rest hc heq, eatPunct_eq_none hread (hend "," (by decide))]
    exact hread
  | @more comma t ts hcomma ht _ ih =>
    obtain ⟨n, rfl⟩ : ∃ n, fuel = n + 1 := ⟨fuel - 1, by omega⟩
    have hc : c.rest = comma :: t :: (ts ++ e :: rest) := hc
    rw [List.length_cons, List.length_cons] at hfuel
    have htake : (Cursor.mk (some comma) (t :: (ts ++ e :: rest))).take? .variableName =
        some (t, ⟨some t, ts ++ e :: rest⟩) := by
      simp [Cursor.take?, ht, Cursor.step]
    have hsign : comma.is "=" = false := Token.is_eq_false hcomma (by decide)
    simp only [propertyList, eatPunct_eq_none hc hsign, eatPunct_of_rest hc hcomma, htake]
    exact ih t rfl _ (by omega)
  | @valueMore eq comma t value ts heq hvalue hcomma ht _ ih =>
    obtain ⟨n, rfl⟩ : ∃ n, fuel = n + 1 := ⟨fuel - 1, by omega⟩
    have hc : c.rest = eq :: (value ++ comma :: t :: (ts ++ e :: rest)) := hc.trans (by simp)
    simp only [List.length_cons, List.length_append] at hfuel
    have hread := expression_of_stop (c := ⟨some eq, value ++ comma :: t :: (ts ++ e :: rest)⟩) rfl
      hvalue (.inr (Token.stop_of_comma hcomma))
    have htake : (Cursor.mk (some comma) (t :: (ts ++ e :: rest))).take? .variableName =
        some (t, ⟨some t, ts ++ e :: rest⟩) := by
      simp [Cursor.take?, ht, Cursor.step]
    simp only [propertyList, eatPunct_of_rest hc heq, eatPunct_of_rest hread hcomma, htake]
    exact ih t rfl _ (by omega)

/-- A body behind some of its members: its place, and the traits that were used in between. -/
structure Behind (b : BodyReading) (rest : List Token) (names : List String) (d : BodyReading) :
    Prop where
  alike : b.state.Alike d.state
  rest : d.state.cursor.rest = rest
  traits : d.traits = b.traits ++ names.map b.state.reference

theorem Behind.trans {b d f : BodyReading} {ts us : List Token} {names more : List String}
    (h : b.Behind ts names d) (k : d.Behind us more f) : b.Behind us (names ++ more) f where
  alike := h.alike.trans k.alike
  rest := k.rest
  traits := by
    rw [k.traits, h.traits, h.alike.reference, List.map_append, List.append_assoc]

def moveTo (b : BodyReading) (c : Cursor) : BodyReading := { b with state := b.state.moveTo c }

theorem Behind.of_moveTo {b d : BodyReading} {c : Cursor} {ts : List Token} {names : List String}
    (h : (b.moveTo c).Behind ts names d) : b.Behind ts names d where
  alike := ⟨h.alike.file, h.alike.space, h.alike.blocks⟩
  rest := h.rest
  traits := by
    rw [h.traits, moveTo, reference_moveTo]

theorem behind_passed {t : Token} (hvariable : t.kind ≠ .variableName)
    (hword : t.kind = .name → Text.asciiLower t.text ∉ memberWords) (b : BodyReading) :
    b.Behind b.state.cursor.rest [] (b.token t) := by
  have hsame (d : BodyReading) (hstate : b.state.Alike d.state)
      (hcursor : d.state.cursor = b.state.cursor) (htraits : d.traits = b.traits) :
      b.Behind b.state.cursor.rest [] d :=
    ⟨hstate, congrArg Cursor.rest hcursor, by rw [htraits]; simp⟩
  rw [token]
  split
  · exact hsame _ ⟨rfl, rfl, rfl⟩ rfl rfl
  · next hname =>
    have hnone := hword hname
    simp only [memberWords, List.mem_cons, List.not_mem_nil, or_false, not_or] at hnone
    rw [word]
    split
    · next h => exact absurd h hnone.1
    all_goals first
      | exact hsame _ ⟨rfl, rfl, rfl⟩ rfl rfl
      | next h => exact absurd h hnone.2.1
      | next h => exact absurd h hnone.2.2.1
      | next h => exact absurd h hnone.2.2.2
  · next h => exact absurd h hvariable
  · split
    · exact hsame _ ⟨rfl, rfl, rfl⟩ rfl rfl
    · split
      · exact hsame _ ⟨rfl, rfl, rfl⟩ rfl rfl
      · exact hsame _ ⟨rfl, rfl, rfl⟩ rfl rfl

theorem token_of_isKeyword {t : Token} {word : String} (h : t.isKeyword word = true)
    (b : BodyReading) : b.token t = b.word t := by
  rw [token, Token.kind_of_isKeyword h]

theorem behind_traits {kw : Token} {list body rest : List Token} {names : List String}
    (hkw : kw.isKeyword "use" = true) (hlist : NameList list names) (hbody : BodyOrEnd body)
    {b : BodyReading} (hb : b.state.cursor.rest = list ++ (body ++ rest)) :
    b.Behind rest names (b.token kw) := by
  have hword : Text.asciiLower kw.text = "use" := Token.word_of_isKeyword hkw (by decide)
  obtain ⟨t, ts, rfl, ht⟩ := body_head hbody
  have hcomma : t.is "," = false := by
    rcases ht with ht | ht
    · exact Token.is_eq_false ht (by decide)
    · exact Token.is_eq_false_of_endsStatement ht (by decide)
  obtain ⟨d, hd, hreferences⟩ := references_of hlist hb hcomma
  obtain ⟨last, -, hskip⟩ := skipBody_of (s := b.state.moveTo d) hbody hd
  have huse : b.traitUse = { b with
      state := b.state.references.2.skipBody.forget
      traits := b.traits ++ b.state.references.1
      modifiers := {} } := rfl
  rw [token_of_isKeyword hkw, word]
  simp only [hword, huse, hreferences, hskip]
  exact ⟨⟨rfl, rfl, rfl⟩, rfl, rfl⟩

theorem behind_constants {kw e : Token} {list rest : List Token}
    (hkw : kw.isKeyword "const" = true) (hlist : Phrase [] list) (he : e.endsStatement = true)
    {b : BodyReading} (hb : b.state.cursor.rest = list ++ e :: rest) :
    b.Behind rest [] (b.token kw) := by
  have hword : Text.asciiLower kw.text = "const" := Token.word_of_isKeyword hkw (by decide)
  obtain ⟨back, hback, hphrase⟩ := constantList_phrase b.state.cursor.fuel hlist hb he
  have hskip := skipStatement_of_end hphrase he hback
  rw [token_of_isKeyword hkw, BodyReading.word]
  simp only [hword]
  refine ⟨⟨rfl, rfl, rfl⟩, congrArg Cursor.rest hskip, ?_⟩
  rw [List.map_nil, List.append_nil]
  rfl

theorem behind_method {kw name : Token} {sign parts rest : List Token}
    (hkw : kw.isKeyword "function" = true) (hsign : ByReference sign) (hname : name.kind = .name)
    (hparts : Signature parts) {b : BodyReading}
    (hb : b.state.cursor.rest = sign ++ name :: (parts ++ rest)) :
    b.Behind rest [] (b.token kw) := by
  have hword : Text.asciiLower kw.text = "function" := Token.word_of_isKeyword hkw (by decide)
  obtain ⟨d, hd, hbehind⟩ : ∃ d, (b.state.cursor.eatPunct "&").getD b.state.cursor = d ∧
      d.rest = name :: (parts ++ rest) := by
    cases hsign with
    | none =>
      rw [eatPunct_eq_none hb (Token.is_eq_false_of_kind (by rw [hname]; decide))]
      exact ⟨_, rfl, hb⟩
    | sign ht =>
      rw [eatPunct_of_rest hb ht]
      exact ⟨_, rfl, rfl⟩
  rw [token_of_isKeyword hkw, BodyReading.word]
  simp only [hword, method, hd]
  obtain ⟨arguments, types, t, -, hsignature⟩ := signature_of
    (s := (b.state.moveTo d).forget.moveTo ⟨some name, parts ++ rest⟩) hparts rfl b.state.pending
  have hfound : (b.state.moveTo d).cursor.name? = some (name, ⟨some name, parts ++ rest⟩) :=
    name?_of_rest hbehind hname
  simp only [hfound]
  have hpending : (b.state.moveTo d).pending = b.state.pending := rfl
  simp only [hpending, hsignature]
  refine ⟨⟨rfl, rfl, rfl⟩, rfl, ?_⟩
  rw [List.map_nil, List.append_nil]

theorem behind_properties {t e : Token} {list rest : List Token} (ht : t.kind = .variableName)
    (hlist : PropertyList list) (he : e.endsStatement = true) {b : BodyReading}
    (hb : b.state.cursor.rest = list ++ e :: rest) : b.Behind rest [] (b.token t) := by
  have hfuel : list.length < b.state.cursor.fuel := by
    rw [Cursor.fuel, hb, List.length_append]
    omega
  have hread := propertyList_of hlist b.owner (b.modifiers.startAt t.line) b.state.pending t hb he
    b.members hfuel
  have hdrop := dropEnd_of_rest hread he
  rw [token, ht]
  refine ⟨⟨rfl, rfl, rfl⟩, congrArg Cursor.rest hdrop, ?_⟩
  rw [List.map_nil, List.append_nil]
  rfl

theorem closesBlock_of_isKeyword {kw : Token} {word : String} (h : kw.isKeyword word = true) :
    kw.closesBlock = false :=
  Token.is_eq_false_of_kind (by rw [Token.kind_of_isKeyword h]; decide)

/-- One round of the loop over members: a member is read from its first token on. -/
theorem untilClose_member {t c : Token} {rest : List Token} {more : List String} {line n : Nat}
    (part ts : List Token) (names : List String) {b : BodyReading}
    (hb : b.state.cursor.rest = t :: (part ++ (ts ++ c :: rest))) (ht : t.closesBlock = false)
    (hread : ∀ d : BodyReading, d.state.cursor.rest = part ++ (ts ++ c :: rest) →
      d.Behind (ts ++ c :: rest) names (d.token t))
    (hrest : ∀ d : BodyReading, d.state.cursor.rest = ts ++ c :: rest →
      d.Behind rest more (untilClose line n d) ∧
        (untilClose line n d).state.cursor.previous = some c) :
    b.Behind rest (names ++ more) (untilClose line (n + 1) b) ∧
      (untilClose line (n + 1) b).state.cursor.previous = some c := by
  have hstep : untilClose line (n + 1) b =
      untilClose line n ((b.moveTo ⟨some t, part ++ (ts ++ c :: rest)⟩).token t) := by
    rw [untilClose, Cursor.peek, hb]
    simp only [List.head?_cons, ht, Reading.step, step_of_rest hb]
    rfl
  have hmember := hread (b.moveTo ⟨some t, part ++ (ts ++ c :: rest)⟩) rfl
  obtain ⟨hbehind, hprevious⟩ := hrest _ hmember.rest
  rw [hstep]
  exact ⟨hmember.of_moveTo.trans hbehind, hprevious⟩

/-- The members of a class-like are read up to its closing brace. -/
theorem untilClose_of {members : List Token} {names : List String} (h : MemberList members names)
    {b : BodyReading} {c : Token} {rest : List Token}
    (hb : b.state.cursor.rest = members ++ c :: rest) (hc : c.closesBlock = true) (line : Nat)
    {fuel : Nat} (hfuel : members.length < fuel) :
    b.Behind rest names (untilClose line fuel b) ∧
      (untilClose line fuel b).state.cursor.previous = some c := by
  induction h generalizing b fuel with
  | nil =>
    obtain ⟨n, rfl⟩ : ∃ n, fuel = n + 1 := ⟨fuel - 1, by omega⟩
    have hb : b.state.cursor.rest = c :: rest := hb
    have hstop : untilClose line (n + 1) b = b.moveTo ⟨some c, rest⟩ := by
      rw [untilClose, Cursor.peek, hb]
      simp only [List.head?_cons, hc, Reading.step, step_of_rest hb]
      rfl
    rw [hstop]
    exact ⟨⟨⟨rfl, rfl, rfl⟩, rfl, by rw [List.map_nil, List.append_nil]; rfl⟩, rfl⟩
  | @token _ ts _ hvariable _ hcloses hword _ ih =>
    obtain ⟨n, rfl⟩ : ∃ n, fuel = n + 1 := ⟨fuel - 1, by omega⟩
    rw [List.length_cons] at hfuel
    exact untilClose_member [] ts [] hb hcloses
      (fun d hd => hd ▸ behind_passed hvariable hword d) fun d hd => ih hd (by omega)
  | @traits _ list body ts names _ hkw hlist hbody _ ih =>
    obtain ⟨n, rfl⟩ : ∃ n, fuel = n + 1 := ⟨fuel - 1, by omega⟩
    simp only [List.length_cons, List.length_append] at hfuel
    exact untilClose_member (list ++ body) ts names (hb.trans (by simp))
      (closesBlock_of_isKeyword hkw)
      (fun d hd => behind_traits hkw hlist hbody (hd.trans (List.append_assoc ..)))
      fun d hd => ih hd (by omega)
  | @constants _ e list ts _ hkw hlist he _ ih =>
    obtain ⟨n, rfl⟩ : ∃ n, fuel = n + 1 := ⟨fuel - 1, by omega⟩
    simp only [List.length_cons, List.length_append] at hfuel
    exact untilClose_member (list ++ [e]) ts [] (hb.trans (by simp))
      (closesBlock_of_isKeyword hkw)
      (fun d hd => behind_constants hkw hlist he (hd.trans (List.append_assoc ..)))
      fun d hd => ih hd (by omega)
  | @method _ name sign parts ts _ hkw hsign hname hparts _ ih =>
    obtain ⟨n, rfl⟩ : ∃ n, fuel = n + 1 := ⟨fuel - 1, by omega⟩
    simp only [List.length_cons, List.length_append] at hfuel
    exact untilClose_member (sign ++ name :: parts) ts [] (hb.trans (by simp))
      (closesBlock_of_isKeyword hkw)
      (fun d hd => behind_method hkw hsign hname hparts (hd.trans (List.append_assoc ..)))
      fun d hd => ih hd (by omega)
  | @properties _ e list ts _ ht hlist he _ ih =>
    obtain ⟨n, rfl⟩ : ∃ n, fuel = n + 1 := ⟨fuel - 1, by omega⟩
    simp only [List.length_cons, List.length_append] at hfuel
    exact untilClose_member (list ++ [e]) ts [] (hb.trans (by simp))
      (Token.is_eq_false_of_kind (by rw [ht]; decide))
      (fun d hd => behind_properties ht hlist he (hd.trans (List.append_assoc ..)))
      fun d hd => ih hd (by omega)

end BodyReading

namespace Reading

theorem classBody_of {block : List Token} {names : List String} (h : ClassBlock block names)
    {s : Reading} {rest : List Token} (hs : s.cursor.rest = block ++ rest) (owner : Fqsen)
    (isInterface : Bool) :
    ∃ members u c, s.classBody owner isInterface = (some (members, names.map s.reference), u) ∧
      s.Alike u ∧ u.cursor = ⟨some c, rest⟩ ∧ c.closesBlock = true := by
  cases h with
  | @braces o c members names ho hmembers hc =>
    have hs : s.cursor.rest = o :: (members ++ c :: rest) := hs.trans (by simp)
    have hfuel : members.length < (Cursor.mk (some o) (members ++ c :: rest)).fuel := by
      simp only [Cursor.fuel, List.length_append]
      omega
    obtain ⟨hbehind, hprevious⟩ := BodyReading.untilClose_of hmembers
      (b := { owner := owner, isInterface := isInterface,
              state := s.moveTo ⟨some o, members ++ c :: rest⟩ }) rfl hc s.cursor.line hfuel
    have hcursor (d : Cursor) (hd : d.previous = some c) (hrest : d.rest = rest) :
        d = ⟨some c, rest⟩ := by
      obtain ⟨previous, rest⟩ := d
      obtain rfl : previous = some c := hd
      obtain rfl := hrest
      rfl
    have htraits := hbehind.traits
    rw [reference_moveTo, List.nil_append] at htraits
    rw [classBody, Cursor.eat_of_rest hs ho]
    exact ⟨_, _, c, Prod.ext (congrArg some (Prod.ext rfl htraits)) rfl,
      ⟨hbehind.alike.file, hbehind.alike.space, hbehind.alike.blocks⟩,
      hcursor _ hprevious hbehind.rest, hc⟩

end Reading

end ApiDoc
