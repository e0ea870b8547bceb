import ApiDoc.Proofs.Progress

/-!
# Within one statement

How far an expression reaches is counted token by token (`expressionWidth_cases`). Tokens lie
within one statement with what is behind them if the count goes through all of them
(`Cursor.Through`): that is so for what the lists of constants and of properties have in front of a
name.
-/

namespace ApiDoc

namespace Cursor

/-- No end of a statement and no closing bracket of what is around comes within the first tokens. -/
def Through (front ts : List Token) : Prop :=
  expressionWidth [] 0 (front ++ ts) = expressionWidth [] 0 ts + front.length

theorem Through.nil (ts : List Token) : Through [] ts := rfl

theorem Through.append {front mid ts : List Token} (h : Through front (mid ++ ts))
    (k : Through mid ts) : Through (front ++ mid) ts := by
  rw [Through, List.append_assoc, h, k, List.length_append]
  omega

/-- A token that is no bracket and does not end the statement is passed over. -/
theorem Through.cons {t : Token} {front ts : List Token} (hopens : t.opens = false)
    (hcloses : t.closes = false) (hend : t.endsStatement = false) (h : Through front ts) :
    Through (t :: front) ts := by
  rw [Through, List.cons_append, expressionWidth_token hopens hcloses (.inr ⟨hend, rfl⟩), h,
    List.length_cons]
  omega

theorem Through.names {front : List Token} (h : ∀ t ∈ front, t.kind = .name) (ts : List Token) :
    Through front ts := by
  induction front with
  | nil => exact .nil ts
  | cons t front ih =>
    obtain ⟨hopens, hcloses, hend⟩ := Token.plain_of_name (h t List.mem_cons_self)
    exact .cons hopens hcloses hend (ih fun u hu => h u (List.mem_cons_of_mem t hu))

theorem Through.variable {t : Token} (h : t.kind = .variableName) (ts : List Token) :
    Through [t] ts := by
  have hplain (p : String) : t.is p = false := Token.is_eq_false_of_kind (by rw [h]; decide)
  refine .cons ?_ ?_ ?_ (.nil ts)
  · simp [Token.opens, Token.opensBlock, hplain]
  · simp [Token.closes, Token.closesBlock, hplain]
  · simp [Token.endsStatement, hplain, h]

theorem Through.sign {t : Token} {p : String} (h : t.is p = true) (hne : p ∉ ["(", "[", "\x7b"])
    (hne' : p ∉ [")", "]", "\x7d"]) (hend : p ≠ ";") (ts : List Token) : Through [t] ts := by
  have hother (q : String) (hq : p ≠ q) : t.is q = false := Token.is_eq_false h hq
  simp only [List.mem_cons, List.not_mem_nil, or_false, not_or] at hne hne'
  refine .cons ?_ ?_ (Token.endsStatement_of_is h hend) (.nil ts)
  · simp [Token.opens, Token.opensBlock, hother _ hne.1, hother _ hne.2.1, hother _ hne.2.2]
  · simp [Token.closes, Token.closesBlock, hother _ hne'.1, hother _ hne'.2.1, hother _ hne'.2.2]

/-- What the width of an expression comes to at its first token, if there is one. -/
theorem expressionWidth_cases (stops : List String) (depth : Nat) (t : Token) (ts : List Token) :
    (t.opens = true ∧
      expressionWidth stops depth (t :: ts) = expressionWidth stops (depth + 1) ts + 1) ∨
    (t.closes = true ∧ ∃ outer, depth = outer + 1 ∧
      expressionWidth stops depth (t :: ts) = expressionWidth stops outer ts + 1) ∨
    (t.opens = false ∧ t.closes = false ∧
      (0 < depth ∨ t.endsStatement = false ∧ stops.contains t.text = false) ∧
      expressionWidth stops depth (t :: ts) = expressionWidth stops depth ts + 1) ∨
    (depth = 0 ∧ t.opens = false ∧
      (t.closes = true ∨ (t.endsStatement || stops.contains t.text) = true) ∧
      expressionWidth stops depth (t :: ts) = 0) := by
  cases hopens : t.opens with
  | true => exact .inl ⟨rfl, expressionWidth_opens hopens stops depth ts⟩
  | false =>
    refine .inr ?_
    cases hcloses : t.closes with
    | true =>
      cases depth with
      | zero =>
        refine .inr (.inr ⟨rfl, rfl, .inl rfl, ?_⟩)
        rw [expressionWidth.eq_def]
        simp [hopens, hcloses]
      | succ outer => exact .inl ⟨rfl, outer, rfl, expressionWidth_closes hcloses stops outer ts⟩
    | false =>
      refine .inr ?_
      by_cases hstop : depth = 0 ∧ (t.endsStatement || stops.contains t.text) = true
      · refine .inr ⟨hstop.1, rfl, .inr hstop.2, ?_⟩
        rw [expressionWidth.eq_def]
        simp only [hopens, hcloses, hstop, decide_true, Bool.and_self, Bool.false_eq_true, if_false,
          if_true]
      · have hdepth : 0 < depth ∨ t.endsStatement = false ∧ stops.contains t.text = false := by
          rcases Nat.eq_zero_or_pos depth with hzero | hpos
          · have hplain : ¬ (t.endsStatement || stops.contains t.text) = true :=
              fun h => hstop ⟨hzero, h⟩
            rw [Bool.or_eq_true, not_or] at hplain
            exact .inr ⟨Bool.eq_false_iff.mpr hplain.1, Bool.eq_false_iff.mpr hplain.2⟩
          · exact .inl hpos
        exact .inl ⟨rfl, rfl, hdepth, expressionWidth_token hopens hcloses hdepth ts⟩

/-- An expression that ends at a stop goes on behind it where there are no stops. -/
theorem expressionWidth_stops (stops : List String) (depth : Nat) (ts : List Token) :
    expressionWidth [] depth ts =
      expressionWidth [] 0 (ts.drop (expressionWidth stops depth ts)) +
        expressionWidth stops depth ts := by
  induction ts generalizing depth with
  | nil => rfl
  | cons t ts ih =>
    rcases expressionWidth_cases stops depth t ts with
      ⟨hopens, hwidth⟩ | ⟨hcloses, outer, rfl, hwidth⟩ | ⟨hopens, hcloses, hdepth, hwidth⟩ |
      ⟨rfl, -, -, hwidth⟩
    · rw [hwidth, List.drop_succ_cons, expressionWidth_opens hopens, ih, Nat.add_assoc]
    · rw [hwidth, List.drop_succ_cons, expressionWidth_closes hcloses, ih, Nat.add_assoc]
    · rw [hwidth, List.drop_succ_cons,
        expressionWidth_token hopens hcloses (hdepth.imp id fun h => ⟨h.1, rfl⟩), ih, Nat.add_assoc]
    · rw [hwidth, List.drop_zero, Nat.add_zero]

theorem expressionWidth_le (stops : List String) (depth : Nat) (ts : List Token) :
    expressionWidth stops depth ts ≤ ts.length := by
  induction ts generalizing depth with
  | nil => exact Nat.le_refl _
  | cons t ts ih =>
    rw [List.length_cons]
    rcases expressionWidth_cases stops depth t ts with
      ⟨-, hwidth⟩ | ⟨-, outer, -, hwidth⟩ | ⟨-, -, -, hwidth⟩ | ⟨-, -, -, hwidth⟩
    · exact hwidth ▸ Nat.succ_le_succ (ih _)
    · exact hwidth ▸ Nat.succ_le_succ (ih _)
    · exact hwidth ▸ Nat.succ_le_succ (ih _)
    · exact hwidth ▸ Nat.zero_le _

/-- What is passed over as an expression is one as a whole. -/
theorem expressionWidth_take (stops : List String) (depth : Nat) (ts : List Token) :
    expressionWidth stops depth (ts.take (expressionWidth stops depth ts)) =
      expressionWidth stops depth ts := by
  induction ts generalizing depth with
  | nil => rfl
  | cons t ts ih =>
    rcases expressionWidth_cases stops depth t ts with
      ⟨hopens, hwidth⟩ | ⟨hcloses, outer, rfl, hwidth⟩ | ⟨hopens, hcloses, hdepth, hwidth⟩ |
      ⟨-, -, -, hwidth⟩
    · rw [hwidth, List.take_succ_cons, expressionWidth_opens hopens, ih]
    · rw [hwidth, List.take_succ_cons, expressionWidth_closes hcloses, ih]
    · rw [hwidth, List.take_succ_cons, expressionWidth_token hopens hcloses hdepth, ih]
    · rw [hwidth, List.take_zero, expressionWidth]

theorem through_take (ts : List Token) : Through (ts.take (expressionWidth [] 0 ts)) [] := by
  rw [Through, List.append_nil, expressionWidth_take,
    List.length_take_of_le (expressionWidth_le [] 0 ts), expressionWidth, Nat.zero_add]

/-- An expression that ends at a stop lies within the statement. -/
theorem through_stops (stops : List String) (ts : List Token) :
    Through (ts.take (expressionWidth stops 0 ts)) (ts.drop (expressionWidth stops 0 ts)) := by
  rw [Through, List.take_append_drop, expressionWidth_stops stops,
    List.length_take_of_le (expressionWidth_le stops 0 ts)]

end Cursor

/-! ### Lists -/

namespace Reading

open Cursor

theorem exists_sign (c : Cursor) :
    ∃ sign, ByReference sign ∧ c.rest = sign ++ ((c.eatPunct "&").getD c).rest := by
  cases h : c.eatPunct "&" with
  | none => exact ⟨[], .none, rfl⟩
  | some d =>
    obtain ⟨t, rest, hrest, ht, rfl⟩ := eat_eq_some h
    exact ⟨[t], .sign ht, hrest⟩

theorem exists_name {c d : Cursor} {name : Token} (h : c.name? = some (name, d)) :
    c.rest = name :: d.rest ∧ name.kind = .name := by
  obtain ⟨rest, hrest, hkind, rfl⟩ := take?_eq_some h
  exact ⟨hrest, hkind⟩

theorem rest_eat {c d : Cursor} {test : Token → Bool} (h : c.eat test = some d) :
    ∃ t, c.rest = t :: d.rest ∧ test t = true := by
  obtain ⟨t, rest, hrest, ht, rfl⟩ := eat_eq_some h
  exact ⟨t, hrest, ht⟩

/-- The names at the place, the last of which stands in front of an equals sign. -/
theorem exists_of_getLast? {c d : Cursor} {name : Token}
    (hlast : (c.rest.takeWhile fun t => t.kind == .name).getLast? = some name)
    (hsign : (c.skip (c.rest.takeWhile fun t => t.kind == .name).length).eatPunct "=" = some d) :
    ∃ types eq, c.rest = types ++ name :: eq :: d.rest ∧ (∀ t ∈ types, t.kind = .name) ∧
      name.kind = .name ∧ eq.is "=" = true := by
  obtain ⟨eq, hrest, heq⟩ := rest_eat hsign
  obtain ⟨types, hnames⟩ := List.getLast?_eq_some_iff.mp hlast
  have hkind : ∀ t ∈ types ++ [name], t.kind = .name := fun t ht =>
    beq_iff_eq.mp (List.all_eq_true.mp List.all_takeWhile t (hnames ▸ ht))
  have hsplit := List.takeWhile_append_dropWhile (p := fun t => t.kind == TokenKind.name)
    (l := c.rest)
  rw [rest_skip] at hrest
  have hbehind : c.rest.dropWhile (fun t => t.kind == .name) = eq :: d.rest :=
    (List.drop_left.symm.trans (congrArg (List.drop _) hsplit)).trans hrest
  refine ⟨types, eq, ?_, fun t ht => hkind t (List.mem_append_left _ ht),
    hkind name (List.mem_append_right _ (List.mem_singleton_self name)), heq⟩
  rw [← hsplit, hnames, hbehind, List.append_assoc, List.singleton_append]

/-- A constant of a list stands in front of an equals sign, within the statement. -/
theorem exists_of_mem_constantList {fuel : Nat} {c : Cursor} {constant : Token × String}
    (h : constant ∈ (constantList fuel c).1) :
    ∃ front eq more, c.rest = front ++ constant.1 :: eq :: more ∧ constant.1.kind = .name ∧
      eq.is "=" = true ∧ Through front (constant.1 :: eq :: more) := by
  induction fuel generalizing c with
  | zero => simp [constantList] at h
  | succ fuel ih =>
    rw [constantList] at h
    dsimp only at h
    split at h
    · next name sign hlast hsign =>
      obtain ⟨types, eq, hrest, htypes, hname, heq⟩ := exists_of_getLast? hlast hsign
      have hfirst : ∃ front eq more, c.rest = front ++ name :: eq :: more ∧ name.kind = .name ∧
          eq.is "=" = true ∧ Through front (name :: eq :: more) :=
        ⟨types, eq, sign.rest, hrest, hname, heq, .names htypes _⟩
      split at h
      · obtain rfl := List.mem_singleton.mp h
        exact hfirst
      · next d hd =>
        rcases List.mem_cons.mp h with rfl | h
        · exact hfirst
        · obtain ⟨front, sign', more, hmore, hkind, hsign', hthrough⟩ := ih h
          obtain ⟨comma, hbehind, hcomma⟩ := rest_eat hd
          have hvalue := through_stops [","] sign.rest
          have hsplit := List.take_append_drop (expressionWidth [","] 0 sign.rest) sign.rest
          rw [expression, rest_skip] at hbehind
          rw [hbehind, hmore] at hvalue hsplit
          generalize sign.rest.take (expressionWidth [","] 0 sign.rest) = value at hvalue hsplit
          refine ⟨types ++ name :: eq :: (value ++ comma :: front), sign', more, ?_, hkind, hsign',
            ?_⟩
          · rw [hrest, ← hsplit]
            simp
          · refine .append (.names htypes _) ?_
            obtain ⟨hopens, hcloses, hend⟩ := Token.plain_of_name hname
            refine .cons hopens hcloses hend ?_
            refine .append (.sign heq (by decide) (by decide) (by decide) _) ?_
            exact .append hvalue
              (.append (.sign hcomma (by decide) (by decide) (by decide) _) hthrough)
    · simp at h

end Reading

namespace BodyReading

open Cursor

/-- The default value of a property lies within the statement. -/
theorem through_defaultAt (c : Cursor) :
    ∃ value, c.rest = value ++ (defaultAt c).2.rest ∧ Through value (defaultAt c).2.rest := by
  rw [defaultAt]
  split
  · next sign hsign =>
    obtain ⟨eq, hrest, heq⟩ := Reading.rest_eat hsign
    have hvalue := through_stops [","] sign.rest
    have hsplit := List.take_append_drop (expressionWidth [","] 0 sign.rest) sign.rest
    refine ⟨eq :: sign.rest.take (expressionWidth [","] 0 sign.rest), ?_, ?_⟩
    · rw [hrest, expression, rest_skip, List.cons_append, hsplit]
    · rw [expression, rest_skip]
      exact .append (.sign heq (by decide) (by decide) (by decide) _) hvalue
  · exact ⟨[], rfl, .nil _⟩

end BodyReading

end ApiDoc
