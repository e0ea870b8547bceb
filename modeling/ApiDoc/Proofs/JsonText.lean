import ApiDoc.Json.Parser
import ApiDoc.Json.Printer
import Mathlib.Data.List.TakeDrop

/-!
# Written values read back

`Json.skim?` gives back every value that `Json.compact` or `Json.pretty` wrote, if the value is
nested no deeper than the reader follows and has no real numbers. Integers are the exception the
reader makes: one that does not fit in 64 bits comes back as another number. `Json.reread` is the
value as it comes back.

Both ways of writing are one layout with different gaps, so the reader is followed once, through
`layoutChars`.
-/

namespace ApiDoc.Json

/-! ### Integers -/

/-- What the reader makes of the digits of an integer. -/
def digitsRead (negative : Bool) (ds : List Char) : Json :=
  let size := (Text.digitsValue 0 ds).getD 0
  let fits := if negative then 0 < size && size ≤ Nat.pow 2 63 else size < digitsBound
  if fits then .int (if negative then -(size : Int) else size)
  else
    match real? ds [] 0 with
    | some number => .real (number.decimal negative)
    | none => .flawed

def rereadInt (n : Int) : Json := digitsRead (n < 0) (Nat.toDigits 10 n.natAbs)

/-- Whether a text does not continue a number that stands in front of it. -/
def endsNumber : List Char → Bool
  | [] => true
  | c :: _ => !(c.isDigit || c == '.' || c == 'e' || c == 'E')

theorem isDigit_toDigits {n : Nat} {c : Char} (h : c ∈ Nat.toDigits 10 n) : c.isDigit = true :=
  Nat.isDigit_of_mem_toDigits (by decide) (by decide) h

theorem digitsValue_eq_ofDigitChars (value : Nat) {cs : List Char}
    (h : ∀ c ∈ cs, c.isDigit = true) :
    Text.digitsValue value cs = some (Nat.ofDigitChars 10 cs value) := by
  induction cs generalizing value with
  | nil => rfl
  | cons c cs ih =>
    rw [Text.digitsValue, if_pos (h c List.mem_cons_self), ih _ fun d hd => h d (.tail _ hd)]
    simp [Nat.ofDigitChars_cons]

theorem digitsValue_toDigits (n : Nat) : Text.digitsValue 0 (Nat.toDigits 10 n) = some n := by
  rw [digitsValue_eq_ofDigitChars 0 fun _ => isDigit_toDigits, Nat.ofDigitChars_ten_toDigits]

/-- The digits of a number are taken off a text in one go. -/
theorem digits_toDigits (n : Nat) {tail : List Char} (h : endsNumber tail = true) :
    digits (Nat.toDigits 10 n ++ tail) = (Nat.toDigits 10 n, tail) := by
  have htail : tail.takeWhile Char.isDigit = [] ∧ tail.dropWhile Char.isDigit = tail := by
    cases tail with
    | nil => simp
    | cons c rest =>
      have hc : c.isDigit = false := by
        simp only [endsNumber, Bool.not_eq_true', Bool.or_eq_false_iff] at h
        exact h.1.1.1
      simp [hc]
  rw [digits, List.span_eq_takeWhile_dropWhile,
    List.takeWhile_append_of_pos fun _ => isDigit_toDigits,
    List.dropWhile_append_of_pos fun _ => isDigit_toDigits, htail.1, htail.2, List.append_nil]

theorem head_toDigits_ne_zero {n : Nat} (h : 0 < n) : (Nat.toDigits 10 n).head? ≠ some '0' := by
  induction n using Nat.strongRecOn with
  | ind n ih =>
    by_cases hlt : n < 10
    · have hdigit : ∀ m < 10, 0 < m → m.digitChar ≠ '0' := by decide
      have hne := hdigit n hlt h
      rw [Nat.toDigits_of_lt_base hlt]
      simpa using hne
    · rw [Nat.toDigits_of_base_le (by decide) (by omega)]
      have hrest := ih (n / 10) (by omega) (by omega)
      cases hd : Nat.toDigits 10 (n / 10) with
      | nil => exact absurd hd Nat.toDigits_ne_nil
      | cons d ds =>
        rw [hd] at hrest
        simpa using hrest

/-- The digits of a number have no needless zero. -/
theorem whole?_toDigits (n : Nat) {tail : List Char} (h : endsNumber tail = true) :
    whole? (Nat.toDigits 10 n ++ tail) = some (Nat.toDigits 10 n, tail) := by
  rw [whole?, digits_toDigits n h]
  by_cases hn : n = 0
  · subst hn
    rfl
  · have hhead := head_toDigits_ne_zero (Nat.pos_of_ne_zero hn)
    cases hd : Nat.toDigits 10 n with
    | nil => exact absurd hd Nat.toDigits_ne_nil
    | cons d ds =>
      rw [hd] at hhead
      have hne : d ≠ '0' := by simpa using hhead
      split
      · next heq => simp at heq
      · next heq =>
        simp only [Prod.mk.injEq, List.cons.injEq] at heq
        exact absurd heq.1.1 hne
      · next heq => simp_all

theorem fraction?_of_endsNumber {tail : List Char} (h : endsNumber tail = true) :
    fraction? tail = some ([], tail) := by
  cases tail with
  | nil => rfl
  | cons c rest =>
    have hc : c ≠ '.' := by
      rintro rfl
      simp [endsNumber] at h
    rw [fraction?]
    simpa using hc

theorem exponent?_of_endsNumber {tail : List Char} (h : endsNumber tail = true) :
    exponent? tail = some (none, tail) := by
  cases tail with
  | nil => rfl
  | cons c rest =>
    simp only [endsNumber, Bool.not_eq_true', Bool.or_eq_false_iff] at h
    simp [exponent?, h.1.2, h.2]

/-- The text of an integer, in front of anything that does not continue it, is read as the integer
comes back. -/
theorem number?_intText (n : Int) {tail : List Char} (h : endsNumber tail = true) :
    number? (intText n ++ tail) = some (rereadInt n, tail) := by
  have hwhole := whole?_toDigits n.natAbs h
  have hfrac := fraction?_of_endsNumber h
  have hexp := exponent?_of_endsNumber h
  by_cases hn : n < 0
  · have htext : intText n ++ tail = '-' :: (Nat.toDigits 10 n.natAbs ++ tail) := by
      simp [intText, hn, Text.ofNat]
    rw [htext, number?, rereadInt, digitsRead]
    simp only [hwhole, hfrac, hexp, hn, Option.bind_eq_bind, Option.bind_some, List.isEmpty_nil,
      Option.isNone_none, Bool.true_and, decide_true, if_true, Option.getD_none]
    split
    · rfl
    · cases real? (Nat.toDigits 10 n.natAbs) [] 0 <;> rfl
  · have htext : intText n ++ tail = Nat.toDigits 10 n.natAbs ++ tail := by
      simp [intText, hn, Text.ofNat]
    have hsign : ∀ rest, Nat.toDigits 10 n.natAbs ++ tail ≠ '-' :: rest := by
      intro rest he
      have hmem : '-' ∈ Nat.toDigits 10 n.natAbs := by
        cases hd : Nat.toDigits 10 n.natAbs with
        | nil => exact absurd hd Nat.toDigits_ne_nil
        | cons d ds =>
          rw [hd, List.cons_append, List.cons.injEq] at he
          simp [he.1]
      have hdigit := isDigit_toDigits hmem
      simp at hdigit
    rw [htext, number?, rereadInt, digitsRead]
    · simp only [hwhole, hfrac, hexp, hn, Option.bind_eq_bind, Option.bind_some, List.isEmpty_nil,
        Option.isNone_none, Bool.true_and, decide_false, Bool.false_eq_true, if_false,
        Option.getD_none]
      split
      · rfl
      · cases real? (Nat.toDigits 10 n.natAbs) [] 0 <;> rfl
    · exact hsign

theorem rereadInt_of_fits {n : Int} (h0 : 0 ≤ n) (h : n < digitsBound) : rereadInt n = .int n := by
  have hneg : ¬ n < 0 := by omega
  have hsize : n.natAbs < digitsBound := by omega
  simp only [rereadInt, digitsRead, digitsValue_toDigits, Option.getD_some, hneg, decide_false,
    Bool.false_eq_true, if_false, hsize, decide_true, if_true]
  congr 1
  omega

/-- An integer that comes back as an integer is the same. -/
theorem eq_of_rereadInt {n m : Int} (h : rereadInt n = .int m) : m = n := by
  by_cases hn : n < 0
  · simp only [rereadInt, digitsRead, digitsValue_toDigits, Option.getD_some, hn, decide_true,
      if_true] at h
    split at h
    · simp only [Json.int.injEq] at h
      omega
    · split at h <;> simp at h
  · simp only [rereadInt, digitsRead, digitsValue_toDigits, Option.getD_some, hn, decide_false,
      Bool.false_eq_true, if_false] at h
    split at h
    · simp only [Json.int.injEq] at h
      omega
    · split at h <;> simp at h

/-! ### Quoted texts -/

theorem hexDigit?_digitChar {n : Nat} (h : n < 16) :
    Text.hexDigit? (Nat.digitChar n) = some n := by
  have : ∀ m < 16, Text.hexDigit? (Nat.digitChar m) = some m := by decide
  exact this n h

/-- A control character is read from its four digits. -/
theorem escape?_control {c : Char} (h : c.toNat < 32) (rest : List Char) :
    escape? ('u' :: '0' :: '0' :: Nat.digitChar (c.toNat / 16) :: Nat.digitChar (c.toNat % 16) ::
      rest) = some (some c, rest) := by
  have hzero : Text.hexDigit? '0' = some 0 := by decide
  have hhigh := hexDigit?_digitChar (n := c.toNat / 16) (by omega)
  have hlow := hexDigit?_digitChar (n := c.toNat % 16) (by omega)
  have hunit : ((0 * 16 + 0) * 16 + c.toNat / 16) * 16 + c.toNat % 16 = c.toNat := by omega
  have hsmall : ¬ 0xD800 ≤ c.toNat := by omega
  have hsmall' : ¬ 0xDC00 ≤ c.toNat := by omega
  simp only [escape?, codeEscape?, hex4?, hzero, hhigh, hlow, hunit, Option.bind_eq_bind,
    Option.bind_some, hsmall, hsmall', decide_false, Bool.false_and, Bool.false_eq_true, if_false,
    Char.ofNat_toNat]

/-- The escape of one character is read in one step. -/
theorem unquote?_escape (fuel : Nat) (c : Char) (rest : List Char) :
    unquote? (fuel + 1) (escape c ++ rest) =
      (unquote? fuel rest).map fun (text?, rest) => (text?.map (c :: ·), rest) := by
  have step (tail : List Char) (h : escape? tail = some (some c, rest)) :
      unquote? (fuel + 1) ('\\' :: tail) =
        (unquote? fuel rest).map fun (text?, rest) => (text?.map (c :: ·), rest) := by
    rw [unquote?, h]
    simp only [Option.bind_eq_bind, Option.bind_some]
    cases unquote? fuel rest <;> rfl
  rw [escape]
  by_cases h1 : c = '"'
  · subst h1; exact step _ rfl
  by_cases h2 : c = '\\'
  · subst h2; exact step _ rfl
  by_cases h3 : c = '\n'
  · subst h3; exact step _ rfl
  by_cases h4 : c = '\r'
  · subst h4; exact step _ rfl
  by_cases h5 : c = '\t'
  · subst h5; exact step _ rfl
  by_cases h6 : c.toNat = 8
  · have hc : c = Char.ofNat 8 := by rw [← h6, Char.ofNat_toNat]
    subst hc; exact step _ rfl
  by_cases h7 : c.toNat = 12
  · have hc : c = Char.ofNat 12 := by rw [← h7, Char.ofNat_toNat]
    subst hc; exact step _ rfl
  by_cases h8 : c.toNat < 32
  · simp only [h1, h2, h3, h4, h5, h6, h7, h8, beq_iff_eq, if_true, if_false]
    exact step _ (escape?_control h8 rest)
  · simp only [h1, h2, h3, h4, h5, h6, h7, h8, beq_iff_eq, if_false, List.cons_append,
      List.nil_append]
    rw [unquote?]
    · simp only [h8, if_false]
      cases unquote? fuel rest <;> rfl
    · exact h1
    · exact h2

theorem unquote?_escapes {fuel : Nat} {cs : List Char} (h : cs.length < fuel)
    (tail : List Char) :
    unquote? fuel (cs.flatMap escape ++ '"' :: tail) = some (some cs, tail) := by
  induction cs generalizing fuel with
  | nil =>
    obtain ⟨fuel, rfl⟩ : ∃ n, fuel = n + 1 := ⟨fuel - 1, by simp at h; omega⟩
    rfl
  | cons c cs ih =>
    obtain ⟨fuel, rfl⟩ : ∃ n, fuel = n + 1 := ⟨fuel - 1, by simp at h; omega⟩
    rw [List.flatMap_cons, List.append_assoc, unquote?_escape, ih (by simpa using h)]
    rfl

theorem length_escape_pos (c : Char) : 0 < (escape c).length := by
  have hne : escape c ≠ [] := by
    unfold escape
    grind
  exact List.length_pos_iff.mpr hne

theorem length_le_escapes (cs : List Char) : cs.length ≤ (cs.flatMap escape).length := by
  induction cs with
  | nil => simp
  | cons c cs ih =>
    have := length_escape_pos c
    simp only [List.flatMap_cons, List.length_append, List.length_cons]
    omega

/-- A quoted text reads back. -/
theorem string?_escapes (s : String) (tail : List Char) :
    string? (s.toList.flatMap escape ++ '"' :: tail) = some (some s, tail) := by
  have hfuel : s.toList.length <
      (s.toList.flatMap escape ++ '"' :: tail).length + 1 := by
    have := length_le_escapes s.toList
    simp only [List.length_append, List.length_cons]
    omega
  rw [string?, unquote?_escapes hfuel]
  simp

/-! ### Layouts -/

mutual

/-- A value as it is read back. -/
def reread : Json → Json
  | .int n => rereadInt n
  | .arr items => .arr (rereadItems items)
  | .obj fields => .obj (rereadFields fields)
  | other => other

def rereadItems : List Json → List Json
  | [] => []
  | item :: rest => reread item :: rereadItems rest

def rereadFields : List (String × Json) → List (String × Json)
  | [] => []
  | (key, value) :: rest => (key, reread value) :: rereadFields rest

end

mutual

/-- Whether the value has no reals and no flaws and is nested at most `depth` deep. -/
def isShallow (depth : Nat) : Json → Bool
  | .arr items => decide (0 < depth) && itemsShallow (depth - 1) items
  | .obj fields => decide (0 < depth) && fieldsShallow (depth - 1) fields
  | .real _ => false
  | .flawed => false
  | _ => true

def itemsShallow (depth : Nat) : List Json → Bool
  | [] => true
  | item :: rest => isShallow depth item && itemsShallow depth rest

def fieldsShallow (depth : Nat) : List (String × Json) → Bool
  | [] => true
  | (_, value) :: rest => isShallow depth value && fieldsShallow depth rest

end

/-- The gaps of a layout: in front of an item or a closing sign at a depth, and behind a colon. -/
structure Gaps where
  line : Nat → List Char
  colon : List Char
  line_gap : ∀ depth, ∀ c ∈ line depth, isGap c = true
  colon_gap : ∀ c ∈ colon, isGap c = true

mutual

/-- A value with gaps, in front of the text that follows it. -/
def layoutChars (g : Gaps) (depth : Nat) : Json → List Char → List Char
  | .arr [], tail => '[' :: ']' :: tail
  | .arr items, tail =>
    '[' :: layoutItems g (depth + 1) true items (g.line depth ++ ']' :: tail)
  | .obj [], tail => '{' :: '}' :: tail
  | .obj fields, tail =>
    '{' :: layoutFields g (depth + 1) true fields (g.line depth ++ '}' :: tail)
  | other, tail => leafText other ++ tail

def layoutItems (g : Gaps) (depth : Nat) (first : Bool) : List Json → List Char → List Char
  | [], tail => tail
  | item :: rest, tail =>
    let text := g.line depth ++ layoutChars g depth item (layoutItems g depth false rest tail)
    if first then text else ',' :: text

def layoutFields (g : Gaps) (depth : Nat) (first : Bool) :
    List (String × Json) → List Char → List Char
  | [], tail => tail
  | (key, value) :: rest, tail =>
    let text := g.line depth ++ quote key ++ ':' :: (g.colon ++
      layoutChars g depth value (layoutFields g depth false rest tail))
    if first then text else ',' :: text

end

def Gaps.none : Gaps where
  line _ := []
  colon := []
  line_gap := by simp
  colon_gap := by simp

/-- Every item on a line of its own. -/
def Gaps.lines : Gaps where
  line := newline
  colon := [' ']
  line_gap := by
    intro depth c hc
    rcases List.mem_cons.mp hc with rfl | hc
    · rfl
    · rw [(List.mem_replicate.mp hc).2]
      rfl
  colon_gap := by
    intro c hc
    rw [List.mem_singleton.mp hc]
    rfl

mutual

theorem compactChars_eq_layout (depth : Nat) :
    ∀ (j : Json) (tail : List Char), compactChars j tail = layoutChars .none depth j tail
  | .arr [], tail => rfl
  | .arr (item :: rest), tail => by
    rw [compactChars, layoutChars, compactItems_eq_layout (depth + 1)]
    · rfl
    · simp
  | .obj [], tail => rfl
  | .obj (field :: rest), tail => by
    rw [compactChars, layoutChars, compactFields_eq_layout (depth + 1)]
    · rfl
    · simp
  | .null, tail => rfl
  | .bool _, tail => rfl
  | .int _, tail => rfl
  | .real _, tail => rfl
  | .str _, tail => rfl
  | .flawed, tail => rfl

theorem compactItems_eq_layout (depth : Nat) (first : Bool) :
    ∀ (items : List Json) (tail : List Char),
      compactItems first items tail = layoutItems .none depth first items tail
  | [], tail => rfl
  | item :: rest, tail => by
    rw [compactItems, layoutItems, compactItems_eq_layout depth false rest,
      compactChars_eq_layout depth item]
    rfl

theorem compactFields_eq_layout (depth : Nat) (first : Bool) :
    ∀ (fields : List (String × Json)) (tail : List Char),
      compactFields first fields tail = layoutFields .none depth first fields tail
  | [], tail => rfl
  | (key, value) :: rest, tail => by
    rw [compactFields, layoutFields, compactFields_eq_layout depth false rest,
      compactChars_eq_layout depth value]
    rfl

end

mutual

theorem prettyChars_eq_layout (depth : Nat) :
    ∀ (j : Json) (tail : List Char), prettyChars depth j tail = layoutChars .lines depth j tail
  | .arr [], tail => rfl
  | .arr (item :: rest), tail => by
    rw [prettyChars, layoutChars, prettyItems_eq_layout (depth + 1)]
    · rfl
    · simp
    · simp
  | .obj [], tail => rfl
  | .obj (field :: rest), tail => by
    rw [prettyChars, layoutChars, prettyFields_eq_layout (depth + 1)]
    · rfl
    · simp
    · simp
  | .null, tail => rfl
  | .bool _, tail => rfl
  | .int _, tail => rfl
  | .real _, tail => rfl
  | .str _, tail => rfl
  | .flawed, tail => rfl

theorem prettyItems_eq_layout (depth : Nat) (first : Bool) :
    ∀ (items : List Json) (tail : List Char),
      prettyItems depth first items tail = layoutItems .lines depth first items tail
  | [], tail => rfl
  | item :: rest, tail => by
    rw [prettyItems, layoutItems, prettyItems_eq_layout depth false rest,
      prettyChars_eq_layout depth item]
    rfl

theorem prettyFields_eq_layout (depth : Nat) (first : Bool) :
    ∀ (fields : List (String × Json)) (tail : List Char),
      prettyFields depth first fields tail = layoutFields .lines depth first fields tail
  | [], tail => rfl
  | (key, value) :: rest, tail => by
    rw [prettyFields, layoutFields, prettyFields_eq_layout depth false rest,
      prettyChars_eq_layout depth value]
    simp [Gaps.lines]

end

/-! ### Lengths of layouts -/

theorem leafText_ne_nil {j : Json} (ha : ∀ items, j ≠ .arr items) (ho : ∀ fields, j ≠ .obj fields) :
    leafText j ≠ [] := by
  cases j with
  | null => simp [leafText]
  | bool b => cases b <;> simp [leafText]
  | int n =>
    simp only [leafText, intText, Text.ofNat, String.toList_ofList]
    split
    · simp
    · exact Nat.toDigits_ne_nil
  | real number => simp [leafText, decimalText]
  | str s => simp [leafText, quote]
  | arr items => exact absurd rfl (ha items)
  | obj fields => exact absurd rfl (ho fields)
  | flawed => simp [leafText]

mutual

theorem length_lt_layoutChars (g : Gaps) (depth : Nat) :
    ∀ (j : Json) (tail : List Char), tail.length < (layoutChars g depth j tail).length
  | .arr [], tail => by
    simp only [layoutChars, List.length_cons]
    omega
  | .arr (item :: rest), tail => by
    have := length_le_layoutItems g (depth + 1) true (item :: rest) (g.line depth ++ ']' :: tail)
    simp only [List.length_append, List.length_cons] at this
    simp only [layoutChars, List.length_cons]
    omega
  | .obj [], tail => by
    simp only [layoutChars, List.length_cons]
    omega
  | .obj (field :: rest), tail => by
    have := length_le_layoutFields g (depth + 1) true (field :: rest) (g.line depth ++ '}' :: tail)
    simp only [List.length_append, List.length_cons] at this
    simp only [layoutChars, List.length_cons]
    omega
  | .null, tail => length_lt_leaf tail (by simp) (by simp)
  | .bool b, tail => length_lt_leaf tail (j := .bool b) (by simp) (by simp)
  | .int n, tail => length_lt_leaf tail (j := .int n) (by simp) (by simp)
  | .real d, tail => length_lt_leaf tail (j := .real d) (by simp) (by simp)
  | .str s, tail => length_lt_leaf tail (j := .str s) (by simp) (by simp)
  | .flawed, tail => length_lt_leaf tail (j := .flawed) (by simp) (by simp)
where
  length_lt_leaf {j : Json} (tail : List Char) (ha : ∀ items, j ≠ .arr items)
      (ho : ∀ fields, j ≠ .obj fields) : tail.length < (leafText j ++ tail).length := by
    have := List.length_pos_iff.mpr (leafText_ne_nil ha ho)
    rw [List.length_append]
    omega

theorem length_le_layoutItems (g : Gaps) (depth : Nat) (first : Bool) :
    ∀ (items : List Json) (tail : List Char),
      tail.length ≤ (layoutItems g depth first items tail).length
  | [], tail => Nat.le_refl _
  | item :: rest, tail => by
    have hrest := length_le_layoutItems g depth false rest tail
    have hitem := length_lt_layoutChars g depth item (layoutItems g depth false rest tail)
    rw [layoutItems]
    split <;> simp only [List.length_append, List.length_cons] <;> omega

theorem length_le_layoutFields (g : Gaps) (depth : Nat) (first : Bool) :
    ∀ (fields : List (String × Json)) (tail : List Char),
      tail.length ≤ (layoutFields g depth first fields tail).length
  | [], tail => Nat.le_refl _
  | (key, value) :: rest, tail => by
    have hrest := length_le_layoutFields g depth false rest tail
    have hvalue := length_lt_layoutChars g depth value (layoutFields g depth false rest tail)
    rw [layoutFields]
    split <;> simp only [List.length_append, List.length_cons] <;> omega

end

/-! ### Reading a layout -/

theorem skipGap_append {gap : List Char} (h : ∀ c ∈ gap, isGap c = true) (cs : List Char) :
    skipGap (gap ++ cs) = skipGap cs := by
  rw [skipGap, List.dropWhile_append_of_pos h, skipGap]

theorem skipGap_cons {c : Char} (h : isGap c = false) (cs : List Char) :
    skipGap (c :: cs) = c :: cs := by
  simp [skipGap, h]

theorem value?_append {gap : List Char} (h : ∀ c ∈ gap, isGap c = true) (depth fuel : Nat)
    (cs : List Char) : value? depth fuel (gap ++ cs) = value? depth fuel cs := by
  cases fuel with
  | zero => rfl
  | succ fuel => rw [value?, value?, skipGap_append h]

theorem items?_append {gap : List Char} (h : ∀ c ∈ gap, isGap c = true) (depth fuel : Nat)
    (cs : List Char) : items? depth fuel (gap ++ cs) = items? depth fuel cs := by
  cases fuel with
  | zero => rfl
  | succ fuel => rw [items?, items?, value?_append h]

theorem fields?_append {gap : List Char} (h : ∀ c ∈ gap, isGap c = true) (depth fuel : Nat)
    (cs : List Char) : fields? depth fuel (gap ++ cs) = fields? depth fuel cs := by
  cases fuel with
  | zero => rfl
  | succ fuel => rw [fields?, fields?, skipGap_append h]

theorem endsNumber_append {gap rest : List Char} (h : ∀ c ∈ gap, isGap c = true)
    (hr : endsNumber rest = true) : endsNumber (gap ++ rest) = true := by
  cases gap with
  | nil => exact hr
  | cons c gap =>
    have hc := h c List.mem_cons_self
    simp only [isGap, Bool.or_eq_true, beq_iff_eq] at hc
    obtain ((rfl | rfl) | rfl) | rfl := hc <;> rfl

/-- Behind an item there is a comma, or what closes the list. -/
theorem endsNumber_layoutItems (g : Gaps) (depth : Nat) (items : List Json) {tail : List Char}
    (h : endsNumber tail = true) : endsNumber (layoutItems g depth false items tail) = true := by
  cases items with
  | nil => exact h
  | cons item rest => simp [layoutItems, endsNumber]

theorem endsNumber_layoutFields (g : Gaps) (depth : Nat) (fields : List (String × Json))
    {tail : List Char} (h : endsNumber tail = true) :
    endsNumber (layoutFields g depth false fields tail) = true := by
  cases fields with
  | nil => exact h
  | cons field rest => simp [layoutFields, endsNumber]

/-- A text that starts like a number is read as one. -/
theorem value?_number {c : Char} (h : c.isDigit = true ∨ c = '-') (depth fuel : Nat)
    (cs : List Char) : value? depth (fuel + 1) (c :: cs) = number? (c :: cs) := by
  have hne (d : Char) (hd : d.isDigit = false) (hm : d ≠ '-') : c ≠ d := by
    rintro rfl
    simp [hd, hm] at h
  have hgap : isGap c = false := by
    simp only [isGap, Bool.or_eq_false_iff, beq_eq_false_iff_ne]
    exact ⟨⟨⟨hne _ rfl (by decide), hne _ rfl (by decide)⟩, hne _ rfl (by decide)⟩,
      hne _ rfl (by decide)⟩
  rw [value?, skipGap_cons hgap]
  have h1 := hne '"' rfl (by decide)
  have h2 := hne '[' rfl (by decide)
  have h3 := hne '{' rfl (by decide)
  have h4 := hne 'n' rfl (by decide)
  have h5 := hne 't' rfl (by decide)
  have h6 := hne 'f' rfl (by decide)
  simp [h1, h2, h3, h4, h5, h6]

theorem value?_intText (n : Int) (depth fuel : Nat) {tail : List Char}
    (h : endsNumber tail = true) :
    value? depth (fuel + 1) (intText n ++ tail) = some (rereadInt n, tail) := by
  rw [← number?_intText n h]
  by_cases hn : n < 0
  · simp only [intText, hn, if_true, List.cons_append]
    exact value?_number (.inr rfl) _ _ _
  · simp only [intText, hn, if_false, Text.ofNat, String.toList_ofList]
    cases hd : Nat.toDigits 10 n.natAbs with
    | nil => exact absurd hd Nat.toDigits_ne_nil
    | cons d ds =>
      have hdigit : d.isDigit = true := isDigit_toDigits (n := n.natAbs) (by simp [hd])
      exact value?_number (.inl hdigit) _ _ _

/-- Fields as the reader finds them, with keys that could be read. -/
def found (fields : List (String × Json)) : List (Option String × Json) :=
  fields.map fun f => (some f.1, f.2)

theorem fieldsValue_found (fields : List (String × Json)) :
    fieldsValue (found fields) = .obj fields := by
  have h : (found fields).mapM (fun f => f.1.map fun key => (key, f.2)) = some fields := by
    induction fields with
    | nil => rfl
    | cons f rest ih =>
      rw [found, List.map_cons, List.mapM_cons]
      rw [found] at ih
      simp [ih]
  rw [fieldsValue, h]

theorem atDepth_pos {depth : Nat} (h : 0 < depth) (value : Json) : atDepth depth value = value := by
  rw [atDepth, if_neg (by omega)]

/-- The signs a value can start with. -/
def opensValue (c : Char) : Bool := c.isDigit || ['-', '"', '[', '{', 'n', 't', 'f'].contains c

theorem opensValue_digit {c : Char} (h : c.isDigit = true) : opensValue c = true := by
  simp [opensValue, h]

theorem not_gap_of_opensValue {c : Char} (h : opensValue c = true) : isGap c = false := by
  cases hg : isGap c with
  | false => rfl
  | true =>
    simp only [isGap, Bool.or_eq_true, beq_iff_eq] at hg
    obtain ((rfl | rfl) | rfl) | rfl := hg <;> exact absurd h (by decide)

theorem intText_starts (n : Int) : ∃ c cs, intText n = c :: cs ∧ opensValue c = true := by
  by_cases hn : n < 0
  · exact ⟨'-', (Text.ofNat n.natAbs).toList, by simp [intText, hn], by decide⟩
  · cases hd : Nat.toDigits 10 n.natAbs with
    | nil => exact absurd hd Nat.toDigits_ne_nil
    | cons d ds =>
      refine ⟨d, ds, by simp [intText, hn, Text.ofNat, hd], opensValue_digit ?_⟩
      exact isDigit_toDigits (n := n.natAbs) (by simp [hd])

/-- A value that is written starts with a sign that tells what it is. -/
theorem layoutChars_starts (g : Gaps) (depth limit : Nat) {j : Json} (h : isShallow limit j = true)
    (tail : List Char) : ∃ c cs, layoutChars g depth j tail = c :: cs ∧ opensValue c = true := by
  cases j with
  | null => exact ⟨'n', ['u', 'l', 'l'] ++ tail, by simp [layoutChars, leafText], by decide⟩
  | bool b =>
    cases b with
    | true => exact ⟨'t', ['r', 'u', 'e'] ++ tail, by simp [layoutChars, leafText], by decide⟩
    | false =>
      exact ⟨'f', ['a', 'l', 's', 'e'] ++ tail, by simp [layoutChars, leafText], by decide⟩
  | int n =>
    obtain ⟨c, cs, hcs, hc⟩ := intText_starts n
    exact ⟨c, cs ++ tail, by simp [layoutChars, leafText, hcs], hc⟩
  | real d => simp [isShallow] at h
  | str s => exact ⟨'"', _, rfl, by decide⟩
  | arr items => cases items <;> exact ⟨'[', _, rfl, by decide⟩
  | obj fields => cases fields <;> exact ⟨'{', _, rfl, by decide⟩
  | flawed => simp [isShallow] at h

/-- The step into a list that is not empty. -/
theorem value?_items {depth fuel : Nat} {c : Char} {gap text : List Char}
    (hgap : ∀ d ∈ gap, isGap d = true) (hc : opensValue c = true) :
    value? depth (fuel + 1) ('[' :: (gap ++ c :: text)) =
      (items? (depth - 1) fuel (c :: text)).map fun (items, rest) =>
        (atDepth depth (.arr items), rest) := by
  have hne : c ≠ ']' := by
    rintro rfl
    exact absurd hc (by decide)
  rw [value?, skipGap_cons (by decide)]
  simp only [skipGap_append hgap, skipGap_cons (not_gap_of_opensValue hc)]
  split
  · next heq =>
    simp only [List.cons.injEq] at heq
    exact absurd heq.1 hne
  · rfl

/-- The step into an object that is not empty. -/
theorem value?_fields {depth fuel : Nat} {gap text : List Char}
    (hgap : ∀ d ∈ gap, isGap d = true) :
    value? depth (fuel + 1) ('{' :: (gap ++ '"' :: text)) =
      (fields? (depth - 1) fuel ('"' :: text)).map fun (fields, rest) =>
        (atDepth depth (fieldsValue fields), rest) := by
  rw [value?, skipGap_cons (by decide)]
  simp only [skipGap_append hgap, skipGap_cons (show isGap '"' = false from by decide)]
  rfl

mutual

/-- A value that is written, in front of anything that does not continue it, is read as it comes
back. Two steps for each character of its text are enough. -/
theorem value?_layoutChars (g : Gaps) (depth : Nat) :
    ∀ (j : Json) (limit fuel : Nat) (tail : List Char), isShallow limit j = true →
      endsNumber tail = true →
      2 * (layoutChars g depth j tail).length ≤ fuel + 2 * tail.length →
      value? limit fuel (layoutChars g depth j tail) = some (reread j, tail)
  | j, limit, 0, tail, _, _, hf => by
    have := length_lt_layoutChars g depth j tail
    omega
  | .null, limit, fuel + 1, tail, _, _, _ => by
    simp [layoutChars, leafText, value?, skipGap_cons, isGap, word?, reread]
  | .bool true, limit, fuel + 1, tail, _, _, _ => by
    simp [layoutChars, leafText, value?, skipGap_cons, isGap, word?, reread]
  | .bool false, limit, fuel + 1, tail, _, _, _ => by
    simp [layoutChars, leafText, value?, skipGap_cons, isGap, word?, reread]
  | .int n, limit, fuel + 1, tail, _, ht, _ => value?_intText n limit fuel ht
  | .real _, limit, fuel + 1, tail, hs, _, _ => by simp [isShallow] at hs
  | .flawed, limit, fuel + 1, tail, hs, _, _ => by simp [isShallow] at hs
  | .str s, limit, fuel + 1, tail, _, _, _ => by
    rw [layoutChars, leafText, quote, List.cons_append, List.append_assoc, value?,
      skipGap_cons (by decide)]
    · simp only [List.cons_append, List.nil_append, string?_escapes, Option.map_some, textValue,
        reread]
    all_goals simp
  | .arr [], limit, fuel + 1, tail, hs, _, _ => by
    simp only [isShallow, Bool.and_eq_true, decide_eq_true_eq] at hs
    simp [layoutChars, value?, skipGap_cons, isGap, atDepth_pos hs.1, reread, rereadItems]
  | .arr (item :: rest), limit, fuel + 1, tail, hs, _, hf => by
    simp only [isShallow, Bool.and_eq_true, decide_eq_true_eq] at hs
    have hitems := items?_layoutItems g (depth + 1) (item :: rest) (limit - 1) fuel
      (g.line depth) tail (by simp) hs.2 (g.line_gap depth) (by
        simp only [layoutChars, List.length_cons] at hf
        omega)
    have hfirst : isShallow (limit - 1) item = true := by
      simp only [itemsShallow, Bool.and_eq_true] at hs
      exact hs.2.1
    rw [layoutChars]
    · rw [layoutItems, if_pos rfl] at hitems ⊢
      obtain ⟨c, cs, hcs, hc⟩ := layoutChars_starts g (depth + 1) (limit - 1) hfirst
        (layoutItems g (depth + 1) false rest (g.line depth ++ ']' :: tail))
      rw [hcs] at hitems ⊢
      rw [items?_append (g.line_gap _)] at hitems
      rw [value?_items (g.line_gap _) hc, hitems, reread]
      simp only [Option.map_some, atDepth_pos hs.1]
    · simp
  | .obj [], limit, fuel + 1, tail, hs, _, _ => by
    simp only [isShallow, Bool.and_eq_true, decide_eq_true_eq] at hs
    simp [layoutChars, value?, skipGap_cons, isGap, atDepth_pos hs.1, reread, rereadFields]
  | .obj ((key, value) :: rest), limit, fuel + 1, tail, hs, _, hf => by
    simp only [isShallow, Bool.and_eq_true, decide_eq_true_eq] at hs
    have hfields := fields?_layoutFields g (depth + 1) ((key, value) :: rest) (limit - 1) fuel
      (g.line depth) tail (by simp) hs.2 (g.line_gap depth) (by
        simp only [layoutChars, List.length_cons] at hf
        omega)
    rw [layoutChars]
    · rw [layoutFields, if_pos rfl, quote, List.append_assoc, List.cons_append] at hfields ⊢
      rw [fields?_append (g.line_gap _)] at hfields
      rw [value?_fields (g.line_gap _), hfields, reread]
      simp only [Option.map_some, fieldsValue_found, atDepth_pos hs.1]
    · simp

theorem items?_layoutItems (g : Gaps) (depth : Nat) :
    ∀ (items : List Json) (limit fuel : Nat) (gap tail : List Char), items ≠ [] →
      itemsShallow limit items = true → (∀ c ∈ gap, isGap c = true) →
      2 * (layoutItems g depth true items (gap ++ ']' :: tail)).length + 1 ≤
        fuel + 2 * tail.length →
      items? limit fuel (layoutItems g depth true items (gap ++ ']' :: tail)) =
        some (rereadItems items, tail)
  | [], _, _, _, _, hne, _, _, _ => absurd rfl hne
  | item :: rest, limit, 0, gap, tail, _, _, _, hf => by
    have := length_le_layoutItems g depth true (item :: rest) (gap ++ ']' :: tail)
    simp only [List.length_append, List.length_cons] at this
    omega
  | item :: rest, limit, fuel + 1, gap, tail, _, hs, hgap, hf => by
    simp only [itemsShallow, Bool.and_eq_true] at hs
    rw [layoutItems, if_pos rfl] at hf ⊢
    -- what stands behind the item
    have hends : endsNumber (layoutItems g depth false rest (gap ++ ']' :: tail)) = true :=
      endsNumber_layoutItems g depth rest (endsNumber_append hgap rfl)
    have hle := length_le_layoutItems g depth false rest (gap ++ ']' :: tail)
    have hlt := length_lt_layoutChars g depth item (layoutItems g depth false rest
      (gap ++ ']' :: tail))
    simp only [List.length_append, List.length_cons] at hf hle
    have hvalue := value?_layoutChars g depth item limit fuel _ hs.1 hends (by omega)
    rw [items?, value?_append (g.line_gap depth), hvalue]
    simp only [Option.bind_eq_bind, Option.bind_some, rereadItems]
    cases rest with
    | nil => simp [layoutItems, skipGap_append hgap, skipGap_cons, isGap, rereadItems]
    | cons next others =>
      have hmore := items?_layoutItems g depth (next :: others) limit fuel gap tail (by simp) hs.2
        hgap (by
          simp only [layoutItems, Bool.false_eq_true, if_false, List.length_cons] at hlt hf
          simp only [layoutItems, if_true]
          omega)
      have hcomma : layoutItems g depth false (next :: others) (gap ++ ']' :: tail) =
          ',' :: layoutItems g depth true (next :: others) (gap ++ ']' :: tail) := by
        simp [layoutItems]
      rw [hcomma, skipGap_cons (by decide)]
      simp [hmore]

theorem fields?_layoutFields (g : Gaps) (depth : Nat) :
    ∀ (fields : List (String × Json)) (limit fuel : Nat) (gap tail : List Char), fields ≠ [] →
      fieldsShallow limit fields = true → (∀ c ∈ gap, isGap c = true) →
      2 * (layoutFields g depth true fields (gap ++ '}' :: tail)).length + 1 ≤
        fuel + 2 * tail.length →
      fields? limit fuel (layoutFields g depth true fields (gap ++ '}' :: tail)) =
        some (found (rereadFields fields), tail)
  | [], _, _, _, _, hne, _, _, _ => absurd rfl hne
  | (key, value) :: rest, limit, 0, gap, tail, _, _, _, hf => by
    have := length_le_layoutFields g depth true ((key, value) :: rest) (gap ++ '}' :: tail)
    simp only [List.length_append, List.length_cons] at this
    omega
  | (key, value) :: rest, limit, fuel + 1, gap, tail, _, hs, hgap, hf => by
    simp only [fieldsShallow, Bool.and_eq_true] at hs
    rw [layoutFields, if_pos rfl, quote, List.append_assoc, List.cons_append, List.append_assoc]
      at hf ⊢
    have hends : endsNumber (layoutFields g depth false rest (gap ++ '}' :: tail)) = true :=
      endsNumber_layoutFields g depth rest (endsNumber_append hgap rfl)
    have hle := length_le_layoutFields g depth false rest (gap ++ '}' :: tail)
    have hlt := length_lt_layoutChars g depth value (layoutFields g depth false rest
      (gap ++ '}' :: tail))
    simp only [List.length_append, List.length_cons, List.length_nil] at hf hle
    have hvalue := value?_layoutChars g depth value limit fuel _ hs.1 hends (by omega)
    rw [fields?_append (g.line_gap depth), fields?, skipGap_cons (by decide)]
    simp only [List.cons_append, List.nil_append, string?_escapes, Option.bind_eq_bind,
      Option.bind_some, skipGap_cons (show isGap ':' = false from by decide),
      value?_append g.colon_gap, hvalue, rereadFields]
    cases rest with
    | nil => simp [layoutFields, skipGap_append hgap, skipGap_cons, isGap, rereadFields, found]
    | cons next others =>
      have hmore := fields?_layoutFields g depth (next :: others) limit fuel gap tail (by simp)
        hs.2 hgap (by
          simp only [layoutFields, Bool.false_eq_true, if_false, List.length_cons] at hlt hf
          simp only [layoutFields, if_true]
          omega)
      have hcomma : layoutFields g depth false (next :: others) (gap ++ '}' :: tail) =
          ',' :: layoutFields g depth true (next :: others) (gap ++ '}' :: tail) := by
        simp [layoutFields]
      rw [hcomma, skipGap_cons (by decide)]
      simp [hmore, found]

end

/-- A layout that fills a text is read as its value comes back. -/
theorem skim?_layoutChars (g : Gaps) {j : Json} (h : isShallow depthLimit j = true) :
    skim? (String.ofList (layoutChars g 0 j [])) = some (reread j) := by
  have hvalue := value?_layoutChars g 0 j depthLimit
    (2 * (layoutChars g 0 j []).length + 2) [] h rfl (by omega)
  rw [skim?, String.toList_ofList]
  simp only [hvalue, Option.bind_eq_bind, Option.bind_some, skipGap, List.dropWhile_nil,
    List.isEmpty_nil, if_true]

theorem skim?_compact {j : Json} (h : isShallow depthLimit j = true) :
    skim? j.compact = some (reread j) := by
  rw [compact, compactChars_eq_layout 0]
  exact skim?_layoutChars .none h

theorem skim?_pretty {j : Json} (h : isShallow depthLimit j = true) :
    skim? j.pretty = some (reread j) := by
  rw [pretty, prettyChars_eq_layout 0]
  exact skim?_layoutChars .lines h

end ApiDoc.Json
