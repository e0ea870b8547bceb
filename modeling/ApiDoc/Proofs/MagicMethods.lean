import ApiDoc.Proofs.Cuts
import ApiDoc.Proofs.Reflection
import ApiDoc.Proofs.TagForms

/-!
# Magic methods that are written and read again

`MagicMethod` is what a tag says of a method, and `MagicMethod.render` the tag as it is written.
Main statement: the tag is read as it was meant, unless the name has letters that tags do not read
in names, or the call is taken for the types of another method (`MagicMethod.Eclipsed`). The latter
happens where no types are written, no blank stands within the call, and the description reads as a
call itself.
-/

namespace ApiDoc

open scoped Text

namespace Text

theorem cut?_eq_some_iff {c : Char} {cs front behind : List Char} :
    cut? [c] cs = some (front, behind) ↔ c ∉ front ∧ cs = front ++ c :: behind := by
  have hcut {before after : List Char} (h : c ∉ before) :
      cut? [c] (before ++ c :: after) = some (before, after) := by
    have hwhole : before ++ c :: after = before ++ [c] ++ after := by simp
    rw [hwhole]
    exact cut?_append_of_not_mem h
  constructor
  · intro h
    have hmem : c ∈ cs := by
      rw [← append_of_cut? h]
      simp
    obtain ⟨before, after, rfl, hbefore⟩ := List.eq_append_cons_of_mem hmem
    obtain ⟨rfl, rfl⟩ : before = front ∧ after = behind := by
      simpa [hcut hbefore] using h
    exact ⟨hbefore, rfl⟩
  · rintro ⟨hfront, rfl⟩
    exact hcut hfront

theorem length_trim_le (cs : List Char) : (trim cs).length ≤ cs.length :=
  (trim_sublist cs).length_le

end Text

namespace Tag

open Text (isBlank trim trimStart IsWord)

/-! ### Calls -/

/-- A name as tags read it. -/
structure IsMethodName (name : List Char) : Prop where
  nonempty : name ≠ []
  isMethodChar : ∀ c ∈ name, Tag.isMethodChar c = true
  head : ∀ c ∈ name.head?, c.isDigit = false

/-- A text that reads as a call: a name, arguments in parentheses behind it, perhaps after blanks,
and what follows. -/
inductive Call : List Char → List Char → List Char → List Char → Prop
  | intro {name gap arguments behind : List Char} :
    IsMethodName name → (∀ c ∈ gap, isBlank c = true) → ')' ∉ arguments →
    Call (name ++ (gap ++ '(' :: (arguments ++ ')' :: behind))) name arguments behind

theorem Call.length_lt {cs name arguments behind : List Char} (h : Call cs name arguments behind) :
    behind.length < cs.length := by
  cases h
  simp only [List.length_append, List.length_cons]
  omega

def ofCall (isStatic : Bool) (types : List String) (name arguments behind : List Char) : Tag :=
  { name := "method", description := String.ofList (trim behind),
    body := .magicMethod (String.ofList name) types (Text.items ',' (String.ofList arguments))
      isStatic }

theorem isBlank_of_isMethodChar {c : Char} (h : isMethodChar c = true) : isBlank c = false := by
  simp only [isMethodChar, Bool.or_eq_true, Text.isAlphanum_iff, Text.le_iff_toNat, beq_iff_eq,
    Char.reduceToNat] at h
  rcases h with h | rfl
  · simp only [isBlank, Bool.or_eq_false_iff, Bool.and_eq_false_iff, decide_eq_false_iff_not,
      beq_eq_false_iff_ne]
    omega
  · decide

theorem IsMethodName.blankless {name : List Char} (h : IsMethodName name) :
    ∀ c ∈ name, isBlank c = false := fun c hc => isBlank_of_isMethodChar (h.isMethodChar c hc)

section Calls

variable {isStatic : Bool} {types : List String} {cs : List Char} {t : Tag}

/-- A parenthesis ends a name, also behind blanks. -/
theorem head?_paren {gap : List Char} (hgap : ∀ c ∈ gap, isBlank c = true) (rest : List Char) :
    ∀ c ∈ (gap ++ '(' :: rest).head?, isMethodChar c = false := by
  intro c hc
  cases gap with
  | nil =>
    obtain rfl : '(' = c := by simpa using hc
    decide
  | cons d gap =>
    obtain rfl : d = c := by simpa using hc
    exact Bool.eq_false_iff.mpr fun h =>
      absurd (isBlank_of_isMethodChar h) (by simp [hgap d List.mem_cons_self])

/-- What reads as a call is read as one. -/
theorem Call.magicCall?_eq {name arguments behind : List Char}
    (h : Call cs name arguments behind) :
    magicCall? isStatic types cs = some (ofCall isStatic types name arguments behind) := by
  obtain @⟨_, gap, _, _, hname, hgap, harguments⟩ := h
  obtain ⟨htake, hdrop⟩ := InlineTag.span_eq hname.isMethodChar
    (head?_paren hgap (arguments ++ ')' :: behind))
  have hstart : trimStart (gap ++ '(' :: (arguments ++ ')' :: behind)) =
      '(' :: (arguments ++ ')' :: behind) := by
    rw [Text.trimStart_append hgap, Text.trimStart_cons_of_not_blank (by decide)]
  have hdigit : name.head?.any Char.isDigit = false := (Option.any_eq_false _ _).mpr hname.head
  have hcut : Text.cut? [')'] (arguments ++ ')' :: behind) = some (arguments, behind) :=
    Text.cut?_eq_some_iff.mpr ⟨harguments, rfl⟩
  simp only [magicCall?, htake, hdrop, hstart, hcut, hdigit,
    List.isEmpty_eq_false_iff.mpr hname.nonempty]
  rfl

/-- Nothing else is. -/
theorem exists_call (h : magicCall? isStatic types cs = some t) :
    ∃ name arguments behind, Call cs name arguments behind ∧
      t = ofCall isStatic types name arguments behind := by
  rw [magicCall?] at h
  split at h
  · cases h
  · next hname =>
    split at h
    · next rest hparen =>
      obtain ⟨⟨arguments, behind⟩, hcut, rfl⟩ := Option.map_eq_some_iff.mp h
      obtain ⟨harguments, rfl⟩ := Text.cut?_eq_some_iff.mp hcut
      rw [Bool.not_eq_true, Bool.or_eq_false_iff, List.isEmpty_eq_false_iff,
        Option.any_eq_false] at hname
      have hmethod : IsMethodName (cs.takeWhile isMethodChar) :=
        ⟨hname.1, fun c hc => List.mem_takeWhile_imp hc, hname.2⟩
      have hblank : ∀ c ∈ (cs.dropWhile isMethodChar).takeWhile isBlank, isBlank c = true :=
        fun c hc => List.mem_takeWhile_imp hc
      refine ⟨cs.takeWhile isMethodChar, arguments, behind, ?_, rfl⟩
      convert Call.intro hmethod hblank harguments using 1
      rw [← hparen, trimStart, List.takeWhile_append_dropWhile, List.takeWhile_append_dropWhile]
    · cases h

/-- A text in which a parenthesis is closed before one is opened is no call. -/
theorem magicCall?_eq_none {front : List Char} (h : '(' ∉ front) (back : List Char) :
    magicCall? isStatic types (front ++ ')' :: back) = none := by
  refine Option.eq_none_iff_forall_ne_some.mpr fun t ht => ?_
  obtain ⟨name, arguments, behind, hcall, -⟩ := exists_call ht
  generalize hcs : front ++ ')' :: back = cs at hcall
  obtain ⟨hname, hgap, -⟩ := hcall
  rw [← List.append_assoc, List.append_eq_append_iff] at hcs
  rcases hcs with ⟨more, hmore, hrest⟩ | ⟨more, hmore, hrest⟩
  · cases more with
    | nil => simp at hrest
    | cons c more =>
      obtain ⟨rfl, -⟩ := List.cons.inj hrest
      have hmem : ')' ∈ name ++ _ := hmore ▸ List.mem_append_right _ List.mem_cons_self
      rcases List.mem_append.mp hmem with hmem | hmem
      · exact absurd (hname.isMethodChar _ hmem) (by decide)
      · exact absurd (hgap _ hmem) (by decide)
  · cases more with
    | nil => simp at hrest
    | cons c more =>
      obtain ⟨rfl, -⟩ := List.cons.inj hrest
      exact h (hmore ▸ List.mem_append_right _ List.mem_cons_self)

/-- Whatever is read as a method, a call was read. -/
theorem exists_magicCall? (h : magicMethod? cs = some t) :
    ∃ isStatic types suffix, magicCall? isStatic types suffix = some t := by
  have htyped {isStatic : Bool} {cs : List Char} (h : magicTyped? isStatic cs = some t) :
      ∃ isStatic types suffix, magicCall? isStatic types suffix = some t := by
    rcases Option.or_eq_some_iff.mp h with h | ⟨-, h⟩
    · split at h
      · cases h
      · exact ⟨_, _, _, h⟩
    · exact ⟨_, _, _, h⟩
  rcases Option.or_eq_some_iff.mp h with h | ⟨-, h⟩
  · split at h
    split at h
    · exact htyped h
    · cases h
  · exact htyped h

/-- A word in front is read as types if a call follows it. -/
theorem magicTyped?_append {word : List Char} (h : IsWord word) (rest : List Char) :
    magicTyped? isStatic (word ++ ' ' :: rest) =
      (magicCall? isStatic (splitTypes (String.ofList word)) (trimStart rest)).or
        (magicCall? isStatic [] (word ++ ' ' :: rest)) := by
  simp only [magicTyped?, Text.spanWord_append_space h.blankless,
    List.isEmpty_eq_false_iff.mpr h.nonempty, List.isEmpty_cons, Bool.or_self, Bool.false_eq_true,
    if_false, Text.trimStart_cons_of_blank Text.isBlank_space]

/-- A word is not read as types if no call follows it. -/
theorem magicTyped?_of_none
    (h : ∀ types, magicCall? isStatic types (trimStart (Text.spanWord cs).2) = none) :
    magicTyped? isStatic cs = magicCall? isStatic [] cs := by
  simp only [magicTyped?, h, ite_self, Option.none_or]

/-- The modifier is read if a method follows it. -/
theorem magicMethod?_static {rest : List Char} (h : (magicTyped? true (trimStart rest)).isSome) :
    magicMethod? ("static".toList ++ ' ' :: rest) = magicTyped? true (trimStart rest) := by
  have hword : ∀ c ∈ "static".toList, isBlank c = false := by decide
  obtain ⟨t, ht⟩ := Option.isSome_iff_exists.mp h
  simp only [magicMethod?, Text.spanWord_append_space hword,
    Text.trimStart_cons_of_blank Text.isBlank_space, ht, beq_self_eq_true, List.isEmpty_cons,
    Bool.not_false, Bool.and_self, if_true, Option.some_or]

theorem magicMethod?_of_ne (h : (Text.spanWord cs).1 ≠ "static".toList) :
    magicMethod? cs = magicTyped? false cs := by
  have hword : ((Text.spanWord cs).1 == "static".toList) = false := by simpa using h
  simp only [magicMethod?, hword, Bool.false_and, Bool.false_eq_true, if_false, Option.none_or]

end Calls

end Tag

/-! ### Methods -/

/-- What a tag says of a method. -/
structure MagicMethod where
  isStatic : Bool
  types : List (List Char)
  name : List Char
  arguments : List (List Char)
  description : List Char

namespace MagicMethod

open Tag (Call IsMethodName IsTypeList magicCall? magicTyped? magicMethod? ofCall typeText)
open Text (isBlank joinWith trim trimStart IsTrimmed IsWord Trails)

def argumentText (m : MagicMethod) : List Char := joinWith [',', ' '] m.arguments

/-- The name with the arguments. -/
def call (m : MagicMethod) : List Char := m.name ++ '(' :: (m.argumentText ++ [')'])

/-- The types, if there are any, and the call. -/
def typedParts (m : MagicMethod) : List (List Char) :=
  if m.types.isEmpty then [m.call] else [typeText m.types, m.call]

/-- What stands between the name of the tag and the description. -/
def parts (m : MagicMethod) : List (List Char) :=
  if m.isStatic then "static".toList :: m.typedParts else m.typedParts

/-- The tag as it is written, with `tail` behind the call. -/
def render (m : MagicMethod) (tail : List Char) : List Char :=
  '@' :: (joinWith [' '] ("method".toList :: m.parts) ++ tail)

def tag (m : MagicMethod) : Tag :=
  { name := "method", description := String.ofList m.description,
    body := .magicMethod (String.ofList m.name) (m.types.map String.ofList)
      (m.arguments.map String.ofList) m.isStatic }

/-- The name is one that the sources of a project can give a method, the arguments hold no commas
and no parentheses, and the types are not to be confused with the modifier. -/
structure IsTidy (m : MagicMethod) : Prop where
  name_nonempty : m.name ≠ []
  name_start : ∀ c ∈ m.name.head?, Lexer.isNameStart c = true
  name_chars : ∀ c ∈ m.name, Lexer.isNameChar c = true
  arguments : ∀ a ∈ m.arguments, a ≠ [] ∧ IsTrimmed a ∧ ',' ∉ a ∧ '(' ∉ a ∧ ')' ∉ a
  types : m.types ≠ [] → IsTypeList m.types
  unmodified : typeText m.types ≠ "static".toList
  description : IsTrimmed m.description

/-- No types are written, no blank stands within the call, and the description reads as a call. -/
structure Eclipsed (m : MagicMethod) : Prop where
  untyped : m.types = []
  blankless : ∀ c ∈ m.argumentText, isBlank c = false
  description : ∃ name arguments behind, Call m.description name arguments behind

variable {m : MagicMethod} {tail : List Char}

/-! ### The parts of a tag -/

theorem isMethodName (h : m.IsTidy) (hchars : ∀ c ∈ m.name, Tag.isMethodChar c = true) :
    IsMethodName m.name where
  nonempty := h.name_nonempty
  isMethodChar := hchars
  head c hc := Lexer.isDigit_of_isNameStart (h.name_start c hc)

theorem isTrimmed_call (hname : IsMethodName m.name) : IsTrimmed m.call where
  front c hc := by
    rw [call, List.head?_append_of_ne_nil _ hname.nonempty] at hc
    exact hname.blankless c (List.mem_of_mem_head? hc)
  back c hc := by
    rw [call, ← List.cons_append, ← List.append_assoc, List.getLast?_concat] at hc
    obtain rfl : ')' = c := by simpa using hc
    decide

theorem call_ne_nil (m : MagicMethod) : m.call ≠ [] := by simp [call]

theorem joinWith_typedParts_of_nil (h : m.types = []) : joinWith [' '] m.typedParts = m.call := by
  rw [typedParts, h]
  rfl

theorem joinWith_typedParts_append (h : m.types ≠ []) (tail : List Char) :
    joinWith [' '] m.typedParts ++ tail = typeText m.types ++ ' ' :: (m.call ++ tail) := by
  rw [typedParts, if_neg (by simpa using h)]
  simp [joinWith]

theorem joinWith_parts_append (h : m.isStatic = true) (tail : List Char) :
    joinWith [' '] m.parts ++ tail =
      "static".toList ++ ' ' :: (joinWith [' '] m.typedParts ++ tail) := by
  rw [parts, if_pos h, typedParts]
  split <;> simp [joinWith]

/-- Each part is a text of its own. -/
theorem isTrimmed_of_mem_typedParts (h : m.IsTidy) (hname : IsMethodName m.name) :
    ∀ part ∈ m.typedParts, part ≠ [] ∧ IsTrimmed part := by
  have hcall : m.call ≠ [] ∧ IsTrimmed m.call := ⟨m.call_ne_nil, isTrimmed_call hname⟩
  rw [typedParts]
  split
  · simpa using hcall
  · next htypes =>
    have hword := (h.types (by simpa using htypes)).isWord_typeText
    simpa using ⟨⟨hword.nonempty, hword.isTrimmed⟩, hcall⟩

theorem isTrimmed_of_mem_parts (h : m.IsTidy) (hname : IsMethodName m.name) :
    ∀ part ∈ m.parts, part ≠ [] ∧ IsTrimmed part := by
  rw [parts]
  split
  · exact List.forall_mem_cons.mpr
      ⟨⟨by decide, by decide, by decide⟩, isTrimmed_of_mem_typedParts h hname⟩
  · exact isTrimmed_of_mem_typedParts h hname

theorem typedParts_ne_nil (m : MagicMethod) : m.typedParts ≠ [] := by
  rw [typedParts]
  split <;> simp

theorem parts_ne_nil (m : MagicMethod) : m.parts ≠ [] := by
  rw [parts]
  split
  · simp
  · exact m.typedParts_ne_nil

theorem call_append (hname : IsMethodName m.name) (harguments : ')' ∉ m.argumentText) :
    Call (m.call ++ tail) m.name m.argumentText tail := by
  have hcall : Call (m.name ++ ([] ++ '(' :: (m.argumentText ++ ')' :: tail))) m.name
      m.argumentText tail := .intro hname (by simp) harguments
  simpa [call] using hcall

theorem not_mem_argumentText (h : m.IsTidy) : '(' ∉ m.argumentText ∧ ')' ∉ m.argumentText := by
  have hnot {c : Char} (hsep : c ∉ [',', ' ']) (hparts : ∀ a ∈ m.arguments, c ∉ a) :
      c ∉ m.argumentText := fun hmem => (Text.mem_joinWith hmem).elim hsep fun ⟨a, ha, hin⟩ =>
    hparts a ha hin
  exact ⟨hnot (by decide) fun a ha => (h.arguments a ha).2.2.2.1,
    hnot (by decide) fun a ha => (h.arguments a ha).2.2.2.2⟩

/-- The call is read as it was meant, if it is read as one. -/
theorem ofCall_eq_tag (h : m.IsTidy) (htail : Trails m.description tail) :
    ofCall m.isStatic (m.types.map String.ofList) m.name m.argumentText tail = m.tag := by
  have hitems : Text.items ',' (String.ofList m.argumentText) = m.arguments.map String.ofList :=
    Text.items_joinWith (by decide) (by decide) fun a ha =>
      ⟨(h.arguments a ha).1, (h.arguments a ha).2.1, (h.arguments a ha).2.2.1⟩
  rw [ofCall, htail.trim_eq h.description, hitems, tag]

/-! ### Calls with types in front of them, or none -/

section Typed

variable (h : m.IsTidy) (hname : IsMethodName m.name) (isStatic : Bool)

include h hname

theorem magicCall?_call (types : List String) (tail : List Char) :
    magicCall? isStatic types (m.call ++ tail) =
      some (ofCall isStatic types m.name m.argumentText tail) :=
  (call_append hname (not_mem_argumentText h).2).magicCall?_eq

/-- Types are read in front of the call. -/
theorem magicTyped?_of_types (htypes : m.types ≠ []) (tail : List Char) :
    magicTyped? isStatic (joinWith [' '] m.typedParts ++ tail) =
      some (ofCall isStatic (m.types.map String.ofList) m.name m.argumentText tail) := by
  rw [joinWith_typedParts_append htypes,
    Tag.magicTyped?_append (h.types htypes).isWord_typeText,
    (isTrimmed_call hname).trimStart_append_of_ne_nil m.call_ne_nil,
    (h.types htypes).splitTypes_typeText, magicCall?_call h hname, Option.some_or]

/-- A blank within the arguments ends the first word of the call before its parenthesis. -/
theorem exists_spanWord_call (hblank : ∃ c ∈ m.argumentText, isBlank c = true)
    (tail : List Char) : ∃ word rest, '(' ∉ rest ∧
      Text.spanWord (m.call ++ tail) = (word, rest ++ ')' :: tail) := by
  have hsplit := List.takeWhile_append_dropWhile (p := fun c => !isBlank c) (l := m.argumentText)
  generalize hword : m.argumentText.takeWhile (fun c => !isBlank c) = word at hsplit
  generalize hrest : m.argumentText.dropWhile (fun c => !isBlank c) = rest at hsplit
  have hne : rest ≠ [] := by
    rw [← hrest, ne_eq, List.dropWhile_eq_nil_iff]
    simpa using hblank
  have hwhole : m.call ++ tail = (m.name ++ '(' :: word) ++ (rest ++ ')' :: tail) := by
    simp [call, ← hsplit]
  refine ⟨m.name ++ '(' :: word, rest, fun hmem => (not_mem_argumentText h).1 ?_, ?_⟩
  · exact hsplit ▸ List.mem_append_right _ hmem
  · rw [hwhole]
    refine Text.spanWord_append ?_ fun c hc => ?_
    · simp only [List.forall_mem_append, List.forall_mem_cons, ← hword]
      exact ⟨hname.blankless, by decide, fun c hc => by simpa using List.mem_takeWhile_imp hc⟩
    · rw [List.head?_append_of_ne_nil _ hne, ← hrest] at hc
      simpa using InlineTag.head?_dropWhile _ c hc

/-- What is behind this word closes a parenthesis before it opens one. -/
theorem magicTyped?_of_blank (hblank : ∃ c ∈ m.argumentText, isBlank c = true)
    (tail : List Char) : magicTyped? isStatic (m.call ++ tail) =
      some (ofCall isStatic [] m.name m.argumentText tail) := by
  obtain ⟨word, rest, hrest, hspan⟩ := exists_spanWord_call h hname hblank tail
  have hparen : isBlank ')' = false := by decide
  obtain ⟨-, hstart⟩ := InlineTag.span_stop hparen rest tail
  have hclosed : '(' ∉ rest.dropWhile isBlank := fun hmem =>
    hrest ((List.dropWhile_sublist _).subset hmem)
  rw [← magicCall?_call h hname]
  refine Tag.magicTyped?_of_none fun types => ?_
  rw [hspan, trimStart, hstart]
  exact Tag.magicCall?_eq_none hclosed tail

/-- A call without blanks is taken for types if what is behind it reads as a call. -/
theorem magicTyped?_of_blankless (hblankless : ∀ c ∈ m.argumentText, isBlank c = false)
    (htail : Trails m.description tail) : magicTyped? isStatic (m.call ++ tail) =
      (magicCall? isStatic (splitTypes (String.ofList m.call)) m.description).or
        (some (ofCall isStatic [] m.name m.argumentText tail)) := by
  have hword : IsWord m.call := by
    refine ⟨m.call_ne_nil, ?_⟩
    simp only [call, List.forall_mem_append, List.forall_mem_cons]
    exact ⟨hname.blankless, by decide, hblankless, by decide, by simp⟩
  rw [← magicCall?_call h hname]
  have htrimmed := h.description
  generalize m.description = description at htail htrimmed
  cases htail with
  | spaced => rw [Tag.magicTyped?_append hword, htrimmed.trimStart_eq]
  | omitted =>
    refine Tag.magicTyped?_of_none fun types => ?_
    rw [Text.spanWord_append hword.blankless (by simp)]
    rfl

/-- The call is read as it was meant unless it is taken for types. -/
theorem magicTyped?_typedParts (hclear : ¬ m.Eclipsed) (htail : Trails m.description tail) :
    magicTyped? isStatic (joinWith [' '] m.typedParts ++ tail) =
      some (ofCall isStatic (m.types.map String.ofList) m.name m.argumentText tail) := by
  by_cases htypes : m.types = []
  · rw [joinWith_typedParts_of_nil htypes, htypes]
    by_cases hblankless : ∀ c ∈ m.argumentText, isBlank c = false
    · have hnone : magicCall? isStatic (splitTypes (String.ofList m.call)) m.description = none :=
        Option.eq_none_iff_forall_ne_some.mpr fun t ht => by
          obtain ⟨name, arguments, behind, hcall, -⟩ := Tag.exists_call ht
          exact hclear ⟨htypes, hblankless, name, arguments, behind, hcall⟩
      rw [magicTyped?_of_blankless h hname _ hblankless htail, hnone, Option.none_or, List.map_nil]
    · exact magicTyped?_of_blank h hname _ (by simpa using hblankless) tail
  · exact magicTyped?_of_types h hname _ htypes tail

/-- Otherwise it is the method that the description begins with. -/
theorem exists_magicTyped?_of_eclipsed (heclipsed : m.Eclipsed)
    (htail : Trails m.description tail) :
    ∃ name arguments behind, Call m.description name arguments behind ∧
      magicTyped? isStatic (joinWith [' '] m.typedParts ++ tail) =
        some (ofCall isStatic (splitTypes (String.ofList m.call)) name arguments behind) := by
  obtain ⟨name, arguments, behind, hcall⟩ := heclipsed.description
  refine ⟨name, arguments, behind, hcall, ?_⟩
  rw [joinWith_typedParts_of_nil heclipsed.untyped,
    magicTyped?_of_blankless h hname _ heclipsed.blankless htail,
    hcall.magicCall?_eq, Option.some_or]

theorem isSome_magicTyped? (htail : Trails m.description tail) :
    (magicTyped? isStatic (joinWith [' '] m.typedParts ++ tail)).isSome = true := by
  by_cases heclipsed : m.Eclipsed
  · obtain ⟨_, _, _, -, hread⟩ := exists_magicTyped?_of_eclipsed h hname isStatic heclipsed htail
    rw [hread, Option.isSome_some]
  · rw [magicTyped?_typedParts h hname isStatic heclipsed htail, Option.isSome_some]

/-- The first word is no modifier if none is written: it is the types or holds a parenthesis. -/
theorem spanWord_typedParts_ne (tail : List Char) :
    (Text.spanWord (joinWith [' '] m.typedParts ++ tail)).1 ≠ "static".toList := by
  by_cases htypes : m.types = []
  · have hletters : ∀ c ∈ m.name, (!isBlank c) = true := fun c hc => by
      simp [hname.blankless c hc]
    have hmem : '(' ∈ (Text.spanWord (m.call ++ tail)).1 := by
      rw [Text.spanWord, List.span_eq_takeWhile_dropWhile, call, List.append_assoc,
        List.takeWhile_append_of_pos hletters]
      exact List.mem_append_right _ (by simp [show isBlank '(' = false by decide])
    rw [joinWith_typedParts_of_nil htypes]
    exact fun hword => absurd (hword ▸ hmem) (by decide)
  · rw [joinWith_typedParts_append htypes,
      Text.spanWord_append_space (h.types htypes).isWord_typeText.blankless]
    exact h.unmodified

/-- The modifier does not depend on which method is read behind it. -/
theorem magicMethod?_parts (htail : Trails m.description tail) :
    magicMethod? (joinWith [' '] m.parts ++ tail) =
      magicTyped? m.isStatic (joinWith [' '] m.typedParts ++ tail) := by
  cases hstatic : m.isStatic with
  | true =>
    obtain ⟨hne, htrimmed⟩ := Text.isTrimmed_joinWith_of_forall [' '] m.typedParts_ne_nil
      (isTrimmed_of_mem_typedParts h hname)
    have hstart := htrimmed.trimStart_append_of_ne_nil hne tail
    rw [joinWith_parts_append hstatic, Tag.magicMethod?_static ?_, hstart]
    rw [hstart]
    exact isSome_magicTyped? h hname true htail
  | false =>
    have hparts : m.parts = m.typedParts := by simp [parts, hstatic]
    rw [hparts]
    exact Tag.magicMethod?_of_ne (spanWord_typedParts_ne h hname tail)

end Typed

/-! ### Reading the whole tag -/

/-- What is read from a tag of this name is a method if its text reads as one. -/
theorem parse?_render (m : MagicMethod) (htail : Trails m.description tail) :
    Tag.parse? (m.render tail) =
      some ((magicMethod? (trim (joinWith [' '] m.parts ++ tail))).getD
        ⟨"method", String.ofList (trim (joinWith [' '] m.parts ++ tail)), .plain⟩) :=
  Tag.parse?_of_isWord ⟨by decide, by decide⟩ htail.head?_isBlank m.parts rfl

theorem exists_parse?_render (h : m.IsTidy) (hname : IsMethodName m.name)
    (htail : Trails m.description tail) :
    ∃ rest, Trails m.description rest ∧ Tag.parse? (m.render tail) =
      magicTyped? m.isStatic (joinWith [' '] m.typedParts ++ rest) := by
  obtain ⟨hne, htrimmed⟩ := Text.isTrimmed_joinWith_of_forall [' '] m.parts_ne_nil
    (isTrimmed_of_mem_parts h hname)
  obtain ⟨rest, hrest, htrim⟩ := htail.exists_trim_append h.description htrimmed hne
  obtain ⟨t, ht⟩ := Option.isSome_iff_exists.mp (isSome_magicTyped? h hname m.isStatic hrest)
  refine ⟨rest, hrest, ?_⟩
  rw [parse?_render m htail, htrim, magicMethod?_parts h hname hrest, ht, Option.getD_some]

/-- A method that is read as it was meant has a name that tags can read. -/
theorem isMethodName_of_parse? (htail : Trails m.description tail)
    (hread : Tag.parse? (m.render tail) = some m.tag) : IsMethodName m.name := by
  rw [parse?_render m htail, Option.some.injEq] at hread
  cases hmethod : magicMethod? (trim (joinWith [' '] m.parts ++ tail)) with
  | none =>
    rw [hmethod, Option.getD_none] at hread
    cases congrArg Tag.body hread
  | some t =>
    rw [hmethod, Option.getD_some] at hread
    obtain ⟨isStatic, types, suffix, hcall⟩ := Tag.exists_magicCall? hmethod
    obtain ⟨name, arguments, behind, ⟨hname, -, -⟩, ht⟩ := Tag.exists_call hcall
    have hsame : name = m.name := by
      have hbody := congrArg Tag.body (ht.symm.trans hread)
      exact String.ofList_injective (TagBody.magicMethod.inj hbody).1
    exact hsame ▸ hname

/-- A tag that is written for a method is read as it was meant if tags can read the name and the
call is not taken for types, and otherwise it is not. -/
theorem parse?_render_eq_tag_iff (h : m.IsTidy) (htail : Trails m.description tail) :
    Tag.parse? (m.render tail) = some m.tag ↔
      (∀ c ∈ m.name, Tag.isMethodChar c = true) ∧ ¬ m.Eclipsed := by
  constructor
  · intro hread
    have hname := isMethodName_of_parse? htail hread
    refine ⟨hname.isMethodChar, fun heclipsed => ?_⟩
    obtain ⟨rest, hrest, hparse⟩ := exists_parse?_render h hname htail
    obtain ⟨name, arguments, behind, hcall, htyped⟩ :=
      exists_magicTyped?_of_eclipsed h hname m.isStatic heclipsed hrest
    rw [hparse, htyped, Option.some.injEq] at hread
    have hdescription : trim behind = m.description :=
      String.ofList_injective (congrArg Tag.description hread)
    have hle : m.description.length ≤ behind.length := hdescription ▸ Text.length_trim_le behind
    exact absurd hcall.length_lt (Nat.not_lt.mpr hle)
  · rintro ⟨hchars, hclear⟩
    have hname := isMethodName h hchars
    obtain ⟨rest, hrest, hparse⟩ := exists_parse?_render h hname htail
    rw [hparse, magicTyped?_typedParts h hname m.isStatic hclear hrest, ofCall_eq_tag h hrest]

/-- A method with a modifier, two types, two arguments, and a description in which the second word
stands in parentheses. -/
def createMethod : MagicMethod where
  isStatic := true
  types := ["Invoice".toList, "null".toList]
  name := "create".toList
  arguments := ["int $id".toList, "$name".toList]
  description := "Makes (or finds) one.".toList

theorem createMethod_isTidy : createMethod.IsTidy where
  name_nonempty := by decide
  name_start := by decide
  name_chars := by decide
  arguments a ha := by
    rcases List.mem_pair.mp ha with rfl | rfl <;>
      exact ⟨by decide, ⟨by decide, by decide⟩, by decide⟩
  types _ := by
    refine ⟨by decide, fun t ht => ?_, by decide⟩
    rcases List.mem_pair.mp ht with rfl | rfl <;> exact ⟨by decide, by decide⟩
  unmodified := by decide
  description := ⟨by decide, by decide⟩

theorem parse?_render_create : createMethod.IsTidy ∧
    Tag.parse? "@method static Invoice|null create(int $id, $name) Makes (or finds) one.".toList =
      some ⟨"method", "Makes (or finds) one.",
        .magicMethod "create" ["Invoice", "null"] ["int $id", "$name"] true⟩ :=
  ⟨createMethod_isTidy, (parse?_render_eq_tag_iff createMethod_isTidy (.spaced _)).mpr
    ⟨by decide, fun heclipsed => absurd heclipsed.untyped (by decide)⟩⟩

/-- Where no types are written, a description of this sort eclipses the call. -/
example : Tag.parse? "@method reset() Empties (clears) the cart".toList =
    some ⟨"method", "the cart", .magicMethod "Empties" ["reset()"] ["clears"] false⟩ := by
  decide +kernel

end MagicMethod

end ApiDoc
