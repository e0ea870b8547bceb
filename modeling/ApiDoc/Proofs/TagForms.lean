import ApiDoc.DocBlock
import ApiDoc.Proofs.Words

/-!
# Tags that are written and read again

`Tag.Says` lists the forms in which a tag is written: for each name the words that may stand behind
it, and what they say. Main statement: a tag that is written in one of these forms, its parts with a
space between them, is read with exactly these parts.
-/

namespace ApiDoc

open scoped Text

namespace Tag

open Text (joinWith isBlank trim IsTrimmed IsWord Trails)

/-! ### Variables -/

/-- A word that starts like a variable: a dollar sign behind ampersands and dots in threes, if there
are any. -/
def VariableLike (word : List Char) : Prop :=
  ∃ ampersands dots rest, word = List.replicate ampersands '&' ++
    ((List.replicate dots ['.', '.', '.']).flatten ++ '$' :: rest)

theorem isVariable_iff {word : List Char} : isVariable word = true ↔ VariableLike word := by
  rw [isVariable, beq_iff_eq]
  constructor
  · intro h
    obtain ⟨ampersands, hampersands⟩ := Text.exists_dropLeadChar '&' word
    obtain ⟨dots, hdots⟩ := Text.exists_dropLeads ['.', '.', '.'] (Text.dropLeadChar '&' word)
    obtain ⟨rest, hrest⟩ := List.head?_eq_some_iff.mp h
    exact ⟨ampersands, dots, rest, by rw [← hrest, ← hdots, ← hampersands]⟩
  · rintro ⟨ampersands, dots, rest, rfl⟩
    have hbehind : ((List.replicate dots ['.', '.', '.']).flatten ++ '$' :: rest).head? ≠
        some '&' := by
      cases dots <;> simp [List.replicate_succ]
    have hstop : ¬ ['.', '.', '.'] <+: '$' :: rest := Text.not_prefix_of_head? (by simp)
    rw [Text.dropLeadChar_replicate hbehind, Text.dropLeads_replicate (by decide) hstop,
      List.head?_cons]

theorem VariableLike.dollar_mem {word : List Char} (h : VariableLike word) : '$' ∈ word := by
  obtain ⟨ampersands, dots, rest, rfl⟩ := h
  simp

/-! ### Forms of tags -/

/-- Types: words without a bar. -/
structure IsTypeList (types : List (List Char)) : Prop where
  nonempty : types ≠ []
  isWord : ∀ t ∈ types, IsWord t
  unbarred : ∀ t ∈ types, '|' ∉ t

def typeText (types : List (List Char)) : List Char := joinWith ['|'] types

/-- What a tag says, by its name, the words that are written behind the name, and the description
behind these. -/
inductive Says : String → List (List Char) → List Char → TagBody → Prop
  | named {name : String} {types : List (List Char)} {word description : List Char} :
    name ∈ ["param", "var", "property", "property-read", "property-write"] →
    IsTypeList types → ¬ VariableLike (typeText types) → IsWord word → VariableLike word →
    Says name [typeText types, word] description
      (.typedVariable (types.map String.ofList) (String.ofList word))
  | untyped {name : String} {word description : List Char} :
    name ∈ ["param", "var", "property", "property-read", "property-write"] →
    IsWord word → VariableLike word →
    Says name [word] description (.typedVariable [] (String.ofList word))
  | unnamed {name : String} {types : List (List Char)} {description : List Char} :
    name ∈ ["param", "var", "property", "property-read", "property-write"] →
    IsTypeList types → ¬ VariableLike (typeText types) →
    ¬ VariableLike (description.takeWhile fun c => !isBlank c) →
    Says name [typeText types] description (.typedVariable (types.map String.ofList) "")
  | typed {name : String} {types : List (List Char)} {description : List Char} :
    name ∈ ["return", "throws"] → IsTypeList types →
    Says name [typeText types] description (.typed (types.map String.ofList))
  | reference {name : String} {target description : List Char} :
    name ∈ ["see", "uses", "used-by", "covers"] → IsWord target →
    Says name [target] description (.reference ⟨String.ofList target, none⟩)
  | plain {name : String} {description : List Char} :
    IsWord name.toList →
    name ∉ ["param", "var", "property", "property-read", "property-write", "return", "throws",
      "see", "uses", "used-by", "covers", "method"] →
    Says name [] description .plain

namespace IsTypeList

variable {types : List (List Char)}

theorem isWord_typeText (h : IsTypeList types) : IsWord (typeText types) :=
  Text.isWord_joinWith (by decide) h.nonempty h.isWord

theorem splitTypes_typeText (h : IsTypeList types) :
    splitTypes (String.ofList (typeText types)) = types.map String.ofList :=
  Text.items_joinWith (by simp) (by simp) fun t ht =>
    ⟨(h.isWord t ht).nonempty, (h.isWord t ht).isTrimmed, h.unbarred t ht⟩

end IsTypeList

/-! ### Reading the forms -/

section Reading

variable {name : String} {types : List (List Char)} {word description tail : List Char}

theorem isWord_of_known (h : name ∈ variableNames ++ typedNames ++ referenceNames) :
    IsWord name.toList := by
  have hall : ∀ n ∈ variableNames ++ typedNames ++ referenceNames,
      n.toList ≠ [] ∧ ∀ c ∈ n.toList, isBlank c = false := by decide
  exact ⟨(hall name h).1, (hall name h).2⟩

/-- Which shape a tag has is decided by its name, whatever is written behind it. -/
theorem parse?_of_isWord (hname : IsWord name.toList) (htail : ∀ c ∈ tail.head?, isBlank c = true)
    (words : List (List Char)) {rest : List Char}
    (hrest : rest = trim (joinWith [' '] words ++ tail)) :
    parse? ('@' :: (joinWith [' '] (name.toList :: words) ++ tail)) =
      if name ∈ variableNames then some (variableTag name rest)
      else if name ∈ typedNames then
        some ⟨name, String.ofList (Text.cutWord rest).2,
          .typed (splitTypes (String.ofList (Text.cutWord rest).1))⟩
      else if name ∈ referenceNames then
        some ⟨name, String.ofList (Text.cutWord rest).2,
          .reference ⟨String.ofList (Text.cutWord rest).1, none⟩⟩
      else if name = "method" then
        some ((magicMethod? rest).getD ⟨name, String.ofList rest, .plain⟩)
      else some ⟨name, String.ofList rest, .plain⟩ := by
  have hempty : name.toList.isEmpty = false := List.isEmpty_eq_false_iff.mpr hname.nonempty
  simp only [parse?, Text.cutWord_joinWith hname htail, String.ofList_toList, hempty,
    Bool.false_eq_true, if_false, hrest]

theorem not_isVariable (h : ¬ VariableLike word) : isVariable word = false := by
  rwa [Bool.eq_false_iff, ne_eq, isVariable_iff]

theorem variableTag_named (name : String) (htypes : IsTypeList types)
    (hnot : ¬ VariableLike (typeText types)) (hword : IsWord word) (hvariable : VariableLike word)
    (hdescription : IsTrimmed description) (htail : Trails description tail) :
    variableTag name (trim (joinWith [' '] [typeText types, word] ++ tail)) =
      ⟨name, String.ofList description,
        .typedVariable (types.map String.ofList) (String.ofList word)⟩ := by
  simp only [variableTag, Text.cutWord_trim,
    Text.cutWord_joinWith htypes.isWord_typeText htail.head?_isBlank, not_isVariable hnot,
    Text.cutWord_joinWith hword htail.head?_isBlank, isVariable_iff.mpr hvariable,
    htypes.splitTypes_typeText, htail.trim_joinWith_nil hdescription, Bool.false_eq_true, if_false,
    if_true]

theorem variableTag_untyped (name : String) (hword : IsWord word) (hvariable : VariableLike word)
    (hdescription : IsTrimmed description) (htail : Trails description tail) :
    variableTag name (trim (joinWith [' '] [word] ++ tail)) =
      ⟨name, String.ofList description, .typedVariable [] (String.ofList word)⟩ := by
  simp only [variableTag, Text.cutWord_trim, Text.cutWord_joinWith hword htail.head?_isBlank,
    isVariable_iff.mpr hvariable, htail.trim_joinWith_nil hdescription, if_true]

theorem variableTag_unnamed (name : String) (htypes : IsTypeList types)
    (hnot : ¬ VariableLike (typeText types))
    (hfirst : ¬ VariableLike (description.takeWhile fun c => !isBlank c))
    (hdescription : IsTrimmed description) (htail : Trails description tail) :
    variableTag name (trim (joinWith [' '] [typeText types] ++ tail)) =
      ⟨name, String.ofList description, .typedVariable (types.map String.ofList) ""⟩ := by
  have hsecond : isVariable (Text.cutWord description).1 = false := by
    rw [Text.cutWord, hdescription.trimStart_eq, Text.spanWord, List.span_eq_takeWhile_dropWhile]
    exact not_isVariable hfirst
  simp only [variableTag, Text.cutWord_trim,
    Text.cutWord_joinWith htypes.isWord_typeText htail.head?_isBlank, not_isVariable hnot,
    htail.trim_joinWith_nil hdescription, hsecond, htypes.splitTypes_typeText, Bool.false_eq_true,
    if_false]

end Reading

/-- A tag that is written in one of the forms, with a space between its parts, is read with the
parts that it is written with, and with the description as it is. -/
theorem parse?_of_says {name : String} {words : List (List Char)} {description tail : List Char}
    {body : TagBody} (h : Says name words description body) (hdescription : IsTrimmed description)
    (htail : Trails description tail) :
    parse? ('@' :: (joinWith [' '] (name.toList :: words) ++ tail)) =
      some { name := name, description := String.ofList description, body := body } := by
  have hblank := htail.head?_isBlank
  cases h with
  | named hname htypes hnot hword hvariable =>
    have hnames : name ∈ variableNames := hname
    rw [parse?_of_isWord (isWord_of_known (by simp [hnames])) hblank _ rfl, if_pos hnames,
      variableTag_named name htypes hnot hword hvariable hdescription htail]
  | untyped hname hword hvariable =>
    have hnames : name ∈ variableNames := hname
    rw [parse?_of_isWord (isWord_of_known (by simp [hnames])) hblank _ rfl, if_pos hnames,
      variableTag_untyped name hword hvariable hdescription htail]
  | unnamed hname htypes hnot hfirst =>
    have hnames : name ∈ variableNames := hname
    rw [parse?_of_isWord (isWord_of_known (by simp [hnames])) hblank _ rfl, if_pos hnames,
      variableTag_unnamed name htypes hnot hfirst hdescription htail]
  | typed hname htypes =>
    have hnames : name ∈ typedNames := hname
    have hother : name ∉ variableNames :=
      (by decide : ∀ n ∈ typedNames, n ∉ variableNames) name hnames
    rw [parse?_of_isWord (isWord_of_known (by simp [hnames])) hblank _ rfl, if_neg hother,
      if_pos hnames]
    simp only [Text.cutWord_trim, Text.cutWord_joinWith htypes.isWord_typeText hblank,
      htypes.splitTypes_typeText, htail.trim_joinWith_nil hdescription]
  | reference hname htarget =>
    have hnames : name ∈ referenceNames := hname
    have hother : name ∉ variableNames ∧ name ∉ typedNames :=
      (by decide : ∀ n ∈ referenceNames, n ∉ variableNames ∧ n ∉ typedNames) name hnames
    rw [parse?_of_isWord (isWord_of_known (by simp [hnames])) hblank _ rfl, if_neg hother.1,
      if_neg hother.2, if_pos hnames]
    simp only [Text.cutWord_trim, Text.cutWord_joinWith htarget hblank,
      htail.trim_joinWith_nil hdescription]
  | plain hword hname =>
    obtain ⟨hvariable, htyped, hreference, hmethod⟩ : name ∉ variableNames ∧ name ∉ typedNames ∧
        name ∉ referenceNames ∧ name ≠ "method" := by
      simpa [variableNames, typedNames, referenceNames, not_or, and_assoc] using hname
    rw [parse?_of_isWord hword hblank _ rfl, if_neg hvariable, if_neg htyped, if_neg hreference,
      if_neg hmethod, htail.trim_joinWith_nil hdescription]

/-- A parameter with two types, a variable behind both of its signs, and a description that is
longer than a line. -/
theorem says_amounts (description : List Char) :
    Says "param" ["int|null".toList, "&...$amounts".toList] description
      (.typedVariable ["int", "null"] "&...$amounts") := by
  have hwords : ∀ t ∈ ["int".toList, "null".toList], IsWord t := by
    intro t ht
    rcases List.mem_pair.mp ht with rfl | rfl <;> exact ⟨by decide, by decide⟩
  have hnot : ¬ VariableLike (typeText ["int".toList, "null".toList]) := fun h =>
    absurd h.dollar_mem (by decide)
  exact .named (by decide) ⟨by decide, hwords, by decide⟩ hnot ⟨by decide, by decide⟩
    ⟨1, 1, "amounts".toList, rfl⟩

theorem parse?_of_says_amounts :
    IsTrimmed "In cents,\nwithout fees.".toList ∧
    parse? "@param int|null &...$amounts In cents,\nwithout fees.".toList =
      some ⟨"param", "In cents,\nwithout fees.",
        .typedVariable ["int", "null"] "&...$amounts"⟩ :=
  have htrimmed : IsTrimmed "In cents,\nwithout fees.".toList := ⟨by decide, by decide⟩
  ⟨htrimmed, parse?_of_says (says_amounts _) htrimmed (.spaced _)⟩

end Tag

end ApiDoc
