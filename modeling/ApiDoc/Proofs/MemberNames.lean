import ApiDoc.Proofs.Reflection
import ApiDoc.Proofs.Words

/-!
# Names of members

The name of a member holds its owner, its kind and its own name. The kind shows by a sigil or by
call parentheses only, and both are taken off the name first, however often they stand there
(`Fqsen.Stripped`). So no stripped name can be mistaken for the mark of a kind: what a name was made
of can be read from it, and two members have one name only if they are made of the same.
-/

namespace ApiDoc.Fqsen

/-- What is left of a name without all the sigils in front of it and all the calls behind it. -/
structure Stripped (name bare : String) : Prop where
  parts : ∃ sigils calls : Nat, name.toList = List.replicate sigils '$' ++
    (bare.toList ++ (List.replicate calls callMark).flatten)
  noSigil : bare.toList.head? ≠ some '$'
  noCall : ¬ callMark <:+ bare.toList

namespace Stripped

variable {name bare other : String}

/-- Calls behind a name put no sigil in front of it. -/
theorem head?_append_calls {cs : List Char} (h : cs.head? ≠ some '$') (calls : Nat) :
    (cs ++ (List.replicate calls callMark).flatten).head? ≠ some '$' := by
  cases cs with
  | nil => cases calls <;> simp [List.replicate_succ, callMark]
  | cons c rest => exact h

/-- The sigils come off first, and then the calls, so nothing else can be left of a name. -/
theorem toList_eq (h : Stripped name bare) : bare.toList = bareMember name.toList := by
  obtain ⟨⟨sigils, calls, hname⟩, hsigil, hcall⟩ := h
  rw [bareMember, hname, Text.dropLeadChar_replicate (head?_append_calls hsigil calls),
    Text.dropTrails_replicate (by decide) hcall]

theorem unique (h : Stripped name bare) (k : Stripped name other) : bare = other := by
  rw [← String.toList_inj, h.toList_eq, k.toList_eq]

end Stripped

theorem stripped_bareMember (name : String) :
    Stripped name (String.ofList (bareMember name.toList)) := by
  obtain ⟨sigils, hsigils⟩ := Text.exists_dropLeadChar '$' name.toList
  obtain ⟨calls, hcalls⟩ := Text.exists_dropTrails callMark (Text.dropLeadChar '$' name.toList)
  have hhead := Text.head?_dropLeadChar '$' name.toList
  constructor
  · exact ⟨sigils, calls, by rw [String.toList_ofList, bareMember, ← hcalls, ← hsigils]⟩
  · rw [String.toList_ofList]
    intro hsigil
    rw [hcalls, List.head?_append, ← bareMember, hsigil] at hhead
    exact hhead rfl
  · rw [String.toList_ofList]
    exact Text.not_suffix_dropTrails (by decide) _

/-- The mark of a kind comes off a stripped name again, whatever the name is made of: it is one
sigil, one call or nothing. -/
theorem Stripped.memberText {name bare : String} (h : Stripped name bare) (kind : MemberKind) :
    Stripped (String.ofList (memberText kind bare.toList)) bare := by
  refine ⟨?_, h.noSigil, h.noCall⟩
  rw [String.toList_ofList]
  cases kind with
  | method => exact ⟨0, 1, by simp [Fqsen.memberText]⟩
  | property => exact ⟨1, 0, by simp [Fqsen.memberText]⟩
  | constant => exact ⟨0, 0, by simp [Fqsen.memberText]⟩

/-- Marks of different kinds have different lengths. -/
theorem memberText_inj {kind sort : MemberKind} {bare : List Char}
    (h : memberText kind bare = memberText sort bare) : kind = sort := by
  have hlength := congrArg List.length h
  cases kind <;> cases sort <;> simp [memberText, callMark] at hlength ⊢

section Members

variable {owner other : Fqsen} {kind sort : MemberKind} {name word bare plain : String}

theorem Stripped.name_member (hbare : Stripped name bare) (h : owner.Plain) :
    (owner.member kind name).name = bare := by
  have hread := (hbare.memberText kind).toList_eq
  rw [String.toList_ofList] at hread
  rw [Fqsen.name, h.cut?_member, ← String.toList_inj, ← hbare.toList_eq]
  simpa [bareMember] using hread.symm

/-- A member is declared where its owner is. -/
theorem Plain.enclosing_member (h : owner.Plain) (kind : MemberKind) (name : String) :
    (owner.member kind name).enclosing = owner.enclosing := by
  have howner : owner.ownerChars = owner.chars := by
    rw [ownerChars, memberSeparator, Text.cut?_eq_none_of_not_mem h.2]
  rw [enclosing, enclosing, howner, ownerChars, h.cut?_member]

theorem Stripped.member_inj (hbare : Stripped name bare) (hplain : Stripped word plain)
    (h : owner.Plain) (k : other.Plain) : owner.member kind name = other.member sort word ↔
      owner = other ∧ kind = sort ∧ bare = plain := by
  constructor
  · intro heq
    obtain rfl : bare = plain := by
      have hname : (owner.member kind name).name = bare := hbare.name_member h
      rw [← hname, heq, hplain.name_member k]
    have hcut := h.cut?_member kind name
    rw [heq, k.cut?_member, ← hbare.toList_eq, ← hplain.toList_eq] at hcut
    obtain ⟨howner, htext⟩ := Prod.mk.inj (Option.some.inj hcut)
    exact ⟨ext_chars howner.symm, (memberText_inj htext).symm, rfl⟩
  · rintro ⟨rfl, rfl, rfl⟩
    rw [member, member, ← hbare.toList_eq, ← hplain.toList_eq]

end Members

/-- Every name of a member can be taken apart again. Whatever the name of the member is, even if it
is made of sigils and parentheses, there is one text that is left of it when these are stripped; the
name of the member gives back this text, the owner and the namespace of the owner. Two names of
members are equal exactly if their owners, their kinds and their stripped names are. -/
theorem member_reads_back {owner other : Fqsen} (h : owner.Plain) (k : other.Plain)
    (kind sort : MemberKind) (name word : String) :
    ∃ bare plain, Stripped name bare ∧ Stripped word plain ∧
      (owner.member kind name).isMember = true ∧
      (owner.member kind name).owner? = some owner ∧
      (owner.member kind name).name = bare ∧
      (owner.member kind name).enclosing = owner.enclosing ∧
      (owner.member kind name = other.member sort word ↔
        owner = other ∧ kind = sort ∧ bare = plain) := by
  have hname := stripped_bareMember name
  have hword := stripped_bareMember word
  exact ⟨_, _, hname, hword, h.isMember_member kind name, h.owner?_member kind name,
    hname.name_member h, h.enclosing_member kind name, hname.member_inj hword h k⟩

/-- A name that is made of sigils and parentheses: as a method it is told from the constant that is
written like it. -/
theorem member_reads_back_sigils :
    (⟨"\\A\\B"⟩ : Fqsen).Plain ∧
      (member ⟨"\\A\\B"⟩ .method "$()$()").owner? = some ⟨"\\A\\B"⟩ ∧
      (member ⟨"\\A\\B"⟩ .method "$()$()").name = "()$" ∧
      (member ⟨"\\A\\B"⟩ .method "$()$()").enclosing = enclosing ⟨"\\A\\B"⟩ ∧
      member ⟨"\\A\\B"⟩ .method "$()$()" ≠ member ⟨"\\A\\B"⟩ .constant "()$" := by
  have hplain : (⟨"\\A\\B"⟩ : Fqsen).Plain := ⟨rfl, by decide⟩
  obtain ⟨bare, plain, hbare, -, -, howner, hname, hspace, hinj⟩ :=
    member_reads_back hplain hplain .method .constant "$()$()" "()$"
  obtain rfl : bare = "()$" := hbare.unique ⟨⟨1, 1, by decide⟩, by decide, by decide⟩
  exact ⟨hplain, howner, hname, hspace, fun heq => absurd (hinj.mp heq).2.1 (by decide)⟩

end ApiDoc.Fqsen
