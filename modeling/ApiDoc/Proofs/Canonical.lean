import ApiDoc.Proofs.Reflection
import ApiDoc.Resolution
import Mathlib.Data.List.Infix

/-!
# Full names are settled

A name that was resolved has a full name, and resolving that again gives the same result from
everywhere. The keys that a name can have are settled: from any place, such a key has only itself
and keys of the same list as candidates, and itself first (`Resolution.Settled`). This needs names
without blanks and with no colon before the first member separator, and a scope of full names
without blanks, colons and arrows (`Scope.Tidy`).
-/

namespace ApiDoc

/-! ### Texts without blanks and arrows -/

namespace Text

/-- No character is blank, and nowhere is there an arrow. -/
structure Tidy (cs : List Char) : Prop where
  blankless : ∀ c ∈ cs, isBlank c = false
  arrowless : ¬ Resolution.arrow <:+: cs

instance (cs : List Char) : Decidable (Tidy cs) :=
  decidable_of_iff (cs.all (fun c => !isBlank c) = true ∧ ¬ Resolution.arrow <:+: cs)
    ⟨fun h => ⟨by simpa using h.1, h.2⟩, fun h => ⟨by simpa using h.blankless, h.arrowless⟩⟩

theorem tidy_nil : Tidy [] := ⟨by simp, by simp [Resolution.arrow]⟩

theorem Tidy.of_infix {cs ds : List Char} (h : Tidy cs) (hd : ds <:+: cs) : Tidy ds :=
  ⟨fun c hc => h.blankless c (hd.subset hc), fun harrow => h.arrowless (harrow.trans hd)⟩

/-- No arrow comes about where two texts are joined by a sign that is in no arrow. -/
theorem arrowless_append {a b : List Char} {c : Char} (ha : ¬ Resolution.arrow <:+: a)
    (hb : ¬ Resolution.arrow <:+: b) (hdash : c ≠ '-') (htip : c ≠ '>') :
    ¬ Resolution.arrow <:+: a ++ c :: b := by
  induction a with
  | nil =>
    intro h
    rcases List.infix_cons_iff.mp h with h | h
    · exact hdash (List.cons_prefix_cons.mp h).1.symm
    · exact hb h
  | cons d a ih =>
    intro h
    rcases List.infix_cons_iff.mp h with h | h
    · obtain ⟨rfl, htail⟩ := List.cons_prefix_cons.mp h
      cases a with
      | nil => exact htip (List.cons_prefix_cons.mp htail).1.symm
      | cons e a =>
        obtain ⟨rfl, -⟩ := List.cons_prefix_cons.mp htail
        exact ha (List.infix_cons_iff.mpr (.inl ⟨a, rfl⟩))
    · exact ih (fun h => ha (List.infix_cons_iff.mpr (.inr h))) h

theorem Tidy.append {a b : List Char} (ha : Tidy a) (hb : Tidy b) {c : Char}
    (hblank : isBlank c = false) (hdash : c ≠ '-') (htip : c ≠ '>') : Tidy (a ++ c :: b) := by
  refine ⟨fun d hd => ?_, arrowless_append ha.arrowless hb.arrowless hdash htip⟩
  rcases List.mem_append.mp hd with hd | hd
  · exact ha.blankless d hd
  · rcases List.mem_cons.mp hd with rfl | hd
    · exact hblank
    · exact hb.blankless d hd

theorem trim_of_blankless {cs : List Char} (h : ∀ c ∈ cs, isBlank c = false) : trim cs = cs := by
  have hdrop (ds : List Char) (hds : ∀ c ∈ ds, isBlank c = false) : ds.dropWhile isBlank = ds := by
    cases ds with
    | nil => rfl
    | cons c ds => exact trimStart_cons_of_not_blank (hds c List.mem_cons_self)
  rw [trim, trimStart, hdrop cs h, trimEnd,
    hdrop cs.reverse fun c hc => h c (List.mem_reverse.mp hc), List.reverse_reverse]

end Text

/-! ### Arrows written as member separators -/

namespace Resolution

open Text

/-- The text with arrows written as member separators. -/
abbrev unarrowed (cs : List Char) : List Char := replaceAll arrow Fqsen.memberSeparator cs

theorem unarrowed_arrow (rest : List Char) :
    unarrowed ('-' :: '>' :: rest) = ':' :: ':' :: unarrowed rest := by
  rw [unarrowed, replaceAll, dif_pos ⟨by decide, by simp [startsWith, arrow]⟩]
  rfl

theorem unarrowed_cons {c : Char} {rest : List Char} (h : ¬ arrow <+: c :: rest) :
    unarrowed (c :: rest) = c :: unarrowed rest := by
  rw [unarrowed, replaceAll, dif_neg fun hstart => h (startsWith_iff.mp hstart.2)]

/-- The first character of the new text is that of the old one, unless an arrow starts there. -/
theorem head_unarrowed {c : Char} {rest cs : List Char} (h : unarrowed cs = c :: rest)
    (hc : c ≠ ':') : ∃ more, cs = c :: more := by
  by_cases harrow : arrow <+: cs
  · obtain ⟨more, rfl⟩ := harrow
    rw [show arrow ++ more = '-' :: '>' :: more from rfl, unarrowed_arrow] at h
    exact absurd (List.cons.inj h).1.symm hc
  · cases cs with
    | nil => simp [unarrowed, replaceAll, startsWith, arrow] at h
    | cons d more =>
      rw [unarrowed_cons harrow] at h
      exact ⟨more, by rw [(List.cons.inj h).1]⟩

theorem tidy_unarrowed {cs : List Char} (h : ∀ c ∈ cs, isBlank c = false) :
    Tidy (unarrowed cs) := by
  have hcolon (ds : List Char) (hds : Tidy ds) : Tidy (':' :: ds) :=
    tidy_nil.append hds (by decide) (by decide) (by decide)
  show Tidy (replaceAll arrow Fqsen.memberSeparator cs)
  fun_induction replaceAll arrow Fqsen.memberSeparator cs with
  | case1 cs hstart ih =>
    refine hcolon _ (hcolon _ (ih fun c hc => h c (List.mem_of_mem_drop hc)))
  | case2 => exact tidy_nil
  | case3 c rest hstart ih =>
    have hrest := ih fun d hd => h d (List.mem_cons_of_mem _ hd)
    refine ⟨fun d hd => ?_, fun harrow => ?_⟩
    · rcases List.mem_cons.mp hd with rfl | hd
      · exact h d List.mem_cons_self
      · exact hrest.blankless d hd
    · rcases List.infix_cons_iff.mp harrow with harrow | harrow
      · obtain ⟨rfl, htail⟩ := List.cons_prefix_cons.mp harrow
        obtain ⟨more, hmore⟩ := htail
        obtain ⟨old, rfl⟩ := head_unarrowed hmore.symm (by decide)
        exact hstart ⟨by decide, by simp [startsWith, arrow]⟩
      · exact hrest.arrowless harrow

theorem unarrowed_of_arrowless {cs : List Char} (h : ¬ arrow <:+: cs) : unarrowed cs = cs := by
  induction cs with
  | nil => simp [unarrowed, replaceAll, startsWith, arrow]
  | cons c cs ih =>
    rw [unarrowed_cons fun hp => h (List.infix_cons_iff.mpr (.inl hp)),
      ih fun hi => h (List.infix_cons_iff.mpr (.inr hi))]

/-- What stands before the first member separator or arrow. -/
def beforeMember : List Char → List Char
  | [] => []
  | c :: rest =>
    if startsWith Fqsen.memberSeparator (c :: rest) || startsWith arrow (c :: rest) then []
    else c :: beforeMember rest

/-- A name that holds no blank, and no colon before its first member separator. -/
structure Writable (name : List Char) : Prop where
  blankless : ∀ c ∈ name, isBlank c = false
  colonless : ':' ∉ beforeMember name

instance (name : List Char) : Decidable (Writable name) :=
  decidable_of_iff (name.all (fun c => !isBlank c) = true ∧ ':' ∉ beforeMember name)
    ⟨fun h => ⟨by simpa using h.1, h.2⟩, fun h => ⟨by simpa using h.blankless, h.colonless⟩⟩

/-- A text that divides into an owner without a colon and a member, or has no colon at all. -/
inductive Divided : List Char → Prop
  | owned {owner : List Char} (h : ':' ∉ owner) (member : List Char) :
      Divided (owner ++ Fqsen.memberSeparator ++ member)
  | bare {name : List Char} (h : ':' ∉ name) : Divided name

theorem divided_unarrowed {cs : List Char} (h : ':' ∉ beforeMember cs) : Divided (unarrowed cs) := by
  induction cs with
  | nil => exact .bare (by simp [unarrowed, replaceAll, startsWith, arrow])
  | cons c rest ih =>
    rw [beforeMember] at h
    by_cases harrow : arrow <+: c :: rest
    · obtain ⟨more, hmore⟩ := harrow
      rw [← hmore, show arrow ++ more = '-' :: '>' :: more from rfl, unarrowed_arrow]
      exact @Divided.owned [] (by simp) _
    · have hnot : startsWith arrow (c :: rest) = false := by
        rw [Bool.eq_false_iff]
        exact fun hs => harrow (startsWith_iff.mp hs)
      rw [unarrowed_cons harrow]
      by_cases hsep : startsWith Fqsen.memberSeparator (c :: rest) = true
      · obtain ⟨more, hmore⟩ := startsWith_iff.mp hsep
        obtain ⟨rfl, rfl⟩ : ':' = c ∧ ':' :: more = rest := by
          simpa [Fqsen.memberSeparator] using hmore
        rw [unarrowed_cons fun hp => absurd (List.cons_prefix_cons.mp hp).1 (by decide)]
        exact @Divided.owned [] (by simp) _
      · rw [hnot, Bool.eq_false_iff.mpr hsep] at h
        obtain ⟨hc, hrest⟩ := not_or.mp (mt List.mem_cons.mpr h)
        have hd := ih hrest
        generalize unarrowed rest = new at hd
        cases hd with
        | owned howner member =>
          exact @Divided.owned (c :: _) (fun hm => (List.mem_cons.mp hm).elim hc howner) member
        | bare hbare => exact .bare fun hm => (List.mem_cons.mp hm).elim hc hbare

/-! ### Full names -/

/-- The text of a full name without a member: it starts with the separator and holds no colon. -/
structure Full (cs : List Char) : Prop where
  rooted : cs.head? = some Fqsen.separator
  colonless : ':' ∉ cs
  tidy : Tidy cs

instance (cs : List Char) : Decidable (Full cs) :=
  decidable_of_iff (cs.head? = some Fqsen.separator ∧ ':' ∉ cs ∧ Tidy cs)
    ⟨fun h => ⟨h.1, h.2.1, h.2.2⟩, fun h => ⟨h.rooted, h.colonless, h.tidy⟩⟩

theorem full_join {f : Fqsen} (hf : Full f.chars) {name : List Char} (hname : Tidy name)
    (hcolon : ':' ∉ name) : Full (f.join (String.ofList name)).chars := by
  have hplain : (f.join (String.ofList name)).Plain :=
    Fqsen.Plain.join ⟨hf.rooted, hf.colonless⟩ (by simpa using hcolon)
  refine ⟨hplain.1, hplain.2, ?_⟩
  have hsegment : Tidy (dropTrailChar Fqsen.separator (dropLeadChar Fqsen.separator name)) := by
    refine hname.of_infix ?_
    have hlead : dropLeadChar Fqsen.separator name <:+ name := List.dropWhile_suffix _
    have htrail (cs : List Char) : dropTrailChar Fqsen.separator cs <+: cs := by
      have h := (List.dropWhile_suffix (l := cs.reverse) (· == Fqsen.separator)).reverse
      rwa [List.reverse_reverse] at h
    exact (htrail _).isInfix.trans hlead.isInfix
  rw [Fqsen.join]
  simp only [String.toList_ofList]
  split
  · rw [Fqsen.chars_ofChars]
    exact tidy_nil.append hsegment (by decide) (by decide) (by decide)
  · rw [Fqsen.chars_ofChars]
    exact hf.tidy.append hsegment (by decide) (by decide) (by decide)

end Resolution

/-- The namespace, the targets of aliases and the container are full names without blanks, colons
and arrows. -/
structure Scope.Tidy (s : Scope) : Prop where
  space : Resolution.Full s.space.chars
  aliases : ∀ name target, s.aliases.get? name = some target → Resolution.Full target.chars
  container : ∀ c, s.container = some c → Resolution.Full c.chars

theorem Scope.exists_of_alias? {s : Scope} {name : String} {target : Fqsen}
    (h : s.alias? name = some target) : ∃ key, s.aliases.get? key = some target := by
  rw [alias?] at h
  split at h
  · next found hfound =>
    cases h
    exact ⟨name, hfound⟩
  · obtain ⟨⟨key, _⟩, hentry, rfl⟩ := Option.map_eq_some_iff.mp h
    exact ⟨key, NameMap.mem_entries_iff.mp (List.mem_of_find?_eq_some hentry)⟩

namespace Resolution

open Text

/-- What a class-like name can be taken for: itself, or as seen from the namespace, from the root or
from an import. -/
inductive Qualified (name : List Char) (scope : Scope) : List Char → Prop
  | full {rest : List Char} (h : name = Fqsen.separator :: rest) : Qualified name scope name
  | inSpace : Qualified name scope (scope.space.join (String.ofList name)).chars
  | inRoot : Qualified name scope (Fqsen.root.join (String.ofList name)).chars
  | imported {key : String} {target : Fqsen} (h : scope.aliases.get? key = some target) :
      Qualified name scope target.chars
  | behindImport {key : String} {target : Fqsen} {first rest : List Char}
      (h : scope.aliases.get? key = some target)
      (hcut : Text.cut? [Fqsen.separator] name = some (first, rest)) :
      Qualified name scope (target.join (String.ofList rest)).chars

theorem qualified_of_mem_qualify {name : List Char} {scope : Scope} {o : List Char}
    (ho : o ∈ (qualify name scope).1 :: (qualify name scope).2) : Qualified name scope o := by
  -- the names within the namespace of the scope and within the root
  have hrelative (ho : o ∈ (scope.space.join (String.ofList name)).chars ::
      if scope.space.isRoot then [] else [(Fqsen.root.join (String.ofList name)).chars]) :
      Qualified name scope o := by
    rcases List.mem_cons.mp ho with rfl | ho
    · exact .inSpace
    · split at ho
      · simp at ho
      · rw [List.mem_singleton.mp ho]
        exact .inRoot
  have hpair : (if scope.space.isRoot then ((scope.space.join (String.ofList name)).chars, [])
      else ((scope.space.join (String.ofList name)).chars,
        [(Fqsen.root.join (String.ofList name)).chars])) =
      ((scope.space.join (String.ofList name)).chars,
        if scope.space.isRoot then [] else [(Fqsen.root.join (String.ofList name)).chars]) := by
    split <;> rfl
  simp only [qualify, hpair] at ho
  split at ho
  · rw [List.mem_singleton.mp ho]
    exact .full rfl
  · split at ho
    · next hcut =>
      split at ho
      · next halias =>
        obtain ⟨key, hkey⟩ := Scope.exists_of_alias? halias
        rw [List.mem_singleton.mp ho]
        exact .behindImport hkey hcut
      · exact hrelative ho
    · split at ho
      · next halias =>
        obtain ⟨key, hkey⟩ := Scope.exists_of_alias? halias
        rw [List.mem_singleton.mp ho]
        exact .imported hkey
      · exact hrelative ho

/-- All full names that a name can have are in order. -/
theorem full_of_mem_qualify {name : List Char} {scope : Scope} (hs : scope.Tidy)
    (hname : Tidy name) (hcolon : ':' ∉ name) {o : List Char}
    (ho : o ∈ (qualify name scope).1 :: (qualify name scope).2) : Full o := by
  have hroot : Full Fqsen.root.chars :=
    ⟨by simp [Fqsen.root], Fqsen.plain_root.2, by
      simpa [Fqsen.root] using
        tidy_nil.append tidy_nil (c := Fqsen.separator) (by decide) (by decide) (by decide)⟩
  cases qualified_of_mem_qualify ho with
  | full h => exact ⟨by rw [h]; rfl, hcolon, hname⟩
  | inSpace => exact full_join hs.space hname hcolon
  | inRoot => exact full_join hroot hname hcolon
  | imported h => exact hs.aliases _ _ h
  | @behindImport _ _ first rest h hcut =>
    have hrest : rest <:+: name := ⟨first ++ [Fqsen.separator], [], by
      rw [← append_of_cut? hcut, List.append_nil]⟩
    exact full_join (hs.aliases _ _ h) (hname.of_infix hrest) fun hm => hcolon (hrest.subset hm)

/-! ### Names as they are looked up -/

/-- No word for the container starts with the separator. -/
theorem not_selfWord {cs : List Char} (h : cs.head? = some Fqsen.separator) :
    selfWords.contains (asciiLower (String.ofList cs)) = false := by
  obtain ⟨rest, rfl⟩ : ∃ rest, cs = Fqsen.separator :: rest := by
    cases cs with
    | nil => simp at h
    | cons c rest => exact ⟨rest, by simpa using h⟩
  have hhead : (asciiLower (String.ofList (Fqsen.separator :: rest))).toList.head? =
      some Fqsen.separator := by simp [asciiLower, Fqsen.separator]
  rw [Bool.eq_false_iff]
  intro hmem
  simp only [selfWords, List.contains_iff_mem, List.mem_cons, List.not_mem_nil, or_false] at hmem
  rcases hmem with hmem | hmem | hmem <;> rw [hmem] at hhead <;> revert hhead <;> decide

/-- A name divided at its member separator, of which the owner holds no colon. -/
theorem cut?_owned {owner : List Char} (h : ':' ∉ owner) (member : List Char) :
    cut? Fqsen.memberSeparator (owner ++ Fqsen.memberSeparator ++ member) = some (owner, member) :=
  cut?_append_of_not_mem h

theorem cut?_bare {name : List Char} (h : ':' ∉ name) : cut? Fqsen.memberSeparator name = none :=
  cut?_eq_none_of_not_mem h

theorem tidy_owned {owner member : List Char} (ho : Tidy owner) (hm : Tidy member) :
    Tidy (owner ++ Fqsen.memberSeparator ++ member) := by
  have hinner : Tidy (':' :: member) := tidy_nil.append hm (by decide) (by decide) (by decide)
  rw [List.append_assoc]
  exact ho.append hinner (by decide) (by decide) (by decide)

/-- A text that starts with the separator stays as it is. -/
theorem plainName_of_rooted {cs : List Char} (hd : Divided cs) (ht : Tidy cs)
    (hroot : cs.head? = some Fqsen.separator) (scope : Scope) : plainName cs scope = cs := by
  have hplain : replaceAll arrow Fqsen.memberSeparator cs = cs := unarrowed_of_arrowless ht.arrowless
  simp only [plainName, trim_of_blankless ht.blankless, hplain]
  cases scope.container with
  | none => rfl
  | some c =>
    cases hd with
    | @owned owner howner member =>
      simp only [cut?_owned howner]
      rw [not_selfWord, if_neg (by decide)]
      cases owner with
      | nil => simp [Fqsen.memberSeparator, Fqsen.separator] at hroot
      | cons d rest => simpa using hroot
    | bare hbare =>
      simp only [cut?_bare hbare]
      rw [not_selfWord hroot, if_neg (by decide)]

/-- What a name is looked up as: an owner without a colon and a member, or a name without a colon. -/
theorem divided_plainName {name : List Char} (hname : Writable name) {scope : Scope}
    (hs : scope.Tidy) : Divided (plainName name scope) ∧ Tidy (plainName name scope) := by
  have hd := divided_unarrowed hname.colonless
  have ht := tidy_unarrowed hname.blankless
  simp only [plainName, trim_of_blankless hname.blankless]
  rw [show replaceAll arrow Fqsen.memberSeparator name = unarrowed name from rfl]
  generalize unarrowed name = new at hd ht
  cases hc : scope.container with
  | none => exact ⟨hd, ht⟩
  | some c =>
    have hfull := hs.container c hc
    cases hd with
    | @owned owner howner member =>
      simp only [cut?_owned howner]
      split
      · refine ⟨.owned hfull.colonless member, tidy_owned hfull.tidy (ht.of_infix ?_)⟩
        exact (List.suffix_append _ member).isInfix
      · exact ⟨.owned howner member, ht⟩
    | bare hbare =>
      simp only [cut?_bare hbare]
      split
      · exact ⟨.bare hfull.colonless, hfull.tidy⟩
      · exact ⟨.bare hbare, ht⟩

/-! ### Settled keys -/

/-- A key that from everywhere has itself as the first candidate and as its full name, and of other
candidates only those of the list. -/
structure Settled (keys : List String) (key : String) : Prop where
  rooted : key.toList.head? = some Fqsen.separator
  first : ∀ scope, ∃ more, candidates key scope = key :: more ∧ more ⊆ keys
  best : ∀ scope, primary key scope = ⟨key⟩

theorem qualify_of_rooted {cs : List Char} (h : cs.head? = some Fqsen.separator) (scope : Scope) :
    qualify cs scope = (cs, []) := by
  cases cs with
  | nil => simp at h
  | cons c rest =>
    obtain rfl : c = Fqsen.separator := by simpa using h
    rfl

theorem ofText_of_rooted {cs : List Char} (h : cs.head? = some Fqsen.separator)
    (ht : ∀ c ∈ cs, isBlank c = false) : Fqsen.ofText (String.ofList cs) = ⟨String.ofList cs⟩ := by
  rw [Fqsen.ofText, String.toList_ofList, trim_of_blankless ht]
  cases cs with
  | nil => simp at h
  | cons c rest =>
    obtain rfl : c = Fqsen.separator := by simpa using h
    rfl

/-- The full name of an element that is no member has no other candidate. -/
theorem settled_full {o : List Char} (h : Full o) (keys : List String) :
    Settled keys (String.ofList o) := by
  have hplain (scope : Scope) : plainName o scope = o :=
    plainName_of_rooted (.bare h.colonless) h.tidy h.rooted scope
  have hlike : isMemberLike o = false := by
    have hmem : Fqsen.separator ∈ o := List.mem_of_head? h.rooted
    simp [isMemberLike, hmem]
  refine ⟨by simpa using h.rooted, fun scope => ⟨[], ?_, List.nil_subset _⟩, fun scope => ?_⟩
  · rw [candidates]
    simp only [String.toList_ofList, hplain, cut?_bare h.colonless, qualify_of_rooted h.rooted, hlike]
    cases scope.container <;> rfl
  · rw [primary]
    simp only [String.toList_ofList, hplain, cut?_bare h.colonless, qualify_of_rooted h.rooted]
    exact ofText_of_rooted h.rooted h.tidy.blankless

/-- The full name of a member has the spellings of the member as candidates. -/
theorem settled_member {o m : List Char} (ho : Full o) (hm : Tidy m) {keys : List String}
    (hkeys : ∀ x ∈ memberSpellings m, String.ofList (o ++ Fqsen.memberSeparator ++ x) ∈ keys) :
    Settled keys (String.ofList (o ++ Fqsen.memberSeparator ++ m)) := by
  have htidy := tidy_owned ho.tidy hm
  have hroot : (o ++ Fqsen.memberSeparator ++ m).head? = some Fqsen.separator := by
    rw [List.append_assoc, List.head?_append, ho.rooted]
    rfl
  have hplain (scope : Scope) :
      plainName (o ++ Fqsen.memberSeparator ++ m) scope = o ++ Fqsen.memberSeparator ++ m :=
    plainName_of_rooted (.owned ho.colonless m) htidy hroot scope
  obtain ⟨more, hmore⟩ : ∃ more, memberSpellings m = m :: more := by
    rw [memberSpellings]
    split
    · exact ⟨[], rfl⟩
    · exact ⟨_, rfl⟩
  refine ⟨by simpa using hroot, fun scope => ?_, fun scope => ?_⟩
  · refine ⟨more.map fun x => String.ofList (o ++ Fqsen.memberSeparator ++ x), ?_, ?_⟩
    · rw [candidates]
      simp only [String.toList_ofList, hplain, cut?_owned ho.colonless, qualify_of_rooted ho.rooted,
        List.flatMap_cons, List.flatMap_nil, List.append_nil, hmore, List.map_cons, List.map_map,
        Function.comp_def]
    · intro key hkey
      obtain ⟨x, hx, rfl⟩ := List.mem_map.mp hkey
      exact hkeys x (hmore ▸ List.mem_cons_of_mem _ hx)
  · rw [primary]
    simp only [String.toList_ofList, hplain, cut?_owned ho.colonless, qualify_of_rooted ho.rooted]
    exact ofText_of_rooted hroot htidy.blankless

/-- A member that was found under one of its spellings has only spellings of the same list. -/
theorem memberSpellings_subset {m x : List Char} (hx : x ∈ memberSpellings m) :
    memberSpellings x ⊆ memberSpellings m := by
  rw [memberSpellings] at hx
  split at hx
  · rw [List.mem_singleton.mp hx]
    exact List.Subset.refl _
  · next hplain =>
    have hspellings : memberSpellings m = [m, m ++ Fqsen.callMark, '$' :: m] := by
      rw [memberSpellings, if_neg hplain]
    have hself {x : List Char} (hx : x ∈ memberSpellings m)
        (hmarked : (endsWith Fqsen.callMark x || x.head? == some '$') = true) :
        memberSpellings x ⊆ memberSpellings m := by
      rw [memberSpellings, if_pos hmarked]
      exact List.cons_subset.mpr ⟨hx, List.nil_subset _⟩
    simp only [List.mem_cons, List.not_mem_nil, or_false] at hx
    rcases hx with rfl | rfl | rfl
    · exact List.Subset.refl _
    · exact hself (by simp [hspellings]) (by simp [endsWith])
    · exact hself (by simp [hspellings]) (by simp)

theorem tidy_of_mem_memberSpellings {m x : List Char} (hm : Tidy m) (hx : x ∈ memberSpellings m) :
    Tidy x := by
  rw [memberSpellings] at hx
  split at hx
  · rwa [List.mem_singleton.mp hx]
  · simp only [List.mem_cons, List.not_mem_nil, or_false] at hx
    rcases hx with rfl | rfl | rfl
    · exact hm
    · have hclose : Tidy [')'] := tidy_nil.append tidy_nil (by decide) (by decide) (by decide)
      exact hm.append hclose (by decide) (by decide) (by decide)
    · exact tidy_nil.append hm (by decide) (by decide) (by decide)

/-- Every key that a name can have is settled. -/
theorem settled_of_mem_candidates {name : String} {scope : Scope} (hname : Writable name.toList)
    (hs : scope.Tidy) {key : String} (hkey : key ∈ candidates name scope) :
    Settled (candidates name scope) key := by
  obtain ⟨hd, ht⟩ := divided_plainName hname hs
  rw [candidates] at hkey ⊢
  generalize plainName name.toList scope = plain at hd ht hkey ⊢
  cases hd with
  | @owned owner howner member =>
    have htowner : Tidy owner := ht.of_infix ⟨[], Fqsen.memberSeparator ++ member, by simp⟩
    have htmember : Tidy member := ht.of_infix (List.suffix_append _ member).isInfix
    simp only [cut?_owned howner, List.map_flatMap, List.map_map] at hkey ⊢
    obtain ⟨o, ho, hkey⟩ := List.mem_flatMap.mp hkey
    obtain ⟨x, hx, rfl⟩ := List.mem_map.mp hkey
    refine settled_member (full_of_mem_qualify hs htowner howner ho)
      (tidy_of_mem_memberSpellings htmember hx) fun y hy => ?_
    exact List.mem_flatMap.mpr ⟨o, ho, List.mem_map.mpr ⟨y, memberSpellings_subset hx hy, rfl⟩⟩
  | bare hbare =>
    simp only [cut?_bare hbare] at hkey ⊢
    obtain ⟨cs, hcs, rfl⟩ := List.mem_map.mp hkey
    rcases List.mem_append.mp hcs with hmember | hfull
    · -- the name of a member of the container, with a mark: there is no other spelling of it
      cases hc : scope.container with
      | none => simp [hc] at hmember
      | some c =>
        simp only [hc] at hmember ⊢
        split at hmember
        · next hlike =>
          rw [List.mem_singleton.mp hmember]
          refine settled_member (hs.container c hc) ht fun y hy => ?_
          have hmarked := (Bool.and_eq_true _ _ ▸ hlike).2
          rw [memberSpellings, if_pos hmarked] at hy
          rw [List.mem_singleton.mp hy, if_pos hlike]
          exact List.mem_map_of_mem (List.mem_append_left _ List.mem_cons_self)
        · simp at hmember
    · exact settled_full (full_of_mem_qualify hs ht hbare hfull) _

/-- The full name of a name that is not found is among its keys. -/
theorem text_primary_mem_candidates {name : String} {scope : Scope} (hname : Writable name.toList)
    (hs : scope.Tidy) : (primary name scope).text ∈ candidates name scope := by
  obtain ⟨hd, ht⟩ := divided_plainName hname hs
  rw [candidates, primary]
  generalize plainName name.toList scope = plain at hd ht ⊢
  cases hd with
  | @owned owner howner member =>
    have htowner : Tidy owner := ht.of_infix ⟨[], Fqsen.memberSeparator ++ member, by simp⟩
    have htmember : Tidy member := ht.of_infix (List.suffix_append _ member).isInfix
    have hfull := full_of_mem_qualify hs htowner howner List.mem_cons_self
    have hself : member ∈ memberSpellings member := by
      rw [memberSpellings]
      split <;> exact List.mem_cons_self
    have hroot : ((qualify owner scope).1 ++ Fqsen.memberSeparator ++ member).head? =
        some Fqsen.separator := by
      rw [List.append_assoc, List.head?_append, hfull.rooted]
      rfl
    simp only [cut?_owned howner]
    rw [ofText_of_rooted hroot (tidy_owned hfull.tidy htmember).blankless]
    exact List.mem_map_of_mem (List.mem_flatMap.mpr
      ⟨_, List.mem_cons_self, List.mem_map_of_mem hself⟩)
  | bare hbare =>
    have hfull := full_of_mem_qualify hs ht hbare List.mem_cons_self
    simp only [cut?_bare hbare]
    rw [ofText_of_rooted hfull.rooted hfull.tidy.blankless]
    exact List.mem_map_of_mem (List.mem_append_right _ List.mem_cons_self)

/-! ### Resolving twice -/

section Lookup

variable {lookup : String → Option Target}

theorem firstEntry_eq_none_iff {keys : List String} :
    firstEntry lookup keys = none ↔ ∀ key ∈ keys, lookup key = none := by
  induction keys with
  | nil => simp [firstEntry]
  | cons key keys ih => cases h : lookup key <;> simp [firstEntry, h, ih]

theorem firstEntry_spec {keys : List String} {key : String} {target : Target}
    (h : firstEntry lookup keys = some (key, target)) : key ∈ keys ∧ lookup key = some target := by
  induction keys with
  | nil => simp [firstEntry] at h
  | cons head keys ih =>
    rw [firstEntry] at h
    split at h
    · next found hfound =>
      cases h
      exact ⟨List.mem_cons_self, hfound⟩
    · exact ⟨List.mem_cons_of_mem _ (ih h).1, (ih h).2⟩

/-- The key under which a namespace with the full name is kept. -/
def spaceKey (key : String) : String := spaceMark.toString ++ key

/-- A key that starts with the separator is the text of what is found under it. -/
theorem text_found {key : String} (h : key.toList.head? = some Fqsen.separator) (target : Target) :
    (Resolution.found key target).text = key := by
  have hdrop : dropLeadChar spaceMark key.toList = key.toList := by
    cases hcs : key.toList with
    | nil => rfl
    | cons c rest =>
      obtain rfl : c = Fqsen.separator := by simpa [hcs] using h
      rfl
  rw [text, hdrop, String.ofList_toList]

theorem text_found_spaceKey {key : String} (h : key.toList.head? = some Fqsen.separator)
    (target : Target) : (Resolution.found (spaceKey key) target).text = key := by
  have hmarked : dropLeadChar spaceMark (spaceKey key).toList = dropLeadChar spaceMark key.toList := by
    simp [spaceKey, dropLeadChar]
  have hplain := text_found h target
  rw [text] at hplain ⊢
  rw [hmarked, hplain]

/-- How a resolution comes about: a key is found as it is, or no key is, and one is found as a
namespace, or none is either. -/
inductive Outcome (lookup : String → Option Target) (keys : List String) (best : Fqsen) :
    Resolution → Prop
  | direct {key : String} {target : Target} (hkey : key ∈ keys) (h : lookup key = some target) :
      Outcome lookup keys best (.found key target)
  | space {key : String} {target : Target} (hnone : ∀ k ∈ keys, lookup k = none) (hkey : key ∈ keys)
      (h : lookup (spaceKey key) = some target) : Outcome lookup keys best (.found (spaceKey key) target)
  | none (hnone : ∀ k ∈ keys, lookup k = none) (hspace : ∀ k ∈ keys, lookup (spaceKey k) = none) :
      Outcome lookup keys best (.missing best)

theorem outcome_resolve (lookup : String → Option Target) (name : String) (scope : Scope) :
    Outcome lookup (candidates name scope) (primary name scope) (resolve lookup name scope) := by
  rw [resolve]
  split
  · next key target h =>
    obtain ⟨hkey, hlookup⟩ := firstEntry_spec h
    exact .direct hkey hlookup
  · next hdirect =>
    have hnone := firstEntry_eq_none_iff.mp hdirect
    split
    · next key target h =>
      obtain ⟨hkey, hlookup⟩ := firstEntry_spec h
      obtain ⟨k, hk, rfl⟩ := List.mem_map.mp hkey
      exact .space hnone hk hlookup
    · next hspace =>
      have hmapped := firstEntry_eq_none_iff.mp hspace
      exact .none hnone fun k hk => hmapped _ (List.mem_map_of_mem hk)

/-- A settled key with an entry is found from everywhere. -/
theorem Settled.resolve_direct {keys : List String} {key : String} (h : Settled keys key)
    {target : Target} (ht : lookup key = some target) (scope : Scope) :
    resolve lookup key scope = .found key target := by
  obtain ⟨more, hmore, -⟩ := h.first scope
  simp [resolve, hmore, firstEntry, ht]

/-- A settled key of a list without entries has none itself, from wherever it is seen. -/
theorem Settled.firstEntry_candidates {keys : List String} {key : String} (h : Settled keys key)
    (hkey : key ∈ keys) (hnone : ∀ k ∈ keys, lookup k = none) (scope : Scope) :
    firstEntry lookup (candidates key scope) = none := by
  obtain ⟨more, hmore, hsub⟩ := h.first scope
  refine firstEntry_eq_none_iff.mpr fun k hk => ?_
  rw [hmore] at hk
  rcases List.mem_cons.mp hk with rfl | hk
  · exact hnone _ hkey
  · exact hnone _ (hsub hk)

theorem firstEntry_map_spaceKey (keys : List String) :
    firstEntry lookup (keys.map fun key => spaceMark.toString ++ key) =
      (firstEntry (lookup ∘ spaceKey) keys).map fun (key, target) => (spaceKey key, target) := by
  induction keys with
  | nil => rfl
  | cons key keys ih =>
    rw [List.map_cons, firstEntry, firstEntry, ih,
      show spaceMark.toString ++ key = spaceKey key from rfl]
    cases h : lookup (spaceKey key) <;> simp [h]

/-- Where a list has no entries, a settled key of it with an entry as a namespace is found as that. -/
theorem Settled.resolve_space {keys : List String} {key : String} (h : Settled keys key)
    (hkey : key ∈ keys) (hnone : ∀ k ∈ keys, lookup k = none) {target : Target}
    (ht : lookup (spaceKey key) = some target) (scope : Scope) :
    resolve lookup key scope = .found (spaceKey key) target := by
  obtain ⟨more, hmore, -⟩ := h.first scope
  have hspace : firstEntry (lookup ∘ spaceKey) (candidates key scope) = some (key, target) := by
    simp [hmore, firstEntry, ht]
  simp only [resolve, h.firstEntry_candidates hkey hnone scope, firstEntry_map_spaceKey, hspace]
  rfl

/-- Where a list has no entries, not as namespaces either, a settled key of it is missing. -/
theorem Settled.resolve_none {keys : List String} {key : String} (h : Settled keys key)
    (hkey : key ∈ keys) (hnone : ∀ k ∈ keys, lookup k = none)
    (hspace : ∀ k ∈ keys, lookup (spaceKey k) = none) (scope : Scope) :
    resolve lookup key scope = .missing ⟨key⟩ := by
  have hspaces : firstEntry (lookup ∘ spaceKey) (candidates key scope) = none :=
    h.firstEntry_candidates hkey hspace scope
  simp only [resolve, h.firstEntry_candidates hkey hnone scope, firstEntry_map_spaceKey, hspaces,
    h.best scope]
  rfl

section Tidy

variable {name : String} {scope : Scope} (hname : Writable name.toList) (hs : scope.Tidy)
include hname hs

/-- A name in order is resolved to one of its keys. -/
theorem text_resolve_mem_candidates :
    (resolve lookup name scope).text ∈ candidates name scope := by
  have hroot {key : String} (hkey : key ∈ candidates name scope) :=
    (settled_of_mem_candidates hname hs hkey).rooted
  have hout := outcome_resolve lookup name scope
  generalize resolve lookup name scope = r at hout
  cases hout with
  | direct hkey h => rwa [text_found (hroot hkey)]
  | space hnone hkey h => rwa [text_found_spaceKey (hroot hkey)]
  | none hnone hspace => exact text_primary_mem_candidates hname hs

theorem rooted_text_resolve :
    (resolve lookup name scope).text.toList.head? = some Fqsen.separator :=
  (settled_of_mem_candidates hname hs (text_resolve_mem_candidates hname hs)).rooted

/-- A resolution of a name in order is resolved to itself by its text, from everywhere. -/
theorem resolve_text_resolve (other : Scope) :
    resolve lookup (resolve lookup name scope).text other = resolve lookup name scope := by
  have hsettled {key : String} (hkey : key ∈ candidates name scope) :=
    settled_of_mem_candidates hname hs hkey
  have hout := outcome_resolve lookup name scope
  generalize resolve lookup name scope = r at hout
  cases hout with
  | direct hkey h =>
    rw [text_found (hsettled hkey).rooted]
    exact (hsettled hkey).resolve_direct h other
  | space hnone hkey h =>
    rw [text_found_spaceKey (hsettled hkey).rooted]
    exact (hsettled hkey).resolve_space hkey hnone h other
  | none hnone hspace =>
    have hmem := text_primary_mem_candidates hname hs
    exact (hsettled hmem).resolve_none hmem hnone hspace other

/-- The full name of what is missing has no entry, not as a namespace either. -/
theorem lookup_of_resolve_eq_missing {fqsen : Fqsen}
    (h : resolve lookup name scope = .missing fqsen) :
    lookup fqsen.text = none ∧ lookup (spaceKey fqsen.text) = none := by
  have hout := outcome_resolve lookup name scope
  rw [h] at hout
  cases hout with
  | none hnone hspace =>
    have hmem := text_primary_mem_candidates hname hs
    exact ⟨hnone _ hmem, hspace _ hmem⟩

end Tidy

end Lookup

end Resolution

/-- Resolved names are canonical: the full name of what a name in order was resolved to is resolved
to the same from everywhere, and what is missing has a full name without an entry. -/
theorem ApiSet.canonical_resolve (s : ApiSet) {name : String} {scope : Scope}
    (hname : Resolution.Writable name.toList) (hscope : scope.Tidy) :
    (∀ other : Scope, s.resolve (s.resolve name scope).text other = s.resolve name scope) ∧
      ∀ fqsen, s.resolve name scope = .missing fqsen →
        s.lookup fqsen.text = none ∧ s.lookup (Resolution.spaceKey fqsen.text) = none :=
  ⟨Resolution.resolve_text_resolve hname hscope,
    fun _ hmissing => Resolution.lookup_of_resolve_eq_missing hname hscope hmissing⟩

/-- A method of a class that is found through an import in other letter case, and by an arrow. -/
theorem ApiSet.canonical_resolve_imported :
    let s : ApiSet := ({ name := "api" } : ApiSet).addEntry Index.elements "\\Lib\\Base::run()"
      (.element ⟨0, .method, ⟨"\\Lib\\Base::run()"⟩⟩)
    let scope : Scope :=
      { space := ⟨"\\App"⟩, aliases := NameMap.empty.insert "Base" ⟨"\\Lib\\Base"⟩,
        container := some ⟨"\\App\\Shop"⟩ }
    (s.resolve "base->run" scope).text = "\\Lib\\Base::run()" ∧
      s.resolve "\\Lib\\Base::run()" {} = s.resolve "base->run" scope := by
  intro s scope
  have htext : (s.resolve "base->run" scope).text = "\\Lib\\Base::run()" := by decide +kernel
  have hscope : scope.Tidy := by
    have hspace : Resolution.Full (Fqsen.chars ⟨"\\App"⟩) := by decide +kernel
    have hbase : Resolution.Full (Fqsen.chars ⟨"\\Lib\\Base"⟩) := by decide +kernel
    have hshop : Resolution.Full (Fqsen.chars ⟨"\\App\\Shop"⟩) := by decide +kernel
    refine ⟨hspace, fun name target h => ?_, fun c hc => ?_⟩
    · rw [NameMap.get?_insert] at h
      split at h
      · exact (Option.some.inj h) ▸ hbase
      · simp [NameMap.get?, NameMap.empty, NameMap.lookupIn] at h
    · exact (Option.some.inj hc) ▸ hshop
  refine ⟨htext, ?_⟩
  have hname : Resolution.Writable "base->run".toList := by decide +kernel
  have h := (s.canonical_resolve hname hscope).1 {}
  rwa [htext] at h

end ApiDoc
