import Mathlib.Data.List.Basic
import ApiDoc.Proofs.Reader
import ApiDoc.Proofs.Statements

/-!
# Namespace blocks

Code is read up to its end, whatever declarations and blocks it is made of (`Reading.reads_code`): the
induction is over the grammar, so a block is read as the code between its braces. So the block of a
namespace ends at the brace that matches its own. What is declared in it has names in that namespace,
and what is declared behind it has names in the namespace around it.
-/

namespace ApiDoc

/-! ### Elements of an outline -/

namespace Outline

/-- What an outline knows of is what it knew before and what is declared. -/
theorem isSome_found_enter (space : Fqsen) (o : Outline) (d : Declaration) (kind : ElementKind)
    (key : String) : ((o.enter space d).found kind key).isSome ↔ (o.found kind key).isSome ∨
      ∃ fqsen, d.element? space = some (kind, fqsen) ∧ fqsen.text = key := by
  have hadd (k : ElementKind) (name : Fqsen) (bases : Bases) :
      ((o.add k name bases).found kind key).isSome ↔ (o.found kind key).isSome ∨
        ∃ fqsen, some (k, name) = some (kind, fqsen) ∧ fqsen.text = key := by
    by_cases h : kind = k ∧ key = name.text
    · obtain ⟨rfl, rfl⟩ := h
      simp [add]
    · have hnone : ¬ ∃ fqsen, some (k, name) = some (kind, fqsen) ∧ fqsen.text = key := by
        rintro ⟨fqsen, heq, rfl⟩
        cases heq
        exact h ⟨rfl, rfl⟩
      simp only [add, if_neg h, hnone, or_false]
  obtain ⟨construct, inner⟩ := d
  cases construct with
  | imports items => simp [enter, Declaration.element?, Construct.element?]
  | constant name => exact hadd .constant _ {}
  | defined fqsen => exact hadd .constant fqsen {}
  | function name => exact hadd .function _ {}
  | classLike k name parent interfaces traits => exact hadd k _ _

theorem isSome_found_foldl (space : Fqsen) (ds : List Declaration) (o : Outline)
    (kind : ElementKind) (key : String) :
    ((ds.foldl (enter space) o).found kind key).isSome ↔ (o.found kind key).isSome ∨
      ∃ d ∈ ds, ∃ fqsen, d.element? space = some (kind, fqsen) ∧ fqsen.text = key := by
  induction ds generalizing o with
  | nil => simp
  | cons d ds ih =>
    rw [List.foldl_cons, ih, isSome_found_enter, or_assoc]
    simp only [List.mem_cons, exists_eq_or_imp]

end Outline

/-- A file has an element of a kind and a name outside of any class-like. -/
def File.Records (f : File) (kind : ElementKind) (fqsen : Fqsen) : Prop :=
  ∃ item, f.topItem? kind fqsen.text = some item ∧ item.info.fqsen = fqsen

theorem File.isSome_found (f : File) (kind : ElementKind) (key : String) :
    (f.outline.found kind key).isSome = (f.topItem? kind key).isSome := by
  cases kind <;> simp [outline, basesAt?, topItem?]

theorem File.Keyed.records_iff {f : File} (hf : f.Keyed) {kind : ElementKind} {fqsen : Fqsen} :
    f.Records kind fqsen ↔ (f.outline.found kind fqsen.text).isSome := by
  rw [isSome_found, Option.isSome_iff_exists]
  constructor
  · rintro ⟨item, hitem, -⟩
    exact ⟨item, hitem⟩
  · rintro ⟨item, hitem⟩
    exact ⟨item, hitem, Fqsen.eq_of_text_eq (hf (.top kind fqsen.text) item hitem).2⟩

namespace Reading

open Cursor

/-! ### Blocks -/

/-- A block, of statements or of a namespace: what is declared in it is entered, the namespace and
the blocks around it are back behind its brace. -/
theorem reads_block {s inner u : Reading} {opening body rest : List Token} {c : Token} {line : Nat}
    {outer : Option Fqsen} {inside ds : List Declaration} (hopening : s.Passes opening inner)
    (hfile : inner.file = s.file) (hblocks : inner.blocks = ⟨line, outer⟩ :: s.blocks)
    (hspace : outer.getD inner.space = s.space)
    (hinside : ∀ o, ds.foldl (Outline.enter s.space) o = inside.foldl (Outline.enter inner.space) o)
    (hbody : inner.Reads body inside u) (hrest : u.cursor.rest = c :: rest)
    (hc : c.closesBlock = true) :
    ∃ v, s.Reads (opening ++ (body ++ [c])) ds v ∧ v.cursor = ⟨some c, rest⟩ := by
  have hstep : u.tokenAhead c = u.forget.step.closeBlock := by
    have hopens : c.opensBlock = false := Token.is_eq_false hc (by decide)
    rw [tokenAhead, Token.kind_of_is hc]
    simp [hopens, hc]
  have hclose : u.forget.step.closeBlock =
      { u.forget.step with blocks := s.blocks, space := s.space } := by
    have hopen : u.forget.step.blocks = ⟨line, outer⟩ :: s.blocks := hbody.blocks.trans hblocks
    have hback : outer.getD u.forget.step.space = s.space :=
      (congrArg outer.getD hbody.space).trans hspace
    rw [closeBlock, hopen]
    simp only [hback]
  have hcursor : u.forget.step.cursor = ⟨some c, rest⟩ := step_of_rest hrest
  refine ⟨{ u.forget.step with blocks := s.blocks, space := s.space }, ⟨⟨rfl, rfl, ?_⟩, ?_⟩, hcursor⟩
  · exact hbody.outline.trans (by rw [hfile, hinside])
  · refine hopening.trans (hbody.toPasses.trans (passes_of_step ?_ (hstep.trans hclose)))
    rw [hrest, hcursor]
    rfl

/-- What follows a part that is read stands ahead behind it. -/
theorem Passes.rest_eq {s u : Reading} {ts rest : List Token} (h : s.Passes ts u)
    (hs : s.cursor.rest = ts ++ rest) : u.cursor.rest = rest :=
  List.append_cancel_left (h.rest.symm.trans hs)

section

variable {s : Reading} {o c : Token} {body rest : List Token} {inside : List Declaration}
  (hbody : ∀ (inner : Reading) (rest : List Token), inner.cursor.rest = body ++ c :: rest →
    inner.lead = .plain → ∃ u, inner.Reads body inside u)
include hbody

theorem exists_reads_block (hs : s.cursor.rest = o :: (body ++ c :: rest))
    (ho : o.opensBlock = true) (hc : c.closesBlock = true) :
    ∃ v, s.Reads (o :: (body ++ [c])) inside v ∧ v.cursor = ⟨some c, rest⟩ := by
  have hcursor : s.forget.step.cursor = ⟨some o, body ++ c :: rest⟩ := step_of_rest hs
  let inner : Reading := { s.forget.step with blocks := ⟨o.line, none⟩ :: s.blocks }
  have hstep : s.tokenAhead o = inner := by
    rw [tokenAhead, Token.kind_of_is ho]
    simp [ho, inner]
  have hlead : inner.lead = .plain := lead_of_cursor hcursor (lead_of_is ho (by decide))
  obtain ⟨u, hu⟩ := hbody inner _ (congrArg Cursor.rest hcursor) hlead
  have hopening : s.Passes [o] inner := by
    refine passes_of_step ?_ hstep
    rw [hs, show inner.cursor = _ from hcursor]
    rfl
  exact reads_block hopening rfl rfl rfl (fun _ => rfl) hu
    (hu.rest_eq (congrArg Cursor.rest hcursor)) hc

theorem exists_reads_space {kw : Token} {name : List Token} {space : Fqsen}
    (hs : s.cursor.rest = kw :: (name ++ o :: (body ++ c :: rest))) (hne : s.lead ≠ .access)
    (hkw : kw.isKeyword "namespace" = true) (hname : SpaceName name space)
    (ho : o.opensBlock = true) (hc : c.closesBlock = true) :
    ∃ v, s.Reads (kw :: (name ++ o :: (body ++ [c]))) (inside.map (Declaration.within space)) v ∧
      v.cursor = ⟨some c, rest⟩ := by
  obtain ⟨line, hstep⟩ : ∃ line, s.namespaceDeclaration =
      { s.forget with
        cursor := ⟨some o, body ++ c :: rest⟩
        space := space
        blocks := ⟨line, some s.space⟩ :: s.blocks } := by
    rw [namespaceDeclaration, step_of_rest hs]
    cases hname with
    | root =>
      have hnone : (Cursor.mk (some kw) (o :: (body ++ c :: rest))).name? = none :=
        name?_eq_none rfl (Token.not_name_of_is ho)
      have hopen := eat_of_rest (c := ⟨some kw, o :: (body ++ c :: rest)⟩) (t := o) rfl ho
      simp only [List.nil_append, hnone, hopen]
      exact ⟨_, rfl⟩
    | @named t ht =>
      have hsome := name?_of_rest (c := ⟨some kw, t :: o :: (body ++ c :: rest)⟩) rfl ht
      have hopen := eat_of_rest (c := ⟨some t, o :: (body ++ c :: rest)⟩) (t := o) rfl ho
      simp only [List.singleton_append, hsome, hopen]
      exact ⟨_, rfl⟩
  let inner : Reading :=
    { s.forget with
      cursor := ⟨some o, body ++ c :: rest⟩
      space := space
      blocks := ⟨line, some s.space⟩ :: s.blocks }
  have hlead : inner.lead = .plain := lead_of_cursor (u := inner) rfl (lead_of_is ho (by decide))
  obtain ⟨u, hu⟩ := hbody inner _ rfl hlead
  have hopening : s.Passes (kw :: (name ++ [o])) inner := by
    refine passes_of_step (hs.trans ?_) ?_
    · simp [inner]
    · rw [tokenAhead_word (Token.kind_of_isKeyword hkw) hne, wordAhead_namespace hkw, hstep]
  obtain ⟨v, hv, hcursor⟩ := reads_block hopening rfl rfl rfl
    (fun o => Outline.foldl_enter_within s.space space o inside) hu (hu.rest_eq rfl) hc
  exact ⟨v, by simpa using hv, hcursor⟩

end

/-! ### Code -/

/-- Every statement starts with a word. -/
theorem statement_head {l : Lead} {ts more : List Token} {ds : List Declaration}
    (h : Statement l ts more ds) : ∃ kw rest, ts = kw :: rest ∧ kw.kind = .name := by
  cases h with
  | included hkw | includedInner hkw => exact ⟨_, _, rfl, kind_of_isInclude hkw⟩
  | @«class» kw _ modifiers _ _ _ _ _ _ _ hmodifiers _ hkw
  | @nameless kw _ modifiers _ hmodifiers _ hkw =>
    cases modifiers with
    | nil => exact ⟨kw, _, rfl, Token.kind_of_isKeyword hkw⟩
    | cons first modifiers =>
      exact ⟨first, _, rfl, kind_of_isModifier (hmodifiers first List.mem_cons_self)⟩
  | @modifiers first _ modifiers _ hmodifiers =>
    exact ⟨first, _, rfl, kind_of_isModifier (hmodifiers first List.mem_cons_self)⟩
  | anonymous _ hkw => exact ⟨_, _, rfl, Token.kind_of_isKeyword hkw⟩
  | word hkw =>
    refine ⟨_, _, rfl, ?_⟩
    rcases hkw with hkw | hkw | hkw <;> exact Token.kind_of_isKeyword hkw
  | _ hkw => exact ⟨_, _, rfl, Token.kind_of_isKeyword hkw⟩

/-- Code is read as it is written: the reader gets behind it, with what it declares entered. What
leads to the code matters only if it starts with a word. -/
theorem reads_code {l : Lead} {ts : List Token} {next : Option Token} {ds : List Declaration}
    (h : Code l ts next ds) {s : Reading} {tail : List Token} (hs : s.cursor.rest = ts ++ tail)
    (hnext : tail.head? = next) (hl : ∀ t ∈ ts.head?, t.kind = .name → s.lead = l) :
    ∃ u, s.Reads ts ds u := by
  -- the induction follows the statements, and the nesting of the blocks
  induction h generalizing s tail with
  | nil => exact ⟨s, .refl s⟩
  | @token l t ts next ds hopens hcloses hword _ ih =>
    obtain ⟨u, hu, hcursor⟩ := reads_token hs hopens hcloses fun hkind =>
      hl t rfl hkind ▸ hword hkind
    obtain ⟨v, hv⟩ := ih (congrArg Cursor.rest hcursor) hnext fun _ _ _ => by rw [lead, hcursor]
    exact ⟨v, hu.trans hv⟩
  | @block l o c body more next inside behind ho _ hc _ ihbody ihmore =>
    have hs' : s.cursor.rest = o :: (body ++ c :: (more ++ tail)) := hs.trans (by simp)
    obtain ⟨v, hv, hcursor⟩ := exists_reads_block (fun inner rest hrest hlead =>
      ihbody hrest rfl fun _ _ _ => hlead) hs' ho hc
    obtain ⟨w, hw⟩ := ihmore (congrArg Cursor.rest hcursor) hnext fun _ _ _ =>
      lead_of_cursor hcursor (lead_of_is hc (by decide))
    refine ⟨w, ?_⟩
    simpa using hv.trans hw
  | @space l kw o c name body more next space inside behind hl' hkw hname ho _ hc _ ihbody ihmore =>
    have hlead : s.lead = l := hl kw rfl (Token.kind_of_isKeyword hkw)
    have hs' : s.cursor.rest = kw :: (name ++ o :: (body ++ c :: (more ++ tail))) :=
      hs.trans (by simp)
    obtain ⟨v, hv, hcursor⟩ := exists_reads_space (fun inner rest hrest hlead =>
      ihbody hrest rfl fun _ _ _ => hlead) hs' (hlead ▸ hl') hkw hname ho hc
    obtain ⟨w, hw⟩ := ihmore (congrArg Cursor.rest hcursor) hnext fun _ _ _ =>
      lead_of_cursor hcursor (lead_of_is hc (by decide))
    refine ⟨w, ?_⟩
    simpa using hv.trans hw
  | @statement l ts more next ds others hl' hstatement _ ih =>
    obtain ⟨kw, rest, hts, hkind⟩ := statement_head hstatement
    have hlead : s.lead = l := hl kw (by simp [hts]) hkind
    have hbehind : more ++ tail = more ++ next.toList ++ tail.tail := by
      subst hnext
      cases tail <;> simp
    have hs' : s.cursor.rest = ts ++ (more ++ next.toList ++ tail.tail) := by
      rw [hs, List.append_assoc, hbehind]
    obtain ⟨u, hu, hplain⟩ := reads_statement hstatement hs' hlead hl'
    rw [← hbehind] at hplain
    obtain ⟨v, hv⟩ := ih (hu.rest_eq (hs.trans (List.append_assoc ts more tail))) hnext
      fun t ht => hplain t (by rw [List.head?_append, ht]; rfl)
    exact ⟨v, hu.trans hv⟩

theorem Passes.sound {s u : Reading} {ts : List Token} (h : s.Passes ts u) (hs : s.Sound) :
    u.Sound := by
  obtain ⟨n, -, hrun⟩ := h.steps
  have hu : run n s = u := hrun 0
  exact hu ▸ hs.run n

/-- What is recorded behind code is what was recorded in front of it and what the code declares. -/
theorem Reads.records_iff {s u : Reading} {ts : List Token} {ds : List Declaration}
    (h : s.Reads ts ds u) (hs : s.Sound) (kind : ElementKind) (fqsen : Fqsen) :
    u.file.Records kind fqsen ↔ s.file.Records kind fqsen ∨
      ∃ d ∈ ds, d.element? s.space = some (kind, fqsen) := by
  rw [(h.toPasses.sound hs).file.keyed.records_iff, hs.file.keyed.records_iff, h.outline,
    Outline.isSome_found_foldl]
  refine or_congr_right (exists_congr fun d => and_congr_right fun _ => ?_)
  constructor
  · rintro ⟨name, hname, htext⟩
    rwa [Fqsen.eq_of_text_eq htext] at hname
  · exact fun hname => ⟨fqsen, hname, rfl⟩

/-- The block of a namespace ends at the brace that matches its own: the reader gets right behind
that brace, with the namespace and the open blocks that it had in front of the block. What is
recorded from the block has names in its namespace, what is recorded from the code behind it has
names in the namespace around it. -/
theorem namespace_ends_at_brace {s : Reading} (hs : s.Sound) {kw o c : Token}
    {name body more tail : List Token} {space : Fqsen} {inside behind : List Declaration}
    (hrest : s.cursor.rest = kw :: (name ++ o :: (body ++ c :: (more ++ tail))))
    (hlead : s.lead ≠ .access) (hkw : kw.isKeyword "namespace" = true)
    (hname : SpaceName name space) (ho : o.opensBlock = true)
    (hbody : Code .plain body (some c) inside) (hc : c.closesBlock = true)
    (hmore : Code .plain more tail.head? behind) :
    ∃ u v,
      s.Passes (kw :: (name ++ o :: (body ++ [c]))) u ∧ u.cursor = ⟨some c, more ++ tail⟩ ∧
      u.space = s.space ∧ u.blocks = s.blocks ∧
      (∀ kind fqsen, u.file.Records kind fqsen ↔ s.file.Records kind fqsen ∨
        ∃ d ∈ inside, d.element? space = some (kind, fqsen)) ∧
      u.Passes more v ∧ v.cursor.rest = tail ∧ v.space = s.space ∧ v.blocks = s.blocks ∧
      ∀ kind fqsen, v.file.Records kind fqsen ↔ u.file.Records kind fqsen ∨
        ∃ d ∈ behind, d.element? s.space = some (kind, fqsen) := by
  obtain ⟨u, hu, hcursor⟩ := exists_reads_space (fun inner rest hrest hlead =>
    reads_code hbody hrest rfl fun _ _ _ => hlead) hrest hlead hkw hname ho hc
  have hmoved : u.cursor.rest = more ++ tail := congrArg Cursor.rest hcursor
  obtain ⟨v, hv⟩ := reads_code hmore hmoved rfl fun _ _ _ =>
    lead_of_cursor hcursor (lead_of_is hc (by decide))
  refine ⟨u, v, hu.toPasses, hcursor, hu.space, hu.blocks, fun kind fqsen => ?_, hv.toPasses,
    hv.rest_eq hmoved, hv.space.trans hu.space, hv.blocks.trans hu.blocks, fun kind fqsen => ?_⟩
  · rw [hu.records_iff hs]
    refine or_congr_right ⟨?_, ?_⟩
    · rintro ⟨_, hmem, helement⟩
      obtain ⟨d, hd, rfl⟩ := List.mem_map.mp hmem
      exact ⟨d, hd, helement⟩
    · rintro ⟨d, hd, helement⟩
      exact ⟨d.within space, List.mem_map_of_mem hd, helement⟩
  · rw [hv.records_iff (hu.toPasses.sound hs), hu.space]

def constantTokens : List Token :=
  [⟨.name, "const", " ", 1, 20, 25⟩, ⟨.name, "A", " ", 1, 26, 27⟩, ⟨.punct, "=", " ", 1, 28, 29⟩,
    ⟨.number, "1", " ", 1, 30, 31⟩, ⟨.punct, ";", "", 1, 31, 32⟩]

def traitTokens : List Token :=
  [⟨.name, "trait", " ", 1, 35, 40⟩, ⟨.name, "T", " ", 1, 41, 42⟩,
    ⟨.punct, "\x7b", " ", 1, 43, 44⟩, ⟨.punct, "\x7d", "", 1, 44, 45⟩]

/-- The first state of reading a source in which the block of a namespace comes first. -/
def atBlock : Reading where
  cursor := { rest :=
    ⟨.name, "namespace", "<?php ", 1, 6, 15⟩ :: ⟨.name, "N", " ", 1, 16, 17⟩ ::
      ⟨.punct, "\x7b", " ", 1, 18, 19⟩ ::
        (constantTokens ++ ⟨.punct, "\x7d", " ", 1, 33, 34⟩ :: (traitTokens ++ [])) }
  file := { path := "a.php", hash := "" }

/-- A constant in the block of a namespace, and a trait behind it. -/
theorem namespace_ends_at_brace_constant :
    Token.ofSource "<?php namespace N \x7b const A = 1; \x7d trait T \x7b\x7d" =
        .ok atBlock.cursor.rest ∧
      ∃ u v : Reading, u.file.Records .constant ⟨"\\N\\A"⟩ ∧ v.cursor.rest = [] ∧
        v.space = Fqsen.root ∧ v.file.Records .trait ⟨"\\T"⟩ ∧
        ¬ v.file.Records .trait ⟨"\\N\\T"⟩ := by
  have htokens : Token.ofSource "<?php namespace N \x7b const A = 1; \x7d trait T \x7b\x7d" =
      .ok atBlock.cursor.rest := by decide +kernel
  have hempty : File.AsRead atBlock.file := File.asRead_empty _ _
  have hsound : atBlock.Sound :=
    ⟨Token.clean_ofSource htokens, hempty, Fqsen.plain_root, by simp [atBlock], by simp [atBlock]⟩
  have hvalue : Phrase [","] [⟨.number, "1", " ", 1, 30, 31⟩] :=
    .token (by decide) (by decide) (by decide) (by decide) .nil
  have hconstants : ConstantList (constantTokens.tail.take 3) ["A"] :=
    @ConstantList.single _ _ [] _ (by simp) rfl (by decide) hvalue
  have hinside : Code .plain (constantTokens ++ []) (some ⟨.punct, "\x7d", " ", 1, 33, 34⟩)
      [⟨.constant "A", none⟩] :=
    .statement (by decide) (.constants (by decide) hconstants (by decide)) .nil
  have htrait : ClassBlock (traitTokens.drop 2) [] := .braces (by decide) .nil (by decide)
  have hbehind : Code .plain (traitTokens ++ []) none [⟨.classLike .trait "T" none [] [], none⟩] :=
    .statement (by decide) (.trait (by decide) rfl htrait) .nil
  have hfront : atBlock.cursor.rest =
      ⟨.name, "namespace", "<?php ", 1, 6, 15⟩ :: ([⟨.name, "N", " ", 1, 16, 17⟩] ++
        ⟨.punct, "\x7b", " ", 1, 18, 19⟩ :: ((constantTokens ++ []) ++
          ⟨.punct, "\x7d", " ", 1, 33, 34⟩ :: ((traitTokens ++ []) ++ []))) := rfl
  obtain ⟨u, v, -, -, -, -, hu, -, hrest, hspace, -, hv⟩ := namespace_ends_at_brace hsound hfront
    (by decide) (by decide) (.named rfl) (by decide) hinside (by decide) hbehind
  refine ⟨htokens, u, v, ?_, hrest, hspace, ?_, ?_⟩
  · refine (hu _ _).mpr (.inr ⟨_, List.mem_singleton_self _, ?_⟩)
    decide
  · refine (hv _ _).mpr (.inr ⟨_, List.mem_singleton_self _, ?_⟩)
    decide
  · intro h
    rcases (hv _ _).mp h with h | ⟨d, hd, helement⟩
    · rcases (hu _ _).mp h with ⟨item, hitem, -⟩ | ⟨d, hd, helement⟩
      · simp [atBlock, File.topItem?] at hitem
      · obtain rfl := List.mem_singleton.mp hd
        revert helement
        decide
    · obtain rfl := List.mem_singleton.mp hd
      revert helement
      decide

end Reading

/-! ### Whole sources -/

/-- Problems that are reported leave the outline as it is. -/
theorem Reading.outline_finish (s : Reading) : s.finish.outline = s.file.outline := by
  have hreports (blocks : List OpenBlock) (u : Reading) :
      (blocks.foldl (fun s block => s.report block.line "unclosed block") u).file.outline =
        u.file.outline := by
    induction blocks generalizing u with
    | nil => rfl
    | cons block blocks ih =>
      rw [List.foldl_cons, ih]
      exact File.outline_congr rfl rfl rfl rfl rfl rfl
  exact hreports s.blocks s

/-- The outline of a file is made of what its code declares. -/
theorem File.outline_ofTokens {tokens : List Token} {ds : List Declaration}
    (h : Code .plain tokens none ds) (file : File) :
    (File.ofTokens file tokens).outline = ds.foldl (Outline.enter Fqsen.root) file.outline := by
  obtain ⟨u, hu⟩ := Reading.reads_code h (s := { cursor := { rest := tokens }, file := file })
    (List.append_nil tokens).symm rfl fun _ _ _ => rfl
  obtain ⟨n, hn, hrun⟩ := hu.steps
  have hfuel : tokens.length + 1 = n + (tokens.length + 1 - n) := by omega
  have hnone : u.cursor.peek = none := by
    rw [Cursor.peek, hu.rest_eq (List.append_nil tokens).symm]
    rfl
  have hend : Reading.run (tokens.length + 1 - n) u = u := by
    cases tokens.length + 1 - n with
    | zero => rfl
    | succ fuel => rw [Reading.run, hnone]
  rw [File.ofTokens, hfuel, hrun, hend, Reading.outline_finish, hu.outline]

end ApiDoc
