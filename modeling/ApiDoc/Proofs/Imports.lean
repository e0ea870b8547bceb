import Mathlib.Data.List.Induction
import ApiDoc.Proofs.Namespaces

/-!
# Imports and the blocks around them

A file has one table of imports: what is imported in the block of a namespace stays known behind the
block. So what a class-like in a later block is built on may depend on the imports of the block, but
only by a name that it writes: the first part of that name has to be imported in the block, and not
again in front of the class-like. All other class-likes outside of the block are built on the same,
whatever is imported in it (`File.bases_outside_of_block`).
-/

namespace ApiDoc

/-! ### What is imported -/

def Construct.imported : Construct → List (String × Fqsen)
  | .imports items => items
  | _ => []

/-- The names of class-likes that a construct writes. -/
def Construct.names : Construct → List String
  | .classLike _ _ parent interfaces traits => parent.toList ++ (interfaces ++ traits)
  | _ => []

/-- What the last import under a name stands for. -/
def importOf? (ds : List Declaration) (name : String) : Option Fqsen :=
  (((ds.flatMap fun d => d.construct.imported).reverse.find? fun item => item.1 == name).map
    Prod.snd)

/-- The part of a written name that is looked up in the imports. -/
def firstPart (name : String) : String :=
  match Text.cut? [Fqsen.separator] name.toList with
  | some (front, _) => String.ofList front
  | none => name

/-- A written name stands for the same where its first part is the same import, or none. -/
theorem Reading.qualify_of_alias {s u : Reading} {name : String} (hspace : s.space = u.space)
    (halias : s.alias? (firstPart name) = u.alias? (firstPart name)) :
    s.qualify name = u.qualify name := by
  rw [firstPart] at halias
  rw [qualify, qualify, hspace]
  cases hcut : Text.cut? [Fqsen.separator] name.toList with
  | none =>
    rw [hcut] at halias
    simp only [halias]
  | some parts =>
    rw [hcut] at halias
    simp only [halias]

/-- Of entries that are set one after the other the last one counts. -/
theorem NameMap.get?_foldl_insert {α : Type} (items : List (String × α)) (m : NameMap α)
    (name : String) : (items.foldl (fun m item => m.insert item.1 item.2) m).get? name =
      ((items.reverse.find? fun item => item.1 == name).map Prod.snd).or (m.get? name) := by
  induction items using List.reverseRecOn with
  | nil => rfl
  | append_singleton items item ih =>
    rw [List.foldl_append, List.foldl_cons, List.foldl_nil, get?_insert, List.reverse_append,
      List.reverse_singleton, List.singleton_append]
    by_cases h : item.1 = name
    · rw [if_pos h, List.find?_cons_of_pos (by simpa using h)]
      rfl
    · rw [if_neg h, List.find?_cons_of_neg (by simpa using h), ih]

namespace Outline

/-- The imports behind declarations are those in front of them and those that are declared. -/
theorem aliases_foldl (space : Fqsen) (ds : List Declaration) (o : Outline) :
    (ds.foldl (enter space) o).aliases =
      (ds.flatMap fun d => d.construct.imported).foldl (fun m item => m.insert item.1 item.2)
        o.aliases := by
  induction ds generalizing o with
  | nil => rfl
  | cons d ds ih =>
    rw [List.foldl_cons, ih, List.flatMap_cons, List.foldl_append]
    obtain ⟨construct, inner⟩ := d
    cases construct <;> rfl

theorem get?_aliases_foldl (space : Fqsen) (ds : List Declaration) (o : Outline) (name : String) :
    (ds.foldl (enter space) o).aliases.get? name = (importOf? ds name).or (o.aliases.get? name) := by
  rw [aliases_foldl, NameMap.get?_foldl_insert]
  rfl

variable {o p : Outline}

/-- Two outlines know the same imports for a written name. -/
def SameImports (o p : Outline) (name : String) : Prop :=
  ∀ key, Text.sameLetters key (firstPart name) = true → o.aliases.get? key = p.aliases.get? key

/-- A name stands for the same where the imports of its first part are the same. -/
theorem target_congr {name : String} (h : o.SameImports p name) (space : Fqsen) :
    o.target space name = p.target space name := by
  have hfilter : o.aliases.filter (fun key _ => Text.sameLetters key (firstPart name)) =
      p.aliases.filter fun key _ => Text.sameLetters key (firstPart name) := by
    refine NameMap.ext_get? fun key => ?_
    rw [NameMap.get?_filter, NameMap.get?_filter]
    by_cases hkey : Text.sameLetters key (firstPart name) = true
    · rw [h key hkey]
    · rw [Bool.eq_false_iff.mpr hkey]
      cases o.aliases.get? key <;> cases p.aliases.get? key <;> rfl
  have hfind : (o.aliases.entries.find? fun e => Text.sameLetters e.1 (firstPart name)) =
      p.aliases.entries.find? fun e => Text.sameLetters e.1 (firstPart name) := by
    rw [← List.head?_filter, ← List.head?_filter]
    exact congrArg (fun m => m.entries.head?) hfilter
  exact congrArg (fun text => ({ target := text } : Reference))
    (Reading.qualify_of_alias rfl (congrArg (Option.map Prod.snd) hfind))

/-! ### What class-likes are built on -/

variable {space : Fqsen} {d : Declaration} {kind : ElementKind} {fqsen : Fqsen}

theorem found_enter_of_ne (h : d.element? space ≠ some (kind, fqsen)) (o : Outline) :
    (o.enter space d).found kind fqsen.text = o.found kind fqsen.text := by
  have hadd (k : ElementKind) (name : Fqsen) (bases : Bases)
      (hne : some (k, name) ≠ some (kind, fqsen)) :
      (o.add k name bases).found kind fqsen.text = o.found kind fqsen.text := by
    refine if_neg ?_
    rintro ⟨rfl, htext⟩
    exact hne (by rw [Fqsen.eq_of_text_eq htext])
  obtain ⟨construct, inner⟩ := d
  cases construct with
  | imports items => rfl
  | constant name => exact hadd _ _ _ h
  | defined name => exact hadd _ _ _ h
  | function name => exact hadd _ _ _ h
  | classLike k name parent interfaces traits => exact hadd _ _ _ h

/-- A declaration is entered alike where the names that it writes have the same imports. -/
theorem found_enter_congr (h : d.element? space = some (kind, fqsen))
    (hnames : ∀ name ∈ d.construct.names, o.SameImports p name) :
    (o.enter space d).found kind fqsen.text = (p.enter space d).found kind fqsen.text := by
  have hadd (k : ElementKind) (name : Fqsen) (bases : Bases)
      (heq : some (k, name) = some (kind, fqsen)) :
      (o.add k name bases).found kind fqsen.text = (p.add k name bases).found kind fqsen.text := by
    cases heq
    simp [add]
  obtain ⟨construct, inner⟩ := d
  cases construct with
  | imports items => simp [Declaration.element?, Construct.element?] at h
  | constant name => exact hadd _ _ {} h
  | defined name => exact hadd _ _ {} h
  | function name => exact hadd _ _ {} h
  | classLike k name parent interfaces traits =>
    have htarget (written : String) (hmem : written ∈ parent.toList ++ (interfaces ++ traits)) :
        o.target (inner.getD space) written = p.target (inner.getD space) written :=
      target_congr (hnames written hmem) _
    have hparent : parent.map (o.target (inner.getD space)) =
        parent.map (p.target (inner.getD space)) :=
      Option.map_congr fun written hmem =>
        htarget written (List.mem_append_left _ (Option.mem_toList.mpr hmem))
    have hinterfaces : interfaces.map (o.target (inner.getD space)) =
        interfaces.map (p.target (inner.getD space)) :=
      List.map_congr_left fun written hmem =>
        htarget written (List.mem_append_right _ (List.mem_append_left _ hmem))
    have htraits : traits.map (o.target (inner.getD space)) =
        traits.map (p.target (inner.getD space)) :=
      List.map_congr_left fun written hmem =>
        htarget written (List.mem_append_right _ (List.mem_append_right _ hmem))
    rw [enter, enter]
    simp only [hparent, hinterfaces, htraits]
    exact hadd k _ _ h

theorem found_foldl_of_ne (ds : List Declaration)
    (h : ∀ d ∈ ds, d.element? space ≠ some (kind, fqsen)) (o : Outline) :
    (ds.foldl (enter space) o).found kind fqsen.text = o.found kind fqsen.text := by
  induction ds generalizing o with
  | nil => rfl
  | cons d ds ih =>
    rw [List.foldl_cons, ih fun e he => h e (List.mem_cons_of_mem _ he),
      found_enter_of_ne (h d List.mem_cons_self)]

/-- Entering declarations keeps what two outlines agree on, and makes them agree on what is declared,
if the names that are written there have the same imports. -/
theorem found_foldl_congr (ds : List Declaration)
    (hfound : (∃ d ∈ ds, d.element? space = some (kind, fqsen)) ∨
      o.found kind fqsen.text = p.found kind fqsen.text)
    (hnames : ∀ front d back, ds = front ++ d :: back → d.element? space = some (kind, fqsen) →
      ∀ name ∈ d.construct.names, (front.foldl (enter space) o).SameImports
        (front.foldl (enter space) p) name) :
    (ds.foldl (enter space) o).found kind fqsen.text =
      (ds.foldl (enter space) p).found kind fqsen.text := by
  -- the last declaration of the element decides, so the induction goes from the end
  induction ds using List.reverseRecOn with
  | nil => simpa using hfound
  | append_singleton ds d ih =>
    rw [List.foldl_append, List.foldl_append]
    by_cases hd : d.element? space = some (kind, fqsen)
    · exact found_enter_congr hd (hnames ds d [] rfl hd)
    · refine (found_enter_of_ne hd _).trans (Eq.trans (ih ?_ ?_) (found_enter_of_ne hd _).symm)
      · refine hfound.imp_left ?_
        rintro ⟨e, he, helement⟩
        rcases List.mem_append.mp he with he | he
        · exact ⟨e, he, helement⟩
        · exact absurd (List.mem_singleton.mp he ▸ helement) hd
      · intro front e back hds
        exact hnames front e (back ++ [d]) (by rw [hds, List.append_assoc, List.cons_append])

end Outline

/-! ### Sources of blocks -/

/-- The block of a namespace: the namespace, and what is declared inside. -/
structure SpaceBlock where
  space : Fqsen
  inside : List Declaration

def SpaceBlock.declarations (b : SpaceBlock) : List Declaration :=
  b.inside.map (Declaration.within b.space)

/-- The tokens of blocks of namespaces. Doc comments may stand between them, and statements that
declare nothing. -/
inductive Blocks : List Token → List SpaceBlock → Prop
  | nil : Blocks [] []
  | token {t : Token} {ts : List Token} {blocks : List SpaceBlock} : t.opensBlock = false →
    t.closesBlock = false → (t.kind = .name → Text.asciiLower t.text ∉ statementWords) →
    Lead.of (some t) = .plain → Blocks ts blocks → Blocks (t :: ts) blocks
  | block {kw o c : Token} {name body ts : List Token} {space : Fqsen} {inside : List Declaration}
    {blocks : List SpaceBlock} : kw.isKeyword "namespace" = true → SpaceName name space →
    o.opensBlock = true → Code .plain body (some c) inside → c.closesBlock = true →
    Blocks ts blocks → Blocks (kw :: (name ++ o :: (body ++ c :: ts))) (⟨space, inside⟩ :: blocks)

theorem Blocks.code {tokens : List Token} {blocks : List SpaceBlock} (h : Blocks tokens blocks) :
    Code .plain tokens none (blocks.flatMap SpaceBlock.declarations) := by
  induction h with
  | nil => exact .nil
  | token hopens hcloses hword hlead _ ih =>
    exact .token hopens hcloses (fun hname => .inr (hword hname)) (hlead ▸ ih)
  | block hkw hname ho hbody hc _ ih => exact .space (by decide) hkw hname ho hbody hc ih

/-- The names that are written in a declaration have the same imports whichever of two lists of
declarations comes in front of `front`, since the lists import the same under them, or `front`
imports anew. -/
def Unaffected (inside changed front : List Declaration) (d : Declaration) : Prop :=
  ∀ name ∈ d.construct.names, ∀ key, Text.sameLetters key (firstPart name) = true →
    (importOf? front key).isSome ∨ importOf? inside key = importOf? changed key

theorem Unaffected.sameImports {space : Fqsen} {inside changed front : List Declaration}
    {d : Declaration} (h : Unaffected inside changed front d) (inner : Fqsen) (o : Outline)
    {name : String} (hname : name ∈ d.construct.names) :
    (front.foldl (Outline.enter space) (inside.foldl (Outline.enter inner) o)).SameImports
      (front.foldl (Outline.enter space) (changed.foldl (Outline.enter inner) o)) name := by
  intro key hkey
  simp only [Outline.get?_aliases_foldl]
  rcases h name hname key hkey with hsome | heq
  · obtain ⟨target, htarget⟩ := Option.isSome_iff_exists.mp hsome
    rw [htarget, Option.some_or, Option.some_or]
  · rw [heq]

theorem File.outline_ofSource {content : String} {tokens : List Token}
    (h : Token.ofSource content = .ok tokens) {ds : List Declaration}
    (hcode : Code .plain tokens none ds) (path : String) :
    ∃ f, File.ofSource path content = .ok f ∧
      f.outline = ds.foldl (Outline.enter Fqsen.root) ⟨.empty, fun _ _ => none⟩ := by
  refine ⟨_, by rw [File.ofSource, h]; rfl, ?_⟩
  rw [File.outline_ofTokens hcode]
  congr 1
  refine Outline.ext rfl fun kind key => ?_
  cases kind <;> rfl

theorem File.basesAt?_eq_found (f : File) {kind : ElementKind} (h : kind.isContainer = true)
    (key : String) : f.basesAt? kind key = f.outline.found kind key := by
  cases kind <;> first | rfl | simp [ElementKind.isContainer] at h

theorem outline_blocks (earlier later : List SpaceBlock) (space : Fqsen) (inside : List Declaration)
    (o : Outline) :
    ((earlier ++ ⟨space, inside⟩ :: later).flatMap SpaceBlock.declarations).foldl
        (Outline.enter Fqsen.root) o =
      (later.flatMap SpaceBlock.declarations).foldl (Outline.enter Fqsen.root)
        (inside.foldl (Outline.enter space)
          ((earlier.flatMap SpaceBlock.declarations).foldl (Outline.enter Fqsen.root) o)) := by
  rw [List.flatMap_append, List.flatMap_cons, List.foldl_append, List.foldl_append,
    SpaceBlock.declarations, Outline.foldl_enter_within]

/-- Two sources that differ in one block of a namespace only. A class-like of another block is built
on the same in both of them, as long as the names that it writes are unaffected by what is imported
in that block. A block in front of it is always unaffected; behind it, the imports of the first part
of each name have to be the same, or made anew. -/
theorem File.bases_outside_of_block {content altered : String} {tokens others : List Token}
    {earlier later : List SpaceBlock} {space : Fqsen} {inside changed : List Declaration}
    (htokens : Token.ofSource content = .ok tokens) (hothers : Token.ofSource altered = .ok others)
    (hblocks : Blocks tokens (earlier ++ ⟨space, inside⟩ :: later))
    (haltered : Blocks others (earlier ++ ⟨space, changed⟩ :: later)) (path : String) :
    ∃ f g, File.ofSource path content = .ok f ∧ File.ofSource path altered = .ok g ∧
      ∀ kind fqsen, kind.isContainer = true →
        (∃ d ∈ later.flatMap SpaceBlock.declarations,
            d.element? Fqsen.root = some (kind, fqsen)) ∨
          (∃ d ∈ earlier.flatMap SpaceBlock.declarations,
            d.element? Fqsen.root = some (kind, fqsen)) ∧
          (∀ d ∈ inside ++ changed, d.element? space ≠ some (kind, fqsen)) →
        (∀ front d back, later.flatMap SpaceBlock.declarations = front ++ d :: back →
          d.element? Fqsen.root = some (kind, fqsen) → Unaffected inside changed front d) →
        ∃ bases, f.basesAt? kind fqsen.text = some bases ∧
          g.basesAt? kind fqsen.text = some bases := by
  obtain ⟨f, hf, houtline⟩ := File.outline_ofSource htokens hblocks.code path
  obtain ⟨g, hg, hother⟩ := File.outline_ofSource hothers haltered.code path
  refine ⟨f, g, hf, hg, fun kind fqsen hcontainer hdeclared hunaffected => ?_⟩
  rw [outline_blocks] at houtline hother
  have hsame : f.outline.found kind fqsen.text = g.outline.found kind fqsen.text := by
    rw [houtline, hother]
    refine Outline.found_foldl_congr _ (hdeclared.imp_right fun ⟨_, hne⟩ => ?_)
      fun front d back hsplit helement name hname =>
        (hunaffected front d back hsplit helement).sameImports space _ hname
    have hkeeps (ds : List Declaration) (hds : ds ⊆ inside ++ changed) (o : Outline) :=
      Outline.found_foldl_of_ne ds (fun d hd => hne d (hds hd)) o
    rw [hkeeps inside (List.subset_append_left _ _), hkeeps changed (List.subset_append_right _ _)]
  have hsome : (f.outline.found kind fqsen.text).isSome := by
    rw [houtline, Outline.isSome_found_foldl, Outline.isSome_found_foldl,
      Outline.isSome_found_foldl]
    rcases hdeclared with ⟨d, hd, helement⟩ | ⟨⟨d, hd, helement⟩, -⟩
    · exact .inr ⟨d, hd, fqsen, helement, rfl⟩
    · exact .inl (.inl (.inr ⟨d, hd, fqsen, helement, rfl⟩))
  rw [f.basesAt?_eq_found hcontainer, g.basesAt?_eq_found hcontainer, ← hsame]
  obtain ⟨bases, hbases⟩ := Option.isSome_iff_exists.mp hsome
  exact ⟨bases, hbases, hbases⟩

def importTokens (target : String) (start : Nat) : List Token :=
  [⟨.name, "use", " ", 1, start, start + 3⟩, ⟨.name, target, " ", 1, start + 4, start + 9⟩,
    ⟨.punct, ";", "", 1, start + 9, start + 10⟩]

/-- A class in front of the brace that closes a block. -/
def classTokens : List Token :=
  [⟨.name, "class", " ", 1, 58, 63⟩, ⟨.name, "C", " ", 1, 64, 65⟩,
    ⟨.name, "extends", " ", 1, 66, 73⟩, ⟨.name, "Foo", " ", 1, 74, 77⟩,
    ⟨.punct, "\x7b", " ", 1, 78, 79⟩, ⟨.punct, "\x7d", "", 1, 79, 80⟩]

/-- A block with an import, and one with an import of the same short name and a class. -/
def importingSource : String :=
  "<?php namespace A \x7b use X\\Foo; \x7d namespace B \x7b use Y\\Foo; class C extends Foo \x7b\x7d \x7d"

/-- The source with another import in its first block. -/
def alteredSource : String :=
  "<?php namespace A \x7b use Z\\Foo; \x7d namespace B \x7b use Y\\Foo; class C extends Foo \x7b\x7d \x7d"

def twoBlocks (target : String) : List Token :=
  ⟨.name, "namespace", "<?php ", 1, 6, 15⟩ :: ([⟨.name, "A", " ", 1, 16, 17⟩] ++
    ⟨.punct, "\x7b", " ", 1, 18, 19⟩ :: ((importTokens target 20 ++ []) ++
      ⟨.punct, "\x7d", " ", 1, 31, 32⟩ :: ⟨.name, "namespace", " ", 1, 33, 42⟩ ::
        ([⟨.name, "B", " ", 1, 43, 44⟩] ++ ⟨.punct, "\x7b", " ", 1, 45, 46⟩ ::
          ((importTokens "Y\\Foo" 47 ++ (classTokens ++ [])) ++
            [⟨.punct, "\x7d", " ", 1, 81, 82⟩]))))

def laterBlock : SpaceBlock where
  space := Fqsen.ofText "B"
  inside := [⟨.imports [("Foo", Fqsen.ofText "Y\\Foo")], none⟩,
    ⟨.classLike .class "C" (some "Foo") [] [], none⟩]

theorem statement_importTokens {target : String} (hname : (Fqsen.ofText target).name = "Foo")
    (hfunction : Text.sameLetters target "function" = false)
    (hconst : Text.sameLetters target "const" = false) (start : Nat) (more : List Token) :
    Statement .plain (importTokens target start) more
      [⟨.imports [("Foo", Fqsen.ofText target)], none⟩] := by
  have hlist : ImportList [⟨.name, target, " ", 1, start + 4, start + 9⟩]
      [("Foo", Fqsen.ofText target)] := .single (.name rfl (hname ▸ .short))
  refine .imports ?_ hlist ?_ ?_
  · simp [Token.isKeyword, Text.sameLetters]
  · simp [Token.isKeyword, hfunction, hconst]
  · simp [Token.endsStatement, Token.is]

/-- The blocks of the two, whatever the first one imports under the name. -/
theorem blocks_twoBlocks {target : String} (hname : (Fqsen.ofText target).name = "Foo")
    (hfunction : Text.sameLetters target "function" = false)
    (hconst : Text.sameLetters target "const" = false) :
    Blocks (twoBlocks target)
      ([] ++ ⟨Fqsen.ofText "A", [⟨.imports [("Foo", Fqsen.ofText target)], none⟩]⟩ ::
        [laterBlock]) := by
  have hbase : Extends (classTokens.drop 2 |>.take 2) (some "Foo") := .parent (by decide) rfl
  have hblock : ClassBlock (classTokens.drop 4) [] := .braces (by decide) .nil (by decide)
  have hclass (more : List Token) : Statement .plain classTokens more
      [⟨.classLike .class "C" (some "Foo") [] [], none⟩] :=
    @Statement.class _ _ _ [] _ _ _ _ _ _ _ (by simp) (fun _ => by decide) (by decide) rfl hbase
      .none hblock
  have hlater : Code .plain (importTokens "Y\\Foo" 47 ++ (classTokens ++ []))
      (some ⟨.punct, "\x7d", " ", 1, 81, 82⟩) laterBlock.inside :=
    Code.statement (l := .plain) (by decide)
      (statement_importTokens (by decide +kernel) (by decide) (by decide) _ _)
      (Code.statement (l := .plain) (by decide) (hclass _) .nil)
  have hearlier : Code .plain (importTokens target 20 ++ []) (some ⟨.punct, "\x7d", " ", 1, 31, 32⟩)
      [⟨.imports [("Foo", Fqsen.ofText target)], none⟩] :=
    .statement (by decide) (statement_importTokens hname hfunction hconst _ _) .nil
  exact .block (by decide) (.named rfl) (by decide) hearlier (by decide)
    (.block (by decide) (.named rfl) (by decide) hlater (by decide) .nil)

/-- A class whose parent is imported in front of it, behind a block that imports another class-like
under the same name. -/
theorem File.bases_outside_of_block_imported_again : ∃ f g,
    File.ofSource "a.php" importingSource = .ok f ∧
    File.ofSource "a.php" alteredSource = .ok g ∧
    ∃ bases, f.basesAt? .class "\\B\\C" = some bases ∧ g.basesAt? .class "\\B\\C" = some bases := by
  have htokens : Token.ofSource importingSource = .ok (twoBlocks "X\\Foo") := by decide +kernel
  have hothers : Token.ofSource alteredSource = .ok (twoBlocks "Z\\Foo") := by decide +kernel
  obtain ⟨f, g, hf, hg, hsame⟩ := File.bases_outside_of_block htokens hothers
    (blocks_twoBlocks (by decide +kernel) (by decide) (by decide))
    (blocks_twoBlocks (by decide +kernel) (by decide) (by decide)) "a.php"
  refine ⟨f, g, hf, hg, hsame .class ⟨"\\B\\C"⟩ rfl (.inl ?_) ?_⟩
  · refine ⟨⟨.classLike .class "C" (some "Foo") [] [], some (Fqsen.ofText "B")⟩, ?_, by decide⟩
    exact List.mem_cons_of_mem _ List.mem_cons_self
  · intro front d back hsplit helement name _ key _
    cases front with
    | nil =>
      -- the import is no class
      obtain rfl := (List.cons.inj hsplit).1
      simp [Declaration.element?, Construct.element?, Declaration.within] at helement
    | cons first front =>
      obtain ⟨rfl, hrest⟩ := List.cons.inj hsplit
      obtain rfl : front = [] := by
        cases front with
        | nil => rfl
        | cons second front => simp at hrest
      -- under its name the block imports anew, and under others nothing is imported
      by_cases hkey : key = "Foo"
      · subst hkey
        exact .inl rfl
      · refine .inr ?_
        simp [importOf?, Construct.imported, Ne.symm hkey]

end ApiDoc
