import ApiDoc.Proofs.InternalText
import ApiDoc.Proofs.Lookups
import ApiDoc.Proofs.RenamedSteps

/-!
# Texts, tables and back links of renamed sets

What is written into a set does not depend on the numbers of its files and nodes: markers and texts
are read off the elements, links lead to pages that are named after what is there, back links follow
the entries of the index in the order of their names, and tables follow the children of the nodes.
-/

namespace ApiDoc

open Compile

variable {ρ : Renaming}

/-! ### Markers -/

theorem Compile.markersOf_rename (keywords : List String) (i : Info) :
    markersOf keywords (i.rename ρ) = markersOf keywords i := by
  simp only [markersOf, Info.rename, Tags.get_rename, List.map_map, Function.comp_def,
    Tag.description_rename]

/-- The markers of one indexed element with the number of its file. -/
def Compile.markersAt (keywords : List String) (s : ApiSet) (ref : ElementRef) :
    Except BuildError (List (Nat × Marker)) :=
  if (s.file? ref.file).isNone then .error (.orphanedElement ref.fqsen.text)
  else
    let found := (s.item? ref).map fun item => markersOf keywords item.info
    .ok ((found.getD []).map fun m => (ref.file, m))

theorem Compile.markersIn_eq_mapM (keywords : List String) (s : ApiSet) :
    markersIn keywords s =
      (((s.index Index.elements).values.filterMap Target.element?).mapM
        (markersAt keywords s)).map List.flatten := by
  have hbind {ε α β : Type} (x : Except ε α) (g : α → β) :
      (do let a ← x; return g a) = x.map g := by
    cases x <;> rfl
  unfold markersIn
  rw [hbind]
  refine congrArg (fun g => Except.map List.flatten (List.mapM g _)) (funext fun ref => ?_)
  rw [markersAt]
  cases s.item? ref <;> rfl

theorem mapM_map_except {ε α β γ δ : Type} {f : α → Except ε β} {g : γ → Except ε δ} {a : α → γ}
    {b : β → δ} (h : ∀ x, g (a x) = (f x).map b) (items : List α) :
    (items.map a).mapM g = (items.mapM f).map (List.map b) := by
  induction items with
  | nil => rfl
  | cons x rest ih =>
    rw [List.map_cons, List.mapM_cons, List.mapM_cons, h, ih]
    cases f x with
    | error e => rfl
    | ok y => cases rest.mapM f <;> rfl

namespace ApiSet.Renamed

variable {s t : ApiSet} (h : s.Renamed ρ t)
include h

theorem modifyFile {k l : File → File} (hk : ∀ f, l (f.rename ρ) = (k f).rename ρ) (id : Nat) :
    (s.modifyFile id k).Renamed ρ (t.modifyFile (ρ.file id) l) := by
  refine { h with file? := fun i => ?_ }
  rw [file?_modifyFile, file?_modifyFile, h.file?]
  by_cases hi : id = i
  · rw [if_pos hi, if_pos (congrArg ρ.file hi), Option.map_map, Option.map_map]
    exact congrArg (Option.map · _) (funext hk)
  · rw [if_neg hi, if_neg fun heq => hi (ρ.file.injective heq)]

theorem modifyInfo {k l : Info → Info} (hk : ∀ i, l (i.rename ρ) = (k i).rename ρ)
    (ref : ElementRef) : (s.modifyInfo ref k).Renamed ρ (t.modifyInfo (ref.rename ρ) l) :=
  h.modifyFile (fun f => f.modifyInfo_rename hk ref.kind ref.fqsen) ref.file

theorem markersIn_eq (keywords : List String) :
    markersIn keywords t =
      (markersIn keywords s).map (List.map fun e => (ρ.file e.1, e.2)) := by
  have hentry (ref : ElementRef) : markersAt keywords t (ref.rename ρ) =
      (markersAt keywords s ref).map (List.map fun e => (ρ.file e.1, e.2)) := by
    have hfile : (t.file? (ref.rename ρ).file).isNone = (s.file? ref.file).isNone :=
      (congrArg Option.isNone (h.file? ref.file)).trans Option.isNone_map
    rw [markersAt, markersAt, h.item?_eq, hfile]
    by_cases hnone : (s.file? ref.file).isNone
    · rw [if_pos hnone, if_pos hnone]
      rfl
    · rw [if_neg hnone, if_neg hnone]
      cases s.item? ref with
      | none => rfl
      | some item =>
        have hinfo : (item.rename ρ).info = item.info.rename ρ := rfl
        simp only [Option.map_some, hinfo, markersOf_rename, Except.map, Option.getD_some,
          List.map_map]
        rfl
  rw [markersIn_eq_mapM, markersIn_eq_mapM, h.entries_eq, mapM_map_except hentry]
  cases ((s.index Index.elements).values.filterMap Target.element?).mapM
    (markersAt keywords s) with
  | error e => rfl
  | ok lists => exact congrArg Except.ok List.map_flatten.symm

theorem addMarkers (found : List (Nat × Marker)) :
    (found.foldl (fun s e => s.modifyFile e.1 (addMarker e.2)) s).Renamed ρ
      ((found.map fun e => (ρ.file e.1, e.2)).foldl
        (fun t e => t.modifyFile e.1 (addMarker e.2)) t) := by
  refine h.foldl_map ?_ ?_ found
  · exact fun e => rfl
  · intro e f
    rw [addMarker, addMarker]
    by_cases hthere : f.markers.contains e.2
    · rw [if_pos hthere]
      exact if_pos hthere
    · rw [if_neg hthere]
      exact if_neg hthere

theorem mark (keywords : List String) :
    (mark keywords t).failure = (mark keywords s).failure ∧
      (mark keywords s).state.Renamed ρ (mark keywords t).state := by
  unfold Compile.mark
  by_cases hnone : keywords.isEmpty
  · rw [if_pos hnone, if_pos hnone]
    exact ⟨rfl, h⟩
  · rw [if_neg hnone, if_neg hnone, h.markersIn_eq]
    cases markersIn keywords s with
    | error e => exact ⟨rfl, h⟩
    | ok found => exact ⟨rfl, h.addMarkers found⟩

/-! ### Texts -/

theorem editAllTexts (edit : Scope → String → String) :
    (editAllTexts edit s).Renamed ρ (editAllTexts edit t) := by
  rw [editAllTexts_eq, editAllTexts_eq, putTexts, putTexts, List.foldl_map, List.foldl_map]
  refine (h.mapFiles fun f => ?_).foldl_modifyFile h.filter_present_eq fun e _ f => ?_
  · rfl
  · rw [h.scopeOf_eq]
    refine f.modifyInfo_rename (fun i => ?_) e.1.kind e.1.fqsen
    have hinfo : (e.2.rename ρ).info = e.2.info.rename ρ := rfl
    rw [newTexts, hinfo]
    rfl

theorem linkFor_eq (router : Router) (scope : Scope) (tag : InlineTag) :
    linkFor router t scope tag = linkFor router s scope tag := by
  obtain ⟨htext, hfound⟩ := h.resolve_eq tag.splitArgument.1 scope
  have hpage : pageOf? router t (t.resolve tag.splitArgument.1 scope) =
      pageOf? router s (s.resolve tag.splitArgument.1 scope) := by
    rw [pageOf?, pageOf?, hfound]
    cases (s.resolve tag.splitArgument.1 scope).target? with
    | none => rfl
    | some target => exact congrArg (Option.bind · _) (h.destination?_eq target)
  simp only [linkFor, hpage, htext]

theorem withLinks_eq (router : Router) : withLinks router t = withLinks router s := by
  funext scope text
  rw [withLinks, withLinks, funext (h.linkFor_eq router scope)]

end ApiSet.Renamed

/-! ### Back links -/

namespace Compile

def Use.rename (ρ : Renaming) (u : Use) : Use :=
  { u with user := u.user.rename ρ, used := u.used.rename ρ }

theorem pointsBack_rename (user : ElementRef) (tags : Tags) :
    pointsBack (user.rename ρ) (tags.rename ρ) = pointsBack user tags := by
  have htarget (target : Option Target) :
      (target.map (Target.rename ρ) == some (.element (user.rename ρ))) =
        (target == some (.element user)) := by
    rw [beq_eq_decide, beq_eq_decide]
    refine decide_eq_decide.mpr ?_
    have hsome : some (Target.element (user.rename ρ)) =
        (some (Target.element user)).map (Target.rename ρ) := rfl
    rw [hsome, (Option.map_injective Target.rename_injective).eq_iff]
  rw [pointsBack, pointsBack, Tags.get_rename, List.any_map]
  refine congrArg (List.any _ ·) (funext fun tag => ?_)
  rw [Function.comp_apply, Tag.reference?_rename, ← htarget]
  cases tag.reference? <;> rfl

theorem usesOf_rename (user : ElementRef) (tags : Tags) :
    usesOf (user.rename ρ) (tags.rename ρ) = (usesOf user tags).map (Use.rename ρ) := by
  rw [usesOf, usesOf, Tags.get_rename, List.filterMap_map, List.map_filterMap]
  refine List.filterMap_congr fun tag _ => ?_
  rw [Function.comp_apply, Tag.reference?_rename, Tag.description_rename]
  cases tag.reference? with
  | none => rfl
  | some r =>
    obtain ⟨text, resolved⟩ := r
    rcases resolved with - | target
    · rfl
    · cases target <;> rfl

theorem push_backTag_rename (u : Use) (tags : Tags) :
    (tags.rename ρ).push (backTag (u.rename ρ)) = (tags.push (backTag u)).rename ρ := by
  have hget : (tags.rename ρ).get usedByTag ++ [backTag (u.rename ρ)] =
      (tags.get usedByTag ++ [backTag u]).map (Tag.mapReference (Reference.rename ρ)) := by
    rw [Tags.get_rename, List.map_append]
    rfl
  exact congrArg Tags.mk
    ((congrArg ((tags.rename ρ).byName.insert usedByTag) hget).trans (NameMap.map_insert ..).symm)

end Compile

namespace ApiSet.Renamed

variable {s t : ApiSet}

theorem usesIn_eq (h : s.Renamed ρ t) : usesIn t = (usesIn s).map (Use.rename ρ) := by
  rw [usesIn, usesIn, h.index_eq, Index.rename, NameMap.values_map, List.flatMap_map,
    List.map_flatMap]
  refine congrArg (List.flatMap · _) (funext fun target => ?_)
  rw [Target.element?_rename]
  cases target.element? with
  | none => rfl
  | some ref =>
    simp only [Option.map_some]
    rw [h.item?_eq]
    cases s.item? ref with
    | none => rfl
    | some item => exact usesOf_rename ref item.info.tags

theorem addBackLink {acc acc' : ApiSet × Nat} (h : acc.1.Renamed ρ acc'.1) (u : Use) :
    (addBackLink acc u).1.Renamed ρ (addBackLink acc' (u.rename ρ)).1 := by
  have hitem : acc'.1.item? (u.rename ρ).used = _ := h.item?_eq u.used
  rw [Compile.addBackLink, Compile.addBackLink, hitem]
  cases acc.1.item? u.used with
  | none => exact h
  | some item =>
    have hback : pointsBack (u.rename ρ).user (item.rename ρ).info.tags =
        pointsBack u.user item.info.tags := pointsBack_rename u.user item.info.tags
    simp only [Option.map_some, hback]
    by_cases hthere : pointsBack u.user item.info.tags
    · rw [if_pos hthere, if_pos hthere]
      exact h
    · rw [if_neg hthere, if_neg hthere]
      refine h.modifyInfo (fun i => ?_) u.used
      exact congrArg (fun tags => { i with tags := tags }) (push_backTag_rename u i.tags)

theorem backLink (h : s.Renamed ρ t) : (backLink s).state.Renamed ρ (backLink t).state := by
  have hfold (uses : List Use) {acc acc' : ApiSet × Nat} (h : acc.1.Renamed ρ acc'.1) :
      (uses.foldl Compile.addBackLink acc).1.Renamed ρ
        ((uses.map (Use.rename ρ)).foldl Compile.addBackLink acc').1 := by
    induction uses generalizing acc acc' with
    | nil => exact h
    | cons u rest ih => exact ih (h.addBackLink u)
  have hstate (u : ApiSet) : (Compile.backLink u).state =
      ((usesIn u).foldl Compile.addBackLink (u, 0)).1 := rfl
  rw [hstate, hstate, h.usesIn_eq]
  exact hfold (usesIn s) h

end ApiSet.Renamed

/-! ### Tables -/

namespace Taxonomy.Renamed

variable {t u : Taxonomy} (h : t.Renamed ρ u)
include h

theorem addNodes_eq (router : Router) (depth : Nat) (parent : Option String) (nodes : List Node)
    (toc : Toc) : addNodes router u parent depth (nodes.map (Node.rename ρ)) toc =
      addNodes router t parent depth nodes toc := by
  -- a row of nodes follows from its nodes, a node from the row of its children
  have hrow {depth : Nat} (hnode : ∀ parent n toc,
      addNode router u parent depth (Node.rename ρ n) toc = addNode router t parent depth n toc)
      (parent : Option String) (nodes : List Node) (toc : Toc) :
      addNodes router u parent depth (nodes.map (Node.rename ρ)) toc =
        addNodes router t parent depth nodes toc := by
    induction nodes generalizing toc with
    | nil => rw [List.map_nil, addNodes, addNodes]
    | cons n rest ih => rw [List.map_cons, addNodes, addNodes, hnode, funext ih]
  refine hrow (fun parent n toc => ?_) parent nodes toc
  induction depth generalizing parent n toc with
  | zero => rw [addNode, addNode]
  | succ depth ih =>
    have hplace : nodeDestination u.kind (n.rename ρ) = nodeDestination t.kind n := by
      rw [h.kind_eq]
      rfl
    have hchildren : u.children (n.rename ρ).id = _ := h.children_eq n.id
    rw [addNode, addNode, hplace, hchildren]
    refine congrArg (router.page (nodeDestination t.kind n) >>= ·) (funext fun page => ?_)
    exact hrow ih _ _ _

theorem treeTable_eq (router : Router) (name : String) :
    treeTable router name u = treeTable router name t := by
  have hroot := h.node? rootId
  rw [h.root] at hroot
  have hbranches : u.hasBranches = t.hasBranches := by
    rw [hasBranches, hasBranches, hroot]
    cases t.node? rootId with
    | none => rfl
    | some n => exact congrArg (!·) (NameMap.isEmpty_map ..)
  have hchildren := h.children_eq rootId
  rw [h.root] at hchildren
  rw [treeTable, treeTable, hbranches, h.size_eq, hchildren, h.addNodes_eq]

end Taxonomy.Renamed

namespace ApiSet.Renamed

variable {s t : ApiSet}

theorem apiContents (h : s.Renamed ρ t) (router : Router) :
    (apiContents router t).failure = (apiContents router s).failure ∧
      (apiContents router s).state.Renamed ρ (apiContents router t).state := by
  have htables : apiTables router t = apiTables router s := by
    rw [apiTables, apiTables, h.namespaces.treeTable_eq, h.packages.treeTable_eq]
  have hadd (tables : List Toc) {s t : ApiSet} (h : s.Renamed ρ t) :
      (tables.foldl addTable s).Renamed ρ (tables.foldl addTable t) := by
    induction tables generalizing s t with
    | nil => exact h
    | cons toc rest ih =>
      exact ih { h with tables_eq := congrArg (Toc.addTo · toc) h.tables_eq }
  rw [Compile.apiContents, Compile.apiContents, htables]
  cases apiTables router s with
  | error e => exact ⟨rfl, h⟩
  | ok tables => exact ⟨rfl, hadd tables h⟩

end ApiSet.Renamed

end ApiDoc
