import Mathlib.Data.Finset.Card
import Mathlib.Data.List.Perm.Subperm
import Mathlib.Logic.Relation
import ApiDoc.Proofs.Contents
import ApiDoc.Proofs.Words

/-!
# Tables of guides

The documents of a guide list each other in any way, in circles too. `Tour` says in which order a
depth-first walk through the lists comes to documents for the first time, and from which list. It
comes to every document that can be reached, and to none twice. Main statement: the table of a guide
has one entry for each of these visits, in their order.
-/

namespace ApiDoc

/-! ### Tours -/

/-- The path of the document that a listed path is for. -/
def listedKey (path : String) : String := String.ofList (Text.dropLeadChar '/' path.toList)

/-- One document lists another one that is there. -/
def Lists (docs : NameMap Document) (a b : String) : Prop :=
  docs.contains b = true ∧ ∃ d, docs.get? a = some d ∧ ∃ path ∈ d.listed, listedKey path = b

/-- The first visit to a document: its path and title, and the document from whose list the walk
comes to it. -/
structure Visit where
  path : String
  title : String
  source : String
deriving DecidableEq

/-- The first visits of a depth-first walk through the list of a document, when some documents have
been seen: what is behind a listed document comes after all that can be reached from it. -/
inductive Tour (docs : NameMap Document) :
    List String → String → List String → List Visit → Prop
  | nil {seen : List String} {source : String} : Tour docs seen source [] []
  | pass {seen listed : List String} {source path : String} {visits : List Visit} :
    docs.contains (listedKey path) = false ∨ listedKey path ∈ seen →
    Tour docs seen source listed visits → Tour docs seen source (path :: listed) visits
  | visit {seen listed : List String} {source path : String} {d : Document}
    {below behind : List Visit} :
    docs.get? (listedKey path) = some d → listedKey path ∉ seen →
    Tour docs (listedKey path :: seen) (listedKey path) d.listed below →
    Tour docs (below.map Visit.path ++ listedKey path :: seen) source listed behind →
    Tour docs seen source (path :: listed) (⟨listedKey path, d.title, source⟩ :: (below ++ behind))

theorem contains_of_get? {docs : NameMap Document} {key : String} {d : Document}
    (h : docs.get? key = some d) : docs.contains key = true := by
  rw [NameMap.contains, h, Option.isSome_some]

namespace Tour

variable {docs : NameMap Document} {source : String} {seen listed : List String}
  {visits : List Visit}

theorem contains_path (h : Tour docs seen source listed visits) :
    ∀ v ∈ visits, docs.contains v.path = true := by
  induction h with
  | nil => simp
  | pass _ _ ih => exact ih
  | visit hd _ _ _ ihbelow ihbehind =>
    exact List.forall_mem_cons.mpr
      ⟨contains_of_get? hd, List.forall_mem_append.mpr ⟨ihbelow, ihbehind⟩⟩

/-- What has been seen after the visits, in two orders. -/
theorem perm_seen (source key title : String) (below behind : List Visit) (seen : List String) :
    (behind.map Visit.path ++ (below.map Visit.path ++ key :: seen)).Perm
      ((⟨key, title, source⟩ :: (below ++ behind) : List Visit).map Visit.path ++ seen) := by
  rw [List.map_cons, List.map_append, List.cons_append, ← List.append_assoc]
  exact List.perm_middle.trans ((List.perm_append_comm.append_right seen).cons key)

/-- No document is visited that has been seen, and none twice. -/
theorem nodup (h : Tour docs seen source listed visits) (hseen : seen.Nodup) :
    (visits.map Visit.path ++ seen).Nodup := by
  induction h with
  | nil => exact hseen
  | pass _ _ ih => exact ih hseen
  | visit _ hnew _ _ ihbelow ihbehind =>
    exact (perm_seen _ _ _ _ _ _).nodup_iff.mp
      (ihbehind (ihbelow (List.nodup_cons.mpr ⟨hnew, hseen⟩)))

/-- The walk comes to every document from one that has been seen before, which is another one. -/
theorem sources (h : Tour docs seen source listed visits) (hseen : seen.Nodup)
    (hsource : source ∈ seen) :
    (∀ v ∈ visits, v.source ∈ visits.map Visit.path ++ seen ∧ v.source ≠ v.path) ∧
      visits.Pairwise fun v later => v.source ≠ later.path := by
  induction h with
  | nil => simp
  | pass _ _ ih => exact ih hseen hsource
  | @visit seen listed source path d below behind _ hnew hbelow hbehind ihbelow ihbehind =>
    have hinner : (listedKey path :: seen).Nodup := List.nodup_cons.mpr ⟨hnew, hseen⟩
    have houter := hbelow.nodup hinner
    obtain ⟨hfrom, hapart⟩ := ihbelow hinner List.mem_cons_self
    obtain ⟨hfrom', hapart'⟩ := ihbehind houter (by simp [hsource])
    have hsub := perm_seen source (listedKey path) d.title below behind seen
    -- a document that comes later has not been seen before
    have hlater (v : Visit) (hv : v ∈ behind) :
        v.path ∉ below.map Visit.path ++ listedKey path :: seen := fun hmem =>
      (List.nodup_append.mp (hbehind.nodup houter)).2.2 _ (List.mem_map_of_mem hv) _ hmem rfl
    have hbelowNew (v : Visit) (hv : v ∈ below) : v.path ∉ listedKey path :: seen := fun hmem =>
      (List.nodup_append.mp houter).2.2 _ (List.mem_map_of_mem hv) _ hmem rfl
    have hne {x : String} (hx : x ∉ seen) : source ≠ x := fun heq => hx (heq ▸ hsource)
    constructor
    · refine List.forall_mem_cons.mpr ⟨⟨List.mem_append_right _ hsource, hne hnew⟩,
        List.forall_mem_append.mpr ⟨fun v hv => ?_, fun v hv => ?_⟩⟩
      · exact ⟨hsub.subset (List.mem_append_right _ (hfrom v hv).1), (hfrom v hv).2⟩
      · exact ⟨hsub.subset (hfrom' v hv).1, (hfrom' v hv).2⟩
    · refine List.pairwise_cons.mpr ⟨List.forall_mem_append.mpr ⟨fun v hv => ?_, fun v hv => ?_⟩,
        List.pairwise_append.mpr ⟨hapart, hapart', fun v hv later hlast heq => ?_⟩⟩
      · exact hne fun hmem => hbelowNew v hv (List.mem_cons_of_mem _ hmem)
      · exact hne fun hmem => hlater v hv (List.mem_append_right _ (List.mem_cons_of_mem _ hmem))
      · exact hlater later hlast (heq ▸ (hfrom v hv).1)

/-- The lists determine the tour. -/
theorem unique (h : Tour docs seen source listed visits) {others : List Visit}
    (hothers : Tour docs seen source listed others) : others = visits := by
  induction h generalizing others with
  | nil =>
    cases hothers
    rfl
  | pass hpass _ ih =>
    cases hothers with
    | pass _ hothers => exact ih hothers
    | visit hd hnew _ _ =>
      rcases hpass with hnone | hmem
      · simp [contains_of_get? hd] at hnone
      · exact absurd hmem hnew
  | visit hd hnew _ _ ihbelow ihbehind =>
    cases hothers with
    | pass hpass _ =>
      rcases hpass with hnone | hmem
      · simp [contains_of_get? hd] at hnone
      · exact absurd hmem hnew
    | visit hd' _ hbelow hbehind =>
      obtain rfl := Option.some.inj (hd.symm.trans hd')
      obtain rfl := ihbelow hbelow
      rw [ihbehind hbehind]

/-! ### What a tour comes to -/

/-- The walk goes along the lists. -/
theorem reachable (h : Tour docs seen source listed visits) {start : String}
    (hsource : Relation.ReflTransGen (Lists docs) start source) {d : Document}
    (hd : docs.get? source = some d) (hlisted : ∀ path ∈ listed, path ∈ d.listed) :
    ∀ v ∈ visits, Relation.ReflTransGen (Lists docs) start v.path := by
  induction h generalizing d with
  | nil => simp
  | pass _ _ ih => exact ih hsource hd fun path hpath => hlisted path (List.mem_cons_of_mem _ hpath)
  | @visit seen listed source path child below behind hchild _ _ _ ihbelow ihbehind =>
    have hstep : Relation.ReflTransGen (Lists docs) start (listedKey path) :=
      hsource.tail ⟨contains_of_get? hchild, d, hd, path, hlisted path List.mem_cons_self, rfl⟩
    exact List.forall_mem_cons.mpr ⟨hstep, List.forall_mem_append.mpr
      ⟨ihbelow hstep hchild fun _ h => h,
        ihbehind hsource hd fun path hpath => hlisted path (List.mem_cons_of_mem _ hpath)⟩⟩

/-- What is listed, here or by a document that is visited, has been seen in the end. -/
theorem closed (h : Tour docs seen source listed visits) :
    (∀ path ∈ listed, docs.contains (listedKey path) = true →
      listedKey path ∈ visits.map Visit.path ++ seen) ∧
    ∀ v ∈ visits, ∀ b, Lists docs v.path b → b ∈ visits.map Visit.path ++ seen := by
  induction h with
  | nil => simp
  | @pass seen listed source path visits hpass _ ih =>
    refine ⟨List.forall_mem_cons.mpr ⟨fun hthere => ?_, ih.1⟩, ih.2⟩
    rcases hpass with hnone | hmem
    · simp [hthere] at hnone
    · exact List.mem_append_right _ hmem
  | @visit seen listed source path d below behind hd _ _ _ ihbelow ihbehind =>
    have hsub := perm_seen source (listedKey path) d.title below behind seen
    have hinner {b : String} (hb : b ∈ below.map Visit.path ++ listedKey path :: seen) :=
      hsub.subset (List.mem_append_right (behind.map Visit.path) hb)
    refine ⟨List.forall_mem_cons.mpr ⟨fun _ => by simp, fun other hother hthere => ?_⟩,
      List.forall_mem_cons.mpr ⟨?_, List.forall_mem_append.mpr ⟨?_, ?_⟩⟩⟩
    · exact hsub.subset (ihbehind.1 other hother hthere)
    · rintro b ⟨hthere, found, hfound, other, hother, rfl⟩
      obtain rfl := Option.some.inj (hd.symm.trans hfound)
      exact hinner (ihbelow.1 other hother hthere)
    · exact fun v hv b hb => hinner (ihbelow.2 v hv b hb)
    · exact fun v hv b hb => hsub.subset (ihbehind.2 v hv b hb)

/-- From the first document of a guide, a tour comes to exactly the others that can be reached. -/
theorem mem_iff_reachable {start : String} {d : Document} (hd : docs.get? start = some d)
    (h : Tour docs [start] start d.listed visits) (path : String) :
    path ∈ visits.map Visit.path ↔
      path ≠ start ∧ Relation.ReflTransGen (Lists docs) start path := by
  constructor
  · intro hmem
    obtain ⟨v, hv, rfl⟩ := List.mem_map.mp hmem
    refine ⟨fun heq => ?_, h.reachable .refl hd (fun _ h => h) v hv⟩
    exact (List.nodup_append.mp (h.nodup (List.nodup_singleton start))).2.2 _ hmem _
      List.mem_cons_self heq
  · rintro ⟨hne, hreach⟩
    have hseen : path ∈ visits.map Visit.path ++ [start] := by
      clear hne
      induction hreach with
      | refl => simp
      | @tail b c _ hlists ih =>
        rcases List.mem_append.mp ih with hb | hb
        · obtain ⟨v, hv, rfl⟩ := List.mem_map.mp hb
          exact h.closed.2 v hv c hlists
        · obtain rfl := List.mem_singleton.mp hb
          obtain ⟨hthere, found, hfound, other, hother, rfl⟩ := hlists
          obtain rfl := Option.some.inj (hd.symm.trans hfound)
          exact h.closed.1 other hother hthere
    simpa [hne] using hseen

end Tour

/-- There is a tour through every list: a document that is visited is one less that has not been
seen. -/
theorem exists_tour (docs : NameMap Document) (seen : List String) (source : String)
    (listed : List String) : ∃ visits, Tour docs seen source listed visits := by
  generalize hcount : (docs.keys.toFinset \ seen.toFinset).card = count
  induction count using Nat.strong_induction_on generalizing seen source listed with
  | _ count ih =>
    have hless {key : String} (more : List String) (hthere : docs.contains key = true)
        (hnew : key ∉ seen) (hmem : key ∈ more) (hmore : ∀ k ∈ seen, k ∈ more) :
        (docs.keys.toFinset \ more.toFinset).card < count := by
      rw [← hcount]
      refine Finset.card_lt_card (Finset.ssubset_iff_of_subset ?_ |>.mpr ⟨key, ?_, ?_⟩)
      · exact Finset.sdiff_subset_sdiff (Finset.Subset.refl _) fun k hk => by
          simpa using hmore k (by simpa using hk)
      · have hkey : key ∈ docs.keys := NameMap.mem_keys_iff.mpr (Option.isSome_iff_exists.mp hthere)
        simp [hkey, hnew]
      · simp [hmem]
    induction listed with
    | nil => exact ⟨[], .nil⟩
    | cons path listed ihlisted =>
      by_cases hpass : docs.contains (listedKey path) = false ∨ listedKey path ∈ seen
      · obtain ⟨visits, hvisits⟩ := ihlisted
        exact ⟨visits, .pass hpass hvisits⟩
      · rw [not_or, Bool.not_eq_false] at hpass
        obtain ⟨d, hd⟩ := Option.isSome_iff_exists.mp hpass.1
        obtain ⟨below, hbelow⟩ := ih _ (hless (listedKey path :: seen) hpass.1 hpass.2
          List.mem_cons_self fun k hk => List.mem_cons_of_mem _ hk) _ (listedKey path) d.listed rfl
        obtain ⟨behind, hbehind⟩ := ih _ (hless (below.map Visit.path ++ listedKey path :: seen)
          hpass.1 hpass.2 (by simp) fun k hk => by simp [hk]) _ source listed rfl
        exact ⟨_, .visit hd hpass.2 hbelow hbehind⟩

/-! ### How many listings a walk takes -/

def listedCount (docs : NameMap Document) (path : String) : Nat :=
  ((docs.get? path).map fun d => d.listed.length).getD 0

/-- The number of listings that are taken on a tour through a list: those of the list and of every
document that is visited. -/
def tourCount (docs : NameMap Document) (listed : List String) (visits : List Visit) : Nat :=
  listed.length + total (visits.map fun v => listedCount docs v.path)

theorem total_perm {ms ns : List Nat} (h : ms.Perm ns) : total ms = total ns := by
  induction h with
  | nil => rfl
  | cons n _ ih => rw [total_cons, total_cons, ih]
  | swap m n ns =>
    simp only [total_cons]
    exact Nat.add_left_comm n m (total ns)
  | trans _ _ ih ih' => exact ih.trans ih'

theorem total_le_of_sublist {ms ns : List Nat} (h : ms.Sublist ns) : total ms ≤ total ns := by
  induction h with
  | slnil => exact Nat.le_refl _
  | cons n _ ih => exact total_cons n _ ▸ Nat.le_add_left_of_le ih
  | cons_cons n _ ih =>
    rw [total_cons, total_cons]
    exact Nat.add_le_add_left ih n

namespace Compile

theorem listingCount_eq (docs : NameMap Document) :
    listingCount docs = total (docs.keys.map (listedCount docs)) := by
  rw [listingCount, NameMap.values, NameMap.keys, List.map_map, List.map_map]
  refine congrArg total (List.map_congr_left fun e he => ?_)
  have hget : docs.get? e.1 = some e.2 := NameMap.mem_entries_iff.mp he
  simp [listedCount, hget]

/-- The listings of different documents are no more than all listings. -/
theorem total_listedCount_le {docs : NameMap Document} {paths : List String} (h : paths.Nodup)
    (hthere : ∀ path ∈ paths, docs.contains path = true) :
    total (paths.map (listedCount docs)) ≤ listingCount docs := by
  have hsub : paths ⊆ docs.keys := fun path hpath => by
    exact NameMap.mem_keys_iff.mpr (Option.isSome_iff_exists.mp (hthere path hpath))
  obtain ⟨found, hperm, hsublist⟩ := List.subperm_of_subset h hsub
  rw [listingCount_eq, ← total_perm (hperm.map _)]
  exact total_le_of_sublist (hsublist.map _)

/-- A tour from the first document takes no more listings than there are. -/
theorem tourCount_le {docs : NameMap Document} {start : String} {d : Document}
    (hd : docs.get? start = some d) {visits : List Visit}
    (h : Tour docs [start] start d.listed visits) :
    tourCount docs d.listed visits ≤ listingCount docs := by
  have hnodup : (start :: visits.map Visit.path).Nodup :=
    (List.perm_append_singleton start _).nodup_iff.mp (h.nodup (List.nodup_singleton start))
  have hle := total_listedCount_le hnodup (List.forall_mem_cons.mpr
    ⟨contains_of_get? hd, List.forall_mem_map.mpr h.contains_path⟩)
  rw [List.map_cons, total_cons, List.map_map] at hle
  rw [tourCount]
  have hstart : listedCount docs start = d.listed.length := by rw [listedCount, hd]; rfl
  rw [hstart] at hle
  exact hle

/-! ### Walks in the standard layout -/

def guideUrl (path : String) : String := "guide/" ++ (path ++ ".html")

/-- The URL that an entry names as its parent when its document is listed by one at a path. -/
def parentUrl (source : String) : Option String :=
  if source = guideIndex then none else some (guideUrl source)

end Compile

/-- The entry of a visit, without children. -/
def Visit.bareEntry (v : Visit) : TocEntry where
  url := Compile.guideUrl v.path
  title := v.title
  parent := Compile.parentUrl v.source

namespace Compile

theorem guideUrl_inj {a b : String} : guideUrl a = guideUrl b ↔ a = b := by
  rw [guideUrl, guideUrl, String.append_right_inj, String.append_left_inj]

theorem page_document (path : String) :
    Router.standard.page (.document path) = .ok (Router.documentPage path) := rfl

theorem head?_listedKey (path : String) : (listedKey path).toList.head? ≠ some '/' := by
  rw [listedKey, String.toList_ofList]
  exact Text.head?_dropLeadChar '/' path.toList

theorem guideUrl_listedKey (path : String) :
    "guide/" ++ relativeUrl (Router.documentPage (listedKey path)) = guideUrl (listedKey path) := by
  have hhead := head?_listedKey path
  have hkey : Text.dropLeadChar '/' (listedKey path).toList = (listedKey path).toList :=
    Text.dropLeadChar_eq_self hhead
  have hpage : (listedKey path ++ ".html").toList.head? ≠ some '/' := by
    rw [String.toList_append]
    cases hcs : (listedKey path).toList with
    | nil => decide
    | cons c cs => simpa [hcs] using hhead
  have hslash (t : String) :
      Text.dropLeadChar '/' ("/" ++ t).toList = Text.dropLeadChar '/' t.toList := by
    rw [String.toList_append]
    rfl
  rw [relativeUrl, Router.documentPage, hkey, String.ofList_toList, String.append_assoc, hslash,
    Text.dropLeadChar_eq_self hpage, String.ofList_toList, guideUrl]

/-! One step of a walk, by what is listed. -/

section Steps

variable {docs : NameMap Document} {parent : Option String} {path : String} {w : GuideWalk}
  (steps : Nat) (rest : List Listing)

theorem walk_missing (h : docs.get? (listedKey path) = none) :
    walk .standard docs (steps + 1) (⟨parent, path⟩ :: rest) w =
      walk .standard docs steps rest { w with events := w.events ++
        [.error ("Toc contains a link to a missing document " ++ path)] } := by
  rw [walk, ← listedKey, h]

theorem walk_seen {d : Document} (h : docs.get? (listedKey path) = some d)
    (hseen : listedKey path ∈ w.seen) :
    walk .standard docs (steps + 1) (⟨parent, path⟩ :: rest) w =
      walk .standard docs steps rest w := by
  rw [walk, ← listedKey, h]
  exact if_pos (List.contains_iff_mem.mpr hseen)

theorem walk_new (parent : Option String) {d : Document} (h : docs.get? (listedKey path) = some d)
    (hnew : listedKey path ∉ w.seen) (hpath : d.path = listedKey path) :
    walk .standard docs (steps + 1) (⟨parent, path⟩ :: rest) w =
      walk .standard docs steps
        (d.listed.map (Listing.mk (some (guideUrl (listedKey path)))) ++ rest)
        { w with
          seen := listedKey path :: w.seen
          toc := w.toc.add ⟨guideUrl (listedKey path), d.title, parent, []⟩ } := by
  rw [walk, ← listedKey, h]
  refine (if_neg fun hseen => hnew (List.contains_iff_mem.mp hseen)).trans ?_
  rw [hpath, page_document, ← guideUrl_listedKey]
  rfl

end Steps

variable {docs : NameMap Document} {source : String} {seen listed : List String}
  {visits : List Visit}

/-- A walk through a list goes on behind it with the visits of the tour entered. -/
structure WalkedTo (seen : List String) (visits : List Visit) (w after : GuideWalk) : Prop where
  seen : ∀ key, key ∈ after.seen ↔ key ∈ visits.map Visit.path ++ seen
  toc : after.toc = (visits.map Visit.bareEntry).foldl Toc.add w.toc
  failure : after.failure = w.failure

theorem walk_of_tour (hdocs : ∀ key d, docs.get? key = some d → d.path = key)
    (h : Tour docs seen source listed visits) (hindex : guideIndex ∈ seen) {w : GuideWalk}
    (hw : ∀ key, key ∈ w.seen ↔ key ∈ seen) (steps : Nat) (rest : List Listing) :
    ∃ after, WalkedTo seen visits w after ∧
      walk .standard docs (tourCount docs listed visits + steps)
        (listed.map (Listing.mk (parentUrl source)) ++ rest) w =
      walk .standard docs steps rest after := by
  induction h generalizing w steps rest with
  | nil => exact ⟨w, ⟨by simpa using hw, rfl, rfl⟩, by simp [tourCount]⟩
  | @pass seen listed source path visits hpass _ ih =>
    have hcount : tourCount docs (path :: listed) visits + steps =
        tourCount docs listed visits + steps + 1 := by
      simp only [tourCount, List.length_cons]
      omega
    rw [hcount, List.map_cons, List.cons_append]
    cases hget : docs.get? (listedKey path) with
    | none =>
      obtain ⟨after, hafter, hwalk⟩ := ih hindex (w := { w with events := w.events ++
        [.error ("Toc contains a link to a missing document " ++ path)] }) hw steps rest
      exact ⟨after, ⟨hafter.seen, hafter.toc, hafter.failure⟩,
        (walk_missing _ _ hget).trans hwalk⟩
    | some d =>
      have hmem : listedKey path ∈ w.seen := by
        rcases hpass with hnone | hmem
        · simp [contains_of_get? hget] at hnone
        · exact (hw _).mpr hmem
      obtain ⟨after, hafter, hwalk⟩ := ih hindex hw steps rest
      exact ⟨after, hafter, (walk_seen _ _ hget hmem).trans hwalk⟩
  | @visit seen listed source path d below behind hget hnew _ _ ihbelow ihbehind =>
    have hcount : tourCount docs (path :: listed)
        (⟨listedKey path, d.title, source⟩ :: (below ++ behind)) + steps =
        tourCount docs d.listed below + (tourCount docs listed behind + steps) + 1 := by
      simp only [tourCount, List.map_cons, List.map_append, total_cons, total_append, listedCount,
        hget, Option.map_some, Option.getD_some, List.length_cons]
      omega
    have hindexInner : guideIndex ∈ listedKey path :: seen := List.mem_cons_of_mem _ hindex
    -- the document that is entered is not the first one, which has been seen
    have hparent : parentUrl (listedKey path) = some (guideUrl (listedKey path)) :=
      if_neg (ne_of_mem_of_not_mem hindex hnew).symm
    let entered : GuideWalk := { w with
      seen := listedKey path :: w.seen
      toc := w.toc.add (Visit.bareEntry ⟨listedKey path, d.title, source⟩) }
    obtain ⟨inner, hinner, hwalkInner⟩ := ihbelow hindexInner (w := entered)
      (fun key => by simp [entered, hw]) (tourCount docs listed behind + steps)
      (listed.map (Listing.mk (parentUrl source)) ++ rest)
    obtain ⟨after, hafter, hwalk⟩ := ihbehind (List.mem_append_right _ hindexInner) (w := inner)
      hinner.seen steps rest
    refine ⟨after, ⟨fun key => ?_, ?_, hafter.failure.trans hinner.failure⟩, ?_⟩
    · rw [hafter.seen]
      exact (Tour.perm_seen _ _ _ _ _ _).mem_iff
    · rw [hafter.toc, hinner.toc, List.map_cons, List.map_append, List.foldl_cons,
        List.foldl_append]
    · have hstep := walk_new
        (tourCount docs d.listed below + (tourCount docs listed behind + steps))
        (listed.map (Listing.mk (parentUrl source)) ++ rest) (parentUrl source) hget
        (fun hmem => hnew ((hw _).mp hmem)) (hdocs _ _ hget)
      rw [hcount, List.map_cons, List.cons_append, hstep, ← hparent]
      exact hwalkInner.trans hwalk

def guideTable (title : String) (visits : List Visit) : Toc where
  name := title
  entries := (visits.map Visit.bareEntry).map (Toc.gather (visits.map Visit.bareEntry))

/-- Entering the visits of a tour one by one notes at each entry the entries below it. -/
theorem foldl_visits (h : Tour docs [guideIndex] guideIndex listed visits) (title : String) :
    (visits.map Visit.bareEntry).foldl Toc.add { name := title } = guideTable title visits := by
  have hseen := List.nodup_singleton guideIndex
  obtain ⟨hfrom, hapart⟩ := h.sources hseen List.mem_cons_self
  have hparent {v later : Visit} (hne : v.source ≠ later.path) :
      v.bareEntry.parent ≠ some later.bareEntry.url := by
    intro heq
    simp only [Visit.bareEntry, parentUrl] at heq
    split at heq
    · simp at heq
    · exact hne (guideUrl_inj.mp (Option.some.inj heq))
  refine Toc.foldl_add ?_ ?_ ?_ ?_ title
  · exact List.forall_mem_map.mpr fun v _ => rfl
  · rw [List.map_map]
    have hpaths := (List.nodup_append.mp (h.nodup hseen)).1
    have hurls := hpaths.map fun a b heq => guideUrl_inj.mp heq
    rw [List.map_map] at hurls
    exact hurls
  · exact List.forall_mem_map.mpr fun v hv => hparent (hfrom v hv).2
  · exact List.pairwise_map.mpr (hapart.imp hparent)

end Compile

def GuideSet.ofDocuments (name : String) (documents : List Document) : GuideSet :=
  documents.foldl GuideSet.addDocument { name := name }

theorem GuideSet.keyed_ofDocuments (name : String) (documents : List Document) (key : String)
    (d : Document) (h : (ofDocuments name documents).documents.get? key = some d) :
    d.path = key := by
  induction documents using List.reverseRecOn generalizing d with
  | nil => simp [ofDocuments] at h
  | append_singleton documents last ih =>
    rw [ofDocuments, List.foldl_append, List.foldl_cons, List.foldl_nil, addDocument,
      NameMap.get?_insert] at h
    split at h
    · next heq =>
      obtain rfl := Option.some.inj h
      exact heq
    · exact ih d h

theorem GuideSet.tables_ofDocuments (name : String) (documents : List Document) :
    (ofDocuments name documents).tables = [] := by
  induction documents using List.reverseRecOn with
  | nil => rfl
  | append_singleton documents last ih =>
    rw [ofDocuments, List.foldl_append, List.foldl_cons, List.foldl_nil]
    exact ih

namespace Compile

/-- In the standard layout, a guide with a first document gets one table, which has the name of that
document: its entries are the first visits of the depth-first walk through the lists, each below the
document whose list led to it, and these visits are to exactly the other documents that can be
reached, once to each. -/
theorem contents_of_guide (finder : ExampleFinder) (title number : String) (settings : Settings)
    (name : String) (documents : List Document) (index : Document)
    (h : (GuideSet.ofDocuments name documents).documents.get? guideIndex = some index) :
    let g := GuideSet.ofDocuments name documents
    ∃ visits, Tour g.documents [guideIndex] guideIndex index.listed visits ∧
      (visits.map Visit.path).Nodup ∧
      (∀ path, path ∈ visits.map Visit.path ↔
        path ≠ guideIndex ∧ Relation.ReflTransGen (Lists g.documents) guideIndex path) ∧
      (contentsPass.run ⟨.standard, finder⟩ (.holding title settings number (.guide g))).failure =
        none ∧
      (contentsPass.run ⟨.standard, finder⟩ (.holding title settings number (.guide g))).state =
        .holding title settings number
          (.guide { g with tables := [guideTable index.title visits] }) := by
  intro g
  obtain ⟨visits, htour⟩ := exists_tour g.documents [guideIndex] guideIndex index.listed
  refine ⟨visits, htour, (List.nodup_append.mp (htour.nodup (List.nodup_singleton _))).1,
    htour.mem_iff_reachable h, ?_⟩
  -- there are enough steps for the whole tour, behind which no listing is left
  obtain ⟨steps, hsteps⟩ := Nat.exists_eq_add_of_le (tourCount_le h htour)
  obtain ⟨after, hafter, hwalk⟩ := walk_of_tour (GuideSet.keyed_ofDocuments name documents) htour
    List.mem_cons_self (w := { seen := [guideIndex], toc := { name := index.title } })
    (fun _ => Iff.rfl) steps []
  have hend (w : GuideWalk) : walk .standard g.documents steps [] w = w := by
    cases steps <;> rfl
  rw [List.append_nil, ← hsteps, hend] at hwalk
  have hcontents : guideContents .standard g =
      { state := g.addTable (guideTable index.title visits), events := after.events } := by
    rw [guideContents, h]
    simp only [listings]
    rw [show (none : Option String) = parentUrl guideIndex from rfl, hwalk]
    simp only [hafter.failure, hafter.toc, foldl_visits htour]
  have htables : g.addTable (guideTable index.title visits) =
      { g with tables := [guideTable index.title visits] } := by
    rw [GuideSet.addTable, GuideSet.tables_ofDocuments]
    rfl
  have hrun : contentsPass.run ⟨.standard, finder⟩ (.holding title settings number (.guide g)) =
      (guideContents .standard g).map fun g => .holding title settings number (.guide g) :=
    Project.visitSets_holding _ _
  rw [hrun, hcontents, htables]
  exact ⟨rfl, rfl⟩

/-- Documents that list each other in a circle, themselves, the first one and one that is
missing. -/
def circleDocuments : List Document :=
  [⟨"index", "Manual", ["/a", "gone", "b"]⟩, ⟨"a", "A", ["b", "index", "a"]⟩, ⟨"b", "B", ["//a"]⟩,
    ⟨"apart", "Apart", ["a"]⟩]

def circle : GuideSet := .ofDocuments "manual" circleDocuments

/-- The table of that guide: B comes below A, which lists it first. -/
def circleTable : Toc where
  name := "Manual"
  entries := [
    { url := "guide/a.html", title := "A", children := ["guide/b.html"] },
    { url := "guide/b.html", title := "B", parent := some "guide/a.html" }]

theorem contents_of_guide_circle :
    circle.documents.get? guideIndex = some ⟨"index", "Manual", ["/a", "gone", "b"]⟩ ∧
      (contentsPass.run ⟨.standard, .none⟩ (.holding "" {} "1" (.guide circle))).state =
        .holding "" {} "1" (.guide { circle with tables := [circleTable] }) := by
  have hindex : circle.documents.get? guideIndex =
      some ⟨"index", "Manual", ["/a", "gone", "b"]⟩ := by decide +kernel
  have htour : Tour circle.documents [guideIndex] guideIndex ["/a", "gone", "b"]
      [⟨"a", "A", "index"⟩, ⟨"b", "B", "a"⟩] := by
    refine @Tour.visit _ _ _ _ "/a" ⟨"a", "A", ["b", "index", "a"]⟩ [⟨"b", "B", "a"⟩] [] ?_ ?_ ?_ ?_
    · decide +kernel
    · decide +kernel
    · refine @Tour.visit _ _ _ _ "b" ⟨"b", "B", ["//a"]⟩ [] [] ?_ ?_ ?_ ?_
      · decide +kernel
      · decide +kernel
      · exact .pass (.inr (by decide +kernel)) .nil
      · exact .pass (.inr (by decide +kernel)) (.pass (.inr (by decide +kernel)) .nil)
    · exact .pass (.inl (by decide +kernel)) (.pass (.inr (by decide +kernel)) .nil)
  obtain ⟨visits, hvisits, -, -, -, hstate⟩ :=
    contents_of_guide .none "" "1" {} "manual" circleDocuments _ hindex
  obtain rfl := htour.unique hvisits
  exact ⟨hindex, hstate⟩

end Compile

end ApiDoc
