import ApiDoc.Proofs.Rewording

/-!
# Runs that agree

Two attempts agree, as far as is seen of their states, if they report the same and fail alike, and
unless they fail lead to states that look the same. A step that takes projects that look the same in
one wording to projects that look the same in another one transfers agreement, and so does a
sequence of such steps.
-/

namespace ApiDoc

/-! ### Attempts -/

/-- Attempts that report the same, fail alike and otherwise lead to what looks the same. -/
structure Attempt.Agree {α β : Type} (see : α → β) (a b : Attempt α) : Prop where
  events : a.events = b.events
  failure : a.failure = b.failure
  state : a.failure = none → see a.state = see b.state

namespace Attempt.Agree

variable {α β γ δ : Type} {see : α → β} {a b : Attempt α}

theorem of_map_eq (h : a.map see = b.map see) : a.Agree see b := by
  obtain ⟨hstate, hevents, hfailure⟩ := Attempt.mk.inj h
  exact ⟨hevents, hfailure, fun _ => hstate⟩

protected theorem map {look : γ → δ} {c d : α → γ} (h : a.Agree see b)
    (hcd : ∀ x y, see x = see y → look (c x) = look (d y)) : (a.map c).Agree look (b.map d) :=
  ⟨h.events, h.failure, fun hnone => hcd _ _ (h.state hnone)⟩

theorem visit {look : α → γ} {step : α → Attempt α} {xs ys : List α}
    (hstep : ∀ x ∈ xs, ∀ y, see x = see y → (step x).Agree look (step y))
    (h : xs.map see = ys.map see) :
    (Attempt.visit step xs).Agree (List.map look) (Attempt.visit step ys) := by
  induction xs generalizing ys with
  | nil =>
    obtain rfl : ys = [] := by simpa using h.symm
    exact ⟨rfl, rfl, fun _ => rfl⟩
  | cons x rest ih =>
    cases ys with
    | nil => simp at h
    | cons y rest' =>
      obtain ⟨hhead, htail⟩ := List.cons.inj h
      have hx := hstep x List.mem_cons_self y hhead
      have hrest := ih (fun z hz => hstep z (List.mem_cons_of_mem _ hz)) htail
      simp only [Attempt.visit, ← hx.failure]
      cases hfailure : (step x).failure with
      | some e => exact ⟨hx.events, rfl, fun hnone => by simp at hnone⟩
      | none =>
        refine ⟨by rw [hx.events, hrest.events], hrest.failure, fun hnone => ?_⟩
        rw [List.map_cons, List.map_cons, hx.state hfailure, hrest.state hnone]

end Attempt.Agree

/-! ### Projects -/

/-- A documentation set with everything that is written in its files put differently. -/
def DocSet.reword (w : Wording) : DocSet → DocSet
  | .api s => .api (s.reword w)
  | .guide g => .guide g

def Version.reword (w : Wording) (v : Version) : Version :=
  { v with sets := v.sets.map (DocSet.reword w) }

namespace Project

def reword (w : Wording) (p : Project) : Project :=
  { p with versions := p.versions.map (Version.reword w) }

variable {v w : Wording} {p q : Project}

theorem settings_eq (h : p.reword v = q.reword v) : p.settings = q.settings := by
  obtain ⟨-, hsettings, -⟩ := Project.mk.inj h
  exact hsettings

theorem versions_eq (h : p.reword v = q.reword v) :
    p.versions.map (Version.reword v) = q.versions.map (Version.reword v) :=
  congrArg Project.versions h

/-- New versions of projects that look the same. -/
theorem reword_versions (h : p.reword v = q.reword v) {vs us : List Version}
    (heq : vs.map (Version.reword w) = us.map (Version.reword w)) :
    ({ p with versions := vs } : Project).reword w =
      ({ q with versions := us } : Project).reword w := by
  have hrest (vs : List Version) : { p with versions := vs } = { q with versions := vs } :=
    congrArg (fun r : Project => { r with versions := vs }) h
  exact (hrest _).trans (congrArg (fun vs => { q with versions := vs }) heq)

theorem agree_visitSets {step : DocSet → Attempt DocSet}
    (hstep : ∀ x ∈ p.versions, ∀ d ∈ x.sets, ∀ c, d.reword v = c.reword v →
      (step d).Agree (DocSet.reword w) (step c)) (h : p.reword v = q.reword v) :
    (p.visitSets step).Agree (reword w) (q.visitSets step) := by
  refine Attempt.Agree.map (Attempt.Agree.visit (fun x hx y hxy => ?_) (versions_eq h))
    fun vs us heq => reword_versions h heq
  obtain ⟨hnumber, hsets⟩ := Version.mk.inj hxy
  refine (Attempt.Agree.visit (hstep x hx) hsets).map fun sets sets' heq => ?_
  simp only [Version.reword, hnumber, heq]

theorem agree_visitApis {step : ApiSet → Attempt ApiSet}
    (hstep : ∀ s ∈ p.apiSets, ∀ t, s.reword v = t.reword v →
      (step s).Agree (ApiSet.reword w) (step t)) (h : p.reword v = q.reword v) :
    (p.visitApis step).Agree (reword w) (q.visitApis step) := by
  refine agree_visitSets (fun x hx d hd c hdc => ?_) h
  cases d with
  | api s =>
    cases c with
    | api t =>
      exact (hstep s (mem_apiSets_iff.mpr ⟨x, hx, hd⟩) t (DocSet.api.inj hdc)).map
        fun _ _ heq => congrArg DocSet.api heq
    | guide g => simp [DocSet.reword] at hdc
  | guide g =>
    cases c with
    | api t => simp [DocSet.reword] at hdc
    | guide g' => exact ⟨rfl, rfl, fun _ => hdc⟩

end Project

/-! ### Steps -/

/-- A step that keeps the settings and takes projects that look the same in one wording to projects
that look the same in another one. -/
def Pass.Transfers (services : Services) (settings : Settings) (v w : Wording) (pass : Pass) :
    Prop :=
  ∀ p q, p.settings = settings → p.reword v = q.reword v →
    (pass.run services p).state.settings = settings ∧
      (pass.run services p).Agree (Project.reword w) (pass.run services q)

section Transfers

variable {services : Services} {settings : Settings} {v w : Wording}

theorem Pass.transfers_onApiSets {description : String} {priority : Int}
    {step : Services → Settings → ApiSet → Attempt ApiSet}
    (h : ∀ s t, s.reword v = t.reword v →
      (step services settings s).Agree (ApiSet.reword w) (step services settings t)) :
    (Pass.onApiSets description priority step).Transfers services settings v w := by
  intro p q hp hpq
  refine ⟨hp, ?_⟩
  have hq : q.settings = settings := (Project.settings_eq hpq).symm.trans hp
  simp only [onApiSets, hp, hq]
  exact Project.agree_visitApis (fun s _ t hst => h s t hst) hpq

/-- A step on API sets that commutes with a rewording. -/
theorem Pass.transfers_of_commutes {description : String} {priority : Int}
    {step : Services → Settings → ApiSet → Attempt ApiSet}
    (h : ∀ s, step services settings (s.reword w) = (step services settings s).map (ApiSet.reword w)) :
    (Pass.onApiSets description priority step).Transfers services settings w w := by
  refine transfers_onApiSets fun s t hst => .of_map_eq ?_
  rw [← h, ← h, hst]

namespace Compile

theorem transfers_elementsPass : elementsPass.Transfers services settings w w :=
  Pass.transfers_of_commutes fun s => buildIndexes_reword w s settings.strictNames

theorem transfers_linkPass : linkPass.Transfers services settings w w :=
  Pass.transfers_of_commutes fun s => link_reword w s

theorem transfers_spacesPass : spacesPass.Transfers services settings w w := by
  refine Pass.transfers_of_commutes fun s => ?_
  rw [withSpaces_reword]
  rfl

theorem transfers_packagesPass : packagesPass.Transfers services settings w w := by
  refine Pass.transfers_of_commutes fun s => ?_
  rw [withPackages_reword]
  rfl

theorem transfers_backLinksPass : backLinksPass.Transfers services settings w w :=
  Pass.transfers_of_commutes fun s => backLink_reword w s

/-- Markers are not seen, or there are none. -/
theorem transfers_markersPass
    (h : settings.markers = [] ∨ ∀ m n, w.markers m = w.markers n) :
    markersPass.Transfers services settings w w := by
  refine Pass.transfers_onApiSets fun s t hst => ?_
  have hfailure : (mark settings.markers s).failure = (mark settings.markers t).failure := by
    rw [← failure_mark_reword w s, hst, failure_mark_reword]
  refine ⟨by rw [events_mark, events_mark], hfailure, fun _ => ?_⟩
  rcases h with hnone | hunseen
  · rw [hnone]
    exact hst
  · rw [reword_mark s hunseen, reword_mark t hunseen, hst]

theorem transfers_contentsPass : contentsPass.Transfers services settings w w := by
  intro p q hp hpq
  refine ⟨hp, Project.agree_visitSets (fun x hx d hd c hdc => ?_) hpq⟩
  cases d with
  | api s =>
    cases c with
    | api t =>
      have hst : s.reword w = t.reword w := DocSet.api.inj hdc
      have hagree : (apiContents services.router s).Agree (ApiSet.reword w)
          (apiContents services.router t) :=
        .of_map_eq (by rw [← apiContents_reword, ← apiContents_reword, hst])
      exact hagree.map fun _ _ heq => congrArg DocSet.api heq
    | guide g => simp [DocSet.reword] at hdc
  | guide g =>
    cases c with
    | api t => simp [DocSet.reword] at hdc
    | guide g' =>
      obtain rfl : g = g' := DocSet.guide.inj hdc
      exact ⟨rfl, rfl, fun _ => rfl⟩

/-- Whether a name becomes a link is no matter of what is written in files. -/
theorem linkFor_reword (router : Router) (s : ApiSet) :
    linkFor router (s.reword w) = linkFor router s := by
  have hpage (r : Resolution) : pageOf? router (s.reword w) r = pageOf? router s r := by
    simp only [pageOf?, ApiSet.destination?_reword]
  funext scope t
  simp only [linkFor, hpage]
  rfl

theorem transfers_inlineLinksPass (hvw : v.ShowsLess w)
    (h : ∀ s scope a b, v.text a = v.text b →
      w.text (withLinks services.router s scope a) = w.text (withLinks services.router s scope b)) :
    inlineLinksPass.Transfers services settings v w := by
  refine Pass.transfers_onApiSets fun s t hst => ⟨rfl, rfl, fun _ => ?_⟩
  have hlinks : withLinks services.router t = withLinks services.router s := by
    funext scope text
    rw [withLinks, withLinks, ← linkFor_reword (w := v), ← hst, linkFor_reword]
  dsimp only
  rw [hlinks]
  refine (editAllTextsWith_congr (fun scope a b _ hab => ?_) hvw hst ()).1
  exact ⟨h s scope a b hab, rfl⟩

section Examples

variable {finder : ExampleFinder} (h : EditsAlike w w (withExamples finder))
include h

theorem exampleSets_congr {sets sets' : List DocSet}
    (hsets : sets.map (DocSet.reword w) = sets'.map (DocSet.reword w)) (done : List Lookup) :
    (exampleSets finder sets done).1.map (DocSet.reword w) =
        (exampleSets finder sets' done).1.map (DocSet.reword w) ∧
      (exampleSets finder sets done).2 = (exampleSets finder sets' done).2 := by
  induction sets generalizing sets' done with
  | nil =>
    obtain rfl : sets' = [] := by simpa using hsets.symm
    exact ⟨rfl, rfl⟩
  | cons d rest ih =>
    cases sets' with
    | nil => simp at hsets
    | cons c rest' =>
      obtain ⟨hdc, hrest⟩ := List.cons.inj hsets
      cases d with
      | guide g =>
        cases c with
        | api t => simp [DocSet.reword] at hdc
        | guide g' =>
          obtain ⟨hothers, hlast⟩ := ih hrest done
          simp only [exampleSets, List.map_cons, hdc, hothers, true_and]
          exact hlast
      | api s =>
        cases c with
        | guide g => simp [DocSet.reword] at hdc
        | api t =>
          have hst : s.reword w = t.reword w := DocSet.api.inj hdc
          obtain ⟨hedited, hnext⟩ := editAllTextsWith_congr h (.refl w) hst done
          obtain ⟨hothers, hlast⟩ := ih hrest (editAllTextsWith (withExamples finder) s done).2
          simp only [exampleSets, List.map_cons, DocSet.reword, ← hnext, hedited, hothers, true_and]
          exact hlast

theorem exampleVersions_congr {versions versions' : List Version}
    (hversions : versions.map (Version.reword w) = versions'.map (Version.reword w))
    (done : List Lookup) :
    (exampleVersions finder versions done).1.map (Version.reword w) =
        (exampleVersions finder versions' done).1.map (Version.reword w) ∧
      (exampleVersions finder versions done).2 = (exampleVersions finder versions' done).2 := by
  induction versions generalizing versions' done with
  | nil =>
    obtain rfl : versions' = [] := by simpa using hversions.symm
    exact ⟨rfl, rfl⟩
  | cons x rest ih =>
    cases versions' with
    | nil => simp at hversions
    | cons y rest' =>
      obtain ⟨hxy, hrest⟩ := List.cons.inj hversions
      obtain ⟨hnumber, hsets⟩ := Version.mk.inj hxy
      obtain ⟨hedited, hnext⟩ := exampleSets_congr h hsets done
      obtain ⟨hothers, hlast⟩ := ih hrest (exampleSets finder x.sets done).2
      simp only [exampleVersions, List.map_cons, Version.reword, ← hnext, hnumber, hedited] 
      exact ⟨by rw [hothers], hlast⟩

end Examples

theorem transfers_examplesPass (h : EditsAlike w w (withExamples services.finder)) :
    examplesPass.Transfers services settings w w := by
  intro p q hp hpq
  obtain ⟨hversions, hdone⟩ := exampleVersions_congr h (Project.versions_eq hpq) []
  refine ⟨hp, ?_, rfl, fun _ => Project.reword_versions hpq hversions⟩
  simp only [examplesPass, hdone]

end Compile

/-! ### Runs -/

/-- One more step after attempts that agree. -/
theorem Attempt.Agree.runPass {a b : Attempt Project} {pass : Pass}
    (h : a.Agree (Project.reword v) b)
    (hrun : a.failure = none → (pass.run services a.state).Agree (Project.reword w)
      (pass.run services b.state)) :
    (a.andThen (Compiler.runPass services pass)).Agree (Project.reword w)
      (b.andThen (Compiler.runPass services pass)) := by
  cases ha : a.failure with
  | some e =>
    have hb : b.failure = some e := h.failure.symm.trans ha
    simp only [Attempt.andThen, ha, hb]
    exact ⟨h.events, h.failure, fun hnone => by simp [ha] at hnone⟩
  | none =>
    have hb : b.failure = none := h.failure.symm.trans ha
    have hdone := hrun ha
    simp only [Attempt.andThen, ha, hb, Compiler.runPass]
    refine ⟨?_, hdone.failure, hdone.state⟩
    rw [h.events, hdone.events, hdone.failure]

/-- Attempts that agree and have kept the settings. -/
structure Carried (settings : Settings) (w : Wording) (a b : Attempt Project) : Prop where
  agree : a.Agree (Project.reword w) b
  settings_eq : a.failure = none → a.state.settings = settings

theorem Carried.step {a b : Attempt Project} {pass : Pass} (h : Carried settings v a b)
    (hpass : pass.Transfers services settings v w) :
    Carried settings w (a.andThen (Compiler.runPass services pass))
      (b.andThen (Compiler.runPass services pass)) := by
  have hrun (hnone : a.failure = none) :=
    hpass a.state b.state (h.settings_eq hnone) (h.agree.state hnone)
  refine ⟨h.agree.runPass fun hnone => (hrun hnone).2, fun hdone => ?_⟩
  cases ha : a.failure with
  | some e => simp [Attempt.andThen, ha] at hdone
  | none =>
    simp only [Attempt.andThen, ha, Compiler.runPass]
    exact (hrun ha).1

end Transfers

end ApiDoc
