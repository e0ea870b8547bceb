import ApiDoc.Problem
import ApiDoc.Proofs.Accounting
import Mathlib.Data.List.Perm.Basic
import Mathlib.Data.String.Basic

/-!
# The order of problems

Problems are sorted by path and line, and the sort is stable. A stable sort is known by what it
leaves alone: the items that it may not tell apart come out in the order in which they went in. So
two lists that agree on every such class of items are sorted to the same list, however their classes
are mixed. This is why the problems of whole files can be put before those of lines or behind them,
and why those of lines can be sorted beforehand: a whole file and a line are always told apart.

What a collection reports and what the files it kept record are, together, the problems of the paths,
each counted once.
-/

namespace ApiDoc

/-! ### Stable sorting -/

namespace Stable

section

variable {α : Type} {le : α → α → Bool}

/-- Whether an order does not tell two items apart. -/
def alike (le : α → α → Bool) (a b : α) : Bool := le a b && le b a

variable (trans : ∀ a b c, le a b = true → le b c = true → le a c = true)
variable (total : ∀ a b, (le a b || le b a) = true)

include total

theorem alike_self (a : α) : alike le a a = true := by
  simpa [alike] using total a a

/-- A list in order is known by the items in it that are not told apart, one class at a time. -/
theorem eq_of_filter_alike {l m : List α} (hl : l.Pairwise fun a b => le a b = true)
    (hm : m.Pairwise fun a b => le a b = true)
    (h : ∀ a, l.filter (alike le a) = m.filter (alike le a)) : l = m := by
  induction l generalizing m with
  | nil =>
    cases m with
    | nil => rfl
    | cons b m => simpa [alike_self total b] using h b
  | cons a l ih =>
    cases m with
    | nil => simpa [alike_self total a] using h a
    | cons b m =>
      obtain ⟨hfirst, hltail⟩ := List.pairwise_cons.mp hl
      obtain ⟨hother, hmtail⟩ := List.pairwise_cons.mp hm
      -- each of the two heads stands somewhere in the other list, so neither comes first
      have hab : le a b = true := by
        have hb : b ∈ (a :: l).filter (alike le b) := by
          rw [h b]
          exact List.mem_filter.mpr ⟨List.mem_cons_self, alike_self total b⟩
        rcases List.mem_cons.mp (List.mem_filter.mp hb).1 with rfl | hb
        · simpa using total b b
        · exact hfirst b hb
      have hba : le b a = true := by
        have ha : a ∈ (b :: m).filter (alike le a) := by
          rw [← h a]
          exact List.mem_filter.mpr ⟨List.mem_cons_self, alike_self total a⟩
        rcases List.mem_cons.mp (List.mem_filter.mp ha).1 with rfl | ha
        · simpa using total a a
        · exact hother a ha
      have hheads := h a
      rw [List.filter_cons_of_pos (alike_self total a),
        List.filter_cons_of_pos (by simp [alike, hab, hba])] at hheads
      obtain ⟨rfl, -⟩ := List.cons.inj hheads
      refine congrArg (a :: ·) (ih hltail hmtail fun c => ?_)
      have hc := h c
      by_cases hca : alike le c a = true
      · rw [List.filter_cons_of_pos hca, List.filter_cons_of_pos hca] at hc
        exact (List.cons.inj hc).2
      · rwa [List.filter_cons_of_neg hca, List.filter_cons_of_neg hca] at hc

include trans

/-- Sorting leaves the items that it does not tell apart in their order. -/
theorem filter_alike_mergeSort (a : α) (items : List α) :
    (items.mergeSort le).filter (alike le a) = items.filter (alike le a) := by
  have hclass : (items.filter (alike le a)).Pairwise fun b c => le b c = true := by
    refine List.pairwise_of_forall_mem_list fun b hb c hc => ?_
    have hba := (List.mem_filter.mp hb).2
    have hca := (List.mem_filter.mp hc).2
    simp only [alike, Bool.and_eq_true] at hba hca
    exact trans b a c hba.2 hca.1
  have hsub := (List.sublist_mergeSort trans total hclass List.filter_sublist).filter (alike le a)
  simp only [List.filter_filter, Bool.and_self] at hsub
  exact (hsub.eq_of_length ((List.mergeSort_perm items le).filter _).length_eq.symm).symm

theorem mergeSort_eq_of_filter_alike {l m : List α}
    (h : ∀ a, l.filter (alike le a) = m.filter (alike le a)) : l.mergeSort le = m.mergeSort le := by
  refine eq_of_filter_alike total (List.pairwise_mergeSort trans total l)
    (List.pairwise_mergeSort trans total m) fun a => ?_
  rw [filter_alike_mergeSort trans total, filter_alike_mergeSort trans total, h]

end

end Stable

/-! ### Problems -/

namespace Problem

theorem lineLe_total (a b : Option Nat) : (lineLe a b || lineLe b a) = true := by
  cases a <;> cases b <;> simp [lineLe, Nat.le_total]

theorem lineLe_trans (a b c : Option Nat) (hab : lineLe a b = true) (hbc : lineLe b c = true) :
    lineLe a c = true := by
  cases a <;> cases b <;> cases c <;> simp_all [lineLe]
  exact Nat.le_trans hab hbc

theorem lineLe_antisymm {a b : Option Nat} (hab : lineLe a b = true) (hba : lineLe b a = true) :
    a = b := by
  cases a <;> cases b <;> simp_all [lineLe]
  exact Nat.le_antisymm hab hba

theorem le_iff {a b : Problem} :
    le a b = true ↔ a.path < b.path ∨ a.path = b.path ∧ lineLe a.line b.line = true := by
  simp [le]

/-- What it means that a problem is listed before another or beside it: problems of whole files come
before those of lines. -/
def Before (a b : Problem) : Prop :=
  a.path < b.path ∨
    a.path = b.path ∧ ∀ line, a.line = some line → ∃ other, b.line = some other ∧ line ≤ other

theorem le_iff_before {a b : Problem} : le a b = true ↔ a.Before b := by
  rw [le_iff, Before]
  cases ha : a.line <;> cases hb : b.line <;> simp [lineLe]

theorem le_total (a b : Problem) : (le a b || le b a) = true := by
  rw [Bool.or_eq_true, le_iff, le_iff]
  rcases lt_trichotomy a.path b.path with hlt | heq | hgt
  · exact .inl (.inl hlt)
  · rcases Bool.or_eq_true _ _ ▸ lineLe_total a.line b.line with hab | hba
    · exact .inl (.inr ⟨heq, hab⟩)
    · exact .inr (.inr ⟨heq.symm, hba⟩)
  · exact .inr (.inl hgt)

theorem le_trans (a b c : Problem) (hab : le a b = true) (hbc : le b c = true) : le a c = true := by
  rw [le_iff] at hab hbc ⊢
  rcases hab with hab | ⟨hab, habline⟩
  · rcases hbc with hbc | ⟨hbc, -⟩
    · exact .inl (hab.trans hbc)
    · exact .inl (hbc ▸ hab)
  · rcases hbc with hbc | ⟨hbc, hbcline⟩
    · exact .inl (hab ▸ hbc)
    · exact .inr ⟨hab.trans hbc, lineLe_trans _ _ _ habline hbcline⟩

/-- Problems are not told apart exactly if they are about the same line of the same file. -/
theorem alike_iff {a b : Problem} :
    Stable.alike le a b = true ↔ a.path = b.path ∧ a.line = b.line := by
  rw [Stable.alike, Bool.and_eq_true, le_iff, le_iff]
  constructor
  · rintro ⟨hab | ⟨hpath, habline⟩, hba | ⟨hback, hbaline⟩⟩
    · exact absurd (hab.trans hba) (lt_irrefl _)
    · exact absurd (hback ▸ hab) (lt_irrefl _)
    · exact absurd (hpath ▸ hba) (lt_irrefl _)
    · exact ⟨hpath, lineLe_antisymm habline hbaline⟩
  · rintro ⟨hpath, hline⟩
    have hself : lineLe b.line b.line = true := by simpa using lineLe_total b.line b.line
    exact ⟨.inr ⟨hpath, hline ▸ hself⟩, .inr ⟨hpath.symm, hline ▸ hself⟩⟩

theorem pairwise_sort (problems : List Problem) : (sort problems).Pairwise Before :=
  (List.pairwise_mergeSort le_trans le_total problems).imp le_iff_before.mp

theorem perm_sort (problems : List Problem) : (sort problems).Perm problems :=
  List.mergeSort_perm problems le

/-- Problems of whole files may be put before those of lines or behind them, and the latter may be
sorted before. -/
theorem sort_append_comm {files lines : List Problem} (hfiles : ∀ p ∈ files, p.line = none)
    (hlines : ∀ p ∈ lines, p.line ≠ none) : sort (sort lines ++ files) = sort (files ++ lines) := by
  refine Stable.mergeSort_eq_of_filter_alike le_trans le_total fun a => ?_
  rw [List.filter_append, List.filter_append, sort,
    Stable.filter_alike_mergeSort le_trans le_total]
  cases hline : a.line with
  | none =>
    have hnone : lines.filter (Stable.alike le a) = [] := by
      refine List.filter_eq_nil_iff.mpr fun p hp halike => hlines p hp ?_
      rw [← (alike_iff.mp halike).2, hline]
    rw [hnone, List.nil_append, List.append_nil]
  | some n =>
    have hnone : files.filter (Stable.alike le a) = [] := by
      refine List.filter_eq_nil_iff.mpr fun p hp halike => ?_
      have hsame := (alike_iff.mp halike).2
      rw [hline, hfiles p hp] at hsame
      simp at hsame
    rw [hnone, List.append_nil, List.nil_append]

/-- The problem that an event reports: a file that was left out. -/
def ofEvent? : Event → Option Problem
  | .failed path message => some { path := path, message := message }
  | _ => none

theorem line_of_ofEvent? {events : List Event} {p : Problem} (h : p ∈ events.filterMap ofEvent?) :
    p.line = none := by
  obtain ⟨e, -, he⟩ := List.mem_filterMap.mp h
  cases e <;> simp [ofEvent?] at he
  rw [← he]

end Problem

theorem ApiSet.line_of_lineProblems {s : ApiSet} {p : Problem} (h : p ∈ s.lineProblems) :
    p.line ≠ none := by
  obtain ⟨f, -, hf⟩ := List.mem_flatMap.mp h
  obtain ⟨problem, -, rfl⟩ := List.mem_map.mp hf
  simp

/-! ### The problems of paths -/

/-- The problems of a path: one if its file was left out, otherwise those that its file records. -/
def Fate.problems (path : String) : Fate → List Problem
  | .parsed file => file.problems.map fun p => ⟨path, some p.line, p.message⟩
  | .skipped file => file.problems.map fun p => ⟨path, some p.line, p.message⟩
  | .failed cause => [{ path := path, message := cause.message }]

/-- The failures that are reported and the problems of the lines of the set are those of the paths. -/
theorem Collection.Accounts.perm_problems {load : SourceLoader} {fate : String → Fate}
    {paths : List String} {cache : FileCache} {c : Collection}
    (h : c.Accounts load fate paths cache)
    (hown : ∀ path file, (fate path).file? = some file → file.path = path) :
    (c.events.filterMap Problem.ofEvent? ++ c.set.lineProblems).Perm
      (paths.flatMap fun path => (fate path).problems path) := by
  rw [ApiSet.lineProblems, h.events, h.files]
  clear h
  induction paths with
  | nil => exact .refl _
  | cons path rest ih =>
    rw [List.flatMap_cons, List.map_cons]
    cases hfate : fate path with
    | failed cause =>
      rw [List.filterMap_cons_some (by rfl), List.filterMap_cons_none (by rw [hfate]; rfl)]
      exact ih.cons _
    | parsed file | skipped file =>
      have hpath := hown path file (by rw [hfate]; rfl)
      rw [List.filterMap_cons_none (by rfl), List.filterMap_cons_some (by rw [hfate]; rfl),
        List.flatMap_cons, Fate.problems, hpath]
      exact (List.perm_append_comm_assoc _ _ _).trans (ih.append_left _)

end ApiDoc
