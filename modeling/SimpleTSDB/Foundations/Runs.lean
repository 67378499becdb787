import Mathlib.Algebra.GroupWithZero.Nat
import Mathlib.Data.List.Basic
import Mathlib.Data.List.Induction

/-!
# Maximal runs

The runs of a list are its longest parts without a separator. They can be read off in one pass from
the left, which keeps the runs that are finished and the one that is not (`all_pass`). With the
separators behind them, the runs fit into the list (`size_pass`), and there is at most one for every
two elements (`length_pass`).
-/

namespace SimpleTSDB.Runs

variable {α : Type*} {p : α → Bool}

/-- The maximal runs of elements that are not separators. -/
def runs (p : α → Bool) (l : List α) : List (List α) := (l.splitOnP p).filter (· ≠ [])

/-- A separator cuts the runs in two. -/
theorem runs_append_cons (l r : List α) {a : α} (h : p a = true) :
    runs p (l ++ a :: r) = runs p l ++ runs p r := by
  rw [runs, List.splitOnP_append_cons _ _ h, List.filter_append]
  rfl

/-- A list without a separator is one run. -/
theorem runs_of_forall {l : List α} (hne : l ≠ []) (h : ∀ a ∈ l, p a = false) :
    runs p l = [l] := by
  rw [runs, List.splitOnP_eq_singleton h]
  simp [hne]

/-! ## One pass -/

/-- The finished runs, and the last one, if it goes on. -/
structure Pass (α : Type*) where
  done : List (List α)
  last : Option (List α)

namespace Pass

def step (p : α → Bool) (t : Pass α) (a : α) : Pass α :=
  if p a then ⟨t.done ++ t.last.toList, none⟩ else ⟨t.done, some (t.last.getD [] ++ [a])⟩

theorem step_of_pos (t : Pass α) {a : α} (h : p a = true) :
    t.step p a = ⟨t.done ++ t.last.toList, none⟩ := if_pos h

theorem step_of_neg (t : Pass α) {a : α} (h : p a = false) :
    t.step p a = ⟨t.done, some (t.last.getD [] ++ [a])⟩ := if_neg (by simp [h])

/-- All runs. -/
def all (t : Pass α) : List (List α) := t.done ++ t.last.toList

theorem length_all_le_step (t : Pass α) (a : α) : t.all.length ≤ (t.step p a).all.length := by
  unfold all step
  split
  · simp
  · cases t.last <;> simp

end Pass

/-- The pass through a list. -/
def pass (p : α → Bool) (l : List α) : Pass α := l.foldl (Pass.step p) ⟨[], none⟩

theorem pass_concat (l : List α) (a : α) : pass p (l ++ [a]) = (pass p l).step p a := by
  rw [pass, List.foldl_append]
  rfl

theorem all_foldl_step (t : Pass α) (h : t.last ≠ some []) (l : List α) :
    (l.foldl (Pass.step p) t).all =
      t.done ++ (List.splitOnPPrepend p l (t.last.getD []).reverse).filter (· ≠ []) := by
  induction l generalizing t with
  | nil =>
    obtain ⟨done, last⟩ := t
    cases last with
    | none => simp [Pass.all]
    | some c =>
      have hc : c ≠ [] := by simpa using h
      simp [Pass.all, hc]
  | cons a l ih =>
    rw [List.foldl_cons]
    cases ha : p a with
    | true =>
      rw [Pass.step_of_pos t ha, ih _ (by simp), List.splitOnPPrepend_cons_pos ha]
      obtain ⟨done, last⟩ := t
      cases last with
      | none => simp
      | some c =>
        have hc : c ≠ [] := by simpa using h
        simp [hc]
    | false =>
      rw [Pass.step_of_neg t ha, ih _ (by simp), List.splitOnPPrepend_cons_neg ha]
      simp

/-- **The pass finds the runs.** -/
theorem all_pass (l : List α) : (pass p l).all = runs p l :=
  all_foldl_step _ (by simp) l

/-- The runs are all there is but the separators. -/
theorem flatten_runs (l : List α) : (runs p l).flatten = l.filter (!p ·) := by
  rw [← all_pass]
  induction l using List.reverseRecOn with
  | nil => rfl
  | append_singleton l a ih =>
    rw [pass_concat, List.filter_append, ← ih]
    cases ha : p a with
    | true => simp [Pass.step_of_pos _ ha, Pass.all, ha]
    | false =>
      rw [Pass.step_of_neg _ ha]
      cases hlast : (pass p l).last <;> simp [Pass.all, ha, hlast]

theorem mem_of_mem_runs {l run : List α} (h : run ∈ runs p l) {a : α} (ha : a ∈ run) : a ∈ l := by
  have hflat : a ∈ l.filter (!p ·) := flatten_runs l ▸ List.mem_flatten_of_mem h ha
  exact List.mem_of_mem_filter hflat

/-! ## Sizes -/

/-- What grows by at most one with every element is at most the length. -/
theorem potential_pass_le (potential : Pass α → ℕ) (start : potential ⟨[], none⟩ = 0)
    (step : ∀ t a, potential (t.step p a) ≤ potential t + 1) (l : List α) :
    potential (pass p l) ≤ l.length := by
  induction l using List.reverseRecOn with
  | nil => exact Nat.le_of_eq start
  | append_singleton l a ih =>
    rw [pass_concat, List.length_append, List.length_singleton]
    exact Nat.le_trans (step _ a) (Nat.succ_le_succ ih)

/-- The finished runs, with a separator behind each of them, and the last one fit into the list. -/
theorem size_pass (l : List α) : ((pass p l).done.map fun run => run.length + 1).sum +
    ((pass p l).last.getD []).length ≤ l.length := by
  refine potential_pass_le (fun t => (t.done.map fun run => run.length + 1).sum +
    (t.last.getD []).length) rfl (fun t a => ?_) l
  unfold Pass.step
  split
  · cases t.last <;> simp
    omega
  · simp
    omega

/-- There is at most one run for every two elements. -/
theorem length_pass (l : List α) :
    2 * (pass p l).done.length + (pass p l).last.toList.length ≤ l.length := by
  refine potential_pass_le (fun t => 2 * t.done.length + t.last.toList.length) rfl
    (fun t a => ?_) l
  unfold Pass.step
  split
  · cases t.last <;> simp
    omega
  · cases t.last <;> simp

end SimpleTSDB.Runs
