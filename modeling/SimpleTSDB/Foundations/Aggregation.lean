import Mathlib.Algebra.BigOperators.Group.List.Basic
import Mathlib.Algebra.Field.Basic
import Mathlib.Order.Bounds.Basic
import Mathlib.Order.MinMax

/-!
# Aggregates of numbers

The loops that add up a list of numbers, average it, or keep its least or greatest number, for any
arithmetic. In exact arithmetic they compute the sum (`sum_exact`), the average (`avg_exact`), the
least and the greatest number (`min_exact`, `max_exact`), and except for the average the aggregates
of the parts of a list make the aggregate of the list (`sum_flatten`, `min_flatten`, `max_flatten`).
-/

namespace SimpleTSDB

/-- The operations of a type of numbers. -/
structure Arithmetic (V : Type*) where
  zero : V
  add : V → V → V
  div : V → V → V
  lt : V → V → Bool
  ofNat : ℕ → V

namespace Arithmetic

section

variable {V : Type*} (A : Arithmetic V)

/-- The numbers are added to zero, one by one. -/
def sum (l : List V) : V := l.foldl A.add A.zero

/-- The sum by the number of numbers. -/
def avg (l : List V) : V := if 0 < l.length then A.div (A.sum l) (A.ofNat l.length) else A.zero

/-- The first number, replaced by every smaller one. -/
def min : List V → V
  | [] => A.zero
  | v :: l => l.foldl (fun least v => if A.lt v least then v else least) v

/-- The first number, replaced by every greater one. -/
def max : List V → V
  | [] => A.zero
  | v :: l => l.foldl (fun greatest v => if A.lt greatest v then v else greatest) v

end

/-- The least element of the least elements of some lists is the least of all their elements. -/
theorem eq_of_isLeast {α : Type*} [PartialOrder α] {least : List α → α}
    (hleast : ∀ {l : List α}, l ≠ [] → IsLeast {x | x ∈ l} (least l)) {b : List α}
    {bs : List (List α)} (h : ∀ c ∈ b :: bs, c ≠ []) :
    least ((b :: bs).map least) = least (b :: bs).flatten := by
  have hmap : (b :: bs).map least ≠ [] := List.cons_ne_nil _ _
  have hflat : (b :: bs).flatten ≠ [] := by
    rw [List.flatten_cons]
    exact List.append_ne_nil_of_left_ne_nil (h b List.mem_cons_self) _
  obtain ⟨hmem, hle⟩ := hleast hmap
  obtain ⟨c, hc, heq⟩ := List.mem_map.mp hmem
  refine IsLeast.unique ⟨?_, fun x hx => ?_⟩ (hleast hflat)
  · rw [← heq]
    exact List.mem_flatten.mpr ⟨c, hc, (hleast (h c hc)).1⟩
  · obtain ⟨c', hc', hx⟩ := List.mem_flatten.mp hx
    exact (hle (List.mem_map_of_mem hc')).trans ((hleast (h c' hc')).2 hx)

section Exact

variable {K : Type*} [Field K] [LinearOrder K]

/-- The arithmetic of an ordered field. -/
def exact (K : Type*) [Field K] [LinearOrder K] : Arithmetic K where
  zero := 0
  add := (· + ·)
  div := (· / ·)
  lt x y := x < y
  ofNat n := n

theorem sum_exact (l : List K) : (exact K).sum l = l.sum := (List.sum_eq_foldl).symm

theorem avg_exact (l : List K) : (exact K).avg l = l.sum / l.length := by
  rw [avg, sum_exact]
  split
  · rfl
  next h =>
    obtain rfl : l = [] := List.length_eq_zero_iff.mp (Nat.eq_zero_of_not_pos h)
    simp [exact]

theorem min_exact {l : List K} (h : l ≠ []) : IsLeast {x | x ∈ l} ((exact K).min l) := by
  cases l with
  | nil => exact absurd rfl h
  | cons v l =>
    have hfold : (exact K).min (v :: l) = l.foldl Min.min v := by
      refine congrArg (List.foldl · v l) (funext fun least => funext fun v => ?_)
      simp [exact, min_comm least v, min_def_lt]
    have hmin : (v :: l).min? = some ((exact K).min (v :: l)) := by
      rw [hfold]
      rfl
    exact List.min?_eq_some_iff.mp hmin

theorem max_exact {l : List K} (h : l ≠ []) : IsGreatest {x | x ∈ l} ((exact K).max l) := by
  cases l with
  | nil => exact absurd rfl h
  | cons v l =>
    have hfold : (exact K).max (v :: l) = l.foldl Max.max v := by
      refine congrArg (List.foldl · v l) (funext fun greatest => funext fun v => ?_)
      simp [exact, max_def_lt]
    have hmax : (v :: l).max? = some ((exact K).max (v :: l)) := by
      rw [hfold]
      rfl
    exact List.max?_eq_some_iff.mp hmax

/-! ### Aggregates of aggregates -/

theorem sum_flatten (bs : List (List K)) :
    (exact K).sum (bs.map (exact K).sum) = (exact K).sum bs.flatten := by
  rw [sum_exact, sum_exact, List.sum_flatten]
  exact congrArg List.sum (List.map_congr_left fun b _ => sum_exact b)

theorem min_flatten {bs : List (List K)} (h : ∀ b ∈ bs, b ≠ []) :
    (exact K).min (bs.map (exact K).min) = (exact K).min bs.flatten := by
  cases bs with
  | nil => rfl
  | cons b bs => exact eq_of_isLeast min_exact h

theorem max_flatten {bs : List (List K)} (h : ∀ b ∈ bs, b ≠ []) :
    (exact K).max (bs.map (exact K).max) = (exact K).max bs.flatten := by
  cases bs with
  | nil => rfl
  | cons b bs => exact @eq_of_isLeast Kᵒᵈ _ (exact K).max (@max_exact K _ _) b bs h

end Exact

end Arithmetic

end SimpleTSDB
