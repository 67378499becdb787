import Mathlib.Data.List.DropRight
import Mathlib.Data.List.Induction

/-!
# Walks in a tree of directories

A directory is the list of the names on the way to it from the root. A walk stays, goes up or goes
down into a name; at the root there is no way up. A walk comes to the same as going up a number of
times and then down some names (`cancel`), wherever it starts (`walk_eq`).
-/

namespace SimpleTSDB.Walk

variable {α : Type*}

/-- A step of a walk. -/
inductive Move (α : Type*) where
  | stay
  | up
  | down (a : α)
deriving DecidableEq

/-- The directory after a step. -/
def move (d : List α) : Move α → List α
  | .stay => d
  | .up => d.dropLast
  | .down a => d ++ [a]

/-- The directory after a walk. -/
def walk (d : List α) (ms : List (Move α)) : List α := ms.foldl move d

/-- A step behind `n` steps up and the names `l` down. -/
def cancelMove : ℕ × List α → Move α → ℕ × List α
  | (n, l), .stay => (n, l)
  | (n, []), .up => (n + 1, [])
  | (n, a :: l), .up => (n, (a :: l).dropLast)
  | (n, l), .down a => (n, l ++ [a])

/-- The number of steps up and the names down that are left of a walk. -/
def cancel (ms : List (Move α)) : ℕ × List α := ms.foldl cancelMove (0, [])

theorem walk_append (d : List α) (ms ns : List (Move α)) :
    walk d (ms ++ ns) = walk (walk d ms) ns := List.foldl_append

/-- The last step of a walk. -/
theorem walk_concat (d : List α) (ms : List (Move α)) (m : Move α) :
    walk d (ms ++ [m]) = move (walk d ms) m := List.foldl_append

theorem cancel_concat (ms : List (Move α)) (m : Move α) :
    cancel (ms ++ [m]) = cancelMove (cancel ms) m := List.foldl_append

/-- Going up behind the first `k` names. -/
theorem dropLast_take_sub (d : List α) (n : ℕ) :
    (d.take (d.length - n)).dropLast = d.take (d.length - (n + 1)) := by
  rw [List.dropLast_eq_take, List.take_take, List.length_take]
  congr 1
  omega

/-- **A walk goes up and then down.** -/
theorem walk_eq (d : List α) (ms : List (Move α)) :
    walk d ms = d.take (d.length - (cancel ms).1) ++ (cancel ms).2 := by
  induction ms using List.reverseRecOn with
  | nil => simp [walk, cancel]
  | append_singleton ms m ih =>
    rw [walk_concat, cancel_concat, ih]
    obtain ⟨n, l⟩ := cancel ms
    cases m with
    | stay => rfl
    | down a => exact List.append_assoc _ l [a]
    | up =>
      cases l with
      | nil =>
        simp only [move, cancelMove, List.append_nil]
        exact dropLast_take_sub d n
      | cons a l => exact List.dropLast_append_of_ne_nil (List.cons_ne_nil a l)

/-- **A walk comes back** when it goes down the names that it has gone up. -/
theorem walk_eq_self_iff (d : List α) (ms : List (Move α)) :
    walk d ms = d ↔ (cancel ms).2 = d.drop (d.length - (cancel ms).1) := by
  rw [walk_eq]
  conv_lhs => rhs; rw [← List.take_append_drop (d.length - (cancel ms).1) d]
  exact List.append_right_inj _

end SimpleTSDB.Walk
