import Mathlib.Data.List.Basic
import Mathlib.Logic.Function.Basic

/-!
# Keyed logs

A store that keeps a log for some keys. `add` appends an entry to the log of its key, which is
begun if there is none; `addAll_apply` says what is kept under one key after a list of entries.
-/

namespace SimpleTSDB

/-- What is kept under every key: nothing, or the entries in order. -/
abbrev Logs (κ ρ : Type*) := κ → Option (List ρ)

namespace Logs

variable {κ ρ : Type*} [DecidableEq κ]

/-- An entry is added under its key. -/
def add (a : Logs κ ρ) (e : κ × ρ) : Logs κ ρ :=
  Function.update a e.1 (some ((a e.1).getD [] ++ [e.2]))

/-- Entries are added one after the other. -/
def addAll (a : Logs κ ρ) (es : List (κ × ρ)) : Logs κ ρ := es.foldl add a

/-- The entries with a key. -/
def under (k : κ) (es : List (κ × ρ)) : List ρ := (es.filter (·.1 = k)).map Prod.snd

@[simp] theorem addAll_nil (a : Logs κ ρ) : a.addAll [] = a := rfl

theorem addAll_append (a : Logs κ ρ) (es es' : List (κ × ρ)) :
    a.addAll (es ++ es') = (a.addAll es).addAll es' := List.foldl_append

@[simp] theorem under_nil (k : κ) : under k ([] : List (κ × ρ)) = [] := rfl

theorem under_append (k : κ) (es es' : List (κ × ρ)) :
    under k (es ++ es') = under k es ++ under k es' := by
  rw [under, List.filter_append, List.map_append]
  rfl

theorem under_eq_nil_iff {k : κ} {es : List (κ × ρ)} :
    under k es = [] ↔ k ∉ es.map Prod.fst := by
  rw [under, List.map_eq_nil_iff, List.filter_eq_nil_iff, List.mem_map, not_exists]
  simp only [decide_eq_true_eq, not_and]

/-- **What is kept under a key**: what was kept, and behind it the new entries with the key. -/
theorem addAll_apply (a : Logs κ ρ) (es : List (κ × ρ)) (k : κ) :
    a.addAll es k = if under k es = [] then a k else some ((a k).getD [] ++ under k es) := by
  induction es generalizing a with
  | nil => rfl
  | cons e es ih =>
    have hcons : under k (e :: es) = under k [e] ++ under k es := under_append k [e] es
    rw [addAll, List.foldl_cons, ← addAll, ih, hcons]
    by_cases hk : e.1 = k
    · subst hk
      have hone : under e.1 [e] = [e.2] := by simp [under]
      have hself : a.add e e.1 = some ((a e.1).getD [] ++ [e.2]) := Function.update_self ..
      rw [hone, hself]
      split
      next hnil => simp [hnil]
      next => simp
    · have hnone : under k [e] = [] := by simp [under, hk]
      have hother : a.add e k = a k := Function.update_of_ne (Ne.symm hk) ..
      rw [hnone, hother, List.nil_append]

end Logs

end SimpleTSDB
