import Mathlib.Data.List.Perm.Basic

/-!
# Queues of several producers

A queue that keeps the elements of each producer in their order, and says nothing of elements of
different producers. An element may be taken if it is the first one of its producer. What has been
taken and what is left together are, for every producer, what was there before (`of_takeAll`).
-/

namespace SimpleTSDB.Fifo

variable {ι α : Type*} [DecidableEq ι]

/-- The elements of a producer. -/
def of (i : ι) (q : List (ι × α)) : List α := (q.filter (·.1 = i)).map Prod.snd

@[simp] theorem of_nil (i : ι) : of i ([] : List (ι × α)) = [] := rfl

theorem of_append (i : ι) (q q' : List (ι × α)) : of i (q ++ q') = of i q ++ of i q' := by
  rw [of, List.filter_append, List.map_append]
  rfl

theorem of_cons (i : ι) (x : ι × α) (q : List (ι × α)) : of i (x :: q) = of i [x] ++ of i q :=
  of_append i [x] q

theorem of_singleton_of_ne {i : ι} {x : ι × α} (h : x.1 ≠ i) : of i [x] = [] := by
  simp [of, h]

/-- The elements of one producer. -/
theorem of_map_mk (i j : ι) (xs : List α) : of i (xs.map (j, ·)) = if j = i then xs else [] := by
  by_cases h : j = i <;> simp [of, h, List.filter_map, Function.comp_def]

/-- What a producer has in the first part of a queue comes first. -/
theorem of_take_initial (i : ι) (n : ℕ) (q : List (ι × α)) : of i (q.take n) <+: of i q := by
  refine ⟨of i (q.drop n), ?_⟩
  rw [← of_append, List.take_append_drop]

variable [DecidableEq α]

/-- An element is taken, if it is the first one of its producer. -/
def take (x : ι × α) : List (ι × α) → Option (List (ι × α))
  | [] => none
  | y :: q =>
    if y.1 = x.1 then if y.2 = x.2 then some q else none
    else (take x q).map (y :: ·)

/-- Elements are taken one after the other. -/
def takeAll (q : List (ι × α)) : List (ι × α) → Option (List (ι × α))
  | [] => some q
  | x :: xs => (take x q).bind (takeAll · xs)

theorem of_take {x : ι × α} {q q' : List (ι × α)} (h : take x q = some q') :
    q.Perm (x :: q') ∧ ∀ i, of i q = of i (x :: q') := by
  induction q generalizing q' with
  | nil => cases h
  | cons y q ih =>
    rw [take] at h
    split at h
    · next hproducer =>
      obtain ⟨helement, h⟩ := Option.ite_none_right_eq_some.mp h
      obtain rfl := Option.some.inj h
      obtain rfl := Prod.ext hproducer helement
      exact ⟨.refl _, fun i => rfl⟩
    · next hproducer =>
      obtain ⟨q'', hq, rfl⟩ := Option.map_eq_some_iff.mp h
      obtain ⟨hperm, hof⟩ := ih hq
      refine ⟨(hperm.cons y).trans (.swap _ _ _), fun i => ?_⟩
      -- one of the two elements is not of this producer
      rw [of_cons, hof, of_cons i x q'', of_cons i x (y :: q''), of_cons i y q'']
      by_cases hy : y.1 = i
      · rw [of_singleton_of_ne (x := x) fun hx => hproducer (hy.trans hx.symm)]
        rfl
      · rw [of_singleton_of_ne hy]
        rfl

/-- **What is taken comes in the order of every producer.** -/
theorem of_takeAll {q q' xs : List (ι × α)} (h : takeAll q xs = some q') :
    q.Perm (xs ++ q') ∧ ∀ i, of i q = of i xs ++ of i q' := by
  induction xs generalizing q with
  | nil =>
    obtain rfl := Option.some.inj h
    exact ⟨.refl _, fun i => rfl⟩
  | cons x xs ih =>
    obtain ⟨q₁, hx, hxs⟩ := Option.bind_eq_some_iff.mp h
    obtain ⟨hperm, hof⟩ := of_take hx
    obtain ⟨hperm', hof'⟩ := ih hxs
    refine ⟨hperm.trans (hperm'.cons x), fun i => ?_⟩
    rw [hof, of_cons, hof', of_cons i x xs, List.append_assoc]

end SimpleTSDB.Fifo
