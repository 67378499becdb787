import Mathlib.Algebra.BigOperators.Finprod

/-!
# Stores that grow

A store holds entries of some size, of which finitely many grow from one state to the next.
`growth` is what they grow by in total, and `Grown` keeps it along a run: steps are put together by
`Grown.trans`, and a step that writes one entry grows the store by what the entry grows by
(`Grown.update`).
-/

namespace SimpleTSDB.Growth

variable {ι β : Type*} {size : β → ℕ} {before between after : ι → β} {m n : ℕ}

/-- What the entries grow by in total. -/
noncomputable def growth (size : β → ℕ) (before after : ι → β) : ℕ :=
  ∑ᶠ i, (size (after i) - size (before i))

/-- No entry shrinks, finitely many grow, and they grow by `n`. -/
structure Grown (size : β → ℕ) (before after : ι → β) (n : ℕ) : Prop where
  le : ∀ i, size (before i) ≤ size (after i)
  finite : (fun i => size (after i) - size (before i)).HasFiniteSupport
  growth_eq : growth size before after = n

theorem Grown.refl (before : ι → β) : Grown size before before 0 where
  le _ := le_rfl
  finite := by simp [Function.HasFiniteSupport]
  growth_eq := by simp [growth]

theorem Grown.trans (h : Grown size before between m) (h' : Grown size between after n) :
    Grown size before after (m + n) := by
  have hsplit : (fun i => size (after i) - size (before i)) =
      fun i => (size (between i) - size (before i)) + (size (after i) - size (between i)) := by
    funext i
    have := h.le i
    have := h'.le i
    omega
  refine ⟨fun i => (h.le i).trans (h'.le i), ?_, ?_⟩
  · rw [hsplit]
    exact h.finite.add h'.finite
  · rw [growth, hsplit, finsum_add_distrib h.finite h'.finite, ← h.growth_eq, ← h'.growth_eq]
    rfl

variable [DecidableEq ι]

/-- One entry is written. -/
theorem Grown.update {i : ι} {b : β} (h : size b = size (before i) + n) :
    Grown size before (Function.update before i b) n := by
  have hother : ∀ j, j ≠ i →
      size (Function.update before i b j) - size (before j) = 0 := by
    intro j hj
    rw [Function.update_of_ne hj, Nat.sub_self]
  refine ⟨fun j => ?_, ?_, ?_⟩
  · by_cases hj : j = i
    · subst hj
      rw [Function.update_self]
      omega
    · rw [Function.update_of_ne hj]
  · refine (Set.finite_singleton i).subset fun j hj => ?_
    by_contra hne
    exact hj (hother j hne)
  · rw [growth, finsum_eq_single _ i hother, Function.update_self]
    omega

end SimpleTSDB.Growth
