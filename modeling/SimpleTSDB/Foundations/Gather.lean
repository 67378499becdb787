import Mathlib.Algebra.BigOperators.Group.Finset.Basic
import Mathlib.Algebra.Order.Group.Multiset
import SimpleTSDB.Foundations.Transducer

/-!
# What a multiplexed run emits

The outputs of a multiplexed transducer are those of its sessions, in some order: of the sessions
that are open before the run, and of those that the run opens (`mux_outputs`).
-/

namespace SimpleTSDB.Transducer

variable {σ α ω κ : Type*} [DecidableEq κ] {f : σ → α → Option (σ × List ω)} {s₀ : σ}

/-- An event concerns the session of its key only: what the others emit is as before. -/
theorem sum_emitted_of_not_mem {e : MuxEvent κ α} {S : Finset κ} (h : e.key ∉ S) (o : List ω)
    (tr : List (MuxEvent κ α × List ω)) :
    ∑ k ∈ S, (emitted k ((e, o) :: tr) : Multiset ω) = ∑ k ∈ S, (emitted k tr : Multiset ω) := by
  refine Finset.sum_congr rfl fun k hk => ?_
  rw [emitted_of_ne]
  rintro rfl
  exact h hk

/-- **The outputs of a multiplexed run** are, up to their order, the outputs of its sessions. -/
theorem mux_outputs {es : List (MuxEvent κ α)} {m m' : κ → Option σ} {S : Finset κ}
    {tr : List (MuxEvent κ α × List ω)} (hS : ∀ k, k ∈ S ↔ (m k).isSome)
    (h : run (traced (muxStep f s₀)) m es = some (m', tr)) :
    ((tr.flatMap Prod.snd : List ω) : Multiset ω) =
      ∑ k ∈ S, (emitted k tr : Multiset ω) + ((sessionOutputs tr).flatten : List ω) := by
  induction es generalizing m S tr with
  | nil =>
    obtain ⟨-, rfl⟩ := Prod.mk.inj (Option.some.inj h)
    simp [emitted, sessionOutputs]
  | cons e es ih =>
    obtain ⟨m₁, t₁, tr', ht, hr, rfl⟩ := run_cons_eq_some_iff.mp h
    obtain ⟨o, hf, rfl⟩ := traced_eq_some_iff.mp ht
    rw [List.singleton_append, List.flatMap_cons, ← Multiset.coe_add]
    cases e with
    | opened k =>
      obtain ⟨rfl, rfl⟩ := Prod.mk.inj (Option.some.inj hf)
      have hS₁ : ∀ k', k' ∈ insert k S ↔ (Function.update m k (some s₀) k').isSome := by
        intro k'
        by_cases hk : k' = k <;> simp [hk, hS]
      have hnone : (emitted k ((.opened k, []) :: tr') : Multiset ω) = 0 := by simp [emitted]
      rw [ih hS₁ hr, ← Finset.add_sum_erase _ _ (Finset.mem_insert_self k S),
        Finset.erase_insert_eq_erase, ← Finset.sum_erase S hnone,
        sum_emitted_of_not_mem (Finset.notMem_erase k S), sessionOutputs, List.flatten_cons,
        ← Multiset.coe_add, Multiset.coe_nil, zero_add, add_assoc, add_left_comm]
    | closed k =>
      obtain ⟨rfl, rfl⟩ := Prod.mk.inj (Option.some.inj hf)
      have hS₁ : ∀ k', k' ∈ S.erase k ↔ (Function.update m k none k').isSome := by
        intro k'
        by_cases hk : k' = k <;> simp [hk, hS]
      have hnone : (emitted k ((.closed k, []) :: tr') : Multiset ω) = 0 := by simp [emitted]
      rw [ih hS₁ hr, ← Finset.sum_erase S hnone,
        sum_emitted_of_not_mem (Finset.notMem_erase k S), sessionOutputs, Multiset.coe_nil,
        zero_add]
    | data k as =>
      rw [sessionOutputs]
      cases hm : m k with
      | none =>
        have hk : k ∉ S := by simp [hS, hm]
        simp only [muxStep, hm] at hf
        obtain ⟨rfl, rfl⟩ := Prod.mk.inj (Option.some.inj hf)
        rw [ih hS hr, sum_emitted_of_not_mem hk, Multiset.coe_nil, zero_add]
      | some s =>
        obtain ⟨s', -, rfl⟩ := (muxStep_data hm).mp hf
        have hk : k ∈ S := by simp [hS, hm]
        have hS₁ : ∀ k', k' ∈ S ↔ (Function.update m k (some s') k').isSome := by
          intro k'
          by_cases hk' : k' = k
          · simp [hk', hk]
          · simp [hk', hS]
        have hsome : emitted k ((.data k as, o) :: tr') = o ++ emitted k tr' := by simp [emitted]
        rw [ih hS₁ hr, ← Finset.add_sum_erase S _ hk,
          ← Finset.add_sum_erase S
            (fun k' => (emitted k' ((.data k as, o) :: tr') : Multiset ω)) hk,
          sum_emitted_of_not_mem (Finset.notMem_erase k S), hsome, ← Multiset.coe_add, add_assoc,
          add_assoc, add_assoc]

end SimpleTSDB.Transducer
