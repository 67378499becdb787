import Mathlib.Data.Multiset.AddSub
import SimpleTSDB.Foundations.Transducer

/-!
# Ledgers of resources

Resources that are acquired and released, one move at a time. `settle` says what is held after some
moves, and fails at the release of a resource that is not held. Moves that settle leave alone what
is held besides (`settle_add`), and a transducer that settles in every step settles in every run
(`settle_run`).
-/

namespace SimpleTSDB.Ledger

/-- A resource is acquired or released. -/
inductive Move (ρ : Type*)
  | acquire (r : ρ)
  | release (r : ρ)
deriving DecidableEq

variable {ρ : Type*} [DecidableEq ρ]

/-- What is held after some moves; `none` if a resource is released that is not held. -/
def settle : Multiset ρ → List (Move ρ) → Option (Multiset ρ)
  | held, [] => some held
  | held, .acquire r :: ms => settle (r ::ₘ held) ms
  | held, .release r :: ms => if r ∈ held then settle (held.erase r) ms else none

@[simp] theorem settle_nil (held : Multiset ρ) : settle held [] = some held := rfl

theorem settle_acquire (held : Multiset ρ) (r : ρ) (ms : List (Move ρ)) :
    settle held (.acquire r :: ms) = settle (r ::ₘ held) ms := rfl

theorem settle_release_cons (held : Multiset ρ) (r : ρ) (ms : List (Move ρ)) :
    settle (r ::ₘ held) (.release r :: ms) = settle held ms := by
  rw [settle, if_pos (Multiset.mem_cons_self r held), Multiset.erase_cons_head]

/-- A resource is kept. -/
@[simp] theorem settle_kept (held : Multiset ρ) (r : ρ) :
    settle held [.acquire r] = some (held + {r}) := by
  rw [Multiset.add_comm, Multiset.singleton_add]
  rfl

/-- A resource is given back at once. -/
@[simp] theorem settle_returned (held : Multiset ρ) (r : ρ) :
    settle held [.acquire r, .release r] = some held := settle_release_cons held r []

theorem settle_release_of_not_mem {held : Multiset ρ} {r : ρ} (h : r ∉ held)
    (ms : List (Move ρ)) : settle held (.release r :: ms) = none := if_neg h

theorem settle_append (held : Multiset ρ) (ms ms' : List (Move ρ)) :
    settle held (ms ++ ms') = (settle held ms).bind fun held => settle held ms' := by
  induction ms generalizing held with
  | nil => rfl
  | cons m ms ih =>
    cases m with
    | acquire r => exact ih (r ::ₘ held)
    | release r =>
      rw [List.cons_append, settle, settle]
      split
      · exact ih (held.erase r)
      · rfl

theorem settle_append_of_eq {held held' : Multiset ρ} {ms : List (Move ρ)}
    (h : settle held ms = some held') (ms' : List (Move ρ)) :
    settle held (ms ++ ms') = settle held' ms' := by
  rw [settle_append, h, Option.bind_some]

/-- **What is held besides** is left alone. -/
theorem settle_add {held held' : Multiset ρ} {ms : List (Move ρ)} (h : settle held ms = some held')
    (others : Multiset ρ) : settle (held + others) ms = some (held' + others) := by
  induction ms generalizing held with
  | nil =>
    obtain rfl := Option.some.inj h
    rfl
  | cons m ms ih =>
    cases m with
    | acquire r =>
      rw [settle_acquire, ← Multiset.cons_add]
      exact ih h
    | release r =>
      obtain ⟨hr, h⟩ := Option.ite_none_right_eq_some.mp h
      obtain ⟨held, rfl⟩ := Multiset.exists_cons_of_mem hr
      rw [Multiset.erase_cons_head] at h
      rw [Multiset.cons_add, settle_release_cons]
      exact ih h

/-- Everything is released, in any order. -/
theorem settle_releases {rs : List ρ} {held : Multiset ρ} (h : (rs : Multiset ρ) = held) :
    settle held (rs.map .release) = some 0 := by
  subst h
  induction rs with
  | nil => rfl
  | cons r rs ih =>
    rw [List.map_cons, ← Multiset.cons_coe, settle_release_cons]
    exact ih

/-- **A transducer of moves** that settles in every step settles in every run. -/
theorem settle_run {σ α : Type*} {f : σ → α → Option (σ × List (Move ρ))} {held : σ → Multiset ρ}
    (step : ∀ s a t ms, f s a = some (t, ms) → settle (held s) ms = some (held t))
    {s t : σ} {as : List α} {ms : List (Move ρ)} (h : Transducer.run f s as = some (t, ms)) :
    settle (held s) ms = some (held t) :=
  Transducer.run_induction (motive := fun _ t ms => settle (held s) ms = some (held t)) rfl
    (fun _ t ms a t' ms' _ hms hf => by rw [settle_append_of_eq hms, step t a t' ms' hf]) h

end SimpleTSDB.Ledger
