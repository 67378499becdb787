import Mathlib.Algebra.BigOperators.Group.List.Basic
import Mathlib.Algebra.Order.Monoid.Canonical.Defs
import Mathlib.Data.List.DropRight

/-!
# Counters that are read and reset

A counter that many add to and one party drains: the party reads the counter, uses what it has read,
and resets the counter later, so that what is added between the read and the reset is lost
(`Drained.conserved`). What has been read counts as used when the counter has been reset, so that no
count is both used and in the counter. `Drained.used_add_eq_added_iff` says that the counts are then
conserved exactly if nothing but zeros is added between a read and a reset.
-/

namespace SimpleTSDB.Tally

variable {M : Type*}

/-- An operation on a counter. -/
inductive Op (M : Type*) where
  | add (n : M)
  | read (n : M)
  | reset
deriving DecidableEq

/-- Has the counter been read and not been reset since, if it had been at the start or not? -/
def openFrom : Bool → List (Op M) → Bool
  | b, [] => b
  | b, .add _ :: o => openFrom b o
  | _, .read _ :: o => openFrom true o
  | _, .reset :: o => openFrom false o

/-- Does the operation reset the counter? -/
def Op.isReset : Op M → Bool
  | .reset => true
  | _ => false

/-- The operations up to the last reset. -/
def finished (o : List (Op M)) : List (Op M) := o.rdropWhile (!·.isReset)

@[simp] theorem finished_nil : finished ([] : List (Op M)) = [] := rfl

@[simp] theorem finished_add (o : List (Op M)) (n : M) : finished (o ++ [.add n]) = finished o :=
  List.rdropWhile_concat_pos _ _ _ rfl

@[simp] theorem finished_read (o : List (Op M)) (n : M) : finished (o ++ [.read n]) = finished o :=
  List.rdropWhile_concat_pos _ _ _ rfl

@[simp] theorem finished_reset (o : List (Op M)) : finished (o ++ [.reset]) = o ++ [.reset] :=
  List.rdropWhile_concat_neg _ _ _ Bool.false_ne_true

theorem openFrom_append (b : Bool) (o o' : List (Op M)) :
    openFrom b (o ++ o') = openFrom (openFrom b o) o' := by
  induction o generalizing b with
  | nil => rfl
  | cons op o ih => cases op <;> exact ih _

/-- The adds between a read and a reset, by the first operation. -/
theorem forall_between_cons {P : M → Prop} {b : Bool} {op : Op M} {o : List (Op M)} :
    (∀ o₁ n o₂, op :: o = o₁ ++ .add n :: o₂ → openFrom b o₁ = true → P n) ↔
      (∀ n, op = .add n → b = true → P n) ∧
        ∀ o₁ n o₂, o = o₁ ++ .add n :: o₂ → openFrom (openFrom b [op]) o₁ = true → P n := by
  constructor
  · refine fun h => ⟨fun n hop hb => h [] n o (by rw [hop]; rfl) hb, fun o₁ n o₂ ho hopen => ?_⟩
    refine h (op :: o₁) n o₂ (by rw [ho]; rfl) ?_
    rwa [← List.singleton_append, openFrom_append]
  · rintro ⟨hfirst, hrest⟩ (_ | ⟨op', o₁⟩) n o₂ ho hopen
    · exact hfirst n (List.cons.inj ho).1 hopen
    · obtain ⟨rfl, htail⟩ := List.cons.inj ho
      rw [← List.singleton_append, openFrom_append] at hopen
      exact hrest o₁ n o₂ htail hopen

variable [AddCommMonoid M]

/-- Nothing but zeros is added between a read and the next reset. -/
def NoneBetween (o : List (Op M)) : Prop :=
  ∀ o₁ n o₂, o = o₁ ++ .add n :: o₂ → openFrom false o₁ = true → n = 0

/-- All that is added. -/
def added : List (Op M) → M
  | [] => 0
  | .add n :: o => n + added o
  | _ :: o => added o

/-- All that is read. -/
def used : List (Op M) → M
  | [] => 0
  | .read n :: o => n + used o
  | _ :: o => used o

/-- All that is added between a read and the next reset. -/
def lostFrom : Bool → List (Op M) → M
  | _, [] => 0
  | b, .add n :: o => (if b then n else 0) + lostFrom b o
  | _, .read _ :: o => lostFrom true o
  | _, .reset :: o => lostFrom false o

/-- The counter is drained: it is 0 at first, a read returns its value, and it is read and reset in
turns. The indices say whether it is to be reset next, and its value. -/
inductive Drained : List (Op M) → Bool → M → Prop
  | nil : Drained [] false 0
  | add {o b v} (h : Drained o b v) (n : M) : Drained (o ++ [.add n]) b (v + n)
  | read {o v} (h : Drained o false v) : Drained (o ++ [.read v]) true v
  | reset {o v} (h : Drained o true v) : Drained (o ++ [.reset]) false 0

theorem added_append (o o' : List (Op M)) : added (o ++ o') = added o + added o' := by
  induction o with
  | nil => rw [List.nil_append, added, zero_add]
  | cons op o ih => cases op <;> simp only [List.cons_append, added, ih, add_assoc]

theorem used_append (o o' : List (Op M)) : used (o ++ o') = used o + used o' := by
  induction o with
  | nil => rw [List.nil_append, used, zero_add]
  | cons op o ih => cases op <;> simp only [List.cons_append, used, ih, add_assoc]

theorem lostFrom_append (b : Bool) (o o' : List (Op M)) :
    lostFrom b (o ++ o') = lostFrom b o + lostFrom (openFrom b o) o' := by
  induction o generalizing b with
  | nil => rw [List.nil_append, lostFrom, zero_add, openFrom]
  | cons op o ih => cases op <;> simp only [List.cons_append, lostFrom, openFrom, ih, add_assoc]

namespace Drained

variable {o : List (Op M)} {b : Bool} {v : M}

theorem openFrom_eq (h : Drained o b v) : openFrom false o = b := by
  induction h with
  | nil => rfl
  | add h n ih => rw [openFrom_append, ih]; rfl
  | read h ih => rw [openFrom_append]; rfl
  | reset h ih => rw [openFrom_append]; rfl

/-- **What was read, what is left and what is lost is what was added.** Between a read and a reset
the value has been read already. -/
theorem conserved (h : Drained o b v) :
    used o + (if b then 0 else v) + lostFrom false o = added o := by
  induction h with
  | nil => simp [used, lostFrom, added]
  | @add o b v h n ih =>
    rw [used_append, added_append, lostFrom_append, h.openFrom_eq, ← ih]
    cases b <;> simp [used, added, lostFrom, add_assoc, add_comm, add_left_comm]
  | read h ih =>
    rw [used_append, added_append, lostFrom_append, h.openFrom_eq, ← ih]
    simp [used, added, lostFrom]
  | reset h ih =>
    rw [used_append, added_append, lostFrom_append, h.openFrom_eq, ← ih]
    simp [used, added, lostFrom]

/-- **What was used, what is in the counter and what is lost is what was added.** -/
theorem conserved_finished (h : Drained o b v) :
    used (finished o) + v + lostFrom false (finished o) = added o := by
  induction h with
  | nil => simp [used, lostFrom, added]
  | @add o b v h n ih =>
    rw [finished_add, added_append, ← ih]
    simp [added, add_assoc, add_comm, add_left_comm]
  | read h ih =>
    rw [finished_read, added_append, ← ih]
    simp [added]
  | reset h ih =>
    -- all reads have been followed by a reset
    rw [finished_reset]
    exact h.reset.conserved

end Drained

section Order

variable [PartialOrder M] [CanonicallyOrderedAdd M]

theorem lostFrom_eq_zero_iff {b : Bool} {o : List (Op M)} : lostFrom b o = 0 ↔
    ∀ o₁ n o₂, o = o₁ ++ .add n :: o₂ → openFrom b o₁ = true → n = 0 := by
  induction o generalizing b with
  | nil => simp [lostFrom]
  | cons op o ih =>
    rw [forall_between_cons, ← ih]
    cases op with
    | add n => cases b <;> simp [lostFrom, openFrom]
    | read n => simp [lostFrom, openFrom]
    | reset => simp [lostFrom, openFrom]

/-- **The counts are conserved exactly if** nothing but zeros is added between a read and a
reset. -/
theorem Drained.used_add_eq_added_iff [IsLeftCancelAdd M] {o : List (Op M)} {b : Bool} {v : M}
    (h : Drained o b v) : used (finished o) + v = added o ↔ NoneBetween (finished o) := by
  rw [NoneBetween, ← lostFrom_eq_zero_iff, ← h.conserved_finished]
  exact left_eq_add

end Order

end SimpleTSDB.Tally
