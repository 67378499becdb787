import SimpleTSDB.Utility

/-!
# Units of time

The units of the documented sizes and intervals, and what the program makes of a number of units:
the number that is read saturates, and its product with the seconds of the unit wraps (`wrapped`).
-/

namespace SimpleTSDB

/-- Seconds, minutes, hours and days. -/
inductive TimeUnit where
  | s
  | m
  | h
  | d
deriving DecidableEq

namespace TimeUnit

def letter : TimeUnit → Char
  | .s => 's'
  | .m => 'm'
  | .h => 'h'
  | .d => 'd'

def seconds : TimeUnit → ℕ
  | .s => 1
  | .m => 60
  | .h => 60 * 60
  | .d => 60 * 60 * 24

/-- The seconds of `n` units in 64 bits. -/
def wrapped (u : TimeUnit) (n : ℕ) : ℕ := min n (2 ^ 64 - 1) * u.seconds % 2 ^ 64

variable (u : TimeUnit)

theorem seconds_pos : 0 < u.seconds := by cases u <;> decide

theorem letter_not_digit : isdigit u.letter = false := by cases u <;> rfl

/-- The seconds are right exactly if they fit 64 bits. -/
theorem wrapped_eq_iff (n : ℕ) : u.wrapped n = n * u.seconds ↔ n * u.seconds < 2 ^ 64 := by
  unfold wrapped
  constructor
  · intro h
    rw [← h]
    exact Nat.mod_lt _ (by decide)
  · intro h
    have hn : n ≤ n * u.seconds := Nat.le_mul_of_pos_right n u.seconds_pos
    rw [Nat.min_eq_left (by omega), Nat.mod_eq_of_lt h]

/-- The branches on a letter multiply with the seconds of its unit. -/
theorem letter_factor (v : BitVec 64) :
    (if some u.letter = some 'm' then v * 60
      else if some u.letter = some 'h' then v * (60 * 60)
      else if some u.letter = some 'd' then v * (60 * 60 * 24)
      else v) = v * BitVec.ofNat 64 u.seconds := by
  cases u with
  | s =>
    rw [if_neg (by decide), if_neg (by decide), if_neg (by decide)]
    exact (BitVec.mul_one v).symm
  | m =>
    rw [if_pos (by decide)]
    exact congrArg (v * ·) (by decide)
  | h =>
    rw [if_neg (by decide), if_pos (by decide)]
    exact congrArg (v * ·) (by decide)
  | d =>
    rw [if_neg (by decide), if_neg (by decide), if_pos (by decide)]
    exact congrArg (v * ·) (by decide)

/-- The number that is read, times some seconds. -/
theorem toNat_strtoull_mul {ds rest : Str} (hne : ds ≠ []) (hd : ∀ c ∈ ds, isdigit c = true)
    (hrest : ∀ c ∈ rest.head?, isdigit c = false) (k : ℕ) :
    ((strtoull (ds ++ rest)).1 * BitVec.ofNat 64 k).toNat =
      min (digitsVal 10 ds) (2 ^ 64 - 1) * k % 2 ^ 64 := by
  rw [strtoull_digits_append hne hd hrest, BitVec.toNat_mul, BitVec.toNat_ofNat, Nat.mul_mod_mod]
  dsimp only
  split
  · rw [BitVec.toNat_allOnes, Nat.min_eq_right (by omega)]
  · rw [BitVec.toNat_ofNat, Nat.mod_mul_mod, Nat.min_eq_left (by omega)]

end TimeUnit

end SimpleTSDB
