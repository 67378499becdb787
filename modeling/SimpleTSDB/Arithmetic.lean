import SimpleTSDB.Numeric

/-!
# Arithmetic of doubles

Sums, quotients and comparisons of doubles: the exact result, rounded to the nearest double, with
the rules of IEEE 754 for infinities, NaNs and the signs of zeros.
-/

namespace SimpleTSDB.Double

/-- The mantissa `±m · 2^k` as an integer. -/
def signed (neg : Bool) (m k : ℕ) : ℤ := if neg then -(m * 2 ^ k : ℕ) else (m * 2 ^ k : ℕ)

/-- `x + y`. -/
def add : Double → Double → Double
  | nan, _ => nan
  | _, nan => nan
  | inf a, inf b => if a = b then inf a else nan
  | inf a, fin _ _ _ => inf a
  | fin _ _ _, inf b => inf b
  | fin a m e, fin b n f =>
    let low := min e f
    let sum := signed a m (e - low).toNat + signed b n (f - low).toNat
    -- an exact zero is negative only if both summands are
    if sum = 0 then fin (a && b) 0 0 else ofScientific (sum < 0) sum.natAbs 2 low

/-- `x / y`. -/
def div : Double → Double → Double
  | nan, _ => nan
  | _, nan => nan
  | inf _, inf _ => nan
  | inf a, fin b _ _ => inf (a != b)
  | fin a _ _, inf b => fin (a != b) 0 0
  | fin a m e, fin b n f =>
    if n = 0 then if m = 0 then nan else inf (a != b)
    else if f ≤ e then ofRatio (a != b) (m * 2 ^ (e - f).toNat) n
    else ofRatio (a != b) m (n * 2 ^ (f - e).toNat)

/-- `x < y`. -/
def lt : Double → Double → Bool
  | nan, _ => false
  | _, nan => false
  | inf a, inf b => a && !b
  | inf a, fin _ _ _ => a
  | fin _ _ _, inf b => !b
  | fin a m e, fin b n f =>
    let low := min e f
    signed a m (e - low).toNat < signed b n (f - low).toNat

/-- A `size_t` as a double. -/
def ofNat (n : ℕ) : Double := ofRatio false n 1

end SimpleTSDB.Double
