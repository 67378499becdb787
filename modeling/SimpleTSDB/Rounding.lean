import SimpleTSDB.Arithmetic
import SimpleTSDB.Printing

/-!
# Sums and quotients that are exact

A sum and a quotient are doubles. A double added to zero and a double divided by one are not
rounded: the sum is the double except for a negative zero (`posZero_add`), the quotient is the
double (`div_one`). A sum of doubles is a negative zero only if both are (`add_ne_negZero`), since
no sum underflows.
-/

namespace SimpleTSDB.Double

variable {m : ℕ} {e : ℤ}

theorem unsignZero_eq {v : Double} (h : v.IsBinary64) (hne : v ≠ fin true 0 0) :
    v.unsignZero = v := by
  cases v with
  | nan => rfl
  | inf neg => rfl
  | fin neg m e =>
    rcases h with ⟨rfl, rfl⟩ | ⟨hpos, -⟩
    · cases neg with
      | false => rfl
      | true => exact absurd rfl hne
    · rw [unsignZero, if_neg hpos.ne']

theorem isBinary64_add (v w : Double) : (v.add w).IsBinary64 := by
  cases v with
  | nan => trivial
  | inf a =>
    cases w with
    | nan => trivial
    | inf b =>
      rw [add]
      split <;> trivial
    | fin b n f => trivial
  | fin a m e =>
    cases w with
    | nan => trivial
    | inf b => trivial
    | fin b n f =>
      rw [add]
      split
      · exact .inl ⟨rfl, rfl⟩
      · exact isBinary64_ofScientific _ _ two_ne_zero _

theorem isBinary64_div (v w : Double) : (v.div w).IsBinary64 := by
  cases v with
  | nan => trivial
  | inf a => cases w <;> trivial
  | fin a m e =>
    cases w with
    | nan => trivial
    | inf b => exact .inl ⟨rfl, rfl⟩
    | fin b n f =>
      rw [div]
      split
      · split <;> trivial
      next hn =>
        split
        · exact isBinary64_ofRatio _ _ hn
        · exact isBinary64_ofRatio _ _ (Nat.mul_ne_zero hn (Nat.two_pow_pos _).ne')

theorem signed_natAbs (neg : Bool) (m k : ℕ) : (signed neg m k).natAbs = m * 2 ^ k := by
  cases neg with
  | false => exact Int.natAbs_natCast _
  | true => exact (Int.natAbs_neg _).trans (Int.natAbs_natCast _)

theorem signed_neg_iff (neg : Bool) {m : ℕ} (hm : m ≠ 0) (k : ℕ) :
    decide (signed neg m k < 0) = neg := by
  have hpos : 0 < m * 2 ^ k := Nat.mul_pos (Nat.pos_of_ne_zero hm) (Nat.two_pow_pos k)
  cases neg with
  | false => simp [signed]
  | true =>
    rw [decide_eq_true_iff, signed, if_pos rfl]
    omega

/-- **A double added to zero is not rounded**, but a zero gets a positive sign. -/
theorem posZero_add {v : Double} (h : v.IsBinary64) : (fin false 0 0).add v = v.unsignZero := by
  cases v with
  | nan => rfl
  | inf neg => rfl
  | fin neg m e =>
    rw [add, unsignZero]
    have hzero : signed false 0 (0 - min 0 e).toNat = 0 := by simp [signed]
    rw [hzero, zero_add]
    by_cases hm : m = 0
    · rw [if_pos hm, if_pos (by simp [signed, hm]), Bool.false_and]
    · have hne : signed neg m (e - min 0 e).toNat ≠ 0 := by
        rw [← Int.natAbs_ne_zero, signed_natAbs]
        positivity
      have hlow : (min 0 e).toNat = 0 ∧ (-min 0 e).toNat = (-e).toNat ∧
          (e - min 0 e).toNat = e.toNat := by omega
      rw [if_neg hne, if_neg hm, signed_natAbs, signed_neg_iff neg hm, ofScientific_two, hlow.1,
        hlow.2.1, hlow.2.2, Nat.pow_zero, Nat.mul_one, ← ofScientific_two,
        ofScientific_exact neg h]

/-- **A double divided by one is not rounded.** -/
theorem div_one {v : Double} (h : v.IsBinary64) : v.div (ofNat 1) = v := by
  have hone : ofNat 1 = fin false (2 ^ 52) (-52) :=
    ofRatio_exact false (.inr (by decide)) one_ne_zero rfl
  rw [hone]
  cases v with
  | nan => rfl
  | inf neg => rw [div, Bool.bne_false]
  | fin neg m e =>
    rw [div, if_neg (by decide), Bool.bne_false]
    split
    next he =>
      refine ofRatio_exact neg h (by decide) ?_
      have hexp : (e - -52).toNat + (-e).toNat = e.toNat + 52 := by omega
      rw [IsScaled, Nat.mul_assoc, ← Nat.pow_add, hexp, Nat.pow_add, Nat.mul_assoc]
    next he =>
      refine ofRatio_exact neg h (by positivity) ?_
      have hexp : (-e).toNat = e.toNat + (52 + (-52 - e).toNat) := by omega
      rw [IsScaled, hexp, Nat.pow_add, Nat.pow_add, Nat.mul_assoc]

/-- A quotient that is not below the least double is not rounded to zero. -/
theorem ofRatio_ne_zero {num den : ℕ} (neg neg' : Bool) (hnum : num ≠ 0) (hden : den ≠ 0)
    (hle : (scale num den (-1074)).2 ≤ (scale num den (-1074)).1) :
    ofRatio neg num den ≠ fin neg' 0 0 := by
  obtain ⟨-, -, hge⟩ := ulpExponent_spec hnum hden
  have hs (x : ℤ) : 0 < (scale num den x).2 := by
    rw [scale_eq]
    positivity
  unfold ofRatio
  rw [if_neg hnum]
  -- the mantissa is at least 1, in a normal unit and in the least one
  have hone : (scale num den (ulpExponent num den)).2 ≤
      (scale num den (ulpExponent num den)).1 := by
    rcases hge with hge | hulp
    · exact (Nat.le_mul_of_pos_left _ (by decide)).trans hge
    · rw [hulp]
      exact hle
  have hpos := (Nat.one_le_div_iff (hs _)).mpr hone
  generalize ulpExponent num den = e at hpos ⊢
  dsimp only
  generalize scale num den e = s at hpos ⊢
  have hround := (roundHalfEven_mem s.1 s.2).1
  generalize roundHalfEven s.1 s.2 = m at hround ⊢
  by_cases hcarry : m = 2 ^ 53
  · simp only [if_pos hcarry]
    rw [if_neg (by decide)]
    split <;> simp
  · simp only [if_neg hcarry]
    rw [if_neg (by omega)]
    split
    · nofun
    · rw [ne_eq, fin.injEq]
      omega

theorem ofScientific_ne_zero (neg neg' : Bool) {n : ℕ} (hn : n ≠ 0) {x : ℤ} (hx : -1074 ≤ x) :
    ofScientific neg n 2 x ≠ fin neg' 0 0 := by
  rw [ofScientific_two]
  refine ofRatio_ne_zero neg neg' (by positivity) (by positivity) ?_
  have hnum : 2 ^ x.toNat ≤ n * 2 ^ x.toNat := Nat.le_mul_of_pos_left _ (Nat.pos_of_ne_zero hn)
  simpa using @le_scale _ _ (-1074) _ _ 0 hnum le_rfl (by omega)

theorem exponent_of_isBinary64 {neg : Bool} (h : (fin neg m e).IsBinary64) : -1074 ≤ e := by
  rcases h with ⟨-, rfl⟩ | ⟨-, -, hleast, -⟩
  · decide
  · exact hleast

/-- **A sum of doubles is a negative zero only if both are.** -/
theorem add_ne_negZero {v w : Double} (hv : v.IsBinary64) (hw : w.IsBinary64)
    (h : v ≠ fin true 0 0) : v.add w ≠ fin true 0 0 := by
  cases v with
  | nan => nofun
  | inf a =>
    cases w with
    | nan => nofun
    | inf b =>
      rw [add]
      split <;> nofun
    | fin b n f => nofun
  | fin a m e =>
    cases w with
    | nan => nofun
    | inf b => nofun
    | fin b n f =>
      have he := exponent_of_isBinary64 hv
      have hf := exponent_of_isBinary64 hw
      rw [add]
      split
      next hsum =>
        -- an exact zero of two summands with a negative sign is the sum of negative zeros
        intro heq
        obtain ⟨hsign, -⟩ := fin.inj heq
        obtain ⟨rfl, rfl⟩ := Bool.and_eq_true_iff.mp hsign
        rw [signed, signed, if_pos rfl, if_pos rfl] at hsum
        have hzero : m * 2 ^ (e - min e f).toNat = 0 := by omega
        obtain rfl : m = 0 := (Nat.mul_eq_zero.mp hzero).resolve_right (Nat.two_pow_pos _).ne'
        rcases hv with ⟨-, rfl⟩ | ⟨hpos, -⟩
        · exact h rfl
        · exact absurd hpos (lt_irrefl 0)
      next hsum => exact ofScientific_ne_zero _ _ (Int.natAbs_ne_zero.mpr hsum) (by omega)

end SimpleTSDB.Double
