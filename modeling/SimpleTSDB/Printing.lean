import Mathlib.Tactic.Linarith
import Mathlib.Tactic.Ring
import SimpleTSDB.Numeric

/-!
# Numbers that are read as they were written

The digits of a number are read as the number (`strtoull_showNat`). A double is a mantissa of at
most 53 bits with an exponent (`IsBinary64`); what `strtod` reads is one (`isBinary64_strtod`), and
each of them is read from its hexadecimal text (`strtod_showHex`).
-/

namespace SimpleTSDB

/-! ## Digits -/

theorem digitsVal_append (base : ℕ) (ds : Str) (c : Char) :
    digitsVal base (ds ++ [c]) = base * digitsVal base ds + digitVal c := by
  rw [digitsVal, List.foldl_append]
  rfl

theorem digitVal_digitChar : ∀ d < 16, digitVal (Nat.digitChar d) = d := by decide

/-- The digits of a number denote it. -/
theorem digitsVal_toDigits {base : ℕ} (hbase : 1 < base) (hle : base ≤ 16) (n : ℕ) :
    digitsVal base (Nat.toDigits base n) = n := by
  induction n using Nat.strong_induction_on with
  | _ n ih =>
    rw [Nat.toDigits_eq_if hbase]
    split
    next hlt =>
      have hdigit := digitVal_digitChar n (hlt.trans_le hle)
      simp [digitsVal, hdigit]
    next hge =>
      have hdiv : n / base < n := Nat.div_lt_self (by omega) hbase
      have hmod : n % base < base := Nat.mod_lt n (by omega)
      rw [digitsVal_append, ih _ hdiv, digitVal_digitChar _ (hmod.trans_le hle), Nat.div_add_mod]

theorem mem_toDigits {base : ℕ} (hbase : 1 < base) {n : ℕ} {c : Char}
    (h : c ∈ Nat.toDigits base n) : ∃ d < base, c = Nat.digitChar d := by
  induction n using Nat.strong_induction_on with
  | _ n ih =>
    rw [Nat.toDigits_eq_if hbase] at h
    split at h
    next hlt => exact ⟨n, hlt, List.mem_singleton.mp h⟩
    next hge =>
      rcases List.mem_append.mp h with h | h
      · exact ih _ (Nat.div_lt_self (by omega) hbase) h
      · exact ⟨n % base, Nat.mod_lt n (by omega), List.mem_singleton.mp h⟩

theorem isdigit_digitChar : ∀ d < 10, isdigit (Nat.digitChar d) = true := by decide

theorem isxdigit_digitChar : ∀ d < 16, isxdigit (Nat.digitChar d) = true := by decide

theorem isdigit_of_mem_showNat {n : ℕ} {c : Char} (h : c ∈ showNat n) : isdigit c = true := by
  obtain ⟨d, hd, rfl⟩ := mem_toDigits (by decide) h
  exact isdigit_digitChar d hd

theorem showNat_ne (n : ℕ) : showNat n ≠ [] := Nat.toDigits_ne_nil

/-- **The text of a 64-bit number is read as the number.** -/
theorem strtoull_showNat (n : BitVec 64) : strtoull (showNat n.toNat) = (n, []) := by
  have hval : digitsVal 10 (showNat n.toNat) = n.toNat :=
    digitsVal_toDigits (by decide) (by decide) _
  have hlt : ¬ 2 ^ 64 ≤ n.toNat := Nat.not_le.mpr n.isLt
  rw [strtoull_digits (showNat_ne _) fun c hc => isdigit_of_mem_showNat hc, hval, if_neg hlt,
    BitVec.ofNat_toNat, BitVec.setWidth_eq]

/-! ## Doubles -/

namespace Double

/-- The values of IEEE binary64; zero has the exponent 0. -/
def IsBinary64 : Double → Prop
  | nan => True
  | inf _ => True
  | fin _ m e =>
    m = 0 ∧ e = 0 ∨ 0 < m ∧ m < 2 ^ 53 ∧ -1074 ≤ e ∧ e ≤ 971 ∧ (2 ^ 52 ≤ m ∨ e = -1074)

variable {num den : ℕ} {x : ℤ}

theorem scale_eq (num den : ℕ) (x : ℤ) :
    scale num den x = (num * 2 ^ (-x).toNat, den * 2 ^ x.toNat) := by
  rw [scale]
  split
  next h => rw [Int.toNat_of_nonpos (show -x ≤ 0 by omega), Nat.pow_zero, Nat.mul_one]
  next h => rw [Int.toNat_of_nonpos (show x ≤ 0 by omega), Nat.pow_zero, Nat.mul_one]

/-- The scaled quotient is below a power of two. -/
theorem scale_lt {a b k : ℕ} (hnum : num < 2 ^ a) (hden : 2 ^ b ≤ den) (h : (a : ℤ) ≤ b + x + k) :
    (scale num den x).1 < 2 ^ k * (scale num den x).2 := by
  rw [scale_eq]
  calc num * 2 ^ (-x).toNat
      < 2 ^ a * 2 ^ (-x).toNat := Nat.mul_lt_mul_of_pos_right hnum (Nat.two_pow_pos _)
    _ = 2 ^ (a + (-x).toNat) := (Nat.pow_add 2 _ _).symm
    _ ≤ 2 ^ (k + (b + x.toNat)) := Nat.pow_le_pow_right (by decide) (by omega)
    _ = 2 ^ k * (2 ^ b * 2 ^ x.toNat) := by rw [Nat.pow_add, Nat.pow_add]
    _ ≤ 2 ^ k * (den * 2 ^ x.toNat) := Nat.mul_le_mul_left _ (Nat.mul_le_mul_right _ hden)

/-- The scaled quotient is at least a power of two. -/
theorem le_scale {a b k : ℕ} (hnum : 2 ^ a ≤ num) (hden : den ≤ 2 ^ b) (h : b + x + k ≤ (a : ℤ)) :
    2 ^ k * (scale num den x).2 ≤ (scale num den x).1 := by
  rw [scale_eq]
  calc 2 ^ k * (den * 2 ^ x.toNat)
      ≤ 2 ^ k * (2 ^ b * 2 ^ x.toNat) := Nat.mul_le_mul_left _ (Nat.mul_le_mul_right _ hden)
    _ = 2 ^ (k + (b + x.toNat)) := by rw [Nat.pow_add, Nat.pow_add]
    _ ≤ 2 ^ (a + (-x).toNat) := Nat.pow_le_pow_right (by decide) (by omega)
    _ = 2 ^ a * 2 ^ (-x).toNat := Nat.pow_add 2 _ _
    _ ≤ num * 2 ^ (-x).toNat := Nat.mul_le_mul_right _ hnum

theorem roundHalfEven_mem (num den : ℕ) :
    num / den ≤ roundHalfEven num den ∧ roundHalfEven num den ≤ num / den + 1 := by
  unfold roundHalfEven
  dsimp only
  split
  · omega
  · split
    · omega
    · split <;> omega

/-- A greater unit by a factor two. -/
theorem le_scale_succ {k : ℕ} (h : 2 ^ (k + 1) * (scale num den x).2 ≤ (scale num den x).1) :
    2 ^ k * (scale num den (x + 1)).2 ≤ (scale num den (x + 1)).1 := by
  rw [scale_eq] at h ⊢
  rw [Nat.pow_succ] at h
  dsimp only at h ⊢
  rcases lt_or_ge x 0 with hneg | hpos
  · have hnum : (-x).toNat = (-(x + 1)).toNat + 1 := by omega
    rw [hnum, Nat.pow_succ, Int.toNat_of_nonpos hneg.le] at h
    rw [Int.toNat_of_nonpos (show x + 1 ≤ 0 by omega)]
    linarith
  · have hden : (x + 1).toNat = x.toNat + 1 := by omega
    rw [Int.toNat_of_nonpos (show -x ≤ 0 by omega)] at h
    rw [hden, Nat.pow_succ, Int.toNat_of_nonpos (show -(x + 1) ≤ 0 by omega)]
    linarith

/-- In the unit of the last place, a quotient has at most 53 bits, and 53 unless the unit is the
least one. -/
theorem ulpExponent_spec (hnum : num ≠ 0) (hden : den ≠ 0) :
    -1074 ≤ ulpExponent num den ∧
      (scale num den (ulpExponent num den)).1 < 2 ^ 53 * (scale num den (ulpExponent num den)).2 ∧
      (2 ^ 52 * (scale num den (ulpExponent num den)).2 ≤
        (scale num den (ulpExponent num den)).1 ∨ ulpExponent num den = -1074) := by
  have hn := Nat.log2_self_le hnum
  have hn' := Nat.lt_log2_self (n := num)
  have hd := Nat.log2_self_le hden
  have hd' := (Nat.lt_log2_self (n := den)).le
  have hpos (x : ℤ) : 0 < (scale num den x).2 := by
    rw [scale_eq]
    exact Nat.mul_pos (Nat.pos_of_ne_zero hden) (Nat.two_pow_pos _)
  unfold ulpExponent
  dsimp only
  generalize hlow : max ((Nat.log2 num : ℤ) - (Nat.log2 den : ℤ) - 53) (-1074) = low
  split
  next hq =>
    refine ⟨by omega, (Nat.div_lt_iff_lt_mul (hpos low)).mp hq, ?_⟩
    by_cases hleast : low = -1074
    · exact .inr hleast
    · exact .inl (le_scale hn hd' (by push_cast; omega))
  next hq =>
    have hge := (Nat.le_div_iff_mul_le (hpos low)).mp (Nat.not_lt.mp hq)
    exact ⟨by omega, scale_lt hn' hd (by push_cast; omega), .inl (le_scale_succ hge)⟩

/-- **A rounded quotient is a double.** -/
theorem isBinary64_ofRatio (neg : Bool) (num : ℕ) (hden : den ≠ 0) :
    (ofRatio neg num den).IsBinary64 := by
  unfold ofRatio
  split
  · exact .inl ⟨rfl, rfl⟩
  next hnum =>
    obtain ⟨hleast, hlt, hge⟩ := ulpExponent_spec hnum hden
    generalize ulpExponent num den = e at hleast hlt hge ⊢
    dsimp only
    generalize scale num den e = s at hlt hge ⊢
    have hpos : 0 < s.2 := by
      by_contra h
      rw [Nat.eq_zero_of_not_pos h] at hlt
      omega
    have hq : s.1 / s.2 < 2 ^ 53 := (Nat.div_lt_iff_lt_mul hpos).mpr hlt
    have hq' : 2 ^ 52 ≤ s.1 / s.2 ∨ e = -1074 :=
      hge.imp_left (Nat.le_div_iff_mul_le hpos).mpr
    obtain ⟨hlow, hhigh⟩ := roundHalfEven_mem s.1 s.2
    generalize roundHalfEven s.1 s.2 = m at hlow hhigh ⊢
    by_cases hcarry : m = 2 ^ 53
    · simp only [if_pos hcarry]
      split
      · exact .inl ⟨rfl, rfl⟩
      · split
        · trivial
        · refine .inr ⟨by omega, by omega, by omega, by omega, .inl le_rfl⟩
    · simp only [if_neg hcarry]
      split
      · exact .inl ⟨rfl, rfl⟩
      · split
        · trivial
        · exact .inr ⟨by omega, by omega, hleast, by omega, by omega⟩

theorem isBinary64_ofScientific (neg : Bool) (n : ℕ) {b : ℕ} (hb : b ≠ 0) (x : ℤ) :
    (ofScientific neg n b x).IsBinary64 := by
  unfold ofScientific
  split
  · exact isBinary64_ofRatio neg _ Nat.one_ne_zero
  · exact isBinary64_ofRatio neg _ (Nat.pow_pos (Nat.pos_of_ne_zero hb)).ne'

/-! ### Doubles are not rounded -/

variable {m : ℕ} {e : ℤ}

theorem ofScientific_two (neg : Bool) (m : ℕ) (e : ℤ) :
    ofScientific neg m 2 e = ofRatio neg (m * 2 ^ e.toNat) (2 ^ (-e).toNat) := by
  rw [ofScientific]
  split
  next h => rw [Int.toNat_of_nonpos (show -e ≤ 0 by omega), Nat.pow_zero]
  next h => rw [Int.toNat_of_nonpos (show e ≤ 0 by omega), Nat.pow_zero, Nat.mul_one]

/-- The quotient is `m · 2^e`. -/
def IsScaled (num den m : ℕ) (e : ℤ) : Prop :=
  num * 2 ^ (-e).toNat = m * 2 ^ e.toNat * den

/-- In another unit the quotient is the mantissa, multiplied or divided by a power of two. -/
theorem IsScaled.scale_mul (h : IsScaled num den m e) (x : ℤ) :
    (scale num den x).1 * 2 ^ (x - e).toNat = m * 2 ^ (e - x).toNat * (scale num den x).2 := by
  have hexp : e.toNat + (-x).toNat + (x - e).toNat = (e - x).toNat + x.toNat + (-e).toNat := by
    omega
  rw [scale_eq]
  refine Nat.eq_of_mul_eq_mul_right (Nat.two_pow_pos (-e).toNat) ?_
  calc num * 2 ^ (-x).toNat * 2 ^ (x - e).toNat * 2 ^ (-e).toNat
      = num * 2 ^ (-e).toNat * 2 ^ (-x).toNat * 2 ^ (x - e).toNat := by ring
    _ = m * den * 2 ^ (e.toNat + (-x).toNat + (x - e).toNat) := by rw [h]; ring
    _ = m * 2 ^ (e - x).toNat * (den * 2 ^ x.toNat) * 2 ^ (-e).toNat := by rw [hexp]; ring

/-- The unit of the last place of a double is its own. -/
theorem IsScaled.ulpExponent_eq (h : IsScaled num den m e) (hden : den ≠ 0) (hpos : 0 < m)
    (hlt : m < 2 ^ 53) (hleast : -1074 ≤ e) (hnormal : 2 ^ 52 ≤ m ∨ e = -1074) :
    ulpExponent num den = e := by
  have hnum : num ≠ 0 := by
    rintro rfl
    have hzero : m * 2 ^ e.toNat * den = 0 := by rw [← h, Nat.zero_mul]
    exact absurd hzero (by positivity)
  obtain ⟨hleast', hlt', hge'⟩ := ulpExponent_spec hnum hden
  generalize ulpExponent num den = x at hleast' hlt' hge'
  have hmul := h.scale_mul x
  have hs : 0 < (scale num den x).2 := by
    rw [scale_eq]
    positivity
  rcases lt_trichotomy x e with hx | hx | hx
  · -- the mantissa of a smaller unit would have 54 bits
    have hm : 2 ^ 52 ≤ m := hnormal.resolve_right (by omega)
    have htwo : 2 ≤ 2 ^ (e - x).toNat := Nat.le_self_pow (by omega) 2
    rw [Int.toNat_of_nonpos (by omega : x - e ≤ 0), Nat.pow_zero, Nat.mul_one] at hmul
    have hprod : 2 ^ 52 * 2 ≤ m * 2 ^ (e - x).toNat := Nat.mul_le_mul hm htwo
    rw [hmul] at hlt'
    have := Nat.lt_of_mul_lt_mul_right hlt'
    omega
  · exact hx
  · -- in a greater unit the quotient would have 52 bits
    have hge := hge'.resolve_right (by omega)
    have htwo : 2 ≤ 2 ^ (x - e).toNat := Nat.le_self_pow (by omega) 2
    rw [Int.toNat_of_nonpos (by omega : e - x ≤ 0), Nat.pow_zero, Nat.mul_one] at hmul
    have hprod := Nat.mul_le_mul hge htwo
    rw [hmul, Nat.mul_right_comm] at hprod
    have := Nat.le_of_mul_le_mul_right hprod hs
    omega

/-- **A quotient that is a double is not rounded.** -/
theorem ofRatio_exact (neg : Bool) (h : IsBinary64 (fin neg m e)) (hden : den ≠ 0)
    (hscaled : IsScaled num den m e) : ofRatio neg num den = fin neg m e := by
  rcases h with ⟨rfl, rfl⟩ | ⟨hpos, hlt, hleast, hgreatest, hnormal⟩
  · have hnum : num = 0 := by simpa [IsScaled] using hscaled
    rw [ofRatio, if_pos hnum]
  · have hulp := hscaled.ulpExponent_eq hden hpos hlt hleast hnormal
    have hs : 0 < (scale num den e).2 := by
      rw [scale_eq]
      positivity
    have hmul := hscaled.scale_mul e
    rw [Int.sub_self, Int.toNat_zero, Nat.pow_zero, Nat.mul_one, Nat.mul_one] at hmul
    have hround : roundHalfEven (scale num den e).1 (scale num den e).2 = m := by
      unfold roundHalfEven
      dsimp only
      rw [hmul, Nat.mul_div_cancel _ hs, Nat.mul_mod_left, if_pos (by omega)]
    have hnum : num ≠ 0 := by
      rintro rfl
      have hzero : m * 2 ^ e.toNat * den = 0 := by rw [← hscaled, Nat.zero_mul]
      exact absurd hzero (by positivity)
    rw [ofRatio, if_neg hnum]
    simp only [hulp, hround, if_neg hlt.ne]
    rw [if_neg hpos.ne', if_neg (by omega)]

/-- **A double is rounded to itself.** -/
theorem ofScientific_exact (neg : Bool) (h : IsBinary64 (fin neg m e)) :
    ofScientific neg m 2 e = fin neg m e := by
  rw [ofScientific_two]
  exact ofRatio_exact neg h (Nat.two_pow_pos _).ne' rfl

end Double

/-! ## The text of a double -/

theorem isBinary64_readDecimal {neg : Bool} {s : Str} {r : Double × Str}
    (h : readDecimal neg s = some r) : r.1.IsBinary64 := by
  unfold readDecimal at h
  dsimp only at h
  rw [Option.ite_none_left_eq_some] at h
  obtain rfl := Option.some.inj h.2
  exact Double.isBinary64_ofScientific neg _ (by decide) _

theorem isBinary64_readHex {neg : Bool} {s : Str} {r : Double × Str}
    (h : readHex neg s = some r) : r.1.IsBinary64 := by
  unfold readHex at h
  dsimp only at h
  rw [Option.ite_none_left_eq_some] at h
  obtain rfl := Option.some.inj h.2
  exact Double.isBinary64_ofScientific neg _ (by decide) _

/-- **What `strtod` reads is a double.** -/
theorem isBinary64_strtod (s : Str) : (strtod s).1.IsBinary64 := by
  have hzero (neg : Bool) : (Double.fin neg 0 0).IsBinary64 := .inl ⟨rfl, rfl⟩
  unfold strtod
  dsimp only
  split
  · trivial
  split
  · trivial
  split
  · trivial
  split
  · split
    next r hr => exact isBinary64_readHex hr
    next => exact hzero _
  · split
    next r hr => exact isBinary64_readDecimal hr
    next => exact hzero _

/-- A minus sign for a negative number. -/
def signText (neg : Bool) : Str := if neg then ['-'] else []

/-- The text of an exponent. -/
def exponentText (e : ℤ) : Str := signText (e < 0) ++ showNat e.natAbs

/-- The hexadecimal text of a double. -/
def showHex : Double → Str
  | .nan => "nan".toList
  | .inf neg => signText neg ++ "inf".toList
  | .fin neg m e =>
    signText neg ++ '0' :: 'x' :: (Nat.toDigits 16 m ++ 'p' :: exponentText e)

theorem isdigit_of_mem_exponent {e : ℤ} : ∀ c ∈ showNat e.natAbs, isdigit c = true :=
  fun _ hc => isdigit_of_mem_showNat hc

theorem digitsVal_exponent (e : ℤ) : digitsVal 10 (showNat e.natAbs) = e.natAbs :=
  digitsVal_toDigits (by decide) (by decide) _

theorem readSign_exponentText (e : ℤ) :
    readSign (exponentText e) = (decide (e < 0), showNat e.natAbs) := by
  unfold exponentText signText
  split
  next hneg => rw [hneg]; rfl
  next hneg =>
    rw [Bool.eq_false_iff.mpr hneg]
    exact readSign_of_isdigit fun c hc => isdigit_of_mem_exponent c (List.mem_of_mem_head? hc)

theorem readExponent_exponentText (e : ℤ) :
    readExponent 'p' ('p' :: exponentText e) = (e, []) := by
  unfold readExponent
  dsimp only
  rw [if_pos (by decide), readSign_exponentText]
  dsimp only
  rw [List.takeWhile_eq_self_iff.mpr isdigit_of_mem_exponent,
    List.dropWhile_eq_nil_iff.mpr isdigit_of_mem_exponent, if_neg (showNat_ne _),
    digitsVal_exponent]
  refine Prod.ext ?_ rfl
  simp only [decide_eq_true_eq]
  split <;> omega

/-- **The text of a signed 64-bit number is read as the number.** -/
theorem strtoll_exponentText (n : BitVec 64) : strtoll (exponentText n.toInt) = (n, []) := by
  have hspace : (exponentText n.toInt).dropWhile isspace = exponentText n.toInt := by
    refine dropWhile_isspace fun c hc => ?_
    unfold exponentText signText at hc
    split at hc
    · obtain rfl := Option.mem_some.mp hc
      decide
    · exact isspace_eq_false_of_isdigit (isdigit_of_mem_exponent c (List.mem_of_mem_head? hc))
  have hlow := n.le_toInt
  have hhigh := n.toInt_lt
  unfold strtoll
  rw [hspace, readSign_exponentText]
  dsimp only
  rw [List.takeWhile_eq_self_iff.mpr isdigit_of_mem_exponent,
    List.dropWhile_eq_nil_iff.mpr isdigit_of_mem_exponent, if_neg (showNat_ne _),
    digitsVal_exponent]
  refine Prod.ext ?_ rfl
  simp only [decide_eq_true_eq]
  refine (congrArg (BitVec.ofInt 64) ?_).trans BitVec.ofInt_toInt
  split <;> omega

theorem readHex_text (neg : Bool) (m : ℕ) (e : ℤ) :
    readHex neg (Nat.toDigits 16 m ++ 'p' :: exponentText e) =
      some (.ofScientific neg m 2 e, []) := by
  have hd : ∀ c ∈ Nat.toDigits 16 m, isxdigit c = true := by
    intro c hc
    obtain ⟨d, hd, rfl⟩ := mem_toDigits (by decide) hc
    exact isxdigit_digitChar d hd
  have hmantissa : readMantissa isxdigit (Nat.toDigits 16 m ++ 'p' :: exponentText e) =
      (Nat.toDigits 16 m, 0, 'p' :: exponentText e) := by
    have hp : isxdigit 'p' = false := by decide
    unfold readMantissa
    rw [List.takeWhile_append_of_pos hd, List.dropWhile_append_of_pos hd,
      List.takeWhile_cons_of_neg (by simp [hp]), List.dropWhile_cons_of_neg (by simp [hp]),
      List.append_nil]
    rfl
  unfold readHex
  rw [hmantissa]
  dsimp only
  rw [if_neg Nat.toDigits_ne_nil, readExponent_exponentText,
    digitsVal_toDigits (by decide) (by decide)]
  simp

/-- **A double is read from its hexadecimal text.** -/
theorem strtod_showHex {v : Double} (h : v.IsBinary64) : strtod (showHex v) = (v, []) := by
  cases v with
  | nan => rfl
  | inf neg => cases neg <;> rfl
  | fin neg m e =>
    have hread := readHex_text neg m e
    rw [Double.ofScientific_exact neg h] at hread
    have hsign : readSign ((showHex (.fin neg m e)).dropWhile isspace) =
        (neg, '0' :: 'x' :: (Nat.toDigits 16 m ++ 'p' :: exponentText e)) := by
      cases neg <;> rfl
    have h0 : tolower '0' = '0' := by decide
    have hx : tolower 'x' = 'x' := by decide
    unfold strtod
    rw [hsign]
    dsimp only
    rw [if_neg (by simp [startsWithCI, h0]), if_neg (by simp [startsWithCI, h0]),
      if_neg (by simp [startsWithCI, h0]), if_pos (by simp [startsWithCI, h0, hx])]
    simp only [List.drop_succ_cons, List.drop_zero, hread]

end SimpleTSDB
