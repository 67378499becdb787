import Mathlib.Algebra.Group.Int.Defs
import Mathlib.Algebra.Group.Nat.Defs
import Mathlib.Data.Nat.Log
import SimpleTSDB.CString

/-!
# Numbers as text

`strtoull` (base 10) and `strtod` of the C library, which return the number read and the text at
their end pointer, and the decimal text an `ostream` writes for a `uint64_t` and a `double`. A
`uint64_t` is a `BitVec 64`. A `double` (`Double`) is a NaN, an infinity or a sign with a binary
mantissa and exponent; `Double.ofRatio` rounds a quotient of natural numbers to the nearest one,
ties to even, with overflow to infinity and gradual underflow.
-/

namespace SimpleTSDB

/-! ## Doubles -/

/-- An IEEE binary64 value; `fin neg m e` is `±m · 2^e`. -/
inductive Double
  | nan
  | inf (neg : Bool)
  | fin (neg : Bool) (m : ℕ) (e : ℤ)
  deriving DecidableEq, Repr

namespace Double

/-- Neither a NaN nor an infinity. -/
def isFinite : Double → Bool
  | fin _ _ _ => true
  | _ => false

/-- The double with a positive sign if it is zero. -/
def unsignZero : Double → Double
  | fin neg m e => if m = 0 then fin false 0 0 else fin neg m e
  | v => v

/-- `num · 2^(-e) / den`, as a quotient of natural numbers. -/
def scale (num den : ℕ) (e : ℤ) : ℕ × ℕ :=
  if 0 ≤ e then (num, den * 2 ^ e.toNat) else (num * 2 ^ (-e).toNat, den)

/-- `num / den` rounded to a natural number, ties to even. -/
def roundHalfEven (num den : ℕ) : ℕ :=
  let q := num / den
  let r := num % den
  if 2 * r < den then q else if den < 2 * r then q + 1 else if q % 2 = 0 then q else q + 1

/-- The exponent of the unit in the last place of `num / den`: the quotient in that unit has at
most 53 bits. -/
def ulpExponent (num den : ℕ) : ℤ :=
  let e := max ((Nat.log2 num : ℤ) - (Nat.log2 den : ℤ) - 53) (-1074)
  let s := scale num den e
  if s.1 / s.2 < 2 ^ 53 then e else e + 1

/-- The double nearest to `±num / den`. -/
def ofRatio (neg : Bool) (num den : ℕ) : Double :=
  if num = 0 then fin neg 0 0
  else
    let e := ulpExponent num den
    let s := scale num den e
    let m := roundHalfEven s.1 s.2
    -- a mantissa rounded up to 2^53 takes the next exponent
    let (m, e) := if m = 2 ^ 53 then (2 ^ 52, e + 1) else (m, e)
    if m = 0 then fin neg 0 0 else if 971 < e then inf neg else fin neg m e

/-- The double nearest to `±n · b^x`. -/
def ofScientific (neg : Bool) (n b : ℕ) (x : ℤ) : Double :=
  if 0 ≤ x then ofRatio neg (n * b ^ x.toNat) 1 else ofRatio neg n (b ^ (-x).toNat)

end Double

/-! ## Reading numbers -/

/-- The value of a digit of base 10 or 16. -/
def digitVal (c : Char) : ℕ :=
  if isdigit c then c.toNat - 48 else (tolower c).toNat - 87

/-- The number a list of digits denotes. -/
def digitsVal (base : ℕ) (ds : Str) : ℕ := ds.foldl (fun n c => base * n + digitVal c) 0

/-- An optional sign, and what follows it. -/
def readSign : Str → Bool × Str
  | '-' :: s => (true, s)
  | '+' :: s => (false, s)
  | s => (false, s)

/-- `strtoull(s, &end, 10)`: the number and the text at `end`. Without a digit nothing is
converted; a number above `ULLONG_MAX` saturates; a minus sign negates modulo `2^64`. -/
def strtoull (s : Str) : BitVec 64 × Str :=
  let (neg, t) := readSign (s.dropWhile isspace)
  let ds := t.takeWhile isdigit
  if ds = [] then (0, s)
  else
    let n := digitsVal 10 ds
    let v := if 2 ^ 64 ≤ n then BitVec.allOnes 64
      else if neg then -BitVec.ofNat 64 n else BitVec.ofNat 64 n
    (v, t.dropWhile isdigit)

/-- `strtoll(s, &end, 10)`: the number and the text at `end`. Without a digit nothing is converted;
a number that does not fit 64 bits saturates. -/
def strtoll (s : Str) : BitVec 64 × Str :=
  let (neg, t) := readSign (s.dropWhile isspace)
  let ds := t.takeWhile isdigit
  if ds = [] then (0, s)
  else
    let n := digitsVal 10 ds
    let v := if neg then max (-(n : ℤ)) (-2 ^ 63) else min (n : ℤ) (2 ^ 63 - 1)
    (BitVec.ofInt 64 v, t.dropWhile isdigit)

/-- Does `s` begin with the lower-case text `pat`, case ignored? -/
def startsWithCI (s pat : Str) : Bool := pat.isPrefixOf (s.map tolower)

def isxdigit (c : Char) : Bool := isdigit c || ('a' ≤ tolower c && tolower c ≤ 'f')

/-- An exponent `[+-]digits` behind the marker `mark`, if one is there. -/
def readExponent (mark : Char) (s : Str) : ℤ × Str :=
  match s with
  | c :: t =>
    if tolower c = mark then
      let (neg, u) := readSign t
      let ds := u.takeWhile isdigit
      if ds = [] then (0, s)
      else
        let n : ℤ := digitsVal 10 ds
        (if neg then -n else n, u.dropWhile isdigit)
    else (0, s)
  | [] => (0, s)

/-- The digits of a mantissa with at most one point: all digits, how many stand behind the point,
and the text behind. -/
def readMantissa (dig : Char → Bool) (s : Str) : Str × ℕ × Str :=
  let ints := s.takeWhile dig
  match s.dropWhile dig with
  | '.' :: t =>
    let fracs := t.takeWhile dig
    if ints = [] ∧ fracs = [] then ([], 0, s)
    else (ints ++ fracs, fracs.length, t.dropWhile dig)
  | t => (ints, 0, t)

/-- The number at the front of `s` behind its sign; `none` if there is none. -/
def readDecimal (neg : Bool) (s : Str) : Option (Double × Str) :=
  let (ds, k, t) := readMantissa isdigit s
  if ds = [] then none
  else
    let (x, u) := readExponent 'e' t
    some (.ofScientific neg (digitsVal 10 ds) 10 (x - k), u)

/-- The hexadecimal number at the front of `s`, which follows `0x`. -/
def readHex (neg : Bool) (s : Str) : Option (Double × Str) :=
  let (ds, k, t) := readMantissa isxdigit s
  if ds = [] then none
  else
    let (x, u) := readExponent 'p' t
    some (.ofScientific neg (digitsVal 16 ds) 2 (x - 4 * k), u)

/-- The optional `(chars)` behind `nan`. -/
def skipNanChars (s : Str) : Str :=
  match s with
  | '(' :: t =>
    match t.dropWhile fun c => isalnum c || c == '_' with
    | ')' :: u => u
    | _ => s
  | _ => s

/-- `strtod(s, &end)`: the number and the text at `end`. -/
def strtod (s : Str) : Double × Str :=
  let (neg, t) := readSign (s.dropWhile isspace)
  if startsWithCI t "infinity".toList then (.inf neg, t.drop 8)
  else if startsWithCI t "inf".toList then (.inf neg, t.drop 3)
  else if startsWithCI t "nan".toList then (.nan, skipNanChars (t.drop 3))
  else if startsWithCI t "0x".toList then
    match readHex neg (t.drop 2) with
    | some r => r
    | none => (.fin neg 0 0, t.drop 1)
  else
    match readDecimal neg t with
    | some r => r
    | none => (.fin false 0 0, s)

/-! ### Numbers without sign and blanks -/

theorem dropWhile_isspace {s : Str} (h : ∀ c ∈ s.head?, isspace c = false) :
    s.dropWhile isspace = s := by
  cases s with
  | nil => rfl
  | cons c s => simp [h c rfl]

theorem isspace_eq_false_of_isdigit {c : Char} (h : isdigit c = true) : isspace c = false := by
  rw [isdigit_iff] at h
  rw [Bool.eq_false_iff, ne_eq, isspace_iff]
  omega

theorem readSign_of_isdigit {s : Str} (h : ∀ c ∈ s.head?, isdigit c = true) :
    readSign s = (false, s) := by
  unfold readSign
  split
  · exact absurd (h '-' rfl) (by decide)
  · exact absurd (h '+' rfl) (by decide)
  · rfl

/-- **Digits at the front**: `strtoull` converts them, saturating, and stops behind them. -/
theorem strtoull_digits_append {ds rest : Str} (hne : ds ≠ []) (hd : ∀ c ∈ ds, isdigit c = true)
    (hrest : ∀ c ∈ rest.head?, isdigit c = false) :
    strtoull (ds ++ rest) = (if 2 ^ 64 ≤ digitsVal 10 ds then BitVec.allOnes 64
      else BitVec.ofNat 64 (digitsVal 10 ds), rest) := by
  have hhead : ∀ c ∈ (ds ++ rest).head?, isdigit c = true := by
    intro c hc
    rw [List.head?_append_of_ne_nil _ hne] at hc
    exact hd c (List.mem_of_mem_head? hc)
  have htake : rest.takeWhile isdigit = [] ∧ rest.dropWhile isdigit = rest := by
    cases rest with
    | nil => exact ⟨rfl, rfl⟩
    | cons c rest => simp [hrest c rfl]
  simp only [strtoull, dropWhile_isspace fun c hc => isspace_eq_false_of_isdigit (hhead c hc),
    readSign_of_isdigit hhead, List.takeWhile_append_of_pos hd, List.dropWhile_append_of_pos hd,
    htake, List.append_nil, hne, if_false, Bool.false_eq_true]

/-- **All digits**: `strtoull` converts the whole text, saturating. -/
theorem strtoull_digits {ds : Str} (hne : ds ≠ []) (hd : ∀ c ∈ ds, isdigit c = true) :
    strtoull ds = (if 2 ^ 64 ≤ digitsVal 10 ds then BitVec.allOnes 64
      else BitVec.ofNat 64 (digitsVal 10 ds), []) := by
  simpa using @strtoull_digits_append ds [] hne hd (by simp)

/-- The number read is the number written exactly when it fits 64 bits. -/
theorem toNat_strtoull_digits_iff {ds : Str} (hne : ds ≠ []) (hd : ∀ c ∈ ds, isdigit c = true) :
    (strtoull ds).1.toNat = digitsVal 10 ds ↔ digitsVal 10 ds < 2 ^ 64 := by
  rw [strtoull_digits hne hd]
  by_cases h : 2 ^ 64 ≤ digitsVal 10 ds
  · simp only [h, if_true, BitVec.toNat_allOnes]
    omega
  · rw [if_neg h, BitVec.toNat_ofNat]
    exact ⟨fun _ => Nat.not_le.mp h, fun hlt => Nat.mod_eq_of_lt hlt⟩

/-! ## Writing numbers -/

/-- `ostream << n`. -/
def showNat (n : ℕ) : Str := Nat.toDigits 10 n

/-- `ostream << i` for a signed number. -/
def showInt (i : ℤ) : Str := if i < 0 then '-' :: showNat i.natAbs else showNat i.natAbs

/-- A text without its trailing zeros. -/
def dropZeros (s : Str) : Str := (s.reverse.dropWhile (· = '0')).reverse

/-- A decimal text of `n` with at least `w` digits. -/
def showPadded (w n : ℕ) : Str := List.replicate (w - (showNat n).length) '0' ++ showNat n

/-- A mantissa text with a point behind its first `k` digits, trailing zeros removed. -/
def pointAfter (k : ℕ) (ds : Str) : Str :=
  let fracs := dropZeros (ds.drop k)
  if fracs = [] then ds.take k else ds.take k ++ '.' :: fracs

/-- The decimal exponent of `num / den` and its first six digits, rounded. -/
def sixDigits (num den : ℕ) : ℤ × ℕ :=
  let x : ℤ := if den ≤ num then (Nat.log 10 (num / den) : ℤ) else -(Nat.clog 10 (den / num) : ℤ)
  let digits (x : ℤ) : ℕ :=
    if x ≤ 5 then Double.roundHalfEven (num * 10 ^ (5 - x).toNat) den
    else Double.roundHalfEven num (den * 10 ^ (x - 5).toNat)
  -- the estimate below 1 can be one too large, and rounding can carry into a seventh digit
  let x := if digits x < 100000 then x - 1 else x
  if digits x < 1000000 then (x, digits x) else (x + 1, digits (x + 1))

/-- `ostream << v` for a double, in the default format with six significant digits. -/
def showDouble : Double → Str
  | .nan => "nan".toList
  | .inf neg => if neg then "-inf".toList else "inf".toList
  | .fin neg m e =>
    let sign := if neg then "-".toList else []
    if m = 0 then sign ++ "0".toList
    else
      let (num, den) := if 0 ≤ e then (m * 2 ^ e.toNat, 1) else (m, 2 ^ (-e).toNat)
      let (x, ds) := sixDigits num den
      if x < -4 ∨ 6 ≤ x then
        let esign := if x < 0 then "e-".toList else "e+".toList
        sign ++ pointAfter 1 (showNat ds) ++ esign ++ showPadded 2 x.natAbs
      else if x < 0 then
        sign ++ pointAfter 1 (List.replicate (-x).toNat '0' ++ showNat ds)
      else sign ++ pointAfter (x.toNat + 1) (showNat ds)

end SimpleTSDB
