import Mathlib.Data.List.Basic
import Mathlib.Data.List.Infix
import Mathlib.Data.List.TakeWhile

/-!
# The string library

The part of `std::string` and of `<cctype>` (in the C locale) that the program uses. A character
is the `Char` with its code, so that a byte above 127 is a `Char` that no class below contains.
A position is the result of a search, `none` being `npos`, and the increment `pos + 1` wraps to 0
at `npos` (`next`). `substr` throws `std::out_of_range` when its start lies behind the end of the
string; the exception is `none`.
-/

namespace SimpleTSDB

/-- A `std::string`. -/
abbrev Str := List Char

/-- A property of the characters of a string is decided along the string. -/
instance (s : Str) (p : Char → Prop) [DecidablePred p] : Decidable (∀ c ∈ s, p c) :=
  List.decidableBAll p s

/-! ## Character classes -/

def isdigit (c : Char) : Bool := '0' ≤ c && c ≤ '9'

def isalpha (c : Char) : Bool := ('a' ≤ c && c ≤ 'z') || ('A' ≤ c && c ≤ 'Z')

def isalnum (c : Char) : Bool := isalpha c || isdigit c

/-- The graphic characters of ASCII that are not alphanumeric. -/
def ispunct (c : Char) : Bool := '!' ≤ c && c ≤ '~' && !isalnum c

def isspace (c : Char) : Bool := c = ' ' || ('\t' ≤ c && c ≤ '\r')

/-- `tolower` on ASCII letters. -/
def tolower (c : Char) : Char := if 'A' ≤ c && c ≤ 'Z' then Char.ofNat (c.toNat + 32) else c

theorem char_le_iff {a b : Char} : a ≤ b ↔ a.toNat ≤ b.toNat := Iff.rfl

theorem isdigit_iff {c : Char} : isdigit c = true ↔ 48 ≤ c.toNat ∧ c.toNat ≤ 57 := by
  simp [isdigit, char_le_iff]

theorem isspace_iff {c : Char} :
    isspace c = true ↔ c.toNat = 32 ∨ (9 ≤ c.toNat ∧ c.toNat ≤ 13) := by
  simp [isspace, char_le_iff, ← Char.toNat_inj]

/-- Only a letter is the small letter of another character. -/
theorem tolower_eq_iff {c d : Char} (hd : isalpha d = false) : tolower c = d ↔ c = d := by
  rw [tolower]
  split
  next hc =>
    have hletter : ∀ n < 91, 65 ≤ n → isalpha (Char.ofNat (n + 32)) = true := by decide
    have hcapital : isalpha c = true := by rw [isalpha, hc, Bool.or_true]
    simp only [Bool.and_eq_true, decide_eq_true_eq, char_le_iff] at hc
    refine iff_of_false ?_ ?_
    · rintro rfl
      exact absurd (hletter c.toNat (Nat.lt_succ_of_le hc.2) hc.1) (ne_true_of_eq_false hd)
    · rintro rfl
      exact absurd hcapital (ne_true_of_eq_false hd)
  · rfl

/-! ## Searching -/

/-- `s.find(c, start)`. -/
def find (s : Str) (c : Char) (start : ℕ) : Option ℕ :=
  ((s.drop start).findIdx? (· == c)).map (start + ·)

/-- `s.find(pat)`. -/
def findStr (s pat : Str) : Option ℕ := s.tails.findIdx? (pat.isPrefixOf ·)

/-- `pos + 1` for a search result; `npos + 1` is 0. -/
def next : Option ℕ → ℕ
  | none => 0
  | some p => p + 1

@[simp] theorem next_none : next none = 0 := rfl

@[simp] theorem next_some (p : ℕ) : next (some p) = p + 1 := rfl

theorem findIdx?_eq_none {s : Str} {c : Char} (h : c ∉ s) : s.findIdx? (· == c) = none := by
  rw [List.findIdx?_eq_none_iff]
  intro x hx
  rw [beq_eq_false_iff_ne]
  rintro rfl
  exact h hx

theorem find_of_not_mem {s : Str} {c : Char} {start : ℕ} (h : c ∉ s.drop start) :
    find s c start = none := by
  rw [find, findIdx?_eq_none h, Option.map_none]

/-- The first occurrence behind `p` is found behind the stretch without it. -/
theorem find_append {p m : Str} {c : Char} (hm : c ∉ m) (post : Str) {i : ℕ}
    (hi : i = p.length) : find (p ++ (m ++ c :: post)) c i = some (i + m.length) := by
  have : (m ++ c :: post).findIdx? (· == c) = some m.length := by
    simp [List.findIdx?_append, findIdx?_eq_none hm, List.findIdx?_cons]
  rw [find, hi, List.drop_left, this, Option.map_some]

theorem find_of_not_mem_append {p m : Str} {c : Char} (hm : c ∉ m) {i : ℕ} (hi : i = p.length) :
    find (p ++ m) c i = none :=
  find_of_not_mem (by rwa [hi, List.drop_left])

theorem find_lt {s : Str} {c : Char} {start p : ℕ} (h : find s c start = some p) :
    start ≤ p ∧ p < s.length := by
  obtain ⟨i, hi, rfl⟩ := Option.map_eq_some_iff.mp h
  have hlt := (List.findIdx?_eq_some_iff_findIdx_eq.mp hi).1
  rw [List.length_drop] at hlt
  omega

/-- A text is found at position 0 exactly when the string begins with it. -/
theorem findStr_eq_zero_iff {s pat : Str} : findStr s pat = some 0 ↔ pat <+: s := by
  rw [findStr, ← List.isPrefixOf_iff_prefix]
  cases s <;> simp [List.findIdx?_cons]

/-! ## Substrings -/

/-- `s.substr(pos, n)`; `none` is the thrown `std::out_of_range`. -/
def substr (s : Str) (pos n : ℕ) : Option Str :=
  if pos ≤ s.length then some ((s.drop pos).take n) else none

/-- `s.substr(pos)`. -/
def substrFrom (s : Str) (pos : ℕ) : Option Str :=
  if pos ≤ s.length then some (s.drop pos) else none

theorem substr_append {p m : Str} (post : Str) {i n : ℕ} (hi : i = p.length)
    (hn : n = m.length) : substr (p ++ (m ++ post)) i n = some m := by
  rw [substr, if_pos (by simp [hi]), hi, List.drop_left, hn, List.take_left]

theorem substrFrom_append {p : Str} (post : Str) {i : ℕ} (hi : i = p.length) :
    substrFrom (p ++ post) i = some post := by
  rw [substrFrom, if_pos (by simp [hi]), hi, List.drop_left]

@[simp] theorem substrFrom_zero (s : Str) : substrFrom s 0 = some s := by simp [substrFrom]

theorem substrFrom_suffix {s t : Str} {pos : ℕ} (h : substrFrom s pos = some t) : t <:+ s := by
  rw [substrFrom, Option.ite_none_right_eq_some] at h
  obtain rfl := Option.some.inj h.2
  exact List.drop_suffix pos s

/-- `c_str()`: the characters up to the first NUL. -/
def cstr (s : Str) : Str := s.takeWhile (· ≠ '\x00')

theorem nul_not_mem_cstr (s : Str) : '\x00' ∉ cstr s := fun h =>
  absurd (List.mem_takeWhile_imp h) (by decide)

theorem cstr_eq_self {s : Str} (h : '\x00' ∉ s) : cstr s = s := by
  refine List.takeWhile_eq_self_iff.mpr fun c hc => ?_
  rw [decide_eq_true_iff]
  rintro rfl
  exact h hc

/-- A C string ends at its first NUL. -/
theorem cstr_append_nul (s t : Str) : cstr (s ++ '\x00' :: t) = cstr s := by
  induction s with
  | nil => rfl
  | cons c s ih =>
    unfold cstr at ih ⊢
    rw [List.cons_append, List.takeWhile_cons, List.takeWhile_cons, ih]

end SimpleTSDB
