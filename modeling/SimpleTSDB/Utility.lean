import SimpleTSDB.Foundations.Delimited
import SimpleTSDB.Numeric

/-!
# Utility routines

`splitString` cuts a text at a delimiter by searching from the end of the last piece; it computes
the fields of the text (`splitString_eq_fields`). `parseTime` reads a time, absolute or relative
to now; an absolute one is the number itself (`parseTime_digits`).
-/

namespace SimpleTSDB

open Delimited

/-- The loop of `splitString`: the pieces from `start` on. Every `substr` of the loop starts at 0
or behind a found delimiter, so that none of them throws. -/
def splitFrom (input : Str) (delim : Char) (start : ℕ) : List Str :=
  match h : find input delim start with
  | some pos => (input.drop start).take (pos - start) :: splitFrom input delim (pos + 1)
  | none => if start < input.length then [input.drop start] else []
termination_by input.length - start
decreasing_by
  have := find_lt h
  omega

/-- `SplitString(input, delim, output)` for an empty `output`. -/
def splitString (input : Str) (delim : Char) : List Str := splitFrom input delim 0

theorem splitFrom_of_some {input : Str} {delim : Char} {start pos : ℕ}
    (h : find input delim start = some pos) : splitFrom input delim start =
      (input.drop start).take (pos - start) :: splitFrom input delim (pos + 1) := by
  rw [splitFrom]
  split
  next hpos => rw [Option.some.inj (h.symm.trans hpos)]
  next hnone => exact absurd (h.symm.trans hnone) (Option.some_ne_none pos)

theorem splitFrom_of_none {input : Str} {delim : Char} {start : ℕ}
    (h : find input delim start = none) : splitFrom input delim start =
      if start < input.length then [input.drop start] else [] := by
  rw [splitFrom]
  split
  next hpos => exact absurd (hpos.symm.trans h) (Option.some_ne_none _)
  next => rfl

theorem splitFrom_append (delim : Char) (rest : Str) : ∀ pre : Str,
    splitFrom (pre ++ rest) delim pre.length = fields delim rest := by
  induction rest using fields_induction delim with
  | nil =>
    intro pre
    rw [splitFrom_of_none (find_of_not_mem_append List.not_mem_nil rfl)]
    simp
  | last f hf hne =>
    intro pre
    have hlt : 0 < f.length := List.length_pos_iff.mpr hne
    rw [splitFrom_of_none (find_of_not_mem_append hf rfl), fields_of_not_mem hf hne]
    simp [hlt]
  | delim f rest hf ih =>
    intro pre
    have hnext := ih (pre ++ f ++ [delim])
    simp only [List.append_assoc, List.singleton_append, List.length_append, List.length_singleton,
      ← Nat.add_assoc] at hnext
    rw [splitFrom_of_some (find_append hf rest rfl), fields_append_delim hf]
    simp [hnext]

/-- **Splitting computes the fields**: the pieces between delimiters, an empty last one dropped. -/
theorem splitString_eq_fields (input : Str) (delim : Char) :
    splitString input delim = fields delim input :=
  splitFrom_append delim input []

/-- `ParseTime`. -/
def parseTime (str : Str) : BitVec 64 :=
  let (time, rel) := strtoull (cstr str)
  if rel ≠ [] then
    -- this isn't a full timestamp
    if findStr rel "-ago".toList = none then 0
    else if rel.head? = some 'm' then time * 60
    else if rel.head? = some 'h' then time * (60 * 60)
    else if rel.head? = some 'd' then time * (60 * 60 * 24)
    else time
  else time

/-- An absolute time that fits 64 bits is read as itself. -/
theorem parseTime_digits {ds : Str} (hne : ds ≠ []) (hd : ∀ c ∈ ds, isdigit c = true)
    (hlt : digitsVal 10 ds < 2 ^ 64) : parseTime ds = BitVec.ofNat 64 (digitsVal 10 ds) := by
  have h0 : '\x00' ∉ ds := fun h => absurd (hd _ h) (by decide)
  rw [parseTime, cstr_eq_self h0, strtoull_digits hne hd, if_neg (Nat.not_le.mpr hlt)]
  exact if_neg (not_not_intro rfl)

end SimpleTSDB
