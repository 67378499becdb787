import SimpleTSDB.Http.Query

/-!
# Splitting and joining

`SplitString` with the vector that it appends to, the calls of `substr` that could throw and the
size that it returns: it appends the pieces of `splitString` (`splitLoop_eq`). Joined with the
delimiter they are the input without one final delimiter, and the loop of the query handler cuts the
query string into the same pieces (`split_join`).
-/

namespace SimpleTSDB

open Delimited

/-- The loop of `SplitString` from `start` on; `none` if a `substr` throws. -/
def splitLoop (input : Str) (delim : Char) (start : ℕ) (output : List Str) :
    Option (List Str × ℕ) :=
  match _h : find input delim start with
  | some pos =>
    match substr input start (pos - start) with
    | none => none
    | some piece => splitLoop input delim (pos + 1) (output ++ [piece])
  | none =>
    if start < input.length then
      match substrFrom input start with
      | none => none
      | some piece => some (output ++ [piece], (output ++ [piece]).length)
    else some (output, output.length)
termination_by input.length - start
decreasing_by
  have := find_lt ‹_›
  omega

/-- `SplitString(input, delim, output)`: the output and its size. -/
def splitInto (input : Str) (delim : Char) (output : List Str) : Option (List Str × ℕ) :=
  splitLoop input delim 0 output

/-- **The loop throws nowhere** and appends the pieces from `start` on. -/
theorem splitLoop_eq (input : Str) (delim : Char) (start : ℕ) (output : List Str) :
    splitLoop input delim start output = some (output ++ splitFrom input delim start,
      (output ++ splitFrom input delim start).length) := by
  induction start using splitFrom.induct input delim generalizing output with
  | case1 start pos h ih =>
    have hle : start ≤ input.length := by
      have := find_lt h
      omega
    rw [splitFrom_of_some h, splitLoop]
    split
    next hpos =>
      obtain rfl := Option.some.inj (h.symm.trans hpos)
      rw [substr, if_pos hle]
      dsimp only
      rw [ih, List.append_assoc, List.singleton_append]
    next hnone => exact absurd (h.symm.trans hnone) (Option.some_ne_none pos)
  | case2 start h hlt =>
    rw [splitFrom_of_none h, if_pos hlt, splitLoop]
    split
    next hpos => exact absurd (hpos.symm.trans h) (Option.some_ne_none _)
    next =>
      rw [if_pos hlt, substrFrom, if_pos hlt.le]
  | case3 start h hlt =>
    rw [splitFrom_of_none h, if_neg hlt, splitLoop, List.append_nil]
    split
    next hpos => exact absurd (hpos.symm.trans h) (Option.some_ne_none _)
    next => rw [if_neg hlt]

/-- **Splitting is the inverse of joining**: the pieces that are appended do not contain the
delimiter, joined with it they are the input without one final delimiter, the empty input has none,
and the query handler cuts at ampersands into the same pieces. -/
theorem split_join (input : Str) (delim : Char) (output : List Str) :
    ∃ pieces, splitInto input delim output =
        some (output ++ pieces, (output ++ pieces).length) ∧
      (∀ piece ∈ pieces, delim ∉ piece) ∧
      [delim].intercalate pieces =
        (if input.getLast? = some delim then input.dropLast else input) ∧
      (input = [] → pieces = []) ∧
      (delim = '&' → Http.partsFrom input 0 = pieces) := by
  have hpieces : splitFrom input delim 0 = fields delim input := splitString_eq_fields input delim
  refine ⟨fields delim input, ?_, fun piece h => not_mem_of_mem_fields h,
    intercalate_fields_eq delim input, ?_, ?_⟩
  · rw [splitInto, splitLoop_eq, hpieces]
  · rintro rfl
    exact fields_nil
  · rintro rfl
    rw [Http.partsFrom_eq, hpieces]

end SimpleTSDB
