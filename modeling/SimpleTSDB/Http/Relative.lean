import SimpleTSDB.Http.Query
import SimpleTSDB.TimeUnit

/-!
# Relative times

The part `start=<n><unit>-ago` of a query string bounds the timestamps from below by the current
time less `n` units. The seconds of the units and the difference wrap, and the bound is compared as
a signed integer: where it is not what was asked for, rows are left out (`relative_iff`).
-/

namespace SimpleTSDB.Http

open Sqlite Query

/-- A query string whose last start is relative: digits, a unit and `-ago`. -/
structure RelativeQuery where
  parts : List Str
  size : Str
  unit : TimeUnit
  amp_not_mem : ∀ p ∈ parts, '&' ∉ p
  size_ne : size ≠ []
  digits : ∀ c ∈ size, isdigit c = true
  starts : (parts.filter (isPart "start=")).getLast? =
    some ("start=".toList ++ (size ++ unit.letter :: "-ago".toList))

namespace RelativeQuery

variable {R : Type*} (q : RelativeQuery) (now : BitVec 64) (prepareQuery : Query → Option R)

/-- The query string. -/
def text : Str := ['&'].intercalate q.parts

/-- The number of seconds that was asked for. -/
def ago : ℕ := digitsVal 10 q.size * q.unit.seconds

/-- The number of seconds in 64 bits. -/
def offset : ℕ := q.unit.wrapped (digitsVal 10 q.size)

/-- Does the row satisfy the lower bound of the time window? -/
def Selected (row : Row) : Prop :=
  (Cond.atLeast 1).Holds (bound (scanQuery now prepareQuery q.text).startTime
    (scanQuery now prepareQuery q.text).endTime) row

/-- The lower bound is the one that was asked for, and is not above that of a smaller number of the
unit. -/
structure Right : Prop where
  selected_iff : ∀ row : Row, 0 ≤ row.timestamp.toInt →
    (q.Selected now prepareQuery row ↔ (now.toNat : ℤ) - q.ago ≤ row.timestamp.toInt)
  mono : ∀ q' : RelativeQuery, q'.unit = q.unit → digitsVal 10 q'.size ≤ digitsVal 10 q.size →
    ∀ row : Row, 0 ≤ row.timestamp.toInt →
      q'.Selected now prepareQuery row → q.Selected now prepareQuery row

/-- **A relative time is read as the wrapped seconds.** -/
theorem toNat_parseTime : (parseTime (q.size ++ q.unit.letter :: "-ago".toList)).toNat =
    q.offset := by
  have hrest : ∀ c ∈ (q.unit.letter :: "-ago".toList).head?, isdigit c = false := by
    rintro c ⟨⟩
    exact q.unit.letter_not_digit
  have h0 : '\x00' ∉ q.size ++ q.unit.letter :: "-ago".toList := by
    have hsize : '\x00' ∉ q.size := fun h => absurd (q.digits _ h) (by decide)
    have hunit : '\x00' ∉ q.unit.letter :: "-ago".toList := by cases q.unit <;> decide
    exact fun h => (List.mem_append.mp h).elim hsize hunit
  have hago : findStr (q.unit.letter :: "-ago".toList) "-ago".toList ≠ none := by
    cases q.unit <;> decide
  have hread := strtoull_digits_append q.size_ne q.digits hrest
  have hmul := TimeUnit.toNat_strtoull_mul q.size_ne q.digits hrest q.unit.seconds
  rw [parseTime, cstr_eq_self h0]
  generalize strtoull (q.size ++ q.unit.letter :: "-ago".toList) = p at hread hmul
  obtain ⟨v, rel⟩ := p
  obtain ⟨-, rfl⟩ := Prod.mk.inj hread
  dsimp only at hmul ⊢
  rw [if_pos (List.cons_ne_nil _ _), if_neg hago, List.head?_cons, q.unit.letter_factor]
  exact hmul

/-- The start is the current time less the last start of the query string. -/
theorem startTime_eq : (scanQuery now prepareQuery q.text).startTime =
    now - parseTime (q.size ++ q.unit.letter :: "-ago".toList) := by
  have hparts : (partsFrom q.text 0).filter (isPart "start=") =
      q.parts.filter (isPart "start=") := by
    rw [partsFrom_eq, ← splitString, splitString_eq_fields]
    exact Delimited.filter_fields_intercalate (by decide) q.amp_not_mem
  have hstart := (foldl_scanPart now prepareQuery (partsFrom q.text 0) ⟨0, now, []⟩).1
  obtain ⟨before, hlast⟩ := List.getLast?_eq_some_iff.mp q.starts
  rw [hparts, hlast, List.foldl_append] at hstart
  exact hstart

theorem selected_iff_toInt (row : Row) : q.Selected now prepareQuery row ↔
    (now - parseTime (q.size ++ q.unit.letter :: "-ago".toList)).toInt ≤ row.timestamp.toInt := by
  rw [Selected, startTime_eq]
  exact Iff.rfl

variable {now}

/-- The start is not positive exactly if the offset reaches the current time, but not 2^63 seconds
behind it. -/
theorem toInt_sub_nonpos_iff (hnow : now.toNat < 2 ^ 63) (offset : BitVec 64) :
    (now - offset).toInt ≤ 0 ↔
      now.toNat ≤ offset.toNat ∧ offset.toNat ≤ now.toNat + 2 ^ 63 := by
  rw [BitVec.toInt_eq_toNat_cond, BitVec.toNat_sub]
  have := offset.isLt
  split <;> omega

/-- The start of a window that begins after time 0. -/
theorem toInt_sub_of_le (hnow : now.toNat < 2 ^ 63) {offset : BitVec 64}
    (h : offset.toNat ≤ now.toNat) : (now - offset).toInt = now.toNat - offset.toNat := by
  rw [BitVec.toInt_eq_toNat_cond, BitVec.toNat_sub]
  split <;> omega

/-- A window that begins after time 0 is the one that was asked for. -/
theorem selected_iff_of_le (hnow : now.toNat < 2 ^ 63) (hle : q.ago ≤ now.toNat) (row : Row) :
    q.Selected now prepareQuery row ↔ (now.toNat : ℤ) - q.ago ≤ row.timestamp.toInt := by
  have hoffset : (parseTime (q.size ++ q.unit.letter :: "-ago".toList)).toNat = q.ago := by
    rw [toNat_parseTime]
    exact (q.unit.wrapped_eq_iff _).mpr (lt_of_le_of_lt hle now.isLt)
  rw [selected_iff_toInt, toInt_sub_of_le hnow (hoffset ▸ hle), hoffset]

/-- **The rows of a relative window are those that were asked for, if and only if** it begins after
time 0, or its bound is a signed integer that is not positive. -/
theorem relative_iff (hnow : now.toNat < 2 ^ 63) : q.Right now prepareQuery ↔
    q.ago ≤ now.toNat ∨ now.toNat ≤ q.offset ∧ q.offset ≤ now.toNat + 2 ^ 63 := by
  constructor
  · intro h
    by_cases hle : q.ago ≤ now.toNat
    · exact .inl hle
    · -- the row of time 0 was asked for
      have hrow := (h.selected_iff ⟨0, .nan, []⟩ (by decide)).mpr (by simp; omega)
      rw [selected_iff_toInt] at hrow
      rw [← toNat_parseTime]
      exact .inr ((toInt_sub_nonpos_iff hnow _).mp hrow)
  · intro h
    have hiff (row : Row) (hrow : 0 ≤ row.timestamp.toInt) : q.Selected now prepareQuery row ↔
        (now.toNat : ℤ) - q.ago ≤ row.timestamp.toInt := by
      by_cases hle : q.ago ≤ now.toNat
      · exact q.selected_iff_of_le prepareQuery hnow hle row
      · have hwrap := h.resolve_left hle
        rw [← toNat_parseTime] at hwrap
        have hstart := (toInt_sub_nonpos_iff hnow _).mpr hwrap
        rw [selected_iff_toInt]
        omega
    refine ⟨hiff, fun q' hunit hsize row hrow hsel => (hiff row hrow).mpr ?_⟩
    have hago : q'.ago ≤ q.ago := by
      rw [ago, ago, hunit]
      exact Nat.mul_le_mul_right _ hsize
    -- a window never has rows that were not asked for
    by_cases hle : q'.ago ≤ now.toNat
    · have := (q'.selected_iff_of_le prepareQuery hnow hle row).mp hsel
      omega
    · omega

end RelativeQuery

/-- A query for the last hour. -/
def hourQuery : RelativeQuery where
  parts := ["start=1h-ago".toList, "m=sum:a\x7bb=c\x7d".toList]
  size := "1".toList
  unit := .h
  amp_not_mem := by decide
  size_ne := by decide
  digits := by decide
  starts := by decide

/-- As of the time 10000 the last hour is selected. -/
theorem relative_example : hourQuery.Right 10000 fun _ => (none : Option Unit) :=
  (hourQuery.relative_iff (fun _ => (none : Option Unit)) (by decide)).mpr (.inl (by decide))

/-- A query for the greatest number of seconds that is read. -/
def endlessQuery : RelativeQuery where
  parts := ["start=18446744073709551615s-ago".toList]
  size := "18446744073709551615".toList
  unit := .s
  amp_not_mem := by decide
  size_ne := by decide
  digits := by decide
  starts := by decide

/-- The window of all rows is empty: the start of 2^64 - 1 seconds ago is the next second. -/
theorem not_relative : ¬ ∀ (q : RelativeQuery) (now : BitVec 64), now.toNat < 2 ^ 63 →
    q.Right now fun _ => (none : Option Unit) := by
  intro h
  have hrow := (h endlessQuery 1000 (by decide)).selected_iff ⟨0, .nan, []⟩ (by decide)
  rw [RelativeQuery.selected_iff_toInt] at hrow
  have hstart := (RelativeQuery.toInt_sub_nonpos_iff (by decide) _).mp (hrow.mpr (by decide))
  rw [RelativeQuery.toNat_parseTime] at hstart
  exact absurd hstart (by decide)

end SimpleTSDB.Http
