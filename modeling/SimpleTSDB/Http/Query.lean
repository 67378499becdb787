import SimpleTSDB.Query.Selection

/-!
# The HTTP query handler

`ApiQueryHandler` cuts the query string at the ampersands and looks at the parts in order: `start=`
and `end=` set the bounds of the time window, and every `m=` is a query. A time is subtracted from
the current time, also when it is absolute, so that an absolute window is selected only in one case
(`window_absolute_iff`).
-/

namespace SimpleTSDB.Http

open Delimited Sqlite Query

/-- The loop that breaks up the query string: the parts from `start` on. Every `substr` of the loop
starts at 0 or behind a found ampersand, so that none of them throws. -/
def partsFrom (query : Str) (start : ℕ) : List Str :=
  match _h : find query '&' start with
  | some pos => (query.drop start).take (pos - start) :: partsFrom query (pos + 1)
  | none => if start < query.length then [query.drop start] else []
termination_by query.length - start
decreasing_by
  have := find_lt ‹_›
  omega

/-- What the loop over the parts has found: the bounds, and the result sets of the queries. -/
structure Scan (R : Type*) where
  startTime : BitVec 64
  endTime : BitVec 64
  subqueries : List R

variable {R : Type*}

/-- The test `part.find(keyword) == 0`. -/
def isPart (keyword : String) (part : Str) : Bool := findStr part keyword.toList == some 0

/-- One round of the loop over the parts; no `substr` throws, since the keyword was found.
`prepareQuery` is the method of the datastore. -/
def scanPart (curTime : BitVec 64) (prepareQuery : Query → Option R) (s : Scan R) (part : Str) :
    Scan R :=
  if isPart "start=" part then { s with startTime := curTime - parseTime (part.drop 6) }
  else if isPart "end=" part then { s with endTime := curTime - parseTime (part.drop 4) }
  else if isPart "m=" part then
    match prepareQuery (ofText (part.drop 2)) with
    | some rs => { s with subqueries := s.subqueries ++ [rs] }
    | none => s
  else s

/-- Steps 1 and 2 of `ApiQueryHandler`. The bounds are passed to `Execute` for every result set. -/
def scanQuery (curTime : BitVec 64) (prepareQuery : Query → Option R) (query : Str) : Scan R :=
  (partsFrom query 0).foldl (scanPart curTime prepareQuery) ⟨0, curTime, []⟩

/-- **The handler cuts at ampersands like `SplitString`.** -/
theorem partsFrom_eq (query : Str) (start : ℕ) :
    partsFrom query start = splitFrom query '&' start := by
  induction start using partsFrom.induct query with
  | case1 start pos h ih =>
    rw [partsFrom, splitFrom_of_some h]
    grind
  | case2 start h hlt =>
    rw [partsFrom, splitFrom_of_none h]
    grind
  | case3 start h hlt =>
    rw [partsFrom, splitFrom_of_none h]
    grind

/-! ## Absolute times -/

/-- Is the text an absolute time that fits a signed integer? -/
def IsTime (d : Str) : Prop := d ≠ [] ∧ (∀ c ∈ d, isdigit c = true) ∧ digitsVal 10 d < 2 ^ 63

/-- A query string with an absolute start and at most one end, absolute too, among its parts. -/
structure AbsoluteQuery where
  parts : List Str
  start : Str
  stop : Option Str
  amp_not_mem : ∀ p ∈ parts, '&' ∉ p
  starts : parts.filter (isPart "start=") = ["start=".toList ++ start]
  stops : parts.filter (isPart "end=") = (stop.map ("end=".toList ++ ·)).toList
  start_time : IsTime start
  start_pos : 0 < digitsVal 10 start
  stop_time : ∀ d ∈ stop, IsTime d

namespace AbsoluteQuery

/-- The query string. -/
def text (q : AbsoluteQuery) : Str := ['&'].intercalate q.parts

/-- The start of the window. -/
def startVal (q : AbsoluteQuery) : ℕ := digitsVal 10 q.start

/-- The number given as the end, 0 if there is none. -/
def stopVal (q : AbsoluteQuery) : ℕ := q.stop.elim 0 (digitsVal 10)

/-- The documented end of the window. -/
def endVal (q : AbsoluteQuery) (now : ℕ) : ℕ := if q.stopVal = 0 then now else q.stopVal

end AbsoluteQuery

theorem isPart_iff {keyword : String} {part : Str} :
    isPart keyword part = true ↔ keyword.toList <+: part := by
  rw [isPart, beq_iff_eq, findStr_eq_zero_iff]

/-- A part begins with one keyword only. -/
theorem not_isPart {keyword : String} (keyword' : String) {part : Str}
    (h : isPart keyword part = true)
    (hne : ¬ keyword.toList <+: keyword'.toList ∧ ¬ keyword'.toList <+: keyword.toList) :
    isPart keyword' part = false := by
  rw [Bool.eq_false_iff, ne_eq, isPart_iff]
  intro h'
  rcases List.prefix_or_prefix_of_prefix (isPart_iff.mp h) h' with hpre | hpre
  · exact hne.1 hpre
  · exact hne.2 hpre

/-- The bounds are set by the parts that begin with their keywords, the last one of each. -/
theorem foldl_scanPart (curTime : BitVec 64) (prepareQuery : Query → Option R) (parts : List Str)
    (s : Scan R) :
    (parts.foldl (scanPart curTime prepareQuery) s).startTime =
        (parts.filter (isPart "start=")).foldl (fun _ p => curTime - parseTime (p.drop 6))
          s.startTime ∧
      (parts.foldl (scanPart curTime prepareQuery) s).endTime =
        (parts.filter (isPart "end=")).foldl (fun _ p => curTime - parseTime (p.drop 4))
          s.endTime := by
  induction parts generalizing s with
  | nil => exact ⟨rfl, rfl⟩
  | cons p parts ih =>
    obtain ⟨ih₁, ih₂⟩ := ih (scanPart curTime prepareQuery s p)
    rw [List.foldl_cons, ih₁, ih₂]
    by_cases hs : isPart "start=" p = true
    · have he := not_isPart "end=" hs (by decide)
      constructor <;> simp [scanPart, hs, he]
    · by_cases he : isPart "end=" p = true
      · constructor <;> simp [scanPart, hs, he]
      · by_cases hm : isPart "m=" p = true
        · cases hq : prepareQuery (ofText (p.drop 2)) <;> constructor <;>
            simp [scanPart, hs, he, hm, hq]
        · constructor <;> simp [scanPart, hs, he, hm]

/-- The result set of a part. -/
def partResultSet (prepareQuery : Query → Option R) (part : Str) : Option R :=
  if isPart "m=" part then prepareQuery (ofText (part.drop 2)) else none

/-- The result sets are those of the parts, in their order. -/
theorem scanQuery_subqueries (curTime : BitVec 64) (prepareQuery : Query → Option R)
    (query : Str) : (scanQuery curTime prepareQuery query).subqueries =
      (partsFrom query 0).filterMap (partResultSet prepareQuery) := by
  have hloop (parts : List Str) (s : Scan R) :
      (parts.foldl (scanPart curTime prepareQuery) s).subqueries =
        s.subqueries ++ parts.filterMap (partResultSet prepareQuery) := by
    induction parts generalizing s with
    | nil => exact (List.append_nil _).symm
    | cons p parts ih =>
      rw [List.foldl_cons, ih]
      by_cases hm : isPart "m=" p = true
      · have hs := not_isPart "start=" hm (by decide)
        have he := not_isPart "end=" hm (by decide)
        cases hq : prepareQuery (ofText (p.drop 2)) <;>
          simp [scanPart, partResultSet, hs, he, hm, hq]
      · by_cases hs : isPart "start=" p = true
        · simp [scanPart, partResultSet, hs, hm]
        · by_cases he : isPart "end=" p = true <;> simp [scanPart, partResultSet, hs, he, hm]
  exact hloop _ _

theorem filter_parts (q : AbsoluteQuery) {keyword : String} (hk : isPart keyword [] = false) :
    (partsFrom q.text 0).filter (isPart keyword) = q.parts.filter (isPart keyword) := by
  rw [partsFrom_eq, ← splitString, splitString_eq_fields]
  exact filter_fields_intercalate hk q.amp_not_mem

/-- An absolute time is read as itself. -/
theorem parseTime_time {d : Str} (h : IsTime d) :
    parseTime d = BitVec.ofNat 64 (digitsVal 10 d) := by
  obtain ⟨hne, hd, hlt⟩ := h
  exact parseTime_digits hne hd (by omega)

/-- The bounds of a query with absolute times: both are subtracted from the current time. -/
theorem scanQuery_bounds (q : AbsoluteQuery) (curTime : BitVec 64)
    (prepareQuery : Query → Option R) :
    (scanQuery curTime prepareQuery q.text).startTime = curTime - BitVec.ofNat 64 q.startVal ∧
      (scanQuery curTime prepareQuery q.text).endTime = curTime - BitVec.ofNat 64 q.stopVal := by
  obtain ⟨hstart, hend⟩ := foldl_scanPart curTime prepareQuery (partsFrom q.text 0) ⟨0, curTime, []⟩
  rw [filter_parts q (by decide), q.starts] at hstart
  rw [filter_parts q (by decide), q.stops] at hend
  refine ⟨hstart.trans ?_, hend.trans ?_⟩
  · exact congrArg (curTime - ·) (parseTime_time q.start_time)
  · rw [AbsoluteQuery.stopVal]
    cases h : q.stop with
    | none => simp
    | some d => exact congrArg (curTime - ·) (parseTime_time (q.stop_time d h))

theorem toInt_ofNat {n : ℕ} (hn : n < 2 ^ 63) : (BitVec.ofNat 64 n).toInt = n := by
  have htoNat : (BitVec.ofNat 64 n).toNat = n := by
    rw [BitVec.toNat_ofNat, Nat.mod_eq_of_lt (by omega)]
  rw [BitVec.toInt_eq_toNat_of_lt (by omega), htoNat]

/-- The difference of two small numbers, as a signed integer. -/
theorem toInt_sub_ofNat {x : BitVec 64} {n : ℕ} (hx : x.toNat < 2 ^ 63) (hn : n < 2 ^ 63) :
    (x - BitVec.ofNat 64 n).toInt = x.toNat - n := by
  have hx' : x.toInt = x.toNat := BitVec.toInt_eq_toNat_of_lt (by omega)
  rw [BitVec.toInt_sub, hx', toInt_ofNat hn, Int.bmod_eq_of_le (by omega) (by omega)]

/-- **An absolute window is selected exactly when** the current time is twice its start and its end
is absent, 0 or equal to the start. -/
theorem window_absolute_iff (q : AbsoluteQuery) (curTime : BitVec 64)
    (hnow : curTime.toNat < 2 ^ 63) (prepareQuery : Query → Option R) :
    (∀ row : Row, InWindow (scanQuery curTime prepareQuery q.text).startTime
        (scanQuery curTime prepareQuery q.text).endTime row ↔
          (q.startVal : ℤ) ≤ row.timestamp.toInt ∧
            row.timestamp.toInt ≤ q.endVal curTime.toNat) ↔
      2 * q.startVal = curTime.toNat ∧ (q.stopVal = 0 ∨ q.stopVal = q.startVal) := by
  have hstart : q.startVal < 2 ^ 63 := q.start_time.2.2
  have hpos : 0 < q.startVal := q.start_pos
  have hstop : q.stopVal < 2 ^ 63 := by
    rw [AbsoluteQuery.stopVal]
    cases h : q.stop with
    | none => simp
    | some d => exact (q.stop_time d h).2.2
  obtain ⟨hs, he⟩ := scanQuery_bounds q curTime prepareQuery
  simp only [InWindow, hs, he, toInt_sub_ofNat hnow hstart, toInt_sub_ofNat hnow hstop]
  have hend : q.endVal curTime.toNat < 2 ^ 63 := by
    rw [AbsoluteQuery.endVal]
    split <;> assumption
  constructor
  · intro h
    -- the window and the documented one agree at each of the four bounds
    have hrow (b : BitVec 64) := h ⟨b, .nan, []⟩
    have h₁ := hrow (BitVec.ofNat 64 q.startVal)
    have h₂ := hrow (BitVec.ofNat 64 (q.endVal curTime.toNat))
    have h₃ := hrow (curTime - BitVec.ofNat 64 q.startVal)
    have h₄ := hrow (curTime - BitVec.ofNat 64 q.stopVal)
    simp only [toInt_ofNat hstart, toInt_ofNat hend, toInt_sub_ofNat hnow hstart,
      toInt_sub_ofNat hnow hstop] at h₁ h₂ h₃ h₄
    by_cases h0 : q.stopVal = 0
    · have hval : q.endVal curTime.toNat = curTime.toNat := if_pos h0
      omega
    · have hval : q.endVal curTime.toNat = q.stopVal := if_neg h0
      omega
  · rintro ⟨h2, hor⟩ row
    rw [AbsoluteQuery.endVal]
    split <;> omega

/-- A query for the window from 500 on. -/
def halfQuery : AbsoluteQuery where
  parts := ["m=sum:a\x7bb=c\x7d".toList, "start=500".toList]
  start := "500".toList
  stop := none
  amp_not_mem := by decide
  starts := by decide
  stops := by decide
  start_time := by unfold IsTime; decide
  start_pos := by decide
  stop_time := by simp

/-- As of the time 1000 the window from 500 on is selected. -/
theorem window_absolute_example : halfQuery.startVal = 500 ∧ ∀ row : Row,
    InWindow (scanQuery 1000 (fun _ => (none : Option Unit)) halfQuery.text).startTime
        (scanQuery 1000 (fun _ => (none : Option Unit)) halfQuery.text).endTime row ↔
      (500 : ℤ) ≤ row.timestamp.toInt ∧ row.timestamp.toInt ≤ 1000 :=
  ⟨rfl, (window_absolute_iff halfQuery 1000 (by decide) fun _ => (none : Option Unit)).mpr
    ⟨by decide, .inl rfl⟩⟩

/-- A query for the window from 900 on, as of the time 1000. -/
def lateQuery : AbsoluteQuery where
  parts := ["start=900".toList]
  start := "900".toList
  stop := none
  amp_not_mem := by decide
  starts := by decide
  stops := by decide
  start_time := by unfold IsTime; decide
  start_pos := by decide
  stop_time := by simp

/-- An absolute window is not selected: the window of `start=900` at the time 1000 begins at 100, so
that a row of the time 500 is in it. -/
theorem window_not_absolute :
    ¬ ∀ (q : AbsoluteQuery) (curTime : BitVec 64), curTime.toNat < 2 ^ 63 →
      ∀ (prepareQuery : Query → Option Unit) (row : Row),
        InWindow (scanQuery curTime prepareQuery q.text).startTime
          (scanQuery curTime prepareQuery q.text).endTime row ↔
            (q.startVal : ℤ) ≤ row.timestamp.toInt ∧
              row.timestamp.toInt ≤ q.endVal curTime.toNat := by
  intro h
  have hrow := h lateQuery 1000 (by decide) (fun _ => none) ⟨500, .nan, []⟩
  rw [(scanQuery_bounds lateQuery 1000 _).1, (scanQuery_bounds lateQuery 1000 _).2] at hrow
  exact absurd (hrow.mp (by decide)).1 (by decide)

end SimpleTSDB.Http
