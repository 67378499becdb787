import SimpleTSDB.Arithmetic
import SimpleTSDB.Datastore.ResultSet

/-!
# Downsampling

`Downsampler` reads the type `<size><unit>-<aggregator>` of a query, and `Decimate` replaces the
results of each interval by one datapoint with the timestamp of the first of them. For the interval
`all` it reads the timestamp of the first result before it has looked whether there is one.
-/

namespace SimpleTSDB

open Datastore

/-- `Downsampler::Method`. -/
inductive Method where
  | none
  | avg
  | sum
  | min
  | max
deriving DecidableEq

/-- `class Downsampler`. -/
structure Downsampler where
  method : Method := .none
  interval : BitVec 64 := 0

namespace Downsampler

/-- `Downsampler(type)`. -/
def ofType (type : Str) : Downsampler :=
  if 0 < type.length then
    match splitString type '-' with
    | [size, aggregator] =>
      -- convert the interval
      let (interval, rel) := strtoull (cstr size)
      let interval :=
        if rel = [] then interval
        else if rel = "all".toList then 0
        else if rel.head? = some 'm' then interval * 60
        else if rel.head? = some 'h' then interval * (60 * 60)
        else if rel.head? = some 'd' then interval * (60 * 60 * 24)
        else interval
      -- convert the aggregator
      let method :=
        if aggregator = "avg".toList then .avg
        else if aggregator = "sum".toList then .sum
        else if aggregator = "min".toList then .min
        else if aggregator = "max".toList then .max
        else .none
      { method, interval }
    | _ => {}
  else {}

/-! ## Aggregation -/

/-- `Sum`. -/
def sum (dps : List Dps) : Double := dps.foldl (fun value dp => value.add dp.value) (.fin false 0 0)

/-- `Avg`. -/
def avg (dps : List Dps) : Double :=
  if 0 < dps.length then (sum dps).div (.ofNat dps.length) else .fin false 0 0

/-- `Min`, with `std::min`. -/
def min : List Dps → Double
  | [] => .fin false 0 0
  | dp :: dps =>
    dps.foldl (fun value dp => if dp.value.lt value then dp.value else value) dp.value

/-- `Max`, with `std::max`. -/
def max : List Dps → Double
  | [] => .fin false 0 0
  | dp :: dps =>
    dps.foldl (fun value dp => if value.lt dp.value then dp.value else value) dp.value

/-- The value of the datapoints between two iterators. -/
def aggregate (ds : Downsampler) (dps : List Dps) : Double :=
  match ds.method with
  | .none => .fin false 0 0
  | .avg => avg dps
  | .sum => sum dps
  | .min => min dps
  | .max => max dps

/-! ## Decimation -/

/-- The loop over the intervals, for an interval that is not 0: each starts at the first result
behind the one before, which is therefore in it. The differences of timestamps wrap. -/
def intervals (ds : Downsampler) : List Dps → List Dps
  | [] => []
  | start :: results =>
    let inside := results.takeWhile fun next => next.timestamp - start.timestamp < ds.interval
    let next := results.dropWhile fun next => next.timestamp - start.timestamp < ds.interval
    ⟨start.timestamp, ds.aggregate (start :: inside)⟩ :: ds.intervals next
termination_by results => results.length
decreasing_by
  have := (List.dropWhile_suffix (l := results)
    fun next => decide (next.timestamp - start.timestamp < ds.interval)).length_le
  rw [List.length_cons]
  omega

/-- `Decimate`: the output; `none` if `results.begin()` is read when there are no results. -/
def decimate (ds : Downsampler) (results : List Dps) : Option (List Dps) :=
  if ds.method = .none then some results
  else if ds.interval = 0 then
    match results with
    | [] => none
    | start :: _ => some [⟨start.timestamp, ds.aggregate results⟩]
  else some (ds.intervals results)

variable (ds : Downsampler)

/-- Each interval starts at a result. -/
theorem intervals_sublist (results : List Dps) :
    ((ds.intervals results).map Dps.timestamp).Sublist (results.map Dps.timestamp) := by
  induction results using intervals.induct ds with
  | case1 => rw [intervals]
  | case2 start results next ih =>
    rw [intervals]
    exact .cons_cons _ (ih.trans ((List.dropWhile_suffix _).sublist.map _))

/-- The timestamps of the output are those of results, in their order. -/
theorem decimate_sublist {results output : List Dps} (h : ds.decimate results = some output) :
    (output.map Dps.timestamp).Sublist (results.map Dps.timestamp) := by
  unfold decimate at h
  split at h
  · obtain rfl := Option.some.inj h
    exact List.Sublist.refl _
  · split at h
    · cases results with
      | nil => cases h
      | cons start results =>
        obtain rfl := Option.some.inj h
        exact .cons_cons _ (List.nil_sublist _)
    · obtain rfl := Option.some.inj h
      exact ds.intervals_sublist results

/-- Results have an output. -/
theorem exists_decimate {results : List Dps} (h : results ≠ []) :
    ∃ output, ds.decimate results = some output ∧ output ≠ [] := by
  cases results with
  | nil => exact absurd rfl h
  | cons start results =>
    rw [decimate]
    split
    · exact ⟨_, rfl, h⟩
    · split
      · exact ⟨_, rfl, List.cons_ne_nil _ _⟩
      · exact ⟨_, rfl, by rw [intervals]; exact List.cons_ne_nil _ _⟩

/-- No results have no output, and none is computed for the interval `all`. -/
theorem decimate_nil :
    ds.decimate [] = if ds.method ≠ .none ∧ ds.interval = 0 then none else some [] := by
  rw [decimate]
  by_cases hmethod : ds.method = .none
  · simp [hmethod]
  · by_cases hinterval : ds.interval = 0
    · simp [hmethod, hinterval]
    · rw [if_neg hmethod, if_neg hinterval, if_neg fun h => hinterval h.2, intervals]

end Downsampler

end SimpleTSDB
