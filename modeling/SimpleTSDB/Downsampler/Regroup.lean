import SimpleTSDB.Downsampler.Decimate

/-!
# Decimating what has been decimated

`Decimate` over any arithmetic: over doubles it is the code (`decimate_eq_decimateIn`), and in exact
arithmetic the sum, the least and the greatest value of the intervals are those of all results
(`decimateIn_twice`).
-/

namespace SimpleTSDB

open Datastore Blocks

/-- A datapoint with a value of any type of numbers. -/
structure Sample (V : Type*) where
  timestamp : BitVec 64
  value : V

/-- A result as a sample. -/
def sampleOf (dp : Dps) : Sample Double := ⟨dp.timestamp, dp.value⟩

namespace Method

/-- The methods that can be applied to their own results. -/
def Regroups (method : Method) : Prop := method = .sum ∨ method = .min ∨ method = .max

theorem apply_flatten {K : Type*} [Field K] [LinearOrder K] {method : Method}
    (hmethod : method.Regroups) {bs : List (List K)} (h : ∀ b ∈ bs, b ≠ []) :
    method.apply (.exact K) (bs.map (method.apply (.exact K))) =
      method.apply (.exact K) bs.flatten := by
  rcases hmethod with rfl | rfl | rfl
  · exact Arithmetic.sum_flatten bs
  · exact Arithmetic.min_flatten h
  · exact Arithmetic.max_flatten h

end Method

namespace Downsampler

variable {V : Type*} (A : Arithmetic V) (ds : Downsampler)

/-- Is the sample in the interval that starts at `first`? -/
def insideIn (first next : Sample V) : Bool := next.timestamp - first.timestamp < ds.interval

/-- The loop over the intervals. -/
def intervalsIn : List (Sample V) → List (Sample V)
  | [] => []
  | start :: results =>
    let inside := results.takeWhile (ds.insideIn start)
    let next := results.dropWhile (ds.insideIn start)
    ⟨start.timestamp, ds.method.apply A ((start :: inside).map Sample.value)⟩ :: intervalsIn next
termination_by results => results.length
decreasing_by
  have := (List.dropWhile_suffix (l := results) (ds.insideIn start)).length_le
  rw [List.length_cons]
  omega

/-- `Decimate`, in any arithmetic. -/
def decimateIn (results : List (Sample V)) : Option (List (Sample V)) :=
  if ds.method = .none then some results
  else if ds.interval = 0 then
    match results with
    | [] => none
    | start :: _ => some [⟨start.timestamp, ds.method.apply A (results.map Sample.value)⟩]
  else some (ds.intervalsIn A results)

/-! ## Over doubles -/

theorem intervals_eq_intervalsIn (results : List Dps) :
    (ds.intervals results).map sampleOf =
      ds.intervalsIn Double.arithmetic (results.map sampleOf) := by
  induction results using intervals.induct ds with
  | case1 =>
    rw [intervals, List.map_nil, intervalsIn]
  | case2 start results next ih =>
    have hinside : ds.insideIn (sampleOf start) ∘ sampleOf = ds.inside start := rfl
    rw [intervals, List.map_cons, List.map_cons, intervalsIn, List.takeWhile_map,
      List.dropWhile_map, hinside]
    refine List.cons_eq_cons.mpr ⟨?_, ih⟩
    show Sample.mk start.timestamp _ = Sample.mk start.timestamp _
    rw [aggregate_eq, List.map_cons, List.map_cons, List.map_map]
    rfl

/-- **Over doubles it is `Decimate`.** -/
theorem decimate_eq_decimateIn (results : List Dps) :
    (ds.decimate results).map (List.map sampleOf) =
      ds.decimateIn Double.arithmetic (results.map sampleOf) := by
  unfold decimate decimateIn
  split
  · rfl
  · split
    · cases results with
      | nil => rfl
      | cons start results =>
        show some [Sample.mk start.timestamp _] = some [Sample.mk start.timestamp _]
        rw [aggregate_eq, List.map_map]
        rfl
    · exact congrArg some (ds.intervals_eq_intervalsIn results)

/-! ## Twice -/

variable {A ds}

theorem decimateIn_all {method : Method} (h : method ≠ .none) (start : Sample V)
    (results : List (Sample V)) : decimateIn A ⟨method, 0⟩ (start :: results) =
      some [⟨start.timestamp, method.apply A ((start :: results).map Sample.value)⟩] := by
  rw [decimateIn, if_neg h, if_pos rfl]

/-- The values of the intervals are those of the blocks. -/
theorem value_intervalsIn (results : List (Sample V)) :
    (ds.intervalsIn A results).map Sample.value =
      ((blocks ds.insideIn results).map (List.map Sample.value)).map (ds.method.apply A) := by
  induction results using intervalsIn.induct ds with
  | case1 =>
    rw [intervalsIn, blocks_nil]
    rfl
  | case2 start results next ih =>
    rw [intervalsIn, blocks_cons, List.map_cons, ih]
    rfl

/-- In exact arithmetic the value of the values of the intervals is the value of all samples. -/
theorem apply_intervalsIn {K : Type*} [Field K] [LinearOrder K] (hmethod : ds.method.Regroups)
    (results : List (Sample K)) :
    ds.method.apply (.exact K) ((ds.intervalsIn (.exact K) results).map Sample.value) =
      ds.method.apply (.exact K) (results.map Sample.value) := by
  have hgreedy := blocks_greedy ds.insideIn results
  have hne : ∀ b ∈ (blocks ds.insideIn results).map (List.map Sample.value), b ≠ [] := by
    intro b hb
    obtain ⟨c, hc, rfl⟩ := List.mem_map.mp hb
    exact fun hnil => hgreedy.ne_nil c hc (List.map_eq_nil_iff.mp hnil)
  rw [value_intervalsIn, Method.apply_flatten hmethod hne, ← List.map_flatten, hgreedy.flatten_eq]

/-- **Aggregating twice is aggregating once**: in exact arithmetic, the sum, the least or the
greatest value of the intervals, made one datapoint, is the datapoint of all results. -/
theorem decimateIn_twice {K : Type*} [Field K] [LinearOrder K] {method : Method}
    (hmethod : method = .sum ∨ method = .min ∨ method = .max) {interval : BitVec 64}
    (hinterval : interval ≠ 0) {results : List (Sample K)} (hresults : results ≠ []) :
    ∃ output dp, decimateIn (.exact K) ⟨method, interval⟩ results = some output ∧
      decimateIn (.exact K) ⟨method, 0⟩ output = some [dp] ∧
      decimateIn (.exact K) ⟨method, 0⟩ results = some [dp] := by
  have hne : method ≠ .none := by rcases hmethod with rfl | rfl | rfl <;> decide
  obtain ⟨start, rest, rfl⟩ := List.exists_cons_of_ne_nil hresults
  have hvalue := @apply_intervalsIn ⟨method, interval⟩ K _ _ hmethod (start :: rest)
  refine ⟨intervalsIn (.exact K) ⟨method, interval⟩ (start :: rest),
    ⟨start.timestamp, method.apply (.exact K) ((start :: rest).map Sample.value)⟩, ?_, ?_, ?_⟩
  · rw [decimateIn, if_neg hne, if_neg hinterval]
  · -- the first interval starts at the first result
    rw [intervalsIn] at hvalue ⊢
    rw [decimateIn_all hne, hvalue]
  · exact decimateIn_all hne start rest

/-- Three results in two intervals. -/
theorem decimateIn_twice_example : ∃ output dp,
    decimateIn (.exact ℚ) ⟨.sum, 10⟩ [⟨1, 2⟩, ⟨5, 3⟩, ⟨11, 4⟩] = some output ∧
    decimateIn (.exact ℚ) ⟨.sum, 0⟩ output = some [dp] ∧
    decimateIn (.exact ℚ) ⟨.sum, 0⟩ [⟨1, 2⟩, ⟨5, 3⟩, ⟨11, 4⟩] = some [dp] :=
  decimateIn_twice (.inl rfl) (by decide) (List.cons_ne_nil _ _)

end Downsampler

end SimpleTSDB
