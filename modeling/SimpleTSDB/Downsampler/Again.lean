import SimpleTSDB.Downsampler.Decimate
import SimpleTSDB.Rounding

/-!
# Decimating the output again

The datapoints of the output are at least the interval apart (`intervals_apart`), so that each of
them is alone in its interval the second time. A method returns the value of a single datapoint
(`aggregate_again`), but an average that was rounded to a negative zero loses its sign, since it is
added to zero. `decimate_again` says so for every list of results and both branches of `Decimate`.
-/

namespace SimpleTSDB

open Datastore

/-- The datapoint with a positive sign if its value is zero. -/
def unsignZero (dp : Dps) : Dps := ⟨dp.timestamp, dp.value.unsignZero⟩

namespace Downsampler

variable {ds : Downsampler}

/-! ## One value -/

/-- A property of zero that every addition of a value keeps is one of the sum. -/
theorem sum_induction {P : Double → Prop} {dps : List Dps} (hzero : P (.fin false 0 0))
    (hadd : ∀ v, P v → ∀ dp ∈ dps, P (v.add dp.value)) : P (sum dps) :=
  List.foldlRecOn dps _ hzero hadd

theorem isBinary64_sum (dps : List Dps) : (sum dps).IsBinary64 :=
  sum_induction (.inl ⟨rfl, rfl⟩) fun v _ dp _ => v.isBinary64_add dp.value

/-- A sum starts with a positive zero, and is never a negative one. -/
theorem sum_ne_negZero {dps : List Dps} (h : ∀ dp ∈ dps, dp.value.IsBinary64) :
    sum dps ≠ .fin true 0 0 := by
  refine (sum_induction (P := fun v => v.IsBinary64 ∧ v ≠ .fin true 0 0) ?_ ?_).2
  · exact ⟨.inl ⟨rfl, rfl⟩, nofun⟩
  · rintro v ⟨hv, hne⟩ dp hdp
    exact ⟨v.isBinary64_add _, Double.add_ne_negZero hv (h dp hdp) hne⟩

theorem isBinary64_avg (dps : List Dps) : (avg dps).IsBinary64 := by
  unfold avg
  split
  · exact Double.isBinary64_div _ _
  · exact .inl ⟨rfl, rfl⟩

/-- **The value of a value**: a method returns the value of a single datapoint, without the sign of
a zero if it is the average. -/
theorem aggregate_again (hmethod : ds.method ≠ .none) {dps : List Dps}
    (h : ∀ dp ∈ dps, dp.value.IsBinary64) (timestamp : BitVec 64) :
    ds.aggregate [⟨timestamp, ds.aggregate dps⟩] =
      if ds.method = .avg then (ds.aggregate dps).unsignZero else ds.aggregate dps := by
  unfold aggregate
  cases hm : ds.method with
  | none => exact absurd hm hmethod
  | avg =>
    show ((Double.fin false 0 0).add (avg dps)).div (.ofNat 1) = (avg dps).unsignZero
    have hadd := Double.posZero_add (isBinary64_avg dps)
    rw [Double.div_one (Double.isBinary64_add _ _), hadd]
  | sum =>
    show (Double.fin false 0 0).add (sum dps) = sum dps
    rw [Double.posZero_add (isBinary64_sum dps),
      Double.unsignZero_eq (isBinary64_sum dps) (sum_ne_negZero h)]
  | min => rfl
  | max => rfl

/-! ## The intervals -/

/-- A datapoint of the output has the value of some results. -/
theorem exists_block {results : List Dps} {dp : Dps} (h : dp ∈ ds.intervals results) :
    ∃ block ⊆ results, dp.value = ds.aggregate block := by
  induction results using intervals.induct ds with
  | case1 =>
    rw [intervals] at h
    cases h
  | case2 start results next ih =>
    rw [intervals] at h
    rcases List.mem_cons.mp h with rfl | h
    · exact ⟨_, List.cons_subset_cons _ (List.takeWhile_subset _), rfl⟩
    · obtain ⟨block, hblock, hvalue⟩ := ih h
      have hnext : next ⊆ start :: results :=
        List.Subset.trans (List.dropWhile_suffix _).subset (List.subset_cons_self _ _)
      exact ⟨block, List.Subset.trans hblock hnext, hvalue⟩

/-- **Each datapoint of the output is outside of the interval of the one before**, whether or not
the results are sorted. -/
theorem intervals_apart (ds : Downsampler) (results : List Dps) :
    (ds.intervals results).IsChain fun dp next => ds.inside dp next = false := by
  induction results using intervals.induct ds with
  | case1 =>
    rw [intervals]
    exact .nil
  | case2 start results next ih =>
    rw [intervals]
    refine ih.cons ?_
    intro dp hdp
    obtain ⟨first, hfirst, htime⟩ := head_intervals hdp
    have hout : ds.inside start first = false := Blocks.head_dropWhile hfirst
    unfold inside at hout ⊢
    rw [htime]
    exact hout

/-- Datapoints that are apart are each alone in an interval. -/
theorem intervals_of_apart {dps : List Dps}
    (h : dps.IsChain fun dp next => ds.inside dp next = false) :
    ds.intervals dps = dps.map fun dp => ⟨dp.timestamp, ds.aggregate [dp]⟩ := by
  induction dps with
  | nil =>
    rw [intervals]
    rfl
  | cons dp dps ih =>
    obtain ⟨hhead, hrest⟩ := List.isChain_cons.mp h
    have halone : dps.takeWhile (ds.inside dp) = [] ∧ dps.dropWhile (ds.inside dp) = dps := by
      cases dps with
      | nil => exact ⟨rfl, rfl⟩
      | cons next dps =>
        have hout := hhead next rfl
        exact ⟨List.takeWhile_cons_of_neg (by simp [hout]),
          List.dropWhile_cons_of_neg (by simp [hout])⟩
    rw [intervals, List.map_cons, ← ih hrest]
    show _ :: ds.intervals (dps.dropWhile (ds.inside dp)) = _
    have htake : dps.takeWhile (fun next => decide (next.timestamp - dp.timestamp < ds.interval)) =
        [] := halone.1
    rw [htake, halone.2]

/-! ## Decimation -/

/-- The output, aggregated again one by one. -/
theorem map_again (hmethod : ds.method ≠ .none) {output : List Dps}
    (h : ∀ dp ∈ output, ∃ dps : List Dps, (∀ d ∈ dps, d.value.IsBinary64) ∧
      dp.value = ds.aggregate dps) :
    (output.map fun dp => ⟨dp.timestamp, ds.aggregate [dp]⟩) =
      if ds.method = .avg then output.map unsignZero else output := by
  have hone : ∀ dp ∈ output, (⟨dp.timestamp, ds.aggregate [dp]⟩ : Dps) =
      if ds.method = .avg then unsignZero dp else dp := by
    intro dp hdp
    obtain ⟨dps, hdps, hvalue⟩ := h dp hdp
    have hagain := aggregate_again hmethod hdps dp.timestamp
    rw [← hvalue] at hagain
    rw [show dp = ⟨dp.timestamp, dp.value⟩ from rfl, hagain]
    split <;> rfl
  rw [List.map_congr_left hone]
  split
  · rfl
  · exact List.map_id' _

/-- The output of `Decimate` when it is decimated again. -/
theorem exists_decimate_again (ds : Downsampler) {results : List Dps}
    (hvalues : ∀ dp ∈ results, dp.value.IsBinary64) (hall : ds.interval = 0 → results ≠ []) :
    ∃ output, ds.decimate results = some output ∧ output.length ≤ results.length ∧
      ds.decimate output = some (if ds.method = .avg then output.map unsignZero else output) := by
  by_cases hmethod : ds.method = .none
  · refine ⟨results, if_pos hmethod, le_rfl, ?_⟩
    have havg : ds.method ≠ .avg := by rw [hmethod]; decide
    rw [if_neg havg]
    exact if_pos hmethod
  have hlength {output : List Dps} (h : ds.decimate results = some output) :
      output.length ≤ results.length := by
    simpa using (ds.decimate_sublist h).length_le
  by_cases hinterval : ds.interval = 0
  · obtain ⟨start, rest, rfl⟩ := List.exists_cons_of_ne_nil (hall hinterval)
    have hone (start : Dps) (rest : List Dps) : ds.decimate (start :: rest) =
        some [⟨start.timestamp, ds.aggregate (start :: rest)⟩] := by
      rw [decimate, if_neg hmethod, if_pos hinterval]
    refine ⟨_, hone start rest, hlength (hone start rest), ?_⟩
    rw [hone, ← map_again hmethod (by simpa using ⟨start :: rest, hvalues, rfl⟩)]
    rfl
  · have hdecimate (results : List Dps) : ds.decimate results = some (ds.intervals results) :=
      (if_neg hmethod).trans (if_neg hinterval)
    refine ⟨_, hdecimate results, hlength (hdecimate results), ?_⟩
    rw [hdecimate, intervals_of_apart (ds.intervals_apart results), map_again hmethod]
    intro dp hdp
    obtain ⟨block, hblock, hvalue⟩ := exists_block hdp
    exact ⟨block, fun d hd => hvalues d (hblock hd), hvalue⟩

/-- **Downsampling is idempotent but for the sign of a zero**: the output of `Decimate`, decimated
again, is the output; an average that was rounded to a negative zero becomes a positive one. -/
theorem decimate_again (ds : Downsampler) {results : List Dps}
    (hvalues : ∀ dp ∈ results, dp.value.IsBinary64) (hall : ds.interval = 0 → results ≠ []) :
    ∃ output, ∀ fuel, results.length < fuel →
      ds.decimateLoops results fuel [] = .ok output ∧
      ds.decimateLoops output fuel [] =
        .ok (if ds.method = .avg then output.map unsignZero else output) := by
  obtain ⟨output, houtput, hlength, hagain⟩ := ds.exists_decimate_again hvalues hall
  refine ⟨output, fun fuel hfuel => ⟨?_, ?_⟩⟩
  · rw [decimateLoops_eq ds results hfuel, houtput]
    rfl
  · rw [decimateLoops_eq ds output (by omega), hagain]
    rfl

/-- Three results that are not sorted, in intervals of the length 10. -/
theorem decimate_again_example : ∃ output, ∀ fuel, 3 < fuel →
    (Downsampler.mk .avg 10).decimateLoops
      [⟨7, .nan⟩, ⟨5, .inf false⟩, ⟨11, .fin false 0 0⟩] fuel [] = .ok output ∧
    (Downsampler.mk .avg 10).decimateLoops output fuel [] = .ok (output.map unsignZero) := by
  have hvalues : ∀ dp ∈ [(⟨7, .nan⟩ : Dps), ⟨5, .inf false⟩, ⟨11, .fin false 0 0⟩],
      dp.value.IsBinary64 := by simp [Double.IsBinary64]
  exact decimate_again ⟨.avg, 10⟩ hvalues fun _ => List.cons_ne_nil _ _

/-- The average of zero and the negative double next to it is a negative zero, which loses its
sign. -/
theorem not_decimate_again : ¬ ∀ (ds : Downsampler) (results : List Dps), ds.interval ≠ 0 →
    (∀ dp ∈ results, dp.value.IsBinary64) → ∃ output, ∀ fuel, results.length < fuel →
      ds.decimateLoops results fuel [] = .ok output ∧
      ds.decimateLoops output fuel [] = .ok output := by
  intro h
  obtain ⟨output, hboth⟩ := h ⟨.avg, 10⟩ [⟨0, .fin true 1 (-1074)⟩, ⟨1, .fin false 0 0⟩]
    (by decide) (by simp [Double.IsBinary64])
  obtain ⟨hfirst, hagain⟩ := hboth 3 (by decide)
  have hneg : (Downsampler.mk .avg 10).decimateLoops
      [⟨0, .fin true 1 (-1074)⟩, ⟨1, .fin false 0 0⟩] 3 [] = .ok [⟨0, .fin true 0 0⟩] := by
    rw [decimateLoops_eq _ _ (by decide)]
    show Except.ok (intervals _ _) = _
    rw [intervals]
    decide +kernel
  have hpos : (Downsampler.mk .avg 10).decimateLoops [⟨0, .fin true 0 0⟩] 3 [] =
      .ok [⟨0, .fin false 0 0⟩] := by
    rw [decimateLoops_eq _ _ (by decide)]
    show Except.ok (intervals _ _) = _
    rw [intervals]
    decide +kernel
  obtain rfl := Except.ok.inj (hfirst.symm.trans hneg)
  exact absurd (Except.ok.inj (hagain.symm.trans hpos)) (by decide)

end Downsampler

end SimpleTSDB
