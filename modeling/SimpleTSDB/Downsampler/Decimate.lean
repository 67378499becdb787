import Mathlib.Algebra.Field.Rat
import Mathlib.Algebra.Order.Ring.Rat
import SimpleTSDB.Downsampler.Loops
import SimpleTSDB.Downsampler.Specification
import SimpleTSDB.Foundations.Aggregation
import SimpleTSDB.Foundations.Blocks

/-!
# What `Decimate` computes

The output belongs to a greedy cut of the results into blocks (`decimate_greedy`): each datapoint
has the timestamp of the first member of its block and the value that the method makes of the
members. The loops dereference the end of the results only for the interval 0 and no results
(`decimate_safe_iff`).
-/

namespace SimpleTSDB

open Datastore Blocks

/-- The arithmetic of doubles. -/
def Double.arithmetic : Arithmetic Double where
  zero := .fin false 0 0
  add := Double.add
  div := Double.div
  lt := Double.lt
  ofNat := Double.ofNat

namespace Method

/-- What a method makes of some numbers. -/
def apply {V : Type*} (A : Arithmetic V) : Method → List V → V
  | .none, _ => A.zero
  | .avg, l => A.avg l
  | .sum, l => A.sum l
  | .min, l => A.min l
  | .max, l => A.max l

/-- What a method means. -/
def IsValue : Method → List ℚ → ℚ → Prop
  | .none, _, v => v = 0
  | .avg, l, v => v = l.sum / l.length
  | .sum, l, v => v = l.sum
  | .min, l, v => IsLeast {x | x ∈ l} v
  | .max, l, v => IsGreatest {x | x ∈ l} v

/-- In exact arithmetic, a method computes what it means. -/
theorem isValue_apply (method : Method) {l : List ℚ} (h : l ≠ []) :
    method.IsValue l (method.apply (.exact ℚ) l) := by
  cases method with
  | none => rfl
  | avg => exact Arithmetic.avg_exact l
  | sum => exact Arithmetic.sum_exact l
  | min => exact Arithmetic.min_exact h
  | max => exact Arithmetic.max_exact h

end Method

namespace Downsampler

variable {ds : Downsampler}

theorem sum_eq (dps : List Dps) : sum dps = Double.arithmetic.sum (dps.map Dps.value) :=
  List.foldl_map.symm

/-- The value of datapoints is what the method makes of their values. -/
theorem aggregate_eq (dps : List Dps) :
    ds.aggregate dps = ds.method.apply Double.arithmetic (dps.map Dps.value) := by
  unfold aggregate
  cases ds.method with
  | none => rfl
  | avg =>
    unfold avg
    rw [sum_eq, ← List.length_map (f := Dps.value)]
    rfl
  | sum => exact sum_eq dps
  | min =>
    cases dps with
    | nil => rfl
    | cons dp dps =>
      show dps.foldl (fun value dp => if dp.value.lt value then dp.value else value) dp.value =
        (dps.map Dps.value).foldl (fun least v => if v.lt least then v else least) dp.value
      rw [List.foldl_map]
  | max =>
    cases dps with
    | nil => rfl
    | cons dp dps =>
      show dps.foldl (fun value dp => if value.lt dp.value then dp.value else value) dp.value =
        (dps.map Dps.value).foldl (fun greatest v => if greatest.lt v then v else greatest) dp.value
      rw [List.foldl_map]

/-! ## Blocks -/

/-- The output has a datapoint for each block of the results: the timestamp is that of the first
member, the value is what the method makes of the members. -/
structure Decimated (ds : Downsampler) (results output : List Dps) (bs : List (List Dps)) :
    Prop where
  flatten_eq : bs.flatten = results
  ne_nil : ∀ b ∈ bs, b ≠ []
  inside : ∀ b ∈ bs, ∀ first ∈ b.head?, ∀ d ∈ b, d.timestamp - first.timestamp < ds.interval
  next : bs.IsChain fun b b' => ∀ first ∈ b.head?, ∀ d ∈ b'.head?,
    ds.interval ≤ d.timestamp - first.timestamp
  timestamp : List.Forall₂ (fun b d => b.head?.map Dps.timestamp = some d.timestamp) bs output
  value : List.Forall₂
    (fun b d => d.value = ds.method.apply Double.arithmetic (b.map Dps.value)) bs output

theorem intervals_blocks (ds : Downsampler) (results : List Dps) :
    List.Forall₂ (fun b d => b.head?.map Dps.timestamp = some d.timestamp ∧
      d.value = ds.method.apply Double.arithmetic (b.map Dps.value))
      (blocks ds.inside results) (ds.intervals results) := by
  induction results using intervals.induct ds with
  | case1 =>
    rw [blocks_nil, intervals]
    exact .nil
  | case2 first results next ih =>
    rw [blocks_cons, intervals]
    exact .cons ⟨rfl, aggregate_eq _⟩ ih

/-- **The intervals are a greedy cut of the results.** -/
theorem intervals_decimated (hinterval : ds.interval ≠ 0) (results : List Dps) :
    Decimated ds results (ds.intervals results) (blocks ds.inside results) := by
  have hgreedy := blocks_greedy ds.inside results
  have hblocks := ds.intervals_blocks results
  refine ⟨hgreedy.flatten_eq, hgreedy.ne_nil, fun b hb first hfirst d hd => ?_,
    hgreedy.next.imp fun b b' h => ?_, hblocks.imp fun _ _ h => h.1, hblocks.imp fun _ _ h => h.2⟩
  · cases b with
    | nil => cases hd
    | cons a b =>
      obtain rfl := Option.some.inj hfirst
      rcases List.mem_cons.mp hd with rfl | hd
      · rw [BitVec.sub_self]
        bv_omega
      · exact of_decide_eq_true (hgreedy.inside _ hb _ rfl d hd)
  · intro first hfirst d hd
    have hfalse := of_decide_eq_false (h first hfirst d hd)
    exact BitVec.not_lt.mp hfalse

/-- The first datapoint behind an interval starts the next one. -/
theorem head_intervals {results : List Dps} {d : Dps} (h : d ∈ (ds.intervals results).head?) :
    ∃ first ∈ results.head?, d.timestamp = first.timestamp := by
  cases results with
  | nil =>
    rw [intervals] at h
    cases h
  | cons first results =>
    rw [intervals] at h
    obtain rfl := Option.some.inj h
    exact ⟨first, rfl, rfl⟩

/-- Increasing results have outputs that are at least the interval apart. -/
theorem isChain_intervals {results : List Dps}
    (h : results.Pairwise fun d d' => d.timestamp < d'.timestamp) :
    (ds.intervals results).IsChain fun d d' =>
      d.timestamp.toNat + ds.interval.toNat ≤ d'.timestamp.toNat := by
  induction results using intervals.induct ds with
  | case1 =>
    rw [intervals]
    exact .nil
  | case2 first results next ih =>
    obtain ⟨hfirst, hrest⟩ := List.pairwise_cons.mp h
    have hnext : next.Sublist results := (List.dropWhile_suffix _).sublist
    rw [intervals]
    refine (ih (hrest.sublist hnext)).cons ?_
    intro d hd
    obtain ⟨x, hx, htime⟩ := head_intervals hd
    -- the next block starts behind the interval, and no timestamp has wrapped
    have hin : ds.inside first x = false := head_dropWhile hx
    have hout := of_decide_eq_false hin
    have hlt := hfirst x (hnext.subset (List.mem_of_mem_head? hx))
    rw [htime]
    bv_omega

/-! ## Decimation -/

/-- **Downsampling is a greedy partition**: the output belongs to a greedy cut of the results, with
the values of the method, which are what it means in exact arithmetic; increasing results have
outputs that are at least the interval apart. -/
theorem decimate_greedy (ds : Downsampler) (hmethod : ds.method ≠ .none)
    (hinterval : ds.interval ≠ 0) (results : List Dps) :
    ∃ output bs,
      (∀ fuel, results.length < fuel → ds.decimateLoops results fuel [] = .ok output) ∧
      Decimated ds results output bs ∧
      (∀ l : List ℚ, l ≠ [] → ds.method.IsValue l (ds.method.apply (.exact ℚ) l)) ∧
      ((results.Pairwise fun d d' => d.timestamp < d'.timestamp) →
        (output.IsChain fun d d' =>
          d.timestamp.toNat + ds.interval.toNat ≤ d'.timestamp.toNat) ∧
        (output.map Dps.timestamp).Nodup) := by
  refine ⟨ds.intervals results, blocks ds.inside results, fun fuel hfuel => ?_,
    intervals_decimated hinterval results, fun l => ds.method.isValue_apply, fun h => ⟨?_, ?_⟩⟩
  · rw [decimateLoops_eq ds results hfuel]
    unfold decimate
    rw [if_neg hmethod, if_neg hinterval]
    rfl
  · exact isChain_intervals h
  · refine (ds.intervals_sublist results).nodup ?_
    refine List.pairwise_map.mpr (h.imp fun {d d'} hlt heq => ?_)
    rw [heq] at hlt
    exact BitVec.lt_irrefl _ hlt

/-- Results with the values 1, 2 and 4. -/
def threeResults : List Dps :=
  [⟨1, .fin false (2 ^ 52) (-52)⟩, ⟨5, .fin false (2 ^ 52) (-51)⟩, ⟨11, .fin false (2 ^ 52) (-50)⟩]

/-- Two intervals of the length 10, with the sums 3 and 4. -/
theorem decimate_greedy_example : ∃ output bs,
    output = [⟨1, .fin false (3 * 2 ^ 51) (-51)⟩, ⟨11, .fin false (2 ^ 52) (-50)⟩] ∧
    Decimated ⟨.sum, 10⟩ threeResults output bs ∧ (output.map Dps.timestamp).Nodup := by
  obtain ⟨output, bs, hloops, hdec, -, hnodup⟩ :=
    decimate_greedy ⟨.sum, 10⟩ (by decide) (by decide) threeResults
  have hrun : (Downsampler.mk .sum 10).decimateLoops threeResults 4 [] =
      .ok [⟨1, .fin false (3 * 2 ^ 51) (-51)⟩, ⟨11, .fin false (2 ^ 52) (-50)⟩] := by
    decide +kernel
  exact ⟨output, bs, Except.ok.inj ((hloops 4 (by decide)).symm.trans hrun), hdec,
    (hnodup (by decide)).2⟩

/-! ## Safety -/

/-- **`Decimate` is safe exactly if** there are results, or no method, or an interval that is not
0. -/
theorem decimate_safe_iff (type : Str) (results : List Dps) :
    (∀ fuel, results.length < fuel → ∃ output,
      (ofType type).decimateLoops results fuel [] = .ok output ∧ (results = [] → output = [])) ↔
      results ≠ [] ∨ (ofType type).method = .none ∨ (ofType type).interval ≠ 0 := by
  generalize ofType type = ds
  constructor
  · intro h
    by_contra hnot
    simp only [not_or, not_not] at hnot
    obtain ⟨rfl, hmethod, hinterval⟩ := hnot
    obtain ⟨output, hok, -⟩ := h 1 Nat.one_pos
    rw [decimateLoops_eq ds _ Nat.one_pos, decimate_nil, if_pos ⟨hmethod, hinterval⟩] at hok
    cases hok
  · intro h fuel hfuel
    rcases eq_or_ne results [] with rfl | hne
    · have hsafe : ¬ (ds.method ≠ .none ∧ ds.interval = 0) := by
        rcases h with h | h | h
        · exact absurd rfl h
        · exact fun hboth => hboth.1 h
        · exact fun hboth => h hboth.2
      refine ⟨[], ?_, fun _ => rfl⟩
      rw [decimateLoops_eq ds _ hfuel, decimate_nil, if_neg hsafe]
      rfl
    · obtain ⟨output, houtput, -⟩ := ds.exists_decimate hne
      refine ⟨output, ?_, fun hnil => absurd hnil hne⟩
      rw [decimateLoops_eq ds _ hfuel, houtput]
      rfl

/-- **The interval `all` reads the first of no results.** -/
theorem not_decimate_safe : ¬ ∀ (type : Str) (results : List Dps), ∀ fuel,
    results.length < fuel → ∃ output,
      (ofType type).decimateLoops results fuel [] = .ok output ∧ (results = [] → output = []) := by
  intro h
  obtain ⟨output, hok, -⟩ := h "0all-avg".toList [] 1 Nat.one_pos
  have hspec : IsSpec "0all-avg".toList "0".toList none .avg := ⟨rfl, by decide, by decide⟩
  obtain ⟨hmethod, hinterval⟩ := hspec.ofType_eq
  have hunsafe : (ofType "0all-avg".toList).method ≠ .none ∧
      (ofType "0all-avg".toList).interval = 0 :=
    ⟨by rw [hmethod]; decide, BitVec.eq_of_toNat_eq hinterval⟩
  rw [decimateLoops_eq _ _ Nat.one_pos, decimate_nil, if_pos hunsafe] at hok
  cases hok

end Downsampler

end SimpleTSDB
