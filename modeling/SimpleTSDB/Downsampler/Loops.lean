import SimpleTSDB.Downsampler

/-!
# The loops of `Decimate`

`Decimate` over the iterators of its results: an iterator is a position, the end being the number of
results, and a loop that has no bound of its own counts down fuel. With fuel for one round more than
there are results the loops compute the description of `SimpleTSDB.Downsampler`
(`decimateLoops_eq`).
-/

namespace SimpleTSDB.Downsampler

open Datastore

/-- What can go wrong: the iterator `end()` is dereferenced, or the fuel is spent. -/
inductive Fault where
  | endDereferenced
  | outOfFuel
deriving DecidableEq

variable (ds : Downsampler) (results : List Dps)

/-- `*it`. -/
def deref (it : ℕ) : Except Fault Dps :=
  match results[it]? with
  | some dp => .ok dp
  | none => .error .endDereferenced

/-- The datapoints that a loop from `dp` to `stop` reads. -/
def readFrom (dp stop : ℕ) : Except Fault (List Dps) :=
  if dp = stop then .ok []
  else match _h : results[dp]? with
    | none => .error .endDereferenced
    | some d => (readFrom (dp + 1) stop).map (d :: ·)
termination_by results.length - dp
decreasing_by
  have := (List.getElem?_eq_some_iff.mp ‹_›).1
  omega

/-- The datapoint of the results from `start` to `next` is added to the output. -/
def push (start next : ℕ) (output : List Dps) : Except Fault (List Dps) := do
  let result := ds.aggregate (← readFrom results start next)
  let first ← deref results start
  return output ++ [⟨first.timestamp, result⟩]

/-- The inner loop: `next` and the output behind it. -/
def innerLoop (start : ℕ) (timestamp : BitVec 64) (next : ℕ) (output : List Dps) :
    Except Fault (ℕ × List Dps) :=
  if next = results.length then .ok (next, output)
  else match _h : results[next]? with
    | none => .error .endDereferenced
    | some dp =>
      let interval := dp.timestamp - timestamp
      if interval < ds.interval then innerLoop start timestamp (next + 1) output
      else (ds.push results start next output).map (next, ·)    -- over the interval
termination_by results.length - next
decreasing_by
  have := (List.getElem?_eq_some_iff.mp ‹_›).1
  omega

/-- The outer loop. -/
def outerLoop : ℕ → ℕ → List Dps → Except Fault (List Dps)
  | 0, _, _ => .error .outOfFuel
  | fuel + 1, start, output =>
    if start = results.length then .ok output
    else do
      let timestamp := (← deref results start).timestamp
      let (next, output) ← ds.innerLoop results start timestamp start output
      let output ← if next = results.length then ds.push results start next output else pure output
      outerLoop fuel next output

/-- `Decimate(results, output)`: the output; its size is returned. -/
def decimateLoops (fuel : ℕ) (output : List Dps) : Except Fault (List Dps) :=
  if ds.method = .none then .ok results
  else if ds.interval = 0 then ds.push results 0 results.length output
  else ds.outerLoop results fuel 0 output

/-! ## One round -/

variable {ds results}

theorem deref_append (pre : List Dps) (d : Dps) (post : List Dps) :
    deref (pre ++ d :: post) pre.length = .ok d := by
  simp [deref]

/-- A loop reads what stands between its bounds. -/
theorem readFrom_append (pre mid post : List Dps) :
    readFrom (pre ++ (mid ++ post)) pre.length (pre.length + mid.length) = .ok mid := by
  induction mid generalizing pre with
  | nil =>
    rw [readFrom]
    exact if_pos rfl
  | cons d mid ih =>
    have hne : ¬ pre.length = pre.length + (d :: mid).length := by simp
    have hget : (pre ++ (d :: mid ++ post))[pre.length]? = some d := by simp
    have hrest := ih (pre ++ [d])
    simp only [List.length_append, List.length_singleton, List.append_assoc, List.singleton_append,
      Nat.add_assoc, Nat.add_comm 1] at hrest
    rw [readFrom, if_neg hne]
    split
    next hnone =>
      rw [hget] at hnone
      cases hnone
    next d' hsome =>
      obtain rfl := Option.some.inj (hget.symm.trans hsome)
      rw [List.length_cons, List.cons_append, hrest]
      rfl

theorem push_append (pre : List Dps) (d : Dps) (mid post output : List Dps) :
    ds.push (pre ++ (d :: mid ++ post)) pre.length (pre.length + (d :: mid).length) output =
      .ok (output ++ [⟨d.timestamp, ds.aggregate (d :: mid)⟩]) := by
  rw [push, readFrom_append, List.cons_append, deref_append]
  rfl

/-- Is the datapoint in the interval that starts at `first`? -/
def inside (ds : Downsampler) (first next : Dps) : Bool :=
  next.timestamp - first.timestamp < ds.interval

/-- The inner loop stops behind the datapoints of the interval; if one is left, it has added the
datapoint of the interval. -/
theorem innerLoop_append (pre : List Dps) (first : Dps) (mid l output : List Dps) :
    ds.innerLoop (pre ++ (first :: mid ++ l)) pre.length first.timestamp
        (pre.length + (first :: mid).length) output =
      .ok (pre.length + (first :: (mid ++ l.takeWhile (ds.inside first))).length,
        if l.dropWhile (ds.inside first) = [] then output
        else output ++
          [⟨first.timestamp, ds.aggregate (first :: (mid ++ l.takeWhile (ds.inside first)))⟩]) := by
  induction l generalizing mid with
  | nil =>
    rw [innerLoop]
    simp
  | cons d l ih =>
    have hne : ¬ pre.length + (first :: mid).length =
        (pre ++ (first :: mid ++ d :: l)).length := by simp
    have hget : (pre ++ (first :: mid ++ d :: l))[pre.length + (first :: mid).length]? =
        some d := by
      rw [← List.append_assoc]
      simp
    rw [innerLoop, if_neg hne]
    split
    next hnone =>
      rw [hget] at hnone
      cases hnone
    next d' hsome =>
      obtain rfl := Option.some.inj (hget.symm.trans hsome)
      by_cases hin : d.timestamp - first.timestamp < ds.interval
      · -- the loop goes on behind `d`
        have htrue : ds.inside first d = true := decide_eq_true hin
        have hrest := ih (mid ++ [d])
        simp only [List.append_assoc, List.cons_append, List.nil_append, List.length_cons,
          List.length_append, List.length_nil, ← Nat.add_assoc, Nat.add_zero] at hrest
        rw [if_pos hin, List.takeWhile_cons_of_pos htrue, List.dropWhile_cons_of_pos htrue]
        simpa [Nat.add_assoc] using hrest
      · have hfalse : ¬ ds.inside first d = true := by simpa [inside] using hin
        have hpush := @push_append ds pre first mid (d :: l) output
        rw [if_neg hin, hpush, List.takeWhile_cons_of_neg hfalse,
          List.dropWhile_cons_of_neg hfalse, List.append_nil, if_neg (List.cons_ne_nil _ _)]
        rfl

/-- **One round of the outer loop** adds the datapoint of an interval and goes on behind it. -/
theorem outerLoop_append (hinterval : ds.interval ≠ 0) (pre : List Dps) (first : Dps)
    (l output : List Dps) (fuel : ℕ) :
    ds.outerLoop (pre ++ first :: l) (fuel + 1) pre.length output =
      ds.outerLoop (pre ++ first :: l) fuel
        (pre.length + (first :: l.takeWhile (ds.inside first)).length)
        (output ++ [⟨first.timestamp, ds.aggregate (first :: l.takeWhile (ds.inside first))⟩]) := by
  have hne : ¬ pre.length = (pre ++ first :: l).length := by simp
  have hpos : first.timestamp - first.timestamp < ds.interval := by
    rw [BitVec.sub_self]
    bv_omega
  -- the first datapoint is in its own interval
  have hinner : ds.innerLoop (pre ++ first :: l) pre.length first.timestamp pre.length output =
      ds.innerLoop (pre ++ ([first] ++ l)) pre.length first.timestamp
        (pre.length + [first].length) output := by
    rw [innerLoop, if_neg hne]
    split
    next hnone => simp at hnone
    next d hsome =>
      obtain rfl : first = d := by simpa using hsome
      rw [if_pos hpos]
      rfl
  have hstop := @innerLoop_append ds pre first [] l output
  rw [List.nil_append] at hstop
  rw [outerLoop, if_neg hne, deref_append]
  simp only [bind, Except.bind, hinner, hstop]
  by_cases hrest : l.dropWhile (ds.inside first) = []
  · -- the interval goes to the end of the results, and its datapoint is added behind the loop
    have hall : l.takeWhile (ds.inside first) = l := by
      simpa [hrest] using List.takeWhile_append_dropWhile (p := ds.inside first) (l := l)
    have hpush := @push_append ds pre first l [] output
    rw [List.append_nil] at hpush
    have hend : pre.length + (first :: l).length = (pre ++ first :: l).length := by simp
    rw [hall, if_pos hrest, if_pos hend, hpush]
  · have hnotend : ¬ pre.length + (first :: l.takeWhile (ds.inside first)).length =
        (pre ++ first :: l).length := by
      have hlen := congrArg List.length
        (List.takeWhile_append_dropWhile (p := ds.inside first) (l := l))
      have hpos := List.length_pos_iff.mpr hrest
      simp only [List.length_append, List.length_cons] at hlen ⊢
      omega
    rw [if_neg hrest, if_neg hnotend]
    rfl

/-! ## The whole loop -/

/-- **The outer loop computes the intervals**, with fuel for one round more than results. -/
theorem outerLoop_eq (hinterval : ds.interval ≠ 0) (l pre output : List Dps) {fuel : ℕ}
    (hfuel : l.length < fuel) :
    ds.outerLoop (pre ++ l) fuel pre.length output = .ok (output ++ ds.intervals l) := by
  induction l using intervals.induct ds generalizing pre output fuel with
  | case1 =>
    obtain ⟨fuel, rfl⟩ := Nat.exists_eq_add_of_lt hfuel
    rw [intervals]
    simp [outerLoop]
  | case2 first l next ih =>
    obtain ⟨fuel, rfl⟩ : ∃ n, fuel = n + 1 := ⟨fuel - 1, by omega⟩
    have hnext : next.length ≤ l.length := (List.dropWhile_suffix _).length_le
    have hsplit : pre ++ first :: l =
        (pre ++ first :: l.takeWhile (ds.inside first)) ++ next := by
      rw [List.append_assoc, List.cons_append]
      exact congrArg (pre ++ first :: ·) List.takeWhile_append_dropWhile.symm
    have hlt : next.length < fuel := by
      rw [List.length_cons] at hfuel
      omega
    have hrest := ih (pre ++ first :: l.takeWhile (ds.inside first))
      (output ++ [⟨first.timestamp, ds.aggregate (first :: l.takeWhile (ds.inside first))⟩]) hlt
    rw [outerLoop_append hinterval, hsplit, ← List.length_append, hrest, intervals,
      List.append_assoc]
    rfl

variable (ds)

/-- **The loops compute the description** of `Decimate`, and fail where it reads a first result that
is not there. -/
theorem decimateLoops_eq (results : List Dps) {fuel : ℕ} (hfuel : results.length < fuel) :
    ds.decimateLoops results fuel [] =
      (ds.decimate results).elim (.error .endDereferenced) .ok := by
  unfold decimateLoops decimate
  split
  · rfl
  · split
    · cases results with
      | nil =>
        rw [push, readFrom]
        rfl
      | cons first l =>
        have hpush := @push_append ds [] first l [] []
        simpa using hpush
    · next hinterval => exact outerLoop_eq hinterval results [] [] hfuel

end SimpleTSDB.Downsampler
