import SimpleTSDB.Datastore.Drain

/-!
# The backlog

`Process` reports the counter of the queue as the backlog. A front end counts a metric after it has
queued it, so that the thread may have taken the metric off the queue, and counted it down, before
it is counted. `Counted` relates the counter to the queue in every state of a run; `backlog_iff`
says for which runs no report is the wrapped value of a negative number.
-/

namespace SimpleTSDB.Datastore

open Transducer

variable {F : Type*}

/-- How many metrics of the batches have been processed. -/
def processed (as : List Action) : ℕ := as.countP fun | .element _ => true | _ => false

@[simp] theorem processed_append (as bs : List Action) :
    processed (as ++ bs) = processed as + processed bs := List.countP_append

/-- The counter and the queue after the actions `as` with the outputs `o`: what was queued is
processed, in the batch or in the queue, and until `Stop` is called the counter lacks those that are
not counted yet. -/
structure Counted (as : List Action) (s : State F) (o : List (Event F)) : Prop where
  filled : s.pc.Filled
  length : (enqueued o).length = processed as + s.pc.remaining.length + s.queue.card
  counter : ¬ s.pc.Stopping → s.queueSize + BitVec.ofNat 64 s.uncounted +
    BitVec.ofNat 64 (processed as) = BitVec.ofNat 64 (enqueued o).length

namespace Counted

variable {as : List Action} {s : State F} {o : List (Event F)}

theorem start (d : Databases F) : Counted [] (started d) [] where
  filled := trivial
  length := rfl
  counter _ := rfl

/-- What an action must balance. -/
theorem change (h : Counted as s o) {a : Action} {t : State F} {es : List (Event F)}
    (hfill : t.pc.Filled)
    (hlength : (enqueued es).length + s.pc.remaining.length + s.queue.card =
      processed [a] + t.pc.remaining.length + t.queue.card)
    (hcounter : ¬ t.pc.Stopping → ¬ s.pc.Stopping ∧
      t.queueSize + BitVec.ofNat 64 t.uncounted + BitVec.ofNat 64 (processed [a]) =
        s.queueSize + BitVec.ofNat 64 s.uncounted + BitVec.ofNat 64 (enqueued es).length) :
    Counted (as ++ [a]) t (o ++ es) := by
  have hold := h.length
  refine ⟨hfill, ?_, fun hstop => ?_⟩
  · rw [enqueued_append, List.length_append, processed_append]
    omega
  · obtain ⟨hstop', hnew⟩ := hcounter hstop
    have hcount := h.counter hstop'
    rw [enqueued_append, List.length_append, processed_append, BitVec.ofNat_add, BitVec.ofNat_add]
    bv_omega

/-- The thread moves on. -/
theorem move (h : Counted as s o) {a : Action} {t : State F} {es : List (Event F)}
    (he : enqueued es = []) (hp : processed [a] = 0) (hq : t.queue = s.queue)
    (hsize : t.queueSize = s.queueSize ∧ t.uncounted = s.uncounted)
    (hrem : t.pc.remaining = s.pc.remaining) (hfill : t.pc.Filled)
    (hstop : s.pc.Stopping → t.pc.Stopping) : Counted (as ++ [a]) t (o ++ es) := by
  refine h.change hfill ?_ fun ht => ⟨fun hs => ht (hstop hs), ?_⟩
  · rw [he, hp, hq, hrem]
    rfl
  · rw [he, hp, hsize.1, hsize.2]
    rfl

/-- A batch is handed out. -/
theorem dequeue (h : Counted as s o) {a : Action} {t : State F} {batch : List Metric}
    (hp : processed [a] = 0) (hb : HandsOut s.queue batch)
    (hq : t.queue = s.queue - (batch : Multiset Metric))
    (hsize : t.queueSize = s.queueSize ∧ t.uncounted = s.uncounted)
    (hrem : s.pc.remaining = []) (hrem' : t.pc.remaining = batch) (hfill : t.pc.Filled)
    (hstop : s.pc.Stopping → t.pc.Stopping) :
    Counted (as ++ [a]) t (o ++ batch.map .dequeued) := by
  have he : enqueued (batch.map (Event.dequeued (F := F))) = [] := by
    simp [enqueued, List.filterMap_map]
  refine h.change hfill ?_ fun ht => ⟨fun hs => ht (hstop hs), ?_⟩
  · have hle := Multiset.card_le_card hb.2.1
    rw [Multiset.coe_card] at hle
    rw [he, hp, hq, hrem, hrem', Multiset.card_sub hb.2.1, Multiset.coe_card, List.length_nil]
    omega
  · rw [he, hp, hsize.1, hsize.2]
    rfl

/-- A metric of the batch is processed, and counted down unless `Stop` has been called. -/
theorem element (h : Counted as s o) {a : Action} {t : State F} {es : List (Event F)}
    (he : enqueued es = []) (hp : processed [a] = 1) (hq : t.queue = s.queue)
    (huncounted : t.uncounted = s.uncounted) {x : Metric} {rest : List Metric}
    (hrem : s.pc.remaining = x :: rest) (hrem' : t.pc.remaining = rest) (hfill : t.pc.Filled)
    (hstop : ¬ t.pc.Stopping → ¬ s.pc.Stopping ∧ t.queueSize = s.queueSize - 1) :
    Counted (as ++ [a]) t (o ++ es) := by
  refine h.change hfill ?_ fun ht => ⟨(hstop ht).1, ?_⟩
  · rw [he, hp, hq, hrem, hrem', List.length_cons, List.length_nil]
    omega
  · rw [he, hp, huncounted, (hstop ht).2, List.length_nil]
    bv_omega

variable [DecidableEq F]

/-- The body of the loops queues nothing and leaves the queue and its counter alone. -/
theorem storeMetric_counts (cfg : Config F) (r : Outcome) (s : State F) (m : Metric) :
    enqueued (storeMetric cfg r s m).2 = [] ∧ (storeMetric cfg r s m).1.queue = s.queue ∧
      (storeMetric cfg r s m).1.queueSize = s.queueSize ∧
      (storeMetric cfg r s m).1.uncounted = s.uncounted := by
  have hframe := congrArg Prod.fst (storeMetric_frame cfg r s m)
  exact ⟨(storeMetric_quiet cfg r s m).1, by rw [hframe], by rw [hframe], by rw [hframe]⟩

/-- **Every step keeps the balance.** -/
theorem step (h : Counted as s o) {cfg : Config F} {a : Action} {t : State F} {es : List (Event F)}
    (hs : Datastore.step cfg s a = some (t, es)) : Counted (as ++ [a]) t (o ++ es) := by
  have hfilled := h.filled
  cases stepped_of_step hs with
  | enqueue m =>
    refine h.change hfilled ?_ fun hstop => ⟨hstop, ?_⟩
    · show 1 + s.pc.remaining.length + s.queue.card =
        0 + s.pc.remaining.length + (m ::ₘ s.queue).card
      rw [Multiset.card_cons]
      omega
    · show s.queueSize + BitVec.ofNat 64 (s.uncounted + 1) + BitVec.ofNat 64 0 =
        s.queueSize + BitVec.ofNat 64 s.uncounted + BitVec.ofNat 64 1
      bv_omega
  | count hpos =>
    refine h.change hfilled rfl fun hstop => ⟨hstop, ?_⟩
    show s.queueSize + 1 + BitVec.ofNat 64 (s.uncounted - 1) + BitVec.ofNat 64 0 =
      s.queueSize + BitVec.ofNat 64 s.uncounted + BitVec.ofNat 64 0
    bv_omega
  | process hpc =>
    exact h.move rfl rfl rfl ⟨rfl, rfl⟩ (by rw [hpc]; rfl) trivial (by rw [hpc]; exact False.elim)
  | processEmpty hpc hb =>
    exact h.dequeue rfl hb rfl ⟨rfl, rfl⟩ (by rw [hpc]; rfl) rfl trivial
      (by rw [hpc]; exact False.elim)
  | @processBatch m batch hpc hb =>
    exact h.dequeue rfl hb rfl ⟨rfl, rfl⟩ (by rw [hpc]; rfl) (take_refill _ m)
      (length_le_refill _ m) (by rw [hpc]; exact False.elim)
  | stopEmpty hpc hb =>
    exact h.dequeue rfl hb rfl ⟨rfl, rfl⟩ (by rw [hpc]; rfl) rfl trivial fun _ => trivial
  | @stopBatch m batch hpc hb =>
    exact h.dequeue rfl hb rfl ⟨rfl, rfl⟩ (by rw [hpc]; rfl) (take_refill _ m)
      (length_le_refill _ m) fun _ => trivial
  | @processElement m count i r x hpc hi hx =>
    obtain ⟨he, hq, hsize, huncounted⟩ := storeMetric_counts cfg r s x
    have hrem : s.pc.remaining = x :: (m.take count).drop (i + 1) := by
      rw [hpc]
      exact drop_take_eq_cons hi hx
    refine h.element he rfl hq huncounted hrem rfl (by rw [hpc] at hfilled; exact hfilled)
      fun _ => ⟨by simp [hpc, Pc.Stopping], ?_⟩
    exact congrArg (· - 1) hsize
  | @stopElement m count i r x hpc hi hx =>
    obtain ⟨he, hq, -, huncounted⟩ := storeMetric_counts cfg r s x
    have hrem : s.pc.remaining = x :: (m.take count).drop (i + 1) := by
      rw [hpc]
      exact drop_take_eq_cons hi hx
    exact h.element he rfl hq huncounted hrem rfl (by rw [hpc] at hfilled; exact hfilled)
      fun ht => absurd trivial ht
  | @processEnd m count i hpc hi =>
    have hrem : s.pc.remaining = [] := by rw [hpc]; exact drop_take_eq_nil m hi
    exact h.move rfl rfl rfl ⟨rfl, rfl⟩ hrem.symm trivial (by rw [hpc]; exact False.elim)
  | @stopEnd m count i hpc hi =>
    have hrem : s.pc.remaining = [] := by rw [hpc]; exact drop_take_eq_nil m hi
    exact h.move rfl rfl rfl ⟨rfl, rfl⟩ hrem.symm trivial fun _ => trivial
  | notUpdated hpc =>
    exact h.move rfl rfl rfl ⟨rfl, rfl⟩ (by rw [hpc]; rfl) trivial (by rw [hpc]; exact False.elim)
  | updated stats time hpc =>
    exact h.move rfl rfl rfl ⟨rfl, rfl⟩ (by rw [hpc]; rfl) trivial (by rw [hpc]; exact False.elim)
  | reported hpc =>
    exact h.move rfl rfl rfl ⟨rfl, rfl⟩ (by rw [hpc]; rfl) trivial (by rw [hpc]; exact False.elim)
  | @report m ms hpc =>
    refine h.change trivial ?_ fun _ => ⟨by simp [hpc, Pc.Stopping], ?_⟩
    · rw [hpc]
      show 1 + 0 + s.queue.card = 0 + 0 + (m ::ₘ s.queue).card
      rw [Multiset.card_cons]
      omega
    · show s.queueSize + 1 + BitVec.ofNat 64 s.uncounted + BitVec.ofNat 64 0 =
        s.queueSize + BitVec.ofNat 64 s.uncounted + BitVec.ofNat 64 1
      bv_omega
  | stop hpc =>
    exact h.move rfl rfl rfl ⟨rfl, rfl⟩ (by rw [hpc]; rfl) trivial fun _ => trivial
  | close hpc =>
    exact h.move rfl rfl rfl ⟨rfl, rfl⟩ (by rw [hpc]; rfl) trivial fun _ => trivial

end Counted

variable [DecidableEq F]

/-- **In every state of a run the counter is balanced.** -/
theorem counted_of_run {cfg : Config F} {d : Databases F} {as : List Action} {s : State F}
    {o : List (Event F)} (h : run (step cfg) (started d) as = some (s, o)) : Counted as s o :=
  run_induction (motive := Counted) (.start d) (fun _ _ _ _ _ _ _ ih hs => ih.step hs) h

/-- In every state of the run in which `Process` is called. -/
def AtProcess (cfg : Config F) (d : Databases F) (as : List Action)
    (P : List Action → State F → List (Event F) → Prop) : Prop :=
  ∀ pre post s o, as = pre ++ .process :: post →
    run (step cfg) (started d) pre = some (s, o) → P pre s o

/-- The backlog that `Process` reports is at most the number of metrics that are queued and not
processed. -/
def BacklogBounded (cfg : Config F) (as : List Action) (s : State F) (o : List (Event F)) : Prop :=
  ∀ t es n, step cfg s .process = some (t, es) → Event.setQueueBacklog n ∈ es →
    n.toNat + processed as ≤ (enqueued o).length

/-- A report is right exactly if no more metrics are still to be counted than are in the queue. -/
theorem backlogBounded_iff {cfg : Config F} {as : List Action} {s : State F} {o : List (Event F)}
    (h : Counted as s o) (hidle : s.pc = .idle) :
    BacklogBounded cfg as s o ↔ s.uncounted % 2 ^ 64 ≤ s.queue.card := by
  have hlength := h.length
  have hcounter := h.counter (by simp [hidle, Pc.Stopping])
  simp only [hidle, Pc.remaining, List.length_nil, Nat.add_zero] at hlength
  have hstep : step cfg s .process =
      some ({ s with pc := .processLoop emptyBuffer }, [.setQueueBacklog s.queueSize]) := by
    simp only [step, hidle]
  have hbounded : BacklogBounded cfg as s o ↔
      s.queueSize.toNat + processed as ≤ (enqueued o).length := by
    constructor
    · intro hb
      exact hb _ _ _ hstep List.mem_cons_self
    · intro hle t es n hs hn
      rw [hstep] at hs
      obtain ⟨-, rfl⟩ := Prod.mk.inj (Option.some.inj hs)
      obtain rfl : n = s.queueSize := by simpa using hn
      exact hle
  rw [hbounded]
  have hnat := congrArg BitVec.toNat hcounter
  simp only [BitVec.toNat_add, BitVec.toNat_ofNat] at hnat
  have := s.queueSize.isLt
  omega

/-- **The backlog never wraps if and only if** in every state in which `Process` is called no more
metrics are still to be counted than are in the queue. -/
theorem backlog_iff (cfg : Config F) (d : Databases F) (as : List Action) (t : State F)
    (o : List (Event F)) (h : run (step cfg) (started d) as = some (t, o)) :
    AtProcess cfg d as (BacklogBounded cfg) ↔
      AtProcess cfg d as fun _ s _ => s.uncounted % 2 ^ 64 ≤ s.queue.card := by
  have hiff {pre post : List Action} {s : State F} {o' : List (Event F)}
      (has : as = pre ++ .process :: post) (hs : run (step cfg) (started d) pre = some (s, o')) :
      BacklogBounded cfg pre s o' ↔ s.uncounted % 2 ^ 64 ≤ s.queue.card := by
    obtain ⟨s', o₁, o₂, hpre, hpost, -⟩ := run_append_eq_some_iff.mp (has ▸ h)
    obtain ⟨rfl, rfl⟩ := Prod.mk.inj (Option.some.inj (hpre.symm.trans hs))
    obtain ⟨t', es, _, hstep, -⟩ := run_cons_eq_some_iff.mp hpost
    refine backlogBounded_iff (counted_of_run hs) ?_
    cases stepped_of_step hstep with
    | process hpc => exact hpc
  constructor
  · intro hb pre post s o' has hs
    exact (hiff has hs).mp (hb pre post s o' has hs)
  · intro hb pre post s o' has hs
    exact (hiff has hs).mpr (hb pre post s o' has hs)

/-- A metric is queued, and the thread takes it off the queue before it is counted. -/
def earlyRun : List Action :=
  [.enqueue cpuMetric, .process, .dequeue [cpuMetric],
    .element ⟨true, true, true, true, true, true⟩, .endBatch, .dequeue [], .poll none]

/-- A metric that is counted at once is reported. -/
theorem backlog_example : AtProcess plainConfig noDatabases [.enqueue cpuMetric, .count, .process]
    (BacklogBounded plainConfig) := by
  have hrun : ∃ p, run (step plainConfig) (started noDatabases)
      [.enqueue cpuMetric, .count, .process] = some p := ⟨_, rfl⟩
  obtain ⟨⟨t, o⟩, hrun⟩ := hrun
  refine (backlog_iff plainConfig noDatabases _ t o hrun).mpr ?_
  intro pre post s o has hs
  -- `Process` is the last action
  obtain rfl : pre = [.enqueue cpuMetric, .count] := by
    rcases pre with _ | ⟨a, _ | ⟨b, _ | ⟨c, pre⟩⟩⟩ <;> simp_all
  obtain ⟨rfl, rfl⟩ := Prod.mk.inj (Option.some.inj hs)
  decide

/-- The thread reports a backlog of 2^64 - 1 metrics. -/
theorem not_backlog : ¬ ∀ as t o, run (step plainConfig) (started noDatabases) as = some (t, o) →
    AtProcess plainConfig noDatabases as (BacklogBounded plainConfig) := by
  intro h
  have hearly : ∃ p ∈ run (step plainConfig) (started noDatabases) earlyRun,
      p.1.pc = .idle ∧ p.1.queueSize = BitVec.allOnes 64 ∧ (enqueued p.2).length = 1 := by
    decide +kernel
  obtain ⟨⟨s, o⟩, hrun, hidle, hsize, hlength⟩ := hearly
  have hstep : step plainConfig s .process =
      some ({ s with pc := .processLoop emptyBuffer }, [.setQueueBacklog s.queueSize]) := by
    simp only [step, show s.pc = .idle from hidle]
  have hfull := run_append_eq_some_iff.mpr
    ⟨s, o, _, hrun, (run_singleton s .process).trans hstep, rfl⟩
  have hle := h _ _ _ hfull earlyRun [] s o rfl hrun _ _ _ hstep List.mem_cons_self
  rw [show s.queueSize = BitVec.allOnes 64 from hsize,
    show (enqueued o).length = 1 from hlength] at hle
  exact absurd hle (by decide)

end SimpleTSDB.Datastore
