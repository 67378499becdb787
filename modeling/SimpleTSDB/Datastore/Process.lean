import Mathlib.Data.Multiset.AddSub
import SimpleTSDB.Datastore.Database
import SimpleTSDB.Foundations.Transducer

/-!
# The datastore thread

The datastore as a transducer: the front ends queue metrics, and the datastore thread takes them off
the queue in batches and writes them, in the iterations of `Process` and once more in `Stop`. Both
have a loop of their own over a buffer that is used again for every batch. One action is one atomic
step of a front end or of the thread, so that a run is an interleaving; what the queue hands out,
the results of SQLite and the statistics are chosen by the action. `stepped_of_step` lists what a
step does, for the invariants of the runs.
-/

namespace SimpleTSDB.Datastore

open Sqlite

/-- The capacity of a batch. -/
def bulkCount : ℕ := 10

/-- The statistics that are written to the datastore. -/
structure Stats where
  putsPerSecond : Double
  writesPerSecond : Double
  queueBacklog : Double

/-- Where the datastore thread is. In the loops, `m` is the buffer of the batch, `count` its filled
part and `i` the next element. -/
inductive Pc where
  | idle
  | processLoop (m : List Metric)
  | processBatch (m : List Metric) (count i : ℕ)
  | statistics
  | report (ms : List Metric)
  | stopLoop (m : List Metric)
  | stopBatch (m : List Metric) (count i : ℕ)
  | close
  | stopped
deriving DecidableEq

/-- The state of the datastore: the queue, its counter and the front ends that have queued a metric
but not counted it yet, the connections `m_Store`, the files, and the thread. -/
structure State (F : Type*) where
  queue : Multiset Metric
  queueSize : BitVec 64
  uncounted : ℕ
  store : List (Str × F)
  disk : F → DbFile
  pc : Pc

/-- An atomic step. -/
inductive Action where
  | enqueue (m : Metric)
  | count
  | process
  | dequeue (batch : List Metric)
  | element (o : Outcome)
  | endBatch
  | poll (stats : Option (Stats × BitVec 64))
  | report
  | stop
  | close

/-- What a step does to the outside. -/
inductive Event (F : Type*) where
  | enqueued (m : Metric)
  | dequeued (m : Metric)
  | sqlite (ok : Bool)
  | createDatabase (name : Str)
  | connected (name : Str) (file : F)
  | setQueueBacklog (n : BitVec 64)
  | addWriteCount (n : ℕ)
deriving DecidableEq

variable {F : Type*} [DecidableEq F]

/-- The datastore after a successful `Start` that has found the databases. -/
def started (d : Databases F) : State F where
  queue := 0
  queueSize := 0
  uncounted := 0
  store := d.store
  disk := d.disk
  pc := .idle

/-- The body of both loops over a batch: find the database in the cache, or create it, and write the
metric. -/
def storeMetric (cfg : Config F) (o : Outcome) (s : State F) (m : Metric) :
    State F × List (Event F) :=
  match s.store.lookup m.name with
  | some file =>
    let (disk, calls) := writeMetric o s.disk file m
    ({ s with disk }, calls.map .sqlite)
  | none =>
    match createDatabase cfg o s.disk m.name with
    | (disk, none, calls) => ({ s with disk }, .createDatabase m.name :: calls.map .sqlite)
    | (disk, some file, calls) =>
      let (disk, calls') := writeMetric o disk file m
      ({ s with
          disk
          store := s.store ++ [(m.name, file)] },
        .createDatabase m.name :: .connected m.name file :: (calls ++ calls').map .sqlite)

/-- The internal metrics of the statistics. -/
def internalMetrics (cfg : Config F) (stats : Stats) (timestamp : BitVec 64) : List Metric :=
  let tags := "host=".toList ++ cfg.hostname
  [.ofFields "tsdb.internal.putspersecond".toList timestamp stats.putsPerSecond tags,
    .ofFields "tsdb.internal.writespersecond".toList timestamp stats.writesPerSecond tags,
    .ofFields "tsdb.internal.queuebacklog".toList timestamp stats.queueBacklog tags]

/-- The queue may hand out the batch: at most as many metrics as fit, all of them queued, and none
only if the queue is empty. -/
def HandsOut (queue : Multiset Metric) (batch : List Metric) : Prop :=
  batch.length ≤ bulkCount ∧ (batch : Multiset Metric) ≤ queue ∧ (batch = [] → queue = 0)

instance (queue : Multiset Metric) (batch : List Metric) : Decidable (HandsOut queue batch) :=
  inferInstanceAs (Decidable (_ ∧ _ ∧ (_ → _)))

/-- `m`, after a batch has been read into it. -/
def refill (batch m : List Metric) : List Metric := batch ++ m.drop batch.length

/-- The buffer before the first batch. -/
def emptyBuffer : List Metric := List.replicate bulkCount {}

/-- A step of the datastore. -/
def step (cfg : Config F) (s : State F) : Action → Option (State F × List (Event F))
  -- `QueueMetric` in a front end
  | .enqueue m =>
    let uncounted := s.uncounted + 1
    some ({ s with queue := m ::ₘ s.queue, uncounted }, [.enqueued m])
  | .count =>
    if 0 < s.uncounted then
      let uncounted := s.uncounted - 1
      some ({ s with queueSize := s.queueSize + 1, uncounted }, [])
    else none
  -- `Process` is called
  | .process =>
    match s.pc with
    | .idle => some ({ s with pc := .processLoop emptyBuffer }, [.setQueueBacklog s.queueSize])
    | _ => none
  -- the head of either loop
  | .dequeue batch =>
    if HandsOut s.queue batch then
      let queue := s.queue - (batch : Multiset Metric)
      let count := batch.length
      match s.pc with
      | .processLoop m =>
        let pc := if 0 < count then .processBatch (refill batch m) count 0 else .statistics
        some ({ s with queue, pc }, batch.map .dequeued)
      | .stopLoop m =>
        let pc := if 0 < count then .stopBatch (refill batch m) count 0 else .close
        some ({ s with queue, pc }, batch.map .dequeued)
      | _ => none
    else none
  -- a round of either loop over a batch
  | .element o =>
    match s.pc with
    | .processBatch m count i =>
      if i < count then
        m[i]?.map fun x =>
          let (s, es) := storeMetric cfg o s x
          let pc := .processBatch m count (i + 1)
          ({ s with queueSize := s.queueSize - 1, pc }, es)
      else none
    | .stopBatch m count i =>
      if i < count then
        m[i]?.map fun x =>
          let (s, es) := storeMetric cfg o s x
          ({ s with pc := .stopBatch m count (i + 1) }, es)
      else none
    | _ => none
  -- the end of either loop over a batch
  | .endBatch =>
    match s.pc with
    | .processBatch m count i =>
      if i < count then none else some ({ s with pc := .processLoop m }, [.addWriteCount count])
    | .stopBatch m count i =>
      if i < count then none else some ({ s with pc := .stopLoop m }, [])
    | _ => none
  -- the statistics, if they are updated
  | .poll stats =>
    match s.pc, stats with
    | .statistics, none => some ({ s with pc := .idle }, [])
    | .statistics, some (stats, time) =>
      some ({ s with pc := .report (internalMetrics cfg stats time) }, [])
    | _, _ => none
  -- `QueueMetric` for an internal metric
  | .report =>
    match s.pc with
    | .report [] => some ({ s with pc := .idle }, [])
    | .report (m :: ms) =>
      let queueSize := s.queueSize + 1
      some ({ s with queue := m ::ₘ s.queue, queueSize, pc := .report ms }, [.enqueued m])
    | _ => none
  -- `Stop` is called
  | .stop =>
    match s.pc with
    | .idle => some ({ s with pc := .stopLoop emptyBuffer }, [])
    | _ => none
  -- close all database handles
  | .close =>
    match s.pc with
    | .close => some ({ s with store := [], pc := .stopped }, [])
    | _ => none

/-! ## The cases of a step -/

/-- What a step does, for each place of the thread. -/
inductive Stepped (cfg : Config F) (s : State F) : Action → State F → List (Event F) → Prop
  | enqueue (m : Metric) :
      Stepped cfg s (.enqueue m)
        { s with queue := m ::ₘ s.queue, uncounted := s.uncounted + 1 } [.enqueued m]
  | count (hpos : 0 < s.uncounted) :
      Stepped cfg s .count
        { s with queueSize := s.queueSize + 1, uncounted := s.uncounted - 1 } []
  | process (hpc : s.pc = .idle) :
      Stepped cfg s .process { s with pc := .processLoop emptyBuffer }
        [.setQueueBacklog s.queueSize]
  | processEmpty {m : List Metric} (hpc : s.pc = .processLoop m) (hb : HandsOut s.queue []) :
      Stepped cfg s (.dequeue [])
        { s with queue := s.queue - ([] : List Metric), pc := .statistics } []
  | processBatch {m batch : List Metric} (hpc : s.pc = .processLoop m)
      (hb : HandsOut s.queue batch) :
      Stepped cfg s (.dequeue batch)
        { s with
          queue := s.queue - batch
          pc := .processBatch (refill batch m) batch.length 0 } (batch.map .dequeued)
  | stopEmpty {m : List Metric} (hpc : s.pc = .stopLoop m) (hb : HandsOut s.queue []) :
      Stepped cfg s (.dequeue [])
        { s with queue := s.queue - ([] : List Metric), pc := .close } []
  | stopBatch {m batch : List Metric} (hpc : s.pc = .stopLoop m) (hb : HandsOut s.queue batch) :
      Stepped cfg s (.dequeue batch)
        { s with
          queue := s.queue - batch
          pc := .stopBatch (refill batch m) batch.length 0 } (batch.map .dequeued)
  | processElement {m : List Metric} {count i : ℕ} (o : Outcome) {x : Metric}
      (hpc : s.pc = .processBatch m count i) (hi : i < count) (hx : m[i]? = some x) :
      Stepped cfg s (.element o)
        { (storeMetric cfg o s x).1 with
          queueSize := (storeMetric cfg o s x).1.queueSize - 1
          pc := .processBatch m count (i + 1) } (storeMetric cfg o s x).2
  | stopElement {m : List Metric} {count i : ℕ} (o : Outcome) {x : Metric}
      (hpc : s.pc = .stopBatch m count i) (hi : i < count) (hx : m[i]? = some x) :
      Stepped cfg s (.element o)
        { (storeMetric cfg o s x).1 with pc := .stopBatch m count (i + 1) }
        (storeMetric cfg o s x).2
  | processEnd {m : List Metric} {count i : ℕ} (hpc : s.pc = .processBatch m count i)
      (hi : ¬ i < count) :
      Stepped cfg s .endBatch { s with pc := .processLoop m } [.addWriteCount count]
  | stopEnd {m : List Metric} {count i : ℕ} (hpc : s.pc = .stopBatch m count i)
      (hi : ¬ i < count) : Stepped cfg s .endBatch { s with pc := .stopLoop m } []
  | notUpdated (hpc : s.pc = .statistics) : Stepped cfg s (.poll none) { s with pc := .idle } []
  | updated (stats : Stats) (time : BitVec 64) (hpc : s.pc = .statistics) :
      Stepped cfg s (.poll (some (stats, time)))
        { s with pc := .report (internalMetrics cfg stats time) } []
  | reported (hpc : s.pc = .report []) : Stepped cfg s .report { s with pc := .idle } []
  | report {m : Metric} {ms : List Metric} (hpc : s.pc = .report (m :: ms)) :
      Stepped cfg s .report
        { s with
          queue := m ::ₘ s.queue
          queueSize := s.queueSize + 1
          pc := .report ms } [.enqueued m]
  | stop (hpc : s.pc = .idle) : Stepped cfg s .stop { s with pc := .stopLoop emptyBuffer } []
  | close (hpc : s.pc = .close) : Stepped cfg s .close { s with store := [], pc := .stopped } []

/-- **Every step is one of the cases.** -/
theorem stepped_of_step {cfg : Config F} {s t : State F} {a : Action} {es : List (Event F)}
    (h : step cfg s a = some (t, es)) : Stepped cfg s a t es := by
  cases a with
  | enqueue m =>
    obtain ⟨rfl, rfl⟩ := Prod.mk.inj (Option.some.inj h)
    exact .enqueue m
  | count =>
    obtain ⟨hpos, h⟩ := Option.ite_none_right_eq_some.mp h
    obtain ⟨rfl, rfl⟩ := Prod.mk.inj (Option.some.inj h)
    exact .count hpos
  | process =>
    simp only [step] at h
    split at h
    next hpc =>
      obtain ⟨rfl, rfl⟩ := Prod.mk.inj (Option.some.inj h)
      exact .process hpc
    · cases h
  | dequeue batch =>
    obtain ⟨hb, h⟩ := Option.ite_none_right_eq_some.mp h
    dsimp only at h
    split at h
    next m hpc =>
      obtain ⟨rfl, rfl⟩ := Prod.mk.inj (Option.some.inj h)
      cases batch with
      | nil => exact .processEmpty hpc hb
      | cons x xs => exact .processBatch hpc hb
    next m hpc =>
      obtain ⟨rfl, rfl⟩ := Prod.mk.inj (Option.some.inj h)
      cases batch with
      | nil => exact .stopEmpty hpc hb
      | cons x xs => exact .stopBatch hpc hb
    · cases h
  | element o =>
    simp only [step] at h
    split at h
    next m count i hpc =>
      obtain ⟨hi, h⟩ := Option.ite_none_right_eq_some.mp h
      obtain ⟨x, hx, heq⟩ := Option.map_eq_some_iff.mp h
      obtain ⟨rfl, rfl⟩ := Prod.mk.inj heq
      exact .processElement o hpc hi hx
    next m count i hpc =>
      obtain ⟨hi, h⟩ := Option.ite_none_right_eq_some.mp h
      obtain ⟨x, hx, heq⟩ := Option.map_eq_some_iff.mp h
      obtain ⟨rfl, rfl⟩ := Prod.mk.inj heq
      exact .stopElement o hpc hi hx
    · cases h
  | endBatch =>
    simp only [step] at h
    split at h
    next m count i hpc =>
      obtain ⟨hi, h⟩ := Option.ite_none_left_eq_some.mp h
      obtain ⟨rfl, rfl⟩ := Prod.mk.inj (Option.some.inj h)
      exact .processEnd hpc hi
    next m count i hpc =>
      obtain ⟨hi, h⟩ := Option.ite_none_left_eq_some.mp h
      obtain ⟨rfl, rfl⟩ := Prod.mk.inj (Option.some.inj h)
      exact .stopEnd hpc hi
    · cases h
  | poll stats =>
    simp only [step] at h
    split at h
    next hpc =>
      obtain ⟨rfl, rfl⟩ := Prod.mk.inj (Option.some.inj h)
      exact .notUpdated hpc
    next stats time hpc =>
      obtain ⟨rfl, rfl⟩ := Prod.mk.inj (Option.some.inj h)
      exact .updated stats time hpc
    · cases h
  | report =>
    simp only [step] at h
    split at h
    next hpc =>
      obtain ⟨rfl, rfl⟩ := Prod.mk.inj (Option.some.inj h)
      exact .reported hpc
    next m ms hpc =>
      obtain ⟨rfl, rfl⟩ := Prod.mk.inj (Option.some.inj h)
      exact .report hpc
    · cases h
  | stop =>
    simp only [step] at h
    split at h
    next hpc =>
      obtain ⟨rfl, rfl⟩ := Prod.mk.inj (Option.some.inj h)
      exact .stop hpc
    · cases h
  | close =>
    simp only [step] at h
    split at h
    next hpc =>
      obtain ⟨rfl, rfl⟩ := Prod.mk.inj (Option.some.inj h)
      exact .close hpc
    · cases h

end SimpleTSDB.Datastore
