import SimpleTSDB.Datastore.Scan
import SimpleTSDB.Foundations.Ledger

/-!
# The handles of the databases

`sqlite3_open_v2` gives a handle even if it fails. `CacheDatabase` and `CreateDatabase` close theirs
if a later call fails, but not if the call itself does; `Stop` closes those of the connections. A
handle is known by the file that it has been opened for. `handles_settle` says that in every state
of every run the handles that are open are those of the connections and those of the calls that have
failed, so that no handle is closed twice.
-/

namespace SimpleTSDB.Datastore

open Ledger Transducer

variable {F : Type*} [DecidableEq F]

/-! ## The handles of a call -/

/-- The moves of `CacheDatabase`, and the handle that a failed call leaves. -/
def cacheHandles (cfg : Config F) (present : F → Bool) (disk : F → DbFile) (o : CacheOutcome)
    (store : List (Str × F)) (name path : Str) : List (Move F) × Multiset F :=
  let file := cfg.resolve path
  if (store.lookup name).isSome then ([], 0)
  else if !present file || !o.opened then ([.acquire file], {file})
  else if !o.verified then ([.acquire file, .release file], 0)
  else if !o.stepped then ([.acquire file, .release file], 0)
  else if (disk file).rows.isNone then ([.acquire file, .release file], 0)
  else if !o.prepared then ([.acquire file, .release file], 0)
  else ([.acquire file], 0)

/-- The moves of `CreateDatabase`, and the handle that a failed call leaves. -/
def createHandles (cfg : Config F) (o : Outcome) (disk : F → DbFile) (name : Str) :
    List (Move F) × Multiset F :=
  if name.length = 0 then ([], 0)
  else
    let file := cfg.resolve (cfg.path name)
    let db := disk file
    if !o.opened then ([.acquire file], {file})
    else if db.rows.isSome || !o.table then ([.acquire file, .release file], 0)
    else if db.index || !o.index then ([.acquire file, .release file], 0)
    else if !o.wal then ([.acquire file, .release file], 0)
    else if !o.prepared then ([.acquire file, .release file], 0)
    else ([.acquire file], 0)

/-- The handle of a new connection and the one that is left are open. -/
theorem settle_createHandles (cfg : Config F) (o : Outcome) (disk : F → DbFile) (name : Str) :
    settle 0 (createHandles cfg o disk name).1 =
      some ((createDatabase cfg o disk name).2.1.toList + (createHandles cfg o disk name).2) := by
  unfold createHandles createDatabase
  dsimp only
  split_ifs <;> simp_all

theorem settle_cacheHandles (cfg : Config F) (present : F → Bool) (disk : F → DbFile)
    (o : CacheOutcome) (store : List (Str × F)) (name path : Str) :
    settle (store.map Prod.snd : List F) (cacheHandles cfg present disk o store name path).1 =
      some (((cacheDatabase cfg present disk o store name path).1.map Prod.snd : List F) +
        (cacheHandles cfg present disk o store name path).2) := by
  unfold cacheHandles cacheDatabase
  dsimp only
  split_ifs <;> simp
  rw [← Multiset.coe_singleton, Multiset.coe_add]

/-! ## The scan -/

/-- The moves of the scan, and the handles that failed calls leave. -/
def scanHandles (cfg : Config F) (present : F → Bool) (disk : F → DbFile) (o : Str → CacheOutcome) :
    List (Str × F) → List (Str × Str) → List (Move F) × Multiset F
  | _, [] => ([], 0)
  | store, c :: cs =>
    let (ms, lost) := cacheHandles cfg present disk (o c.1) store c.2 (cfg.path c.2)
    let store := (cacheDatabase cfg present disk (o c.1) store c.2 (cfg.path c.2)).1
    let (ms', lost') := scanHandles cfg present disk o store cs
    (ms ++ ms', lost + lost')

theorem settle_scanHandles (cfg : Config F) (present : F → Bool) (disk : F → DbFile)
    (o : Str → CacheOutcome) (store : List (Str × F)) (calls : List (Str × Str)) :
    settle (store.map Prod.snd : List F) (scanHandles cfg present disk o store calls).1 =
      some (((cacheAll cfg present disk o store calls).map Prod.snd : List F) +
        (scanHandles cfg present disk o store calls).2) := by
  induction calls generalizing store with
  | nil => simp [scanHandles, cacheAll]
  | cons c cs ih =>
    have hone := settle_cacheHandles cfg present disk (o c.1) store c.2 (cfg.path c.2)
    have hrest := settle_add
      (ih (cacheDatabase cfg present disk (o c.1) store c.2 (cfg.path c.2)).1)
      (cacheHandles cfg present disk (o c.1) store c.2 (cfg.path c.2)).2
    rw [scanHandles]
    dsimp only
    rw [settle_append_of_eq hone, hrest, Multiset.add_assoc, Multiset.add_comm (scanHandles ..).2]
    rfl

/-! ## The thread -/

/-- The datastore, and the handles that failed calls have left. -/
structure Handles (F : Type*) where
  state : State F
  leaked : Multiset F

/-- The metric of a round of either loop over a batch. -/
def Pc.element : Pc → Option Metric
  | .processBatch m _ i => m[i]?
  | .stopBatch m _ i => m[i]?
  | _ => none

/-- The moves of the body of both loops, and the handle that a failed call leaves. -/
def storeHandles (cfg : Config F) (o : Outcome) (s : State F) (m : Metric) :
    List (Move F) × Multiset F :=
  match s.store.lookup m.name with
  | some _ => ([], 0)
  | none => createHandles cfg o s.disk m.name

/-- The moves of a step, and the handle that a failed call leaves. -/
def stepHandles (cfg : Config F) (s : State F) : Action → List (Move F) × Multiset F
  | .element o =>
    match s.pc.element with
    | some x => storeHandles cfg o s x
    | none => ([], 0)
  | .close => ((s.store.map Prod.snd).map .release, 0)
  | _ => ([], 0)

/-- A step of the datastore, with its moves. -/
def handleStep (cfg : Config F) (h : Handles F) (a : Action) :
    Option (Handles F × List (Move F)) :=
  (step cfg h.state a).map fun p =>
    (⟨p.1, h.leaked + (stepHandles cfg h.state a).2⟩, (stepHandles cfg h.state a).1)

/-- The handles that are open. -/
def Handles.held (h : Handles F) : Multiset F := (h.state.store.map Prod.snd : List F) + h.leaked

/-- **A round of a loop** opens the handle of the connection that it makes. -/
theorem settle_storeHandles (cfg : Config F) (o : Outcome) (s : State F) (m : Metric) :
    settle (s.store.map Prod.snd : List F) (storeHandles cfg o s m).1 =
      some (((storeMetric cfg o s m).1.store.map Prod.snd : List F) +
        (storeHandles cfg o s m).2) := by
  unfold storeHandles storeMetric
  cases s.store.lookup m.name with
  | some file => simp
  | none =>
    have hcreate := settle_add (settle_createHandles cfg o s.disk m.name)
      (s.store.map Prod.snd : List F)
    rw [Multiset.zero_add] at hcreate
    dsimp only
    rw [hcreate]
    obtain ⟨disk, conn, calls⟩ := createDatabase cfg o s.disk m.name
    rw [Multiset.add_comm, ← Multiset.add_assoc]
    cases conn with
    | none => simp
    | some file =>
      dsimp only
      rw [List.map_append, ← Multiset.coe_add]
      rfl

/-- **A step** opens and closes what it should. -/
theorem settle_handleStep {cfg : Config F} {h h' : Handles F} {a : Action} {ms : List (Move F)}
    (hs : handleStep cfg h a = some (h', ms)) : settle h.held ms = some h'.held := by
  obtain ⟨⟨t, es⟩, hstep, heq⟩ := Option.map_eq_some_iff.mp hs
  obtain ⟨rfl, rfl⟩ := Prod.mk.inj heq
  have helement {s : State F} {x : Metric} {o : Outcome} (hs : h.state.store = s.store) :
      settle h.held (storeHandles cfg o s x).1 =
        some (((storeMetric cfg o s x).1.store.map Prod.snd : List F) +
          (h.leaked + (storeHandles cfg o s x).2)) := by
    rw [Handles.held, hs, settle_add (settle_storeHandles cfg o s x) h.leaked, Multiset.add_assoc,
      Multiset.add_comm (storeHandles cfg o s x).2]
  cases stepped_of_step hstep with
  | processElement o hpc hi hx =>
    rw [stepHandles, hpc, Pc.element, hx]
    exact helement rfl
  | stopElement o hpc hi hx =>
    rw [stepHandles, hpc, Pc.element, hx]
    exact helement rfl
  | close hpc =>
    have hall : settle (h.state.store.map Prod.snd : List F)
        ((h.state.store.map Prod.snd).map .release) = some 0 := settle_releases rfl
    rw [Handles.held, stepHandles, settle_add hall]
    simp [Handles.held]
  | _ => simp [stepHandles, Handles.held]

/-- A datastore that is stopped has no connections. -/
theorem store_of_stopped {cfg : Config F} {h h' : Handles F} {as : List Action}
    {ms : List (Move F)} (hopen : h.state.pc ≠ .stopped)
    (hrun : run (handleStep cfg) h as = some (h', ms)) (hstop : h'.state.pc = .stopped) :
    h'.state.store = [] := by
  revert hstop
  refine run_induction (motive := fun _ h' _ => h'.state.pc = .stopped → h'.state.store = [])
    (fun hstop => absurd hstop hopen) (fun as t _ a t' _ _ ih hstep hstop => ?_) hrun
  obtain ⟨⟨s, es⟩, hs, heq⟩ := Option.map_eq_some_iff.mp hstep
  obtain ⟨rfl, -⟩ := Prod.mk.inj heq
  cases stepped_of_step hs with
  | close => rfl
  | enqueue => exact ih hstop
  | count => exact ih hstop
  | _ => cases hstop

/-- The datastore behind a scan that has found these connections, and the handles that it has
left. -/
def scanned (store : List (Str × F)) (disk : F → DbFile) (leaked : Multiset F) : Handles F where
  state := { queue := 0, queueSize := 0, uncounted := 0, store, disk, pc := .idle }
  leaked := leaked

/-- **The handles of a session**: in every state of every run the open ones are those of the
connections and those that failed calls have left, and when the datastore is stopped only these are
left. -/
theorem handles_settle (cfg : Config F) (present : F → Bool) (disk : F → DbFile)
    (o : Str → CacheOutcome) (entries : List DirEntry) (calls : List (Str × Str))
    (store : List (Str × F)) (running : Bool) (as : List Action) (h : Handles F)
    (ms : List (Move F)) (hcalls : scanCalls cfg.dbExt entries = some calls)
    (hstart : start cfg present disk o (some entries) = some (store, running))
    (hrun : run (handleStep cfg)
      (scanned store disk (scanHandles cfg present disk o [] calls).2) as = some (h, ms)) :
    settle 0 ((scanHandles cfg present disk o [] calls).1 ++ ms) = some h.held ∧
      (h.state.pc = .stopped →
        settle 0 ((scanHandles cfg present disk o [] calls).1 ++ ms) = some h.leaked) := by
  rw [start_eq, hcalls, Option.map_some, Option.some.injEq, Prod.mk.injEq] at hstart
  obtain ⟨rfl, -⟩ := hstart
  have hscan : settle 0 (scanHandles cfg present disk o [] calls).1 = some
      (scanned (cacheAll cfg present disk o [] calls) disk
        (scanHandles cfg present disk o [] calls).2).held :=
    settle_scanHandles cfg present disk o [] calls
  have hheld : settle 0 ((scanHandles cfg present disk o [] calls).1 ++ ms) = some h.held := by
    rw [settle_append_of_eq hscan]
    exact settle_run (fun _ _ _ _ => settle_handleStep) hrun
  refine ⟨hheld, fun hstop => ?_⟩
  have hstore := store_of_stopped (fun heq => by cases heq) hrun hstop
  rw [hheld, Handles.held, hstore]
  simp

/-- A scan of one database, a metric whose database cannot be opened, and the end. -/
def leakingRun : List Action :=
  [.enqueue { name := "mem".toList }, .count, .stop, .dequeue [{ name := "mem".toList }],
    .element ⟨false, true, true, true, true, true⟩, .endBatch, .dequeue [], .close]

theorem handles_settle_example :
    ∃ h ms, run (handleStep plainConfig)
        (scanned [("cpu".toList, "data/cpu.tsdb".toList)] (fun _ => { rows := some [] }) 0)
        leakingRun = some (h, ms) ∧
      settle 0 (.acquire "data/cpu.tsdb".toList :: ms) = some {"data/mem.tsdb".toList} := by
  refine ⟨_, _, rfl, ?_⟩
  exact (handles_settle plainConfig (fun _ => true) (fun _ => { rows := some [] }) (fun _ => .ok)
    [⟨"cpu.tsdb".toList, false⟩] [("cpu.tsdb".toList, "cpu".toList)] _ true leakingRun _ _ rfl rfl
    rfl).2 rfl

end SimpleTSDB.Datastore
