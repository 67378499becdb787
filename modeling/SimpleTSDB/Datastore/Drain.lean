import SimpleTSDB.Datastore.Filing

/-!
# Runs of the datastore

An invariant of every run in which the calls of SQLite succeed: what was queued is what was handed
out and what is still in the queue, and what was handed out is what is filed and what is left of the
current batch. At the end of a run the queue has been drained, so that everything queued is filed
(`datastore_filed`).
-/

namespace SimpleTSDB.Datastore

open Sqlite Transducer

variable {F : Type*}

namespace Pc

/-- The part of the batch that is still to be written. -/
def remaining : Pc → List Metric
  | .processBatch m count i => (m.take count).drop i
  | .stopBatch m count i => (m.take count).drop i
  | _ => []

/-- The internal metrics that are still to be queued. -/
def reports : Pc → List Metric
  | .report ms => ms
  | _ => []

/-- The batch fits the buffer. -/
def Filled : Pc → Prop
  | .processBatch m count _ => count ≤ m.length
  | .stopBatch m count _ => count ≤ m.length
  | _ => True

/-- `Stop` has been called. -/
def Stopping : Pc → Prop
  | .stopLoop _ => True
  | .stopBatch _ _ _ => True
  | .close => True
  | .stopped => True
  | _ => False

/-- The loop of `Stop` has ended. -/
def Drained : Pc → Prop
  | .close => True
  | .stopped => True
  | _ => False

theorem Drained.stopping {pc : Pc} (h : pc.Drained) : pc.Stopping := by
  cases pc <;> first | exact h | exact h.elim

/-- The connections in the cache: none are left at the end. -/
def cached (bs : List (Str × F)) : Pc → List (Str × F)
  | .stopped => []
  | _ => bs

end Pc

/-- Inside a batch, the next element of the buffer is the next metric to be written. -/
theorem drop_take_eq_cons {m : List Metric} {count i : ℕ} {x : Metric}
    (hi : i < count) (hx : m[i]? = some x) :
    (m.take count).drop i = x :: (m.take count).drop (i + 1) := by
  rw [List.getElem?_eq_some_iff] at hx
  obtain ⟨hlt, rfl⟩ := hx
  have hlen : i < (m.take count).length := by
    rw [List.length_take]
    omega
  rw [List.drop_eq_getElem_cons hlen, List.getElem_take]

theorem drop_take_eq_nil (m : List Metric) {count i : ℕ} (hi : ¬ i < count) :
    (m.take count).drop i = [] := by
  rw [List.drop_eq_nil_iff, List.length_take]
  omega

/-- The filled part of the buffer is the batch that was read into it. -/
theorem take_refill (batch m : List Metric) :
    ((refill batch m).take batch.length).drop 0 = batch := by
  rw [refill, List.take_left, List.drop_zero]

theorem length_le_refill (batch m : List Metric) : batch.length ≤ (refill batch m).length := by
  simp [refill]

theorem internalMetrics_name {cfg : Config F} {stats : Stats} {time : BitVec 64} :
    ∀ m ∈ internalMetrics cfg stats time, m.name ≠ [] := by
  simp [internalMetrics, Metric.ofFields]

/-- The metrics that have been written: those handed out but for the rest of the batch. -/
def written (s : State F) (o : List (Event F)) : List Metric :=
  (dequeued o).take ((dequeued o).length - s.pc.remaining.length)

theorem written_eq {s : State F} {o : List (Event F)} {done : List Metric}
    (h : dequeued o = done ++ s.pc.remaining) : written s o = done := by
  rw [written, h, List.length_append, Nat.add_sub_cancel, List.take_left]

/-- The invariant of a run by the actions `as` with the outputs `o`. -/
structure Inv (d : Databases F) (as : List Action) (s : State F) (o : List (Event F)) : Prop where
  balance : (enqueued o : Multiset Metric) = dequeued o + s.queue
  named : ∀ m ∈ enqueued o, m.name ≠ []
  internal : ∀ m ∈ s.pc.reports, m.name ≠ []
  filled : s.pc.Filled
  stopping : s.pc.Stopping → .stop ∈ as
  drained : s.pc.Drained → s.queue = 0
  creations : creations o = (connections o).map Prod.fst
  store : s.store = s.pc.cached (d.store ++ connections o)
  filed : ∃ done, dequeued o = done ++ s.pc.remaining ∧
    Filed d (d.store ++ connections o) done s.disk

namespace Inv

variable {d : Databases F} {as : List Action} {s : State F} {o : List (Event F)}

theorem start (d : Databases F) : Inv d [] (started d) [] where
  balance := rfl
  named := List.forall_mem_nil _
  internal := List.forall_mem_nil _
  filled := trivial
  stopping := False.elim
  drained := False.elim
  creations := rfl
  store := (List.append_nil _).symm
  filed := ⟨[], rfl, (List.append_nil d.store).symm ▸ Filed.start d⟩

/-- What has been written is filed. -/
theorem filed_written (h : Inv d as s o) :
    dequeued o = written s o ++ s.pc.remaining ∧
      Filed d (d.store ++ connections o) (written s o) s.disk := by
  obtain ⟨done, hdone, hfiled⟩ := h.filed
  rw [written_eq hdone]
  exact ⟨hdone, hfiled⟩

/-- Until the datastore is closed, the cache has all connections. -/
theorem store_eq (h : Inv d as s o) (hopen : s.pc ≠ .stopped) :
    s.store = d.store ++ connections o := by
  rw [h.store]
  cases hpc : s.pc with
  | stopped => exact absurd hpc hopen
  | _ => rfl

/-- The thread moves on, and nothing is queued, handed out or written. -/
theorem move (h : Inv d as s o) {a : Action} {t : State F} {es : List (Event F)}
    (he : enqueued es = [] ∧ dequeued es = [] ∧ Datastore.creations es = [] ∧ connections es = [])
    (hq : t.queue = s.queue) (hdisk : t.disk = s.disk)
    (hstore : t.store = t.pc.cached (d.store ++ connections o))
    (hrem : t.pc.remaining = s.pc.remaining) (hfill : t.pc.Filled)
    (hstop : t.pc.Stopping → s.pc.Stopping ∨ a = .stop) (hdrain : t.pc.Drained → s.pc.Drained)
    (hint : ∀ m ∈ t.pc.reports, m.name ≠ []) : Inv d (as ++ [a]) t (o ++ es) := by
  obtain ⟨he, hd, hcr, hco⟩ := he
  refine ⟨?_, ?_, hint, hfill, ?_, ?_, ?_, ?_, ?_⟩
  · simpa [he, hd, hq] using h.balance
  · simpa [he] using h.named
  · intro ht
    rcases hstop ht with ht | rfl
    · exact List.mem_append_left _ (h.stopping ht)
    · simp
  · exact fun ht => hq ▸ h.drained (hdrain ht)
  · simpa [hcr, hco] using h.creations
  · simpa [hco] using hstore
  · simpa [hd, hco, hrem, hdisk] using h.filed

/-- A metric is queued. -/
theorem enqueue (h : Inv d as s o) {a : Action} {t : State F} {m : Metric} (hm : m.name ≠ [])
    (hq : t.queue = m ::ₘ s.queue) (hdisk : t.disk = s.disk) (hstore : t.store = s.store)
    (hcached : t.pc.cached (d.store ++ connections o) = s.pc.cached (d.store ++ connections o))
    (hrem : t.pc.remaining = s.pc.remaining) (hfill : t.pc.Filled)
    (hstop : t.pc.Stopping → s.pc.Stopping) (hdrain : ¬ t.pc.Drained)
    (hint : ∀ m ∈ t.pc.reports, m.name ≠ []) :
    Inv d (as ++ [a]) t (o ++ [.enqueued m]) := by
  have he : enqueued [Event.enqueued (F := F) m] = [m] := rfl
  have hd : dequeued [Event.enqueued (F := F) m] = [] := rfl
  have hcr : Datastore.creations [Event.enqueued (F := F) m] = [] := rfl
  have hco : connections [Event.enqueued (F := F) m] = [] := rfl
  refine ⟨?_, ?_, hint, hfill, ?_, fun ht => absurd ht hdrain, ?_, ?_, ?_⟩
  · rw [enqueued_append, dequeued_append, he, hd, List.append_nil, hq, ← Multiset.coe_add,
      h.balance, Multiset.coe_singleton, ← Multiset.singleton_add]
    rw [Multiset.add_assoc, Multiset.add_comm s.queue]
  · simp only [enqueued_append, he, List.mem_append, List.mem_singleton]
    rintro x (hx | rfl)
    · exact h.named x hx
    · exact hm
  · exact fun ht => List.mem_append_left _ (h.stopping (hstop ht))
  · simpa [hcr, hco] using h.creations
  · simpa [hco, hstore, hcached] using h.store
  · simpa [hd, hco, hrem, hdisk] using h.filed

/-- A batch is handed out and read into the buffer. -/
theorem dequeue (h : Inv d as s o) {a : Action} {t : State F} {batch : List Metric}
    (hb : HandsOut s.queue batch) (hq : t.queue = s.queue - (batch : Multiset Metric))
    (hdisk : t.disk = s.disk) (hstore : t.store = s.store)
    (hcached : t.pc.cached (d.store ++ connections o) = s.pc.cached (d.store ++ connections o))
    (hrem : s.pc.remaining = []) (hrem' : t.pc.remaining = batch) (hfill : t.pc.Filled)
    (hstop : t.pc.Stopping → s.pc.Stopping) (hdrain : t.pc.Drained → batch = [])
    (hint : t.pc.reports = []) :
    Inv d (as ++ [a]) t (o ++ batch.map .dequeued) := by
  have he : enqueued (batch.map (Event.dequeued (F := F))) = [] := by
    simp [enqueued, List.filterMap_map]
  have hcr : Datastore.creations (batch.map (Event.dequeued (F := F))) = [] := by
    simp [Datastore.creations, List.filterMap_map]
  have hco : connections (batch.map (Event.dequeued (F := F))) = [] := by
    simp [connections, List.filterMap_map]
  refine ⟨?_, ?_, by simp [hint], hfill, ?_, ?_, ?_, ?_, ?_⟩
  · rw [enqueued_append, dequeued_append, he, dequeued_map, List.append_nil, hq, h.balance,
      ← Multiset.coe_add, Multiset.add_assoc, Multiset.add_comm _ (s.queue - _),
      Multiset.sub_add_cancel hb.2.1]
  · simpa [he] using h.named
  · exact fun ht => List.mem_append_left _ (h.stopping (hstop ht))
  · intro ht
    rw [hq, hdrain ht, hb.2.2 (hdrain ht)]
    rfl
  · simpa [hcr, hco] using h.creations
  · simpa [hco, hstore, hcached] using h.store
  · obtain ⟨done, hdone, hfiled⟩ := h.filed
    refine ⟨done, ?_, ?_⟩
    · rw [dequeued_append, dequeued_map, hdone, hrem, hrem', List.append_nil]
    · simpa [hco, hdisk] using hfiled

variable [DecidableEq F]

/-- The next metric of the batch is written. -/
theorem element (h : Inv d as s o) {a : Action} {cfg : Config F} {r : Outcome} {t u : State F}
    {es : List (Event F)} {x : Metric} {rest : List Metric} (hx : s.pc.remaining = x :: rest)
    (hs : storeMetric cfg r s x = (u, es)) (hok : AllOk es) (hq : t.queue = u.queue)
    (hdisk : t.disk = u.disk) (hstore : t.store = u.store)
    (hcached : ∀ bs : List (Str × F), s.pc.cached bs = bs ∧ t.pc.cached bs = bs)
    (hrem : t.pc.remaining = rest) (hfill : t.pc.Filled)
    (hstop : t.pc.Stopping → s.pc.Stopping) (hdrain : ¬ t.pc.Drained)
    (hint : t.pc.reports = []) : Inv d (as ++ [a]) t (o ++ es) := by
  obtain ⟨done, hdone, hfiled⟩ := h.filed
  have hstore₀ : s.store = d.store ++ connections o := by rw [h.store, (hcached _).1]
  -- the metric was queued, so that it has a name
  have hname : x.name ≠ [] := by
    refine h.named x ?_
    rw [← Multiset.mem_coe, h.balance, Multiset.mem_add, Multiset.mem_coe, hdone, hx]
    exact .inl (by simp)
  have hu : u.queue = s.queue := by
    have hframe := (storeMetric_frame cfg r s x).symm.trans hs
    exact (congrArg (fun p => p.1.queue) hframe).symm
  obtain ⟨he, hd, hcr, hco, hfiled'⟩ := storeMetric_filed hname (hstore₀ ▸ hfiled) hs hok
  rw [hstore₀, List.append_assoc] at hco
  refine ⟨?_, ?_, by simp [hint], hfill, ?_, fun ht => absurd ht hdrain, ?_, ?_,
    done ++ [x], ?_, ?_⟩
  · simpa [he, hd, hq, hu] using h.balance
  · simpa [he] using h.named
  · exact fun ht => List.mem_append_left _ (h.stopping (hstop ht))
  · simp [h.creations, hcr]
  · rw [hstore, hco, (hcached _).2, connections_append]
  · rw [dequeued_append, hd, List.append_nil, hdone, hx, hrem]
    simp
  · rw [hdisk, connections_append, ← hco]
    exact hfiled'

omit [DecidableEq F] in
/-- In a batch of either loop, the next element of the buffer is the next metric to be written. -/
theorem next_of_batch (h : Inv d as s o) {m : List Metric} {count i : ℕ} {x : Metric}
    (hpc : s.pc = .processBatch m count i ∨ s.pc = .stopBatch m count i) (hi : i < count)
    (hx : m[i]? = some x) :
    s.pc.remaining = x :: (m.take count).drop (i + 1) ∧ count ≤ m.length := by
  have hfill := h.filled
  rcases hpc with hpc | hpc <;> rw [hpc] at hfill ⊢ <;> exact ⟨drop_take_eq_cons hi hx, hfill⟩

/-- **Every step keeps the invariant**, if the calls of SQLite in it succeed. -/
theorem step (h : Inv d as s o) {cfg : Config F} {a : Action} {t : State F} {es : List (Event F)}
    (hname : ∀ m, a = .enqueue m → m.name ≠ []) (hlast : ∀ m, a = .enqueue m → .stop ∉ as)
    (hs : Datastore.step cfg s a = some (t, es)) (hok : AllOk es) :
    Inv d (as ++ [a]) t (o ++ es) := by
  cases stepped_of_step hs with
  | enqueue m =>
    have hdrain : ¬ s.pc.Drained := fun hd => hlast m rfl (h.stopping hd.stopping)
    exact h.enqueue (hname m rfl) rfl rfl rfl rfl rfl h.filled id hdrain h.internal
  | count hpos =>
    exact h.move ⟨rfl, rfl, rfl, rfl⟩ rfl rfl h.store rfl h.filled .inl id h.internal
  | process hpc =>
    exact h.move ⟨rfl, rfl, rfl, rfl⟩ rfl rfl (by simpa [hpc, Pc.cached] using h.store)
      (by rw [hpc]; rfl) trivial False.elim False.elim (List.forall_mem_nil _)
  | processEmpty hpc hb =>
    exact h.dequeue hb rfl rfl rfl (by rw [hpc]; rfl) (by rw [hpc]; rfl) rfl trivial
      False.elim (fun _ => rfl) rfl
  | @processBatch m batch hpc hb =>
    exact h.dequeue hb rfl rfl rfl (by rw [hpc]; rfl) (by rw [hpc]; rfl) (take_refill _ m)
      (length_le_refill _ m) False.elim False.elim rfl
  | stopEmpty hpc hb =>
    have hstop : s.pc.Stopping := by rw [hpc]; trivial
    exact h.dequeue hb rfl rfl rfl (by rw [hpc]; rfl) (by rw [hpc]; rfl) rfl trivial
      (fun _ => hstop) (fun _ => rfl) rfl
  | @stopBatch m batch hpc hb =>
    have hstop : s.pc.Stopping := by rw [hpc]; trivial
    exact h.dequeue hb rfl rfl rfl (by rw [hpc]; rfl) (by rw [hpc]; rfl) (take_refill _ m)
      (length_le_refill _ m) (fun _ => hstop) False.elim rfl
  | processElement r hpc hi hx =>
    obtain ⟨hrem, hfill⟩ := h.next_of_batch (.inl hpc) hi hx
    exact h.element hrem rfl hok rfl rfl rfl (fun bs => ⟨by rw [hpc]; rfl, rfl⟩) rfl hfill
      False.elim id rfl
  | stopElement r hpc hi hx =>
    obtain ⟨hrem, hfill⟩ := h.next_of_batch (.inr hpc) hi hx
    have hstop : s.pc.Stopping := by rw [hpc]; trivial
    exact h.element hrem rfl hok rfl rfl rfl (fun bs => ⟨by rw [hpc]; rfl, rfl⟩) rfl hfill
      (fun _ => hstop) id rfl
  | @processEnd m count i hpc hi =>
    have hrem : s.pc.remaining = [] := by rw [hpc]; exact drop_take_eq_nil m hi
    exact h.move ⟨rfl, rfl, rfl, rfl⟩ rfl rfl (by simpa [hpc, Pc.cached] using h.store)
      hrem.symm trivial False.elim False.elim (List.forall_mem_nil _)
  | @stopEnd m count i hpc hi =>
    have hrem : s.pc.remaining = [] := by rw [hpc]; exact drop_take_eq_nil m hi
    exact h.move ⟨rfl, rfl, rfl, rfl⟩ rfl rfl (by simpa [hpc, Pc.cached] using h.store)
      hrem.symm trivial (fun _ => .inl (by rw [hpc]; trivial)) False.elim
      (List.forall_mem_nil _)
  | notUpdated hpc =>
    exact h.move ⟨rfl, rfl, rfl, rfl⟩ rfl rfl (by simpa [hpc, Pc.cached] using h.store)
      (by rw [hpc]; rfl) trivial False.elim False.elim (List.forall_mem_nil _)
  | updated stats time hpc =>
    exact h.move ⟨rfl, rfl, rfl, rfl⟩ rfl rfl (by simpa [hpc, Pc.cached] using h.store)
      (by rw [hpc]; rfl) trivial False.elim False.elim internalMetrics_name
  | reported hpc =>
    exact h.move ⟨rfl, rfl, rfl, rfl⟩ rfl rfl (by simpa [hpc, Pc.cached] using h.store)
      (by rw [hpc]; rfl) trivial False.elim False.elim (List.forall_mem_nil _)
  | @report m ms hpc =>
    have hint : ∀ x ∈ m :: ms, x.name ≠ [] := by
      simpa only [hpc, Pc.reports] using h.internal
    rw [List.forall_mem_cons] at hint
    exact h.enqueue hint.1 rfl rfl rfl (by rw [hpc]; rfl) (by rw [hpc]; rfl) trivial
      False.elim id hint.2
  | stop hpc =>
    exact h.move ⟨rfl, rfl, rfl, rfl⟩ rfl rfl (by simpa [hpc, Pc.cached] using h.store)
      (by rw [hpc]; rfl) trivial (fun _ => .inr rfl) False.elim (List.forall_mem_nil _)
  | close hpc =>
    exact h.move ⟨rfl, rfl, rfl, rfl⟩ rfl rfl rfl (by rw [hpc]; rfl) trivial
      (fun _ => .inl (by rw [hpc]; trivial)) (fun _ => by rw [hpc]; trivial)
      (List.forall_mem_nil _)

end Inv

/-! ## Runs -/

/-- No front end queues a metric after `Stop` has been called. -/
def StopsLast (as : List Action) : Prop := as.Pairwise fun a b => a = .stop → ∀ m, b ≠ .enqueue m

variable [DecidableEq F]

/-- **Every run keeps the invariant.** -/
theorem inv_of_run {cfg : Config F} {d : Databases F} {as : List Action} {t : State F}
    {o : List (Event F)} (h : run (step cfg) (started d) as = some (t, o))
    (hnames : ∀ m, .enqueue m ∈ as → m.name ≠ []) (hstop : StopsLast as) (hok : AllOk o) :
    Inv d as t o := by
  refine run_induction (motive := fun as t o => (∀ m, .enqueue m ∈ as → m.name ≠ []) →
    StopsLast as → AllOk o → Inv d as t o) (fun _ _ _ => .start d) ?_ h hnames hstop hok
  intro as s o a t es _ ih hs hnames hstop hok
  rw [allOk_append] at hok
  rw [StopsLast, List.pairwise_append] at hstop
  have hinv := ih (fun m hm => hnames m (List.mem_append_left _ hm)) hstop.1 hok.1
  refine hinv.step (fun m hm => hnames m ?_) ?_ hs hok.2
  · simp [hm]
  · rintro m rfl hmem
    exact hstop.2.2 _ hmem _ (List.mem_singleton.mpr rfl) rfl m rfl

/-- **No datapoint is lost, duplicated or misfiled.** In every run in which the calls of SQLite
succeed there is one connection for each name, and databases are created for new names only; and
when the datastore has stopped, the queue is empty and the database of each name holds the rows it
had and then the queued metrics with that name, in the order in which they were handed out. -/
theorem datastore_filed (cfg : Config F) (d : Databases F) (as : List Action) (t : State F)
    (o : List (Event F)) (h : run (step cfg) (started d) as = some (t, o))
    (hnames : ∀ m, .enqueue m ∈ as → m.name ≠ []) (hstop : StopsLast as) (hok : AllOk o) :
    (t.store.map Prod.fst).Nodup ∧ (d.store.map Prod.fst ++ creations o).Nodup ∧
      (t.pc = .stopped → t.queue = 0 ∧ (dequeued o).Perm (enqueued o) ∧ ∀ name,
        match (d.store ++ connections o).lookup name with
        | some file => (t.disk file).rows = some ((d.disk file).rows.getD [] ++
            ((dequeued o).filter (·.name = name)).map rowOf)
        | none => ∀ m ∈ enqueued o, m.name ≠ name) := by
  have hinv := inv_of_run h hnames hstop hok
  obtain ⟨done, hdone, hfiled⟩ := hinv.filed
  refine ⟨?_, ?_, fun hpc => ?_⟩
  · rw [hinv.store]
    cases t.pc with
    | stopped => exact List.nodup_nil
    | _ => exact hfiled.names_nodup
  · rw [hinv.creations, ← List.map_append]
    exact hfiled.names_nodup
  · have hqueue : t.queue = 0 := hinv.drained (by rw [hpc]; trivial)
    have hperm : (dequeued o).Perm (enqueued o) := by
      have hbalance := hinv.balance
      rw [hqueue, Multiset.add_zero, Multiset.coe_eq_coe] at hbalance
      exact hbalance.symm
    have hdone : dequeued o = done := by simpa [hpc, Pc.remaining] using hdone
    refine ⟨hqueue, hperm, fun name => ?_⟩
    split
    next file hfile =>
      rw [hdone]
      exact hfiled.rows _ (mem_of_lookup hfile)
    next hnone =>
      rintro m hm rfl
      exact not_mem_of_lookup hnone (hfiled.known m (hdone ▸ hperm.mem_iff.mpr hm))

/-- A configuration in which a path is its own file. -/
def plainConfig : Config Str where
  dataDir := "data".toList
  dbExt := "tsdb".toList
  hostname := "host".toList
  resolve := id

/-- An empty data directory. -/
def noDatabases : Databases Str where
  store := []
  disk _ := {}
  names_nodup := List.nodup_nil
  files_nodup := List.nodup_nil
  table := nofun

/-- A metric of the value 0. -/
def cpuMetric : Metric := .ofFields "cpu".toList 1 (.fin false 0 0) "host=web01".toList

/-- A metric is queued, and `Stop` is called before an iteration has taken it off the queue. -/
def stopRun : List Action :=
  [.enqueue cpuMetric, .count, .stop, .dequeue [cpuMetric],
    .element ⟨true, true, true, true, true, true⟩, .endBatch, .dequeue [], .close]

theorem datastore_filed_example : ∃ t o, run (step plainConfig) (started noDatabases) stopRun =
    some (t, o) ∧ t.pc = .stopped ∧ t.queue = 0 ∧ (dequeued o).Perm (enqueued o) := by
  have hrun : ∃ p ∈ run (step plainConfig) (started noDatabases) stopRun,
      p.1.pc = .stopped ∧ AllOk p.2 := by decide +kernel
  obtain ⟨⟨t, o⟩, hrun, hpc, hok⟩ := hrun
  obtain ⟨-, -, h⟩ := datastore_filed plainConfig noDatabases stopRun t o hrun
    (by simp [stopRun, cpuMetric, Metric.ofFields]) (by simp [StopsLast, stopRun]) hok
  exact ⟨t, o, hrun, hpc, (h hpc).1, (h hpc).2.1⟩

end SimpleTSDB.Datastore
