import SimpleTSDB.Datastore.Filing

/-!
# The names of a run

The names of the connections are those of the start and those of metrics that were queued: what
holds of these names, of the names of the internal metrics and of the empty name of an unused buffer
holds of every connection in a run (`names_of_run`).
-/

namespace SimpleTSDB.Datastore

open Transducer

variable {F : Type*}

/-- The metrics in the buffer of the thread. -/
def Pc.metrics : Pc → List Metric
  | .processLoop m => m
  | .processBatch m _ _ => m
  | .report ms => ms
  | .stopLoop m => m
  | .stopBatch m _ _ => m
  | _ => []

/-- The names of the internal metrics. -/
def internalNames : List Str :=
  ["tsdb.internal.putspersecond".toList, "tsdb.internal.writespersecond".toList,
    "tsdb.internal.queuebacklog".toList]

/-- All names of the state have a property. -/
structure Named (P : Str → Prop) (s : State F) : Prop where
  queue : ∀ m ∈ s.queue, P m.name
  store : ∀ p ∈ s.store, P p.1
  buffer : ∀ m ∈ s.pc.metrics, P m.name

theorem internalMetrics_names (cfg : Config F) (stats : Stats) (time : BitVec 64) :
    (internalMetrics cfg stats time).map Metric.name = internalNames := rfl

section Store

variable [DecidableEq F]

/-- Writing a metric connects no other name. -/
theorem storeMetric_store (cfg : Config F) (o : Outcome) (s : State F) (m : Metric) :
    ∀ p ∈ (storeMetric cfg o s m).1.store, p ∈ s.store ∨ p.1 = m.name := by
  intro p hp
  rw [storeMetric] at hp
  split at hp
  · exact .inl hp
  · split at hp
    · exact .inl hp
    · rcases List.mem_append.mp hp with hp | hp
      · exact .inl hp
      · exact .inr (congrArg Prod.fst (List.mem_singleton.mp hp))

end Store

namespace Named

variable {P : Str → Prop} {s : State F}

/-- Writing a metric whose name has the property. -/
theorem storeMetric [DecidableEq F] (h : Named P s) {m : Metric} (hm : P m.name) (cfg : Config F)
    (o : Outcome) : ∀ p ∈ (storeMetric cfg o s m).1.store, P p.1 := by
  intro p hp
  rcases storeMetric_store cfg o s m p hp with hp | hp
  · exact h.store p hp
  · rwa [hp]

/-- A buffer, after a batch has been read into it. -/
theorem refill (h : Named P s) {batch : List Metric} (hb : (batch : Multiset Metric) ≤ s.queue)
    {m : List Metric} (hm : ∀ x ∈ m, P x.name) : ∀ x ∈ refill batch m, P x.name := by
  intro x hx
  rcases List.mem_append.mp hx with hx | hx
  · exact h.queue x (Multiset.mem_of_le hb hx)
  · exact hm x (List.mem_of_mem_drop hx)

/-- **A step** introduces no name but that of a metric that it queues. -/
theorem step [DecidableEq F] (h : Named P s) {cfg : Config F} {a : Action} {t : State F}
    {es : List (Event F)} (hs : step cfg s a = some (t, es))
    (ha : ∀ m, a = .enqueue m → P m.name) (hempty : P [])
    (hinternal : ∀ name ∈ internalNames, P name) : Named P t := by
  have hunused : ∀ m ∈ emptyBuffer, P m.name := by
    intro m hm
    rw [List.eq_of_mem_replicate hm]
    exact hempty
  have hbuffer := h.buffer
  have hqueue (batch : List Metric) : ∀ m ∈ s.queue - (batch : Multiset Metric), P m.name :=
    fun m hm => h.queue m (Multiset.mem_of_le (Multiset.sub_le_self _ _) hm)
  cases stepped_of_step hs with
  | enqueue m => exact ⟨Multiset.forall_mem_cons.mpr ⟨ha m rfl, h.queue⟩, h.store, h.buffer⟩
  | count hpos => exact ⟨h.queue, h.store, h.buffer⟩
  | process hpc => exact ⟨h.queue, h.store, hunused⟩
  | processEmpty hpc hb => exact ⟨hqueue [], h.store, List.forall_mem_nil _⟩
  | @processBatch m batch hpc hb =>
    rw [hpc] at hbuffer
    exact ⟨hqueue batch, h.store, h.refill hb.2.1 hbuffer⟩
  | stopEmpty hpc hb => exact ⟨hqueue [], h.store, List.forall_mem_nil _⟩
  | @stopBatch m batch hpc hb =>
    rw [hpc] at hbuffer
    exact ⟨hqueue batch, h.store, h.refill hb.2.1 hbuffer⟩
  | processElement o hpc hi hx =>
    rw [hpc] at hbuffer
    rw [storeMetric_frame]
    exact ⟨h.queue, h.storeMetric (hbuffer _ (List.mem_of_getElem? hx)) cfg o, hbuffer⟩
  | stopElement o hpc hi hx =>
    rw [hpc] at hbuffer
    rw [storeMetric_frame]
    exact ⟨h.queue, h.storeMetric (hbuffer _ (List.mem_of_getElem? hx)) cfg o, hbuffer⟩
  | processEnd hpc hi =>
    rw [hpc] at hbuffer
    exact ⟨h.queue, h.store, hbuffer⟩
  | stopEnd hpc hi =>
    rw [hpc] at hbuffer
    exact ⟨h.queue, h.store, hbuffer⟩
  | notUpdated hpc => exact ⟨h.queue, h.store, List.forall_mem_nil _⟩
  | updated stats time hpc =>
    refine ⟨h.queue, h.store, fun m hm => hinternal _ ?_⟩
    rw [← internalMetrics_names cfg stats time]
    exact List.mem_map_of_mem hm
  | reported hpc => exact ⟨h.queue, h.store, List.forall_mem_nil _⟩
  | report hpc =>
    rw [hpc] at hbuffer
    obtain ⟨hm, hms⟩ := List.forall_mem_cons.mp hbuffer
    exact ⟨Multiset.forall_mem_cons.mpr ⟨hm, h.queue⟩, h.store, hms⟩
  | stop hpc => exact ⟨h.queue, h.store, hunused⟩
  | close hpc => exact ⟨h.queue, List.forall_mem_nil _, List.forall_mem_nil _⟩

end Named

/-- **Every run** keeps a property of the names. -/
theorem names_of_run [DecidableEq F] {P : Str → Prop} {cfg : Config F} {d : Databases F}
    {as : List Action} {t : State F} {o : List (Event F)}
    (h : run (step cfg) (started d) as = some (t, o)) (hd : ∀ p ∈ d.store, P p.1)
    (has : ∀ m, .enqueue m ∈ as → P m.name) (hempty : P [])
    (hinternal : ∀ name ∈ internalNames, P name) : Named P t := by
  refine run_induction (motive := fun as t _ => (∀ m, .enqueue m ∈ as → P m.name) → Named P t)
    (fun _ => ⟨by simp [started], hd, List.forall_mem_nil _⟩) ?_ h has
  intro as s o a t es _ ih hs has
  have hnamed := ih fun m hm => has m (List.mem_append_left _ hm)
  exact hnamed.step hs (fun m hm => has m (by simp [hm])) hempty hinternal

end SimpleTSDB.Datastore
