import SimpleTSDB.Datastore.Drain

/-!
# The metrics of the datastore itself

Besides what the front ends queue, the datastore thread queues the internal metrics whenever the
statistics have been published. `enqueued_of_run` says that there is nothing else: in every run,
what has been queued, and what is left of the internal metrics being queued, is what the front ends
have queued and the internal metrics of every publication.
-/

namespace SimpleTSDB.Datastore

open Transducer

variable {F : Type*}

/-- The metrics that the front ends queue. -/
def enqueues (as : List Action) : List Metric :=
  as.filterMap fun | .enqueue m => some m | _ => none

/-- The statistics that the thread finds published. -/
def publications (as : List Action) : List (Stats × BitVec 64) :=
  as.filterMap fun | .poll stats => stats | _ => none

/-- The internal metrics of all publications. -/
def reported (cfg : Config F) (as : List Action) : List Metric :=
  (publications as).flatMap fun p => internalMetrics cfg p.1 p.2

theorem enqueues_append (as bs : List Action) : enqueues (as ++ bs) = enqueues as ++ enqueues bs :=
  List.filterMap_append

theorem publications_append (as bs : List Action) :
    publications (as ++ bs) = publications as ++ publications bs := List.filterMap_append

theorem reported_append (cfg : Config F) (as bs : List Action) :
    reported cfg (as ++ bs) = reported cfg as ++ reported cfg bs := by
  rw [reported, publications_append, List.flatMap_append]
  rfl

variable [DecidableEq F] {cfg : Config F}

/-- The metrics that a step takes from the queue. -/
def Action.batch : Action → List Metric
  | .dequeue batch => batch
  | _ => []

theorem step_dequeued {s t : State F} {a : Action} {es : List (Event F)}
    (hs : step cfg s a = some (t, es)) : dequeued es = a.batch := by
  cases stepped_of_step hs with
  | processBatch hpc hb => exact dequeued_map _
  | stopBatch hpc hb => exact dequeued_map _
  | processElement r hpc hi hx => exact (storeMetric_quiet cfg r s _).2
  | stopElement r hpc hi hx => exact (storeMetric_quiet cfg r s _).2
  | _ => rfl

/-- A batch is handed out, and nothing else is done. -/
theorem step_dequeue {s t : State F} {batch : List Metric} {es : List (Event F)}
    (hs : step cfg s (.dequeue batch) = some (t, es)) :
    enqueued es = [] ∧ dequeued es = batch := by
  refine ⟨?_, step_dequeued hs⟩
  cases stepped_of_step hs with
  | processBatch hpc hb => simp [enqueued, List.filterMap_map]
  | stopBatch hpc hb => simp [enqueued, List.filterMap_map]
  | _ => rfl

/-- A step that is not one of a front end queues the next internal metric, or nothing. -/
theorem step_reports {s t : State F} {a : Action} {es : List (Event F)}
    (hs : step cfg s a = some (t, es)) (ha : ∀ m, a ≠ .enqueue m) :
    enqueued es ++ t.pc.reports = s.pc.reports ++ reported cfg [a] := by
  cases stepped_of_step hs with
  | enqueue m => exact absurd rfl (ha m)
  | count hpos => exact (List.append_nil _).symm
  | processElement r hpc hi hx => rw [(storeMetric_quiet cfg r s _).1, hpc]; rfl
  | stopElement r hpc hi hx => rw [(storeMetric_quiet cfg r s _).1, hpc]; rfl
  | updated stats time hpc => rw [hpc]; rfl
  | report hpc => rw [hpc]; exact (List.append_nil _).symm
  | @processBatch m batch hpc hb =>
    rw [hpc]
    simp [enqueued, reported, publications, Pc.reports, List.filterMap_map]
  | @stopBatch m batch hpc hb =>
    rw [hpc]
    simp [enqueued, reported, publications, Pc.reports, List.filterMap_map]
  | process hpc => rw [hpc]; rfl
  | processEmpty hpc hb => rw [hpc]; rfl
  | stopEmpty hpc hb => rw [hpc]; rfl
  | processEnd hpc hi => rw [hpc]; rfl
  | stopEnd hpc hi => rw [hpc]; rfl
  | notUpdated hpc => rw [hpc]; rfl
  | reported hpc => rw [hpc]; rfl
  | stop hpc => rw [hpc]; rfl
  | close hpc => rw [hpc]; rfl

/-- **A step** queues a metric of a front end or an internal one, or nothing. -/
theorem step_enqueued {s t : State F} {a : Action} {es : List (Event F)}
    (hs : step cfg s a = some (t, es)) :
    (enqueued es ++ t.pc.reports).Perm (s.pc.reports ++ (enqueues [a] ++ reported cfg [a])) := by
  by_cases ha : ∃ m, a = .enqueue m
  · obtain ⟨m, rfl⟩ := ha
    obtain ⟨rfl, rfl⟩ := Prod.mk.inj (Option.some.inj hs)
    exact List.perm_append_comm
  · have hnone : enqueues [a] = [] := by
      cases a with
      | enqueue m => exact absurd ⟨m, rfl⟩ ha
      | _ => rfl
    rw [hnone, List.nil_append]
    exact .of_eq (step_reports hs (not_exists.mp ha))

/-- **What a run queues.** -/
theorem enqueued_of_run {d : Databases F} {as : List Action} {t : State F} {o : List (Event F)}
    (h : run (step cfg) (started d) as = some (t, o)) :
    (enqueued o ++ t.pc.reports).Perm (enqueues as ++ reported cfg as) := by
  refine run_induction
    (motive := fun as t o => (enqueued o ++ t.pc.reports).Perm (enqueues as ++ reported cfg as))
    .nil ?_ h
  intro as s o a t es _ ih hs
  rw [enqueued_append, enqueues_append, reported_append, List.append_assoc]
  have hstep := step_enqueued hs
  calc
    (enqueued o ++ (enqueued es ++ t.pc.reports)).Perm
        (enqueued o ++ (s.pc.reports ++ (enqueues [a] ++ reported cfg [a]))) :=
      hstep.append_left _
    List.Perm _ (enqueues as ++ reported cfg as ++ (enqueues [a] ++ reported cfg [a])) := by
      rw [← List.append_assoc]
      exact ih.append_right _
    List.Perm _ (enqueues as ++ enqueues [a] ++ (reported cfg as ++ reported cfg [a])) := by
      simp only [List.append_assoc]
      exact (List.perm_append_comm_assoc ..).append_left _

end SimpleTSDB.Datastore
