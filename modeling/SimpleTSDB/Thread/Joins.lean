import SimpleTSDB.Thread.LifeCycle

/-!
# Waiting for threads

`Process` of the datastore and of the telnet interface stops the thread if the callback `Start` has
left the `m_Running` of the class unset, and `Stop` waits for the worker whose handle is stored:
the one that calls it. As long as no `Start` leaves `m_Running` unset, no worker stops the thread or
waits for itself (`no_self_join`).
-/

namespace SimpleTSDB.Thread

open Transducer

variable {proc : ProcKind} {s t : State} {o es : List Event}

/-- An event that a step of the owner may be. -/
def Event.OfOwner : Event → Prop
  | .created _ => True
  | .cleared => True
  | .wait none _ => True
  | .waited none _ => True
  | _ => False

theorem ofOwner_of_stopStep {exited : ℕ → Bool} {f f' : Fields} {pc : StopPc} {pc' : Option StopPc}
    (h : stopStep exited none f pc = some (f', pc', es)) :
    f'.procRunning = f.procRunning ∧ ∀ e ∈ es, e.OfOwner := by
  cases pc with
  | wait =>
    rw [stopStep] at h
    split at h
    · obtain ⟨rfl, rfl, rfl⟩ := h
      exact ⟨rfl, List.forall_mem_singleton.mpr trivial⟩
    · obtain ⟨rfl, rfl, rfl⟩ := h
      exact ⟨rfl, List.forall_mem_nil _⟩
  | waiting w =>
    rw [stopStep, Option.ite_none_right_eq_some] at h
    obtain ⟨-, h⟩ := h
    obtain ⟨rfl, rfl, rfl⟩ := h
    exact ⟨rfl, List.forall_mem_singleton.mpr trivial⟩
  | clearStarted =>
    obtain ⟨rfl, rfl, rfl⟩ := h
    exact ⟨rfl, List.forall_mem_singleton.mpr trivial⟩
  | _ =>
    obtain ⟨rfl, rfl, rfl⟩ := h
    exact ⟨rfl, List.forall_mem_nil _⟩

/-- The owner does not change the `m_Running` of the class. -/
theorem ofOwner_of_ownerStep {created : Bool} (h : ownerStep created s = some (t, es)) :
    t.procRunning = s.procRunning ∧ ∀ e ∈ es, e.OfOwner := by
  rw [ownerStep] at h
  split at h
  · cases h
  next pc hpc =>
    have hs := Option.some.inj h
    cases pc with
    | createThread =>
      rw [startStep] at hs
      split at hs
      · obtain ⟨rfl, rfl⟩ := Prod.mk.inj hs
        exact ⟨rfl, List.forall_mem_singleton.mpr trivial⟩
      · obtain ⟨rfl, rfl⟩ := Prod.mk.inj hs
        exact ⟨rfl, List.forall_mem_nil _⟩
    | _ =>
      obtain ⟨rfl, rfl⟩ := Prod.mk.inj hs
      exact ⟨rfl, List.forall_mem_nil _⟩
  next pc hpc =>
    obtain ⟨⟨f, pc', es'⟩, hstop, heq⟩ := Option.map_eq_some_iff.mp h
    obtain ⟨rfl, rfl⟩ := Prod.mk.inj heq
    exact ofOwner_of_stopStep hstop
  · obtain ⟨rfl, rfl⟩ := Prod.mk.inj (Option.some.inj h)
    exact ⟨rfl, List.forall_mem_nil _⟩
  · obtain ⟨rfl, rfl⟩ := Prod.mk.inj (Option.some.inj h)
    exact ⟨rfl, List.forall_mem_nil _⟩
  · obtain ⟨rfl, rfl⟩ := Prod.mk.inj (Option.some.inj h)
    exact ⟨rfl, List.forall_mem_nil _⟩
  · obtain ⟨rfl, rfl⟩ := Prod.mk.inj (Option.some.inj h)
    exact ⟨rfl, List.forall_mem_nil _⟩

/-- The run is sound so far: no worker has stopped the thread or waited, and `m_Running` of the
class is set if it has been started. -/
structure Sound (s : State) (o : List Event) : Prop where
  stopCalled : ∀ w, .stopCalled w ∉ o
  wait : ∀ v w, .wait (some v) w ∉ o
  running : ∀ w, .start ∈ history w o → s.procRunning = true

namespace Sound

theorem start : Sound {} [] where
  stopCalled _ := List.not_mem_nil
  wait _ _ := List.not_mem_nil
  running _ h := absurd h List.not_mem_nil

/-- Events that are no callback `Start`, no wait of a worker and no stop by a worker. -/
theorem frame (h : Sound s o) (ht : t.procRunning = s.procRunning)
    (hes : ∀ e ∈ es, ∀ v w b, e ≠ .stopCalled w ∧ e ≠ .wait (some v) w ∧ e ≠ .start w b) :
    Sound t (o ++ es) where
  stopCalled w hmem := by
    rcases List.mem_append.mp hmem with hmem | hmem
    · exact h.stopCalled w hmem
    · exact (hes _ hmem 0 w true).1 rfl
  wait v w hmem := by
    rcases List.mem_append.mp hmem with hmem | hmem
    · exact h.wait v w hmem
    · exact (hes _ hmem v w true).2.1 rfl
  running w hmem := by
    rw [history_append, List.mem_append] at hmem
    rcases hmem with hmem | hmem
    · exact ht.trans (h.running w hmem)
    · obtain ⟨e, he, hstage⟩ := List.mem_filterMap.mp hmem
      cases e with
      | start v b => exact absurd rfl (hes _ he 0 v b).2.2
      | waited agent v => cases agent <;> simp [stage] at hstage
      | _ => simp [stage] at hstage

/-- **A step** keeps a run sound, if no `Start` leaves `m_Running` unset. -/
theorem step (h : Sound s o) (hinv : Inv s o) {a : Action}
    (hs : step proc s a = some (t, es)) (hok : ∀ w, .start w false ∉ es) : Sound t (o ++ es) := by
  cases a with
  | call c =>
    simp only [Thread.step, Option.ite_none_right_eq_some, Option.some.injEq, Prod.mk.injEq] at hs
    obtain ⟨-, rfl, rfl⟩ := hs
    exact h.frame rfl (List.forall_mem_nil _)
  | owner created =>
    obtain ⟨hrunning, hevents⟩ := ofOwner_of_ownerStep hs
    refine h.frame hrunning fun e he v w b => ?_
    have hevent := hevents e he
    refine ⟨?_, ?_, ?_⟩ <;> rintro rfl <;> exact hevent
  | worker w ok =>
    obtain ⟨pc, hw, hs⟩ := Option.bind_eq_some_iff.mp hs
    have htold := (hinv.tracked w pc hw).told
    cases pc with
    | onStart =>
      obtain ⟨rfl, rfl⟩ := Prod.mk.inj (Option.some.inj hs)
      exact h.frame rfl (by simp)
    | procStart =>
      obtain ⟨rfl, rfl⟩ := Prod.mk.inj (Option.some.inj hs)
      have hrunning : (s.procRunning || ok) = true := by
        by_contra hfalse
        rw [Bool.not_eq_true] at hfalse
        exact hok w (by rw [hfalse]; exact List.mem_cons_self)
      exact ⟨fun v => by simpa using h.stopCalled v, fun v v' => by simpa using h.wait v v',
        fun _ _ => hrunning⟩
    | process =>
      have hstarted : .start ∈ history w o := by
        obtain ⟨n, hn⟩ := told_begun htold trivial (by simp)
        rw [hn]
        simp [begun]
      rw [workerStep, h.running w hstarted, Bool.not_true, Bool.and_false] at hs
      obtain ⟨rfl, rfl⟩ := Prod.mk.inj (Option.some.inj hs)
      exact h.frame rfl (by simp)
    | stopping pc => exact absurd htold not_told_stopping
    | procStop =>
      obtain ⟨rfl, rfl⟩ := Prod.mk.inj (Option.some.inj hs)
      exact h.frame rfl (by simp)
    | exited => cases hs
    | _ =>
      obtain ⟨rfl, rfl⟩ := Prod.mk.inj (Option.some.inj hs)
      exact h.frame rfl (List.forall_mem_nil _)

end Sound

/-- **A run in which no `Start` leaves `m_Running` unset is sound.** -/
theorem sound_of_run {as : List Action} (h : run (step proc) {} as = some (s, o))
    (hok : ∀ w, .start w false ∉ o) : Sound s o := by
  refine run_induction (motive := fun _ s o => (∀ w, .start w false ∉ o) → Sound s o)
    (fun _ => .start) ?_ h hok
  intro as s o a t es hrun ih hs hok
  simp only [List.mem_append, not_or, forall_and] at hok
  have hsound := ih hok.1
  exact hsound.step (inv_of_run hrun hsound.stopCalled) hs hok.2

/-! ## Waiting for oneself -/

/-- Has `Start` left `m_Running` unset? -/
def startFailed (o : List Event) : Bool := o.any fun | .start _ false => true | _ => false

theorem not_mem_of_startFailed {o : List Event} (h : startFailed o = false) (w : ℕ) :
    .start w false ∉ o := fun hmem => List.any_eq_false.mp h _ hmem rfl

/-- **No worker waits for itself** in a run in which every `Start` leaves `m_Running` set. -/
theorem no_self_join (proc : ProcKind) (as : List Action) (s : State) (o : List Event)
    (hrun : run (step proc) {} as = some (s, o)) (hok : ∀ w, .start w false ∉ o) :
    ∀ w, .wait (some w) w ∉ o :=
  fun w => (sound_of_run hrun hok).wait w w

/-- A run of the datastore in which `Start` succeeds. -/
theorem no_self_join_example : ∃ s o, run (step .datastore) {} fullRun = some (s, o) ∧
    ∀ w, .wait (some w) w ∉ o := by
  have hrun : ∃ p ∈ run (step .datastore) {} fullRun, startFailed p.2 = false := by decide +kernel
  obtain ⟨⟨s, o⟩, hrun, hok⟩ := hrun
  exact ⟨s, o, hrun, no_self_join .datastore fullRun s o hrun (not_mem_of_startFailed hok)⟩

/-- The thread is started, and `Start` of its class fails. -/
def failedStart : List Action :=
  startCall ++ List.replicate 10 (.worker 0 false)

/-- **The worker of a class whose `Start` has failed waits for itself.** -/
theorem self_join : ¬ ∀ (proc : ProcKind) (as : List Action) (s : State) (o : List Event),
    run (step proc) {} as = some (s, o) → ∀ w, .wait (some w) w ∉ o := by
  intro h
  have hrun : ∃ p ∈ run (step .telnetProcessor) {} failedStart, .wait (some 0) 0 ∈ p.2 := by
    decide +kernel
  obtain ⟨⟨s, o⟩, hrun, hwait⟩ := hrun
  exact h .telnetProcessor failedStart s o hrun 0 hwait

end SimpleTSDB.Thread
