import SimpleTSDB.Thread.Machine

/-!
# The life cycle of a worker

As long as only the owner stops the thread, there is at most one worker that has not exited, and the
owner knows its handle whenever it could create another one (`Phase`). A worker that finds
`m_Started` set when it is first scheduled makes the callbacks `Start`, any number of `Process` and
`Stop`; one that finds it cleared makes only `Stop`. `lifeCycle` is the theorem for all runs.
-/

namespace SimpleTSDB.Thread

open Transducer

/-! ## Histories -/

/-- What is recorded of a worker: its first look at `m_Started`, its callbacks, and that the owner
has waited for it. -/
inductive Stage where
  | checked (started : Bool)
  | start
  | process
  | stop
  | joined
deriving DecidableEq

/-- The stage of a worker that an event is. -/
def stage (w : ℕ) : Event → Option Stage
  | .checked v started => if v = w then some (.checked started) else none
  | .start v _ => if v = w then some .start else none
  | .process v => if v = w then some .process else none
  | .stop v => if v = w then some .stop else none
  | .waited none v => if v = w then some .joined else none
  | _ => none

/-- The history of a worker. -/
def history (w : ℕ) (o : List Event) : List Stage := o.filterMap (stage w)

/-- `Start` and some calls of `Process`, for a worker that has found `m_Started` set. -/
def begun (n : ℕ) : List Stage := .checked true :: .start :: List.replicate n .process

/-- A history that is complete but for the wait of the owner. -/
def Finished (h : List Stage) : Prop :=
  (∃ n, h = begun n ++ [.stop]) ∨ h = [.checked false, .stop]

/-- The worker is in the loop of `OnProcess`. -/
def WorkerPc.InLoop : WorkerPc → Prop
  | .loop => True
  | .testRunning => True
  | .testPaused => True
  | .process => True
  | .testPausing => True
  | .setPaused => True
  | _ => False

/-- What the history of a worker is, by the place where it is. A worker that has skipped `Start`
does so because `m_Started` is cleared for good. -/
inductive Told : Bool → WorkerPc → List Stage → Prop
  | created {started} : Told started .onStart []
  | checked {started} : Told started .procStart [.checked true]
  | skipped : Told false .loop [.checked false]
  | inLoop {started pc n} (hpc : pc.InLoop) : Told started pc (begun n)
  | leaving {started n} : Told started .procStop (begun n)
  | leavingSkipped {started} : Told started .procStop [.checked false]
  | exited {started h} (hh : Finished h) : Told started .exited h
  | joined {started h} (hh : Finished h) : Told started .exited (h ++ [.joined])

/-- What is known of a worker. -/
structure Tracked (s : State) (o : List Event) (w : ℕ) (pc : WorkerPc) : Prop where
  told : Told s.started pc (history w o)
  created : .created w ∈ o
  cleared : pc = .onStart → s.started = false → [.created w, .cleared].Sublist o
  skipped : .checked false ∈ history w o →
    [.created w, .cleared, .checked w false].Sublist o

/-- All workers have exited. -/
def AllExited (s : State) : Prop :=
  ∀ (w : ℕ) (pc : WorkerPc), s.workers[w]? = some pc → pc = .exited

/-- The last worker is the only one that need not have exited, and it has not been waited for. -/
structure Current (s : State) (o : List Event) (w : ℕ) : Prop where
  last : w + 1 = s.workers.length
  others : ∀ v pc, s.workers[v]? = some pc → v ≠ w → pc = .exited
  not_joined : .joined ∉ history w o

/-- `m_Started` when there is no worker, if that is possible where the owner is. -/
def OwnerPc.absent : OwnerPc → Option Bool
  | .start .createThread => some true
  | .start (.setHandle none) => some true
  | .start (.setHandle (some _)) => none
  | .start .testHandle => some true
  | .start .failed => some true
  | .start .setRunning => none
  | .stop .wait => none
  | .stop (.waiting _) => none
  | .stop .clearHandle => none
  | _ => some false

/-- `m_Started` when there is a worker whose handle is stored, if that is possible where the owner
is. -/
def OwnerPc.present : OwnerPc → Option Bool
  | .start .testStarted => some true
  | .start .testHandle => some true
  | .start .setRunning => some true
  | .start _ => none
  | .stop .clearRunning => some true
  | .stop .clearStarted => some true
  | .stop .clearHandle => none
  | .stop .deleteHelper => none
  | .stop _ => some false
  | _ => some true

/-- The owner is neither inside of `Start` nor of `Stop`. -/
def OwnerPc.Settled : OwnerPc → Prop
  | .start .testStarted => True
  | .start _ => False
  | .stop .clearRunning => True
  | .stop _ => False
  | _ => True

theorem OwnerPc.Settled.spec {pc : OwnerPc} (h : pc.Settled) :
    pc.absent = some false ∧ pc.present = some true ∧ ∀ v, pc ≠ .stop (.waiting v) := by
  cases pc with
  | start pc => cases pc <;> first | exact ⟨rfl, rfl, by simp⟩ | exact h.elim
  | stop pc => cases pc <;> first | exact ⟨rfl, rfl, by simp⟩ | exact h.elim
  | _ => exact ⟨rfl, rfl, by simp⟩

/-- The owner and the workers: there is none, one is being created, its handle is stored, or it has
been waited for. -/
inductive Phase (s : State) (o : List Event) : Prop
  | absent (howner : s.owner.absent = some s.started) (hhandle : s.handle = none)
    (hexited : AllExited s)
  | creating (w : ℕ) (howner : s.owner = .start (.setHandle (some w))) (hstarted : s.started = true)
    (hhandle : s.handle = none) (hcurrent : Current s o w)
  | present (w : ℕ) (howner : s.owner.present = some s.started) (hhandle : s.handle = some w)
    (hwaiting : ∀ v, s.owner = .stop (.waiting v) → v = w) (hcurrent : Current s o w)
  | joined (howner : s.owner = .stop .clearHandle) (hstarted : s.started = false)
    (hexited : AllExited s)

/-- The invariant of a run in which no worker stops the thread. -/
structure Inv (s : State) (o : List Event) : Prop where
  phase : Phase s o
  fresh : ∀ w, s.workers.length ≤ w → history w o = []
  tracked : ∀ w pc, s.workers[w]? = some pc → Tracked s o w pc

@[simp] theorem history_append (w : ℕ) (o es : List Event) :
    history w (o ++ es) = history w o ++ history w es := List.filterMap_append

theorem told_started {started started' : Bool} {pc : WorkerPc} {h : List Stage}
    (ht : Told started pc h) (hs : started = started' ∨ started' = false ∨ pc = .exited) :
    Told started' pc h := by
  cases ht with
  | skipped =>
    rcases hs with rfl | rfl | hs
    · exact .skipped
    · exact .skipped
    · cases hs
  | created => exact .created
  | checked => exact .checked
  | inLoop hpc => exact .inLoop hpc
  | leaving => exact .leaving
  | leavingSkipped => exact .leavingSkipped
  | exited hh => exact .exited hh
  | joined hh => exact .joined hh

theorem told_onStart {started : Bool} {h : List Stage} (ht : Told started .onStart h) : h = [] := by
  cases ht with
  | created => rfl
  | inLoop hpc => cases hpc

theorem told_procStart {started : Bool} {h : List Stage} (ht : Told started .procStart h) :
    h = [.checked true] := by
  cases ht with
  | checked => rfl
  | inLoop hpc => cases hpc

/-- No worker stops the thread. -/
theorem not_told_stopping {started : Bool} {pc : StopPc} {h : List Stage} :
    ¬ Told started (.stopping pc) h := by
  intro ht
  cases ht with
  | inLoop hpc => cases hpc

/-- Inside the loop, `Start` has been called unless `m_Started` is cleared at its head. -/
theorem told_loop {started : Bool} {pc : WorkerPc} {h : List Stage} (ht : Told started pc h)
    (hpc : pc.InLoop) :
    (∃ n, h = begun n) ∨ pc = .loop ∧ started = false ∧ h = [.checked false] := by
  cases ht with
  | skipped => exact .inr ⟨rfl, rfl, rfl⟩
  | inLoop => exact .inl ⟨_, rfl⟩
  | created => cases hpc
  | checked => cases hpc
  | leaving => cases hpc
  | leavingSkipped => cases hpc
  | exited => cases hpc
  | joined => cases hpc

/-- Inside the loop behind its head, `Start` has been called. -/
theorem told_begun {started : Bool} {pc : WorkerPc} {h : List Stage} (ht : Told started pc h)
    (hpc : pc.InLoop) (hloop : pc ≠ .loop) : ∃ n, h = begun n :=
  (told_loop ht hpc).resolve_right fun hskipped => hloop hskipped.1

/-- A worker that has exited and has not been waited for. -/
theorem told_exited {started : Bool} {h : List Stage} (ht : Told started .exited h)
    (hjoined : .joined ∉ h) : Finished h := by
  cases ht with
  | inLoop hpc => cases hpc
  | exited hh => exact hh
  | joined hh => exact absurd (by simp) hjoined

/-- A worker that leaves finishes its history with `Stop`. -/
theorem told_procStop {started : Bool} {h : List Stage} (ht : Told started .procStop h) :
    Finished (h ++ [.stop]) := by
  cases ht with
  | inLoop hpc => cases hpc
  | leaving => exact .inl ⟨_, rfl⟩
  | leavingSkipped => exact .inr rfl

/-- A worker goes on, and it has not looked at `m_Started` for the first time. -/
theorem Tracked.next {s t : State} {o es : List Event} {w : ℕ} {pc pc' : WorkerPc}
    (h : Tracked s o w pc) (hpc : pc' ≠ .onStart)
    (htold : Told t.started pc' (history w o ++ history w es))
    (hes : .checked false ∉ history w es) : Tracked t (o ++ es) w pc' := by
  refine ⟨by rwa [history_append], List.mem_append_left _ h.created, (absurd · hpc), ?_⟩
  rw [history_append, List.mem_append]
  rintro (hmem | hmem)
  · exact (h.skipped hmem).trans (List.sublist_append_left _ _)
  · exact absurd hmem hes

/-- Nothing has happened to the workers. -/
theorem Current.frame {s t : State} {o es : List Event} {w : ℕ} (h : Current s o w)
    (hworkers : t.workers = s.workers) (hes : history w es = []) : Current t (o ++ es) w := by
  obtain ⟨hlast, hothers, hjoined⟩ := h
  rw [← hworkers] at hlast hothers
  exact ⟨hlast, hothers, by rwa [history_append, hes, List.append_nil]⟩

/-- Between the creation of a worker and the end of the wait for it, its handle is stored. -/
theorem Phase.absent_or_present {s : State} {o : List Event} (h : Phase s o) {a : OwnerPc}
    (hpc : s.owner = a) (ha : a.absent.isSome ∨ a.present.isSome) :
    (a.absent = some s.started ∧ s.handle = none ∧ AllExited s) ∨
      ∃ w, a.present = some s.started ∧ s.handle = some w ∧
        (∀ v, a = .stop (.waiting v) → v = w) ∧ Current s o w := by
  subst hpc
  cases h with
  | absent ho hh hexited => exact .inl ⟨ho, hh, hexited⟩
  | creating w ho =>
    rw [ho] at ha
    simp [OwnerPc.absent, OwnerPc.present] at ha
  | present w ho hh hwaiting hcurrent => exact .inr ⟨w, ho, hh, hwaiting, hcurrent⟩
  | joined ho =>
    rw [ho] at ha
    simp [OwnerPc.absent, OwnerPc.present] at ha

theorem Phase.only_absent {s : State} {o : List Event} (h : Phase s o) {a : OwnerPc}
    (hpc : s.owner = a) (ha : a.absent.isSome) (hpresent : a.present = none) :
    a.absent = some s.started ∧ s.handle = none ∧ AllExited s := by
  rcases h.absent_or_present hpc (.inl ha) with h | ⟨w, ho, -⟩
  · exact h
  · rw [hpresent] at ho
    cases ho

theorem Phase.only_present {s : State} {o : List Event} (h : Phase s o) {a : OwnerPc}
    (hpc : s.owner = a) (ha : a.present.isSome) (habsent : a.absent = none) :
    ∃ w, a.present = some s.started ∧ s.handle = some w ∧
      (∀ v, a = .stop (.waiting v) → v = w) ∧ Current s o w := by
  rcases h.absent_or_present hpc (.inr ha) with ⟨ho, -⟩ | h
  · rw [habsent] at ho
    cases ho
  · exact h

namespace Inv

variable {s t : State} {o es : List Event}

theorem start : Inv {} [] where
  phase := .absent rfl rfl (by simp [AllExited])
  fresh _ _ := rfl
  tracked w pc h := by cases h

/-- A step in which no worker moves: the owner may clear `m_Started`, or change it when all workers
have exited. -/
theorem tracked_frame (h : Inv s o) (hworkers : t.workers = s.workers)
    (hes : ∀ w, history w es = [])
    (hstarted : s.started = t.started ∨ (t.started = false ∧ .cleared ∈ es) ∨ AllExited s) :
    ∀ w pc, t.workers[w]? = some pc → Tracked t (o ++ es) w pc := by
  intro w pc hpc
  rw [hworkers] at hpc
  obtain ⟨htold, hcreated, hcleared, hskipped⟩ := h.tracked w pc hpc
  refine ⟨?_, List.mem_append_left _ hcreated, fun honStart hfalse => ?_, fun hmem => ?_⟩
  · rw [history_append, hes, List.append_nil]
    exact told_started htold (hstarted.imp id (.imp And.left (· w pc hpc)))
  · rcases hstarted with hs | ⟨-, hmem⟩ | hexited
    · exact (hcleared honStart (hs.trans hfalse)).trans (List.sublist_append_left _ _)
    · exact (List.singleton_sublist.mpr hcreated).append (List.singleton_sublist.mpr hmem)
    · rw [hexited w pc hpc] at honStart
      cases honStart
  · rw [history_append, hes, List.append_nil] at hmem
    exact (hskipped hmem).trans (List.sublist_append_left _ _)

/-- A worker moves on: the owner and what it reads stay as they are. -/
theorem advance (h : Inv s o) {w : ℕ} {pc pc' : WorkerPc} (hw : s.workers[w]? = some pc)
    (hne : pc ≠ .exited) (howner : t.owner = s.owner) (hstarted : t.started = s.started)
    (hhandle : t.handle = s.handle) (hworkers : t.workers = s.workers.set w pc')
    (hes : ∀ v, v ≠ w → history v es = []) (hjoined : .joined ∉ history w es)
    (htracked : Tracked t (o ++ es) w pc') : Inv t (o ++ es) := by
  have hlen : t.workers.length = s.workers.length := by rw [hworkers, List.length_set]
  have hother {v : ℕ} (hv : v ≠ w) : t.workers[v]? = s.workers[v]? := by
    rw [hworkers, List.getElem?_set_ne hv.symm]
  have hself {pc₁ : WorkerPc} (hpc₁ : t.workers[w]? = some pc₁) : pc₁ = pc' := by
    rw [hworkers, List.getElem?_set_self (List.getElem?_eq_some_iff.mp hw).1] at hpc₁
    exact (Option.some.inj hpc₁).symm
  have hcurrent {v : ℕ} (hv : Current s o v) : Current t (o ++ es) v := by
    obtain rfl : w = v := by
      by_contra hwv
      exact hne (hv.others w pc hw hwv)
    refine ⟨hv.last.trans hlen.symm, fun u pc₁ hu huw => ?_, ?_⟩
    · exact hv.others u pc₁ (hother huw ▸ hu) huw
    · rw [history_append, List.mem_append, not_or]
      exact ⟨hv.not_joined, hjoined⟩
  refine ⟨?_, fun v hv => ?_, fun v pc₁ hv => ?_⟩
  · cases h.phase with
    | absent _ _ hexited => exact absurd (hexited w pc hw) hne
    | creating v ho hs hh hv =>
      exact .creating v (howner.trans ho) (hstarted.trans hs) (hhandle.trans hh) (hcurrent hv)
    | present v ho hh hwait hv =>
      exact .present v (by rw [howner, hstarted, ho]) (hhandle.trans hh)
        (by rwa [howner]) (hcurrent hv)
    | joined _ _ hexited => exact absurd (hexited w pc hw) hne
  · have hvw : v ≠ w := by
      have := (List.getElem?_eq_some_iff.mp hw).1
      omega
    rw [history_append, h.fresh v (hlen ▸ hv), hes v hvw]
    rfl
  · rcases eq_or_ne v w with rfl | hvw
    · rwa [hself hv]
    · obtain ⟨htold, hcreated, hcleared, hskipped⟩ := h.tracked v pc₁ (hother hvw ▸ hv)
      have hhistory : history v (o ++ es) = history v o := by
        rw [history_append, hes v hvw, List.append_nil]
      exact ⟨by rwa [hhistory, hstarted], List.mem_append_left _ hcreated,
        fun hpc hs => (hcleared hpc (hstarted ▸ hs)).trans (List.sublist_append_left _ _),
        fun hmem => (hskipped (hhistory ▸ hmem)).trans (List.sublist_append_left _ _)⟩

/-- A worker inside the loop goes on there, without a callback or with `Process`. -/
theorem loop_next (h : Inv s o) {w : ℕ} {pc pc' : WorkerPc} (hw : s.workers[w]? = some pc)
    (hpc : pc.InLoop) (hbegun : ∃ n, history w o = begun n) (howner : t.owner = s.owner)
    (hstarted : t.started = s.started) (hhandle : t.handle = s.handle)
    (hworkers : t.workers = s.workers.set w pc') (hpc' : pc'.InLoop)
    (hes : es = [] ∨ es = [.process w]) :
    Inv t (o ++ es) := by
  obtain ⟨n, hbegun⟩ := hbegun
  have hother : ∀ v, v ≠ w → history v es = [] := by
    intro v hv
    rcases hes with rfl | rfl
    · rfl
    · simp [history, stage, Ne.symm hv]
  have hself : ∃ m, history w o ++ history w es = begun m := by
    rcases hes with rfl | rfl
    · exact ⟨n, by rw [hbegun]; exact List.append_nil _⟩
    · refine ⟨n + 1, ?_⟩
      rw [hbegun, begun, begun, List.replicate_succ']
      simp [history, stage]
  have hplain : .joined ∉ history w es ∧ .checked false ∉ history w es := by
    rcases hes with rfl | rfl <;> simp [history, stage]
  obtain ⟨m, hm⟩ := hself
  refine h.advance hw ?_ howner hstarted hhandle hworkers hother hplain.1
    ((h.tracked w pc hw).next ?_ (hm ▸ .inLoop hpc') hplain.2)
  · rintro rfl
    exact hpc
  · rintro rfl
    exact hpc'

/-- **A step of a worker** that does not stop the thread. -/
theorem worker (h : Inv s o) {proc : ProcKind} {ok : Bool} {w : ℕ} {pc : WorkerPc}
    (hw : s.workers[w]? = some pc) (hs : workerStep proc w ok s pc = some (t, es))
    (hself : .stopCalled w ∉ es) : Inv t (o ++ es) := by
  have htracked := h.tracked w pc hw
  have htold := htracked.told
  cases pc with
  | onStart =>
    have hnil := told_onStart htold
    obtain ⟨rfl, rfl⟩ := Prod.mk.inj (Option.some.inj hs)
    have hes : history w [.checked w s.started] = [.checked s.started] := by
      simp [history, stage]
    refine h.advance hw (by simp) rfl rfl rfl rfl (fun v hv => ?_) (by simp [hes])
      ⟨?_, List.mem_append_left _ htracked.created, ?_, ?_⟩
    · simp [history, stage, Ne.symm hv]
    · rw [history_append, hnil, List.nil_append, hes]
      cases hstarted : s.started with
      | true => exact .checked
      | false => exact told_started .skipped (.inl hstarted.symm)
    · split <;> simp
    · rw [history_append, hnil, List.nil_append, hes, List.mem_singleton, Stage.checked.injEq]
      intro hstarted
      rw [← hstarted]
      exact (htracked.cleared rfl hstarted.symm).append (List.Sublist.refl [Event.checked w false])
  | procStart =>
    have hbegun := told_procStart htold
    obtain ⟨rfl, rfl⟩ := Prod.mk.inj (Option.some.inj hs)
    have hes : history w [.start w (s.procRunning || ok)] = [.start] := by simp [history, stage]
    refine h.advance hw (by simp) rfl rfl rfl rfl (fun v hv => ?_) (by simp [hes])
      (htracked.next (by simp) ?_ (by simp [hes]))
    · simp [history, stage, Ne.symm hv]
    · rw [hbegun, hes]
      exact .inLoop (n := 0) trivial
  | loop =>
    obtain ⟨rfl, rfl⟩ := Prod.mk.inj (Option.some.inj hs)
    cases hstarted : s.started with
    | true =>
      refine h.loop_next hw trivial ?_ rfl rfl rfl rfl trivial (.inl rfl)
      rcases told_loop htold trivial with hbegun | ⟨-, hfalse, -⟩
      · exact hbegun
      · rw [hstarted] at hfalse
        cases hfalse
    | false =>
      refine h.advance hw (by simp) rfl rfl rfl rfl (fun v _ => rfl) (List.not_mem_nil)
        (htracked.next (by simp) ?_ List.not_mem_nil)
      rw [show history w [] = [] from rfl, List.append_nil]
      rcases told_loop htold trivial with ⟨n, hbegun⟩ | ⟨-, -, hskipped⟩
      · exact hbegun ▸ .leaving
      · exact hskipped ▸ .leavingSkipped
  | testRunning =>
    obtain ⟨rfl, rfl⟩ := Prod.mk.inj (Option.some.inj hs)
    refine h.loop_next hw trivial (told_begun htold trivial (by simp)) rfl rfl rfl
      rfl ?_ (.inl rfl)
    split <;> trivial
  | testPaused =>
    obtain ⟨rfl, rfl⟩ := Prod.mk.inj (Option.some.inj hs)
    refine h.loop_next hw trivial (told_begun htold trivial (by simp)) rfl rfl rfl
      rfl ?_ (.inl rfl)
    split <;> trivial
  | process =>
    rw [workerStep] at hs
    split at hs
    · obtain ⟨-, rfl⟩ := Prod.mk.inj (Option.some.inj hs)
      exact absurd (by simp) hself
    · obtain ⟨rfl, rfl⟩ := Prod.mk.inj (Option.some.inj hs)
      exact h.loop_next hw trivial (told_begun htold trivial (by simp)) rfl rfl rfl
        rfl trivial (.inr rfl)
  | stopping pc => exact absurd htold not_told_stopping
  | testPausing =>
    obtain ⟨rfl, rfl⟩ := Prod.mk.inj (Option.some.inj hs)
    refine h.loop_next hw trivial (told_begun htold trivial (by simp)) rfl rfl rfl
      rfl ?_ (.inl rfl)
    split <;> trivial
  | setPaused =>
    obtain ⟨rfl, rfl⟩ := Prod.mk.inj (Option.some.inj hs)
    exact h.loop_next hw trivial (told_begun htold trivial (by simp)) rfl rfl rfl
      rfl trivial (.inl rfl)
  | procStop =>
    obtain ⟨rfl, rfl⟩ := Prod.mk.inj (Option.some.inj hs)
    have hes : history w [.stop w] = [.stop] := by simp [history, stage]
    refine h.advance hw (by simp) rfl rfl rfl rfl (fun v hv => ?_) (by simp [hes])
      (htracked.next (by simp) ?_ (by simp [hes]))
    · simp [history, stage, Ne.symm hv]
    · rw [hes]
      exact .exited (told_procStop htold)
  | exited => cases hs

/-- A step of the owner in which nothing happens to the workers. -/
theorem quiet (h : Inv s o) (hworkers : t.workers = s.workers) (hes : ∀ w, history w es = [])
    (hstarted : s.started = t.started ∨ (t.started = false ∧ .cleared ∈ es) ∨ AllExited s)
    (hphase : Phase t (o ++ es)) : Inv t (o ++ es) where
  phase := hphase
  fresh w hw := by rw [history_append, hes, h.fresh w (hworkers ▸ hw)]; rfl
  tracked := h.tracked_frame hworkers hes hstarted

/-- A worker is created, when all others have exited. -/
theorem create (h : Inv s o) (hstarted : s.started = true) (hhandle : s.handle = none)
    (hexited : AllExited s) :
    Inv { s with
        owner := .start (.setHandle (some s.workers.length))
        workers := s.workers ++ [.onStart] } (o ++ [.created s.workers.length]) := by
  have hes : ∀ w, history w [.created s.workers.length] = [] := fun _ => rfl
  have hcases {w : ℕ} {pc : WorkerPc} (hw : (s.workers ++ [.onStart])[w]? = some pc) :
      s.workers[w]? = some pc ∨ w = s.workers.length ∧ pc = .onStart := by
    rcases Nat.lt_trichotomy w s.workers.length with hlt | rfl | hgt
    · rw [List.getElem?_append_left hlt] at hw
      exact .inl hw
    · rw [List.getElem?_concat_length] at hw
      exact .inr ⟨rfl, (Option.some.inj hw).symm⟩
    · rw [List.getElem?_eq_none (by simpa [Nat.succ_le_iff] using hgt)] at hw
      cases hw
  refine ⟨.creating _ rfl hstarted hhandle ⟨by simp, fun v pc hv hne => ?_, ?_⟩, fun w hw => ?_,
    fun w pc hw => ?_⟩
  · exact hexited v pc ((hcases hv).resolve_right fun h => hne h.1)
  · rw [history_append, hes, List.append_nil, h.fresh _ (Nat.le_refl _)]
    exact List.not_mem_nil
  · rw [history_append, hes, List.append_nil]
    refine h.fresh w (Nat.le_of_succ_le ?_)
    simpa using hw
  · rcases hcases hw with hw | ⟨rfl, rfl⟩
    · obtain rfl := hexited w pc hw
      have htracked := h.tracked w _ hw
      exact htracked.next (by simp) (by rw [hes, List.append_nil]; exact htracked.told)
        (by rw [hes]; exact List.not_mem_nil)
    · have hnil : history s.workers.length (o ++ [.created s.workers.length]) = [] := by
        rw [history_append, hes, List.append_nil, h.fresh _ (Nat.le_refl _)]
      refine ⟨hnil ▸ .created, by simp, fun _ hfalse => ?_, fun hmem => ?_⟩
      · exact absurd (hstarted.symm.trans hfalse) (by simp)
      · rw [hnil] at hmem
        cases hmem

/-- **A step of `Start`.** -/
theorem ownerStart (h : Inv s o) {created : Bool} {pc : StartPc} (hpc : s.owner = .start pc)
    (hs : startStep created s pc = (t, es)) : Inv t (o ++ es) := by
  cases pc with
  | testStarted =>
    obtain ⟨rfl, rfl⟩ := Prod.mk.inj hs
    refine h.quiet rfl (fun _ => rfl) (.inl rfl) ?_
    rcases h.phase.absent_or_present hpc (.inr rfl) with
      ⟨ho, hh, hexited⟩ | ⟨w, ho, hh, -, hcurrent⟩
    · refine .absent ?_ hh hexited
      simp only [← Option.some.inj ho]
      rfl
    · refine .present w ?_ hh ?_ (hcurrent.frame rfl rfl)
      · simp only [← Option.some.inj ho]
        rfl
      · simp [← Option.some.inj ho]
  | newHelper =>
    obtain ⟨rfl, rfl⟩ := Prod.mk.inj hs
    refine h.quiet rfl (fun _ => rfl) (.inl rfl) ?_
    obtain ⟨ho, hh, hexited⟩ := h.phase.only_absent hpc rfl rfl
    exact .absent ho hh hexited
  | setStarted =>
    obtain ⟨rfl, rfl⟩ := Prod.mk.inj hs
    obtain ⟨-, hh, hexited⟩ := h.phase.only_absent hpc rfl rfl
    exact h.quiet rfl (fun _ => rfl) (.inr (.inr hexited)) (.absent rfl hh hexited)
  | createThread =>
    obtain ⟨ho, hh, hexited⟩ := h.phase.only_absent hpc rfl rfl
    rw [startStep] at hs
    split at hs
    · obtain ⟨rfl, rfl⟩ := Prod.mk.inj hs
      exact h.create (Option.some.inj ho).symm hh hexited
    · obtain ⟨rfl, rfl⟩ := Prod.mk.inj hs
      exact h.quiet rfl (fun _ => rfl) (.inl rfl) (.absent ho hh hexited)
  | setHandle handle =>
    obtain ⟨rfl, rfl⟩ := Prod.mk.inj hs
    refine h.quiet rfl (fun _ => rfl) (.inl rfl) ?_
    cases handle with
    | none =>
      obtain ⟨ho, -, hexited⟩ := h.phase.only_absent hpc rfl rfl
      exact .absent ho rfl hexited
    | some w =>
      cases h.phase with
      | absent ho => rw [hpc] at ho; cases ho
      | creating v ho hstarted _ hcurrent =>
        rw [hpc] at ho
        cases ho
        exact .present w (congrArg some hstarted).symm rfl (fun _ hv => by cases hv)
          (hcurrent.frame rfl rfl)
      | present v ho => rw [hpc] at ho; cases ho
      | joined ho => rw [hpc] at ho; cases ho
  | testHandle =>
    obtain ⟨rfl, rfl⟩ := Prod.mk.inj hs
    refine h.quiet rfl (fun _ => rfl) (.inl rfl) ?_
    rcases h.phase.absent_or_present hpc (.inr rfl) with
      ⟨ho, hh, hexited⟩ | ⟨w, ho, hh, -, hcurrent⟩
    · exact .absent (by simp only [hh]; exact ho) hh hexited
    · exact .present w (by simp only [hh]; exact ho) hh (by simp [hh]) (hcurrent.frame rfl rfl)
  | failed =>
    obtain ⟨rfl, rfl⟩ := Prod.mk.inj hs
    obtain ⟨-, hh, hexited⟩ := h.phase.only_absent hpc rfl rfl
    exact h.quiet rfl (fun _ => rfl) (.inr (.inr hexited)) (.absent rfl hh hexited)
  | setRunning =>
    obtain ⟨rfl, rfl⟩ := Prod.mk.inj hs
    refine h.quiet rfl (fun _ => rfl) (.inl rfl) ?_
    obtain ⟨w, ho, hh, -, hcurrent⟩ := h.phase.only_present hpc rfl rfl
    exact .present w ho hh (fun _ hv => by cases hv) (hcurrent.frame rfl rfl)

/-- The owner has waited for the worker. -/
theorem join (h : Inv s o) {w : ℕ} (hstarted : s.started = false)
    (hexited : s.workers[w]? = some .exited) (hcurrent : Current s o w) :
    Inv { s with owner := .stop .clearHandle } (o ++ [.waited none w]) := by
  have hself : history w [.waited none w] = [.joined] := by simp [history, stage]
  have hother {v : ℕ} (hv : v ≠ w) : history v [.waited none w] = [] := by
    simp [history, stage, Ne.symm hv]
  refine ⟨.joined rfl hstarted fun v pc hv => ?_, fun v hv => ?_, fun v pc hv => ?_⟩
  · rcases eq_or_ne v w with rfl | hne
    · exact Option.some.inj (hv.symm.trans hexited)
    · exact hcurrent.others v pc hv hne
  · have hvw : v ≠ w := by
      have hlast := hcurrent.last
      have hv : s.workers.length ≤ v := hv
      omega
    rw [history_append, hother hvw, h.fresh v hv]
    rfl
  · have htracked := h.tracked v pc hv
    rcases eq_or_ne v w with rfl | hne
    · obtain rfl : pc = .exited := Option.some.inj (hv.symm.trans hexited)
      refine htracked.next (by simp) ?_ (by simp [hself])
      rw [hself]
      exact .joined (told_exited htracked.told hcurrent.not_joined)
    · obtain rfl := hcurrent.others v pc hv hne
      refine htracked.next (by simp) ?_ (by simp [hother hne])
      rw [hother hne, List.append_nil]
      exact htracked.told

/-- **A step of `Stop`**, called by the owner. -/
theorem ownerStop (h : Inv s o) {pc : StopPc} (hpc : s.owner = .stop pc) {f : Fields}
    {pc' : Option StopPc} (hs : stopStep s.exited none s.toFields pc = some (f, pc', es)) :
    Inv { s with toFields := f, owner := pc'.elim .idle .stop } (o ++ es) := by
  cases pc with
  | clearRunning =>
    obtain ⟨rfl, rfl, rfl⟩ := hs
    refine h.quiet rfl (fun _ => rfl) (.inl rfl) ?_
    rcases h.phase.absent_or_present hpc (.inr rfl) with
      ⟨ho, hh, hexited⟩ | ⟨w, ho, hh, -, hcurrent⟩
    · exact .absent ho hh hexited
    · exact .present w ho hh (fun _ hv => by cases hv) (hcurrent.frame rfl rfl)
  | clearStarted =>
    obtain ⟨rfl, rfl, rfl⟩ := hs
    refine h.quiet rfl (fun _ => rfl) (.inr (.inl ⟨rfl, by simp⟩)) ?_
    rcases h.phase.absent_or_present hpc (.inr rfl) with
      ⟨-, hh, hexited⟩ | ⟨w, -, hh, -, hcurrent⟩
    · exact .absent rfl hh hexited
    · exact .present w rfl hh (fun _ hv => by cases hv) (hcurrent.frame rfl rfl)
  | testHandle =>
    obtain ⟨rfl, rfl, rfl⟩ := hs
    refine h.quiet rfl (fun _ => rfl) (.inl rfl) ?_
    rcases h.phase.absent_or_present hpc (.inr rfl) with
      ⟨ho, hh, hexited⟩ | ⟨w, ho, hh, -, hcurrent⟩
    · exact .absent (by simp only [hh]; exact ho) hh hexited
    · exact .present w (by simp only [hh]; exact ho) hh (by simp [hh]) (hcurrent.frame rfl rfl)
  | wait =>
    obtain ⟨w, ho, hh, -, hcurrent⟩ := h.phase.only_present hpc rfl rfl
    simp only [stopStep, hh] at hs
    obtain ⟨rfl, rfl, rfl⟩ := hs
    refine h.quiet rfl (fun _ => rfl) (.inl rfl) ?_
    exact .present w ho hh (fun v hv => by cases hv; rfl) (hcurrent.frame rfl rfl)
  | waiting w =>
    obtain ⟨v, ho, hh, hwaiting, hcurrent⟩ := h.phase.only_present hpc rfl rfl
    obtain rfl := hwaiting w rfl
    rw [stopStep, Option.ite_none_right_eq_some] at hs
    obtain ⟨hexited, hs⟩ := hs
    obtain ⟨rfl, rfl, rfl⟩ := hs
    exact h.join (Option.some.inj ho).symm (by simpa [State.exited] using hexited) hcurrent
  | clearHandle =>
    obtain ⟨rfl, rfl, rfl⟩ := hs
    refine h.quiet rfl (fun _ => rfl) (.inl rfl) ?_
    cases h.phase with
    | absent ho => rw [hpc] at ho; cases ho
    | creating v ho => rw [hpc] at ho; cases ho
    | present v ho => rw [hpc] at ho; cases ho
    | joined _ hstarted hexited => exact .absent (congrArg some hstarted).symm rfl hexited
  | deleteHelper =>
    obtain ⟨rfl, rfl, rfl⟩ := hs
    refine h.quiet rfl (fun _ => rfl) (.inl rfl) ?_
    obtain ⟨ho, hh, hexited⟩ := h.phase.only_absent hpc rfl rfl
    exact .absent ho hh hexited

/-- The owner moves on, and what it knows of the workers stays the same. -/
theorem settled (h : Inv s o) (hs : s.owner.Settled) (ht : t.owner.Settled)
    (hstarted : t.started = s.started) (hhandle : t.handle = s.handle)
    (hworkers : t.workers = s.workers) : Inv t (o ++ []) := by
  refine h.quiet hworkers (fun _ => rfl) (.inl hstarted.symm) ?_
  obtain ⟨habsent, hpresent, -⟩ := hs.spec
  obtain ⟨habsent', hpresent', hwaiting⟩ := ht.spec
  have hsome : s.owner.absent.isSome := by
    rw [habsent]
    rfl
  rcases h.phase.absent_or_present rfl (.inl hsome) with
    ⟨ho, hh, hexited⟩ | ⟨w, ho, hh, -, hcurrent⟩
  · refine .absent ?_ (hhandle.trans hh) (by rwa [AllExited, hworkers])
    rw [habsent', hstarted, ← habsent, ho]
  · refine .present w ?_ (hhandle.trans hh) (fun v hv => absurd hv (hwaiting v))
      (hcurrent.frame hworkers rfl)
    rw [hpresent', hstarted, ← hpresent, ho]

/-- **A step of the owner.** -/
theorem owner (h : Inv s o) {created : Bool} (hs : ownerStep created s = some (t, es)) :
    Inv t (o ++ es) := by
  cases hpc : s.owner with
  | idle =>
    rw [ownerStep, hpc] at hs
    cases hs
  | start pc =>
    rw [ownerStep, hpc] at hs
    exact h.ownerStart hpc (Option.some.inj hs)
  | stop pc =>
    rw [ownerStep, hpc] at hs
    obtain ⟨⟨f, pc', es'⟩, hstop, heq⟩ := Option.map_eq_some_iff.mp hs
    obtain ⟨rfl, rfl⟩ := Prod.mk.inj heq
    exact h.ownerStop hpc hstop
  | pause =>
    rw [ownerStep, hpc] at hs
    obtain ⟨rfl, rfl⟩ := Prod.mk.inj (Option.some.inj hs)
    exact h.settled (by rw [hpc]; trivial) trivial rfl rfl rfl
  | pauseWait watchdog =>
    rw [ownerStep, hpc] at hs
    obtain ⟨rfl, rfl⟩ := Prod.mk.inj (Option.some.inj hs)
    refine h.settled (by rw [hpc]; trivial) ?_ rfl rfl rfl
    dsimp only
    split <;> trivial
  | resume =>
    rw [ownerStep, hpc] at hs
    obtain ⟨rfl, rfl⟩ := Prod.mk.inj (Option.some.inj hs)
    exact h.settled (by rw [hpc]; trivial) trivial rfl rfl rfl
  | resumeUnpause =>
    rw [ownerStep, hpc] at hs
    obtain ⟨rfl, rfl⟩ := Prod.mk.inj (Option.some.inj hs)
    exact h.settled (by rw [hpc]; trivial) trivial rfl rfl rfl

/-- **A step of the threads** in which no worker stops the thread. -/
theorem step (h : Inv s o) {proc : ProcKind} {a : Action}
    (hs : step proc s a = some (t, es)) (hself : ∀ w, .stopCalled w ∉ es) : Inv t (o ++ es) := by
  cases a with
  | call c =>
    simp only [Thread.step, Option.ite_none_right_eq_some, Option.some.injEq, Prod.mk.injEq] at hs
    obtain ⟨hidle, rfl, rfl⟩ := hs
    refine h.settled (by rw [hidle]; trivial) ?_ rfl rfl rfl
    cases c <;> trivial
  | owner created => exact h.owner hs
  | worker w ok =>
    obtain ⟨pc, hw, hs⟩ := Option.bind_eq_some_iff.mp hs
    exact h.worker hw hs (hself w)

end Inv

/-- **Every run in which no worker stops the thread keeps the invariant.** -/
theorem inv_of_run {proc : ProcKind} {as : List Action} {s : State} {o : List Event}
    (h : run (step proc) {} as = some (s, o)) (hself : ∀ w, .stopCalled w ∉ o) : Inv s o := by
  refine run_induction (motive := fun _ s o => (∀ w, .stopCalled w ∉ o) → Inv s o)
    (fun _ => .start) ?_ h hself
  intro as s o a t es _ ih hs hself
  simp only [List.mem_append, not_or, forall_and] at hself
  exact (ih hself.1).step hs hself.2

/-! ## The life cycle -/

/-- The callbacks of a worker. -/
def callbacks (w : ℕ) (o : List Event) : List Stage :=
  (history w o).filter fun g => g = .start ∨ g = .process ∨ g = .stop

/-- The life cycle of a worker that has found `m_Started` set, up to some stage. -/
def Regular (h : List Stage) : Prop := ∃ n, h <+: begun n ++ [.stop, .joined]

theorem Finished.regular {h : List Stage} (hh : Finished h) :
    Regular (h ++ [.joined]) ∨ h = [.checked false, .stop] := by
  rcases hh with ⟨n, rfl⟩ | rfl
  · exact .inl ⟨n, by simp⟩
  · exact .inr rfl

theorem Told.regular {started : Bool} {pc : WorkerPc} {h : List Stage} (ht : Told started pc h) :
    Regular h ∨ .checked false ∈ h ∧ h <+: [.checked false, .stop, .joined] := by
  cases ht with
  | created => exact .inl ⟨0, List.nil_prefix⟩
  | checked => exact .inl ⟨0, by simp [begun]⟩
  | skipped => exact .inr ⟨by simp, by simp⟩
  | inLoop => exact .inl ⟨_, List.prefix_append _ _⟩
  | leaving => exact .inl ⟨_, List.prefix_append _ _⟩
  | leavingSkipped => exact .inr ⟨by simp, by simp⟩
  | exited hh =>
    rcases hh.regular with ⟨n, hn⟩ | rfl
    · exact .inl ⟨n, (List.prefix_append _ _).trans hn⟩
    · exact .inr ⟨by simp, by simp⟩
  | joined hh =>
    rcases hh.regular with h | rfl
    · exact .inl h
    · exact .inr ⟨by simp, by simp⟩

/-- **The life cycle of a worker** in a run in which only the owner stops the thread: its first look
at `m_Started`, its callbacks and the owner's wait for it are `Start`, any number of `Process`,
`Stop` and the wait, or a part of this; or, if the owner has cleared `m_Started` before the worker
looked, only `Stop` and the wait. -/
theorem lifeCycle (proc : ProcKind) (as : List Action) (s : State) (o : List Event)
    (hrun : run (step proc) {} as = some (s, o)) (hself : ∀ w, .stopCalled w ∉ o) (w : ℕ) :
    Regular (history w o) ∨ history w o <+: [.checked false, .stop, .joined] ∧
      [.created w, .cleared, .checked w false].Sublist o := by
  have hinv := inv_of_run hrun hself
  cases hw : s.workers[w]? with
  | none =>
    rw [hinv.fresh w (List.getElem?_eq_none_iff.mp hw)]
    exact .inl ⟨0, List.nil_prefix⟩
  | some pc =>
    have htracked := hinv.tracked w pc hw
    exact htracked.told.regular.imp_right fun h => ⟨h.2, htracked.skipped h.1⟩

/-- The steps of `Start` that creates a worker. -/
def startCall : List Action := .call .start :: List.replicate 7 (.owner true)

/-- The thread is started, the worker makes a callback of each kind, and the thread is stopped. -/
def fullRun : List Action :=
  startCall ++ List.replicate 6 (.worker 0 true) ++ .call .stop ::
    (List.replicate 4 (.owner true) ++ List.replicate 3 (.worker 0 true) ++ [.owner true])

/-- Has a worker stopped the thread? -/
def selfStopped (o : List Event) : Bool := o.any fun | .stopCalled _ => true | _ => false

theorem not_mem_of_selfStopped {o : List Event} (h : selfStopped o = false) (w : ℕ) :
    .stopCalled w ∉ o := fun hmem => List.any_eq_false.mp h _ hmem rfl

/-- A worker that is created, run and stopped. -/
theorem lifeCycle_example : ∃ s o, run (step .statistics) {} fullRun = some (s, o) ∧
    .joined ∈ history 0 o ∧ (Regular (history 0 o) ∨
      history 0 o <+: [.checked false, .stop, .joined] ∧
        [.created 0, .cleared, .checked 0 false].Sublist o) := by
  have hrun : ∃ p ∈ run (step .statistics) {} fullRun,
      .joined ∈ history 0 p.2 ∧ selfStopped p.2 = false := by decide +kernel
  obtain ⟨⟨s, o⟩, hrun, hjoined, hself⟩ := hrun
  exact ⟨s, o, hrun, hjoined,
    lifeCycle .statistics fullRun s o hrun (not_mem_of_selfStopped hself) 0⟩

/-- The thread is started and stopped before the worker is first scheduled. -/
def earlyStop : List Action :=
  startCall ++ [.call .stop, .owner true, .owner true, .worker 0 true, .worker 0 true,
    .worker 0 true]

/-- **A worker that is stopped early makes the callback `Stop` without `Start`.** -/
theorem not_startFirst : ¬ ∀ (proc : ProcKind) (as : List Action) (s : State) (o : List Event),
    run (step proc) {} as = some (s, o) → (∀ w, .stopCalled w ∉ o) →
      ∀ w, ∃ n, callbacks w o <+: .start :: (List.replicate n .process ++ [.stop]) := by
  intro h
  have hrun : ∃ p ∈ run (step .statistics) {} earlyStop,
      callbacks 0 p.2 = [.stop] ∧ selfStopped p.2 = false := by decide +kernel
  obtain ⟨⟨s, o⟩, hrun, hcallbacks, hself⟩ := hrun
  obtain ⟨n, hn⟩ := h .statistics earlyStop s o hrun (not_mem_of_selfStopped hself) 0
  rw [hcallbacks, List.cons_prefix_cons] at hn
  cases hn.1

end SimpleTSDB.Thread
