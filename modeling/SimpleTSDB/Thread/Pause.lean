import SimpleTSDB.Thread.Joins

/-!
# Pausing a thread

`Pause` asks the worker to pause by `m_Pausing`, and the worker sets `m_Paused` behind its next
iteration; `Resume` clears the two flags. `Moved` and `OwnerMoved` list what a step does to the
flags. As long as `Resume` is not called, `Process` is called at most once more after `Pause`, and
not at all when the worker has set `m_Paused` (`pause_quiets`). `Resume` is without effect on a
worker that has read `m_Pausing` and is about to set `m_Paused` (`resume_iff`).
-/

namespace SimpleTSDB.Thread

open Transducer

variable {proc : ProcKind} {s t : State} {o es : List Event}

/-- The number of calls of `Process`. -/
def processCalls (o : List Event) : ℕ := o.countP fun | .process _ => true | _ => false

/-- The owner is in `Resume`. -/
def OwnerPc.Resuming (pc : OwnerPc) : Prop := pc = .resume ∨ pc = .resumeUnpause

@[simp] theorem processCalls_append (o es : List Event) :
    processCalls (o ++ es) = processCalls o + processCalls es := List.countP_append

/-! ## What a step does to the flags -/

/-- What a step of a worker does. -/
structure Moved (s : State) (w : ℕ) (pc pc' : WorkerPc) (t : State) (es : List Event) : Prop where
  owner : t.owner = s.owner
  pausing : t.pausing = s.pausing
  paused : t.paused = true ↔ s.paused = true ∨ pc = .setPaused
  workers : t.workers = s.workers.set w pc'
  toProcess : pc' = .process → s.paused = false ∧ pc = .testPaused
  toSetPaused : pc' = .setPaused → s.pausing = true ∧ pc = .testPausing
  fromTestPausing : pc = .testPausing → s.pausing = true → pc' = .setPaused
  fromProcess : pc = .process → pc' = .testPausing ∨ .stopCalled w ∈ es
  fromSetPaused : pc = .setPaused → pc' ≠ .setPaused
  calls : processCalls es = if pc = .process then 1 else 0

/-- What a step of the owner does. -/
structure OwnerMoved (s t : State) (es : List Event) : Prop where
  owner : t.owner ≠ .pause ∧ (t.owner.Resuming → s.owner = .resume)
  pausing : t.pausing = s.pausing ∨ s.owner = .pause ∧ t.pausing = true ∨
    s.owner = .resume ∧ t.pausing = false
  paused : t.paused = s.paused ∨ s.owner = .resumeUnpause ∧ t.paused = false
  workers : t.workers = s.workers ∨ t.workers = s.workers ++ [.onStart]
  calls : processCalls es = 0

/-- `Stop` leaves the flags alone. -/
theorem stopStep_flags {exited : ℕ → Bool} {agent : Option ℕ} {f f' : Fields} {pc : StopPc}
    {pc' : Option StopPc} (h : stopStep exited agent f pc = some (f', pc', es)) :
    f'.pausing = f.pausing ∧ f'.paused = f.paused ∧ processCalls es = 0 := by
  cases pc with
  | wait =>
    rw [stopStep] at h
    split at h
    · obtain ⟨rfl, rfl, rfl⟩ := h
      exact ⟨rfl, rfl, rfl⟩
    · obtain ⟨rfl, rfl, rfl⟩ := h
      exact ⟨rfl, rfl, rfl⟩
  | waiting w =>
    obtain ⟨-, h⟩ := Option.ite_none_right_eq_some.mp h
    obtain ⟨rfl, rfl, rfl⟩ := h
    exact ⟨rfl, rfl, rfl⟩
  | _ =>
    obtain ⟨rfl, rfl, rfl⟩ := h
    exact ⟨rfl, rfl, rfl⟩

/-- **A step of a worker.** -/
theorem moved_of_workerStep {w : ℕ} {ok : Bool} {pc : WorkerPc}
    (h : workerStep proc w ok s pc = some (t, es)) : ∃ pc', Moved s w pc pc' t es := by
  cases pc with
  | process =>
    rw [workerStep] at h
    split at h
    · obtain ⟨rfl, rfl⟩ := Prod.mk.inj (Option.some.inj h)
      exact ⟨_, rfl, rfl, by simp [State.go], rfl, by simp, by simp, by simp,
        fun _ => .inr (by simp), by simp, rfl⟩
    · obtain ⟨rfl, rfl⟩ := Prod.mk.inj (Option.some.inj h)
      exact ⟨_, rfl, rfl, by simp [State.go], rfl, by simp, by simp, by simp, fun _ => .inl rfl,
        by simp, rfl⟩
  | stopping pc =>
    obtain ⟨⟨f, pc', es'⟩, hstop, heq⟩ := Option.map_eq_some_iff.mp h
    obtain ⟨rfl, rfl⟩ := Prod.mk.inj heq
    obtain ⟨hpausing, hpaused, hcalls⟩ := stopStep_flags hstop
    refine ⟨_, rfl, hpausing, by simp [State.go, hpaused], rfl, ?_, ?_, by simp, by simp,
      by simp, hcalls⟩
    · cases pc' <;> simp
    · cases pc' <;> simp
  | testPaused =>
    obtain ⟨rfl, rfl⟩ := Prod.mk.inj (Option.some.inj h)
    refine ⟨_, rfl, rfl, by simp [State.go], rfl, ?_, ?_, by simp, by simp, by simp, rfl⟩
    · cases s.paused <;> simp
    · cases s.paused <;> simp
  | testPausing =>
    obtain ⟨rfl, rfl⟩ := Prod.mk.inj (Option.some.inj h)
    refine ⟨_, rfl, rfl, by simp [State.go], rfl, ?_, ?_, ?_, by simp, by simp, rfl⟩
    · cases s.pausing <;> simp
    · cases s.pausing <;> simp
    · rintro - hpausing
      rw [hpausing]
      rfl
  | setPaused =>
    obtain ⟨rfl, rfl⟩ := Prod.mk.inj (Option.some.inj h)
    exact ⟨_, rfl, rfl, by simp [State.go], rfl, by simp, by simp, by simp, by simp,
      fun _ => by simp, rfl⟩
  | exited => cases h
  | onStart | loop | testRunning =>
    obtain ⟨rfl, rfl⟩ := Prod.mk.inj (Option.some.inj h)
    refine ⟨_, rfl, rfl, by simp [State.go], rfl, ?_, ?_, by simp, by simp, by simp, rfl⟩
    · split <;> simp
    · split <;> simp
  | procStart | procStop =>
    obtain ⟨rfl, rfl⟩ := Prod.mk.inj (Option.some.inj h)
    exact ⟨_, rfl, rfl, by simp [State.go], rfl, by simp, by simp, by simp, by simp, by simp, rfl⟩

/-- **A step of the owner.** -/
theorem ownerMoved_of_ownerStep {created : Bool} (h : ownerStep created s = some (t, es)) :
    OwnerMoved s t es := by
  rw [ownerStep] at h
  split at h
  · cases h
  next pc hpc =>
    have hs := Option.some.inj h
    cases pc with
    | createThread =>
      rw [startStep] at hs
      split at hs
      · obtain ⟨rfl, rfl⟩ := Prod.mk.inj hs
        exact ⟨⟨by simp, by simp [OwnerPc.Resuming]⟩, .inl rfl, .inl rfl, .inr rfl, rfl⟩
      · obtain ⟨rfl, rfl⟩ := Prod.mk.inj hs
        exact ⟨⟨by simp, by simp [OwnerPc.Resuming]⟩, .inl rfl, .inl rfl, .inl rfl, rfl⟩
    | _ =>
      obtain ⟨rfl, rfl⟩ := Prod.mk.inj hs
      refine ⟨⟨?_, ?_⟩, .inl rfl, .inl rfl, .inl rfl, rfl⟩
      · dsimp only
        try split
        all_goals simp
      · dsimp only [OwnerPc.Resuming]
        try split
        all_goals simp
  next pc hpc =>
    obtain ⟨⟨f, pc', es'⟩, hstop, heq⟩ := Option.map_eq_some_iff.mp h
    obtain ⟨rfl, rfl⟩ := Prod.mk.inj heq
    obtain ⟨hpausing, hpaused, hcalls⟩ := stopStep_flags hstop
    refine ⟨⟨?_, ?_⟩, .inl hpausing, .inl hpaused, .inl rfl, hcalls⟩
    · cases pc' <;> simp
    · cases pc' <;> simp [OwnerPc.Resuming]
  next hpc =>
    obtain ⟨rfl, rfl⟩ := Prod.mk.inj (Option.some.inj h)
    exact ⟨⟨by simp, by simp [OwnerPc.Resuming]⟩, .inr (.inl ⟨hpc, rfl⟩), .inl rfl, .inl rfl, rfl⟩
  next watchdog hpc =>
    obtain ⟨rfl, rfl⟩ := Prod.mk.inj (Option.some.inj h)
    refine ⟨⟨?_, ?_⟩, .inl rfl, .inl rfl, .inl rfl, rfl⟩
    · dsimp only
      split <;> simp
    · dsimp only [OwnerPc.Resuming]
      split <;> simp
  next hpc =>
    obtain ⟨rfl, rfl⟩ := Prod.mk.inj (Option.some.inj h)
    exact ⟨⟨by simp, fun _ => hpc⟩, .inr (.inr ⟨hpc, rfl⟩), .inl rfl, .inl rfl, rfl⟩
  next hpc =>
    obtain ⟨rfl, rfl⟩ := Prod.mk.inj (Option.some.inj h)
    exact ⟨⟨by simp, by simp [OwnerPc.Resuming]⟩, .inl rfl, .inr ⟨hpc, rfl⟩, .inl rfl, rfl⟩

/-! ## While the thread is not resumed -/

/-- Of two workers one has exited. -/
theorem Inv.live_unique (h : Inv s o) {v w : ℕ} {pv pw : WorkerPc} (hv : s.workers[v]? = some pv)
    (hw : s.workers[w]? = some pw) (hpv : pv ≠ .exited) (hpw : pw ≠ .exited) : v = w := by
  have hone : ∀ u, Current s o u → v = w := by
    intro u hu
    have hvu : v = u := by
      by_contra hne
      exact hpv (hu.others v pv hv hne)
    have hwu : w = u := by
      by_contra hne
      exact hpw (hu.others w pw hw hne)
    rw [hvu, hwu]
  cases h.phase with
  | absent _ _ hexited => exact absurd (hexited v pv hv) hpv
  | creating u _ _ _ hcurrent => exact hone u hcurrent
  | present u _ _ _ hcurrent => exact hone u hcurrent
  | joined _ _ hexited => exact absurd (hexited v pv hv) hpv

/-- No worker calls `Process` while the thread is paused. -/
def Silent (s : State) : Prop := s.paused = true → .process ∉ s.workers

/-- The worker has made its last call of `Process` if `m_Pausing` stays set. -/
def Quiet (s : State) : Prop :=
  s.paused = true ∨ .testPausing ∈ s.workers ∨ .setPaused ∈ s.workers

/-- The worker that has moved, and the others. -/
theorem Moved.mem_iff {w : ℕ} {pc pc' x : WorkerPc} (h : Moved s w pc pc' t es)
    (hw : s.workers[w]? = some pc) : x ∈ t.workers ↔
      x = pc' ∨ ∃ v, v ≠ w ∧ s.workers[v]? = some x := by
  have hlt := (List.getElem?_eq_some_iff.mp hw).1
  rw [h.workers, List.mem_iff_getElem?]
  constructor
  · rintro ⟨v, hv⟩
    by_cases hvw : v = w
    · rw [hvw, List.getElem?_set_self hlt] at hv
      exact .inl (Option.some.inj hv).symm
    · rw [List.getElem?_set_ne (Ne.symm hvw)] at hv
      exact .inr ⟨v, hvw, hv⟩
  · rintro (rfl | ⟨v, hvw, hv⟩)
    · exact ⟨w, List.getElem?_set_self hlt⟩
    · exact ⟨v, by rw [List.getElem?_set_ne (Ne.symm hvw), hv]⟩

/-- **Every step** keeps a paused thread silent. -/
theorem Silent.step (hsilent : Silent s) (h : Inv s o) {a : Action}
    (hs : step proc s a = some (t, es)) : Silent t := by
  cases a with
  | call c =>
    obtain ⟨-, hs⟩ := Option.ite_none_right_eq_some.mp hs
    obtain ⟨rfl, -⟩ := Prod.mk.inj (Option.some.inj hs)
    exact hsilent
  | owner created =>
    obtain ⟨-, -, hpaused, hworkers, -⟩ := ownerMoved_of_ownerStep hs
    intro ht
    have hp : s.paused = true := by
      rcases hpaused with hp | ⟨-, hp⟩
      · rwa [hp] at ht
      · rw [hp] at ht
        cases ht
    rcases hworkers with hw | hw
    · rw [hw]
      exact hsilent hp
    · rw [hw, List.mem_append, not_or]
      exact ⟨hsilent hp, by simp⟩
  | worker w ok =>
    obtain ⟨pc, hw, hs⟩ := Option.bind_eq_some_iff.mp hs
    obtain ⟨pc', hmoved⟩ := moved_of_workerStep hs
    intro ht hmem
    have hpaused := hmoved.paused.mp ht
    rcases (hmoved.mem_iff hw).mp hmem with hpc' | ⟨v, hvw, hv⟩
    · obtain ⟨hfalse, hpc⟩ := hmoved.toProcess hpc'.symm
      rcases hpaused with hp | hp
      · rw [hfalse] at hp
        cases hp
      · rw [hpc] at hp
        cases hp
    · rcases hpaused with hp | rfl
      · exact hsilent hp (List.mem_iff_getElem?.mpr ⟨v, hv⟩)
      · exact hvw (h.live_unique hv hw (by simp) (by simp))

/-- What a step does while the thread is not resumed: a paused thread stays so and makes no call of
`Process`; and if `m_Pausing` is set, a worker that makes a call makes its last one. -/
structure Pausing (s t : State) (es : List Event) : Prop where
  owner : ¬ t.owner.Resuming
  paused : s.paused = true → t.paused = true ∧ processCalls es = 0
  pausing : s.pausing = true → t.pausing = true
  quiet : s.pausing = true → Quiet s → Quiet t ∧ processCalls es = 0
  last : s.pausing = true → processCalls es = 0 ∨ processCalls es = 1 ∧ Quiet t

/-- A step that makes no call of `Process` and leaves the flags and the workers alone. -/
theorem Pausing.frame (howner : ¬ t.owner.Resuming) (hpaused : t.paused = s.paused)
    (hpausing : s.pausing = true → t.pausing = true)
    (hworkers : t.workers = s.workers ∨ t.workers = s.workers ++ [.onStart])
    (hcalls : processCalls es = 0) : Pausing s t es where
  owner := howner
  paused hp := ⟨hpaused.trans hp, hcalls⟩
  pausing := hpausing
  quiet _ hq := by
    refine ⟨?_, hcalls⟩
    rw [Quiet, hpaused]
    rcases hworkers with hw | hw
    · rwa [hw]
    · rw [hw, List.mem_append, List.mem_append]
      exact hq.imp_right (.imp .inl .inl)
  last _ := .inl hcalls

/-- **Every step** while the thread is not resumed. -/
theorem pausing_of_step (h : Inv s o) (hsilent : Silent s) (howner : ¬ s.owner.Resuming)
    {a : Action} (ha : a ≠ .call .resume) (hs : step proc s a = some (t, es))
    (hself : ∀ w, .stopCalled w ∉ es) : Pausing s t es := by
  cases a with
  | call c =>
    obtain ⟨-, hs⟩ := Option.ite_none_right_eq_some.mp hs
    obtain ⟨rfl, rfl⟩ := Prod.mk.inj (Option.some.inj hs)
    refine .frame ?_ rfl id (.inl rfl) rfl
    cases c with
    | resume => exact absurd rfl ha
    | _ => simp [Call.entry, OwnerPc.Resuming]
  | owner created =>
    obtain ⟨⟨-, hnext⟩, hpausing, hpaused, hworkers, hcalls⟩ := ownerMoved_of_ownerStep hs
    refine .frame (fun ht => howner (.inl (hnext ht))) ?_ ?_ hworkers hcalls
    · exact hpaused.resolve_right fun hp => howner (.inr hp.1)
    · intro hp
      rcases hpausing with heq | ⟨-, heq⟩ | ⟨hresume, -⟩
      · exact heq.trans hp
      · exact heq
      · exact absurd (.inl hresume) howner
  | worker w ok =>
    obtain ⟨pc, hw, hs⟩ := Option.bind_eq_some_iff.mp hs
    obtain ⟨pc', hmoved⟩ := moved_of_workerStep hs
    have hnone : pc ≠ .process → processCalls es = 0 := fun hpc =>
      hmoved.calls.trans (if_neg hpc)
    have hpaused : s.paused = true → t.paused = true ∧ processCalls es = 0 := fun hp =>
      ⟨hmoved.paused.mpr (.inl hp),
        hnone fun hpc => hsilent hp (List.mem_iff_getElem?.mpr ⟨w, hpc ▸ hw⟩)⟩
    -- another worker that has not exited is the only one
    have hother : ∀ {v x}, s.workers[v]? = some x → x ≠ .exited → v ≠ w →
        x ∈ t.workers ∧ processCalls es = 0 := by
      intro v x hv hx hvw
      refine ⟨(hmoved.mem_iff hw).mpr (.inr ⟨v, hvw, hv⟩), hnone ?_⟩
      rintro rfl
      exact hvw (h.live_unique hv hw hx (by simp))
    refine ⟨by rwa [hmoved.owner], hpaused, fun hp => hmoved.pausing.trans hp, ?_, ?_⟩
    · rintro hp (hpau | hmem | hmem)
      · exact ⟨.inl (hpaused hpau).1, (hpaused hpau).2⟩
      · obtain ⟨v, hv⟩ := List.mem_iff_getElem?.mp hmem
        by_cases hvw : v = w
        · obtain rfl : pc = .testPausing := by
            rw [hvw, hw] at hv
            exact Option.some.inj hv
          refine ⟨.inr (.inr ?_), hnone (by simp)⟩
          exact (hmoved.mem_iff hw).mpr (.inl (hmoved.fromTestPausing rfl hp).symm)
        · exact (hother hv (by simp) hvw).imp_left fun hmem => .inr (.inl hmem)
      · obtain ⟨v, hv⟩ := List.mem_iff_getElem?.mp hmem
        by_cases hvw : v = w
        · obtain rfl : pc = .setPaused := by
            rw [hvw, hw] at hv
            exact Option.some.inj hv
          exact ⟨.inl (hmoved.paused.mpr (.inr rfl)), hnone (by simp)⟩
        · exact (hother hv (by simp) hvw).imp_left fun hmem => .inr (.inr hmem)
    · intro _
      by_cases hpc : pc = .process
      · have hpc' := (hmoved.fromProcess hpc).resolve_right (hself w)
        refine .inr ⟨hmoved.calls.trans (if_pos hpc), .inr (.inl ?_)⟩
        exact (hmoved.mem_iff hw).mpr (.inl hpc'.symm)
      · exact .inl (hnone hpc)

theorem silent_of_run {as : List Action} (h : run (step proc) {} as = some (s, o))
    (hself : ∀ w, .stopCalled w ∉ o) : Silent s := by
  refine run_induction (motive := fun _ s o => (∀ w, .stopCalled w ∉ o) → Silent s)
    (fun _ h => absurd h Bool.false_ne_true) ?_ h hself
  intro as s o a t es hrun ih hs hself
  simp only [List.mem_append, not_or, forall_and] at hself
  exact (ih hself.1).step (inv_of_run hrun hself.1) hs

/-- **A run in which the thread is not resumed.** -/
theorem pausing_of_run {bs : List Action} {o' : List Event} (h : Inv s o) (hsilent : Silent s)
    (howner : ¬ s.owner.Resuming) (hrun : run (step proc) s bs = some (t, o'))
    (hbs : .call .resume ∉ bs) (hself : ∀ w, .stopCalled w ∉ o') : Pausing s t o' := by
  have hall : Inv t (o ++ o') ∧ Silent t ∧ Pausing s t o' := by
    refine run_induction (motive := fun bs t o' => .call .resume ∉ bs →
      (∀ w, .stopCalled w ∉ o') → Inv t (o ++ o') ∧ Silent t ∧ Pausing s t o')
      (fun _ _ => ?_) ?_ hrun hbs hself
    · rw [List.append_nil]
      exact ⟨h, hsilent, .frame howner rfl id (.inl rfl) rfl⟩
    · intro bs u o₁ a t es _ ih hs hbs hself
      simp only [List.mem_append, not_or, forall_and, List.mem_singleton] at hbs hself
      obtain ⟨hinv, hsil, hsofar⟩ := ih hbs.1 hself.1
      have hstep := pausing_of_step hinv hsil hsofar.owner (Ne.symm hbs.2) hs hself.2
      rw [← List.append_assoc]
      refine ⟨hinv.step hs hself.2, hsil.step hinv hs, hstep.owner, fun hp => ?_, fun hp => ?_,
        fun hp hq => ?_, fun hp => ?_⟩
      · obtain ⟨hu, hcalls⟩ := hsofar.paused hp
        obtain ⟨ht, hcalls'⟩ := hstep.paused hu
        exact ⟨ht, by rw [processCalls_append, hcalls, hcalls']⟩
      · exact hstep.pausing (hsofar.pausing hp)
      · obtain ⟨hu, hcalls⟩ := hsofar.quiet hp hq
        obtain ⟨ht, hcalls'⟩ := hstep.quiet (hsofar.pausing hp) hu
        exact ⟨ht, by rw [processCalls_append, hcalls, hcalls']⟩
      · rw [processCalls_append]
        rcases hsofar.last hp with hcalls | ⟨hcalls, hu⟩
        · rw [hcalls, Nat.zero_add]
          exact hstep.last (hsofar.pausing hp)
        · obtain ⟨ht, hcalls'⟩ := hstep.quiet (hsofar.pausing hp) hu
          exact .inr ⟨by rw [hcalls, hcalls'], ht⟩
  exact hall.2.2

/-- **`Pause` quiets the worker.** From any reachable state on, as long as `Resume` is not called,
whatever else the owner does: once `m_Pausing` is set, `Process` is called at most once more, and
once `m_Paused` is set, not at all. -/
theorem pause_quiets (proc : ProcKind) (as bs : List Action) (s t : State) (o o' : List Event)
    (hpre : run (step proc) {} as = some (s, o)) (howner : ¬ s.owner.Resuming)
    (hrun : run (step proc) s bs = some (t, o')) (hbs : .call .resume ∉ bs)
    (hok : ∀ w, .start w false ∉ o ++ o') :
    (s.pausing = true → processCalls o' ≤ 1) ∧
      (s.paused = true → processCalls o' = 0 ∧ t.paused = true) := by
  have hwhole : run (step proc) {} (as ++ bs) = some (t, o ++ o') :=
    run_append_eq_some_iff.mpr ⟨s, o, o', hpre, hrun, rfl⟩
  have hself := (sound_of_run hwhole hok).stopCalled
  simp only [List.mem_append, not_or, forall_and] at hself
  have hpausing := pausing_of_run (inv_of_run hpre hself.1) (silent_of_run hpre hself.1) howner
    hrun hbs hself.2
  refine ⟨fun hp => ?_, fun hp => (hpausing.paused hp).symm⟩
  rcases hpausing.last hp with hcalls | ⟨hcalls, -⟩ <;> omega

/-- The worker is running, the owner asks it to pause and waits twice. -/
def pauseRun : List Action :=
  startCall ++ List.replicate 6 (.worker 0 true) ++ [.call .pause, .owner true]

/-- The worker goes on until it is paused, and then it is scheduled again and again. -/
theorem pause_quiets_example : ∃ s o t o', run (step .statistics) {} pauseRun = some (s, o) ∧
    run (step .statistics) s (.owner true :: List.replicate 20 (.worker 0 true)) = some (t, o') ∧
    processCalls o' ≤ 1 := by
  have hrun : ∃ p ∈ run (step .statistics) {} pauseRun, p.1.pausing = true ∧
      p.1.owner = .pauseWait 0 ∧
      ∃ q ∈ run (step .statistics) p.1 (.owner true :: List.replicate 20 (.worker 0 true)),
        startFailed (p.2 ++ q.2) = false := by decide +kernel
  obtain ⟨⟨s, o⟩, hpre, hpausing, howner, ⟨t, o'⟩, hpost, hok⟩ := hrun
  dsimp only at hpausing howner
  refine ⟨s, o, t, o', hpre, hpost, (pause_quiets .statistics _ _ s t o o' hpre ?_ hpost ?_
    (not_mem_of_startFailed hok)).1 hpausing⟩
  · rw [howner]
    rintro (h | h) <;> cases h
  · decide

/-! ## Resuming -/

/-- When `Resume` clears `m_Paused`, it has cleared `m_Pausing`. -/
theorem pausing_of_resumeUnpause {as : List Action} (h : run (step proc) {} as = some (s, o))
    (howner : s.owner = .resumeUnpause) : s.pausing = false := by
  refine run_induction (motive := fun _ s _ => s.owner = .resumeUnpause → s.pausing = false)
    (fun h => by cases h) ?_ h howner
  intro as s o a t es _ ih hs ht
  cases a with
  | call c =>
    obtain ⟨-, hs⟩ := Option.ite_none_right_eq_some.mp hs
    obtain ⟨rfl, -⟩ := Prod.mk.inj (Option.some.inj hs)
    cases c <;> cases ht
  | owner created =>
    have hresume := (ownerMoved_of_ownerStep hs).owner.2 (.inr ht)
    rw [step, ownerStep, hresume] at hs
    obtain ⟨rfl, -⟩ := Prod.mk.inj (Option.some.inj hs)
    rfl
  | worker w ok =>
    obtain ⟨pc, -, hs⟩ := Option.bind_eq_some_iff.mp hs
    obtain ⟨pc', hmoved⟩ := moved_of_workerStep hs
    rw [hmoved.pausing]
    exact ih (hmoved.owner ▸ ht)

/-- While neither `Pause` nor `Resume` is called and `m_Pausing` is not set: the thread is paused by
the workers that were about to set `m_Paused` in the state `u`. -/
structure Resumed (u t : State) : Prop where
  pausing : t.pausing = false
  owner : t.owner ≠ .pause ∧ ¬ t.owner.Resuming
  old : ∀ w : ℕ, t.workers[w]? = some .setPaused → u.workers[w]? = some .setPaused
  paused : t.paused = true ↔
    ∃ w : ℕ, u.workers[w]? = some .setPaused ∧ t.workers[w]? ≠ some .setPaused

theorem Resumed.step {u : State} (h : Resumed u s) {a : Action} (hpause : a ≠ .call .pause)
    (hresume : a ≠ .call .resume) (hs : step proc s a = some (t, es)) : Resumed u t := by
  obtain ⟨hpausing, ⟨hnopause, hnoresume⟩, hold, hpaused⟩ := h
  cases a with
  | call c =>
    obtain ⟨-, hs⟩ := Option.ite_none_right_eq_some.mp hs
    obtain ⟨rfl, -⟩ := Prod.mk.inj (Option.some.inj hs)
    refine ⟨hpausing, ?_, hold, hpaused⟩
    cases c with
    | pause => exact absurd rfl hpause
    | resume => exact absurd rfl hresume
    | _ => simp [Call.entry, OwnerPc.Resuming]
  | owner created =>
    obtain ⟨⟨hnopause', hnext⟩, hflag, hflag', hworkers, -⟩ := ownerMoved_of_ownerStep hs
    have hsame : ∀ w : ℕ, t.workers[w]? = some .setPaused ↔ s.workers[w]? = some .setPaused := by
      intro w
      rcases hworkers with hw | hw
      · rw [hw]
      · rw [hw, List.getElem?_append]
        split
        next => rfl
        next hlt =>
          rw [List.getElem?_eq_none (Nat.le_of_not_lt hlt), List.getElem?_singleton]
          split <;> simp
    have hpaused' : t.paused = s.paused :=
      hflag'.resolve_right fun hr => hnoresume (.inr hr.1)
    refine ⟨?_, ⟨hnopause', fun ht => hnoresume (.inl (hnext ht))⟩, ?_, ?_⟩
    · rcases hflag with heq | ⟨heq, -⟩ | ⟨heq, -⟩
      · rw [heq, hpausing]
      · exact absurd heq hnopause
      · exact absurd (.inl heq) hnoresume
    · exact fun w hw => hold w ((hsame w).mp hw)
    · simp only [hpaused', hpaused, Ne, hsame]
  | worker w ok =>
    obtain ⟨pc, hw, hs⟩ := Option.bind_eq_some_iff.mp hs
    obtain ⟨pc', hmoved⟩ := moved_of_workerStep hs
    have hlt := (List.getElem?_eq_some_iff.mp hw).1
    have hpc' : pc' ≠ .setPaused := by
      intro heq
      rw [(hmoved.toSetPaused heq).1] at hpausing
      cases hpausing
    have hmem : ∀ v : ℕ, t.workers[v]? = some .setPaused ↔
        v ≠ w ∧ s.workers[v]? = some .setPaused := by
      intro v
      rw [hmoved.workers]
      by_cases hvw : v = w
      · rw [hvw, List.getElem?_set_self hlt]
        simp [hpc']
      · rw [List.getElem?_set_ne (Ne.symm hvw)]
        simp [hvw]
    refine ⟨hmoved.pausing.trans hpausing, by rw [hmoved.owner]; exact ⟨hnopause, hnoresume⟩,
      fun v hv => hold v ((hmem v).mp hv).2, ?_⟩
    rw [hmoved.paused, hpaused]
    constructor
    · rintro (⟨v, hv, hleft⟩ | rfl)
      · exact ⟨v, hv, fun ht => hleft ((hmem v).mp ht).2⟩
      · exact ⟨w, hold w hw, fun ht => ((hmem w).mp ht).1 rfl⟩
    · rintro ⟨v, hv, hleft⟩
      by_cases hsv : s.workers[v]? = some .setPaused
      · have hvw : v = w := by
          by_contra hne
          exact hleft ((hmem v).mpr ⟨hne, hsv⟩)
        rw [hvw, hw] at hsv
        exact .inr (Option.some.inj hsv)
      · exact .inl ⟨v, hv, hsv⟩

/-- **When `Resume` has no effect.** After `Resume`, and as long as `Pause` and `Resume` are not
called again, the thread is paused if and only if a worker that had read `m_Pausing` and was about
to set `m_Paused` when `Resume` cleared it has gone on. -/
theorem resume_iff (proc : ProcKind) (as bs : List Action) (s u t : State) (o es o' : List Event)
    (c : Bool) (hpre : run (step proc) {} as = some (s, o)) (howner : s.owner = .resumeUnpause)
    (hs : step proc s (.owner c) = some (u, es)) (hrun : run (step proc) u bs = some (t, o'))
    (hpause : .call .pause ∉ bs) (hresume : .call .resume ∉ bs) :
    t.paused = true ↔
      ∃ w : ℕ, s.workers[w]? = some .setPaused ∧ t.workers[w]? ≠ some .setPaused := by
  have hpausing := pausing_of_resumeUnpause hpre howner
  rw [step, ownerStep, howner] at hs
  obtain ⟨rfl, -⟩ := Prod.mk.inj (Option.some.inj hs)
  have hstart : Resumed s { s with paused := false, owner := .idle } := by
    refine ⟨hpausing, ⟨by simp, by simp [OwnerPc.Resuming]⟩, fun _ hw => hw, ?_⟩
    simp only [Bool.false_eq_true, false_iff, not_exists, not_and, not_not]
    exact fun _ hw => hw
  have hall : Resumed s t := by
    refine run_induction (motive := fun bs t _ => .call .pause ∉ bs → .call .resume ∉ bs →
      Resumed s t) (fun _ _ => hstart) ?_ hrun hpause hresume
    intro bs v o₁ a t es _ ih hs hpause hresume
    simp only [List.mem_append, not_or, List.mem_singleton] at hpause hresume
    exact (ih hpause.1 hresume.1).step (Ne.symm hpause.2) (Ne.symm hresume.2) hs
  exact hall.paused

/-- The worker has read `m_Pausing` when `Pause` gives up waiting and the owner calls `Resume`. -/
def lateRun : List Action :=
  pauseRun ++ [.worker 0 true] ++ List.replicate 6 (.owner true) ++ [.call .resume, .owner true]

/-- The thread is resumed, and the worker pauses for good. -/
theorem resume_iff_example : ∃ s o u es t o', run (step .statistics) {} lateRun = some (s, o) ∧
    step .statistics s (.owner true) = some (u, es) ∧
    run (step .statistics) u (List.replicate 20 (.worker 0 true)) = some (t, o') ∧
    t.paused = true := by
  have hrun : ∃ p ∈ run (step .statistics) {} lateRun, p.1.owner = .resumeUnpause ∧
      p.1.workers[0]? = some .setPaused ∧ ∃ q ∈ step .statistics p.1 (.owner true),
        ∃ r ∈ run (step .statistics) q.1 (List.replicate 20 (.worker 0 true)),
          r.1.workers[0]? ≠ some .setPaused := by decide +kernel
  obtain ⟨⟨s, o⟩, hpre, howner, hset, ⟨u, es⟩, hs, ⟨t, o'⟩, hpost, hleft⟩ := hrun
  exact ⟨s, o, u, es, t, o', hpre, hs, hpost, (resume_iff .statistics _ _ s u t o es o' true hpre
    howner hs hpost (by decide) (by decide)).mpr ⟨0, hset, hleft⟩⟩

end SimpleTSDB.Thread
