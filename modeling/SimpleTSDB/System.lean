import SimpleTSDB.Datastore.Reports
import SimpleTSDB.Datastore.Sessions
import SimpleTSDB.Puts

/-!
# The whole program

The front ends and the datastore in one run: the telnet thread and the workers of the HTTP server
handle their input while the datastore thread drains the queue. What a front end does for an event
does not depend on the datastore, so that the effects are computed when the event is taken and
carried out one by one afterwards, between the steps of the other threads. `Kernel::Stop` stops the
datastore only when the front ends have been stopped. A run of the program is a run of the front
ends and a run of the datastore (`Simulated`), and `system_archive` says that what the clients have
put is what is added to the data directory.
-/

namespace SimpleTSDB

open Transducer Telnet Http Datastore

variable {F : Type*}

/-- The program: the telnet processor, the effects that its thread and the workers of the HTTP
server have still to carry out, the datastore, and whether the front ends have been stopped. -/
structure SystemState (F : Type*) where
  telnet : TelnetProcessor
  telnetPending : List Effect
  httpPending : List (List Effect)
  store : Datastore.State F
  frontEndsStopped : Bool

/-- An atomic step of one of the threads. -/
inductive SystemAction
  | frontEnd (e : FrontEndEvent)
  | telnetEffect
  | httpEffect (i : ℕ)
  | stopFrontEnds
  | datastore (a : Datastore.Action)

/-- What a step does. -/
inductive SystemEvent (F : Type*)
  | effect (e : Effect)
  | store (e : Datastore.Event F)

/-- The program when the front ends are started on a running datastore. -/
def SystemState.started (listener : ℕ) (d : Databases F) : SystemState F where
  telnet := Telnet.started listener
  telnetPending := []
  httpPending := []
  store := Datastore.started d
  frontEndsStopped := false

variable [DecidableEq F]

/-- An effect is carried out: a metric is queued in the datastore. -/
def carryOut (cfg : Config F) (s : SystemState F) (e : Effect) :
    Option (SystemState F × List (SystemEvent F)) :=
  match e with
  | .queueMetric m =>
    (step cfg s.store (.enqueue m)).map fun p =>
      ({ s with store := p.1 }, .effect e :: p.2.map .store)
  | _ => some (s, [.effect e])

/-- A step of the program; `none` if it is not possible, or if a `substr` throws. -/
def systemStep (cfg : Config F) (s : SystemState F) :
    SystemAction → Option (SystemState F × List (SystemEvent F))
  -- the telnet thread takes an event when it is done with the one before
  | .frontEnd (.telnet e) =>
    if s.frontEndsStopped || !s.telnetPending.isEmpty then none
    else (handle s.telnet e).map fun p => ({ s with telnet := p.1, telnetPending := p.2 }, [])
  -- a worker takes a request
  | .frontEnd (.http method body) =>
    if s.frontEndsStopped then none
    else (apiPutHandler method body).map fun p =>
      ({ s with httpPending := s.httpPending ++ [p.1] }, [])
  | .telnetEffect =>
    match s.telnetPending with
    | [] => none
    | e :: es => carryOut cfg { s with telnetPending := es } e
  | .httpEffect i =>
    match s.httpPending[i]? with
    | some (e :: es) => carryOut cfg { s with httpPending := s.httpPending.set i es } e
    | _ => none
  -- the threads of the front ends have ended
  | .stopFrontEnds =>
    if s.telnetPending.isEmpty && s.httpPending.flatten.isEmpty && s.store.uncounted = 0 then
      some ({ s with frontEndsStopped := true }, [])
    else none
  -- the datastore: its queue is filled by the front ends, and it is stopped after them
  | .datastore (.enqueue _) => none
  | .datastore .stop =>
    if s.frontEndsStopped then
      (step cfg s.store .stop).map fun p => ({ s with store := p.1 }, p.2.map .store)
    else none
  | .datastore a => (step cfg s.store a).map fun p => ({ s with store := p.1 }, p.2.map .store)

/-! ## The parts of a run -/

/-- The events that the front ends have taken. -/
def frontEvents (as : List SystemAction) : List FrontEndEvent :=
  as.filterMap fun | .frontEnd e => some e | _ => none

/-- The steps that the datastore has taken of its own. -/
def ownActions (as : List SystemAction) : List Datastore.Action :=
  as.filterMap fun | .datastore a => some a | _ => none

/-- The effects that have been carried out. -/
def effects (o : List (SystemEvent F)) : List Effect :=
  o.filterMap fun | .effect e => some e | .store _ => none

/-- What the datastore has done. -/
def storeEvents (o : List (SystemEvent F)) : List (Datastore.Event F) :=
  o.filterMap fun | .effect _ => none | .store e => some e

omit [DecidableEq F] in
theorem effects_append (o o' : List (SystemEvent F)) :
    effects (o ++ o') = effects o ++ effects o' :=
  List.filterMap_append

omit [DecidableEq F] in
theorem storeEvents_append (o o' : List (SystemEvent F)) :
    storeEvents (o ++ o') = storeEvents o ++ storeEvents o' := List.filterMap_append

omit [DecidableEq F] in
theorem observe_store (es : List (Datastore.Event F)) :
    effects (es.map .store) = [] ∧ storeEvents (es.map .store) = es := by
  simp [effects, storeEvents, List.filterMap_map]

/-- A run of the program as a run of the front ends and a run of the datastore. -/
structure Simulated (cfg : Config F) (listener : ℕ) (d : Databases F) (as : List SystemAction)
    (s : SystemState F) (o : List (SystemEvent F)) (das : List Datastore.Action) : Prop where
  datastore : run (step cfg) (Datastore.started d) das = some (s.store, storeEvents o)
  stopsLast : StopsLast das
  stop : .stop ∈ das → s.frontEndsStopped = true
  enqueues_eq : enqueues das = queued (effects o)
  published : publications das = publications (ownActions as)
  idle : s.frontEndsStopped = true → s.telnetPending = [] ∧ s.httpPending.flatten = []
  frontEnds : ∃ fo, run frontEndStep (Telnet.started listener) (frontEvents as) =
      some (s.telnet, fo) ∧
    (queued fo).Perm
      (queued (effects o) ++ (queued s.telnetPending ++ queued s.httpPending.flatten))

namespace Simulated

variable {cfg : Config F} {listener : ℕ} {d : Databases F} {as : List SystemAction}
  {s : SystemState F} {o : List (SystemEvent F)} {das : List Datastore.Action}

theorem start (cfg : Config F) (listener : ℕ) (d : Databases F) :
    Simulated cfg listener d [] (.started listener d) [] [] where
  datastore := rfl
  stopsLast := .nil
  stop h := absurd h List.not_mem_nil
  enqueues_eq := rfl
  published := rfl
  idle h := absurd h Bool.false_ne_true
  frontEnds := ⟨[], rfl, .nil⟩

/-- The datastore takes a step of its own. -/
theorem step (h : Simulated cfg listener d as s o das) {a : Datastore.Action}
    {st : Datastore.State F} {es : List (Datastore.Event F)}
    (hs : Datastore.step cfg s.store a = some (st, es)) (henqueue : ∀ m, a ≠ .enqueue m)
    (hstop : a = .stop → s.frontEndsStopped = true) :
    Simulated cfg listener d (as ++ [.datastore a]) { s with store := st } (o ++ es.map .store)
      (das ++ [a]) := by
  obtain ⟨heffects, hstore⟩ := observe_store es
  refine ⟨?_, ?_, ?_, ?_, ?_, h.idle, ?_⟩
  · rw [storeEvents_append, hstore]
    exact run_append_eq_some_iff.mpr ⟨s.store, _, es, h.datastore, by rwa [run_singleton], rfl⟩
  · rw [StopsLast, List.pairwise_append]
    refine ⟨h.stopsLast, List.pairwise_singleton _ _, fun b _ c hc _ m => ?_⟩
    rw [List.mem_singleton.mp hc]
    exact henqueue m
  · intro hmem
    rcases List.mem_append.mp hmem with hmem | hmem
    · exact h.stop hmem
    · exact hstop (List.mem_singleton.mp hmem).symm
  · have hnone : enqueues [a] = [] := by
      cases a with
      | enqueue m => exact absurd rfl (henqueue m)
      | _ => rfl
    rw [effects_append, heffects, List.append_nil, ← h.enqueues_eq, enqueues_append, hnone,
      List.append_nil]
  · have hown : ownActions (as ++ [.datastore a]) = ownActions as ++ [a] := List.filterMap_append
    rw [hown, publications_append, publications_append, h.published]
  · have hnone : frontEvents (as ++ [.datastore a]) = frontEvents as :=
      List.filterMap_append.trans (List.append_nil _)
    rw [hnone, effects_append, heffects, List.append_nil]
    exact h.frontEnds

/-- A front end carries out the next effect of an event it has taken. -/
theorem carryOut (h : Simulated cfg listener d as s o das) {a : SystemAction}
    {s₁ t : SystemState F} {e : Effect} {es : List (SystemEvent F)}
    (ha : frontEvents [a] = [] ∧ ownActions [a] = [])
    (hrunning : s.frontEndsStopped = false)
    (hsame : s₁.telnet = s.telnet ∧ s₁.store = s.store ∧ s₁.frontEndsStopped = s.frontEndsStopped)
    (hpending : (queued s.telnetPending ++ queued s.httpPending.flatten).Perm
      (queued [e] ++ (queued s₁.telnetPending ++ queued s₁.httpPending.flatten)))
    (hs : SimpleTSDB.carryOut cfg s₁ e = some (t, es)) :
    ∃ das', Simulated cfg listener d (as ++ [a]) t (o ++ es) das' := by
  obtain ⟨htelnet, hstore, hstopped⟩ := hsame
  obtain ⟨fo, hfront, hperm⟩ := h.frontEnds
  have hevents : frontEvents (as ++ [a]) = frontEvents as :=
    List.filterMap_append.trans (by rw [← frontEvents, ← frontEvents, ha.1, List.append_nil])
  have hown : ownActions (as ++ [a]) = ownActions as :=
    List.filterMap_append.trans (by rw [← ownActions, ← ownActions, ha.2, List.append_nil])
  have hqueued : (queued fo).Perm (queued (effects o ++ [e]) ++
      (queued s₁.telnetPending ++ queued s₁.httpPending.flatten)) := by
    rw [queued_append, List.append_assoc]
    exact hperm.trans (hpending.append_left _)
  have hnostop : .stop ∉ das := fun hmem => by simp [h.stop hmem] at hrunning
  cases e with
  | queueMetric m =>
    obtain ⟨rfl, rfl⟩ := Prod.mk.inj (Option.some.inj hs)
    refine ⟨das ++ [.enqueue m], ?_, ?_, ?_, ?_, ?_, ?_, ?_⟩
    · refine run_append_eq_some_iff.mpr ⟨s.store, _, [.enqueued m], h.datastore, ?_, ?_⟩
      · rw [run_singleton, ← hstore]
        rfl
      · rw [storeEvents_append]
        rfl
    · rw [StopsLast, List.pairwise_append]
      refine ⟨h.stopsLast, List.pairwise_singleton _ _, fun b hb _ _ hbstop => ?_⟩
      exact absurd (hbstop ▸ hb) hnostop
    · intro hmem
      rcases List.mem_append.mp hmem with hmem | hmem
      · exact absurd hmem hnostop
      · cases List.mem_singleton.mp hmem
    · rw [effects_append, queued_append, ← h.enqueues_eq]
      exact enqueues_append _ _
    · rw [hown, ← h.published, publications_append]
      exact List.append_nil _
    · intro hidle
      rw [← hstopped] at hrunning
      simp [hrunning] at hidle
    · rw [hevents, effects_append]
      exact ⟨fo, htelnet ▸ hfront, hqueued⟩
  | _ =>
    obtain ⟨rfl, rfl⟩ := Prod.mk.inj (Option.some.inj hs)
    refine ⟨das, ?_, h.stopsLast, fun hmem => absurd hmem hnostop, ?_, hown ▸ h.published, ?_, ?_⟩
    · rw [storeEvents_append, hstore]
      exact h.datastore.trans (by simp [storeEvents])
    · rw [effects_append, queued_append, h.enqueues_eq]
      exact (List.append_nil _).symm
    · intro hidle
      rw [← hstopped] at hrunning
      simp [hrunning] at hidle
    · rw [hevents, effects_append]
      exact ⟨fo, htelnet ▸ hfront, hqueued⟩

/-- A front end takes an event. -/
theorem frontEnd (h : Simulated cfg listener d as s o das) {e : FrontEndEvent}
    {t : SystemState F} {es : List Effect} (hrunning : s.frontEndsStopped = false)
    (hsame : t.store = s.store ∧ t.frontEndsStopped = s.frontEndsStopped)
    (he : frontEndStep s.telnet e = some (t.telnet, es))
    (hpending : (queued t.telnetPending ++ queued t.httpPending.flatten).Perm
      (queued s.telnetPending ++ queued s.httpPending.flatten ++ queued es)) :
    Simulated cfg listener d (as ++ [.frontEnd e]) t o das := by
  obtain ⟨hstore, hstopped⟩ := hsame
  obtain ⟨fo, hfront, hperm⟩ := h.frontEnds
  have hevents : frontEvents (as ++ [.frontEnd e]) = frontEvents as ++ [e] :=
    List.filterMap_append
  have hown : ownActions (as ++ [.frontEnd e]) = ownActions as :=
    List.filterMap_append.trans (List.append_nil _)
  refine ⟨hstore ▸ h.datastore, h.stopsLast, hstopped ▸ h.stop, h.enqueues_eq, hown ▸ h.published,
    ?_, fo ++ es, ?_, ?_⟩
  · intro hidle
    rw [← hstopped] at hrunning
    simp [hrunning] at hidle
  · rw [hevents]
    exact run_append_eq_some_iff.mpr ⟨s.telnet, fo, es, hfront, by rwa [run_singleton], rfl⟩
  · rw [queued_append]
    refine (hperm.append_right _).trans ?_
    rw [List.append_assoc]
    exact hpending.symm.append_left _

/-- **Every step of the program** is one of the front ends or one of the datastore. -/
theorem systemStep (h : Simulated cfg listener d as s o das) {a : SystemAction} {t : SystemState F}
    {es : List (SystemEvent F)} (hs : SimpleTSDB.systemStep cfg s a = some (t, es)) :
    ∃ das', Simulated cfg listener d (as ++ [a]) t (o ++ es) das' := by
  cases a with
  | frontEnd e =>
    cases e with
    | telnet e =>
      obtain ⟨hguard, hs⟩ := Option.ite_none_left_eq_some.mp hs
      obtain ⟨⟨telnet, es'⟩, he, heq⟩ := Option.map_eq_some_iff.mp hs
      obtain ⟨rfl, rfl⟩ := Prod.mk.inj heq
      obtain ⟨hrunning, hdone⟩ : s.frontEndsStopped = false ∧ s.telnetPending = [] := by
        simpa using hguard
      rw [List.append_nil]
      refine ⟨das, h.frontEnd hrunning ⟨rfl, rfl⟩ he ?_⟩
      rw [hdone]
      exact List.perm_append_comm
    | http method body =>
      obtain ⟨hguard, hs⟩ := Option.ite_none_left_eq_some.mp hs
      obtain ⟨⟨es', status⟩, he, heq⟩ := Option.map_eq_some_iff.mp hs
      obtain ⟨rfl, rfl⟩ := Prod.mk.inj heq
      have hstep : frontEndStep s.telnet (.http method body) = some (s.telnet, es') := by
        rw [frontEndStep, he, Option.map_some]
      rw [List.append_nil]
      refine ⟨das, h.frontEnd (Bool.eq_false_iff.mpr hguard) ⟨rfl, rfl⟩ hstep (.of_eq ?_)⟩
      simp [queued_append]
  | telnetEffect =>
    simp only [SimpleTSDB.systemStep] at hs
    split at hs
    · cases hs
    next e es' hpending =>
      have hrunning : s.frontEndsStopped = false := by
        by_contra hstopped
        rw [(h.idle (Bool.eq_true_of_not_eq_false hstopped)).1] at hpending
        cases hpending
      refine h.carryOut ⟨rfl, rfl⟩ hrunning ?_ (.of_eq ?_) hs
      · exact ⟨rfl, rfl, rfl⟩
      · rw [hpending, ← List.singleton_append, queued_append, List.append_assoc]
  | httpEffect i =>
    simp only [SimpleTSDB.systemStep] at hs
    split at hs
    next e es' hpending =>
      obtain ⟨hi, hget⟩ := List.getElem?_eq_some_iff.mp hpending
      have hsplit : s.httpPending =
          s.httpPending.take i ++ (e :: es') :: s.httpPending.drop (i + 1) := by
        rw [← hget, List.getElem_cons_drop, List.take_append_drop]
      have hset : s.httpPending.set i es' =
          s.httpPending.take i ++ es' :: s.httpPending.drop (i + 1) := by
        rw [List.set_eq_take_append_cons_drop, if_pos hi]
      have hrunning : s.frontEndsStopped = false := by
        by_contra hstopped
        have hnil := (h.idle (Bool.eq_true_of_not_eq_false hstopped)).2
        rw [hsplit] at hnil
        simp at hnil
      have hold : queued s.httpPending.flatten = queued (s.httpPending.take i).flatten ++
          (queued [e] ++ queued (es' ++ (s.httpPending.drop (i + 1)).flatten)) := by
        rw [← queued_append, ← queued_append]
        conv_lhs => rw [hsplit, List.flatten_append, List.flatten_cons]
        rfl
      have hnew : queued (s.httpPending.set i es').flatten =
          queued (s.httpPending.take i).flatten ++
            queued (es' ++ (s.httpPending.drop (i + 1)).flatten) := by
        rw [hset, List.flatten_append, List.flatten_cons, queued_append]
      refine h.carryOut ⟨rfl, rfl⟩ hrunning ?_ ?_ hs
      · exact ⟨rfl, rfl, rfl⟩
      · dsimp only
        rw [hold, hnew, ← List.append_assoc, ← List.append_assoc (queued s.telnetPending)]
        exact List.perm_append_comm_assoc ..
    · cases hs
  | stopFrontEnds =>
    obtain ⟨hguard, hs⟩ := Option.ite_none_right_eq_some.mp hs
    obtain ⟨rfl, rfl⟩ := Prod.mk.inj (Option.some.inj hs)
    obtain ⟨⟨htelnet, hhttp⟩, -⟩ : (s.telnetPending = [] ∧ s.httpPending.flatten = []) ∧
        s.store.uncounted = 0 := by simpa [and_assoc] using hguard
    have hevents : frontEvents (as ++ [.stopFrontEnds]) = frontEvents as :=
      List.filterMap_append.trans (List.append_nil _)
    have hown : ownActions (as ++ [.stopFrontEnds]) = ownActions as :=
      List.filterMap_append.trans (List.append_nil _)
    rw [List.append_nil]
    exact ⟨das, h.datastore, h.stopsLast, fun _ => rfl, h.enqueues_eq, hown ▸ h.published,
      fun _ => ⟨htelnet, hhttp⟩, by rw [hevents]; exact h.frontEnds⟩
  | datastore a =>
    have hlift : ∀ hstep : ((Datastore.step cfg s.store a).map fun p =>
        (({ s with store := p.1 } : SystemState F), p.2.map SystemEvent.store)) = some (t, es),
        (∀ m, a ≠ .enqueue m) → (a = .stop → s.frontEndsStopped = true) →
        ∃ das', Simulated cfg listener d (as ++ [.datastore a]) t (o ++ es) das' := by
      intro hstep henqueue hstop
      obtain ⟨⟨st, es'⟩, hst, heq⟩ := Option.map_eq_some_iff.mp hstep
      obtain ⟨rfl, rfl⟩ := Prod.mk.inj heq
      exact ⟨_, h.step hst henqueue hstop⟩
    cases a with
    | enqueue m => cases hs
    | stop =>
      obtain ⟨hstopped, hs⟩ := Option.ite_none_right_eq_some.mp hs
      exact hlift hs (by simp) fun _ => hstopped
    | _ => exact hlift hs (by simp) (by simp)

end Simulated

/-! ## From the clients to the files -/

/-- Every run of the program is simulated. -/
theorem simulated_of_run {cfg : Config F} {listener : ℕ} {d : Databases F} {as : List SystemAction}
    {t : SystemState F} {o : List (SystemEvent F)}
    (h : run (systemStep cfg) (.started listener d) as = some (t, o)) :
    ∃ das, Simulated cfg listener d as t o das :=
  run_induction (motive := fun as t o => ∃ das, Simulated cfg listener d as t o das)
    ⟨[], .start cfg listener d⟩ (fun _ _ _ _ _ _ _ ⟨_, hs⟩ hstep => hs.systemStep hstep) h

namespace Simulated

variable {cfg : Config F} {listener : ℕ} {d : Databases F} {as : List SystemAction}
  {s : SystemState F} {o : List (SystemEvent F)} {das : List Datastore.Action}

/-- What the front ends have queued are metrics that have been put. -/
theorem queued_subperm (h : Simulated cfg listener d as s o das)
    (hp : PossibleRun listener ∅ (telnetEvents (frontEvents as))) :
    (enqueues das).Subperm (puts (frontEvents as)) := by
  obtain ⟨fo, hfront, hperm⟩ := h.frontEnds
  rw [h.enqueues_eq]
  exact ((List.sublist_append_left _ _).subperm.trans hperm.symm.subperm).trans
    (frontEnds_queued hp hfront).subperm

theorem mem_puts (h : Simulated cfg listener d as s o das)
    (hp : PossibleRun listener ∅ (telnetEvents (frontEvents as))) {m : Metric}
    (hm : .enqueue m ∈ das) : m ∈ puts (frontEvents as) :=
  (h.queued_subperm hp).subset (List.mem_filterMap.mpr ⟨_, hm, rfl⟩)

/-- When the front ends have been stopped, everything that has been put is queued. -/
theorem queued_perm (h : Simulated cfg listener d as s o das)
    (hp : PossibleRun listener ∅ (telnetEvents (frontEvents as)))
    (hstopped : s.frontEndsStopped = true) : (enqueues das).Perm (puts (frontEvents as)) := by
  obtain ⟨fo, hfront, hperm⟩ := h.frontEnds
  obtain ⟨htelnet, hhttp⟩ := h.idle hstopped
  rw [htelnet, hhttp] at hperm
  have hdone := hperm.symm.trans (frontEnds_queued hp hfront)
  rwa [show queued [] = [] from rfl, List.append_nil, List.append_nil, ← h.enqueues_eq] at hdone

/-- What has been written has been put or reported. -/
theorem written_subperm (h : Simulated cfg listener d as s o das)
    (hp : PossibleRun listener ∅ (telnetEvents (frontEvents as))) (hok : AllOk (storeEvents o)) :
    (written s.store (storeEvents o)).Subperm
      (puts (frontEvents as) ++ reported cfg (ownActions as)) := by
  have hinv := inv_of_run h.datastore (fun m hm => name_ne_of_mem_puts (h.mem_puts hp hm))
    h.stopsLast hok
  have hwritten : (written s.store (storeEvents o)).Subperm (dequeued (storeEvents o)) :=
    (List.take_sublist _ _).subperm
  have hdequeued : (dequeued (storeEvents o)).Subperm (enqueued (storeEvents o)) := by
    rw [← Multiset.coe_le, hinv.balance]
    exact Multiset.le_add_right _ _
  have henqueued : (enqueued (storeEvents o)).Subperm
      (enqueues das ++ reported cfg (ownActions as)) := by
    have hperm := enqueued_of_run h.datastore
    rw [reported, h.published] at hperm
    exact (List.sublist_append_left _ _).subperm.trans hperm.subperm
  have hput : (enqueues das ++ reported cfg (ownActions as)).Subperm
      (puts (frontEvents as) ++ reported cfg (ownActions as)) :=
    (h.queued_subperm hp).append (List.Perm.refl _).subperm
  exact ((hwritten.trans hdequeued).trans henqueued).trans hput

/-- A program that has been stopped has written everything. -/
theorem written_perm (h : Simulated cfg listener d as s o das)
    (hp : PossibleRun listener ∅ (telnetEvents (frontEvents as))) (hok : AllOk (storeEvents o))
    (hstopped : s.store.pc = .stopped) : (written s.store (storeEvents o)).Perm
      (puts (frontEvents as) ++ reported cfg (ownActions as)) := by
  have hinv := inv_of_run h.datastore (fun m hm => name_ne_of_mem_puts (h.mem_puts hp hm))
    h.stopsLast hok
  have hqueue : s.store.queue = 0 := hinv.drained (by rw [hstopped]; trivial)
  have hall : written s.store (storeEvents o) = dequeued (storeEvents o) := by
    rw [written, hstopped]
    exact List.take_length
  have hbalance := hinv.balance
  rw [hqueue, Multiset.add_zero, Multiset.coe_eq_coe] at hbalance
  have henqueued := enqueued_of_run h.datastore
  rw [hstopped, reported, h.published] at henqueued
  rw [hall]
  -- the datastore is stopped behind the front ends, which have carried out everything
  have hfront : s.frontEndsStopped = true := h.stop (hinv.stopping (by rw [hstopped]; trivial))
  calc
    (dequeued (storeEvents o)).Perm (enqueued (storeEvents o)) := hbalance.symm
    List.Perm _ (enqueued (storeEvents o) ++ []) := .of_eq (List.append_nil _).symm
    List.Perm _ (enqueues das ++ reported cfg (ownActions as)) := henqueued
    List.Perm _ (puts (frontEvents as) ++ reported cfg (ownActions as)) :=
      (h.queued_perm hp hfront).append_right _

/-- The datastore of a run on a data directory is a session. -/
theorem session {sys : Separators} {dir dir' : DataDir sys cfg}
    (h : Simulated cfg listener d as s o das)
    (hstart : Datastore.start cfg dir.present dir.disk (fun _ => .ok) (some dir.entries) =
      some (d.store, true) ∧ d.disk = dir.disk)
    (hp : PossibleRun listener ∅ (telnetEvents (frontEvents as)))
    (hfile : ∀ name ∈ internalNames ++ (puts (frontEvents as)).map Metric.name,
      IsFileName sys (cfg.database name).name)
    (hok : AllOk (storeEvents o))
    (hleft : dir.Becomes dir' (creations (storeEvents o)) s.store.disk) :
    (⟨das, s.store, storeEvents o⟩ : Session F).On dir dir' := by
  refine ⟨⟨d, hstart.1, hstart.2, h.datastore⟩, hok, h.stopsLast,
    fun m hm => name_ne_of_mem_puts (h.mem_puts hp hm), ?_, hleft⟩
  rintro name (hname | ⟨m, hm, rfl⟩)
  · exact hfile name (List.mem_append_left _ hname)
  · exact hfile _ (List.mem_append_right _ (List.mem_map_of_mem (h.mem_puts hp hm)))

end Simulated

/-- **What the clients put is what is added to the data directory.** The program is started on a
directory and stopped in the end, with any interleaving of its threads in between: then the archive
has grown by the metrics of the complete lines of every telnet connection and of the lines of every
request body, and by the internal metrics of the published statistics, each once. -/
theorem system_archive {sys : Separators} (cfg : Config F) (listener : ℕ)
    (dir dir' : DataDir sys cfg) (names : List Str) (d : Databases F) (as : List SystemAction)
    (t : SystemState F) (o : List (SystemEvent F)) (hdir : dir.Holds names)
    (hstart : start cfg dir.present dir.disk (fun _ => .ok) (some dir.entries) =
      some (d.store, true) ∧ d.disk = dir.disk)
    (h : run (systemStep cfg) (.started listener d) as = some (t, o))
    (hpossible : PossibleRun listener ∅ (telnetEvents (frontEvents as)))
    (hfile : ∀ name ∈ internalNames ++ (puts (frontEvents as)).map Metric.name,
      IsFileName sys (cfg.database name).name)
    (hok : AllOk (storeEvents o)) (hstopped : t.store.pc = .stopped)
    (hleft : dir.Becomes dir' (creations (storeEvents o)) t.store.disk) :
    ∃ filed : List Metric, filed.Perm (puts (frontEvents as) ++ reported cfg (ownActions as)) ∧
      archive dir' = (archive dir).addAll (filed.map entryOf) := by
  obtain ⟨das, hsim⟩ := simulated_of_run h
  have hx := hsim.session hstart hpossible hfile hok hleft
  exact ⟨_, hsim.written_perm hpossible hok hstopped, hx.archive_eq hdir⟩

/-- A telnet connection sends a line in two chunks while a request is handled, and the program is
stopped. -/
def twoPutsRun : List SystemAction :=
  [.frontEnd (.telnet (.opened 4)), .frontEnd (.telnet (.data 4 "put cpu 1 2".toList)),
    .frontEnd (.http "POST".toList "cpu 2 3 k=v\n".toList), .httpEffect 0,
    .frontEnd (.telnet (.data 4 " k=v\n".toList)), .telnetEffect, .telnetEffect,
    .datastore .count, .httpEffect 0, .datastore .count, .httpEffect 0, .stopFrontEnds,
    .datastore .stop,
    .datastore (.dequeue ((Metric.accepted "cpu 2 3 k=v".toList).toList ++
      (Metric.accepted "cpu 1 2 k=v".toList).toList)),
    .datastore (.element ⟨true, true, true, true, true, true⟩),
    .datastore (.element ⟨true, true, true, true, true, true⟩), .datastore .endBatch,
    .datastore (.dequeue []), .datastore .close]

theorem system_archive_example : ∃ (dir dir' : DataDir .posix plainConfig) (filed : List Metric),
    filed.Perm (puts (frontEvents twoPutsRun) ++ reported plainConfig (ownActions twoPutsRun)) ∧
      archive dir' = (archive dir).addAll (filed.map entryOf) := by
  have hrun : ∃ p ∈ run (systemStep plainConfig) (.started 3 noDatabases) twoPutsRun,
      AllOk (storeEvents p.2) ∧ p.1.store.pc = .stopped ∧
        creations (storeEvents p.2) = ["cpu".toList] := by decide +kernel
  obtain ⟨⟨t, o⟩, hrun, hok, hpc, hcreated⟩ := hrun
  dsimp only at hok hpc hcreated
  have hnames : ∀ n ∈ [] ++ creations (storeEvents o),
      IsFileName .posix (plainConfig.database n).name := by
    rw [hcreated]
    decide
  have hleft : (plainDir [] (fun _ => {}) (by simp)).Becomes
      (plainDir ([] ++ creations (storeEvents o)) t.store.disk hnames)
      (creations (storeEvents o)) t.store.disk := plainDir_becomes _ _
  exact ⟨_, _, system_archive plainConfig 3 _ _ [] noDatabases twoPutsRun t o plainDir_holds
    ⟨rfl, rfl⟩ hrun (by decide) (by decide +kernel) hok hpc hleft⟩

end SimpleTSDB
