import Mathlib.Data.List.GetD
import SimpleTSDB.Foundations.Fifo
import SimpleTSDB.System

/-!
# The order of the datapoints

The queue of the datastore keeps the elements of each thread in their order. The program is run with
such a queue, in which every metric has its producer: the telnet thread, the worker of a request, or
the datastore itself. A run is a run of the program (`run_plain`), and `system_order` says that the
metrics of every producer are filed in the order in which it has queued them.
-/

namespace SimpleTSDB

open Transducer Telnet Http Datastore Fifo

variable {F : Type*}

/-- A thread that queues metrics. The worker of a request is given by the number of the request. -/
inductive Producer
  | telnet
  | request (k : ℕ)
  | datastore
deriving DecidableEq

/-- The producer of what a step queues. -/
def SystemAction.producer : SystemAction → Producer
  | .telnetEffect => .telnet
  | .httpEffect i => .request i
  | _ => .datastore

/-- A step of the program, where a batch has the producers of its metrics. -/
inductive OrderedAction
  | step (a : SystemAction)
  | dequeue (batch : List (Producer × Metric))

/-- The step without the producers. -/
def OrderedAction.plain : OrderedAction → SystemAction
  | .step a => a
  | .dequeue batch => .datastore (.dequeue (batch.map Prod.snd))

/-- The program with the producers of what is queued. -/
structure OrderedState (F : Type*) where
  system : SystemState F
  queue : List (Producer × Metric)

variable [DecidableEq F]

/-- A step, in which a batch takes the metrics of every producer in their order. -/
def orderedStep (cfg : Config F) (s : OrderedState F) (a : OrderedAction) :
    Option (OrderedState F × List (SystemEvent F)) :=
  match a with
  | .step (.datastore (.dequeue _)) => none
  | .step a =>
    (systemStep cfg s.system a).map fun p =>
      let queued := (enqueued (storeEvents p.2)).map (a.producer, ·)
      (⟨p.1, s.queue ++ queued⟩, p.2)
  | .dequeue batch =>
    match systemStep cfg s.system (.datastore (.dequeue (batch.map Prod.snd))),
      takeAll s.queue batch with
    | some (system, es), some queue => some (⟨system, queue⟩, es)
    | _, _ => none

/-- The metrics that have been taken, with their producers. -/
def taken (as : List OrderedAction) : List (Producer × Metric) :=
  as.flatMap fun | .step _ => [] | .dequeue batch => batch

/-- The metrics that each request puts. -/
def requests (es : List FrontEndEvent) : List (List Metric) :=
  es.filterMap fun | .telnet _ => none | .http method body => some (requestPuts method body)

/-- What a producer has still to queue. -/
def SystemState.pending (s : SystemState F) : Producer → List Metric
  | .telnet => queued s.telnetPending
  | .request k => queued (s.httpPending.getD k [])
  | .datastore => s.store.pc.reports

/-- What every producer puts: the telnet thread what the processor queues for its events, a worker
the metrics of its request, and the datastore the reports. -/
def putBy (cfg : Config F) (telnet : List Effect) (as : List SystemAction) :
    Producer → List Metric
  | .telnet => queued telnet
  | .request k => (requests (frontEvents as)).getD k []
  | .datastore => reported cfg (ownActions as)

/-! ## Steps of the program -/

theorem getD_concat {α : Type*} (l : List (List α)) (x : List α) (k : ℕ) :
    (l ++ [x]).getD k [] = l.getD k [] ++ if k = l.length then x else [] := by
  rcases Nat.lt_trichotomy k l.length with h | h | h
  · rw [List.getD_append _ _ _ _ h, if_neg (Nat.ne_of_lt h), List.append_nil]
  · rw [if_pos h, h]
    simp
  · rw [if_neg (Nat.ne_of_gt h), List.getD_eq_default _ _ (Nat.le_of_lt h), List.getD_eq_default]
    · rfl
    · rw [List.length_append]
      exact h

section Steps

variable {cfg : Config F} {listener : ℕ} {as : List SystemAction} {s t : SystemState F}
  {fo : List Effect} {es : List (SystemEvent F)}

/-- What is known of the producers behind some steps of the program: `fo` is what the telnet
processor does for the events so far. -/
structure Fed (listener : ℕ) (as : List SystemAction) (s : SystemState F) (fo : List Effect) :
    Prop where
  ran : run handle (Telnet.started listener) (telnetEvents (frontEvents as)) =
    some (s.telnet, fo)
  length_eq : s.httpPending.length = (requests (frontEvents as)).length

/-- What a step queues and leaves pending is what was pending and what is put anew. -/
def Feeds (s t : SystemState F) (a : SystemAction) (es : List (SystemEvent F))
    (put put' : Producer → List Metric) : Prop :=
  ∀ i, ∃ new, put' i = put i ++ new ∧
    (if a.producer = i then enqueued (storeEvents es) else []) ++ t.pending i = s.pending i ++ new

omit [DecidableEq F] in
/-- A step that takes no event of a front end. -/
theorem Fed.of_not_frontEnd (h : Fed listener as s fo) {a : SystemAction}
    (ha : frontEvents [a] = []) (htelnet : t.telnet = s.telnet)
    (hhttp : t.httpPending.length = s.httpPending.length) : Fed listener (as ++ [a]) t fo := by
  have hevents : frontEvents (as ++ [a]) = frontEvents as :=
    List.filterMap_append.trans (by rw [← frontEvents, ← frontEvents, ha, List.append_nil])
  constructor
  · rw [hevents, htelnet]
    exact h.ran
  · rw [hevents, hhttp]
    exact h.length_eq

/-- An effect that is carried out. -/
theorem carryOut_spec {e : Effect} (h : carryOut cfg s e = some (t, es)) :
    enqueued (storeEvents es) = queued [e] ∧ t.telnet = s.telnet ∧
      t.telnetPending = s.telnetPending ∧ t.httpPending = s.httpPending ∧
      t.store.pc = s.store.pc := by
  cases e with
  | queueMetric m =>
    obtain ⟨rfl, rfl⟩ := Prod.mk.inj (Option.some.inj h)
    exact ⟨rfl, rfl, rfl, rfl, rfl⟩
  | _ =>
    obtain ⟨rfl, rfl⟩ := Prod.mk.inj (Option.some.inj h)
    exact ⟨rfl, rfl, rfl, rfl, rfl⟩

omit [DecidableEq F] in
/-- What is put by the steps so far, and by one more step that takes no event. -/
theorem putBy_append {a : SystemAction} (ha : frontEvents [a] = []) (i : Producer) :
    putBy cfg fo (as ++ [a]) i =
      putBy cfg fo as i ++ if i = .datastore then reported cfg (ownActions [a]) else [] := by
  have hevents : frontEvents (as ++ [a]) = frontEvents as :=
    List.filterMap_append.trans (by rw [← frontEvents, ← frontEvents, ha, List.append_nil])
  have hown : ownActions (as ++ [a]) = ownActions as ++ ownActions [a] := List.filterMap_append
  cases i with
  | telnet => exact (List.append_nil _).symm
  | request k =>
    simp only [putBy, hevents]
    exact (List.append_nil _).symm
  | datastore =>
    simp only [putBy, hown, reported_append]
    rfl

/-- The telnet processor takes an event. -/
theorem Fed.telnetEvent (h : Fed listener as s fo) {e : Telnet.Event}
    (hs : systemStep cfg s (.frontEnd (.telnet e)) = some (t, es)) :
    ∃ fo', Fed listener (as ++ [.frontEnd (.telnet e)]) t fo' ∧
      Feeds s t (.frontEnd (.telnet e)) es (putBy cfg fo as)
        (putBy cfg fo' (as ++ [.frontEnd (.telnet e)])) := by
  obtain ⟨hguard, hs⟩ := Option.ite_none_left_eq_some.mp hs
  obtain ⟨⟨telnet, es'⟩, he, heq⟩ := Option.map_eq_some_iff.mp hs
  obtain ⟨rfl, rfl⟩ := Prod.mk.inj heq
  obtain ⟨-, hdone⟩ : s.frontEndsStopped = false ∧ s.telnetPending = [] := by simpa using hguard
  have hevents : telnetEvents (frontEvents (as ++ [.frontEnd (.telnet e)])) =
      telnetEvents (frontEvents as) ++ [e] := by
    rw [frontEvents, List.filterMap_append, telnetEvents, List.filterMap_append]
    rfl
  have hrequests : requests (frontEvents (as ++ [.frontEnd (.telnet e)])) =
      requests (frontEvents as) := by
    rw [frontEvents, List.filterMap_append, requests, List.filterMap_append]
    exact List.append_nil _
  have hown : ownActions (as ++ [.frontEnd (.telnet e)]) = ownActions as :=
    List.filterMap_append.trans (List.append_nil _)
  refine ⟨fo ++ es', ⟨?_, ?_⟩, fun i => ?_⟩
  · rw [hevents]
    exact run_append_eq_some_iff.mpr ⟨s.telnet, fo, es', h.ran, by rwa [run_singleton], rfl⟩
  · rw [hrequests]
    exact h.length_eq
  · cases i with
    | telnet =>
      refine ⟨queued es', queued_append _ _, ?_⟩
      simp [SystemAction.producer, SystemState.pending, hdone, queued]
    | request k =>
      refine ⟨[], ?_, (List.append_nil _).symm⟩
      rw [putBy, putBy, hrequests, List.append_nil]
    | datastore =>
      refine ⟨[], ?_, (List.append_nil _).symm⟩
      rw [putBy, putBy, hown, List.append_nil]

/-- A worker takes a request. -/
theorem Fed.httpEvent (h : Fed listener as s fo) {method body : Str}
    (hs : systemStep cfg s (.frontEnd (.http method body)) = some (t, es)) :
    Fed listener (as ++ [.frontEnd (.http method body)]) t fo ∧
      Feeds s t (.frontEnd (.http method body)) es (putBy cfg fo as)
        (putBy cfg fo (as ++ [.frontEnd (.http method body)])) := by
  obtain ⟨hguard, hs⟩ := Option.ite_none_left_eq_some.mp hs
  obtain ⟨⟨es', status⟩, he, heq⟩ := Option.map_eq_some_iff.mp hs
  obtain ⟨rfl, rfl⟩ := Prod.mk.inj heq
  have hevents : telnetEvents (frontEvents (as ++ [.frontEnd (.http method body)])) =
      telnetEvents (frontEvents as) := by
    rw [frontEvents, List.filterMap_append, telnetEvents, List.filterMap_append]
    exact List.append_nil _
  have hrequests : requests (frontEvents (as ++ [.frontEnd (.http method body)])) =
      requests (frontEvents as) ++ [requestPuts method body] := by
    rw [frontEvents, List.filterMap_append, requests, List.filterMap_append]
    rfl
  have hown : ownActions (as ++ [.frontEnd (.http method body)]) = ownActions as :=
    List.filterMap_append.trans (List.append_nil _)
  refine ⟨⟨?_, ?_⟩, fun i => ?_⟩
  · rw [hevents]
    exact h.ran
  · rw [hrequests, List.length_append, List.length_append, h.length_eq]
    rfl
  · cases i with
    | telnet => exact ⟨[], (List.append_nil _).symm, (List.append_nil _).symm⟩
    | datastore =>
      refine ⟨[], ?_, (List.append_nil _).symm⟩
      rw [putBy, putBy, hown, List.append_nil]
    | request k =>
      refine ⟨if k = s.httpPending.length then requestPuts method body else [], ?_, ?_⟩
      · rw [putBy, putBy, hrequests, getD_concat, h.length_eq]
      · have hput : (if k = s.httpPending.length then requestPuts method body else []) =
            queued (if k = s.httpPending.length then es' else []) := by
          split
          · exact (queued_apiPutHandler he).symm
          · rfl
        rw [hput]
        exact (congrArg queued (getD_concat _ _ _)).trans (queued_append _ _)

/-- The next effect of a front end is carried out: `i` is the producer. -/
theorem Fed.effect (h : Fed listener as s fo) {a : SystemAction} {s₁ : SystemState F} {e : Effect}
    (ha : frontEvents [a] = [] ∧ ownActions [a] = []) (hproducer : a.producer ≠ .datastore)
    (hsame : s₁.telnet = s.telnet ∧ s₁.store = s.store ∧
      s₁.httpPending.length = s.httpPending.length)
    (hpending : ∀ i, i ≠ .datastore →
      (if a.producer = i then queued [e] else []) ++ s₁.pending i = s.pending i)
    (hs : carryOut cfg s₁ e = some (t, es)) :
    Fed listener (as ++ [a]) t fo ∧
      Feeds s t a es (putBy cfg fo as) (putBy cfg fo (as ++ [a])) := by
  obtain ⟨hqueued, htelnet, htelnetPending, hhttpPending, hpc⟩ := carryOut_spec hs
  obtain ⟨hsameTelnet, hsameStore, hlength⟩ := hsame
  refine ⟨h.of_not_frontEnd ha.1 (htelnet.trans hsameTelnet) (hhttpPending ▸ hlength), fun i => ?_⟩
  have hput : putBy cfg fo (as ++ [a]) i = putBy cfg fo as i ++ [] := by
    rw [putBy_append ha.1, ha.2]
    exact congrArg _ (ite_self _)
  refine ⟨[], hput, ?_⟩
  have hsame : t.pending i = s₁.pending i := by
    cases i with
    | telnet => exact congrArg queued htelnetPending
    | request k => exact congrArg (fun l => queued (List.getD l k [])) hhttpPending
    | datastore => exact congrArg Pc.reports hpc
  rw [hqueued, hsame, List.append_nil]
  by_cases hi : i = .datastore
  · subst hi
    rw [if_neg hproducer]
    exact congrArg (fun store => store.pc.reports) hsameStore
  · exact hpending i hi

/-- The datastore takes a step of its own. -/
theorem Fed.datastoreStep (h : Fed listener as s fo) {a : Datastore.Action}
    {st : Datastore.State F} {es : List (Datastore.Event F)}
    (hs : Datastore.step cfg s.store a = some (st, es)) (ha : ∀ m, a ≠ .enqueue m) :
    Fed listener (as ++ [.datastore a]) { s with store := st } fo ∧
      Feeds s { s with store := st } (.datastore a) (es.map .store) (putBy cfg fo as)
        (putBy cfg fo (as ++ [.datastore a])) := by
  refine ⟨h.of_not_frontEnd rfl rfl rfl, fun i => ⟨_, putBy_append rfl i, ?_⟩⟩
  rw [(observe_store es).2]
  cases i with
  | datastore => exact step_reports hs ha
  | _ => exact (List.append_nil _).symm

/-- **Every step** queues for its producer what is next, and nothing for the others. -/
theorem Fed.systemStep (h : Fed listener as s fo) {a : SystemAction}
    (hs : SimpleTSDB.systemStep cfg s a = some (t, es)) :
    ∃ fo', Fed listener (as ++ [a]) t fo' ∧
      Feeds s t a es (putBy cfg fo as) (putBy cfg fo' (as ++ [a])) := by
  cases a with
  | frontEnd e =>
    cases e with
    | telnet e => exact h.telnetEvent hs
    | http method body => exact ⟨fo, h.httpEvent hs⟩
  | telnetEffect =>
    simp only [SimpleTSDB.systemStep] at hs
    split at hs
    · cases hs
    next e es' hpending =>
      refine ⟨fo, h.effect ⟨rfl, rfl⟩ (by simp [SystemAction.producer]) ?_ ?_ hs⟩
      · exact ⟨rfl, rfl, rfl⟩
      · intro i hi
        cases i with
        | telnet => exact (queued_append [e] es').symm.trans (congrArg queued hpending.symm)
        | request k => rfl
        | datastore => exact absurd rfl hi
  | httpEffect k =>
    simp only [SimpleTSDB.systemStep] at hs
    split at hs
    next e es' hpending =>
      obtain ⟨hk, hget⟩ := List.getElem?_eq_some_iff.mp hpending
      refine ⟨fo, h.effect ⟨rfl, rfl⟩ (by simp [SystemAction.producer]) ?_ ?_ hs⟩
      · exact ⟨rfl, rfl, List.length_set⟩
      · intro i hi
        cases i with
        | telnet => rfl
        | request j =>
          by_cases hj : k = j
          · subst hj
            have hold : s.httpPending.getD k [] = [e] ++ es' := by
              rw [List.getD_eq_getElem?_getD, hpending]
              rfl
            have hnew : (s.httpPending.set k es').getD k [] = es' := by
              simp [List.getD_eq_getElem?_getD, hk]
            rw [if_pos (show (SystemAction.httpEffect k).producer = .request k from rfl)]
            simp only [SystemState.pending, hold, hnew, queued_append]
          · have hnew : (s.httpPending.set k es').getD j [] = s.httpPending.getD j [] := by
              simp [List.getD_eq_getElem?_getD, hj]
            have hother : (SystemAction.httpEffect k).producer ≠ .request j :=
              fun heq => hj (Producer.request.inj heq)
            rw [if_neg hother, List.nil_append]
            exact congrArg queued hnew
        | datastore => exact absurd rfl hi
    · cases hs
  | stopFrontEnds =>
    obtain ⟨-, hs⟩ := Option.ite_none_right_eq_some.mp hs
    obtain ⟨rfl, rfl⟩ := Prod.mk.inj (Option.some.inj hs)
    refine ⟨fo, h.of_not_frontEnd rfl rfl rfl, fun i => ⟨_, putBy_append rfl i, ?_⟩⟩
    cases i <;> exact (List.append_nil _).symm
  | datastore a =>
    have hlift : ∀ hstep : ((Datastore.step cfg s.store a).map fun p =>
        (({ s with store := p.1 } : SystemState F), p.2.map SystemEvent.store)) = some (t, es),
        (∀ m, a ≠ .enqueue m) → ∃ fo', Fed listener (as ++ [.datastore a]) t fo' ∧
          Feeds s t (.datastore a) es (putBy cfg fo as)
            (putBy cfg fo' (as ++ [.datastore a])) := by
      intro hstep henqueue
      obtain ⟨⟨st, es'⟩, hst, heq⟩ := Option.map_eq_some_iff.mp hstep
      obtain ⟨rfl, rfl⟩ := Prod.mk.inj heq
      exact ⟨fo, h.datastoreStep hst henqueue⟩
    cases a with
    | enqueue m => cases hs
    | stop =>
      obtain ⟨-, hs⟩ := Option.ite_none_right_eq_some.mp hs
      exact hlift hs (by simp)
    | _ => exact hlift hs (by simp)

end Steps

/-! ## Runs -/

/-- The program with its producers when the front ends are started. -/
def OrderedState.started (listener : ℕ) (d : Databases F) : OrderedState F :=
  ⟨.started listener d, []⟩

/-- What is known behind a run with producers: it is a run of the program, and for every producer
the metrics that have been taken, those in the queue and those pending are what it puts. -/
structure Ordered (cfg : Config F) (listener : ℕ) (d : Databases F) (as : List OrderedAction)
    (s : OrderedState F) (o : List (SystemEvent F)) (fo : List Effect) : Prop where
  plain : run (systemStep cfg) (.started listener d) (as.map OrderedAction.plain) =
    some (s.system, o)
  fed : Fed listener (as.map OrderedAction.plain) s.system fo
  all : ((taken as ++ s.queue).map Prod.snd).Perm (enqueued (storeEvents o))
  taken_eq : (taken as).map Prod.snd = dequeued (storeEvents o)
  order : ∀ i, of i (taken as) ++ of i s.queue ++ s.system.pending i =
    putBy cfg fo (as.map OrderedAction.plain) i

namespace Ordered

variable {cfg : Config F} {listener : ℕ} {d : Databases F} {as : List OrderedAction}
  {s t : OrderedState F} {o es : List (SystemEvent F)} {fo : List Effect}

theorem start (cfg : Config F) (listener : ℕ) (d : Databases F) :
    Ordered cfg listener d [] (.started listener d) [] [] where
  plain := rfl
  fed := ⟨rfl, rfl⟩
  all := .nil
  taken_eq := rfl
  order i := by cases i <;> rfl

omit [DecidableEq F] in
theorem taken_append (as : List OrderedAction) (a : OrderedAction) :
    taken (as ++ [a]) = taken as ++ taken [a] := List.flatMap_append

/-- A step of the program, with what it leaves in the queue. -/
theorem snoc (h : Ordered cfg listener d as s o fo) {a : OrderedAction}
    (hs : SimpleTSDB.systemStep cfg s.system a.plain = some (t.system, es))
    (hqueue : ∀ i, of i s.queue ++
      (if a.plain.producer = i then enqueued (storeEvents es) else []) =
        of i (taken [a]) ++ of i t.queue)
    (hall : (s.queue.map Prod.snd ++ enqueued (storeEvents es)).Perm
      ((taken [a] ++ t.queue).map Prod.snd))
    (htaken : (taken [a]).map Prod.snd = dequeued (storeEvents es)) :
    ∃ fo', Ordered cfg listener d (as ++ [a]) t (o ++ es) fo' := by
  obtain ⟨fo', hfed, hfeeds⟩ := h.fed.systemStep hs
  have hmap : (as ++ [a]).map OrderedAction.plain = as.map OrderedAction.plain ++ [a.plain] :=
    List.map_append
  refine ⟨fo', ?_, ?_, ?_, ?_, fun i => ?_⟩
  · rw [hmap]
    exact run_append_eq_some_iff.mpr ⟨s.system, o, es, h.plain, by rwa [run_singleton], rfl⟩
  · rw [hmap]
    exact hfed
  · rw [taken_append, storeEvents_append, enqueued_append, List.append_assoc, List.map_append]
    refine (hall.symm.append_left _).trans ?_
    rw [← List.append_assoc, ← List.map_append]
    exact h.all.append_right _
  · rw [taken_append, storeEvents_append, dequeued_append, List.map_append, h.taken_eq, htaken]
  · obtain ⟨new, hput, hpending⟩ := hfeeds i
    rw [hmap, hput, ← h.order i, taken_append, of_append]
    calc
      of i (taken as) ++ of i (taken [a]) ++ of i t.queue ++ t.system.pending i =
          of i (taken as) ++ (of i (taken [a]) ++ of i t.queue) ++ t.system.pending i := by
        rw [List.append_assoc (of i (taken as))]
      _ = of i (taken as) ++ of i s.queue ++
          ((if a.plain.producer = i then enqueued (storeEvents es) else []) ++
            t.system.pending i) := by
        rw [← hqueue i]
        simp only [List.append_assoc]
      _ = of i (taken as) ++ of i s.queue ++ s.system.pending i ++ new := by
        rw [hpending, List.append_assoc (of i (taken as) ++ of i s.queue)]

/-- Only a batch is taken from the queue. -/
theorem dequeued_systemStep {s t : SystemState F} {a : SystemAction}
    (hs : SimpleTSDB.systemStep cfg s a = some (t, es))
    (ha : ∀ batch, a ≠ .datastore (.dequeue batch)) : dequeued (storeEvents es) = [] := by
  have hcarry {s₁ : SystemState F} {e : Effect} (h : SimpleTSDB.carryOut cfg s₁ e = some (t, es)) :
      dequeued (storeEvents es) = [] := by
    cases e <;> obtain ⟨-, rfl⟩ := Prod.mk.inj (Option.some.inj h) <;> rfl
  cases a with
  | frontEnd e =>
    cases e with
    | telnet e =>
      obtain ⟨-, hs⟩ := Option.ite_none_left_eq_some.mp hs
      obtain ⟨p, -, heq⟩ := Option.map_eq_some_iff.mp hs
      obtain ⟨-, rfl⟩ := Prod.mk.inj heq
      rfl
    | http method body =>
      obtain ⟨-, hs⟩ := Option.ite_none_left_eq_some.mp hs
      obtain ⟨p, -, heq⟩ := Option.map_eq_some_iff.mp hs
      obtain ⟨-, rfl⟩ := Prod.mk.inj heq
      rfl
  | telnetEffect =>
    simp only [SimpleTSDB.systemStep] at hs
    split at hs
    · cases hs
    · exact hcarry hs
  | httpEffect k =>
    simp only [SimpleTSDB.systemStep] at hs
    split at hs
    · exact hcarry hs
    · cases hs
  | stopFrontEnds =>
    obtain ⟨-, hs⟩ := Option.ite_none_right_eq_some.mp hs
    obtain ⟨-, rfl⟩ := Prod.mk.inj (Option.some.inj hs)
    rfl
  | datastore a =>
    have hbatch : a.batch = [] := by
      cases a with
      | dequeue batch => exact absurd rfl (ha batch)
      | _ => rfl
    have hlift (hstep : ((Datastore.step cfg s.store a).map fun p =>
        (({ s with store := p.1 } : SystemState F), p.2.map SystemEvent.store)) = some (t, es)) :
        dequeued (storeEvents es) = [] := by
      obtain ⟨⟨st, es'⟩, hst, heq⟩ := Option.map_eq_some_iff.mp hstep
      obtain ⟨-, rfl⟩ := Prod.mk.inj heq
      rw [(observe_store es').2, step_dequeued hst, hbatch]
    cases a with
    | enqueue m => cases hs
    | dequeue batch => exact absurd rfl (ha batch)
    | stop => exact hlift (Option.ite_none_right_eq_some.mp hs).2
    | _ => exact hlift hs

/-- **Every step with producers** is one of the program, and keeps the order of every producer. -/
theorem orderedStep (h : Ordered cfg listener d as s o fo) {a : OrderedAction}
    (hs : SimpleTSDB.orderedStep cfg s a = some (t, es)) :
    ∃ fo', Ordered cfg listener d (as ++ [a]) t (o ++ es) fo' := by
  cases a with
  | step a =>
    have hstep (ha : ∀ batch, a ≠ .datastore (.dequeue batch))
        (hs : (SimpleTSDB.systemStep cfg s.system a).map (fun p =>
          (OrderedState.mk p.1 (s.queue ++ (enqueued (storeEvents p.2)).map (a.producer, ·)),
            p.2)) = some (t, es)) :
        ∃ fo', Ordered cfg listener d (as ++ [.step a]) t (o ++ es) fo' := by
      obtain ⟨⟨system, es'⟩, hsystem, heq⟩ := Option.map_eq_some_iff.mp hs
      obtain ⟨rfl, rfl⟩ := Prod.mk.inj heq
      refine h.snoc hsystem (fun i => ?_) ?_ ?_
      · rw [of_append, of_map_mk]
        rfl
      · have hpushed : ((enqueued (storeEvents es')).map (a.producer, ·)).map Prod.snd =
            enqueued (storeEvents es') := by simp [Function.comp_def]
        refine .of_eq ?_
        rw [← hpushed, ← List.map_append, hpushed]
        rfl
      · exact (dequeued_systemStep hsystem ha).symm
    by_cases ha : ∃ batch, a = .datastore (.dequeue batch)
    · obtain ⟨batch, rfl⟩ := ha
      cases hs
    · refine hstep (not_exists.mp ha) ?_
      cases a with
      | datastore a =>
        cases a with
        | dequeue batch => exact absurd ⟨batch, rfl⟩ ha
        | _ => exact hs
      | _ => exact hs
  | dequeue batch =>
    simp only [SimpleTSDB.orderedStep] at hs
    split at hs
    next system es' queue hsystem hqueue =>
      obtain ⟨rfl, rfl⟩ := Prod.mk.inj (Option.some.inj hs)
      obtain ⟨⟨st, es''⟩, hst, heq⟩ := Option.map_eq_some_iff.mp hsystem
      obtain ⟨rfl, rfl⟩ := Prod.mk.inj heq
      obtain ⟨henqueued, hdequeued⟩ := step_dequeue hst
      obtain ⟨hperm, hof⟩ := of_takeAll hqueue
      have htaken : taken [.dequeue batch] = batch := List.append_nil batch
      refine h.snoc hsystem (fun i => ?_) ?_ ?_
      · rw [(observe_store es'').2, henqueued, ite_self, List.append_nil, htaken]
        exact hof i
      · rw [(observe_store es'').2, henqueued, List.append_nil, htaken]
        exact hperm.map Prod.snd
      · rw [(observe_store es'').2, hdequeued, htaken]
    · cases hs

/-- When the program has been stopped, everything has been taken. -/
theorem taken_of_stopped (h : Ordered cfg listener d as s o fo)
    (hp : PossibleRun listener ∅ (telnetEvents (frontEvents (as.map OrderedAction.plain))))
    (hok : AllOk (storeEvents o)) (hstopped : s.system.store.pc = .stopped) (i : Producer) :
    of i (taken as) = putBy cfg fo (as.map OrderedAction.plain) i := by
  obtain ⟨das, hsim⟩ := simulated_of_run h.plain
  have hinv := inv_of_run hsim.datastore (fun m hm => name_ne_of_mem_puts (hsim.mem_puts hp hm))
    hsim.stopsLast hok
  have hqueue : s.queue = [] := by
    have hdrained : s.system.store.queue = 0 := hinv.drained (by rw [hstopped]; trivial)
    have hbalance := hinv.balance
    rw [hdrained, Multiset.add_zero, Multiset.coe_eq_coe, ← h.taken_eq] at hbalance
    have hlength := (h.all.trans hbalance).length_eq
    rw [List.length_map, List.length_map, List.length_append] at hlength
    exact List.length_eq_zero_iff.mp (by omega)
  have hpending : s.system.pending i = [] := by
    have hfront : s.system.frontEndsStopped = true :=
      hsim.stop (hinv.stopping (by rw [hstopped]; trivial))
    obtain ⟨htelnet, hhttp⟩ := hsim.idle hfront
    cases i with
    | telnet => rw [SystemState.pending, htelnet]; rfl
    | request k =>
      have hnil : s.system.httpPending.getD k [] = [] := by
        rcases Nat.lt_or_ge k s.system.httpPending.length with hk | hk
        · rw [List.getD_eq_getElem _ _ hk]
          exact List.flatten_eq_nil_iff.mp hhttp _ (List.getElem_mem hk)
        · exact List.getD_eq_default _ _ hk
      rw [SystemState.pending, hnil]
      rfl
    | datastore => rw [SystemState.pending, hstopped]; rfl
  have horder := h.order i
  rwa [hqueue, hpending, of_nil, List.append_nil, List.append_nil] at horder

end Ordered

/-- Every run with producers is ordered. -/
theorem ordered_of_run {cfg : Config F} {listener : ℕ} {d : Databases F} {as : List OrderedAction}
    {t : OrderedState F} {o : List (SystemEvent F)}
    (h : run (orderedStep cfg) (.started listener d) as = some (t, o)) :
    ∃ fo, Ordered cfg listener d as t o fo :=
  run_induction (motive := fun as t o => ∃ fo, Ordered cfg listener d as t o fo)
    ⟨[], .start cfg listener d⟩ (fun _ _ _ _ _ _ _ ⟨_, ho⟩ hstep => ho.orderedStep hstep) h

/-- **The datapoints of every thread are filed in its order.** The program lives on a directory,
with a queue that keeps the order of every thread: the archive grows by metrics of which those of
the telnet thread are in the order in which its processor queues them, those of a request in the
order of its lines, and the internal ones in the order of the reports; and they are all there if the
program has been stopped. -/
theorem system_order {sys : Separators} (cfg : Config F) (listener : ℕ)
    (dir dir' : DataDir sys cfg) (names : List Str) (d : Databases F) (as : List OrderedAction)
    (t : OrderedState F) (o : List (SystemEvent F)) (hdir : dir.Holds names)
    (hstart : Datastore.start cfg dir.present dir.disk (fun _ => .ok) (some dir.entries) =
      some (d.store, true) ∧ d.disk = dir.disk)
    (h : run (orderedStep cfg) (.started listener d) as = some (t, o))
    (hpossible : PossibleRun listener ∅
      (telnetEvents (frontEvents (as.map OrderedAction.plain))))
    (hfile : ∀ name ∈ internalNames ++
        (puts (frontEvents (as.map OrderedAction.plain))).map Metric.name,
      IsFileName sys (cfg.database name).name)
    (hok : AllOk (storeEvents o))
    (hleft : dir.Becomes dir' (creations (storeEvents o)) t.system.store.disk) :
    ∃ (fo : List Effect) (filed : List (Producer × Metric)),
      run handle (Telnet.started listener)
        (telnetEvents (frontEvents (as.map OrderedAction.plain))) = some (t.system.telnet, fo) ∧
      archive dir' = (archive dir).addAll (filed.map fun x => entryOf x.2) ∧
      ∀ i, of i filed <+: putBy cfg fo (as.map OrderedAction.plain) i ∧
        (t.system.store.pc = .stopped →
          of i filed = putBy cfg fo (as.map OrderedAction.plain) i) := by
  obtain ⟨fo, hordered⟩ := ordered_of_run h
  obtain ⟨das, hsim⟩ := simulated_of_run hordered.plain
  have hx := hsim.session hstart hpossible hfile hok hleft
  have hfiled : ∃ n, ((taken as).take n).map Prod.snd = written t.system.store (storeEvents o) ∧
      (t.system.store.pc = .stopped → (taken as).take n = taken as) := by
    refine ⟨(dequeued (storeEvents o)).length - t.system.store.pc.remaining.length, ?_, ?_⟩
    · rw [List.map_take, hordered.taken_eq]
      rfl
    · intro hstopped
      rw [hstopped, ← hordered.taken_eq, List.length_map]
      exact List.take_length
  obtain ⟨n, hwritten, hall⟩ := hfiled
  refine ⟨fo, (taken as).take n, hordered.fed.ran, ?_, fun i => ⟨?_, fun hstopped => ?_⟩⟩
  · have harchive := hx.archive_eq hdir
    rw [Session.filed, ← hwritten, List.map_map] at harchive
    exact harchive
  · refine (of_take_initial i n (taken as)).trans ?_
    rw [← hordered.order i, List.append_assoc]
    exact List.prefix_append _ _
  · rw [hall hstopped]
    exact hordered.taken_of_stopped hpossible hok hstopped i

/-- The batch of `twoPutsRun`, with the producers. -/
def orderedRun : List OrderedAction :=
  (twoPutsRun.take 13).map .step ++
    [.dequeue ((Metric.accepted "cpu 2 3 k=v".toList).toList.map (.request 0, ·) ++
      (Metric.accepted "cpu 1 2 k=v".toList).toList.map (.telnet, ·))] ++
    ((twoPutsRun.drop 14).take 3).map .step ++
    [.dequeue [], .step (.datastore .close)]

theorem system_order_example : ∃ (dir dir' : DataDir .posix plainConfig)
    (filed : List (Producer × Metric)),
    archive dir' = (archive dir).addAll (filed.map fun x => entryOf x.2) ∧
      of (.request 0) filed = (Metric.accepted "cpu 2 3 k=v".toList).toList := by
  have hrun : ∃ p ∈ run (orderedStep plainConfig) (.started 3 noDatabases) orderedRun,
      AllOk (storeEvents p.2) ∧ p.1.system.store.pc = .stopped ∧
        creations (storeEvents p.2) = ["cpu".toList] := by decide +kernel
  obtain ⟨⟨t, o⟩, hrun, hok, hpc, hcreated⟩ := hrun
  dsimp only at hok hpc hcreated
  have hnames : ∀ n ∈ [] ++ creations (storeEvents o),
      IsFileName .posix (plainConfig.database n).name := by
    rw [hcreated]
    decide
  have hleft : (plainDir [] (fun _ => {}) (by simp)).Becomes
      (plainDir ([] ++ creations (storeEvents o)) t.system.store.disk hnames)
      (creations (storeEvents o)) t.system.store.disk := plainDir_becomes _ _
  obtain ⟨fo, filed, -, harchive, hfiled⟩ := system_order plainConfig 3 _ _ [] noDatabases
    orderedRun t o plainDir_holds ⟨rfl, rfl⟩ hrun (by decide +kernel) (by decide +kernel) hok hleft
  refine ⟨_, _, filed, harchive, ((hfiled (.request 0)).2 hpc).trans ?_⟩
  change (requests (frontEvents (orderedRun.map OrderedAction.plain))).getD 0 [] = _
  decide +kernel

end SimpleTSDB
