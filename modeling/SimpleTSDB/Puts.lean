import SimpleTSDB.Foundations.Gather
import SimpleTSDB.FrontEnds

/-!
# What the front ends queue

The metrics that the input of the front ends puts (`puts`): those of the complete lines of every
telnet connection, read off all its bytes, and those of the lines of every request body.
`frontEnds_queued` says that a run of the front ends queues just these, whatever the chunks and the
order of the events.
-/

namespace SimpleTSDB

open Transducer Telnet Http

/-- The metrics that a telnet connection puts with its bytes. -/
def connectionPuts (bytes : Str) : List Metric :=
  (completeLines bytes).flatMap fun l => queued (respond (cleanLine l))

/-- The metrics that an HTTP request to the put endpoint puts. -/
def requestPuts (method body : Str) : List Metric :=
  if method = "POST".toList then parsedLines (putLines body) else []

/-- The events of the telnet processor. -/
def telnetEvents (es : List FrontEndEvent) : List Telnet.Event :=
  es.filterMap fun | .telnet e => some e | .http _ _ => none

/-- The metrics of the HTTP requests. -/
def httpPuts (es : List FrontEndEvent) : List Metric :=
  es.flatMap fun | .telnet _ => [] | .http method body => requestPuts method body

/-- The metrics that the events put. -/
def puts (es : List FrontEndEvent) : List Metric :=
  (sessionInputs (telnetEvents es)).flatMap connectionPuts ++ httpPuts es

theorem queued_flatMap {ι : Type*} (l : List ι) (g : ι → List Effect) :
    queued (l.flatMap g) = l.flatMap fun x => queued (g x) := by
  induction l with
  | nil => rfl
  | cons x l ih => rw [List.flatMap_cons, queued_append, ih, List.flatMap_cons]

/-- A request queues its metrics. -/
theorem queued_apiPutHandler {method body : Str} {es : List Effect} {status : ℕ}
    (h : apiPutHandler method body = some (es, status)) : queued es = requestPuts method body := by
  rw [requestPuts]
  split
  next hm =>
    obtain ⟨es', status', hes', hqueued, -⟩ := apiPutHandler_lines body
    obtain ⟨rfl, -⟩ := Prod.mk.inj (Option.some.inj ((hm ▸ h).symm.trans hes'))
    exact hqueued
  next hm =>
    rw [apiPutHandler, if_pos hm] at h
    obtain ⟨rfl, -⟩ := Prod.mk.inj (Option.some.inj h)
    rfl

/-- The telnet processor runs on its own events, and what it does not queue the requests do. -/
theorem run_telnetEvents {es : List FrontEndEvent} {s t : TelnetProcessor} {o : List Effect}
    (h : run frontEndStep s es = some (t, o)) :
    ∃ o', run handle s (telnetEvents es) = some (t, o') ∧
      (queued o).Perm (queued o' ++ httpPuts es) := by
  induction es generalizing s o with
  | nil =>
    obtain ⟨rfl, rfl⟩ := Prod.mk.inj (Option.some.inj h)
    exact ⟨[], rfl, .nil⟩
  | cons e es ih =>
    obtain ⟨s', o₁, o₂, he, hr, rfl⟩ := run_cons_eq_some_iff.mp h
    obtain ⟨o', hrun, hperm⟩ := ih hr
    rw [queued_append]
    cases e with
    | telnet e =>
      refine ⟨o₁ ++ o', run_cons_eq_some_iff.mpr ⟨s', o₁, o', he, hrun, rfl⟩, ?_⟩
      rw [queued_append, List.append_assoc]
      exact hperm.append_left _
    | http method body =>
      obtain ⟨⟨es', status⟩, hes', heq⟩ := Option.map_eq_some_iff.mp he
      obtain ⟨rfl, rfl⟩ := Prod.mk.inj heq
      refine ⟨o', hrun, ?_⟩
      rw [queued_apiPutHandler hes']
      exact (hperm.append_left _).trans (List.perm_append_comm_assoc ..)

/-- What the telnet processor queues. -/
theorem queued_of_telnet {listener : ℕ} {es : List Telnet.Event} {s : TelnetProcessor}
    {o : List Effect} (hp : PossibleRun listener ∅ es)
    (h : run handle (Telnet.started listener) es = some (s, o)) :
    (queued o).Perm ((sessionInputs es).flatMap connectionPuts) := by
  have hlines : ∀ bytes ∈ sessionInputs es, NoEmptyLine bytes := by
    intro bytes hbytes
    by_contra hempty
    have hnone := (run_started_eq_none_iff hp).mpr ⟨bytes, hbytes, hempty⟩
    rw [h] at hnone
    cases hnone
  rw [run_eq_map_traced] at h
  obtain ⟨⟨s', tr⟩, htrace, heq⟩ := Option.map_eq_some_iff.mp h
  obtain ⟨rfl, rfl⟩ := Prod.mk.inj heq
  have hmux := run_traced_handle (consistent_started listener) hp htrace
  have houtputs := outputs_eq_of_sessions (mux_sessions hmux) hlines
  have hnone : ∀ k, k ∈ (∅ : Finset ℕ) ↔ ((Telnet.started listener).clientBuffers k).isSome := by
    simp [Telnet.started]
  have hgather := mux_outputs hnone hmux
  rw [Finset.sum_empty, zero_add, Multiset.coe_eq_coe, houtputs] at hgather
  have hqueued : (queued (tr.flatMap Prod.snd)).Perm (queued ((sessionInputs es).flatMap
      fun bytes => (completeLines bytes).flatMap fun l => respond (cleanLine l))) :=
    hgather.filterMap _
  refine hqueued.trans (.of_eq ?_)
  rw [queued_flatMap]
  exact congrArg (sessionInputs es).flatMap (funext fun bytes => queued_flatMap _ _)

/-- **A run of the front ends queues what its events put**, in some order. -/
theorem frontEnds_queued {listener : ℕ} {es : List FrontEndEvent} {t : TelnetProcessor}
    {o : List Effect} (hp : PossibleRun listener ∅ (telnetEvents es))
    (h : run frontEndStep (Telnet.started listener) es = some (t, o)) :
    (queued o).Perm (puts es) := by
  obtain ⟨o', hrun, hperm⟩ := run_telnetEvents h
  exact hperm.trans ((queued_of_telnet hp hrun).append_right _)

/-! ## The names of what is put -/

theorem name_ne_of_accepted {line : Str} {m : Metric} (h : Metric.accepted line = some m) :
    m.name ≠ [] := by
  cases Metric.acceptedAs h with
  | one _ _ hname => exact hname
  | two _ _ _ hname => exact hname
  | many _ _ _ hname => exact hname

theorem accepted_of_mem_parsedLines {lines : List Str} {m : Metric} (h : m ∈ parsedLines lines) :
    ∃ line, Metric.accepted line = some m := by
  induction lines with
  | nil => exact absurd h List.not_mem_nil
  | cons line lines ih =>
    rw [parsedLines] at h
    cases hacc : Metric.accepted line with
    | none =>
      rw [hacc] at h
      exact absurd h List.not_mem_nil
    | some m' =>
      rw [hacc] at h
      rcases List.mem_cons.mp h with rfl | h
      · exact ⟨line, hacc⟩
      · exact ih h

/-- What is put has a name. -/
theorem name_ne_of_mem_puts {es : List FrontEndEvent} {m : Metric} (h : m ∈ puts es) :
    m.name ≠ [] := by
  rcases List.mem_append.mp h with h | h
  · obtain ⟨bytes, -, h⟩ := List.mem_flatMap.mp h
    obtain ⟨l, -, h⟩ := List.mem_flatMap.mp h
    cases hl : dispatchLine (cleanLine l) with
    | none =>
      rw [respond, hl] at h
      exact absurd h List.not_mem_nil
    | some es =>
      rw [respond, hl] at h
      obtain ⟨l', -, hacc⟩ := accepted_of_dispatchLine hl h
      exact name_ne_of_accepted hacc
  · obtain ⟨e, -, h⟩ := List.mem_flatMap.mp h
    cases e with
    | telnet e => exact absurd h List.not_mem_nil
    | http method body =>
      simp only [requestPuts] at h
      split at h
      · obtain ⟨line, hacc⟩ := accepted_of_mem_parsedLines h
        exact name_ne_of_accepted hacc
      · exact absurd h List.not_mem_nil

end SimpleTSDB
