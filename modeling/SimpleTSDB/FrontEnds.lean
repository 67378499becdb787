import SimpleTSDB.Http.Lines
import SimpleTSDB.Telnet.Process

/-!
# The front ends together

The telnet processor and the HTTP put handler in one run (`frontEndStep`). They share the datastore
and the statistics, which they only write to. The telnet processor counts a metric when it queues
it; the HTTP handler queues the metrics of a body one by one and counts them behind its loop, which
it leaves at a line that does not parse. `run_balance` says how many metrics go uncounted, and
`putCount_iff` for which runs the put counter is the number of the metrics queued.
-/

namespace SimpleTSDB

open Transducer Telnet Http

/-- What a front end is given: an event on a socket of the telnet processor, or an HTTP request to
the put endpoint. -/
inductive FrontEndEvent
  | telnet (e : Telnet.Event)
  | http (method body : Str)

/-- What the front ends do for an event; `none` if a `substr` throws. -/
def frontEndStep (s : TelnetProcessor) :
    FrontEndEvent → Option (TelnetProcessor × List Effect)
  | .telnet e => handle s e
  | .http method body => (apiPutHandler method body).map fun p => (s, p.1)

/-! ## The balance of an event -/

theorem queued_append (es es' : List Effect) : queued (es ++ es') = queued es ++ queued es' :=
  List.filterMap_append

theorem counted_append (es es' : List Effect) : counted (es ++ es') = counted es + counted es' := by
  rw [counted, List.map_append, List.sum_append]
  rfl

/-- Everything that is queued is counted. -/
def Balanced (es : List Effect) : Prop := counted es = (queued es).length

theorem Balanced.append {es es' : List Effect} (h : Balanced es) (h' : Balanced es') :
    Balanced (es ++ es') := by
  unfold Balanced at h h' ⊢
  rw [counted_append, queued_append, List.length_append]
  omega

theorem balanced_nil : Balanced [] := rfl

/-- The telnet processor counts what it queues. -/
theorem balanced_dispatchLine {line : Str} {es : List Effect} (h : dispatchLine line = some es) :
    Balanced es := by
  cases dispatched_of_dispatchLine h <;> rfl

theorem balanced_byteStep {line line' : Str} {ch : Char} {es : List Effect}
    (h : byteStep line ch = some (line', es)) : Balanced es := by
  rw [byteStep] at h
  split at h
  · obtain ⟨-, rfl⟩ := Prod.mk.inj (Option.some.inj h)
    exact balanced_nil
  · split at h
    · obtain ⟨es', hes', heq⟩ := Option.map_eq_some_iff.mp h
      obtain ⟨-, rfl⟩ := Prod.mk.inj heq
      exact balanced_dispatchLine hes'
    · obtain ⟨-, rfl⟩ := Prod.mk.inj (Option.some.inj h)
      exact balanced_nil

theorem balanced_handle {s s' : TelnetProcessor} {e : Telnet.Event} {es : List Effect}
    (h : handle s e = some (s', es)) : Balanced es := by
  cases e with
  | opened fd =>
    obtain ⟨-, rfl⟩ := Prod.mk.inj (Option.some.inj h)
    exact balanced_nil
  | closed fd =>
    obtain ⟨-, rfl⟩ := Prod.mk.inj (Option.some.inj h)
    exact balanced_nil
  | data fd bytes =>
    simp only [handle] at h
    split at h
    · cases h
    next hrun =>
      obtain ⟨-, rfl⟩ := Prod.mk.inj (Option.some.inj h)
      exact run_outputs balanced_nil (fun _ _ => Balanced.append)
        (fun _ _ _ _ => balanced_byteStep) hrun

/-! ## The metrics that are not counted -/

/-- The handler leaves its loop at a line of the body that does not parse, but has queued a line
before. -/
def RejectedLater (body : Str) : Prop :=
  (∃ line ∈ putLines body, Metric.accepted line = none) ∧
    ∃ first ∈ (putLines body).head?, Metric.accepted first ≠ none

instance (body : Str) : Decidable (RejectedLater body) := by
  unfold RejectedLater
  infer_instance

/-- The number of metrics that an event queues and does not count. -/
def uncounted : FrontEndEvent → ℕ
  | .telnet _ => 0
  | .http method body =>
    if method = "POST".toList ∧ RejectedLater body then (parsedLines (putLines body)).length else 0

/-- Something is uncounted exactly if a put request is rejected behind its first line. -/
theorem uncounted_eq_zero_iff (e : FrontEndEvent) :
    uncounted e = 0 ↔ ∀ body, e = .http "POST".toList body → ¬ RejectedLater body := by
  cases e with
  | telnet e => simp [uncounted]
  | http method body =>
    rw [uncounted]
    split
    next h =>
      obtain ⟨first, hfirst, hacc⟩ := h.2.2
      have hne : parsedLines (putLines body) ≠ [] := fun hnil =>
        hacc (parsedLines_eq_nil_iff.mp hnil first hfirst)
      refine iff_of_false (by rwa [List.length_eq_zero_iff]) fun hall => ?_
      exact hall body (by rw [h.1]) h.2
    next h =>
      refine iff_of_true rfl ?_
      rintro body' ⟨rfl, rfl⟩ hrejected
      exact h ⟨rfl, hrejected⟩

theorem length_parsedLines {lines : List Str} (h : ∀ line ∈ lines, Metric.accepted line ≠ none) :
    (parsedLines lines).length = lines.length := by
  induction lines with
  | nil => rfl
  | cons line lines ih =>
    rw [List.forall_mem_cons] at h
    obtain ⟨m, hm⟩ := Option.ne_none_iff_exists'.mp h.1
    rw [parsedLines, hm, List.length_cons, List.length_cons, ih h.2]

/-- One put request. -/
theorem apiPutHandler_balance {method body : Str} {es : List Effect} {status : ℕ}
    (h : apiPutHandler method body = some (es, status)) :
    counted es + uncounted (.http method body) = (queued es).length := by
  by_cases hm : method = "POST".toList
  · subst hm
    obtain ⟨es', status', hes', hqueued, hcounted⟩ := apiPutHandler_lines body
    obtain ⟨rfl, -⟩ := Prod.mk.inj (Option.some.inj (h.symm.trans hes'))
    rw [hqueued, hcounted, uncounted]
    by_cases hall : ∀ line ∈ putLines body, Metric.accepted line ≠ none
    · have hkept : ¬ RejectedLater body := fun ⟨⟨line, hline, hacc⟩, _⟩ => hall line hline hacc
      rw [if_pos hall, if_neg fun h => hkept h.2, length_parsedLines hall]
      omega
    · rw [if_neg hall, Nat.zero_add]
      split
      next => rfl
      next h =>
        push Not at hall
        have hnil : parsedLines (putLines body) = [] := by
          rw [parsedLines_eq_nil_iff]
          intro first hfirst
          by_contra hacc
          exact h ⟨rfl, hall, first, hfirst, hacc⟩
        rw [hnil, List.length_nil]
  · rw [apiPutHandler, if_pos hm] at h
    obtain ⟨rfl, -⟩ := Prod.mk.inj (Option.some.inj h)
    rw [uncounted, if_neg fun h => hm h.1]
    rfl

theorem frontEndStep_balance {s t : TelnetProcessor} {e : FrontEndEvent} {es : List Effect}
    (h : frontEndStep s e = some (t, es)) : counted es + uncounted e = (queued es).length := by
  cases e with
  | telnet e => exact balanced_handle h
  | http method body =>
    obtain ⟨⟨es', status⟩, hes', heq⟩ := Option.map_eq_some_iff.mp h
    obtain ⟨-, rfl⟩ := Prod.mk.inj heq
    exact apiPutHandler_balance hes'

/-! ## Runs -/

/-- **The balance of a run**: what is counted, and what the rejected requests leave uncounted, is
what is queued. -/
theorem run_balance {s t : TelnetProcessor} {es : List FrontEndEvent} {o : List Effect}
    (h : run frontEndStep s es = some (t, o)) :
    counted o + (es.map uncounted).sum = (queued o).length := by
  refine run_induction
    (motive := fun es _ o => counted o + (es.map uncounted).sum = (queued o).length) rfl ?_ h
  intro es s o e s' o' _ ih hstep
  have he := frontEndStep_balance hstep
  rw [counted_append, queued_append, List.map_append, List.sum_append, List.length_append,
    List.map_singleton, List.sum_singleton]
  omega

/-- **The put counter is the number of the metrics queued if and only if** no put request of the run
is rejected at a line behind its first one. -/
theorem putCount_iff (s t : TelnetProcessor) (es : List FrontEndEvent) (o : List Effect)
    (h : run frontEndStep s es = some (t, o)) :
    counted o = (queued o).length ↔
      ∀ body, FrontEndEvent.http "POST".toList body ∈ es → ¬ RejectedLater body := by
  have hbalance := run_balance h
  have hsum : counted o = (queued o).length ↔ (es.map uncounted).sum = 0 := by omega
  simp only [hsum, List.sum_eq_zero_iff_forall_eq_nat, List.forall_mem_map, uncounted_eq_zero_iff]
  constructor
  · exact fun hall body hbody => hall _ hbody body rfl
  · rintro hall e he body rfl
    exact hall body he

/-- A telnet line, and a body of two lines that both parse. -/
theorem putCount_example : ∃ t o, run frontEndStep (started 3)
    [.telnet (.opened 4), .telnet (.data 4 "put a 1 2 k=v\n".toList),
      .http "POST".toList "a 1 2 k=v\nb 1 2 k=v\n".toList] = some (t, o) ∧
    counted o = (queued o).length := by
  have hsome : (run frontEndStep (started 3)
    [.telnet (.opened 4), .telnet (.data 4 "put a 1 2 k=v\n".toList),
      .http "POST".toList "a 1 2 k=v\nb 1 2 k=v\n".toList]).isSome := by decide +kernel
  obtain ⟨p, hp⟩ := Option.isSome_iff_exists.mp hsome
  refine ⟨p.1, p.2, hp, (putCount_iff _ _ _ _ hp).mpr ?_⟩
  intro body hbody
  obtain rfl : body = "a 1 2 k=v\nb 1 2 k=v\n".toList := by simpa using hbody
  decide +kernel

/-- A body whose second line does not parse: the first one is queued and not counted. -/
theorem not_putCount : ¬ ∀ s t es o, run frontEndStep s es = some (t, o) →
    counted o = (queued o).length := by
  intro h
  obtain ⟨es, status, hes, hqueued, hcounted⟩ := apiPutHandler_lines "a 1 2 k=v\nbad\n".toList
  have hrun : run frontEndStep (started 3) [.http "POST".toList "a 1 2 k=v\nbad\n".toList] =
      some (started 3, es) := by
    rw [run_singleton, frontEndStep, hes]
    rfl
  have hcount := h _ _ _ _ hrun
  rw [hqueued, hcounted] at hcount
  exact absurd hcount (by decide +kernel)

end SimpleTSDB
