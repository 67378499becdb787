import Mathlib.Data.Finset.Basic
import SimpleTSDB.Telnet.Line

/-!
# The telnet processor

The sockets of `TelnetProcessor::Process`: the set of watched descriptors, its high-water mark and
the map of partial lines, under the events of a run (`handle`): a connection is accepted, bytes
arrive, a connection hangs up or fails. The operating system decides which events happen, and may
give a closed descriptor to a new connection (`Possible`). One call of `Process` is the run of the
events that `select`, `accept` and `recv` report to it (`process_eq_run`).

The partial lines are the multiplexed byte loops of the open connections (`handle_buffers`), as long
as the map holds the open connections and no others (`Consistent`), which every event preserves.
Therefore a run throws exactly when one connection sends an empty line (`telnet_noThrow_iff`), and
otherwise the effects of every connection are those of its own bytes (`telnet_isolated`).
-/

namespace SimpleTSDB.Telnet

open Transducer

/-- The size of an `fd_set`. -/
def FD_SETSIZE : ℕ := 1024

/-- The sockets of a `TelnetProcessor`. -/
structure TelnetProcessor where
  listener : ℕ
  master : Finset ℕ
  socketMax : ℕ
  clientBuffers : ℕ → Option Str

/-- The state that a successful `Start` leaves. -/
def started (listener : ℕ) : TelnetProcessor where
  listener := listener
  master := {listener}
  socketMax := listener
  clientBuffers := fun _ => none

/-! ## Events -/

/-- An event on a client socket: `opened` is a successful `accept`, `data` a `recv` that returns
bytes, `closed` a `recv` that reports a hang-up or an error. -/
abbrev Event := MuxEvent ℕ Char

/-- What `Process` does for an event; `none` if a `substr` throws. -/
def handle (s : TelnetProcessor) : Event → Option (TelnetProcessor × List Effect)
  | .opened newfd =>
    let clientBuffers :=
      -- `std::map::insert` keeps the element of a key that is present
      match s.clientBuffers newfd with
      | some _ => s.clientBuffers
      | none => Function.update s.clientBuffers newfd (some [])
    let socketMax := if newfd > s.socketMax then newfd else s.socketMax
    some ({ s with master := insert newfd s.master, socketMax, clientBuffers }, [])
  | .closed sock =>
    let clientBuffers := Function.update s.clientBuffers sock none
    some ({ s with master := s.master.erase sock, clientBuffers }, [])
  | .data sock bytes =>
    -- `m_ClientBuffers[sock]` inserts an empty line if there is none
    let line := (s.clientBuffers sock).getD []
    match run byteStep line bytes with
    | none => none
    | some (line, effects) =>
      let clientBuffers := Function.update s.clientBuffers sock (some line)
      some ({ s with clientBuffers }, effects)

/-! ## One call of `Process` -/

/-- What `recv` returns. -/
inductive Recv
  | bytes (bs : Str)
  | failed

/-- The answers of the operating system during one call of `Process`: the sockets that `select`
reports, the descriptor that `accept` returns (`none` for -1), and what `recv` returns. -/
structure Round where
  readfds : Finset ℕ
  accepted : Option ℕ
  recv : ℕ → Recv

/-- The event of the socket `sock`, if it is ready. -/
def Round.event (r : Round) (listener sock : ℕ) : Option Event :=
  if sock ∈ r.readfds then
    if sock = listener then r.accepted.map .opened
    else match r.recv sock with
      | .failed => some (.closed sock)
      | .bytes bs => some (.data sock bs)
  else none

/-- The loop over the sockets from `sock` on; the high-water mark is read in every iteration. -/
def processFrom (r : Round) : ℕ → ℕ → TelnetProcessor → Option (TelnetProcessor × List Effect)
  | 0, _, s => some (s, [])
  | n + 1, sock, s =>
    if sock ≤ s.socketMax then
      match (r.event s.listener sock).elim (some (s, [])) (handle s) with
      | none => none
      | some (s', effects) =>
        (processFrom r n (sock + 1) s').map fun p => (p.1, effects ++ p.2)
    else some (s, [])

/-- `Process`, while the thread is running. -/
def process (s : TelnetProcessor) (r : Round) : Option (TelnetProcessor × List Effect) :=
  processFrom r FD_SETSIZE 0 s

/-- The events of one call, in the order of the sockets. -/
def Round.events (r : Round) (listener sock n : ℕ) : List Event :=
  (List.range' sock n).filterMap (r.event listener)

theorem handle_socketMax {s s' : TelnetProcessor} {e : Event} {o : List Effect}
    (h : handle s e = some (s', o)) : s'.listener = s.listener ∧ s.socketMax ≤ s'.socketMax := by
  cases e with
  | opened fd =>
    obtain ⟨rfl, -⟩ := Prod.mk.inj (Option.some.inj h)
    refine ⟨rfl, ?_⟩
    dsimp only
    split <;> omega
  | closed fd =>
    obtain ⟨rfl, -⟩ := Prod.mk.inj (Option.some.inj h)
    exact ⟨rfl, le_rfl⟩
  | data fd bytes =>
    simp only [handle] at h
    split at h
    · cases h
    · obtain ⟨rfl, -⟩ := Prod.mk.inj (Option.some.inj h)
      exact ⟨rfl, le_rfl⟩

theorem processFrom_eq_run (r : Round) (n sock : ℕ) (s : TelnetProcessor)
    (hmax : ∀ fd ∈ r.readfds, fd ≤ s.socketMax) :
    processFrom r n sock s = run handle s (r.events s.listener sock n) := by
  induction n generalizing sock s with
  | zero => rfl
  | succ n ih =>
    rw [processFrom, Round.events, List.range'_succ, List.filterMap_cons]
    by_cases hle : sock ≤ s.socketMax
    · rw [if_pos hle]
      cases he : r.event s.listener sock with
      | none =>
        rw [Option.elim_none]
        simp only [List.nil_append, Option.map_id', ih (sock + 1) s hmax]
        rfl
      | some e =>
        rw [Option.elim_some]
        cases hh : handle s e with
        | none => simp only [run_cons_of_none hh]
        | some p =>
          obtain ⟨s', o⟩ := p
          obtain ⟨hl, hm⟩ := handle_socketMax hh
          have hmax' : ∀ fd ∈ r.readfds, fd ≤ s'.socketMax := fun fd hfd => (hmax fd hfd).trans hm
          simp only [run_cons_of_some hh, ih (sock + 1) s' hmax', hl, Round.events]
    · -- behind the high-water mark no socket is ready
      rw [if_neg hle]
      have hnone : ∀ k, sock ≤ k → r.event s.listener k = none := by
        intro k hk
        rw [Round.event, if_neg]
        intro hmem
        have := hmax k hmem
        omega
      have hrest : (List.range' (sock + 1) n).filterMap (r.event s.listener) = [] := by
        rw [List.filterMap_eq_nil_iff]
        intro k hk
        rw [List.mem_range'_1] at hk
        exact hnone k (by omega)
      simp [hnone sock le_rfl, hrest]

/-- **One call of `Process` is the run of its events.** -/
theorem process_eq_run (r : Round) (s : TelnetProcessor)
    (hmax : ∀ fd ∈ r.readfds, fd ≤ s.socketMax) :
    process s r = run handle s (r.events s.listener 0 FD_SETSIZE) :=
  processFrom_eq_run r FD_SETSIZE 0 s hmax

/-! ## Possible runs -/

/-- The open connections after an event. -/
def openAfter (opens : Finset ℕ) : Event → Finset ℕ
  | .opened fd => insert fd opens
  | .data _ _ => opens
  | .closed fd => opens.erase fd

/-- The events that the operating system can report while the connections `opens` are open: a new
connection has a descriptor that is not in use and fits an `fd_set`; data and hang-ups concern
open connections. -/
def Possible (listener : ℕ) (opens : Finset ℕ) : Event → Prop
  | .opened fd => fd ∉ opens ∧ fd ≠ listener ∧ fd < FD_SETSIZE
  | .data fd _ => fd ∈ opens
  | .closed fd => fd ∈ opens

instance (listener : ℕ) (opens : Finset ℕ) (e : Event) : Decidable (Possible listener opens e) := by
  cases e <;> unfold Possible <;> infer_instance

/-- A run of possible events. -/
def PossibleRun (listener : ℕ) : Finset ℕ → List Event → Prop
  | _, [] => True
  | opens, e :: es => Possible listener opens e ∧ PossibleRun listener (openAfter opens e) es

instance decidablePossibleRun (listener : ℕ) : ∀ (opens : Finset ℕ) (es : List Event),
    Decidable (PossibleRun listener opens es)
  | _, [] => isTrue trivial
  | opens, e :: es =>
    have := decidablePossibleRun listener (openAfter opens e) es
    inferInstanceAs (Decidable (_ ∧ _))

/-- The keys of the map of partial lines are the watched sockets other than the listener, and the
high-water mark bounds the watched sockets. -/
structure BuffersMatch (s : TelnetProcessor) : Prop where
  keys : ∀ fd, (s.clientBuffers fd).isSome = true ↔ fd ∈ s.master ∧ fd ≠ s.listener
  le_max : ∀ fd ∈ s.master, fd ≤ s.socketMax

/-- The state agrees with the open connections of the operating system. -/
structure Consistent (listener : ℕ) (opens : Finset ℕ) (s : TelnetProcessor) : Prop where
  listener_eq : s.listener = listener
  listener_not_mem : listener ∉ opens
  master_eq : s.master = insert listener opens
  keys : ∀ fd, (s.clientBuffers fd).isSome = true ↔ fd ∈ opens
  le_max : ∀ fd ∈ s.master, fd ≤ s.socketMax

theorem consistent_started (listener : ℕ) : Consistent listener ∅ (started listener) where
  listener_eq := rfl
  listener_not_mem := by simp
  master_eq := rfl
  keys := by simp [started]
  le_max := by simp [started]

theorem Consistent.buffersMatch {listener : ℕ} {opens : Finset ℕ} {s : TelnetProcessor}
    (h : Consistent listener opens s) : BuffersMatch s where
  keys fd := by
    rw [h.keys, h.master_eq, h.listener_eq, Finset.mem_insert]
    refine ⟨fun hfd => ⟨.inr hfd, ?_⟩, fun ⟨hfd, hne⟩ => hfd.resolve_left hne⟩
    rintro rfl
    exact h.listener_not_mem hfd
  le_max := h.le_max

section Simulation

variable {listener : ℕ} {opens : Finset ℕ} {s : TelnetProcessor} {e : Event}

/-- **The partial lines are multiplexed byte loops.** -/
theorem handle_buffers (hc : Consistent listener opens s) (hp : Possible listener opens e) :
    (handle s e).map (fun p => (p.1.clientBuffers, p.2)) =
      muxStep byteStep [] s.clientBuffers e := by
  cases e with
  | opened fd =>
    have hnone : s.clientBuffers fd = none := by
      rw [← Option.not_isSome_iff_eq_none, hc.keys]
      exact hp.1
    simp [handle, muxStep, hnone]
  | closed fd => rfl
  | data fd bytes =>
    obtain ⟨line, hline⟩ := Option.isSome_iff_exists.mp ((hc.keys fd).mpr hp)
    simp only [handle, muxStep, hline, Option.getD_some]
    cases run byteStep line bytes <;> rfl

/-- **Every possible event keeps the state in agreement with the open connections.** -/
theorem consistent_handle (hc : Consistent listener opens s) (hp : Possible listener opens e)
    {s' : TelnetProcessor} {o : List Effect} (h : handle s e = some (s', o)) :
    Consistent listener (openAfter opens e) s' := by
  cases e with
  | opened fd =>
    obtain ⟨hfd, hne, -⟩ := hp
    have hnone : s.clientBuffers fd = none := by
      rwa [← Option.not_isSome_iff_eq_none, hc.keys]
    simp only [handle, hnone, Option.some.injEq, Prod.mk.injEq] at h
    obtain ⟨rfl, -⟩ := h
    refine ⟨hc.listener_eq, ?_, ?_, fun k => ?_, ?_⟩
    · simp [openAfter, hne.symm, hc.listener_not_mem]
    · simp [openAfter, hc.master_eq, Finset.insert_comm]
    · by_cases hk : k = fd
      · simp [hk, openAfter]
      · simp [hk, openAfter, hc.keys]
    · intro k hk
      dsimp only at hk ⊢
      rcases Finset.mem_insert.mp hk with rfl | hk
      · split <;> omega
      · have := hc.le_max k hk
        split <;> omega
  | closed fd =>
    obtain ⟨rfl, -⟩ := Prod.mk.inj (Option.some.inj h)
    have hfd : fd ≠ listener := fun heq => hc.listener_not_mem (heq ▸ hp)
    refine ⟨hc.listener_eq, ?_, ?_, fun k => ?_, ?_⟩
    · simp [openAfter, hc.listener_not_mem]
    · simp [openAfter, hc.master_eq, Finset.erase_insert_of_ne hfd.symm]
    · by_cases hk : k = fd
      · simp [hk, openAfter]
      · simp [hk, openAfter, hc.keys]
    · exact fun k hk => hc.le_max k (Finset.mem_of_mem_erase hk)
  | data fd bytes =>
    simp only [handle] at h
    split at h
    · cases h
    · obtain ⟨rfl, -⟩ := Prod.mk.inj (Option.some.inj h)
      refine ⟨hc.listener_eq, hc.listener_not_mem, hc.master_eq, fun k => ?_, hc.le_max⟩
      by_cases hk : k = fd
      · have hfd : fd ∈ opens := hp
        simpa [hk, openAfter] using hfd
      · simp [hk, openAfter, hc.keys]

/-- The buffers and effects of a step, seen through the multiplexer. -/
theorem handle_eq_some {s' : TelnetProcessor} {o : List Effect} (hc : Consistent listener opens s)
    (hp : Possible listener opens e) (h : handle s e = some (s', o)) :
    muxStep byteStep [] s.clientBuffers e = some (s'.clientBuffers, o) := by
  rw [← handle_buffers hc hp, h, Option.map_some]

theorem handle_eq_none_iff (hc : Consistent listener opens s) (hp : Possible listener opens e) :
    handle s e = none ↔ muxStep byteStep [] s.clientBuffers e = none := by
  rw [← handle_buffers hc hp, Option.map_eq_none_iff]

end Simulation

/-! ## Whole runs -/

section Runs

variable {listener : ℕ}

/-- A possible run throws exactly when the multiplexed byte loops do. -/
theorem run_handle_eq_none_iff {es : List Event} {opens : Finset ℕ} {s : TelnetProcessor}
    (hc : Consistent listener opens s) (hp : PossibleRun listener opens es) :
    run handle s es = none ↔ run (muxStep byteStep []) s.clientBuffers es = none := by
  induction es generalizing opens s with
  | nil => simp
  | cons e es ih =>
    cases h : handle s e with
    | none =>
      exact iff_of_true (run_cons_of_none h es)
        (run_cons_of_none ((handle_eq_none_iff hc hp.1).mp h) es)
    | some p =>
      obtain ⟨s', o⟩ := p
      rw [run_cons_of_some h, run_cons_of_some (handle_eq_some hc hp.1 h), Option.map_eq_none_iff,
        Option.map_eq_none_iff]
      exact ih (consistent_handle hc hp.1 h) hp.2

/-- The trace of a possible run is the trace of the multiplexed byte loops. -/
theorem run_traced_handle {es : List Event} {opens : Finset ℕ} {s s' : TelnetProcessor}
    {tr : List (Event × List Effect)} (hc : Consistent listener opens s)
    (hp : PossibleRun listener opens es) (h : run (traced handle) s es = some (s', tr)) :
    run (traced (muxStep byteStep [])) s.clientBuffers es = some (s'.clientBuffers, tr) := by
  induction es generalizing opens s tr with
  | nil =>
    obtain ⟨rfl, rfl⟩ := Prod.mk.inj (Option.some.inj h)
    rfl
  | cons e es ih =>
    obtain ⟨s₁, t₁, t₂, ht, hr, rfl⟩ := run_cons_eq_some_iff.mp h
    obtain ⟨o, hh, rfl⟩ := traced_eq_some_iff.mp ht
    exact run_cons_eq_some_iff.mpr ⟨s₁.clientBuffers, [(e, o)], t₂,
      traced_eq_some_iff.mpr ⟨o, handle_eq_some hc hp.1 hh, rfl⟩,
      ih (consistent_handle hc hp.1 hh) hp.2 hr, rfl⟩

/-- Every state of a possible run agrees with the open connections. -/
theorem consistent_run {es : List Event} {opens : Finset ℕ} {s s' : TelnetProcessor}
    {o : List Effect} (hc : Consistent listener opens s) (hp : PossibleRun listener opens es)
    (h : run handle s es = some (s', o)) : ∃ opens', Consistent listener opens' s' := by
  induction es generalizing opens s o with
  | nil =>
    obtain ⟨rfl, -⟩ := Prod.mk.inj (Option.some.inj h)
    exact ⟨opens, hc⟩
  | cons e es ih =>
    obtain ⟨s₁, o₁, o₂, hh, hr, -⟩ := run_cons_eq_some_iff.mp h
    exact ih (consistent_handle hc hp.1 hh) hp.2 hr

theorem possibleRun_append {es es' : List Event} {opens : Finset ℕ} :
    PossibleRun listener opens (es ++ es') ↔
      PossibleRun listener opens es ∧ PossibleRun listener (es.foldl openAfter opens) es' := by
  induction es generalizing opens with
  | nil => simp [PossibleRun]
  | cons e es ih => simp [PossibleRun, ih, and_assoc]

/-- A run from the start throws exactly when some connection throws on its own bytes. -/
theorem run_started_eq_none_iff {es : List Event} (hp : PossibleRun listener ∅ es) :
    run handle (started listener) es = none ↔ ∃ bytes ∈ sessionInputs es, ¬ NoEmptyLine bytes := by
  rw [run_handle_eq_none_iff (consistent_started listener) hp, mux_eq_none_iff]
  simp [SessionFails, started, session_eq_none_iff]

/-- **When the byte loop throws**: a run from the start survives exactly when no connection sends a
complete line that the filter leaves empty. -/
theorem telnet_noThrow_iff (listener : ℕ) (es : List Event) (hp : PossibleRun listener ∅ es) :
    run handle (started listener) es ≠ none ↔ ∀ bytes ∈ sessionInputs es, NoEmptyLine bytes := by
  rw [ne_eq, run_started_eq_none_iff hp]
  simp only [not_exists, not_and, not_not]

/-- A connection that sends a command nobody handles and a put line is served. -/
theorem telnet_noThrow_example :
    run handle (started 3) [.opened 4, .data 4 "version\nput a 1 2 k=v\n".toList] ≠ none :=
  (telnet_noThrow_iff 3 _ (by decide)).mpr (by decide)

/-- One newline on a fresh connection throws. -/
theorem telnet_throws :
    ¬ ∀ listener es, PossibleRun listener ∅ es → run handle (started listener) es ≠ none := fun h =>
  h 3 [.opened 4, .data 4 "\n".toList] (by decide) rfl

/-- The outputs of the byte loops, read off their streams. -/
theorem outputs_eq_of_sessions {inputs : List Str} {outputs : List (List Effect)}
    (h : List.Forall₂ (fun as os => ∃ s', run byteStep [] as = some (s', os)) inputs outputs)
    (hlines : ∀ bytes ∈ inputs, NoEmptyLine bytes) :
    outputs = inputs.map fun bytes =>
      (completeLines bytes).flatMap fun l => respond (cleanLine l) := by
  induction h with
  | nil => rfl
  | cons hos _ ih =>
    obtain ⟨s', hs'⟩ := hos
    obtain ⟨line, hline⟩ := session_eq (hlines _ List.mem_cons_self)
    obtain ⟨-, rfl⟩ := Prod.mk.inj (Option.some.inj (hs'.symm.trans hline))
    rw [ih fun bytes hb => hlines bytes (List.mem_cons_of_mem _ hb), List.map_cons]

/-- **Connections are isolated.** In a run whose connections send no line that the filter leaves
empty, the effects of each connection are the responses to the complete lines of its own bytes, and
after every event the partial lines belong to the watched client sockets. -/
theorem telnet_isolated (listener : ℕ) (es : List Event) (hp : PossibleRun listener ∅ es)
    (hlines : ∀ bytes ∈ sessionInputs es, NoEmptyLine bytes) :
    (∃ s tr, run (traced handle) (started listener) es = some (s, tr) ∧
      sessionOutputs tr = (sessionInputs es).map fun bytes =>
        (completeLines bytes).flatMap fun l => respond (cleanLine l)) ∧
    ∀ pre post, es = pre ++ post →
      ∃ s o, run handle (started listener) pre = some (s, o) ∧ BuffersMatch s := by
  have hne : run handle (started listener) es ≠ none := by
    rw [ne_eq, run_started_eq_none_iff hp]
    simpa only [not_exists, not_and, not_not] using hlines
  constructor
  · obtain ⟨⟨s, tr⟩, hrun⟩ := Option.ne_none_iff_exists'.mp (mt run_traced_eq_none_iff.mp hne)
    refine ⟨s, tr, hrun, ?_⟩
    exact outputs_eq_of_sessions
      (mux_sessions (run_traced_handle (consistent_started listener) hp hrun)) hlines
  · rintro pre post rfl
    have hpre : run handle (started listener) pre ≠ none := fun h =>
      hne (by rw [run_append, h]; rfl)
    obtain ⟨⟨s, o⟩, hrun⟩ := Option.ne_none_iff_exists'.mp hpre
    obtain ⟨opens, hs⟩ :=
      consistent_run (consistent_started listener) (possibleRun_append.mp hp).1 hrun
    exact ⟨s, o, hrun, hs.buffersMatch⟩

/-- The descriptor of a connection that left an unfinished line is used again, and the new
connection sends its line in two chunks. -/
theorem telnet_isolated_example :
    ∃ s tr, run (traced handle) (started 3)
        [.opened 4, .data 4 "put b 1".toList, .closed 4,
          .opened 4, .data 4 "put a 1 2".toList, .data 4 " k=v\n".toList] = some (s, tr) ∧
      sessionOutputs tr =
        [[], [.queueMetric { name := ['a'], timestamp := 1, value := .fin false (2 ^ 52) (-51),
                             tags := "k=v".toList, isOk := true }, .addPutCount 1]] := by
  obtain ⟨⟨s, tr, hrun, hout⟩, -⟩ := telnet_isolated 3 [.opened 4, .data 4 "put b 1".toList,
    .closed 4, .opened 4, .data 4 "put a 1 2".toList, .data 4 " k=v\n".toList]
    (by decide) (by decide)
  refine ⟨s, tr, hrun, hout.trans ?_⟩
  simp only [respond, dispatchLine, dispatchPut, paramCount_eq]
  decide

end Runs

end SimpleTSDB.Telnet
