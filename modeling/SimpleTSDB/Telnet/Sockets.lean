import SimpleTSDB.Foundations.Ledger
import SimpleTSDB.Telnet.Process

/-!
# The sockets of the telnet processor

`Start` tries the addresses one after the other, and closes a socket that cannot be bound; `Process`
opens and closes the sockets of the clients; `Stop` closes those of the clients and the listener, if
it is not 0. A descriptor is held from the call that returns it to the one that closes it.
`sockets_settle_iff` says when every descriptor is closed exactly once in the end: `m_Listener` has
to be 0, or a failure, if no address can be bound, and it must not be 0 otherwise.
-/

namespace SimpleTSDB.Telnet

open Ledger Transducer

/-! ## The life of the processor -/

/-- An address: what `socket` returns, `none` for a failure, and whether `bind` succeeds. -/
structure Address where
  socket : Option ℕ
  bound : Bool

/-- The answers of the operating system to `Start`: the addresses, `none` if `getaddrinfo` fails,
and whether `listen` succeeds. -/
structure Opening where
  addresses : Option (List Address)
  listens : Bool

/-- The loop over the addresses: whether one is bound, `m_Listener`, and the moves. -/
def bindLoop : Option ℕ → List Address → Bool × Option ℕ × List (Move ℕ)
  | listener, [] => (false, listener, [])
  | _, a :: as =>
    match a.socket with
    | none => bindLoop none as
    | some fd =>
      if a.bound then (true, some fd, [.acquire fd])
      else
        let (found, listener, ms) := bindLoop (some fd) as
        (found, listener, .acquire fd :: .release fd :: ms)

/-- `Start`: `m_Running`, `m_Listener`, which is 0 before, and the moves. -/
def start (o : Opening) : Bool × Option ℕ × List (Move ℕ) :=
  match o.addresses with
  | none => (false, some 0, [])
  | some as =>
    let (found, listener, ms) := bindLoop (some 0) as
    (found && o.listens, listener, ms)

/-- The moves of an event. -/
def eventMoves : Event → List (Move ℕ)
  | .opened fd => [.acquire fd]
  | .data _ _ => []
  | .closed fd => [.release fd]

/-- The keys of the map of partial lines, in its order. -/
def clients (clientBuffers : ℕ → Option Str) : List ℕ :=
  (List.range FD_SETSIZE).filter fun fd => (clientBuffers fd).isSome

/-- `Stop`, for the listener. The `close` of a failure does nothing. -/
def closeListener : Option ℕ → List (Move ℕ)
  | none => []
  | some fd => if fd = 0 then [] else [.release fd]

/-- `Stop`: the moves. -/
def stop (listener : Option ℕ) (clientBuffers : ℕ → Option Str) : List (Move ℕ) :=
  (clients clientBuffers).map .release ++ closeListener listener

/-- The moves of `Start`, of the events of `Process`, if the processor is running, and of `Stop`;
`none` if `Process` throws. A processor that is not running comes to `Stop` if its thread is stopped
before the first `Process`. -/
def life (o : Opening) (es : List Event) : Option (List (Move ℕ)) :=
  match start o with
  | (true, some listener, ms) =>
    (run handle (started listener) es).map fun p =>
      ms ++ es.flatMap eventMoves ++ stop (some p.1.listener) p.1.clientBuffers
  | (_, listener, ms) => some (ms ++ stop listener fun _ => none)

/-- The address can be bound. -/
def Address.isUsable (a : Address) : Bool := a.socket.isSome && a.bound

/-- The first address that can be bound does not have the descriptor 0; if there is none, the last
address has no socket, or the descriptor 0. -/
def Opening.IsClean (o : Opening) : Prop :=
  ∀ as ∈ o.addresses, match as.find? Address.isUsable with
    | some a => a.socket ≠ some 0
    | none => ∀ a ∈ as.getLast?, a.socket = none ∨ a.socket = some 0

/-! ## The listener -/

/-- **The loop over the addresses** keeps the socket of the first one that can be bound, and none if
there is no such one. -/
theorem bindLoop_spec (listener : Option ℕ) (as : List Address) :
    match as.find? Address.isUsable with
    | some a => ∃ fd, a.socket = some fd ∧ (bindLoop listener as).1 = true ∧
        (bindLoop listener as).2.1 = some fd ∧ settle 0 (bindLoop listener as).2.2 = some {fd}
    | none => (bindLoop listener as).1 = false ∧
        (bindLoop listener as).2.1 = (as.getLast?.map Address.socket).getD listener ∧
        settle 0 (bindLoop listener as).2.2 = some 0 := by
  induction as generalizing listener with
  | nil => exact ⟨rfl, rfl, rfl⟩
  | cons a as ih =>
    obtain ⟨socket, bound⟩ := a
    have hlast (l : Option ℕ) : ((⟨socket, bound⟩ :: as).getLast?.map Address.socket).getD l =
        (as.getLast?.map Address.socket).getD socket := by
      rw [List.getLast?_cons]
      cases as.getLast? <;> rfl
    cases socket with
    | none =>
      rw [List.find?_cons_of_neg (by simp [Address.isUsable]), hlast]
      exact ih none
    | some fd =>
      cases bound with
      | true => exact ⟨fd, rfl, rfl, rfl, rfl⟩
      | false =>
        have hnext := ih (some fd)
        rw [List.find?_cons_of_neg (by simp [Address.isUsable])]
        have hpair (ms : List (Move ℕ)) :
            settle 0 (.acquire fd :: .release fd :: ms) = settle 0 ms :=
          settle_release_cons 0 fd ms
        split
        · next a ha =>
          rw [ha] at hnext
          obtain ⟨fd', hfd, hfound, hlistener, hms⟩ := hnext
          exact ⟨fd', hfd, hfound, hlistener, (hpair _).trans hms⟩
        · next hnone =>
          rw [hnone] at hnext
          exact ⟨hnext.1, hnext.2.1.trans (hlast listener).symm, (hpair _).trans hnext.2.2⟩

/-! ## The clients -/

section Clients

variable {listener : ℕ} {opens : Finset ℕ} {s s' : TelnetProcessor} {o : List Effect}

/-- What is held while the connections `opens` are open. -/
def heldWith (listener : ℕ) (opens : Finset ℕ) : Multiset ℕ := listener ::ₘ opens.val

theorem settle_event {e : Event} (hp : Possible listener opens e) :
    settle (heldWith listener opens) (eventMoves e) =
      some (heldWith listener (openAfter opens e)) := by
  cases e with
  | opened fd =>
    rw [eventMoves, settle_kept, openAfter, heldWith, heldWith, Finset.insert_val_of_notMem hp.1,
      Multiset.add_comm, Multiset.singleton_add, Multiset.cons_swap]
  | data fd bytes => rfl
  | closed fd =>
    have hfd : fd ∈ opens.val := hp
    have hheld : heldWith listener opens = fd ::ₘ heldWith listener (opens.erase fd) := by
      rw [heldWith, heldWith, Multiset.cons_swap, Finset.erase_val, Multiset.cons_erase hfd]
    rw [hheld, eventMoves, settle_release_cons]
    rfl

/-- The map of partial lines has the open connections. -/
theorem clients_eq (hc : Consistent listener opens s) (hlt : ∀ fd ∈ opens, fd < FD_SETSIZE) :
    (clients s.clientBuffers : Multiset ℕ) = opens.val := by
  have hnodup : (clients s.clientBuffers).Nodup := List.nodup_range.filter _
  refine (Multiset.Nodup.ext (Multiset.coe_nodup.mpr hnodup) opens.nodup).mpr fun fd => ?_
  rw [Multiset.mem_coe, clients, List.mem_filter, List.mem_range, hc.keys, Finset.mem_val]
  exact ⟨fun h => h.2, fun h => ⟨hlt fd h, h⟩⟩

/-- **The events** of a run. -/
theorem settle_events {es : List Event} (hc : Consistent listener opens s)
    (hlt : ∀ fd ∈ opens, fd < FD_SETSIZE) (hp : PossibleRun listener opens es)
    (h : run handle s es = some (s', o)) : ∃ opens', Consistent listener opens' s' ∧
      (∀ fd ∈ opens', fd < FD_SETSIZE) ∧
      settle (heldWith listener opens) (es.flatMap eventMoves) =
        some (heldWith listener opens') := by
  induction es generalizing opens s o with
  | nil =>
    obtain ⟨rfl, -⟩ := Prod.mk.inj (Option.some.inj h)
    exact ⟨opens, hc, hlt, rfl⟩
  | cons e es ih =>
    obtain ⟨s₁, o₁, o₂, hh, hr, -⟩ := run_cons_eq_some_iff.mp h
    have hlt' : ∀ fd ∈ openAfter opens e, fd < FD_SETSIZE := by
      intro fd hfd
      cases e with
      | opened fd' =>
        rcases Finset.mem_insert.mp hfd with rfl | hfd
        · exact hp.1.2.2
        · exact hlt fd hfd
      | data fd' bytes => exact hlt fd hfd
      | closed fd' => exact hlt fd (Finset.mem_of_mem_erase hfd)
    obtain ⟨opens', hc', hlt'', hsettle⟩ := ih (consistent_handle hc hp.1 hh) hlt' hp.2 hr
    refine ⟨opens', hc', hlt'', ?_⟩
    rw [List.flatMap_cons, settle_append_of_eq (settle_event hp.1), hsettle]

end Clients

/-! ## The whole life -/

/-- Behind a successful `Start`, only the listener can be left. -/
theorem settle_stop {listener : ℕ} {opens : Finset ℕ} {s : TelnetProcessor}
    (hc : Consistent listener opens s) (hlt : ∀ fd ∈ opens, fd < FD_SETSIZE) :
    settle (heldWith listener opens) (stop (some s.listener) s.clientBuffers) =
      some (if listener = 0 then {0} else 0) := by
  have hclients : settle opens.val ((clients s.clientBuffers).map .release) = some 0 :=
    settle_releases (clients_eq hc hlt)
  have hheld : heldWith listener opens = opens.val + {listener} := by
    rw [heldWith, Multiset.add_comm, Multiset.singleton_add]
  rw [hheld, stop, settle_append_of_eq (settle_add hclients {listener}), hc.listener_eq,
    Multiset.zero_add, closeListener]
  split
  · next h0 => rw [h0]; rfl
  · exact settle_release_cons 0 listener []

/-- A listener that is closed already. -/
theorem settle_closeListener_iff (listener : Option ℕ) :
    settle 0 (closeListener listener) = some 0 ↔ listener = none ∨ listener = some 0 := by
  cases listener with
  | none => exact iff_of_true rfl (.inl rfl)
  | some fd =>
    rw [closeListener]
    by_cases h0 : fd = 0
    · rw [if_pos h0]
      exact iff_of_true rfl (.inr (congrArg some h0))
    · rw [if_neg h0, settle_release_of_not_mem (Multiset.notMem_zero fd)]
      refine iff_of_false (fun h => by cases h) ?_
      rintro (h | h)
      · cases h
      · exact h0 (Option.some.inj h)

theorem stop_none (listener : Option ℕ) :
    stop listener (fun _ => none) = closeListener listener := by
  simp [stop, clients]

/-- A life with a socket that is bound. -/
theorem settle_bound {fd : ℕ} {ms ms' : List (Move ℕ)} {es : List Event}
    (hbound : settle 0 ms = some {fd}) (hp : PossibleRun fd ∅ es)
    (h : (run handle (started fd) es).map (fun p =>
      ms ++ es.flatMap eventMoves ++ stop (some p.1.listener) p.1.clientBuffers) = some ms') :
    settle 0 ms' = some 0 ↔ fd ≠ 0 := by
  obtain ⟨⟨s, effects⟩, hrun, rfl⟩ := Option.map_eq_some_iff.mp h
  have hlt₀ : ∀ fd' ∈ (∅ : Finset ℕ), fd' < FD_SETSIZE :=
    fun fd' hfd => absurd hfd (Finset.notMem_empty fd')
  obtain ⟨opens, hc, hlt, hevents⟩ := settle_events (consistent_started fd) hlt₀ hp hrun
  have hstart : settle 0 (ms ++ es.flatMap eventMoves) = some (heldWith fd opens) := by
    rw [settle_append_of_eq hbound]
    exact hevents
  rw [settle_append_of_eq hstart, settle_stop hc hlt, Option.some.injEq]
  by_cases h0 : fd = 0
  · rw [if_pos h0]
    exact iff_of_false (Multiset.singleton_ne_zero 0) fun h => h h0
  · rw [if_neg h0]
    exact iff_of_true rfl h0

/-- **Every descriptor is closed exactly once if and only if** the opening is clean, in every life
of the processor. -/
theorem sockets_settle_iff (o : Opening) (es : List Event) (ms : List (Move ℕ))
    (hp : (start o).1 = true → ∀ listener ∈ (start o).2.1, PossibleRun listener ∅ es)
    (h : life o es = some ms) :
    settle 0 ms = some 0 ↔ o.IsClean := by
  obtain ⟨addresses, listens⟩ := o
  cases addresses with
  | none =>
    obtain rfl := Option.some.inj h
    rw [List.nil_append, stop_none]
    exact iff_of_true rfl fun as has => by cases has
  | some as =>
    have hspec := bindLoop_spec (some 0) as
    have hclean : Opening.IsClean ⟨some as, listens⟩ ↔ match as.find? Address.isUsable with
        | some a => a.socket ≠ some 0
        | none => ∀ a ∈ as.getLast?, a.socket = none ∨ a.socket = some 0 := by
      simp [Opening.IsClean]
    rw [hclean]
    unfold life at h
    simp only [start] at h hp
    generalize bindLoop (some 0) as = b at hspec h hp
    obtain ⟨found, listener, bound⟩ := b
    split
    · next a ha =>
      rw [ha] at hspec
      obtain ⟨fd, hfd, hfound, hlistener, hbound⟩ := hspec
      obtain rfl : found = true := hfound
      obtain rfl : listener = some fd := hlistener
      rw [hfd, ne_eq, Option.some.injEq]
      cases listens with
      | true => exact settle_bound hbound (hp rfl fd rfl) h
      | false =>
        obtain rfl := Option.some.inj h
        refine @settle_bound fd bound _ [] hbound trivial ?_
        rw [List.flatMap_nil, List.append_nil]
        rfl
    · next hnone =>
      rw [hnone] at hspec
      obtain ⟨hfound, hlistener, hbound⟩ := hspec
      obtain rfl : found = false := hfound
      obtain rfl : listener = _ := hlistener
      obtain rfl := Option.some.inj h
      rw [settle_append_of_eq hbound, stop_none, settle_closeListener_iff]
      cases as.getLast? with
      | none => exact iff_of_true (.inr rfl) fun a ha => by cases ha
      | some a => exact ⟨fun h a' ha => Option.mem_some_iff.mp ha ▸ h, fun h => h a rfl⟩

/-- Two addresses, the second of which can be bound. -/
def secondAddress : Opening := ⟨some [⟨some 5, false⟩, ⟨some 5, true⟩], true⟩

/-- A client that hangs up, and one that `Stop` finds. -/
def twoClients : List Event := [.opened 6, .data 6 "put".toList, .closed 6, .opened 6]

theorem sockets_settle_iff_example :
    (∃ ms, life secondAddress twoClients = some ms ∧ settle 0 ms = some 0) ∧
      ∃ ms, life ⟨some [⟨some 5, false⟩], true⟩ [] = some ms ∧ settle 0 ms ≠ some 0 := by
  refine ⟨⟨_, rfl, (sockets_settle_iff secondAddress twoClients _ ?_ rfl).mpr ?_⟩, ⟨_, rfl, ?_⟩⟩
  · intro _ listener h
    obtain rfl := Option.mem_some_iff.mp h
    decide
  · rintro as ⟨⟩
    exact (by decide : (some 5 : Option ℕ) ≠ some 0)
  · intro h
    have hclean := (sockets_settle_iff ⟨some [⟨some 5, false⟩], true⟩ [] _ (fun h => by cases h)
      rfl).mp h
    exact absurd (hclean _ rfl _ rfl) (by decide)

end SimpleTSDB.Telnet
