import Mathlib.Algebra.Order.Group.Nat
import SimpleTSDB.Arithmetic
import SimpleTSDB.Datastore.Process
import SimpleTSDB.Foundations.Tally

/-!
# Statistics

The statistics as a transducer: the threads add to the counters, and `Process` reads each of them
for a rate and resets it later. One action is one atomic operation of a thread, so that a run is an
interleaving. The counters are natural numbers, and the rate that is computed from a count and the
time since the last update is a parameter. `conserved_iff` says when no count is lost.
-/

namespace SimpleTSDB.Statistics

open Datastore Tally Transducer

/-- The counters `m_PutCount` and `m_WriteCount`. -/
inductive Counter where
  | puts
  | writes
deriving DecidableEq

/-- `m_Stats` and `m_Updated`. -/
structure Published where
  stats : Stats
  updated : Bool

/-- `GetStats`: the statistics, if they are returned. -/
def getStats (p : Published) (updated : Bool) : Option Stats × Published :=
  if updated && !p.updated then (none, p) else (some p.stats, { p with updated := false })

/-- Where `Process` is, with the time since the last update. -/
inductive Pc (T : Type*) where
  | idle
  | readPuts (deltaTime : T)
  | readWrites (deltaTime : T)
  | readBacklog
  | resetPuts
  | resetWrites
  | setUpdated

/-- The counters, the published statistics and the thread of the statistics. -/
structure State (T : Type*) extends Published where
  count : Counter → ℕ
  queueBacklog : ℕ
  pc : Pc T

/-- An atomic operation. -/
inductive Action (T : Type*) where
  | add (c : Counter) (n : ℕ)
  | setQueueBacklog (n : ℕ)
  | getStats (updated : Bool)
  | process (deltaTime : Option T)
  | next

/-- An operation on a counter, or that statistics are published. -/
inductive Event where
  | counter (c : Counter) (op : Op ℕ)
  | published
deriving DecidableEq

variable {T : Type*}

/-- The constructor does not set `m_Updated`. -/
def init (updated : Bool) : State T where
  stats := ⟨.fin false 0 0, .fin false 0 0, .fin false 0 0⟩
  updated
  count _ := 0
  queueBacklog := 0
  pc := .idle

/-- An operation. `rate` is the quotient of a count and the time since the last update. -/
def step (rate : ℕ → T → Double) (s : State T) : Action T → Option (State T × List Event)
  -- `AddPutCount` and `AddWriteCount`
  | .add c n =>
    some ({ s with count := Function.update s.count c (s.count c + n) }, [.counter c (.add n)])
  | .setQueueBacklog n => some ({ s with queueBacklog := n }, [])
  | .getStats updated => some ({ s with toPublished := (getStats s.toPublished updated).2 }, [])
  -- `Process` is called, and a second has passed or not
  | .process deltaTime =>
    match s.pc, deltaTime with
    | .idle, some deltaTime => some ({ s with pc := .readPuts deltaTime }, [])
    | .idle, none => some (s, [])
    | _, _ => none
  | .next =>
    match s.pc with
    | .idle => none
    | .readPuts deltaTime =>
      let n := s.count .puts
      some ({ s with
          stats := { s.stats with putsPerSecond := rate n deltaTime }
          pc := .readWrites deltaTime }, [.counter .puts (.read n)])
    | .readWrites deltaTime =>
      let n := s.count .writes
      some ({ s with
          stats := { s.stats with writesPerSecond := rate n deltaTime }
          pc := .readBacklog }, [.counter .writes (.read n)])
    | .readBacklog =>
      some ({ s with
          stats := { s.stats with queueBacklog := .ofNat s.queueBacklog }
          pc := .resetPuts }, [])
    -- reset the values
    | .resetPuts =>
      some ({ s with count := Function.update s.count .puts 0, pc := .resetWrites },
        [.counter .puts .reset])
    | .resetWrites =>
      some ({ s with count := Function.update s.count .writes 0, pc := .setUpdated },
        [.counter .writes .reset])
    | .setUpdated => some ({ s with updated := true, pc := .idle }, [.published])

/-! ## Conservation -/

/-- The operations on a counter in a run. -/
def ops (c : Counter) (o : List Event) : List (Op ℕ) :=
  o.filterMap fun | .counter c' op => if c' = c then some op else none | .published => none

/-- `Process` is between the read of the counter and its reset. -/
def Pc.isOpen : Counter → Pc T → Bool
  | .puts, .readWrites _ => true
  | .puts, .readBacklog => true
  | .puts, .resetPuts => true
  | .writes, .readBacklog => true
  | .writes, .resetPuts => true
  | .writes, .resetWrites => true
  | _, _ => false

@[simp] theorem ops_append (c : Counter) (o es : List Event) :
    ops c (o ++ es) = ops c o ++ ops c es := List.filterMap_append

theorem ops_self (c : Counter) (op : Op ℕ) : ops c [.counter c op] = [op] := by simp [ops]

theorem ops_of_ne {c c' : Counter} (h : c' ≠ c) (op : Op ℕ) : ops c [.counter c' op] = [] := by
  simp [ops, h]

/-- An operation of `Process`. -/
theorem drained_next {rate : ℕ → T → Double} {s t : State T} {o es : List Event} {c : Counter}
    (h : Drained (ops c o) (s.pc.isOpen c) (s.count c)) (hs : step rate s .next = some (t, es)) :
    Drained (ops c (o ++ es)) (t.pc.isOpen c) (t.count c) := by
  rw [ops_append]
  simp only [step] at hs
  split at hs
  next => cases hs
  next deltaTime hpc =>
    obtain ⟨rfl, rfl⟩ := Prod.mk.inj (Option.some.inj hs)
    rw [hpc] at h
    cases c with
    | puts => exact ops_self .puts _ ▸ h.read
    | writes => rwa [ops_of_ne (by simp), List.append_nil]
  next deltaTime hpc =>
    obtain ⟨rfl, rfl⟩ := Prod.mk.inj (Option.some.inj hs)
    rw [hpc] at h
    cases c with
    | puts => rwa [ops_of_ne (by simp), List.append_nil]
    | writes => exact ops_self .writes _ ▸ h.read
  next hpc =>
    obtain ⟨rfl, rfl⟩ := Prod.mk.inj (Option.some.inj hs)
    rw [hpc] at h
    cases c <;> exact (List.append_nil _).symm ▸ h
  next hpc =>
    obtain ⟨rfl, rfl⟩ := Prod.mk.inj (Option.some.inj hs)
    rw [hpc] at h
    cases c with
    | puts => exact ops_self .puts _ ▸ h.reset
    | writes => rwa [ops_of_ne (by simp), List.append_nil]
  next hpc =>
    obtain ⟨rfl, rfl⟩ := Prod.mk.inj (Option.some.inj hs)
    rw [hpc] at h
    cases c with
    | puts => rwa [ops_of_ne (by simp), List.append_nil]
    | writes => exact ops_self .writes _ ▸ h.reset
  next hpc =>
    obtain ⟨rfl, rfl⟩ := Prod.mk.inj (Option.some.inj hs)
    rw [hpc] at h
    cases c <;> exact (List.append_nil _).symm ▸ h

/-- **A step** drains the counters. -/
theorem drained_step {rate : ℕ → T → Double} {s t : State T} {a : Action T} {o es : List Event}
    {c : Counter} (h : Drained (ops c o) (s.pc.isOpen c) (s.count c))
    (hs : step rate s a = some (t, es)) :
    Drained (ops c (o ++ es)) (t.pc.isOpen c) (t.count c) := by
  cases a with
  | add c' n =>
    obtain ⟨rfl, rfl⟩ := Prod.mk.inj (Option.some.inj hs)
    rw [ops_append]
    dsimp only
    rcases eq_or_ne c' c with rfl | hne
    · rw [ops_self, Function.update_self]
      exact h.add n
    · rwa [ops_of_ne hne, List.append_nil, Function.update_of_ne hne.symm]
  | setQueueBacklog n =>
    obtain ⟨rfl, rfl⟩ := Prod.mk.inj (Option.some.inj hs)
    rwa [List.append_nil]
  | getStats updated =>
    obtain ⟨rfl, rfl⟩ := Prod.mk.inj (Option.some.inj hs)
    rwa [List.append_nil]
  | process deltaTime =>
    simp only [step] at hs
    split at hs
    next deltaTime hpc =>
      obtain ⟨rfl, rfl⟩ := Prod.mk.inj (Option.some.inj hs)
      rw [List.append_nil]
      rw [hpc] at h
      cases c <;> exact h
    · obtain ⟨rfl, rfl⟩ := Prod.mk.inj (Option.some.inj hs)
      rwa [List.append_nil]
    · cases hs
  | next => exact drained_next h hs

/-- **Every run** drains the counters. -/
theorem drained_of_run {rate : ℕ → T → Double} {updated : Bool} {as : List (Action T)}
    {s : State T} {o : List Event} (h : run (step rate) (init updated) as = some (s, o))
    (c : Counter) : Drained (ops c o) (s.pc.isOpen c) (s.count c) := by
  refine run_induction (motive := fun _ s o => Drained (ops c o) (s.pc.isOpen c) (s.count c))
    ?_ ?_ h
  · cases c <;> exact .nil
  · intro as s o a t es _ ih hs
    exact drained_step ih hs

/-- **The counts are conserved exactly if** nothing is added between the read of a counter for a
rate and its reset: then the counts used in rates and the counter make up all that was added. A
count that is read for a rate is in the counter until the reset. -/
theorem conserved_iff (rate : ℕ → T → Double) (updated : Bool) (as : List (Action T)) (s : State T)
    (o : List Event) (hrun : run (step rate) (init updated) as = some (s, o)) (c : Counter) :
    used (finished (ops c o)) + s.count c = added (ops c o) ↔
      NoneBetween (finished (ops c o)) :=
  (drained_of_run hrun c).used_add_eq_added_iff

/-- An update of the statistics. -/
def update : List (Action Unit) := .process (some ()) :: List.replicate 6 .next

/-- A put is counted and used in the next update. -/
theorem conserved_example : ∃ s o,
    run (step fun _ _ => .nan) (init false) (.add .puts 1 :: update) = some (s, o) ∧
      used (finished (ops .puts o)) = 1 ∧
        (used (finished (ops .puts o)) + s.count .puts = added (ops .puts o) ↔
          NoneBetween (finished (ops .puts o))) := by
  have hrun : ∃ p ∈ run (step fun _ _ => .nan) (init false) (.add .puts 1 :: update),
      used (finished (ops .puts p.2)) = 1 := by decide
  obtain ⟨⟨s, o⟩, hrun, hused⟩ := hrun
  exact ⟨s, o, hrun, hused, conserved_iff _ false _ s o hrun .puts⟩

/-- A put is counted between the read of the counter and its reset. -/
def latePut : List (Action Unit) :=
  [.process (some ()), .next, .add .puts 1, .next, .next, .next, .next, .next]

/-- **A count that comes late is lost.** -/
theorem not_conserved : ¬ ∀ (updated : Bool) (as : List (Action Unit)) (s : State Unit)
    (o : List Event), run (step fun _ _ => .nan) (init updated) as = some (s, o) →
      ∀ c, used (finished (ops c o)) + s.count c = added (ops c o) := by
  intro h
  have hrun : ∃ p ∈ run (step fun _ _ => .nan) (init false) latePut,
      used (finished (ops .puts p.2)) + p.1.count .puts ≠ added (ops .puts p.2) := by decide
  obtain ⟨⟨s, o⟩, hrun, hne⟩ := hrun
  exact hne (h false latePut s o hrun .puts)

end SimpleTSDB.Statistics
