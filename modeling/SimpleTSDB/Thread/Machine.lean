import SimpleTSDB.Foundations.Transducer

/-!
# Threads

A `Thread`, its owner and the worker threads that it has created, as a transducer. The owner calls
one method after the other, and a worker runs `ThreadHelper::Exec`. One action is one atomic step of
the owner or of a worker: a flag is read or written, or a callback is made. Whether a worker thread
can be created and whether the callback `Start` succeeds is chosen by the action. The thread is that
of the Windows API, where the handle is stored when the worker already runs.
-/

namespace SimpleTSDB.Thread

/-- The classes whose callbacks a thread makes. -/
inductive ProcKind where
  | datastore
  | telnetProcessor
  | statistics
deriving DecidableEq

/-- Does `Process` stop the thread if the `m_Running` of the class is not set? -/
def ProcKind.guarded : ProcKind → Bool
  | .datastore => true
  | .telnetProcessor => true
  | .statistics => false

/-- The members of the thread, and `m_Running` of the class whose callbacks it makes. A handle is
that of a worker. -/
structure Fields where
  helper : Bool := false
  handle : Option ℕ := none
  started : Bool := false
  running : Bool := false
  pausing : Bool := false
  paused : Bool := false
  procRunning : Bool := false
deriving DecidableEq

/-- Where `Start` is. -/
inductive StartPc where
  | testStarted
  | newHelper
  | setStarted
  | createThread
  | setHandle (created : Option ℕ)
  | testHandle
  | failed
  | setRunning
deriving DecidableEq

/-- Where `Stop` is. -/
inductive StopPc where
  | clearRunning
  | clearStarted
  | testHandle
  | wait
  | waiting (w : ℕ)
  | clearHandle
  | deleteHelper
deriving DecidableEq

/-- Where the owner is. -/
inductive OwnerPc where
  | idle
  | start (pc : StartPc)
  | stop (pc : StopPc)
  | pause
  | pauseWait (watchdog : ℕ)
  | resume
  | resumeUnpause
deriving DecidableEq

/-- Where a worker is. -/
inductive WorkerPc where
  | onStart
  | procStart
  | loop
  | testRunning
  | testPaused
  | process
  | stopping (pc : StopPc)
  | testPausing
  | setPaused
  | procStop
  | exited
deriving DecidableEq

/-- The members, the owner and the workers in the order in which they were created. -/
structure State extends Fields where
  owner : OwnerPc := .idle
  workers : List WorkerPc := []
deriving DecidableEq

/-- The methods of the owner. -/
inductive Call where
  | start
  | stop
  | pause
  | resume
deriving DecidableEq

/-- An atomic step. -/
inductive Action where
  | call (c : Call)
  | owner (created : Bool)
  | worker (w : ℕ) (ok : Bool)
deriving DecidableEq

/-- What happens in a step. The callback `Start` is recorded with what it leaves in `m_Running` of
its class; a thread is waited for by the owner (`none`) or by a worker. -/
inductive Event where
  | created (w : ℕ)
  | cleared
  | checked (w : ℕ) (started : Bool)
  | start (w : ℕ) (running : Bool)
  | process (w : ℕ)
  | stop (w : ℕ)
  | stopCalled (w : ℕ)
  | wait (agent : Option ℕ) (w : ℕ)
  | waited (agent : Option ℕ) (w : ℕ)
deriving DecidableEq

/-- A step of `Stop`, called by the owner or by a worker: the members and where it is then, `none`
if it has returned. -/
def stopStep (exited : ℕ → Bool) (agent : Option ℕ) (f : Fields) :
    StopPc → Option (Fields × Option StopPc × List Event)
  | .clearRunning => some ({ f with running := false }, some .clearStarted, [])
  | .clearStarted => some ({ f with started := false }, some .testHandle, [.cleared])
  | .testHandle => some (f, some (if f.handle.isSome then .wait else .deleteHelper), [])
  | .wait =>
    match f.handle with
    | some w => some (f, some (.waiting w), [.wait agent w])
    | none => some (f, some .clearHandle, [])    -- waiting for no handle fails at once
  | .waiting w => if exited w then some (f, some .clearHandle, [.waited agent w]) else none
  -- the handle is closed, which no one else notices
  | .clearHandle => some ({ f with handle := none }, some .deleteHelper, [])
  | .deleteHelper => some ({ f with helper := false }, none, [])

namespace State

/-- Has the worker thread ended? -/
def exited (s : State) (w : ℕ) : Bool := s.workers[w]? = some .exited

/-- The worker goes on. -/
def go (s : State) (w : ℕ) (pc : WorkerPc) : State := { s with workers := s.workers.set w pc }

end State

/-- A step of `Start`. -/
def startStep (created : Bool) (s : State) : StartPc → State × List Event
  | .testStarted => ({ s with owner := if s.started then .idle else .start .newHelper }, [])
  | .newHelper => ({ s with helper := true, owner := .start .setStarted }, [])
  | .setStarted => ({ s with started := true, owner := .start .createThread }, [])
  | .createThread =>
    if created then
      ({ s with
          owner := .start (.setHandle (some s.workers.length))
          workers := s.workers ++ [.onStart] }, [.created s.workers.length])
    else ({ s with owner := .start (.setHandle none) }, [])
  | .setHandle handle => ({ s with handle, owner := .start .testHandle }, [])
  | .testHandle =>
    ({ s with owner := .start (if s.handle = none then .failed else .setRunning) }, [])
  | .failed => ({ s with started := false, owner := .idle }, [])
  | .setRunning => ({ s with running := true, owner := .idle }, [])

/-- A step of the owner inside a method. -/
def ownerStep (created : Bool) (s : State) : Option (State × List Event) :=
  match s.owner with
  | .idle => none
  | .start pc => some (startStep created s pc)
  | .stop pc =>
    (stopStep s.exited none s.toFields pc).map fun (f, pc, es) =>
      ({ s with toFields := f, owner := pc.elim .idle .stop }, es)
  | .pause => some ({ s with pausing := true, owner := .pauseWait 0 }, [])
  | .pauseWait watchdog =>
    let owner := if !s.paused && watchdog < 5 then .pauseWait (watchdog + 1) else .idle
    some ({ s with owner }, [])
  | .resume => some ({ s with pausing := false, owner := .resumeUnpause }, [])
  | .resumeUnpause => some ({ s with paused := false, owner := .idle }, [])

/-- A step of `Exec` of the worker `w`. -/
def workerStep (proc : ProcKind) (w : ℕ) (ok : Bool) (s : State) :
    WorkerPc → Option (State × List Event)
  -- `OnStart`
  | .onStart =>
    some (s.go w (if s.started then .procStart else .loop), [.checked w s.started])
  | .procStart =>
    let procRunning := s.procRunning || ok
    some ({ s with procRunning }.go w .loop, [.start w procRunning])
  -- `OnProcess`
  | .loop => some (s.go w (if s.started then .testRunning else .procStop), [])
  | .testRunning => some (s.go w (if s.running then .testPaused else .testPausing), [])
  | .testPaused => some (s.go w (if s.paused then .testPausing else .process), [])
  | .process =>
    if proc.guarded && !s.procRunning then
      some (s.go w (.stopping .clearRunning), [.process w, .stopCalled w])
    else some (s.go w .testPausing, [.process w])
  | .stopping pc =>
    (stopStep s.exited (some w) s.toFields pc).map fun (f, pc, es) =>
      ({ s with toFields := f }.go w (pc.elim .testPausing .stopping), es)
  | .testPausing => some (s.go w (if s.pausing then .setPaused else .loop), [])
  | .setPaused => some ({ s with paused := true }.go w .loop, [])
  -- `OnStop`
  | .procStop => some (s.go w .exited, [.stop w])
  | .exited => none

/-- Where a method starts. -/
def Call.entry : Call → OwnerPc
  | .start => .start .testStarted
  | .stop => .stop .clearRunning
  | .pause => .pause
  | .resume => .resume

/-- A step of the threads. -/
def step (proc : ProcKind) (s : State) : Action → Option (State × List Event)
  | .call c => if s.owner = .idle then some ({ s with owner := c.entry }, []) else none
  | .owner created => ownerStep created s
  | .worker w ok => (s.workers[w]?).bind (workerStep proc w ok s)

end SimpleTSDB.Thread
