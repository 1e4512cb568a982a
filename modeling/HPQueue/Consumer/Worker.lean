import HPQueue.Consumer.Control

/-!
# A worker

The methods of `Worker` and of `QueueConsumerWorker`, as programs.  `run` is what
the worker's own thread does; the others are called by the processor.
-/

namespace HPQueue

open Library.Threads Prog

variable {ι : Type} {n : Nat} {E : Type}

namespace Worker

/-- Loads a flag of the worker. -/
def get (w : Fin n) (f : WorkerFlag) : Code ι n E Bool := load (.flag (.worker w f))

def set (w : Fin n) (f : WorkerFlag) (b : Bool) : Code ι n E Unit := store (.flag (.worker w f) b)

/-- `QueueConsumerWorker::isWork`. -/
def isWork (w : Fin n) : Code ι n E Bool := do
  let work ← ask (.isWork w)
  return work ≠ 0

/-- How `doWork` ends. -/
inductive Outcome
  | none
  | some
  | thrown
  deriving DecidableEq

/-- `QueueConsumerWorker::doWork`. -/
def doWork (w : Fin n) : Code ι n E Outcome := do
  let entry ← ask (.remove w)
  if entry ≠ 0 then
    let error ← ask (.handle w)
    return if error ≠ 0 then .thrown else .some
  else
    return .none

def start (w : Fin n) : Code ι n E Unit := do
  if !(← get w .isStartedFlag) then
    if !(← get w .isTerminatedFlag) then
      acquire (.workerStartLock w)
      if !(← get w .isStartedFlag) then
        if !(← get w .isTerminatedFlag) then
          set w .isStartedFlag true
          spawn (.worker w)
      release (.workerStartLock w)

/-- The branch of `run` for a worker that is paused. -/
def waitWhilePaused (w : Fin n) : Code ι n E Unit := do
  acquire (.hasPausedLock w)
  if ← get w .isPausedFlag then
    if !(← get w .isTerminatedFlag) then
      set w .isIdleFlag true
      Prog.signal (.isIdle w)
      wait (.hasPaused w) (.hasPausedLock w)
      set w .isIdleFlag false
  release (.hasPausedLock w)

/-- The branch of `run` for a worker that found no work. -/
def waitForWork (w : Fin n) : Code ι n E Unit := do
  acquire (.isWorkLock w)
  if !(← isWork w) then
    if !(← get w .isTerminatedFlag) then
      if !(← get w .isPausedFlag) then
        set w .isWaitingFlag true
        if ← get w .haveWorkJoiners then
          broadcast (.isWorkWaiting w)
        wait (.isWorkWaiting w) (.isWorkLock w)
        set w .isWaitingFlag false
  release (.isWorkLock w)

/-- One round of the loop of `run`, until an exception is thrown (1) or the worker
is terminated (0). -/
def runLoop (w : Fin n) : Code ι n E Int := do
  let outcome ←
    if ← get w .isPausedFlag then do
      waitWhilePaused w
      pure Outcome.some
    else do
      let outcome ← doWork w
      if outcome = .none then
        waitForWork w
      pure outcome
  if outcome = .thrown then
    return 1
  else if !(← get w .isTerminatedFlag) then
    call (.runLoop w)
  else
    return 0

/-- What `run` does with an exception. -/
def handleError (w : Fin n) : Code ι n E Unit := do
  set w .isTerminatedFlag true
  acquire (.hasPausedLock w)
  if ← get w .isPausedFlag then
    Prog.signal (.isIdle w)
    set w .isIdleFlag false
  release (.hasPausedLock w)
  acquire (.isWorkLock w)
  if ← get w .haveWorkJoiners then
    broadcast (.isWorkWaiting w)
  set w .isWaitingFlag false
  release (.isWorkLock w)

def signalDead (w : Fin n) : Code ι n E Unit := do
  acquire (.hasDiedLock w)
  set w .isDeadFlag true
  Prog.signal (.hasDied w)
  release (.hasDiedLock w)

def run (w : Fin n) : Code ι n E Unit := do
  let _ ← ask (.started w)
  let _ ← ask (.init w)
  let error ← call (.runLoop w)
  if error ≠ 0 then
    handleError w
  let _ ← ask (.finalize w)
  signalDead w

/-- The loop of `join`. -/
def whileAlive (w : Fin n) : Code ι n E Int := do
  if !(← get w .isDeadFlag) then
    wait (.hasDied w) (.hasDiedLock w)
    call (.whileAlive w)
  else
    return 0

def join (w : Fin n) : Code ι n E Unit := do
  if !(← get w .isDeadFlag) then
    acquire (.hasDiedLock w)
    let _ ← call (.whileAlive w)
    release (.hasDiedLock w)

/-- `signal`; if `block`, it returns when the worker has no work left. -/
def signal (w : Fin n) (block : Bool) : Code ι n E Unit := do
  acquire (.isWorkLock w)
  if ← get w .isWaitingFlag then
    Prog.signal (.isWorkWaiting w)
  if block then
    if !(← get w .isTerminatedFlag) then
      if ← get w .isStartedFlag then
        set w .haveWorkJoiners true
        wait (.isWorkWaiting w) (.isWorkLock w)
  release (.isWorkLock w)

def pause (w : Fin n) (block : Bool) : Code ι n E Unit := do
  if !(← get w .isTerminatedFlag) then
    acquire (.hasPausedLock w)
    if !(← get w .isTerminatedFlag) then
      if !(← get w .isPausedFlag) then
        set w .isPausedFlag true
        signal w false
      if block then
        if !(← get w .isIdleFlag) then
          if ← get w .isStartedFlag then
            wait (.isIdle w) (.hasPausedLock w)
    release (.hasPausedLock w)

def resume (w : Fin n) : Code ι n E Unit := do
  if ← get w .isPausedFlag then
    acquire (.hasPausedLock w)
    if ← get w .isPausedFlag then
      set w .isPausedFlag false
      Prog.signal (.hasPaused w)
    release (.hasPausedLock w)

/-- Whether the worker was started, as `stop` finds out. -/
def wasStarted (w : Fin n) : Code ι n E Bool := do
  if ← get w .isStartedFlag then
    return true
  else
    acquire (.workerStartLock w)
    let started ← get w .isStartedFlag
    release (.workerStartLock w)
    return started

def stop (w : Fin n) : Code ι n E Unit := do
  set w .isTerminatedFlag true
  if ← wasStarted w then
    resume w
    signal w false
    acquire (.hasPausedLock w)
    Prog.signal (.isIdle w)
    set w .isIdleFlag false
    release (.hasPausedLock w)
  else
    acquire (.hasPausedLock w)
    set w .isPausedFlag false
    Prog.signal (.isIdle w)
    set w .isIdleFlag false
    release (.hasPausedLock w)
    signalDead w

end Worker

end HPQueue
