import HPQueue.Consumer.Worker

/-!
# The queue processor

The methods of `QueueProcessor`, as programs of the threads that call them.
-/

namespace HPQueue

open Library.Threads Prog

variable {ι : Type} {n : Nat} {E : Type}

namespace QueueProcessor

/-- Loads a flag of the processor. -/
def get (f : Flag n) : Code ι n E Bool := load (.flag f)

def set (f : Flag n) (b : Bool) : Code ι n E Unit := store (.flag f b)

/-- A loop over the vector `workers`. -/
def forWorkers (f : Fin n → Code ι n E Unit) : Code ι n E Unit := do
  if !(← get .cleared) then
    forEach (List.finRange n) f

/-- `new QueueConsumerWorker`, and its start. -/
def startNew (w : Fin n) : Code ι n E Unit := do
  store (.newWorker w)
  set (.processingWorker w) true
  Worker.start w

def start : Code ι n E Unit := do
  if !(← get .isTerminatedFlag) then
    acquire .startLock
    if !(← get .isTerminatedFlag) then
      if ← get .isRunningFlag then
        acquire .workerLock
        forEach (List.finRange n) Worker.start
        release .workerLock
      else
        set .isRunningFlag true
        acquire .workerLock
        forEach (List.finRange n) startNew
        release .workerLock
    release .startLock

/-- The worker leaves the vector, and `stop` waits for its end. -/
def discard (w : Fin n) : Code ι n E Unit := do
  set (.processingWorker w) false
  Worker.join w

def stop : Code ι n E Unit := do
  if ← get .isRunningFlag then
    acquire .startLock
    if ← get .isRunningFlag then
      acquire .workerLock
      forWorkers fun w => Worker.signal w true
      forWorkers Worker.stop
      forWorkers discard
      release .workerLock
    set .isPausedFlag false
    set .isRunningFlag false
    release .startLock

/-- `broadcast` signals the workers there are. -/
def broadcast : Code ι n E Unit := do
  acquire .workerLock
  forWorkers fun w => do
    if ← get (.processingWorker w) then
      Worker.signal w false
  release .workerLock

def terminate : Code ι n E Unit := do
  if !(← get .isTerminatedFlag) then
    set .isTerminatedFlag true
    stop
    acquire .workerLock
    set .cleared true
    release .workerLock

def pause (block : Bool) : Code ι n E Unit := do
  if !(← get .isTerminatedFlag) then
    acquire .startLock
    if !(← get .isPausedFlag) then
      if ← get .isRunningFlag then
        acquire .workerLock
        forWorkers fun w => Worker.pause w false
        if block then
          forWorkers fun w => Worker.pause w true
        release .workerLock
      set .isPausedFlag true
    store (.nestedPauseCounter 1)
    release .startLock

def resume : Code ι n E Unit := do
  if !(← get .isTerminatedFlag) then
    acquire .startLock
    if ← get .isPausedFlag then
      store (.nestedPauseCounter (-1))
      if !(← load .nestedPauseCounter) then
        acquire .workerLock
        if ← get .isRunningFlag then
          forWorkers Worker.resume
        release .workerLock
        set .isPausedFlag false
    release .startLock

end QueueProcessor

end HPQueue
