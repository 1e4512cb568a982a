import HPQueue.Consumer.QueueProcessor
import HPQueue.Queue.ProcessingQueue

/-!
# Producers

`QueueProducerInterface` and the `ResizeControls` it works with, as programs of
the threads that add entries; and the machine that all threads run on.

`Processor` leaves the queue and the consumers open: every answer of theirs is
possible at any time.
-/

namespace HPQueue

open Library.Threads Prog QueueConstants

variable {ι : Type} {n : Nat} {E : Type}

namespace ResizeControls

/-- `while(resizing) isResizingCond.wait(resizeQueuesLock)`. -/
def whileResizing : Code ι n E Int := do
  if ← load (.flag .resizing) then
    wait .isResizingCond .resizeQueuesLock
    call .whileResizing
  else
    return 0

def waitForResize : Code ι n E Unit := do
  acquire .resizeQueuesLock
  let _ ← call .whileResizing
  store (.addingCount 1)
  release .resizeQueuesLock

/-- `checkFull`: returns with the lock if the queue was full. -/
def checkFull (index : Int) : Code ι n E Bool := do
  acquire .resizeQueuesLock
  store (.addingCount (-1))
  if index = IS_FULL then
    let _ ← call .whileResizing
    return true
  else
    release .resizeQueuesLock
    return false

/-- `checkFullForResize`: returns without the lock. -/
def checkFullForResize (index : Int) : Code ι n E Bool := do
  store (.flag .resizing (index = IS_FULL))
  release .resizeQueuesLock
  return index = IS_FULL

/-- The loop of `pauseAdders`. -/
def whileAdding : Code ι n E Int := do
  if ← load .addingCount then
    call .whileAdding
  else
    return 0

def pauseAdders : Code ι n E Unit := do
  let _ ← call .whileAdding

def resumeAdders : Code ι n E Unit := do
  acquire .resizeQueuesLock
  store (.addingCount 1)
  store (.flag .resizing false)
  Prog.broadcast .isResizingCond
  release .resizeQueuesLock

end ResizeControls

namespace QueueProducerInterface

open ResizeControls

def resumeThreadsForResize : Code ι n E Unit := do
  QueueProcessor.resume
  resumeAdders

def pauseThreadsForResize : Code ι n E Unit := do
  pauseAdders
  QueueProcessor.pause true

/-- The loop of `checkResizable`: the index of the first `add` that is not refused. -/
def whileFull (entry : E) : Code ι n E Int := do
  let index ← ask (.add entry)
  if index = IS_FULL then
    call (.whileFull entry)
  else
    return index

/-- `checkResizable`: the index it leaves in its argument. -/
def checkResizable (entry : E) (index : Int) : Code ι n E Int := do
  if index = IS_FULL then
    let maxSize ← ask .isMaxSize
    if maxSize ≠ 0 then
      call (.whileFull entry)
    else
      return index
  else
    return index

/-- The loop of `addToQueue`, and the index it returns. -/
def addLoop (entry : E) (index : Int) : Code ι n E Int := do
  let index ← checkResizable entry index
  if ← checkFull index then
    let index ← ask (.add entry)
    if ← checkFullForResize index then
      pauseThreadsForResize
      let _ ← ask .resize
      resumeThreadsForResize
      let index ← ask (.add entry)
      call (.addLoop entry index)
    else
      return index
  else
    return index

def addToQueue (entry : E) : Code ι n E Int := do
  if ← QueueProcessor.get .isTerminatedFlag then
    return IS_TERMINATED
  else
    waitForResize
    let index ← ask (.add entry)
    call (.addLoop entry index)

def add (entry : E) : Code ι n E Unit := do
  let index ← addToQueue entry
  if 0 ≤ index then
    QueueProcessor.broadcast

end QueueProducerInterface

/-- The loops of the source. -/
def procedure : Proc n E → Code ι n E Int
  | .whileResizing => ResizeControls.whileResizing
  | .whileAdding => ResizeControls.whileAdding
  | .whileFull entry => QueueProducerInterface.whileFull entry
  | .addLoop entry index => QueueProducerInterface.addLoop entry index
  | .runLoop w => Worker.runLoop w
  | .whileAlive w => Worker.whileAlive w

/-- The methods clients call. -/
def method : ClientCall E → Code ι n E Unit
  | .add entry => QueueProducerInterface.add entry
  | .start => QueueProcessor.start
  | .stop => QueueProcessor.stop
  | .pause block => QueueProcessor.pause block
  | .resume => QueueProcessor.resume
  | .terminate => QueueProcessor.terminate

/-- What a thread does once it is created. -/
def threadMain : Thread ι n → Code ι n E Unit
  | .client _ => done ()
  | .worker w => Worker.run w

/-- The calls a thread may be given: clients may be given any. -/
def threadCall : Thread ι n → ClientCall E → Option (Code ι n E Unit)
  | .client _, c => some (method c)
  | .worker _, _ => none

variable [DecidableEq ι]

/-- The processor, with nothing known of its queue and its consumers. -/
def processor (ι : Type) [DecidableEq ι] (n : Nat) (E : Type) :
    Machine (names ι n E) (Control ι n) where
  body := procedure
  main := threadMain
  entry t c m := (threadCall t c).map fun p => (m, p)
  load x m := m.load x
  store t x m := m.store t x
  reply _ _ _ m := some m

/-- A processor that was just constructed, and nobody in it. -/
def newProcessor (ι : Type) [DecidableEq ι] (n : Nat) (E : Type) :
    State (names ι n E) (Control ι n) where
  prog _ := done ()
  shared :=
    { held := fun _ => none
      asleep := fun _ => ∅
      memory := .new ι n }

end HPQueue
