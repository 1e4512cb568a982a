import HPQueue.Library.Threads
import Mathlib.Data.Fintype.Sum

/-!
# What the threads of a queue processor share

The mutexes, condition variables, flags and counters of `QueueProcessor`, of its
`ResizeControls` and of its workers, and the calls that leave them: into the
queue, and into the user's consumer.  The methods that use them are written out,
line by line, in the modules that follow.

A worker is named by its place in the vector `workers`.  The mutexes of the source
are recursive; no method acquires a mutex that its caller holds.

Not here: what only the debug output uses, the statistics, and `timeoutSeconds`,
which no `QueueConsumerWorker` sets, so that every wait is without a limit.
-/

namespace HPQueue

open Library.Threads

/-- A thread of a client, or of a worker. -/
inductive Thread (ι : Type) (n : Nat)
  | client (i : ι)
  | worker (w : Fin n)
  deriving DecidableEq

instance {ι : Type} {n : Nat} [Fintype ι] : Fintype (Thread ι n) :=
  Fintype.ofEquiv (ι ⊕ Fin n)
    { toFun := fun x => x.elim .client .worker
      invFun := fun t =>
        match t with
        | .client i => .inl i
        | .worker w => .inr w
      left_inv := by rintro (i | w) <;> rfl
      right_inv := by rintro (i | w) <;> rfl }

inductive Lock (n : Nat)
  | startLock
  | workerLock
  | resizeQueuesLock
  | workerStartLock (w : Fin n)
  | isWorkLock (w : Fin n)
  | hasDiedLock (w : Fin n)
  | hasPausedLock (w : Fin n)
  deriving DecidableEq

inductive Cond (n : Nat)
  | isResizingCond
  | isWorkWaiting (w : Fin n)
  | hasDied (w : Fin n)
  | hasPaused (w : Fin n)
  | isIdle (w : Fin n)
  deriving DecidableEq

/-- The flags of a `Worker`. -/
inductive WorkerFlag
  | isStartedFlag
  | isPausedFlag
  | isIdleFlag
  | isTerminatedFlag
  | isDeadFlag
  | isWaitingFlag
  | haveWorkJoiners
  deriving DecidableEq

inductive Flag (n : Nat)
  | isRunningFlag
  | isPausedFlag
  | isTerminatedFlag
  | resizing
  /-- `workers` was cleared. -/
  | cleared
  /-- The pointer is not null. -/
  | processingWorker (w : Fin n)
  | worker (w : Fin n) (f : WorkerFlag)
  deriving DecidableEq

/-- What a program tests: a flag, or whether a counter is not zero. -/
inductive Load (n : Nat)
  | flag (f : Flag n)
  | addingCount
  | nestedPauseCounter
  deriving DecidableEq

inductive Store (n : Nat)
  | flag (f : Flag n) (b : Bool)
  | addingCount (d : Int)
  | nestedPauseCounter (d : UInt32)
  /-- The constructor of `Worker`. -/
  | newWorker (w : Fin n)
  deriving DecidableEq

/-- The calls of the queue and of the user's consumer. -/
inductive Query (n : Nat) (E : Type)
  /-- `ProcessorQueueAdder::add`. -/
  | add (entry : E)
  /-- `ProcessorQueueAdder::isMaxSize`. -/
  | isMaxSize
  /-- `ProcessorQueueAdder::resize`. -/
  | resize
  /-- The line a worker prints when it is started. -/
  | started (w : Fin n)
  | init (w : Fin n)
  | finalize (w : Fin n)
  /-- The `remove` of `doWork`; 0 for the null entry. -/
  | remove (w : Fin n)
  /-- `Consumer::handle`; 0 unless it throws. -/
  | handle (w : Fin n)
  | isWork (w : Fin n)

/-- The loops of the source. -/
inductive Proc (n : Nat) (E : Type)
  | whileResizing
  | whileAdding
  | whileFull (entry : E)
  | addLoop (entry : E) (index : Int)
  | runLoop (w : Fin n)
  | whileAlive (w : Fin n)

/-- The calls of clients. -/
inductive ClientCall (E : Type)
  | add (entry : E)
  | start
  | stop
  | pause (block : Bool)
  | resume
  | terminate
  deriving DecidableEq

abbrev names (ι : Type) (n : Nat) (E : Type) : Signature where
  Thread := Thread ι n
  Lock := Lock n
  Cond := Cond n
  Load := Load n
  Store := Store n
  Query := Query n E
  Proc := Proc n E
  Call := ClientCall E

/-- The programs of a processor of `n` workers. -/
abbrev Code (ι : Type) (n : Nat) (E : Type) (α : Type) := Prog (names ι n E) α

/-- The memory of the processor, and its history: who has incremented
`addingCount` and not decremented it since, and who has set `resizing`. -/
structure Control (ι : Type) (n : Nat) where
  flag : Flag n → Bool
  addingCount : Int
  nestedPauseCounter : UInt32
  counted : Thread ι n → Bool
  resizes : Thread ι n → Bool

namespace Control

variable {ι : Type} {n : Nat}

/-- A processor that was just constructed. -/
def new (ι : Type) (n : Nat) : Control ι n where
  flag := fun _ => false
  addingCount := 0
  nestedPauseCounter := 0
  counted := fun _ => false
  resizes := fun _ => false

def load (m : Control ι n) : Load n → Bool
  | .flag f => m.flag f
  | .addingCount => m.addingCount ≠ 0
  | .nestedPauseCounter => m.nestedPauseCounter ≠ 0

variable [DecidableEq ι]

def store (t : Thread ι n) (m : Control ι n) : Store n → Control ι n
  | .flag .resizing b =>
      { m with
        flag := Function.update m.flag .resizing b
        resizes := Function.update m.resizes t b }
  | .flag f b => { m with flag := Function.update m.flag f b }
  | .addingCount d =>
      { m with
        addingCount := m.addingCount + d
        counted := Function.update m.counted t (0 < d) }
  | .nestedPauseCounter d => { m with nestedPauseCounter := m.nestedPauseCounter + d }
  | .newWorker w =>
      { m with
        flag := fun f =>
          match f with
          | .worker w' g => if w' = w then false else m.flag (.worker w' g)
          | f => m.flag f }

end Control

end HPQueue
