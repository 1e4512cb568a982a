import Mathlib.Logic.Function.Basic

/-!
# The data a queue is made of

The base of the queue hierarchy: the constants an `add` may return, the data
array a queue copies its entries into, the statistics it keeps, and the index
arithmetic every queue shares (`nextIndex`, `adjustIndexForComparison`).

Indices are `int` in the source and sizes are `unsigned int`; here they are
`Int` and `Nat`.  The only negative index is the `-1` of a `ReaderIndex` that
was never added to a queue.
-/

namespace HPQueue

/-- What ends a call instead of a return: an exception the source throws, or an
access the language leaves undefined. -/
inductive Fault
  | logicError (what : String)
  | nullDereference
  | unregisteredReader
  | unsetSlot
  | endlessLoop
  deriving DecidableEq, Repr

namespace QueueConstants

def IS_FULL : Int := -1
def CANNOT_ADD : Int := -2
def IS_TERMINATED : Int := -3
def DEQUEUED : Int := -4

end QueueConstants

/-- The user's storage: which entries it accepts, and whether a cell of the
array has room for an entry's type (`QueueData::getQueueEntry` not `NULL`). -/
structure ProcessingQueueDataArray (E : Type) where
  isCompatibleEntry : E → Bool
  cellHolds : E → Bool
  getEntrySize : Nat

/-- `ProcessingQueueDataArray::getQueueEntry` returns a cell rather than `NULL`. -/
def ProcessingQueueDataArray.getQueueEntry {E : Type} (d : ProcessingQueueDataArray E)
    (currentSize : Nat) (index : Int) (entry : E) : Bool :=
  decide (0 ≤ index) && decide (index < currentSize) && d.cellHolds entry

/-- `insert` finds a place for the entry whatever the index. -/
def ProcessingQueueDataArray.CanStore {E : Type} (d : ProcessingQueueDataArray E)
    (entry : E) : Prop :=
  d.isCompatibleEntry entry = true ∧ d.cellHolds entry = true

instance {E : Type} (d : ProcessingQueueDataArray E) (entry : E) :
    Decidable (d.CanStore entry) :=
  inferInstanceAs (Decidable (_ ∧ _))

/-- The array of a queue with a single type of entry. -/
def ProcessingQueueDataArray.uniform (E : Type) (entrySize : Nat) :
    ProcessingQueueDataArray E where
  isCompatibleEntry := fun _ => true
  cellHolds := fun _ => true
  getEntrySize := entrySize

/-- What a slot of `queueData` points to. -/
inductive Cell (E : Type)
  | unset
  | nullEntry
  | entry (e : E)
  deriving DecidableEq, Repr

structure QueueStats where
  size : Nat
  addedCount : UInt32
  removedCount : UInt32
  deriving DecidableEq, Repr

def QueueStats.incrementAddedCount (s : QueueStats) : QueueStats :=
  { s with addedCount := s.addedCount + 1 }

def QueueStats.setSize (s : QueueStats) (newSize : Nat) : QueueStats :=
  { s with size := newSize }

/-- `ProcessingQueue::nextIndex`. -/
def nextIndex (index : Int) (currentSize : Nat) : Int := (index + 1) % currentSize

/-- `ReaderWriterQueue::adjustIndexForComparison`: `readIndex` is the base of the
queue when doing comparisons of emptiness or fullness. -/
def adjustIndexForComparison (currentSize : Nat) (index readIndex : Int) : Int :=
  if index < readIndex then index + currentSize else index

def UINT_MAX : Nat := 4294967295

/-- `MAX_QUEUE_SIZE`: at most 500 MiB of entries. -/
def MAX_QUEUE_SIZE (entrySize : Nat) : Nat := 500 * 1024 * 1024 / entrySize

end HPQueue
