import HPQueue.Queue.SyncReaderList

/-!
# The multiple reader queue

`SyncQueue` is the ring with a `SyncReaderList` over it.  Writers use the base
class; each reader works from the slot its own `ReaderIndex` names.
-/

namespace HPQueue

variable {ρ E : Type} [DecidableEq ρ]

namespace SyncQueue

/-- The constructor; no reader has been added yet. -/
def new (ρ : Type) (queueSize : Nat) (dataEntries : ProcessingQueueDataArray E) :
    SyncQueue ρ E where
  toReaderWriterQueue := .new queueSize dataEntries
  front := none
  back := none
  readers := fun _ => .new ρ

/-- `SyncQueue::add`, atomic under `addMutex`. -/
def add (s : SyncQueue ρ E) (entry : E) : SyncQueue ρ E × Int :=
  let (q, index) := s.toReaderWriterQueue.add entry
  ({ s with toReaderWriterQueue := q }, index)

/-- `removeSlot`: the entry of the assigned slot, or `nullEntry` (`none`). -/
def removeSlot (s : SyncQueue ρ E) (r : ρ) : Except Fault (SyncQueue ρ E × Option E) :=
  let (s, empty) := s.isEmpty r
  let s := s.setIsDone r (!empty)
  if empty then .ok (s, none)
  else
    match s.queueData (s.readers r).index with
    | .unset => .error .unsetSlot
    | .nullEntry => .ok (s, none)
    | .entry e => .ok (s, some e)

/-- `remove`: the next entry for `r`, or `nullEntry` (`none`). -/
def remove (s : SyncQueue ρ E) (r : ρ) : Except Fault (SyncQueue ρ E × Option E) := do
  if !(s.readers r).isDone then s.removeSlot r
  else
    let (s, moved) ← SyncReaderList.moveToFront s r
    if moved then s.removeSlot r else return (s, none)

def startAccess (s : SyncQueue ρ E) (r : ρ) : Except Fault (SyncQueue ρ E) :=
  SyncReaderList.add s r

def endAccess (s : SyncQueue ρ E) (r : ρ) : Except Fault (SyncQueue ρ E) :=
  SyncReaderList.remove s r

/-- The loop of `resize`, which computes the new index of each written slot and
leaves the list to `adjust`. -/
def indexLoop (currentSize oldSize : Nat) (oldReadIndex writeIndex : Int) :
    Nat → Int → Except Fault Unit
  | 0, _ => .error .endlessLoop
  | fuel + 1, i =>
      if HPQueue.adjustIndexForComparison currentSize i oldReadIndex <
          HPQueue.adjustIndexForComparison currentSize writeIndex oldReadIndex then
        indexLoop currentSize oldSize oldReadIndex writeIndex fuel
          (HPQueue.nextIndex i oldSize)
      else .ok ()

def resize (fuel : Nat) (s : SyncQueue ρ E) (size : Nat) : Except Fault (SyncQueue ρ E) := do
  let oldSize := s.currentSize
  let oldReadIndex := s.readIndex
  let q ← s.toReaderWriterQueue.resize fuel size
  let s := { s with toReaderWriterQueue := q }
  let adjustment : Int := size - oldSize
  indexLoop s.currentSize oldSize oldReadIndex s.writeIndex fuel oldReadIndex
  SyncReaderList.adjust fuel s adjustment oldReadIndex

end SyncQueue

end HPQueue
