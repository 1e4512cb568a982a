import HPQueue.Queue.ProcessingQueue

/-!
# The single reader, single writer queue

`ReaderWriterQueue` is the ring itself: an array of slots, the index of the next
slot to write and the index the reader works from.  One slot is always left
unused, so that a full ring (`writeIndex` one below `readIndex`) differs from an
empty one (`writeIndex = readIndex`).

The two loops of the source that walk the ring take fuel here; a run that has
enough of it returns, and a larger amount returns the same.
-/

namespace HPQueue

open QueueConstants

structure ReaderWriterQueue (E : Type) where
  currentSize : Nat
  dataEntries : ProcessingQueueDataArray E
  queueData : Int → Cell E
  readIndex : Int
  writeIndex : Int
  stats : QueueStats

namespace ReaderWriterQueue

variable {E : Type}

/-- The constructor. -/
def new (queueSize : Nat) (dataEntries : ProcessingQueueDataArray E) :
    ReaderWriterQueue E where
  currentSize := queueSize
  dataEntries := dataEntries
  queueData := fun _ => .unset
  readIndex := 0
  writeIndex := 0
  stats := { size := queueSize, addedCount := 0, removedCount := 0 }

def nextIndex (q : ReaderWriterQueue E) (index : Int) : Int :=
  HPQueue.nextIndex index q.currentSize

def adjustIndexForComparison (q : ReaderWriterQueue E) (index : Int) : Int :=
  HPQueue.adjustIndexForComparison q.currentSize index q.readIndex

/-- `IS_FULL`, or the write index after the next add. -/
def isFull (q : ReaderWriterQueue E) : Int :=
  let next := q.nextIndex q.writeIndex
  if next = q.readIndex then IS_FULL else next

/-- Copies the entry into the cell at `index` and points the slot at it. -/
def copyTo (q : ReaderWriterQueue E) (entry : E) (index : Int) : ReaderWriterQueue E :=
  { q with queueData := Function.update q.queueData index (.entry entry) }

/-- `bool insert(QueueEntryBase &)`. -/
def insert (q : ReaderWriterQueue E) (entry : E) : ReaderWriterQueue E × Bool :=
  if q.dataEntries.isCompatibleEntry entry then
    if q.dataEntries.getQueueEntry q.currentSize q.writeIndex entry then
      (q.copyTo entry q.writeIndex, true)
    else (q, false)
  else (q, false)

def tryInsert (q : ReaderWriterQueue E) (entry : E) : ReaderWriterQueue E × Int :=
  let nextIndex := q.isFull
  if nextIndex = IS_FULL then (q, IS_FULL)
  else
    let (q, inserted) := q.insert entry
    if inserted then (q, nextIndex) else (q, CANNOT_ADD)

/-- `add`: the slot of the entry, or a negative constant. -/
def add (q : ReaderWriterQueue E) (entry : E) : ReaderWriterQueue E × Int :=
  let (q, nextIndex) := q.tryInsert entry
  if nextIndex < 0 then (q, nextIndex)
  else
    let currentWriteIndex := q.writeIndex
    ({ q with writeIndex := nextIndex, stats := q.stats.incrementAddedCount },
      currentWriteIndex)

/-- `isEmpty` of the single reader queue. -/
def isEmpty (q : ReaderWriterQueue E) : Bool := q.readIndex = q.writeIndex

def getNumElements (q : ReaderWriterQueue E) : Int := q.writeIndex - q.readIndex

/-- `remove` of the single reader queue; `none` is `nullEntry`. -/
def remove (q : ReaderWriterQueue E) : Except Fault (ReaderWriterQueue E × Option E) :=
  if q.isEmpty then .ok (q, none)
  else
    match q.queueData q.readIndex with
    | .unset => .error .unsetSlot
    | .nullEntry => .ok ({ q with readIndex := q.nextIndex q.readIndex }, none)
    | .entry e => .ok ({ q with readIndex := q.nextIndex q.readIndex }, some e)

/-- The copy loop of `resize`, from index `i` on: `q` is the queue with its new
size and its new, still unset slots; `oldQueueData` and `oldSize` are those before. -/
def copyLoop (oldQueueData : Int → Cell E) (oldSize : Nat) (adjustment : Int) :
    Nat → Int → ReaderWriterQueue E → Except Fault (ReaderWriterQueue E)
  | 0, _, _ => .error .endlessLoop
  | fuel + 1, i, q =>
      if q.adjustIndexForComparison i < q.adjustIndexForComparison q.writeIndex then
        let newIndex := if i > q.writeIndex then i + adjustment else i
        match oldQueueData i with
        | .unset => .error .unsetSlot
        | .nullEntry =>
            copyLoop oldQueueData oldSize adjustment fuel (HPQueue.nextIndex i oldSize)
              { q with queueData := Function.update q.queueData newIndex .nullEntry }
        | .entry e =>
            copyLoop oldQueueData oldSize adjustment fuel (HPQueue.nextIndex i oldSize)
              (if q.dataEntries.getQueueEntry q.currentSize newIndex e then
                q.copyTo e newIndex
              else { q with queueData := Function.update q.queueData newIndex .nullEntry })
      else .ok q

/-- `resize`: the part of the ring after `writeIndex` moves to the end of the
larger ring; a size that does not grow is refused. -/
def resize (fuel : Nat) (q : ReaderWriterQueue E) (size : Nat) :
    Except Fault (ReaderWriterQueue E) :=
  if q.currentSize ≥ size then .ok q
  else do
    let oldSize := q.currentSize
    let oldQueueData := q.queueData
    let adjustment : Int := size - oldSize
    let q ← copyLoop oldQueueData oldSize adjustment fuel q.readIndex
      { q with queueData := fun _ => .unset, currentSize := size }
    let q :=
      if q.readIndex ≥ q.writeIndex + 1 then
        { q with readIndex := q.readIndex + adjustment }
      else q
    return { q with stats := q.stats.setSize size }

/-- `ProcessingQueue::getEntrySize`: the cell and the slot that points to it. -/
def getEntrySize (q : ReaderWriterQueue E) : Nat := q.dataEntries.getEntrySize + 8

/-- `ProcessingQueue::getNewQueueSize`: double, up to the most that fits. -/
def getNewQueueSize (q : ReaderWriterQueue E) : Nat :=
  let newSize := if q.currentSize ≥ UINT_MAX / 2 then UINT_MAX else q.currentSize * 2
  let maxSize := MAX_QUEUE_SIZE q.getEntrySize
  if newSize > maxSize then maxSize else newSize

end ReaderWriterQueue

end HPQueue
