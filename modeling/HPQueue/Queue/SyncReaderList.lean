import HPQueue.Queue.ReaderWriterQueue

/-!
# The linked list of reader indices

Each reader of a `SyncQueue` owns a `ReaderIndex`; those of the registered
readers form a doubly linked list from `back`, the reader furthest behind, to
`front`, the reader that took the newest slot.  The operations below are the
locked sections of `SyncReaderList`, each one atomic under `indexMutex`.

Pointers are `Option ρ` for a type `ρ` of addresses, and the objects they point
to are the map `readers`.  A pointer the source follows without a test is
followed with `deref` here, so that a null pointer, or a pointer to a reader that is
not registered, is a fault and not a value.
-/

namespace HPQueue

structure ReaderIndex (ρ : Type) where
  index : Int
  isEmpty : Bool
  isDone : Bool
  inQueue : Bool
  previous : Option ρ
  next : Option ρ
  deriving DecidableEq, Repr

/-- The constructor of `ReaderIndex`. -/
def ReaderIndex.new (ρ : Type) : ReaderIndex ρ where
  index := -1
  isEmpty := true
  isDone := false
  inQueue := false
  previous := none
  next := none

/-- The state of a `SyncQueue`: its ring, and the `SyncReaderList` of its readers. -/
structure SyncQueue (ρ E : Type) extends ReaderWriterQueue E where
  front : Option ρ
  back : Option ρ
  readers : ρ → ReaderIndex ρ

variable {ρ E : Type}

/-- Follows a pointer the source does not test: neither a null pointer nor one to a
reader that is not in the list may be followed. -/
def deref (s : SyncQueue ρ E) (p : Option ρ) : Except Fault ρ :=
  match p with
  | none => .error .nullDereference
  | some r => if (s.readers r).inQueue then .ok r else .error .unregisteredReader

@[simp] theorem deref_some {s : SyncQueue ρ E} {r : ρ} (h : (s.readers r).inQueue = true) :
    deref s (some r) = .ok r := by
  simp [deref, h]

@[simp] theorem pure_eq_ok {α : Type} (a : α) : (pure a : Except Fault α) = .ok a := rfl

@[simp] theorem ok_bind {α β : Type} (a : α) (f : α → Except Fault β) :
    (Except.ok a >>= f) = f a := rfl

variable [DecidableEq ρ]

namespace SyncQueue

/-! ## Writing one field of one reader index -/

def setNext (s : SyncQueue ρ E) (r : ρ) (p : Option ρ) : SyncQueue ρ E :=
  { s with readers := Function.update s.readers r { s.readers r with next := p } }

def setPrevious (s : SyncQueue ρ E) (r : ρ) (p : Option ρ) : SyncQueue ρ E :=
  { s with readers := Function.update s.readers r { s.readers r with previous := p } }

def setIndex (s : SyncQueue ρ E) (r : ρ) (i : Int) : SyncQueue ρ E :=
  { s with readers := Function.update s.readers r { s.readers r with index := i } }

def setIsEmpty (s : SyncQueue ρ E) (r : ρ) (b : Bool) : SyncQueue ρ E :=
  { s with readers := Function.update s.readers r { s.readers r with isEmpty := b } }

def setIsDone (s : SyncQueue ρ E) (r : ρ) (b : Bool) : SyncQueue ρ E :=
  { s with readers := Function.update s.readers r { s.readers r with isDone := b } }

def setInQueue (s : SyncQueue ρ E) (r : ρ) (b : Bool) : SyncQueue ρ E :=
  { s with readers := Function.update s.readers r { s.readers r with inQueue := b } }

section Reads

variable (s : SyncQueue ρ E) (r x : ρ)

@[simp] theorem setNext_readers (p : Option ρ) : (s.setNext r p).readers x =
    { s.readers x with next := if x = r then p else (s.readers x).next } := by
  by_cases h : x = r <;> simp [setNext, h]

@[simp] theorem setPrevious_readers (p : Option ρ) : (s.setPrevious r p).readers x =
    { s.readers x with previous := if x = r then p else (s.readers x).previous } := by
  by_cases h : x = r <;> simp [setPrevious, h]

@[simp] theorem setIndex_readers (i : Int) : (s.setIndex r i).readers x =
    { s.readers x with index := if x = r then i else (s.readers x).index } := by
  by_cases h : x = r <;> simp [setIndex, h]

@[simp] theorem setIsEmpty_readers (b : Bool) : (s.setIsEmpty r b).readers x =
    { s.readers x with isEmpty := if x = r then b else (s.readers x).isEmpty } := by
  by_cases h : x = r <;> simp [setIsEmpty, h]

@[simp] theorem setIsDone_readers (b : Bool) : (s.setIsDone r b).readers x =
    { s.readers x with isDone := if x = r then b else (s.readers x).isDone } := by
  by_cases h : x = r <;> simp [setIsDone, h]

@[simp] theorem setInQueue_readers (b : Bool) : (s.setInQueue r b).readers x =
    { s.readers x with inQueue := if x = r then b else (s.readers x).inQueue } := by
  by_cases h : x = r <;> simp [setInQueue, h]

@[simp] theorem setNext_front (p : Option ρ) : (s.setNext r p).front = s.front := rfl
@[simp] theorem setPrevious_front (p : Option ρ) : (s.setPrevious r p).front = s.front := rfl
@[simp] theorem setIndex_front (i : Int) : (s.setIndex r i).front = s.front := rfl
@[simp] theorem setIsEmpty_front (b : Bool) : (s.setIsEmpty r b).front = s.front := rfl
@[simp] theorem setIsDone_front (b : Bool) : (s.setIsDone r b).front = s.front := rfl
@[simp] theorem setInQueue_front (b : Bool) : (s.setInQueue r b).front = s.front := rfl

@[simp] theorem setNext_back (p : Option ρ) : (s.setNext r p).back = s.back := rfl
@[simp] theorem setPrevious_back (p : Option ρ) : (s.setPrevious r p).back = s.back := rfl
@[simp] theorem setIndex_back (i : Int) : (s.setIndex r i).back = s.back := rfl
@[simp] theorem setIsEmpty_back (b : Bool) : (s.setIsEmpty r b).back = s.back := rfl
@[simp] theorem setIsDone_back (b : Bool) : (s.setIsDone r b).back = s.back := rfl
@[simp] theorem setInQueue_back (b : Bool) : (s.setInQueue r b).back = s.back := rfl

@[simp] theorem setNext_ring (p : Option ρ) :
    (s.setNext r p).toReaderWriterQueue = s.toReaderWriterQueue := rfl
@[simp] theorem setPrevious_ring (p : Option ρ) :
    (s.setPrevious r p).toReaderWriterQueue = s.toReaderWriterQueue := rfl
@[simp] theorem setIndex_ring (i : Int) :
    (s.setIndex r i).toReaderWriterQueue = s.toReaderWriterQueue := rfl
@[simp] theorem setIsEmpty_ring (b : Bool) :
    (s.setIsEmpty r b).toReaderWriterQueue = s.toReaderWriterQueue := rfl
@[simp] theorem setIsDone_ring (b : Bool) :
    (s.setIsDone r b).toReaderWriterQueue = s.toReaderWriterQueue := rfl
@[simp] theorem setInQueue_ring (b : Bool) :
    (s.setInQueue r b).toReaderWriterQueue = s.toReaderWriterQueue := rfl

end Reads

/-- The test of `SyncQueue::isEmpty`, without its store: the slot assigned to `r`
is unwritten. -/
def slotIsEmpty (s : SyncQueue ρ E) (r : ρ) : Bool :=
  s.adjustIndexForComparison s.writeIndex ≤
    s.adjustIndexForComparison (s.readers r).index

/-- `SyncQueue::isEmpty`. -/
def isEmpty (s : SyncQueue ρ E) (r : ρ) : SyncQueue ρ E × Bool :=
  (s.setIsEmpty r (s.slotIsEmpty r), s.slotIsEmpty r)

end SyncQueue

namespace SyncReaderList

def moveOut (s : SyncQueue ρ E) (r : ρ) : Except Fault (SyncQueue ρ E) := do
  let s ←
    if s.back = some r then do
      let s := { s with back := (s.readers r).next }
      let back ← deref s s.back
      pure { s with readIndex := (s.readers back).index }
    else do
      let previous ← deref s (s.readers r).previous
      pure (s.setNext previous (s.readers r).next)
  let next ← deref s (s.readers r).next
  return s.setPrevious next (s.readers r).previous

/-- The back reader of a list that spans the ring: it moves to the place before
the front and shares the slot of the reader it finds there, and `readIndex`
follows the new back. -/
def squeeze (s : SyncQueue ρ E) (r : ρ) : Except Fault (SyncQueue ρ E) := do
  let s ←
    if (s.readers r).next ≠ s.front then do
      let s := { s with back := (s.readers r).next }
      let back ← deref s s.back
      let s := s.setPrevious back none
      let second ← deref s (s.readers back).next
      let s := s.setPrevious second s.back
      let s := s.setNext r s.front
      let front ← deref s s.front
      let s := s.setPrevious r (s.readers front).previous
      let previous ← deref s (s.readers front).previous
      let s := s.setNext previous (some r)
      let s := s.setPrevious front (some r)
      let previous ← deref s (s.readers r).previous
      pure (s.setIndex r (s.readers previous).index)
    else pure s
  let back ← deref s s.back
  return { s with readIndex := (s.readers back).index }

/-- `moveToFront`: assigns the next slot to `r` if the list does not span the
whole ring. -/
def moveToFront (s : SyncQueue ρ E) (r : ρ) : Except Fault (SyncQueue ρ E × Bool) := do
  if !(s.readers r).inQueue then
    throw (.logicError "must be added to queue ReadList to use SyncReaderQueue")
  let front ← deref s s.front
  let back ← deref s s.back
  let nextIndex := s.nextIndex (s.readers front).index
  if nextIndex ≠ (s.readers back).index then
    let s := s.setIndex r nextIndex
    if s.front ≠ some r then
      let s ← moveOut s r
      let s := s.setPrevious r s.front
      let s := s.setNext r none
      let front ← deref s s.front
      let s := s.setNext front (some r)
      return ({ s with front := some r }, true)
    else if s.back = some r then
      -- front and back at once
      return ({ s with readIndex := (s.readers r).index }, true)
    else return (s, true)
  else if s.back = some r then
    let s ← squeeze s r
    return (s, false)
  else return (s, false)

/-- A reader that has not read its slot leaves, and is not the front: the front
moves into the slot that is given up. -/
def replaceByFront (s : SyncQueue ρ E) (r : ρ) : Except Fault (SyncQueue ρ E) := do
  let front ← deref s s.front
  if (s.readers r).next = s.front then
    -- the front stays the front, one place further back
    let s := s.setPrevious front (s.readers r).previous
    let s ←
      if s.back ≠ some r then do
        let previous ← deref s (s.readers front).previous
        pure (s.setNext previous s.front)
      else pure { s with back := s.front }
    return s.setIndex front (s.readers r).index
  else
    -- the front takes the leaver's place, the second to front becomes the front
    let newFront ← deref s (s.readers front).previous
    let s := s.setNext newFront none
    let s := s.setPrevious front (s.readers r).previous
    let s ←
      if s.back ≠ some r then do
        let previous ← deref s (s.readers front).previous
        pure (s.setNext previous s.front)
      else pure { s with back := s.front }
    let s := s.setNext front (s.readers r).next
    let next ← deref s (s.readers front).next
    let s := s.setPrevious next s.front
    let s := s.setIndex front (s.readers r).index
    return { s with front := some newFront }

/-- A reader that is done with its slot leaves, and is not the front. -/
def unlinkDone (s : SyncQueue ρ E) (r : ρ) : Except Fault (SyncQueue ρ E) := do
  let s ←
    if s.back = some r then pure { s with back := (s.readers r).next }
    else do
      let previous ← deref s (s.readers r).previous
      pure (s.setNext previous (s.readers r).next)
  let next ← deref s (s.readers r).next
  return s.setPrevious next (s.readers r).previous

/-- `index.previous = index.next = NULL`. -/
def clearLinks (s : SyncQueue ρ E) (r : ρ) : SyncQueue ρ E :=
  (s.setNext r none).setPrevious r none

/-- The three stores after the lock is released. -/
def clearFlags (s : SyncQueue ρ E) (r : ρ) : SyncQueue ρ E :=
  ((s.setIsEmpty r false).setInQueue r false).setIsDone r false

/-- `remove`: the reader leaves the list. -/
def remove (s : SyncQueue ρ E) (r : ρ) : Except Fault (SyncQueue ρ E) := do
  if !(s.readers r).inQueue then return s
  if s.front ≠ some r then
    let s ← if !(s.readers r).isDone then replaceByFront s r else unlinkDone s r
    return clearFlags (clearLinks s r) r
  else if s.back = some r then
    -- the only entry of the list
    let s :=
      if (s.readers r).isDone then
        let (s, empty) := s.isEmpty r
        if !empty then { s with readIndex := s.nextIndex (s.readers r).index } else s
      else s
    return clearFlags { clearLinks s r with front := none, back := none } r
  else
    let front ← deref s (s.readers r).previous
    let s := { s with front := some front }
    let s := s.setNext front none
    return clearFlags (clearLinks s r) r

/-- `add`: the reader joins the list, with the next slot to be assigned or, if
the list spans the ring, sharing a slot it must not read. -/
def add (s : SyncQueue ρ E) (r : ρ) : Except Fault (SyncQueue ρ E) := do
  if (s.readers r).inQueue then throw (.logicError "already added")
  let s ←
    match s.front with
    | none => do
        let s := s.setIndex r s.readIndex
        let s := (s.setPrevious r (some r)).setNext r (some r)
        pure ({ s with front := some r, back := some r }.setIsDone r false)
    | some front => do
        let back ← deref s s.back
        let nextIndex := s.nextIndex (s.readers front).index
        if nextIndex ≠ (s.readers back).index then
          let s := (s.setNext r none).setPrevious r (some front)
          let s := s.setIndex r nextIndex
          let s := s.setNext front (some r)
          pure ({ s with front := some r }.setIsDone r false)
        else
          let s := s.setNext r (some front)
          let s := s.setPrevious r (s.readers front).previous
          let s := s.setPrevious front (some r)
          let previous ← deref s (s.readers r).previous
          let s := s.setNext previous (some r)
          let s := s.setIndex r (s.readers previous).index
          pure (s.setIsDone r true)
  return (s.setIsEmpty r true).setInQueue r true

/-- The loop of `adjust`, at the reader `p`. -/
def adjustLoop (adjustment queueReadIndex : Int) :
    Nat → Option ρ → SyncQueue ρ E → Except Fault (SyncQueue ρ E)
  | 0, _, _ => .error .endlessLoop
  | _ + 1, none, s => .ok s
  | fuel + 1, some r, s => do
      let r ← deref s (some r)
      let index := (s.readers r).index
      let slotIsPopulated : Bool :=
        adjustIndexForComparison s.currentSize index queueReadIndex <
          adjustIndexForComparison s.currentSize s.writeIndex queueReadIndex
      let s :=
        if (if slotIsPopulated then index > s.writeIndex else index < s.writeIndex) then
          s.setIndex r (index + adjustment)
        else s
      if (s.readers r).next = s.back then return s
      else adjustLoop adjustment queueReadIndex fuel (s.readers r).next s

/-- `adjust`: renumbers the slots of the readers after the ring has grown. -/
def adjust (fuel : Nat) (s : SyncQueue ρ E) (adjustment queueReadIndex : Int) :
    Except Fault (SyncQueue ρ E) :=
  adjustLoop adjustment queueReadIndex fuel s.back s

end SyncReaderList

end HPQueue
