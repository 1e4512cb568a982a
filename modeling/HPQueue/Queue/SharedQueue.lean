import HPQueue.Queue.EmptinessTest

/-!
# Many writers and many readers

A `SyncQueue` between any number of threads that add and any number that remove.
Writers take turns by `addMutex`, readers by `indexMutex`; between a writer and a
reader there is no lock.  `SharedQueue` takes `add` apart into the loads and stores
that readers may see, and `remove` into its locked move, the loads of `isEmpty` and
the load of the slot's pointer.  While an entry is copied its cell is `torn`.

Beside the queue it writes down which slot each reader was assigned, which entries
were accepted and what became of them.  The history never influences the queue.

## Main results

* `add_uninterrupted`, `removeSlot_uninterrupted` — undisturbed, the steps of a
  call are the call.
-/

namespace HPQueue

open Library.Ring Library.Transition QueueConstants

/-- Where a writer is in `add`. -/
inductive Adder (E : Type)
  | outside
  /-- `addMutex` is acquired. -/
  | entered (entry : E)
  /-- `isFull` returned this index. -/
  | room (entry : E) (nextIndex : Int)
  | copying (entry : E) (nextIndex : Int)
  | copied (entry : E) (nextIndex : Int)
  /-- This index is to be returned. -/
  | leaving (entry : E) (index : Int)
  deriving DecidableEq, Repr

/-- A queue between its writers and its readers. -/
structure SharedQueue (ω ρ E : Type) where
  probed : ProbedQueue ρ E
  /-- Whether `add` acquires `addMutex`. -/
  syncWriter : Bool
  addMutex : Option ω
  writer : ω → Adder E
  /-- The cell that an entry is being copied into. -/
  torn : Option Int
  /-- `removeSlot` found the slot populated, and has yet to load its pointer. -/
  taking : ρ → Bool
  /-- Entry number `k` and the slot it was put into. -/
  accepted : List (E × Int)
  /-- The number of the entry that was last put into the slot. -/
  occupant : Int → Nat
  /-- The slots given out by `startAccess` and `moveToFront`, in order. -/
  assigned : List (ρ × Int)
  /-- The number of the entry the reader works on, until it calls `remove` again. -/
  borrowed : ρ → Option Nat
  /-- Who was handed which number, and what the slot held; `none` if that was no
  whole entry. -/
  handed : List (ρ × Nat × Option E)

/-- The steps of writers and readers. -/
inductive SharedStep (ω ρ E : Type)
  /-- The call of `add`, and `addMutex.acquire`. -/
  | add (w : ω) (entry : E)
  /-- `isFull` loads `readIndex`. -/
  | isFull (w : ω)
  | beginCopy (w : ω)
  | endCopy (w : ω)
  /-- `writeIndex` is stored. -/
  | publish (w : ω)
  /-- `addMutex.release`, and the return. -/
  | leave (w : ω)
  /-- A step of a reader but the last of `removeSlot`. -/
  | read (a : ProbeStep ρ E)
  /-- `removeSlot` loads the slot's pointer, and the reader what it points to. -/
  | take (r : ρ)

namespace SharedQueue

variable {ω ρ E : Type}

def new (ω ρ : Type) (queueSize : Nat) (dataEntries : ProcessingQueueDataArray E)
    (syncWriter : Bool) : SharedQueue ω ρ E where
  probed := .new ρ queueSize dataEntries
  syncWriter := syncWriter
  addMutex := none
  writer := fun _ => .outside
  torn := none
  taking := fun _ => false
  accepted := []
  occupant := fun _ => 0
  assigned := []
  borrowed := fun _ => none
  handed := []

/-- The ring of the queue. -/
def ring (σ : SharedQueue ω ρ E) : ReaderWriterQueue E := σ.probed.queue.toReaderWriterQueue

def setRing (σ : SharedQueue ω ρ E) (q : ReaderWriterQueue E) : SharedQueue ω ρ E :=
  { σ with
    probed := { σ.probed with queue := { σ.probed.queue with toReaderWriterQueue := q } } }

/-- The entry in the cell at `index`, if there is a whole one. -/
def cell (σ : SharedQueue ω ρ E) (index : Int) : Option E :=
  if σ.torn = some index then none
  else
    match σ.ring.queueData index with
    | .entry e => some e
    | _ => none

/-- Writes down that `r` was assigned the slot its index names. -/
def assign (σ : SharedQueue ω ρ E) (r : ρ) : SharedQueue ω ρ E :=
  { σ with assigned := σ.assigned ++ [(r, (σ.probed.queue.readers r).index)] }

/-- The numbers handed out, in order. -/
def numbers (σ : SharedQueue ω ρ E) : List Nat := σ.handed.map fun p => p.2.1

variable [DecidableEq ω] [DecidableEq ρ]

/-- The numbers handed to `r`, in order. -/
def numbersOf (σ : SharedQueue ω ρ E) (r : ρ) : List Nat :=
  (σ.handed.filter fun p => p.1 = r).map fun p => p.2.1

def setWriter (σ : SharedQueue ω ρ E) (w : ω) (p : Adder E) : SharedQueue ω ρ E :=
  { σ with writer := Function.update σ.writer w p }

/-- One step of the writer `w`. -/
def write (σ : SharedQueue ω ρ E) (w : ω) : SharedStep ω ρ E → Option (SharedQueue ω ρ E)
  | .add _ entry =>
      match σ.writer w with
      | .outside =>
          if σ.syncWriter && σ.addMutex.isSome then none
          else
            let σ := { σ with addMutex := if σ.syncWriter then some w else none }
            some (σ.setWriter w (.entered entry))
      | _ => none
  | .isFull _ =>
      match σ.writer w with
      | .entered entry =>
          let nextIndex := σ.ring.isFull
          some (σ.setWriter w
            (if nextIndex = IS_FULL then .leaving entry IS_FULL else .room entry nextIndex))
      | _ => none
  | .beginCopy _ =>
      match σ.writer w with
      | .room entry nextIndex =>
          if σ.ring.dataEntries.isCompatibleEntry entry &&
              σ.ring.dataEntries.getQueueEntry σ.ring.currentSize σ.ring.writeIndex entry then
            let σ := { σ with torn := some σ.ring.writeIndex }
            some (σ.setWriter w (.copying entry nextIndex))
          else some (σ.setWriter w (.leaving entry CANNOT_ADD))
      | _ => none
  | .endCopy _ =>
      match σ.writer w with
      | .copying entry nextIndex =>
          let σ := { σ.setRing (σ.ring.copyTo entry σ.ring.writeIndex) with torn := none }
          some (σ.setWriter w (.copied entry nextIndex))
      | _ => none
  | .publish _ =>
      match σ.writer w with
      | .copied entry nextIndex =>
          let currentWriteIndex := σ.ring.writeIndex
          let ring := { σ.ring with
            writeIndex := nextIndex
            stats := σ.ring.stats.incrementAddedCount }
          let σ := { σ.setRing ring with
            accepted := σ.accepted ++ [(entry, currentWriteIndex)]
            occupant := Function.update σ.occupant currentWriteIndex σ.accepted.length }
          some (σ.setWriter w (.leaving entry currentWriteIndex))
      | _ => none
  | .leave _ =>
      match σ.writer w with
      | .leaving _ _ => some (({ σ with addMutex := none }).setWriter w .outside)
      | _ => none
  | _ => none

/-- One step of a reader, with what it leads to outside the emptiness test. -/
def read (σ : SharedQueue ω ρ E) : ProbeStep ρ E → Option (SharedQueue ω ρ E)
  | .add _ => none
  | .startAccess r => do
      let probed ← σ.probed.act (.startAccess r)
      let joined := { σ with probed := probed }
      return if (probed.queue.readers r).isDone then joined else joined.assign r
  | .moveToFront r =>
      if σ.taking r then none
      else do
        let probed ← σ.probed.act (.moveToFront r)
        let moved := { σ with probed := probed, borrowed := Function.update σ.borrowed r none }
        return if (probed.probe r).isSome then moved.assign r else moved
  | .removeSlot r => do
      let probed ← σ.probed.act (.removeSlot r)
      return { σ with probed := probed, borrowed := Function.update σ.borrowed r none }
  | .isEmpty r =>
      if σ.taking r then none
      else do
        let probed ← σ.probed.act (.isEmpty r)
        return { σ with probed := probed }
  | .compare r => do
      let probed ← σ.probed.act (.compare r)
      let found := σ.probed.removing r && σ.probed.outcome r == some false
      return { σ with
        probed := probed
        taking := if found then Function.update σ.taking r true else σ.taking }
  | a => do
      let probed ← σ.probed.act a
      return { σ with probed := probed }

/-- One step, if it is enabled. -/
def act (σ : SharedQueue ω ρ E) : SharedStep ω ρ E → Option (SharedQueue ω ρ E)
  | .add w entry => σ.write w (.add w entry)
  | .isFull w => σ.write w (.isFull w)
  | .beginCopy w => σ.write w (.beginCopy w)
  | .endCopy w => σ.write w (.endCopy w)
  | .publish w => σ.write w (.publish w)
  | .leave w => σ.write w (.leave w)
  | .read a => σ.read a
  | .take r =>
      if σ.taking r then
        let index := (σ.probed.queue.readers r).index
        some { σ with
          taking := Function.update σ.taking r false
          borrowed := Function.update σ.borrowed r (some (σ.occupant index))
          handed := σ.handed ++ [(r, σ.occupant index, σ.cell index)] }
      else none

/-- The true answer of every probe at this moment is written down. -/
def observe (σ : SharedQueue ω ρ E) : SharedQueue ω ρ E :=
  { σ with probed := σ.probed.observe }

/-- A step, and the true answers after it. -/
def next (σ : SharedQueue ω ρ E) (a : SharedStep ω ρ E) : Option (SharedQueue ω ρ E) :=
  (σ.act a).map observe

/-- The schedules of a queue of the given size. -/
def system (ω ρ : Type) [DecidableEq ω] [DecidableEq ρ] (queueSize : Nat)
    (dataEntries : ProcessingQueueDataArray E) (syncWriter : Bool) :
    System (SharedQueue ω ρ E) (SharedStep ω ρ E) :=
  .ofFunction (· = .new ω ρ queueSize dataEntries syncWriter) next

/-- An emptiness test ends with consistent loads. -/
def EndsConsistent (σ : SharedQueue ω ρ E) : SharedStep ω ρ E → Prop
  | .read a => σ.probed.EndsConsistent a
  | _ => True

instance (σ : SharedQueue ω ρ E) : (a : SharedStep ω ρ E) → Decidable (σ.EndsConsistent a)
  | .add _ _ => .isTrue trivial
  | .isFull _ => .isTrue trivial
  | .beginCopy _ => .isTrue trivial
  | .endCopy _ => .isTrue trivial
  | .publish _ => .isTrue trivial
  | .leave _ => .isTrue trivial
  | .read a => inferInstanceAs (Decidable (σ.probed.EndsConsistent a))
  | .take _ => .isTrue trivial

/-! ## Calls that are not disturbed -/

section Calls

variable {σ : SharedQueue ω ρ E}

/-- Undisturbed, the steps of an `add` that finds room are the call. -/
theorem add_uninterrupted {w : ω} {entry : E} (hsize : 0 < σ.probed.queue.currentSize)
    (hout : σ.writer w = .outside) (hfree : σ.addMutex = none) (hwhole : σ.torn = none)
    (hroom : σ.probed.queue.isFull ≠ IS_FULL)
    (hfits : (σ.probed.queue.insert entry).2 = true) :
    System.follow act (fun _ _ => True) σ
        [.add w entry, .isFull w, .beginCopy w, .endCopy w, .publish w, .leave w] =
      some { σ with
        probed := { σ.probed with queue := (σ.probed.queue.add entry).1 }
        accepted := σ.accepted ++ [(entry, (σ.probed.queue.add entry).2)]
        occupant := Function.update σ.occupant σ.probed.queue.writeIndex σ.accepted.length } := by
  obtain ⟨⟨queue, probe⟩, syncWriter, addMutex, writer, torn, taking, accepted, occupant,
    assigned, borrowed, handed⟩ := σ
  obtain rfl : addMutex = none := hfree
  obtain rfl : torn = none := hwhole
  dsimp only at hsize hout hroom hfits
  have hindex : ¬ queue.isFull < 0 := by
    have hne : (queue.currentSize : Int) ≠ 0 := Int.natCast_ne_zero.mpr (Nat.ne_of_gt hsize)
    have hmod : 0 ≤ queue.nextIndex queue.writeIndex := Int.emod_nonneg _ hne
    by_cases hfull : queue.nextIndex queue.writeIndex = queue.readIndex
    · exact absurd (if_pos hfull) hroom
    · rw [ReaderWriterQueue.isFull, if_neg hfull]
      exact Int.not_lt.mpr hmod
  have hplace : queue.dataEntries.isCompatibleEntry entry = true ∧
      queue.dataEntries.getQueueEntry queue.currentSize queue.writeIndex entry = true := by
    unfold ReaderWriterQueue.insert at hfits
    split at hfits
    · rename_i hcompatible
      split at hfits
      · rename_i hcell
        exact ⟨hcompatible, hcell⟩
      · cases hfits
    · cases hfits
  have hadd : queue.toReaderWriterQueue.add entry =
      ({ queue.toReaderWriterQueue.copyTo entry queue.writeIndex with
        writeIndex := queue.isFull
        stats := queue.stats.incrementAddedCount }, queue.writeIndex) := by
    simp [ReaderWriterQueue.add, ReaderWriterQueue.tryInsert, ReaderWriterQueue.insert, hroom,
      hplace, hindex, ReaderWriterQueue.copyTo]
  have hrestored : Function.update writer w .outside = writer := by
    rw [← hout, Function.update_eq_self]
  simp [System.follow, act, write, setWriter, setRing, ring, SyncQueue.add, hadd, hout, hroom,
    hplace, hrestored, ReaderWriterQueue.copyTo]

/-- The loads of an emptiness test and its comparison, with nothing in between. -/
def loads (r : ρ) : List (SharedStep ω ρ E) := (ProbedQueue.loads r).map .read

/-- Undisturbed, the steps of a `remove` that finds its slot populated are the call. -/
theorem removeSlot_uninterrupted {r : ρ} {s : SyncQueue ρ E} {entry : E}
    (hin : (σ.probed.queue.readers r).inQueue = true)
    (hdone : (σ.probed.queue.readers r).isDone = false) (hprobe : σ.probed.probe r = none)
    (hidle : σ.taking r = false) (hwhole : σ.torn = none)
    (hrun : σ.probed.queue.removeSlot r = .ok (s, some entry)) :
    let number := σ.occupant (σ.probed.queue.readers r).index
    System.follow act (fun _ _ => True) σ ([.read (.removeSlot r)] ++ loads r ++ [.take r]) =
      some { σ with
        probed := { σ.probed with queue := s }
        borrowed := Function.update σ.borrowed r (some number)
        handed := σ.handed ++ [(r, number, some entry)] } := by
  obtain ⟨⟨queue, probe⟩, syncWriter, addMutex, writer, torn, taking, accepted, occupant,
    assigned, borrowed, handed⟩ := σ
  obtain rfl : torn = none := hwhole
  dsimp only at hin hdone hprobe hidle hrun
  unfold SyncQueue.removeSlot SyncQueue.isEmpty at hrun
  dsimp only at hrun
  split at hrun
  · cases hrun
  · rename_i hempty
    split at hrun
    · cases hrun
    · cases hrun
    · rename_i e hcell
      obtain ⟨rfl, rfl⟩ : _ = s ∧ e = entry := by simpa using hrun
      have hfound : queue.slotIsEmpty r = false := by simpa using hempty
      have hcompare : ¬ adjustIndexForComparison queue.currentSize queue.writeIndex
            queue.readIndex ≤
          adjustIndexForComparison queue.currentSize (queue.readers r).index queue.readIndex :=
        of_decide_eq_false hfound
      have hentry : queue.queueData (queue.readers r).index = .entry e := by simpa using hcell
      have hprobes : Function.update probe r none = probe := by
        rw [← hprobe, Function.update_eq_self]
      have hidles : Function.update taking r false = taking := by
        rw [← hidle, Function.update_eq_self]
      simp [System.follow, loads, ProbedQueue.loads, act, read, ProbedQueue.act, hin, hdone,
        hprobe, ProbedQueue.begin, ProbedQueue.setProbe, Probe.new, ProbedQueue.outcome,
        ProbedQueue.removing, ProbedQueue.finish, hcompare, hprobes, hidles, hfound, cell, ring,
        hentry]

end Calls

end SharedQueue

end HPQueue
