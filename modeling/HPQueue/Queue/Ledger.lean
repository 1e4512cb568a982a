import HPQueue.Queue.SyncQueue
import HPQueue.Library.Transition

/-!
# A queue with the history of its calls

The claims about a `SyncQueue` speak of the entries `add` accepted, in the order
it accepted them, and of what became of each.  `Ledger` runs the queue beside
that history: every entry is numbered when it is accepted, every slot remembers
the number of the entry last copied into it, and every assignment of a slot and
every return of an entry is written down.  The history never influences the queue.
-/

namespace HPQueue

open Library.Transition

/-- A queue and its history. -/
structure Ledger (ρ E : Type) where
  queue : SyncQueue ρ E
  /-- Entry number `k` and the slot `add` reported for it. -/
  accepted : List (E × Int)
  /-- The number of the entry whose copy the slot holds. -/
  occupant : Int → Nat
  /-- The slots given out by `startAccess` and `moveToFront`, in order. -/
  assigned : List (ρ × Int)
  /-- The number of the assignment the reader received last. -/
  held : ρ → Option Nat
  /-- The reader and the number of each entry a `remove` returned, in order. -/
  returned : List (ρ × Nat)
  /-- The number of the entry the last `remove` of the reader returned. -/
  borrowed : ρ → Option Nat

namespace Ledger

variable {ρ E : Type} [DecidableEq ρ]

def new (ρ : Type) (queueSize : Nat) (dataEntries : ProcessingQueueDataArray E) :
    Ledger ρ E where
  queue := .new ρ queueSize dataEntries
  accepted := []
  occupant := fun _ => 0
  assigned := []
  held := fun _ => none
  returned := []
  borrowed := fun _ => none

/-- `add`, an accepted entry receiving the next number. -/
def add (t : Ledger ρ E) (entry : E) : Ledger ρ E :=
  let (queue, index) := t.queue.add entry
  if index < 0 then { t with queue := queue }
  else
    { t with
      queue := queue
      accepted := t.accepted ++ [(entry, index)]
      occupant := Function.update t.occupant index t.accepted.length }

/-- Writes down that `r` was assigned the slot its index names. -/
def assign (t : Ledger ρ E) (r : ρ) : Ledger ρ E :=
  { t with
    assigned := t.assigned ++ [(r, (t.queue.readers r).index)]
    held := Function.update t.held r (some t.assigned.length) }

/-- `startAccess`: a slot is assigned unless the reader is inserted as done. -/
def startAccess (t : Ledger ρ E) (r : ρ) : Except Fault (Ledger ρ E) := do
  let queue ← t.queue.startAccess r
  let t := { t with queue := queue }
  return if (queue.readers r).isDone then t else t.assign r

/-- Whether a `remove` of `r` would be assigned a slot by `moveToFront`. -/
def movesToFront (t : Ledger ρ E) (r : ρ) : Bool :=
  (t.queue.readers r).isDone &&
    match SyncReaderList.moveToFront t.queue r with
    | .ok (_, moved) => moved
    | .error _ => false

/-- Writes down what a `remove` of `r` returned. -/
def settle (t : Ledger ρ E) (r : ρ) (result : Option E) : Ledger ρ E :=
  match result with
  | none => { t with borrowed := Function.update t.borrowed r none }
  | some _ =>
      let number := t.occupant (t.queue.readers r).index
      { t with
        returned := t.returned ++ [(r, number)]
        borrowed := Function.update t.borrowed r (some number) }

/-- `remove`: the assignment, if any, and then the return of an entry, if any. -/
def remove (t : Ledger ρ E) (r : ρ) : Except Fault (Ledger ρ E) := do
  let (queue, result) ← t.queue.remove r
  let moved := t.movesToFront r
  let t := { t with queue := queue }
  let t := if moved then t.assign r else t
  return t.settle r result

def endAccess (t : Ledger ρ E) (r : ρ) : Except Fault (Ledger ρ E) := do
  return { t with queue := ← t.queue.endAccess r }

/-- `isEmpty`, which stores its answer. -/
def isEmpty (t : Ledger ρ E) (r : ρ) : Ledger ρ E := { t with queue := (t.queue.isEmpty r).1 }

/-- The numbers of the returned entries, in order. -/
def numbers (t : Ledger ρ E) : List Nat := t.returned.map Prod.snd

end Ledger

/-- The atomic calls of clients and readers. -/
inductive Call (ρ E : Type)
  | add (entry : E)
  | startAccess (r : ρ)
  | remove (r : ρ)
  | endAccess (r : ρ)
  deriving DecidableEq, Repr

namespace Ledger

variable {ρ E : Type} [DecidableEq ρ]

def call (t : Ledger ρ E) : Call ρ E → Except Fault (Ledger ρ E)
  | .add entry => .ok (t.add entry)
  | .startAccess r => t.startAccess r
  | .remove r => t.remove r
  | .endAccess r => t.endAccess r

/-- The contract of `SyncReaderList`: a reader is added before it reads, and is
not added twice. -/
def Allowed (t : Ledger ρ E) : Call ρ E → Prop
  | .add _ => True
  | .startAccess r => (t.queue.readers r).inQueue = false
  | .remove r => (t.queue.readers r).inQueue = true
  | .endAccess _ => True

instance (t : Ledger ρ E) : (c : Call ρ E) → Decidable (t.Allowed c)
  | .add _ => .isTrue trivial
  | .startAccess _ => inferInstanceAs (Decidable (_ = _))
  | .remove _ => inferInstanceAs (Decidable (_ = _))
  | .endAccess _ => .isTrue trivial

/-- The runs of a queue of the given size. -/
def system (ρ : Type) [DecidableEq ρ] (queueSize : Nat)
    (dataEntries : ProcessingQueueDataArray E) : System (Ledger ρ E) (Call ρ E) where
  init t := t = .new ρ queueSize dataEntries
  step t c u := t.Allowed c ∧ t.call c = .ok u

/-- Makes the calls in order, as long as each is allowed and meets `C`. -/
def callAll (C : Ledger ρ E → Call ρ E → Prop) [∀ t c, Decidable (C t c)]
    (t : Ledger ρ E) : List (Call ρ E) → Option (Ledger ρ E)
  | [] => some t
  | c :: cs =>
      if t.Allowed c ∧ C t c then
        match t.call c with
        | .ok u => u.callAll C cs
        | .error _ => none
      else none

/-- Calls that can be made in order lead from a reachable state to another. -/
theorem reachable_callAll {C : Ledger ρ E → Call ρ E → Prop} [∀ t c, Decidable (C t c)]
    {queueSize : Nat} {dataEntries : ProcessingQueueDataArray E} (cs : List (Call ρ E))
    {t u : Ledger ρ E}
    (h : ((system ρ queueSize dataEntries).restrict C).Reachable t)
    (hu : t.callAll C cs = some u) :
    ((system ρ queueSize dataEntries).restrict C).Reachable u := by
  induction cs generalizing t with
  | nil =>
      obtain rfl : t = u := by simpa [callAll] using hu
      exact h
  | cons c cs ih =>
      unfold callAll at hu
      split at hu
      · rename_i hallowed
        split at hu
        · rename_i v hcall
          exact ih (h.step ⟨⟨hallowed.1, hcall⟩, hallowed.2⟩) hu
        · cases hu
      · cases hu

end Ledger

end HPQueue
