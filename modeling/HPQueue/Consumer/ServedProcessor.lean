import HPQueue.Consumer.QueueProducerInterface
import HPQueue.Queue.Ledger

/-!
# The processor with its queue

The machine of all threads once more, with the queue it works on.  Every call of the
queue is one step, and its answer is what the queue answers; beside the queue stands
the history of its calls.  The consumers are still open, but they do not throw, and
the queue is not resized.
-/

namespace HPQueue

open Library.Threads

variable {ι : Type} {n : Nat} {E : Type}

/-- An entry that was passed to `Consumer::handle`: by whom, its number, and what its
slot held. -/
structure Handled (n : Nat) (E : Type) where
  worker : Fin n
  number : Nat
  cell : Cell E

structure Plant (ι : Type) (n : Nat) (E : Type) where
  control : Control ι n
  ledger : Ledger (Fin n) E
  /-- The thread is in a call whose entry was accepted. -/
  added : Thread ι n → Bool
  /-- In the order in which they were passed. -/
  handled : List (Handled n E)
  /-- How many entries were accepted when `stop` was called last. -/
  due : Nat

namespace Plant

/-- `Consumer::handle` is passed the entry its worker was given last. -/
def handle (m : Plant ι n E) (w : Fin n) : Plant ι n E :=
  { m with
    handled := m.handled ++ (m.ledger.borrowed w).toList.map fun k =>
      ⟨w, k, m.ledger.queue.queueData (m.ledger.queue.readers w).index⟩ }

variable [DecidableEq ι]

/-- The answers a query may have, and what it does. -/
def reply (t : Thread ι n) (m : Plant ι n E) : Query n E → Int → Option (Plant ι n E)
  | .add entry, index =>
      if index = (m.ledger.queue.add entry).2 then
        some { m with
          ledger := m.ledger.add entry
          added := Function.update m.added t (m.added t || decide (0 ≤ index)) }
      else none
  | .isMaxSize, max =>
      if decide (m.ledger.queue.currentSize ≥ MAX_QUEUE_SIZE m.ledger.queue.getEntrySize) =
          decide (max ≠ 0) then
        some m
      else none
  | .resize, _ => none
  | .started _, _ => some m
  | .init w, _ =>
      match m.ledger.startAccess w with
      | .ok ledger => some { m with ledger := ledger }
      | .error _ => none
  | .finalize w, _ =>
      match m.ledger.endAccess w with
      | .ok ledger => some { m with ledger := ledger }
      | .error _ => none
  | .remove w, entry =>
      match m.ledger.remove w with
      | .ok ledger =>
          if (ledger.borrowed w).isSome = decide (entry ≠ 0) then
            some { m with ledger := ledger }
          else none
      | .error _ => none
  | .handle w, error => if error = 0 then some (m.handle w) else none
  | .isWork w, work =>
      if m.ledger.queue.slotIsEmpty w = decide (work = 0) then
        some { m with ledger := m.ledger.isEmpty w }
      else none

/-- What a query can do: one case for each. -/
inductive Replies (t : Thread ι n) (m : Plant ι n E) : Query n E → Int → Plant ι n E → Prop
  | add (entry : E) :
      Replies t m (.add entry) (m.ledger.queue.add entry).2
        { m with
          ledger := m.ledger.add entry
          added := Function.update m.added t
            (m.added t || decide (0 ≤ (m.ledger.queue.add entry).2)) }
  | isMaxSize (max : Int) : Replies t m .isMaxSize max m
  | started (w : Fin n) (a : Int) : Replies t m (.started w) a m
  | init {w : Fin n} {ledger : Ledger (Fin n) E} (h : m.ledger.startAccess w = .ok ledger)
      (a : Int) : Replies t m (.init w) a { m with ledger := ledger }
  | finalize {w : Fin n} {ledger : Ledger (Fin n) E} (h : m.ledger.endAccess w = .ok ledger)
      (a : Int) : Replies t m (.finalize w) a { m with ledger := ledger }
  | remove {w : Fin n} {ledger : Ledger (Fin n) E} (h : m.ledger.remove w = .ok ledger)
      {entry : Int} (hentry : (ledger.borrowed w).isSome = decide (entry ≠ 0)) :
      Replies t m (.remove w) entry { m with ledger := ledger }
  | handle (w : Fin n) : Replies t m (.handle w) 0 (m.handle w)
  | isWork {w : Fin n} {work : Int} (h : m.ledger.queue.slotIsEmpty w = decide (work = 0)) :
      Replies t m (.isWork w) work { m with ledger := m.ledger.isEmpty w }

theorem replies_of_reply {t : Thread ι n} {m m' : Plant ι n E} {q : Query n E} {a : Int}
    (h : m.reply t q a = some m') : Replies t m q a m' := by
  cases q with
  | add entry =>
      obtain ⟨rfl, h⟩ := Option.ite_none_right_eq_some.mp h
      obtain rfl := Option.some.inj h
      exact .add entry
  | isMaxSize =>
      obtain ⟨-, h⟩ := Option.ite_none_right_eq_some.mp h
      obtain rfl := Option.some.inj h
      exact .isMaxSize a
  | resize => cases h
  | started w =>
      obtain rfl := Option.some.inj h
      exact .started w a
  | init w =>
      simp only [reply] at h
      split at h
      · rename_i ledger hrun
        obtain rfl := Option.some.inj h
        exact .init hrun a
      · cases h
  | finalize w =>
      simp only [reply] at h
      split at h
      · rename_i ledger hrun
        obtain rfl := Option.some.inj h
        exact .finalize hrun a
      · cases h
  | remove w =>
      simp only [reply] at h
      split at h
      · rename_i ledger hrun
        obtain ⟨hentry, h⟩ := Option.ite_none_right_eq_some.mp h
        obtain rfl := Option.some.inj h
        exact .remove hrun hentry
      · cases h
  | handle w =>
      obtain ⟨rfl, h⟩ := Option.ite_none_right_eq_some.mp h
      obtain rfl := Option.some.inj h
      exact .handle w
  | isWork w =>
      obtain ⟨hwork, h⟩ := Option.ite_none_right_eq_some.mp h
      obtain rfl := Option.some.inj h
      exact .isWork hwork

/-- A thread is given a call. -/
def enter (t : Thread ι n) (m : Plant ι n E) : ClientCall E → Plant ι n E
  | .stop =>
      { m with
        added := Function.update m.added t false
        due := m.ledger.accepted.length }
  | _ => { m with added := Function.update m.added t false }

end Plant

variable [DecidableEq ι]

/-- The processor of `processor`, and its queue. -/
def servedProcessor (ι : Type) [DecidableEq ι] (n : Nat) (E : Type) :
    Machine (names ι n E) (Plant ι n E) where
  body := procedure
  main := threadMain
  entry t c m := (threadCall t c).map fun p => (m.enter t c, p)
  load x m := m.control.load x
  store t x m := { m with control := m.control.store t x }
  reply t q a m := m.reply t q a

/-- A processor that was just constructed, with a queue of the given size. -/
def newServedProcessor (ι : Type) [DecidableEq ι] (n queueSize : Nat)
    (dataEntries : ProcessingQueueDataArray E) : State (names ι n E) (Plant ι n E) where
  prog _ := .done ()
  shared :=
    { held := fun _ => none
      asleep := fun _ => ∅
      memory :=
        { control := .new ι n
          ledger := .new (Fin n) queueSize dataEntries
          added := fun _ => false
          handled := []
          due := 0 } }

end HPQueue
