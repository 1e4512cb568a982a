import HPQueue.Library.Extension
import HPQueue.Consumer.Conformance

/-!
# A worker by itself

One worker, and clients that call its methods in any order, from any number of threads.
The programs are those of `Worker`; its queue and its consumer are open.
-/

namespace HPQueue

open Library.Threads

variable {ι E : Type}

/-- The calls of a worker. -/
inductive WorkerCall
  | start
  | stop
  | pause (block : Bool)
  | resume
  | signal
  | join
  deriving DecidableEq

namespace OneWorker

scoped instance neZero : @NeZero Nat Zero.ofOfNat0 1 := ⟨Nat.one_ne_zero⟩

/-- The methods clients call. -/
def method : WorkerCall → Code ι 1 E Unit
  | .start => Worker.start 0
  | .stop => Worker.stop 0
  | .pause block => Worker.pause 0 block
  | .resume => Worker.resume 0
  | .signal => Worker.signal 0 false
  | .join => Worker.join 0

/-- The names of a worker's programs, for threads that call its methods. -/
abbrev names (ι E : Type) : Signature := (HPQueue.names ι 1 E).extend WorkerCall Empty

/-- The programs of a worker, for threads that call its methods. -/
abbrev lift {α : Type} (p : Code ι 1 E α) : Prog (names ι E) α := p.extend WorkerCall Empty

/-- A flag of the worker. -/
abbrev flag (m : Control ι 1) (f : WorkerFlag) : Bool := m.flag (.worker 0 f)

@[simp] theorem flag_store [DecidableEq ι] (t : Thread ι 1) (m : Control ι 1) (f g : WorkerFlag)
    (b : Bool) :
    flag (m.store t (.flag (.worker 0 f) b)) g = if g = f then b else flag m g := by
  simp [flag, Function.update_apply]

/-- The memory, and the calls that were made. -/
abbrev Memory (ι : Type) : Type := Control ι 1 × (Thread ι 1 → List WorkerCall)

end OneWorker

variable [DecidableEq ι]

/-- One worker, with nothing known of its queue and its consumer. -/
def oneWorker (ι : Type) [DecidableEq ι] (E : Type) :
    Machine (OneWorker.names ι E) (Control ι 1) :=
  (processor ι 1 E).extend
    (fun t c m =>
      match t with
      | .client _ => some (m, OneWorker.lift (OneWorker.method c))
      | .worker _ => none)
    (fun _ x _ => x.elim)

/-- A worker that was just constructed, and nobody in it. -/
def newWorker (ι E : Type) : State (OneWorker.names ι E) (Control ι 1) where
  prog _ := .done ()
  shared :=
    { held := fun _ => none
      asleep := fun _ => ∅
      memory := .new ι 1 }

namespace OneWorker

/-- A call of a client is a method, and leaves the memory as it is. -/
theorem entry_eq_some {t : Thread ι 1} {c : WorkerCall} {m m' : Control ι 1}
    {p : Prog (names ι E) Unit} (h : (oneWorker ι E).entry t c m = some (m', p)) :
    ∃ i, t = .client i ∧ m' = m ∧ p = lift (method c) := by
  cases t with
  | client i =>
      obtain ⟨rfl, rfl⟩ : m = m' ∧ lift (method c) = p := by
        simpa [oneWorker, Machine.extend] using h
      exact ⟨i, rfl, rfl, rfl⟩
  | worker w => simp [oneWorker, Machine.extend] at h

end OneWorker

end HPQueue
