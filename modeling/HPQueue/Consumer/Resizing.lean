import HPQueue.Library.Protocol
import HPQueue.Consumer.QueueProducerInterface
import Mathlib.Algebra.BigOperators.Ring.Finset
import Mathlib.Data.Fintype.Sum

/-!
# The resize protocol among producers

`ResizeControls` lets any number of threads add to the queue, and one of them
resize it while none adds.  Three things work together: `addingCount`, the flag
`resizing`, and `resizeQueuesLock`, which `checkFull` leaves held.

`Phase` is a thread's position in that procedure.  `Phase.step` says which
operations on the three are allowed there, all methods keep to it
(`resizing_obeyed`), and `ResizeInv` relates the phases to the memory.

## Main results

* `resize_protocol` — in every reachable state the counter counts the adding
  threads, at most one thread resizes, the flag says whether one does, and while
  it executes `resize` no thread is inside `add`.
-/

namespace HPQueue

open Library.Threads Library.Transition

/-! ## Counting threads -/

/-- The number of elements with a property. -/
def countOf {α : Type} [Fintype α] (f : α → Bool) : Int :=
  ∑ a, if f a then 1 else 0

theorem countOf_eq_card {α : Type} [Fintype α] (f : α → Bool) :
    countOf f = (Finset.univ.filter fun a => f a = true).card := by
  simp [countOf]

theorem countOf_update {α : Type} [Fintype α] [DecidableEq α] (f : α → Bool) (a : α) (b : Bool) :
    countOf (Function.update f a b) =
      countOf f + (if b then 1 else 0) - (if f a then 1 else 0) := by
  have hsplit : ∀ g : α → Bool, countOf g =
      (if g a then 1 else 0) + ∑ x ∈ Finset.univ.erase a, if g x then 1 else 0 := by
    intro g
    exact (Finset.add_sum_erase _ (fun x => if g x then (1 : Int) else 0)
      (Finset.mem_univ a)).symm
  have hrest : (∑ x ∈ Finset.univ.erase a, if Function.update f a b x then (1 : Int) else 0) =
      ∑ x ∈ Finset.univ.erase a, if f x then 1 else 0 := by
    apply Finset.sum_congr rfl
    intro x hx
    rw [Function.update_of_ne (Finset.ne_of_mem_erase hx)]
  rw [hsplit f, hsplit (Function.update f a b), hrest, Function.update_self]
  omega

theorem countOf_pos {α : Type} [Fintype α] {f : α → Bool} {a : α} (h : f a = true) :
    0 < countOf f := by
  have hcard : 0 < (Finset.univ.filter fun a => f a = true).card :=
    Finset.card_pos.mpr ⟨a, by simp [h]⟩
  rw [countOf_eq_card]
  exact_mod_cast hcard

/-! ## The phases -/

namespace Resizing

/-- Where a thread stands in the procedure. -/
inductive Phase
  | out
  /-- With the lock, before or in the loop that waits while `resizing`. -/
  | checking
  | asleep
  /-- With the lock, and `resizing` was not set. -/
  | clear
  /-- Counted, with the lock. -/
  | counting
  /-- Between `waitForResize` and `checkFull`. -/
  | counted
  /-- With the lock, and `resizing` set. -/
  | begun
  /-- In `pauseAdders`. -/
  | polling
  /-- `addingCount` was seen to be zero. -/
  | alone
  /-- In `resumeAdders`, before and after it counts. -/
  | ending
  | ended
  deriving DecidableEq

namespace Phase

/-- Whether the thread holds `resizeQueuesLock`. -/
def holds : Phase → Bool
  | checking | clear | counting | begun | ending | ended => true
  | out | asleep | counted | polling | alone => false

/-- Whether the thread has incremented `addingCount`, and not decremented it. -/
def isCounted : Phase → Bool
  | counting | counted | ended => true
  | out | checking | asleep | clear | begun | polling | alone | ending => false

/-- Whether the thread has set `resizing`. -/
def resizes : Phase → Bool
  | begun | polling | alone | ending | ended => true
  | out | checking | asleep | clear | counting | counted => false

/-- Whether no thread is counted. -/
def excludes : Phase → Bool
  | alone | ending => true
  | _ => false

def acquired : Phase → Option Phase
  | out => some checking
  | counted => some counting
  | alone => some ending
  | _ => none

def released : Phase → Option Phase
  | checking => some out
  | clear => some out
  | counting => some counted
  | begun => some polling
  | _ => none

/-- After the increment (`true`) or the decrement of `addingCount`. -/
def counts : Bool → Phase → Option Phase
  | true, clear => some counting
  | true, ending => some ended
  | false, counting => some checking
  | _, _ => none

/-- After `resizing` is set to this value. -/
def sets : Bool → Phase → Option Phase
  | true, clear => some begun
  | false, clear => some clear
  | false, ended => some counting
  | _, _ => none

/-- After `resizing` was found to have this value. -/
def sees : Bool → Phase → Phase
  | false, checking => clear
  | _, φ => φ

/-- After `addingCount` was found to be zero (`false`) or not. -/
def polls : Bool → Phase → Phase
  | false, polling => alone
  | _, φ => φ

end Phase

variable {ι : Type} {n : Nat} {E : Type}

/-- The operations of the procedure; every other leaves the phase. -/
def step (φ : Phase) : (o : Op (names ι n E)) → o.Result → Option Phase
  | .acquire .resizeQueuesLock, _ => φ.acquired
  | .release .resizeQueuesLock, _ => φ.released
  | .wait _ .resizeQueuesLock, _ => if φ = .checking then some .asleep else none
  | .resume _ .resizeQueuesLock, _ => if φ = .asleep then some .checking else none
  | .load (.flag .resizing), b => some (φ.sees b)
  | .load .addingCount, b => some (φ.polls b)
  | .store (.flag .resizing b), _ => φ.sets b
  | .store (.addingCount d), _ =>
      if d = 1 then φ.counts true else if d = -1 then φ.counts false else none
  | .ask (.add _), _ => if φ = .counted ∨ φ = .clear then some φ else none
  | .ask .resize, _ => if φ = .alone then some φ else none
  | _, _ => some φ

def protocol (ι : Type) (n : Nat) (E : Type) : Protocol (names ι n E) Phase where
  trans _ φ o r := step φ o r
  pre _ p φ :=
    match p with
    | .whileResizing => φ = .checking
    | .whileAdding => φ = .polling
    | .whileFull _ => φ = .counted
    | .addLoop _ _ => φ = .counted
    | .runLoop _ => φ = .out
    | .whileAlive _ => φ = .out
  post _ p _ _ φ :=
    match p with
    | .whileResizing => φ = .clear
    | .whileAdding => φ = .alone
    | .whileFull _ => φ = .counted
    | .addLoop _ _ => φ = .out
    | .runLoop _ => φ = .out
    | .whileAlive _ => φ = .out
  final _ φ := φ = .out

/-! ## Methods that are not part of the procedure -/

/-- The operations that are not part of it; `b` tells whether the loops of the
workers may be called. -/
def quiet (b : Bool) : Op (names ι n E) → Bool
  | .acquire l => l ≠ .resizeQueuesLock
  | .release l => l ≠ .resizeQueuesLock
  | .wait _ l => l ≠ .resizeQueuesLock
  | .resume _ l => l ≠ .resizeQueuesLock
  | .load x => x ≠ .flag .resizing ∧ x ≠ .addingCount
  | .store (.flag f _) => f ≠ .resizing
  | .store (.addingCount _) => false
  | .ask (.add _) => false
  | .ask .resize => false
  | .call (.runLoop _) => b
  | .call (.whileAlive _) => b
  | .call _ => false
  | _ => true

def Quiet (b : Bool) (o : Op (names ι n E)) : Prop := quiet b o = true

theorem step_of_quiet {b : Bool} {φ : Phase} {o : Op (names ι n E)} {r : o.Result}
    (h : quiet b o) : step φ o r = some φ := by
  unfold step
  split <;> simp_all [quiet]

variable {α : Type} {t : Thread ι n}

theorem conforms_of_quiet {φ : Phase} {p : Code ι n E α} (hp : p.Only (Quiet false)) :
    Conforms (protocol ι n E) t φ p fun _ ψ => ψ = φ := by
  apply Conforms.of_only hp
  · intro o r ho
    exact step_of_quiet ho
  · intro c l ho
    exact step_of_quiet (b := false) ho
  · intro q hq
    cases q <;> simp [Quiet, quiet] at hq

theorem conforms_of_quiet_out {p : Code ι n E α} (hp : p.Only (Quiet true)) :
    Conforms (protocol ι n E) t .out p fun _ ψ => ψ = .out := by
  apply Conforms.of_only hp
  · intro o r ho
    exact step_of_quiet ho
  · intro c l ho
    exact step_of_quiet (b := true) ho
  · intro q hq
    cases q <;> simp_all [Quiet, quiet, protocol]

attribute [local simp] quiet Quiet Prog.Only.ite_iff Prog.ite_bind Worker.get Worker.set
  QueueProcessor.get QueueProcessor.set

section Quiet

variable (b : Bool) (w : Fin n)

theorem start_quiet : (Worker.start w : Code ι n E Unit).Only (Quiet b) := by
  simp [Worker.start]

theorem signal_quiet (block : Bool) : (Worker.signal w block : Code ι n E Unit).Only (Quiet b) := by
  simp [Worker.signal]

theorem pause_quiet (block : Bool) : (Worker.pause w block : Code ι n E Unit).Only (Quiet b) := by
  simp [Worker.pause, Worker.signal]

theorem resume_quiet : (Worker.resume w : Code ι n E Unit).Only (Quiet b) := by
  simp [Worker.resume]

theorem stop_quiet : (Worker.stop w : Code ι n E Unit).Only (Quiet b) := by
  simp [Worker.stop, Worker.wasStarted, Worker.resume, Worker.signal, Worker.signalDead]

theorem join_quiet : (Worker.join w : Code ι n E Unit).Only (Quiet true) := by
  simp [Worker.join]

theorem whileAlive_quiet : (Worker.whileAlive w : Code ι n E Int).Only (Quiet true) := by
  simp [Worker.whileAlive]

theorem runLoop_quiet : (Worker.runLoop w : Code ι n E Int).Only (Quiet true) := by
  simp [Worker.runLoop, Worker.waitWhilePaused, Worker.waitForWork, Worker.doWork, Worker.isWork]

theorem run_quiet : (Worker.run w : Code ι n E Unit).Only (Quiet true) := by
  simp [Worker.run, Worker.handleError, Worker.signalDead]

variable {b}

theorem forWorkers_quiet {f : Fin n → Code ι n E Unit} (hf : ∀ w, (f w).Only (Quiet b)) :
    (QueueProcessor.forWorkers f).Only (Quiet b) := by
  constructor
  · rfl
  · intro cleared
    cases cleared with
    | true => trivial
    | false => exact Prog.Only.forEach hf

theorem processor_pause_quiet (block : Bool) :
    (QueueProcessor.pause block : Code ι n E Unit).Only (Quiet b) := by
  simp [QueueProcessor.pause]
  apply (forWorkers_quiet fun w => pause_quiet b w false).bind
  intro _
  split
  · apply (forWorkers_quiet fun w => pause_quiet b w true).bind
    simp
  · simp

theorem processor_resume_quiet : (QueueProcessor.resume : Code ι n E Unit).Only (Quiet b) := by
  simp [QueueProcessor.resume]
  apply (forWorkers_quiet fun w => resume_quiet b w).bind
  simp

theorem startNew_quiet : (QueueProcessor.startNew w : Code ι n E Unit).Only (Quiet b) := by
  simp [QueueProcessor.startNew, start_quiet]

theorem processor_start_quiet : (QueueProcessor.start : Code ι n E Unit).Only (Quiet b) := by
  simp [QueueProcessor.start]
  constructor
  · apply (Prog.Only.forEach fun w => startNew_quiet w).bind
    simp
  · apply (Prog.Only.forEach fun w => start_quiet b w).bind
    simp

theorem broadcast_quiet : (QueueProcessor.broadcast : Code ι n E Unit).Only (Quiet b) := by
  simp [QueueProcessor.broadcast]
  apply (forWorkers_quiet fun w => ?_).bind
  · simp
  · simp [signal_quiet]

theorem discard_quiet : (QueueProcessor.discard w : Code ι n E Unit).Only (Quiet true) := by
  simp [QueueProcessor.discard, join_quiet]

theorem processor_stop_quiet : (QueueProcessor.stop : Code ι n E Unit).Only (Quiet true) := by
  simp [QueueProcessor.stop]
  apply (forWorkers_quiet fun w => signal_quiet true w true).bind
  intro _
  apply (forWorkers_quiet fun w => stop_quiet true w).bind
  intro _
  apply (forWorkers_quiet fun w => discard_quiet w).bind
  simp

theorem terminate_quiet : (QueueProcessor.terminate : Code ι n E Unit).Only (Quiet true) := by
  simp [QueueProcessor.terminate]
  apply processor_stop_quiet.bind
  simp

end Quiet

/-! ## Methods of the procedure -/

attribute [local simp] Conforms protocol step Phase.acquired Phase.released Phase.counts
  Phase.sets Phase.sees Phase.polls

theorem conforms_whileResizing :
    Conforms (protocol ι n E) t .checking ResizeControls.whileResizing
      fun _ φ => φ = .clear := by
  simp [ResizeControls.whileResizing]

theorem conforms_waitForResize :
    Conforms (protocol ι n E) t .out ResizeControls.waitForResize fun _ φ => φ = .counted := by
  simp [ResizeControls.waitForResize]

theorem conforms_checkFull (index : Int) :
    Conforms (protocol ι n E) t .counted (ResizeControls.checkFull index)
      fun full φ => φ = if full then .clear else .out := by
  by_cases h : index = QueueConstants.IS_FULL <;> simp [ResizeControls.checkFull, h]

theorem conforms_checkFullForResize (index : Int) :
    Conforms (protocol ι n E) t .clear (ResizeControls.checkFullForResize index)
      fun full φ => φ = if full then .polling else .out := by
  by_cases h : index = QueueConstants.IS_FULL <;> simp [ResizeControls.checkFullForResize, h]

theorem conforms_whileAdding :
    Conforms (protocol ι n E) t .polling ResizeControls.whileAdding fun _ φ => φ = .alone := by
  simp [ResizeControls.whileAdding]

theorem conforms_pauseThreadsForResize :
    Conforms (protocol ι n E) t .polling QueueProducerInterface.pauseThreadsForResize
      fun _ φ => φ = .alone := by
  simp [QueueProducerInterface.pauseThreadsForResize, ResizeControls.pauseAdders]
  exact conforms_of_quiet (processor_pause_quiet true)

theorem conforms_resumeThreadsForResize :
    Conforms (protocol ι n E) t .alone QueueProducerInterface.resumeThreadsForResize
      fun _ φ => φ = .counted := by
  apply (conforms_of_quiet processor_resume_quiet).bind
  rintro _ _ rfl
  simp [ResizeControls.resumeAdders]

theorem conforms_whileFull (entry : E) :
    Conforms (protocol ι n E) t .counted (QueueProducerInterface.whileFull entry)
      fun _ φ => φ = .counted := by
  simp [QueueProducerInterface.whileFull]
  intro index
  split <;> simp

theorem conforms_checkResizable (entry : E) (index : Int) :
    Conforms (protocol ι n E) t .counted (QueueProducerInterface.checkResizable entry index)
      fun _ φ => φ = .counted := by
  unfold QueueProducerInterface.checkResizable
  split
  · simp
    intro maxSize
    split <;> simp
  · simp

theorem conforms_addLoop (entry : E) (index : Int) :
    Conforms (protocol ι n E) t .counted (QueueProducerInterface.addLoop entry index)
      fun _ φ => φ = .out := by
  apply (conforms_checkResizable entry index).bind
  rintro index _ rfl
  apply (conforms_checkFull index).bind
  rintro (_ | _) _ rfl
  · simp
  · simp
    intro index
    apply (conforms_checkFullForResize index).bind
    rintro (_ | _) _ rfl
    · simp
    · apply conforms_pauseThreadsForResize.bind
      rintro _ _ rfl
      simp
      apply conforms_resumeThreadsForResize.bind
      rintro _ _ rfl
      simp

theorem conforms_add (entry : E) :
    Conforms (protocol ι n E) t .out (QueueProducerInterface.add entry) fun _ φ => φ = .out := by
  have haddToQueue : Conforms (protocol ι n E) t .out (QueueProducerInterface.addToQueue entry)
      fun _ φ => φ = .out := by
    intro terminated
    cases terminated with
    | true => simp
    | false =>
        simp
        apply conforms_waitForResize.bind
        rintro _ _ rfl
        simp
  apply haddToQueue.bind
  rintro index _ rfl
  split
  · exact conforms_of_quiet_out (broadcast_quiet (b := true))
  · simp

/-- All methods keep to the procedure. -/
theorem obeyed [DecidableEq ι] : (protocol ι n E).Obeyed (processor ι n E) where
  body := by
    intro t p φ hpre
    cases p with
    | whileResizing => obtain rfl := hpre; exact conforms_whileResizing
    | whileAdding => obtain rfl := hpre; exact conforms_whileAdding
    | whileFull entry => obtain rfl := hpre; exact conforms_whileFull entry
    | addLoop entry index => obtain rfl := hpre; exact conforms_addLoop entry index
    | runLoop w => obtain rfl := hpre; exact conforms_of_quiet_out (runLoop_quiet w)
    | whileAlive w => obtain rfl := hpre; exact conforms_of_quiet_out (whileAlive_quiet w)
  main := by
    rintro (i | w) φ rfl
    · exact rfl
    · exact conforms_of_quiet_out (run_quiet w)
  entry := by
    rintro (i | w) c m m' p φ hentry rfl
    · obtain ⟨-, rfl⟩ : m = m' ∧ method c = p := by simpa [processor, threadCall] using hentry
      cases c with
      | add entry => exact conforms_add entry
      | start => exact conforms_of_quiet_out processor_start_quiet
      | stop => exact conforms_of_quiet_out processor_stop_quiet
      | pause block => exact conforms_of_quiet_out (processor_pause_quiet block)
      | resume => exact conforms_of_quiet_out processor_resume_quiet
      | terminate => exact conforms_of_quiet_out terminate_quiet
    · simp [processor, threadCall] at hentry

/-! ## The invariant -/

variable [Fintype ι]

/-- How the phases of the threads relate to the memory. -/
structure Inv (φ : Thread ι n → Phase) (s : Shared (names ι n E) (Control ι n)) : Prop where
  holds : ∀ t, (φ t).holds = true ↔ s.held .resizeQueuesLock = some t
  counted : ∀ t, s.memory.counted t = (φ t).isCounted
  resizes : ∀ t, s.memory.resizes t = (φ t).resizes
  count : s.memory.addingCount = countOf s.memory.counted
  flag : s.memory.flag .resizing = true ↔ ∃ t, (φ t).resizes = true
  unique : ∀ t u, (φ t).resizes = true → (φ u).resizes = true → t = u
  clear : ∀ t, φ t = .clear → s.memory.flag .resizing = false
  excludes : ∀ t, (φ t).excludes = true → s.memory.addingCount = 0

namespace Inv

variable {φ : Thread ι n → Phase} {s s' : Shared (names ι n E) (Control ι n)} {ψ : Phase}

/-- Other parts of the memory do not matter. -/
theorem congr (h : Inv φ s) (hheld : s'.held .resizeQueuesLock = s.held .resizeQueuesLock)
    (hcounted : s'.memory.counted = s.memory.counted)
    (hresizes : s'.memory.resizes = s.memory.resizes)
    (hcount : s'.memory.addingCount = s.memory.addingCount)
    (hflag : s'.memory.flag .resizing = s.memory.flag .resizing) : Inv φ s' where
  holds t := by rw [hheld]; exact h.holds t
  counted t := by rw [hcounted]; exact h.counted t
  resizes t := by rw [hresizes]; exact h.resizes t
  count := by rw [hcount, hcounted]; exact h.count
  flag := by rw [hflag]; exact h.flag
  unique := h.unique
  clear t ht := by rw [hflag]; exact h.clear t ht
  excludes t ht := by rw [hcount]; exact h.excludes t ht

/-- One thread at most holds the lock. -/
theorem holder_unique (h : Inv φ s) {t u : Thread ι n} (ht : (φ t).holds = true)
    (hu : (φ u).holds = true) : t = u := by
  have htu := ((h.holds t).mp ht).symm.trans ((h.holds u).mp hu)
  exact Option.some.inj htu

variable [DecidableEq ι]

omit [Fintype ι] in
theorem update_same {β : Type} {f : Phase → β} (h : f ψ = f (φ t)) (u : Thread ι n) :
    f (Function.update φ t ψ u) = f (φ u) := by
  by_cases hut : u = t
  · subst hut
    simpa using h
  · simp [hut]

/-- A thread whose phase is counted and resizes as before. -/
theorem move (h : Inv φ s) (hmemory : s'.memory = s.memory)
    (hholds : ∀ u, (Function.update φ t ψ u).holds = true ↔ s'.held .resizeQueuesLock = some u)
    (hcounted : ψ.isCounted = (φ t).isCounted) (hresizes : ψ.resizes = (φ t).resizes)
    (hclear : ψ = .clear → s.memory.flag .resizing = false)
    (hexcludes : ψ.excludes = true → s.memory.addingCount = 0) :
    Inv (Function.update φ t ψ) s' := by
  constructor
  · exact hholds
  · intro u
    rw [hmemory, h.counted u, update_same hcounted]
  · intro u
    rw [hmemory, h.resizes u, update_same hresizes]
  · rw [hmemory]
    exact h.count
  · simp only [hmemory, h.flag, update_same hresizes]
  · intro u v hu hv
    rw [update_same hresizes] at hu hv
    exact h.unique u v hu hv
  · intro u hu
    rw [hmemory]
    by_cases hut : u = t
    · subst hut
      exact hclear (by simpa using hu)
    · exact h.clear u (by simpa [hut] using hu)
  · intro u hu
    rw [hmemory]
    by_cases hut : u = t
    · subst hut
      exact hexcludes (by simpa using hu)
    · exact h.excludes u (by simpa [hut] using hu)

theorem acquire (h : Inv φ s) (hfree : s.held .resizeQueuesLock = none)
    (hψ : (φ t).acquired = some ψ ∨ φ t = .asleep ∧ ψ = .checking) :
    Inv (Function.update φ t ψ) (s.lock .resizeQueuesLock (some t)) := by
  have hψ' : ψ.holds = true ∧ ψ.isCounted = (φ t).isCounted ∧ ψ.resizes = (φ t).resizes ∧
      ψ ≠ .clear ∧ (ψ.excludes = true → (φ t).excludes = true) := by
    rcases hψ with hψ | ⟨hφ, rfl⟩
    · cases hφ : φ t <;> simp [hφ, Phase.acquired] at hψ <;> subst hψ <;> decide
    · rw [hφ]
      decide
  apply move h
  · rfl
  · intro u
    by_cases hut : u = t
    · subst hut
      simp [Shared.lock, hψ'.1]
    · have hu : (φ u).holds = false := by
        have := (h.holds u).not
        simpa [hfree] using this
      simp [Shared.lock, hut, hu, Ne.symm hut]
  · exact hψ'.2.1
  · exact hψ'.2.2.1
  · exact fun hclear => absurd hclear hψ'.2.2.2.1
  · exact fun hex => h.excludes t (hψ'.2.2.2.2 hex)

theorem release (h : Inv φ s) (hheld : s.held .resizeQueuesLock = some t)
    (hψ : (φ t).released = some ψ ∨ φ t = .checking ∧ ψ = .asleep) :
    Inv (Function.update φ t ψ) (s.lock .resizeQueuesLock none) := by
  have hψ' : ψ.holds = false ∧ ψ.isCounted = (φ t).isCounted ∧ ψ.resizes = (φ t).resizes ∧
      ψ ≠ .clear ∧ ψ.excludes = false := by
    rcases hψ with hψ | ⟨hφ, rfl⟩
    · cases hφ : φ t <;> simp [hφ, Phase.released] at hψ <;> subst hψ <;> decide
    · rw [hφ]
      decide
  apply move h
  · rfl
  · intro u
    by_cases hut : u = t
    · subst hut
      simp [Shared.lock, hψ'.1]
    · have hu : (φ u).holds = false := by
        have := (h.holds u).not
        simpa [hheld, Ne.symm hut] using this
      simp [Shared.lock, hut, hu]
  · exact hψ'.2.1
  · exact hψ'.2.2.1
  · exact fun hclear => absurd hclear hψ'.2.2.2.1
  · intro hex
    rw [hψ'.2.2.2.2] at hex
    cases hex

/-- The holder of the lock increments or decrements `addingCount`. -/
theorem counts (h : Inv φ s) {b : Bool} {d : Int} (hd : d = if b then 1 else -1)
    (hψ : (φ t).counts b = some ψ) :
    Inv (Function.update φ t ψ) { s with memory := s.memory.store t (.addingCount d) } := by
  have hψ' : (φ t).holds = true ∧ ψ.holds = true ∧ ψ.isCounted = b ∧ (φ t).isCounted = !b ∧
      ψ.resizes = (φ t).resizes ∧ ψ ≠ .clear ∧ ψ.excludes = false ∧
      (b = true → φ t = .clear ∨ φ t = .ending) := by
    cases b <;> cases hφ : φ t <;> simp [hφ, Phase.counts] at hψ <;> subst hψ <;> decide
  obtain ⟨hholds, hψholds, hψcounted, hcounted, hψresizes, hψclear, hψex, hincrement⟩ := hψ'
  have hcounts : ∀ u, (s.memory.store t (.addingCount d)).counted u =
      (Function.update φ t ψ u).isCounted := by
    intro u
    by_cases hut : u = t
    · subst hut
      cases b <;> simp [Control.store, hψcounted, hd]
    · simp [Control.store, hut, h.counted u]
  constructor
  · intro u
    rw [update_same (hψholds.trans hholds.symm)]
    exact h.holds u
  · exact hcounts
  · intro u
    rw [update_same hψresizes]
    exact h.resizes u
  · show s.memory.addingCount + d = countOf (Function.update s.memory.counted t _)
    rw [countOf_update, h.count, h.counted t, hcounted]
    cases b <;> simp [hd]
    omega
  · simp only [update_same hψresizes]
    exact h.flag
  · intro u v hu hv
    rw [update_same hψresizes] at hu hv
    exact h.unique u v hu hv
  · intro u hu
    by_cases hut : u = t
    · subst hut
      exact absurd (by simpa using hu) hψclear
    · exact h.clear u (by simpa [hut] using hu)
  · intro u hu
    by_cases hut : u = t
    · subst hut
      simp [hψex] at hu
    · have hu' : (φ u).excludes = true := by simpa [hut] using hu
      have huresizes : (φ u).resizes = true := by
        cases hφ : φ u <;> simp [hφ, Phase.excludes] at hu' <;> decide
      have hflag := h.flag.mpr ⟨u, huresizes⟩
      cases b with
      | true =>
          rcases hincrement rfl with ht | ht
          · have := h.clear t ht
            simp [this] at hflag
          · exact absurd (h.unique u t huresizes (by rw [ht]; rfl)) hut
      | false =>
          -- `u` saw the counter at zero, yet `t` is counted
          have hpos := countOf_pos (f := s.memory.counted) (a := t)
            (by simp [h.counted t, hcounted])
          have hzero := h.count.symm.trans (h.excludes u hu')
          omega

/-- The holder of the lock sets or clears `resizing`. -/
theorem sets (h : Inv φ s) {b : Bool} (hψ : (φ t).sets b = some ψ) :
    Inv (Function.update φ t ψ) { s with memory := s.memory.store t (.flag .resizing b) } := by
  have hψ' : (φ t).holds = true ∧ ψ.holds = true ∧ ψ.isCounted = (φ t).isCounted ∧
      ψ.resizes = b ∧ (φ t = .clear ∨ (φ t).resizes = true) ∧ ψ.excludes = false ∧
      (ψ = .clear → b = false) := by
    cases b <;> cases hφ : φ t <;> simp [hφ, Phase.sets] at hψ <;> subst hψ <;> decide
  obtain ⟨hholds, hψholds, hψcounted, hψresizes, hbefore, hψex, hψclear⟩ := hψ'
  -- nobody else resizes: the flag is clear, or it is this thread's
  have hothers : ∀ u, u ≠ t → (φ u).resizes = false := by
    intro u hut
    by_contra hu
    have hu : (φ u).resizes = true := by simpa using hu
    rcases hbefore with ht | ht
    · have hflag := h.flag.mpr ⟨u, hu⟩
      rw [h.clear t ht] at hflag
      cases hflag
    · exact hut (h.unique u t hu ht)
  have hresizes : ∀ u, (Function.update φ t ψ u).resizes = true ↔ u = t ∧ b = true := by
    intro u
    by_cases hut : u = t
    · subst hut
      simp [hψresizes]
    · simp [hut, hothers u hut]
  constructor
  · intro u
    rw [update_same (hψholds.trans hholds.symm)]
    exact h.holds u
  · intro u
    rw [update_same hψcounted]
    exact h.counted u
  · intro u
    by_cases hut : u = t
    · subst hut
      simp [Control.store, hψresizes]
    · simp [Control.store, hut, h.resizes u]
  · exact h.count
  · simp [hresizes, Control.store]
  · intro u v hu hv
    rw [hresizes] at hu hv
    exact hu.1.trans hv.1.symm
  · intro u hu
    by_cases hut : u = t
    · subst hut
      simpa [Control.store] using hψclear (by simpa using hu)
    · -- only one thread holds the lock
      have huholds : (φ u).holds = true := by
        have : φ u = .clear := by simpa [hut] using hu
        rw [this]
        rfl
      exact absurd (h.holder_unique huholds hholds) hut
  · intro u hu
    by_cases hut : u = t
    · subst hut
      simp [hψex] at hu
    · exact h.excludes u (by simpa [hut] using hu)

/-- A thread that finds `resizing` clear. -/
theorem sees (h : Inv φ s) :
    Inv (Function.update φ t ((φ t).sees (s.memory.flag .resizing))) s := by
  by_cases hclear : s.memory.flag .resizing = false ∧ φ t = .checking
  · obtain ⟨hflag, ht⟩ := hclear
    rw [hflag, ht]
    apply h.move rfl
    · intro u
      rw [update_same (f := Phase.holds) (by rw [ht]; rfl)]
      exact h.holds u
    · rw [ht]
      rfl
    · rw [ht]
      rfl
    · exact fun _ => hflag
    · exact fun hex => by cases hex
  · have hstay : (φ t).sees (s.memory.flag .resizing) = φ t := by
      cases hφ : φ t <;> cases hflag : s.memory.flag .resizing <;> simp_all [Phase.sees]
    rw [hstay, Function.update_eq_self]
    exact h

/-- A thread that finds `addingCount` at zero. -/
theorem polls (h : Inv φ s) :
    Inv (Function.update φ t ((φ t).polls (s.memory.addingCount ≠ 0))) s := by
  by_cases hzero : s.memory.addingCount = 0 ∧ φ t = .polling
  · obtain ⟨hcount, ht⟩ := hzero
    have hψ : (φ t).polls (s.memory.addingCount ≠ 0) = .alone := by
      rw [ht]
      simp [hcount, Phase.polls]
    rw [hψ]
    apply h.move rfl
    · intro u
      rw [update_same (f := Phase.holds) (by rw [ht]; rfl)]
      exact h.holds u
    · rw [ht]
      rfl
    · rw [ht]
      rfl
    · exact fun hclear => by cases hclear
    · exact fun _ => hcount
  · have hstay : (φ t).polls (s.memory.addingCount ≠ 0) = φ t := by
      cases hφ : φ t <;> by_cases hcount : s.memory.addingCount = 0 <;> simp_all [Phase.polls]
    rw [hstay, Function.update_eq_self]
    exact h

end Inv

variable [DecidableEq ι]

theorem inv_new : Inv (fun _ => .out) (newProcessor ι n E).shared where
  holds t := by simp [Phase.holds, newProcessor]
  counted t := by rfl
  resizes t := by rfl
  count := by simp [newProcessor, Control.new, countOf]
  flag := by simp [Phase.resizes, newProcessor, Control.new]
  unique t u ht := by cases ht
  clear t ht := by cases ht
  excludes t ht := by cases ht

/-- What one move of the procedure preserves. -/
theorem inv_of_effect {φ : Thread ι n → Phase} {s s' : Shared (names ι n E) (Control ι n)}
    {ψ : Phase} {o : Op (names ι n E)} {r : o.Result} (h : Inv φ s)
    (heffect : (processor ι n E).Effect s t o r s') (hψ : step (φ t) o r = some ψ) :
    Inv (Function.update φ t ψ) s' := by
  have hsame : step (φ t) o r = some (φ t) → Function.update φ t ψ = φ := by
    intro hstay
    obtain rfl : φ t = ψ := Option.some.inj (hstay.symm.trans hψ)
    exact Function.update_eq_self t φ
  cases heffect with
  | @acquire l hfree =>
      by_cases hl : l = .resizeQueuesLock
      · subst hl
        exact h.acquire hfree (.inl hψ)
      · rw [hsame (step_of_quiet (b := false) (by simpa using hl))]
        apply h.congr <;> simp [Shared.lock, Ne.symm hl]
  | @release l hheld =>
      by_cases hl : l = .resizeQueuesLock
      · subst hl
        exact h.release hheld (.inl hψ)
      · rw [hsame (step_of_quiet (b := false) (by simpa using hl))]
        apply h.congr <;> simp [Shared.lock, Ne.symm hl]
  | @wait c l hheld =>
      by_cases hl : l = .resizeQueuesLock
      · subst hl
        have hψ : φ t = .checking ∧ .asleep = ψ := by simpa [step] using hψ
        apply (h.release hheld (.inr ⟨hψ.1, hψ.2.symm⟩)).congr <;> rfl
      · rw [hsame (step_of_quiet (b := false) (by simpa using hl))]
        apply h.congr <;> simp [Shared.lock, Shared.sleep, Ne.symm hl]
  | @resume c l hawake hfree =>
      by_cases hl : l = .resizeQueuesLock
      · subst hl
        have hψ : φ t = .asleep ∧ .checking = ψ := by simpa [step] using hψ
        exact h.acquire hfree (.inr ⟨hψ.1, hψ.2.symm⟩)
      · rw [hsame (step_of_quiet (b := false) (by simpa using hl))]
        apply h.congr <;> simp [Shared.lock, Ne.symm hl]
  | unheard hnone => rwa [hsame rfl]
  | signal hasleep =>
      rw [hsame rfl]
      apply h.congr <;> rfl
  | broadcast =>
      rw [hsame rfl]
      apply h.congr <;> rfl
  | @load x =>
      cases x with
      | flag f =>
          by_cases hf : f = .resizing
          · subst hf
            obtain rfl := Option.some.inj hψ
            exact h.sees
          · rwa [hsame (step_of_quiet (b := false) (by simpa using hf))]
      | addingCount =>
          obtain rfl := Option.some.inj hψ
          exact h.polls
      | nestedPauseCounter => rwa [hsame rfl]
  | @store x =>
      cases x with
      | flag f b =>
          by_cases hf : f = .resizing
          · subst hf
            exact h.sets hψ
          · rw [hsame (step_of_quiet (b := false) (by simpa using hf))]
            apply h.congr <;> cases f <;> simp_all [processor, Control.store]
      | addingCount d =>
          simp only [step] at hψ
          split at hψ
          · exact h.counts (b := true) (by simpa) hψ
          · split at hψ
            · exact h.counts (b := false) (by simpa) hψ
            · cases hψ
      | nestedPauseCounter d =>
          rw [hsame rfl]
          apply h.congr <;> rfl
      | newWorker w =>
          rw [hsame rfl]
          apply h.congr <;> rfl
  | @ask q a m hreply =>
      obtain rfl : s.memory = m := by simpa [processor] using hreply
      have hstay : step (φ t) (.ask q : Op (names ι n E)) a = some (φ t) := by
        cases q <;> simp only [step] at hψ ⊢ <;> split at hψ <;> simp_all
      rwa [hsame hstay]
  | spawn => rwa [hsame rfl]

/-- The phases of every reachable state. -/
theorem inv_of_reachable {s : State (names ι n E) (Control ι n)}
    (h : ((processor ι n E).system (newProcessor ι n E)).Reachable s) :
    ∃ φ, (protocol ι n E).Obeys φ s ∧ Inv φ s.shared := by
  apply Protocol.invariant obeyed _ inv_new _ h.restrict_true
  · exact fun t => rfl
  · intro φ s l φ' shared _ hinv _ hmoves
    cases hmoves with
    | act _ hexec htrans _ =>
        rw [Protocol.births_eq fun _ _ => rfl]
        exact inv_of_effect hinv (Machine.effect_of_exec hexec) htrans
    | silent => exact hinv
    | spurious => apply hinv.congr <;> rfl
    | @enter t c m p _ _ hentry =>
        obtain rfl : s.shared.memory = m := by
          obtain ⟨_, _, hentry⟩ := Option.map_eq_some_iff.mp hentry
          exact (Prod.ext_iff.mp hentry).1
        rw [show (protocol ι n E).enter t c (φ t) = φ t from rfl, Function.update_eq_self]
        exact hinv

end Resizing

open Resizing

variable [DecidableEq ι] [Fintype ι]

/-- What the producers rely on. -/
structure ResizeExclusion (s : State (names ι n E) (Control ι n)) : Prop where
  /-- `addingCount` is the number of threads that have incremented it and not yet
  decremented it. -/
  count : s.shared.memory.addingCount =
    (Finset.univ.filter fun t => s.shared.memory.counted t = true).card
  nonneg : 0 ≤ s.shared.memory.addingCount
  unique : ∀ t u, s.shared.memory.resizes t = true → s.shared.memory.resizes u = true → t = u
  flag_iff : s.shared.memory.flag .resizing = true ↔ ∃ t, s.shared.memory.resizes t = true
  /-- The thread that executes `resize` set the flag, and no thread is inside `add`. -/
  alone : ∀ t, (s.prog t).head = some (.ask .resize) → s.shared.memory.resizes t = true ∧
    ∀ u entry, (s.prog u).head ≠ some (.ask (.add entry))

/-- In every reachable state, whatever the order of the steps, the answers of the
queue, and the calls of the clients. -/
theorem resize_protocol {s : State (names ι n E) (Control ι n)}
    (h : ((processor ι n E).system (newProcessor ι n E)).Reachable s) : ResizeExclusion s := by
  obtain ⟨φ, hobeys, hinv⟩ := inv_of_reachable h
  have hcount := hinv.count
  rw [countOf_eq_card] at hcount
  constructor
  · exact hcount
  · rw [hcount]
    exact Int.natCast_nonneg _
  · intro t u ht hu
    rw [hinv.resizes] at ht hu
    exact hinv.unique t u ht hu
  · simp only [hinv.resizes]
    exact hinv.flag
  · intro t hresize
    obtain ⟨ψ, hψ⟩ := (hobeys t).trans_of_head hresize (by simp) 0
    have ht : φ t = .alone := by
      simp [protocol, step] at hψ
      exact hψ.1
    constructor
    · rw [hinv.resizes, ht]
      rfl
    · intro u entry hadd
      obtain ⟨ψ', hψ'⟩ := (hobeys u).trans_of_head hadd (by simp) 0
      have hu : φ u = .counted ∨ φ u = .clear := by
        simp [protocol, step] at hψ'
        exact hψ'.1
      rcases hu with hu | hu
      · -- `u` is counted, and `t` saw the counter at zero
        have hpos := countOf_pos (f := s.shared.memory.counted) (a := u)
          (by rw [hinv.counted, hu]; rfl)
        have hzero := hinv.count.symm.trans (hinv.excludes t (by rw [ht]; rfl))
        omega
      · -- `u` holds the lock, and found `resizing` clear
        have hflag := hinv.flag.mpr ⟨t, by rw [ht]; rfl⟩
        rw [hinv.clear u hu] at hflag
        cases hflag

/-- Client 0 found the queue full, and is about to resize it; client 1 waits. -/
theorem resize_protocol_one_waits :
    ∃ s : State (names (Fin 2) 1 Unit) (Control (Fin 2) 1),
      (s.prog (.client 0)).head = some (.ask .resize) ∧
        (s.prog (.client 1)).head = some (.resume .isResizingCond .resizeQueuesLock) ∧
          ResizeExclusion s := by
  let go (i : Fin 2) : Label (names (Fin 2) 1 Unit) := .step (.client i) .go
  let full : Label (names (Fin 2) 1 Unit) := .step (.client 0) (.answer QueueConstants.IS_FULL)
  let notMax : Label (names (Fin 2) 1 Unit) := .step (.client 0) (.answer 0)
  have hrun := (processor (Fin 2) 1 Unit).reachable_of_follow (newProcessor (Fin 2) 1 Unit)
    ([.enter (.client 0) (.add ()), .enter (.client 1) (.add ())] ++ List.replicate 6 (go 0) ++
      [full, go 0, notMax] ++ List.replicate 4 (go 0) ++ [full] ++ List.replicate 11 (go 0) ++
      List.replicate 5 (go 1)) rfl
  exact ⟨_, rfl, rfl, resize_protocol hrun⟩

end HPQueue
