import HPQueue.Consumer.Completion
import HPQueue.Queue.GrowingQueue

/-!
# The processor with a queue that grows

The machine of all threads with the queue it works on, once more, and a producer that
finds the queue full resizes it.  Every call of the queue is one step, and its answer is
what the queue answers.  The consumers are still open, but they do not throw.

A worker is passed the cell its slot points to when it handles an entry.  The reference
that `remove` returned is to the array that a resize replaces; the runs that matter are
those in which no worker has an entry in hand when the queue is resized.

The threads keep to the protocol of `Attendance`, but for the resizes, which now have a
phase.

## Main results

* `growing_covers` — the processor runs the programs it ran before.
* `growing_obeyed` — all methods keep to the protocol.
-/

namespace HPQueue

open Library.Threads Prog

variable {ι : Type} {n : Nat} {E : Type}

structure GrowingPlant (ι : Type) (n : Nat) (E : Type) where
  control : Control ι n
  queue : GrowingQueue (Fin n) E
  /-- The thread is in a call whose entry was accepted. -/
  added : Thread ι n → Bool
  /-- What was passed to `Consumer::handle`, by whom, in order. -/
  handled : List (Fin n × Cell E)

namespace GrowingPlant

/-- `Consumer::handle` is passed what the slot of its worker holds. -/
def handle (m : GrowingPlant ι n E) (w : Fin n) : GrowingPlant ι n E :=
  { m with
    handled := m.handled ++ [(w, m.queue.queue.queueData (m.queue.queue.readers w).index)] }

/-- As one whose queue counts nothing. -/
def plant (m : GrowingPlant ι n E) : Plant ι n E where
  control := m.control
  ledger :=
    { queue := m.queue.queue
      accepted := []
      occupant := fun _ => 0
      assigned := []
      held := fun _ => none
      returned := []
      borrowed := fun _ => none }
  added := m.added
  handled := []
  due := 0

variable [DecidableEq ι]

/-- The answers a query may have, and what it does.  `resize` returns nothing; its answer is
the number of rounds its loops may take, and there is none if they take more. -/
def reply (t : Thread ι n) (m : GrowingPlant ι n E) :
    Query n E → Int → Option (GrowingPlant ι n E)
  | .add entry, index =>
      if index = (m.queue.queue.add entry).2 then
        some { m with
          queue := m.queue.add entry
          added := Function.update m.added t (m.added t || decide (0 ≤ index)) }
      else none
  | .isMaxSize, max =>
      if decide (m.queue.queue.currentSize ≥ MAX_QUEUE_SIZE m.queue.queue.getEntrySize) =
          decide (max ≠ 0) then
        some m
      else none
  | .resize, rounds =>
      match m.queue.resize rounds.toNat m.queue.queue.getNewQueueSize with
      | .ok queue => some { m with queue := queue }
      | .error _ => none
  | .started _, _ => some m
  | .init w, _ =>
      match m.queue.startAccess w with
      | .ok queue => some { m with queue := queue }
      | .error _ => none
  | .finalize w, _ =>
      match m.queue.endAccess w with
      | .ok queue => some { m with queue := queue }
      | .error _ => none
  | .remove w, entry =>
      match m.queue.remove w with
      | .ok (queue, result) =>
          if result.isSome = decide (entry ≠ 0) then some { m with queue := queue } else none
      | .error _ => none
  | .handle w, error => if error = 0 then some (m.handle w) else none
  | .isWork w, work =>
      if m.queue.queue.slotIsEmpty w = decide (work = 0) then
        some { m with queue := m.queue.isEmpty w }
      else none

/-- What a query can do: one case for each. -/
inductive Replies (t : Thread ι n) (m : GrowingPlant ι n E) :
    Query n E → Int → GrowingPlant ι n E → Prop
  | add (entry : E) :
      Replies t m (.add entry) (m.queue.queue.add entry).2
        { m with
          queue := m.queue.add entry
          added := Function.update m.added t
            (m.added t || decide (0 ≤ (m.queue.queue.add entry).2)) }
  | isMaxSize (max : Int) : Replies t m .isMaxSize max m
  | resize {rounds : Int} {queue : GrowingQueue (Fin n) E}
      (h : m.queue.resize rounds.toNat m.queue.queue.getNewQueueSize = .ok queue) :
      Replies t m .resize rounds { m with queue := queue }
  | started (w : Fin n) (a : Int) : Replies t m (.started w) a m
  | init {w : Fin n} {queue : GrowingQueue (Fin n) E} (h : m.queue.startAccess w = .ok queue)
      (a : Int) : Replies t m (.init w) a { m with queue := queue }
  | finalize {w : Fin n} {queue : GrowingQueue (Fin n) E} (h : m.queue.endAccess w = .ok queue)
      (a : Int) : Replies t m (.finalize w) a { m with queue := queue }
  | remove {w : Fin n} {queue : GrowingQueue (Fin n) E} {result : Option E}
      (h : m.queue.remove w = .ok (queue, result)) {entry : Int}
      (hentry : result.isSome = decide (entry ≠ 0)) :
      Replies t m (.remove w) entry { m with queue := queue }
  | handle (w : Fin n) : Replies t m (.handle w) 0 (m.handle w)
  | isWork {w : Fin n} {work : Int} (h : m.queue.queue.slotIsEmpty w = decide (work = 0)) :
      Replies t m (.isWork w) work { m with queue := m.queue.isEmpty w }

theorem replies_of_reply {t : Thread ι n} {m m' : GrowingPlant ι n E} {q : Query n E} {a : Int}
    (h : m.reply t q a = some m') : Replies t m q a m' := by
  cases q with
  | add entry =>
      obtain ⟨rfl, h⟩ := Option.ite_none_right_eq_some.mp h
      obtain rfl := Option.some.inj h
      exact .add entry
  | isMaxSize =>
      obtain ⟨-, h⟩ := Option.ite_none_right_eq_some.mp h
      obtain rfl := Option.some.inj h
      exact .isMaxSize a
  | resize =>
      simp only [reply] at h
      split at h
      · rename_i queue hrun
        obtain rfl := Option.some.inj h
        exact .resize hrun
      · cases h
  | started w =>
      obtain rfl := Option.some.inj h
      exact .started w a
  | init w =>
      simp only [reply] at h
      split at h
      · rename_i queue hrun
        obtain rfl := Option.some.inj h
        exact .init hrun a
      · cases h
  | finalize w =>
      simp only [reply] at h
      split at h
      · rename_i queue hrun
        obtain rfl := Option.some.inj h
        exact .finalize hrun a
      · cases h
  | remove w =>
      simp only [reply] at h
      split at h
      · rename_i queue result hrun
        obtain ⟨hentry, h⟩ := Option.ite_none_right_eq_some.mp h
        obtain rfl := Option.some.inj h
        exact .remove hrun hentry
      · cases h
  | handle w =>
      obtain ⟨rfl, h⟩ := Option.ite_none_right_eq_some.mp h
      obtain rfl := Option.some.inj h
      exact .handle w
  | isWork w =>
      obtain ⟨hwork, h⟩ := Option.ite_none_right_eq_some.mp h
      obtain rfl := Option.some.inj h
      exact .isWork hwork

/-- A thread is given a call. -/
def enter (t : Thread ι n) (m : GrowingPlant ι n E) : GrowingPlant ι n E :=
  { m with added := Function.update m.added t false }

end GrowingPlant

variable [DecidableEq ι]

/-- The processor of `processor`, and its queue. -/
def growingProcessor (ι : Type) [DecidableEq ι] (n : Nat) (E : Type) :
    Machine (names ι n E) (GrowingPlant ι n E) where
  body := procedure
  main := threadMain
  entry t c m := (threadCall t c).map fun p => (m.enter t, p)
  load x m := m.control.load x
  store t x m := { m with control := m.control.store t x }
  reply t q a m := m.reply t q a

/-- A processor that was just constructed, with a queue of the given size. -/
def newGrowingProcessor (ι : Type) [DecidableEq ι] (n queueSize : Nat)
    (dataEntries : ProcessingQueueDataArray E) : State (names ι n E) (GrowingPlant ι n E) where
  prog _ := .done ()
  shared :=
    { held := fun _ => none
      asleep := fun _ => ∅
      memory :=
        { control := .new ι n
          queue := .new (Fin n) queueSize dataEntries
          added := fun _ => false
          handled := [] } }

/-- The processor with its queue runs the programs of the processor. -/
theorem growing_covers :
    (growingProcessor ι n E).Covers GrowingPlant.control (processor ι n E) where
  body := rfl
  main := rfl
  entry := by
    intro t c m m' p hentry
    obtain ⟨p', hp, hm⟩ := Option.map_eq_some_iff.mp hentry
    obtain ⟨rfl, rfl⟩ := Prod.mk.inj hm
    simp [processor, hp, GrowingPlant.enter]
  load := fun _ _ => rfl
  store := fun _ _ _ => rfl
  reply := by
    intro t q a m m' hreply
    cases GrowingPlant.replies_of_reply hreply <;> rfl

namespace Attendance

open Phase

variable {t : Thread ι n} {φ ψ : Phase n}

/-- Who resizes the queue owes nobody a signal. -/
def resizes : Phase n → Option (Phase n)
  | outside [] => some (outside [])
  | never => some never
  | _ => none

/-- The phase after an operation, a resize among them. -/
def growingStep (t : Thread ι n) (φ : Phase n) (o : Op (names ι n E)) (r : o.Result) :
    Option (Phase n) :=
  match o, r with
  | .ask .resize, _ => resizes φ
  | o, r => step t φ o r

def growingProtocol (ι : Type) [DecidableEq ι] (n : Nat) (E : Type) :
    Protocol (names ι n E) (Phase n) :=
  { protocol ι n E with trans := fun t φ o r => growingStep t φ o r }

theorem growingStep_of_ne {o : Op (names ι n E)} (h : o ≠ .ask .resize) (r : o.Result) :
    growingStep t φ o r = step t φ o r := by
  unfold growingStep
  split
  · exact absurd rfl h
  · rfl

def Spares (o : Op (names ι n E)) : Prop := o ≠ .ask .resize

/-- What does not resize the queue keeps to the protocol as before. -/
theorem conforms_growing {α : Type} {p : Code ι n E α} {Q : α → Phase n → Prop}
    (h : Conforms (protocol ι n E) t φ p Q) (hp : p.Only Spares) :
    Conforms (growingProtocol ι n E) t φ p Q :=
  h.congr hp (fun _ _ r ho => growingStep_of_ne ho r) (fun _ _ _ => rfl) (fun _ _ h => h)
    fun _ _ _ _ h => h

attribute [local simp] Spares Prog.Only.ite_iff Prog.ite_bind Worker.get Worker.set
  QueueProcessor.get QueueProcessor.set

section Spares

omit [DecidableEq ι]

theorem spares_runLoop (w : Fin n) : (Worker.runLoop w : Code ι n E Int).Only Spares := by
  simp [Worker.runLoop, Worker.doWork, Worker.waitForWork, Worker.isWork, Worker.waitWhilePaused]

theorem spares_run (w : Fin n) : (Worker.run w : Code ι n E Unit).Only Spares := by
  simp [Worker.run, Worker.handleError, Worker.signalDead]

theorem spares_signal (w : Fin n) (block : Bool) :
    (Worker.signal w block : Code ι n E Unit).Only Spares := by
  simp [Worker.signal]

theorem spares_start (w : Fin n) : (Worker.start w : Code ι n E Unit).Only Spares := by
  simp [Worker.start]

theorem spares_pause (w : Fin n) (block : Bool) :
    (Worker.pause w block : Code ι n E Unit).Only Spares := by
  simp [Worker.pause, Worker.signal]

theorem spares_resume (w : Fin n) : (Worker.resume w : Code ι n E Unit).Only Spares := by
  simp [Worker.resume]

theorem spares_stop (w : Fin n) : (Worker.stop w : Code ι n E Unit).Only Spares := by
  simp [Worker.stop, Worker.wasStarted, Worker.resume, Worker.signal, Worker.signalDead]

theorem spares_discard (w : Fin n) :
    (QueueProcessor.discard w : Code ι n E Unit).Only Spares := by
  simp [QueueProcessor.discard, Worker.join]

theorem spares_forWorkers {f : Fin n → Code ι n E Unit} (hf : ∀ w, (f w).Only Spares) :
    (QueueProcessor.forWorkers f).Only Spares := by
  have hloop : (Prog.forEach (List.finRange n) f).Only Spares := .forEach hf
  simp [QueueProcessor.forWorkers, hloop]

theorem spares_broadcast : (QueueProcessor.broadcast : Code ι n E Unit).Only Spares := by
  simp [QueueProcessor.broadcast]
  apply Only.bind (spares_forWorkers ?_) (by simp)
  intro w
  simp [spares_signal]

theorem spares_checkResizable (entry : E) (index : Int) :
    (QueueProducerInterface.checkResizable entry index : Code ι n E Int).Only Spares := by
  simp [QueueProducerInterface.checkResizable]

theorem spares_checkFull (index : Int) :
    (ResizeControls.checkFull index : Code ι n E Bool).Only Spares := by
  simp [ResizeControls.checkFull]

theorem spares_checkFullForResize (index : Int) :
    (ResizeControls.checkFullForResize index : Code ι n E Bool).Only Spares := by
  simp [ResizeControls.checkFullForResize]

theorem spares_pauseThreads (block : Bool) :
    (QueueProcessor.pause block : Code ι n E Unit).Only Spares := by
  simp [QueueProcessor.pause]
  apply Only.bind (spares_forWorkers fun w => spares_pause w false)
  intro _
  cases block with
  | false => simp
  | true => exact Only.bind (spares_forWorkers fun w => spares_pause w true) (by simp)

theorem spares_resumeThreads : (QueueProcessor.resume : Code ι n E Unit).Only Spares := by
  simp [QueueProcessor.resume]
  exact Only.bind (spares_forWorkers spares_resume) (by simp)

theorem spares_resumeAdders : (ResizeControls.resumeAdders : Code ι n E Unit).Only Spares := by
  simp [ResizeControls.resumeAdders]

theorem spares_stopThreads : (QueueProcessor.stop : Code ι n E Unit).Only Spares := by
  simp [QueueProcessor.stop]
  apply Only.bind (spares_forWorkers fun w => spares_signal w true)
  intro _
  apply Only.bind (spares_forWorkers spares_stop)
  intro _
  exact Only.bind (spares_forWorkers spares_discard) (by simp)

/-- No method of a client resizes the queue but by the loop of `addToQueue`. -/
theorem spares_method (c : ClientCall E) : (method c : Code ι n E Unit).Only Spares := by
  cases c with
  | add entry =>
      simp [method, QueueProducerInterface.add, QueueProducerInterface.addToQueue,
        ResizeControls.waitForResize, spares_broadcast]
  | start =>
      simp [method, QueueProcessor.start]
      constructor
      · apply Only.bind (Only.forEach fun w => ?_) (by simp)
        simp [QueueProcessor.startNew, spares_start]
      · exact Only.bind (Only.forEach spares_start) (by simp)
  | stop => exact spares_stopThreads
  | pause block => exact spares_pauseThreads block
  | resume => exact spares_resumeThreads
  | terminate =>
      simp [method, QueueProcessor.terminate]
      exact Only.bind spares_stopThreads (by simp)

/-- Nor does any other loop. -/
theorem spares_procedure {p : Proc n E} (hp : ∀ entry index, p ≠ .addLoop entry index) :
    (procedure p : Code ι n E Int).Only Spares := by
  cases p with
  | whileResizing => simp [procedure, ResizeControls.whileResizing]
  | whileAdding => simp [procedure, ResizeControls.whileAdding]
  | whileFull entry => simp [procedure, QueueProducerInterface.whileFull]
  | addLoop entry index => exact absurd rfl (hp entry index)
  | runLoop w => exact spares_runLoop w
  | whileAlive w => simp [procedure, Worker.whileAlive]

end Spares

/-! ## The methods -/

theorem absorbs_growing : (growingProtocol ι n E).Absorbs (· = never) where
  trans := by
    rintro t φ o r rfl
    refine ⟨never, ?_, rfl⟩
    by_cases ho : o = .ask .resize
    · subst ho
      rfl
    · exact (growingStep_of_ne ho r).trans (if_pos rfl)
  pre := absorbs.pre
  post := absorbs.post

theorem growing_ask {q : Query n E} (h : q ≠ .resize) (a : Int) :
    (growingProtocol ι n E).trans t φ (.ask q) a = step t φ (.ask q : Op (names ι n E)) a :=
  growingStep_of_ne (fun ho => h (Op.ask.inj ho)) a

theorem growing_post (p : Proc n E) (a : Int) :
    (growingProtocol ι n E).post t p φ a ψ ↔ if φ = never then ψ = never else returnsTo φ a ψ p :=
  Iff.rfl

theorem growing_resumeAdders :
    Conforms (protocol ι n E) t (outside []) ResizeControls.resumeAdders
      fun _ => (· = outside []) := by
  simp [ResizeControls.resumeAdders, Conforms, protocol_trans, step, acquires, stores, broadcasts,
    releases]

theorem growing_resumeThreads :
    Conforms (growingProtocol ι n E) t (outside [])
      QueueProducerInterface.resumeThreadsForResize fun _ => Leaves (· = outside []) := by
  apply absorbs_growing.bind (conforms_growing conforms_resume spares_resumeThreads)
  rintro _ _ rfl
  exact (conforms_growing growing_resumeAdders spares_resumeAdders).mono fun _ _ h => .inr h

/-- The loop of `addToQueue`, through a resize. -/
theorem growing_addLoop (entry : E) {index : Int} {φ : Phase n} (h : Settled index φ) :
    Conforms (growingProtocol ι n E) t φ (QueueProducerInterface.addLoop entry index)
      fun index φ => φ = never ∨ Settled index φ := by
  apply (conforms_growing (conforms_checkResizable entry h)
    (spares_checkResizable entry index)).bind
  rintro index _ ⟨owes, rfl, howes⟩
  apply (conforms_growing conforms_checkFull (spares_checkFull index)).bind
  rintro full _ ⟨rfl, hfull⟩
  cases full with
  | false => exact .inr ⟨owes, rfl, howes⟩
  | true =>
      rw [howes (by simp [hfull rfl, QueueConstants.IS_FULL])]
      intro index
      refine ⟨_, by simp [growing_ask, step, asks]; rfl, ?_⟩
      have hsettled := settled_add (n := n) index
      apply (conforms_growing conforms_checkFullForResize (spares_checkFullForResize index)).bind
      rintro full _ ⟨rfl, hfull⟩
      cases full with
      | false => exact .inr hsettled
      | true =>
          rw [hsettled.of_full (hfull rfl)]
          simp only [QueueProducerInterface.pauseThreadsForResize, ResizeControls.pauseAdders]
          refine ⟨.inr ⟨[], rfl⟩, ?_⟩
          intro a ψ hψ
          obtain rfl : ψ = outside [] := by simpa [growing_post, returnsTo] using hψ
          apply absorbs_growing.bind
            (conforms_growing (conforms_pause true) (spares_pauseThreads true))
          rintro _ _ rfl
          refine fun rounds => ⟨outside [], rfl, ?_⟩
          apply absorbs_growing.bind growing_resumeThreads
          rintro _ _ rfl
          refine fun index => ⟨_, by simp [growing_ask, step, asks]; rfl, ?_⟩
          refine ⟨.inr (settled_add index), fun a ψ hψ => ?_⟩
          rwa [growing_post, if_neg (by simp)] at hψ

/-- All methods keep to the protocol. -/
theorem growing_obeyed : (growingProtocol ι n E).Obeyed (growingProcessor ι n E) where
  body := by
    intro t p φ hp
    by_cases hloop : ∃ entry index, p = .addLoop entry index
    · obtain ⟨entry, index, rfl⟩ := hloop
      rcases hp with rfl | hp
      · exact (absorbs_growing.conforms rfl _).mono fun _ _ h => by simpa [growing_post] using h
      · apply (growing_addLoop entry hp).mono
        intro a ψ hψ
        have hne := ne_never_of_calledFrom (t := t) (p := .addLoop entry index) hp
        rw [growing_post, if_neg hne]
        exact hψ
    · exact conforms_growing (obeyed.body t p φ hp) (spares_procedure (by simpa using hloop))
  main := by
    rintro (i | w) φ hφ
    · exact conforms_growing (obeyed.main (.client i) φ hφ) trivial
    · exact conforms_growing (obeyed.main (.worker w) φ hφ) (spares_run w)
  entry := by
    rintro t c m m' p φ hentry hφ
    obtain ⟨p', hp', hentry⟩ := Option.map_eq_some_iff.mp hentry
    obtain ⟨-, rfl⟩ := Prod.mk.inj hentry
    have hserved : (servedProcessor ι n E).entry t c m.plant = some (m.plant.enter t c, p') := by
      simp [servedProcessor, hp']
    refine conforms_growing (obeyed.entry t c _ _ p' φ hserved hφ) ?_
    cases t with
    | worker w => cases hp'
    | client i =>
        obtain rfl := Option.some.inj hp'
        exact spares_method c

end Attendance

end HPQueue
