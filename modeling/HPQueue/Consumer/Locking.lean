import HPQueue.Library.LockOrder
import HPQueue.Consumer.Conformance

/-!
# The mutexes of a processor

`startLock` comes before `workerLock`, this before the mutexes of a worker, and
`hasPausedLock` before `isWorkLock`: `Worker::pause` signals the worker while it holds
the one, and nobody may acquire them in the other order.  No other mutex is acquired
while `resizeQueuesLock` is held.  A worker sleeps with no mutex; a client does so in
`addToQueue`, and with `startLock` and `workerLock` in `stop` and in a `pause` that blocks.

## Main results

* `obeyed` — all methods keep to this.
* `mutexes_in_order` — so mutexes alone never stop the processor, whatever clients call.
-/

namespace HPQueue

open Library.Threads Prog Relation

variable {ι : Type} {n : Nat} {E : Type}

namespace Locking

open Lock

def rank : Lock n → Nat
  | startLock => 0
  | resizeQueuesLock => 0
  | workerLock => 1
  | workerStartLock _ => 2
  | hasPausedLock _ => 2
  | isWorkLock _ => 3
  | hasDiedLock _ => 3

theorem rank_le (l : Lock n) : rank l ≤ 3 := by
  cases l <;> simp [rank]

/-- A worker sleeps with no mutex. -/
def sleeps : Thread ι n → List (Lock n) → Bool
  | .worker _, ls => ls = []
  | .client _, ls => ls = [] ∨ ls = [workerLock, startLock]

/-- Who calls the loops, and with which mutexes. -/
def around : Thread ι n → Proc n E → Option (List (Lock n))
  | .client _, .whileResizing => some [resizeQueuesLock]
  | .client _, .whileAlive w => some [hasDiedLock w, workerLock, startLock]
  | .client _, .whileAdding | .client _, .whileFull _ | .client _, .addLoop _ _ => some []
  | .worker v, .runLoop w => if v = w then some [] else none
  | _, _ => none

def discipline (ι : Type) (n : Nat) (E : Type) : Discipline (names ι n E) where
  rank := rank
  sleeps := sleeps
  around := around

variable [DecidableEq ι]

/-- A thread in the phase `ls` holds these mutexes. -/
def protocol (ι : Type) [DecidableEq ι] (n : Nat) (E : Type) :
    Protocol (names ι n E) (List (Lock n)) :=
  (discipline ι n E).protocol

/-! ## What the methods acquire -/

variable {t : Thread ι n} {ls : List (Lock n)} {l : Lock n} {w : Fin n}

/-- The mutexes come before this one. -/
def Before (ls : List (Lock n)) (l : Lock n) : Prop := ∀ k ∈ ls, rank k < rank l

instance (ls : List (Lock n)) (l : Lock n) : Decidable (Before ls l) :=
  inferInstanceAs (Decidable (∀ k ∈ ls, _))

@[simp] theorem before_nil : Before [] l := by simp [Before]

@[simp] theorem before_cons {k : Lock n} :
    Before (k :: ls) l ↔ rank k < rank l ∧ Before ls l := by simp [Before]

theorem trans_eq (o : Op (names ι n E)) (r : o.Result) :
    (protocol ι n E).trans t ls o r =
      match o with
      | .acquire l => if Before ls l then some (l :: ls) else none
      | .release l | .wait _ l => if l ∈ ls then some (ls.erase l) else none
      | .resume _ l => if Before ls l ∧ sleeps t ls then some (l :: ls) else none
      | .signal _ | .broadcast _ | .load _ | .store _ | .ask _ | .call _ | .spawn _ => some ls := by
  cases o <;> rfl

theorem pre_iff (p : Proc n E) : (protocol ι n E).pre t p ls ↔ around t p = some ls := Iff.rfl

theorem post_iff (p : Proc n E) (a : Int) {φ : List (Lock n)} :
    (protocol ι n E).post t p ls a φ ↔ φ = ls := Iff.rfl

attribute [local simp] Conforms Conforms.ite_iff Prog.ite_bind trans_eq pre_iff post_iff sleeps
  around Worker.get Worker.set QueueProcessor.get QueueProcessor.set

/-- The program leaves the mutexes as it found them. -/
abbrev Returns {α : Type} (t : Thread ι n) (ls : List (Lock n)) (p : Code ι n E α) : Prop :=
  Conforms (protocol ι n E) t ls p fun _ φ => φ = ls

theorem returns_signal (hls : Before ls (isWorkLock w)) :
    Returns t ls (Worker.signal w false : Code ι n E Unit) := by
  simp [Returns, Worker.signal, hls]

theorem returns_signal_block {i : ι} :
    Returns (.client i) [workerLock, startLock] (Worker.signal w true : Code ι n E Unit) := by
  simp [Returns, Worker.signal, rank]

/-! ### A worker's own thread -/

theorem returns_waitWhilePaused :
    Returns (.worker w) [] (Worker.waitWhilePaused w : Code ι n E Unit) := by
  simp [Returns, Worker.waitWhilePaused]

theorem returns_waitForWork :
    Returns (.worker w) [] (Worker.waitForWork w : Code ι n E Unit) := by
  simp [Returns, Worker.waitForWork, Worker.isWork]

theorem returns_doWork : Returns t ls (Worker.doWork w : Code ι n E Worker.Outcome) := by
  simp [Returns, Worker.doWork]

theorem returns_runLoop : Returns (.worker w) [] (Worker.runLoop w : Code ι n E Int) := by
  simp [Returns, Worker.runLoop]
  constructor
  · apply returns_doWork.bind
    rintro outcome _ rfl
    by_cases hnone : outcome = .none
    · simp only [hnone, if_true]
      apply returns_waitForWork.bind
      rintro _ _ rfl
      simp
    · simp [hnone]
  · apply returns_waitWhilePaused.bind
    rintro _ _ rfl
    simp

theorem returns_run : Returns (.worker w) [] (Worker.run w : Code ι n E Unit) := by
  simp [Returns, Worker.run, Worker.handleError, Worker.signalDead]

/-! ### The methods of a worker, as the processor calls them -/

variable {i : ι}

theorem returns_start :
    Returns t [workerLock, startLock] (Worker.start w : Code ι n E Unit) := by
  simp [Returns, Worker.start, rank]

theorem returns_join :
    Returns (.client i) [workerLock, startLock] (Worker.join w : Code ι n E Unit) := by
  simp [Returns, Worker.join, rank]

theorem returns_pause (block : Bool) :
    Returns (.client i) [workerLock, startLock] (Worker.pause w block : Code ι n E Unit) := by
  cases block <;> simp [Returns, Worker.pause, Worker.signal, rank]

theorem returns_resume :
    Returns t [workerLock, startLock] (Worker.resume w : Code ι n E Unit) := by
  simp [Returns, Worker.resume, rank]

theorem returns_stop :
    Returns t [workerLock, startLock] (Worker.stop w : Code ι n E Unit) := by
  simp [Returns, Worker.stop, Worker.wasStarted, Worker.resume, Worker.signal, Worker.signalDead,
    rank]

/-! ### The processor -/

theorem returns_forEach {f : Fin n → Code ι n E Unit} (hf : ∀ w, Returns t ls (f w))
    (ws : List (Fin n)) : Returns t ls (Prog.forEach ws f) := by
  apply Conforms.forEach (I := fun _ φ => φ = ls) ?_ rfl
  rintro w _ _ rfl
  exact hf w

theorem returns_forWorkers {f : Fin n → Code ι n E Unit} (hf : ∀ w, Returns t ls (f w)) :
    Returns t ls (QueueProcessor.forWorkers f) := by
  simp [Returns, QueueProcessor.forWorkers]
  exact returns_forEach hf _

theorem returns_startNew :
    Returns t [workerLock, startLock] (QueueProcessor.startNew w : Code ι n E Unit) := by
  simp [Returns, QueueProcessor.startNew]
  exact returns_start

theorem returns_startProcessor : Returns t [] (QueueProcessor.start : Code ι n E Unit) := by
  simp [Returns, QueueProcessor.start, rank]
  constructor
  · apply (returns_forEach (fun _ => returns_startNew) _).bind
    rintro _ _ rfl
    simp
  · apply (returns_forEach (fun _ => returns_start) _).bind
    rintro _ _ rfl
    simp

theorem returns_stopProcessor :
    Returns (.client i) [] (QueueProcessor.stop : Code ι n E Unit) := by
  simp [Returns, QueueProcessor.stop, rank]
  apply (returns_forWorkers fun _ => returns_signal_block).bind
  rintro _ _ rfl
  apply (returns_forWorkers fun _ => returns_stop).bind
  rintro _ _ rfl
  apply (returns_forWorkers fun w => ?_).bind
  · rintro _ _ rfl
    simp
  · simp [Returns, QueueProcessor.discard]
    exact returns_join

theorem returns_broadcast : Returns t [] (QueueProcessor.broadcast : Code ι n E Unit) := by
  simp [Returns, QueueProcessor.broadcast]
  apply (returns_forWorkers fun w => ?_).bind
  · rintro _ _ rfl
    simp
  · simp [Returns]
    exact returns_signal (by simp [rank])

theorem returns_terminate :
    Returns (.client i) [] (QueueProcessor.terminate : Code ι n E Unit) := by
  simp [Returns, QueueProcessor.terminate]
  apply returns_stopProcessor.bind
  rintro _ _ rfl
  simp

theorem returns_pauseProcessor (block : Bool) :
    Returns (.client i) [] (QueueProcessor.pause block : Code ι n E Unit) := by
  simp [Returns, QueueProcessor.pause, rank]
  apply (returns_forWorkers fun _ => returns_pause false).bind
  rintro _ _ rfl
  cases block with
  | false => simp
  | true =>
      simp
      apply (returns_forWorkers fun _ => returns_pause true).bind
      rintro _ _ rfl
      simp

theorem returns_resumeProcessor : Returns t [] (QueueProcessor.resume : Code ι n E Unit) := by
  simp [Returns, QueueProcessor.resume, rank]
  apply (returns_forWorkers fun _ => returns_resume).bind
  rintro _ _ rfl
  simp

/-! ### Producers -/

/-- `checkFull` returns with `resizeQueuesLock` if the queue was full. -/
theorem conforms_checkFull (index : Int) :
    Conforms (protocol ι n E) (.client i) [] (ResizeControls.checkFull index)
      fun full φ => φ = if full then [resizeQueuesLock] else [] := by
  simp [ResizeControls.checkFull]

theorem conforms_checkFullForResize (index : Int) :
    Conforms (protocol ι n E) t [resizeQueuesLock] (ResizeControls.checkFullForResize index)
      fun _ φ => φ = [] := by
  simp [ResizeControls.checkFullForResize]

theorem returns_pauseThreadsForResize :
    Returns (.client i) []
      (QueueProducerInterface.pauseThreadsForResize : Code ι n E Unit) := by
  simp [Returns, QueueProducerInterface.pauseThreadsForResize, ResizeControls.pauseAdders]
  exact returns_pauseProcessor true

theorem returns_resumeThreadsForResize :
    Returns t [] (QueueProducerInterface.resumeThreadsForResize : Code ι n E Unit) := by
  apply returns_resumeProcessor.bind
  rintro _ _ rfl
  simp [ResizeControls.resumeAdders]

theorem returns_addLoop (entry : E) (index : Int) :
    Returns (.client i) [] (QueueProducerInterface.addLoop entry index : Code ι n E Int) := by
  have hcheckResizable : Returns (.client i) []
      (QueueProducerInterface.checkResizable entry index : Code ι n E Int) := by
    simp [Returns, QueueProducerInterface.checkResizable]
  apply hcheckResizable.bind
  rintro index _ rfl
  apply (conforms_checkFull index).bind
  rintro (_ | _) _ rfl
  · simp
  intro index
  refine ⟨_, rfl, ?_⟩
  apply (conforms_checkFullForResize index).bind
  rintro (_ | _) _ rfl
  · simp
  apply returns_pauseThreadsForResize.bind
  rintro _ _ rfl
  intro resized
  refine ⟨_, rfl, ?_⟩
  apply (returns_resumeThreadsForResize (t := .client i)).bind
  rintro _ _ rfl
  simp

theorem returns_add (entry : E) :
    Returns (.client i) [] (QueueProducerInterface.add entry : Code ι n E Unit) := by
  have haddToQueue : Returns (.client i) []
      (QueueProducerInterface.addToQueue entry : Code ι n E Int) := by
    simp [Returns, QueueProducerInterface.addToQueue, ResizeControls.waitForResize]
  apply haddToQueue.bind
  rintro index _ rfl
  by_cases hindex : 0 ≤ index
  · simp only [if_pos hindex]
    exact returns_broadcast
  · simp [hindex]

theorem returns_method (c : ClientCall E) : Returns (.client i) [] (method c : Code ι n E Unit) := by
  cases c with
  | add entry => exact returns_add entry
  | start => exact returns_startProcessor
  | stop => exact returns_stopProcessor
  | pause block => exact returns_pauseProcessor block
  | resume => exact returns_resumeProcessor
  | terminate => exact returns_terminate

/-! ### The machine -/

theorem returns_procedure {p : Proc n E} (hp : around t p = some ls) :
    Returns t ls (procedure p : Code ι n E Int) := by
  cases t with
  | client i =>
      cases p with
      | whileResizing =>
          obtain rfl := Option.some.inj hp
          simp [Returns, procedure, ResizeControls.whileResizing]
      | whileAdding =>
          obtain rfl := Option.some.inj hp
          simp [Returns, procedure, ResizeControls.whileAdding]
      | whileFull entry =>
          obtain rfl := Option.some.inj hp
          simp [Returns, procedure, QueueProducerInterface.whileFull]
      | addLoop entry index =>
          obtain rfl := Option.some.inj hp
          exact returns_addLoop entry index
      | runLoop w => cases hp
      | whileAlive w =>
          obtain rfl := Option.some.inj hp
          simp [Returns, procedure, Worker.whileAlive, rank]
  | worker v =>
      cases p with
      | runLoop w =>
          obtain ⟨rfl, hls⟩ := Option.ite_none_right_eq_some.mp hp
          obtain rfl := Option.some.inj hls
          exact returns_runLoop
      | whileResizing | whileAdding | whileFull entry | addLoop entry index | whileAlive w =>
          cases hp

/-- All methods acquire mutexes in order, and return without any. -/
theorem obeyed : (protocol ι n E).Obeyed (processor ι n E) where
  body := fun _ _ _ => returns_procedure
  main := by
    rintro (i | w) _ rfl
    · exact rfl
    · exact returns_run
  entry := by
    rintro t c m m' p _ hentry rfl
    obtain ⟨i, rfl, -, rfl⟩ := entry_eq_some hentry
    exact returns_method c

theorem answers : (processor ι n E).Answers := fun _ _ m => ⟨0, m, rfl⟩

theorem holds_of_reachable {s : State (names ι n E) (Control ι n)}
    (h : ((processor ι n E).system (newProcessor ι n E)).Reachable s) :
    ∃ φ, (discipline ι n E).protocol.Obeys φ s ∧ Discipline.Holds φ s.shared :=
  Discipline.holds_of_reachable obeyed (fun _ => rfl) (fun _ => rfl) h

end Locking

variable [DecidableEq ι]

open Locking

/-- Whatever clients call, a mutex is released, and waited with, by the thread that holds
it, and no call returns with a mutex.  A worker sleeps with none, a client with none or
with `startLock` and `workerLock`. -/
theorem mutexes_held {s : State (names ι n E) (Control ι n)}
    (h : ((processor ι n E).system (newProcessor ι n E)).Reachable s) :
    (∀ t l, (s.prog t).head = some (.release l) ∨ (∃ c, (s.prog t).head = some (.wait c l)) →
      s.shared.held l = some t) ∧
    (∀ t, (s.prog t).head = none → ∀ l, s.shared.held l ≠ some t) ∧
    (∀ w, s.Asleep (.worker w) → ∀ l, s.shared.held l ≠ some (.worker w)) ∧
    ∀ i, s.Asleep (.client i) → (∀ l, s.shared.held l ≠ some (.client i)) ∨
      ∀ l, s.shared.held l = some (.client i) ↔ l = .startLock ∨ l = .workerLock := by
  obtain ⟨φ, hobeys, hholds⟩ := holds_of_reachable h
  refine ⟨?_, ?_, ?_, ?_⟩
  · rintro t l (hhead | ⟨c, hhead⟩)
    · exact Discipline.held_of_head hobeys hholds hhead (.inl rfl)
    · exact Discipline.held_of_head hobeys hholds hhead (.inr ⟨c, rfl⟩)
  · exact fun t hhead l => Discipline.held_of_done hobeys hholds hhead
  · intro w hasleep l hheld
    have hnone : φ (.worker w) = [] :=
      of_decide_eq_true (Discipline.sleeps_of_asleep hobeys hasleep)
    have hmem := (hholds.iff (.worker w) l).mpr hheld
    rw [hnone] at hmem
    cases hmem
  · intro i hasleep
    have hsleeps : φ (.client i) = [] ∨ φ (.client i) = [.workerLock, .startLock] :=
      of_decide_eq_true (Discipline.sleeps_of_asleep hobeys hasleep)
    rcases hsleeps with hnone | hboth
    · left
      intro l hheld
      have hmem := (hholds.iff (.client i) l).mpr hheld
      rw [hnone] at hmem
      cases hmem
    · right
      intro l
      rw [← hholds.iff, hboth]
      simp [or_comm]

/-- Mutexes alone never stop the processor: no threads wait for each other's mutexes in a
circle, and whoever is in a call waits, from holder to holder, for a thread that can take
a step, or that waits for a condition, or for the end of the thread it creates anew. -/
theorem mutexes_in_order {s : State (names ι n E) (Control ι n)}
    (h : ((processor ι n E).system (newProcessor ι n E)).Reachable s) (t : Thread ι n) :
    ¬ TransGen s.WaitsFor t t ∧
    ((s.prog t).head ≠ none → ∃ u, ReflTransGen s.WaitsFor t u ∧
      ((processor ι n E).Enabled s u ∨ s.Asleep u ∨ s.Creates u)) := by
  obtain ⟨φ, hobeys, hholds⟩ := holds_of_reachable h
  exact ⟨Discipline.not_waits_self hobeys hholds t,
    Discipline.exists_enabled answers hobeys hholds rank_le⟩

/-- One client sleeps in a `pause` that blocks, a second waits for its `startLock`. -/
def blockedByPause : List (Label (names Bool 1 Unit)) :=
  [.enter (.client true) .start] ++ List.replicate 18 (.step (.client true) .go) ++
    [.enter (.client true) (.pause true)] ++ List.replicate 23 (.step (.client true) .go) ++
    [.enter (.client false) .start, .step (.client false) .go]

theorem mutexes_held_of_blockedByPause : ∃ s : State (names Bool 1 Unit) (Control Bool 1),
    s.Asleep (.client true) ∧
    ∀ l, s.shared.held l = some (.client true) ↔ l = .startLock ∨ l = .workerLock := by
  obtain ⟨s, hs, ⟨hhead, hasleep⟩, hheld⟩ := (processor Bool 1 Unit).exists_of_follow
    (newProcessor Bool 1 Unit) (fun _ _ => True)
    (fun s => ((s.prog (.client true)).head = some (.resume (.isIdle 0) (.hasPausedLock 0)) ∧
      .client true ∈ s.shared.asleep (.isIdle 0)) ∧
      s.shared.held .startLock = some (.client true))
    blockedByPause (by decide)
  refine ⟨s, ⟨_, _, hhead, hasleep⟩, ?_⟩
  obtain ⟨-, -, -, hclients⟩ := mutexes_held hs.of_restrict
  exact (hclients true ⟨_, _, hhead, hasleep⟩).resolve_left fun hnone => hnone _ hheld

theorem mutexes_in_order_of_blockedByPause :
    ∃ s : State (names Bool 1 Unit) (Control Bool 1), s.WaitsFor (.client false) (.client true) ∧
      ∃ u, ReflTransGen s.WaitsFor (.client false) u ∧
        ((processor Bool 1 Unit).Enabled s u ∨ s.Asleep u ∨ s.Creates u) := by
  obtain ⟨s, hs, hhead, hwanted, hheld⟩ := (processor Bool 1 Unit).exists_of_follow
    (newProcessor Bool 1 Unit) (fun _ _ => True)
    (fun s => (s.prog (.client false)).head ≠ none ∧
      s.wanted (.client false) = some .startLock ∧
      s.shared.held .startLock = some (.client true))
    blockedByPause (by decide)
  exact ⟨s, ⟨_, hwanted, hheld⟩, (mutexes_in_order hs.of_restrict (.client false)).2 hhead⟩

end HPQueue
