import HPQueue.Consumer.Conformance

/-!
# The bookkeeping of pauses

Whether a processor is paused is written down in three places: `isPausedFlag`, the
counter `nestedPauseCounter`, and the `isPausedFlag` of each worker.  The calls are
one after the other here, as if `startLock` were held from the beginning of each to
its end; the workers run in between as they like.

`pause` and `resume` keep the three in step.  Three things do not: a `start` of a
processor that was paused before it ran makes workers that are not paused; a `stop`
of a running processor that is paused resets the flag and leaves the counter; and the
counter comes round to zero after 2^32 pauses.

## Main results

* `obeyed` — what each call does to the three, step by step.
* `pause_bookkeeping` — they agree after each call of a run in which none of the three
  things happens.
* `start_not_paused` — a processor that is paused, and then started.
-/

namespace HPQueue

open Library.Threads Library.Transition

variable {ι : Type} {n : Nat} {E : Type}

namespace Bookkeeping

/-- What the thread is about to do to the three; `done` are the workers it is through
with. -/
inductive Phase (n : Nat)
  | idle
  /-- In `start`, before and after the processor was found not to run. -/
  | starting
  | opening
  | making (done : List (Fin n))
  /-- In `stop`, before and after the processor was found to run. -/
  | stopping
  | closing
  /-- In `pause`, before and after the processor was found not paused. -/
  | pausing
  | fresh
  | marking (done : List (Fin n))
  /-- The processor does not run. -/
  | marked
  /-- Only the counter is left. -/
  | counting
  /-- In `resume`, before and after the processor was found paused. -/
  | resuming
  | lowering
  /-- The counter was decremented. -/
  | lowered
  /-- And is zero. -/
  | last
  | freeing (done : List (Fin n))
  /-- The processor does not run. -/
  | freed
  /-- No thread ever is here. -/
  | never
  deriving DecidableEq

namespace Phase

/-- After `isRunningFlag` was found to have this value. -/
def seesRunning (b : Bool) : Phase n → Phase n
  | starting => if b then idle else opening
  | stopping => if b then closing else idle
  | fresh => if b then marking [] else marked
  | last => if b then freeing [] else freed
  | φ => φ

/-- After `isPausedFlag` was. -/
def seesPaused (b : Bool) : Phase n → Phase n
  | pausing => if b then counting else fresh
  | resuming => if b then lowering else idle
  | φ => φ

/-- After the counter was found not to be zero (`true`), or to be. -/
def seesCounter (b : Bool) : Phase n → Phase n
  | lowered => if b then idle else last
  | φ => φ

/-- After the worker's `isTerminatedFlag` was found set. -/
def findsTerminated (w : Fin n) : Phase n → Phase n
  | marking done => marking (w :: done)
  | φ => φ

/-- After the worker's `isPausedFlag` was found to have this value, or was set to it. -/
def findsPaused (w : Fin n) (b : Bool) : Phase n → Phase n
  | marking done => if b then marking (w :: done) else marking done
  | freeing done => if b then freeing done else freeing (w :: done)
  | φ => φ

/-- After `workerLock` was released. -/
def leavesWorkers : Phase n → Phase n
  | making done => if ∀ w, w ∈ done then idle else making done
  | φ => φ

/-- After a store, if it is allowed. -/
def stores (φ : Phase n) : Store n → Option (Phase n)
  | .flag .isPausedFlag true =>
      match φ with
      | marking done => if ∀ w, w ∈ done then some counting else none
      | marked => some counting
      | _ => none
  | .flag .isPausedFlag false =>
      match φ with
      | freeing done => if ∀ w, w ∈ done then some idle else none
      | freed => some idle
      | closing => some closing
      | _ => none
  | .flag .isRunningFlag true => if φ = opening then some (making []) else none
  | .flag .isRunningFlag false => if φ = closing then some idle else none
  | .nestedPauseCounter d =>
      match φ with
      | counting => if d = 1 then some idle else none
      | lowering => if d = -1 then some lowered else none
      | _ => none
  | .newWorker w =>
      match φ with
      | making done => some (making (w :: done))
      | _ => none
  | .flag (.worker w .isPausedFlag) true =>
      match φ with
      | marking done => some (marking (w :: done))
      | _ => none
  | .flag (.worker w .isPausedFlag) false =>
      match φ with
      | freeing done => some (freeing (w :: done))
      | closing => some closing
      | _ => none
  | .flag (.worker _ .isTerminatedFlag) b => if b then some φ else none
  | .flag .isTerminatedFlag _ => none
  | .flag .cleared _ => none
  | _ => some φ

end Phase

/-- The operations that matter; every other leaves the phase. -/
def step (φ : Phase n) (o : Op (names ι n E)) (r : o.Result) : Option (Phase n) :=
  if φ = .never then some .never
  else
    match o, r with
    | .load (.flag .isTerminatedFlag), b => some (if b then .never else φ)
    | .load (.flag .cleared), b => some (if b then .never else φ)
    | .load (.flag .isRunningFlag), b => some (φ.seesRunning b)
    | .load (.flag .isPausedFlag), b => some (φ.seesPaused b)
    | .load .nestedPauseCounter, b => some (φ.seesCounter b)
    | .load (.flag (.worker w .isTerminatedFlag)), b =>
        some (if b then φ.findsTerminated w else φ)
    | .load (.flag (.worker w .isPausedFlag)), b => some (φ.findsPaused w b)
    | .release .workerLock, _ => some φ.leavesWorkers
    | .store x, _ => φ.stores x
    | _, _ => some φ

/-- Where the loops are called. -/
def calledFrom (φ : Phase n) : Proc n E → Prop
  | .runLoop _ => φ = .idle
  | .whileAlive _ => φ = .closing
  | _ => False

/-- Where a call begins; the others are not made. -/
def begin : ClientCall E → Phase n
  | .start => .starting
  | .stop => .stopping
  | .pause _ => .pausing
  | .resume => .resuming
  | .add _ => .never
  | .terminate => .never

def protocol (ι : Type) (n : Nat) (E : Type) : Protocol (names ι n E) (Phase n) where
  trans _ φ o r := step φ o r
  pre _ p φ := φ = .never ∨ calledFrom φ p
  post _ _ φ _ ψ := ψ = φ
  final _ φ := φ = .never ∨ φ = .idle
  enter _ c φ := if φ = .never then .never else begin c

/-! ## The methods -/

variable {t : Thread ι n}

theorem protocol_trans (φ : Phase n) (o : Op (names ι n E)) (r : o.Result) :
    (protocol ι n E).trans t φ o r = step φ o r := rfl

theorem protocol_pre (p : Proc n E) (φ : Phase n) :
    (protocol ι n E).pre t p φ ↔ φ = .never ∨ calledFrom φ p := Iff.rfl

theorem protocol_post (p : Proc n E) (φ ψ : Phase n) (a : Int) :
    (protocol ι n E).post t p φ a ψ ↔ ψ = φ := Iff.rfl

attribute [local simp] protocol_trans protocol_pre protocol_post calledFrom step
  Phase.seesRunning Phase.seesPaused Phase.seesCounter Phase.findsTerminated Phase.findsPaused
  Phase.leavesWorkers Phase.stores Protocol.Keeps Prog.Only.ite_iff Prog.ite_bind Worker.get
  Worker.set QueueProcessor.get QueueProcessor.set

theorem absorbs : (protocol ι n E).Absorbs (· = .never) where
  trans := by
    rintro t φ o r rfl
    exact ⟨.never, by simp, rfl⟩
  pre := fun _ _ _ => .inl
  post := by
    rintro t p φ a ψ rfl rfl
    rfl

/-- The phase that a method leaves, unless nobody is there. -/
def Leaves (Q : Phase n → Prop) (φ : Phase n) : Prop := φ = .never ∨ Q φ

/-- A loop over the workers. -/
theorem conforms_loop {φ : Phase n} {f : Fin n → Code ι n E Unit}
    {I : List (Fin n) → Phase n → Prop} (hφ : φ ≠ .never) (hI : I (List.finRange n) φ)
    (hf : ∀ w ws ψ, I (w :: ws) ψ → Conforms (protocol ι n E) t ψ (f w) fun _ => I ws) :
    Conforms (protocol ι n E) t φ (QueueProcessor.forWorkers f) fun _ => Leaves (I []) := by
  apply (conforms_forWorkers (I := I) (J := fun ψ => ψ = .never) ?_ ?_ hf).mono
  · exact fun _ _ h => h.symm
  · simp [hφ]
  · simp [hφ, hI]

/-- In a phase with a list, the workers that are not left are in it. -/
def Through (φ : List (Fin n) → Phase n) (ws : List (Fin n)) (ψ : Phase n) : Prop :=
  ∃ done, ψ = φ done ∧ ∀ w, w ∈ ws ∨ w ∈ done

theorem Through.cons {φ : List (Fin n) → Phase n} {w : Fin n} {ws done : List (Fin n)}
    (h : ∀ w', w' ∈ w :: ws ∨ w' ∈ done) : Through φ ws (φ (w :: done)) := by
  refine ⟨_, rfl, fun w' => ?_⟩
  have hw := h w'
  simp only [List.mem_cons] at hw ⊢
  tauto

attribute [local simp] Conforms

theorem start_idle (w : Fin n) :
    (Worker.start w : Code ι n E Unit).Only ((protocol ι n E).Keeps t .idle) := by
  simp [Worker.start]

theorem conforms_startNew (w : Fin n) (ws : List (Fin n)) {φ : Phase n}
    (h : Through .making (w :: ws) φ) :
    Conforms (protocol ι n E) t φ (QueueProcessor.startNew w) fun _ => Through .making ws := by
  obtain ⟨done, rfl, hdone⟩ := h
  have hthrough := Through.cons (φ := .making) hdone
  simp [QueueProcessor.startNew, Worker.start, hthrough]

theorem conforms_start :
    Conforms (protocol ι n E) t .starting QueueProcessor.start
      fun _ => Leaves (· = .idle) := by
  simp [QueueProcessor.start, Leaves]
  constructor
  · apply (Conforms.forEach (I := Through .making) (fun w ws φ => conforms_startNew w ws)
      ⟨[], rfl, by simp⟩).bind
    rintro _ _ ⟨done, rfl, hdone⟩
    have hall : ∀ w, w ∈ done := by simpa using hdone
    simp [hall, Leaves]
  · apply (Conforms.of_keeps (Prog.Only.forEach start_idle)).bind
    rintro _ _ rfl
    simp [Leaves]

theorem signal_closing (w : Fin n) (block : Bool) :
    (Worker.signal w block : Code ι n E Unit).Only ((protocol ι n E).Keeps t .closing) := by
  simp [Worker.signal]

theorem stop_closing (w : Fin n) :
    (Worker.stop w : Code ι n E Unit).Only ((protocol ι n E).Keeps t .closing) := by
  simp [Worker.stop, Worker.wasStarted, Worker.resume, Worker.signal, Worker.signalDead]

theorem discard_closing (w : Fin n) :
    (QueueProcessor.discard w : Code ι n E Unit).Only ((protocol ι n E).Keeps t .closing) := by
  simp [QueueProcessor.discard, Worker.join]

theorem conforms_closing {f : Fin n → Code ι n E Unit}
    (hf : ∀ w, (f w).Only ((protocol ι n E).Keeps t .closing)) :
    Conforms (protocol ι n E) t .closing (QueueProcessor.forWorkers f)
      fun _ => Leaves (· = .closing) := by
  apply conforms_loop (I := fun _ φ => φ = .closing) (by simp) rfl
  rintro w _ _ rfl
  exact Conforms.of_keeps (hf w)

theorem conforms_stop :
    Conforms (protocol ι n E) t .stopping QueueProcessor.stop fun _ => Leaves (· = .idle) := by
  simp [QueueProcessor.stop, Leaves]
  apply absorbs.bind (conforms_closing fun w => signal_closing w true)
  rintro _ _ rfl
  apply absorbs.bind (conforms_closing stop_closing)
  rintro _ _ rfl
  apply absorbs.bind (conforms_closing discard_closing)
  rintro _ _ rfl
  simp

theorem conforms_pauseWorker (block : Bool) (w : Fin n) (ws : List (Fin n)) {φ : Phase n}
    (h : Through .marking (w :: ws) φ) :
    Conforms (protocol ι n E) t φ (Worker.pause w block) fun _ => Through .marking ws := by
  obtain ⟨done, rfl, hdone⟩ := h
  have hthrough := Through.cons (φ := .marking) hdone
  cases block <;> simp [Worker.pause, Worker.signal, hthrough]

theorem conforms_marking (block : Bool) {φ : Phase n} {done : List (Fin n)}
    (hφ : φ = .marking done) :
    Conforms (protocol ι n E) t φ (QueueProcessor.forWorkers fun w => Worker.pause w block)
      fun _ => Leaves (Through .marking []) := by
  subst hφ
  exact conforms_loop (by simp) ⟨done, rfl, by simp⟩ fun w ws _ => conforms_pauseWorker block w ws

theorem conforms_pause (block : Bool) :
    Conforms (protocol ι n E) t .pausing (QueueProcessor.pause block)
      fun _ => Leaves (· = .idle) := by
  simp [QueueProcessor.pause, Leaves]
  apply absorbs.bind (conforms_marking false rfl)
  rintro _ _ ⟨done, rfl, hdone⟩
  split
  · apply absorbs.bind (conforms_marking true rfl)
    rintro _ _ ⟨done, rfl, hdone⟩
    have hall : ∀ w, w ∈ done := by simpa using hdone
    simp [hall]
  · have hall : ∀ w, w ∈ done := by simpa using hdone
    simp [hall]

theorem conforms_resumeWorker (w : Fin n) (ws : List (Fin n)) {φ : Phase n}
    (h : Through .freeing (w :: ws) φ) :
    Conforms (protocol ι n E) t φ (Worker.resume w) fun _ => Through .freeing ws := by
  obtain ⟨done, rfl, hdone⟩ := h
  have hthrough := Through.cons (φ := .freeing) hdone
  simp [Worker.resume, hthrough]

theorem conforms_resume :
    Conforms (protocol ι n E) t .resuming QueueProcessor.resume
      fun _ => Leaves (· = .idle) := by
  simp [QueueProcessor.resume, Leaves]
  apply absorbs.bind (conforms_loop (I := Through .freeing) (by simp) ⟨[], rfl, by simp⟩
    fun w ws _ => conforms_resumeWorker w ws)
  rintro _ _ ⟨done, rfl, hdone⟩
  have hall : ∀ w, w ∈ done := by simpa using hdone
  simp [hall]

theorem runLoop_idle (w : Fin n) :
    (Worker.runLoop w : Code ι n E Int).Only ((protocol ι n E).Keeps t .idle) := by
  simp [Worker.runLoop, Worker.waitWhilePaused, Worker.waitForWork, Worker.doWork, Worker.isWork]

theorem run_idle (w : Fin n) :
    (Worker.run w : Code ι n E Unit).Only ((protocol ι n E).Keeps t .idle) := by
  simp [Worker.run, Worker.handleError, Worker.signalDead]

theorem whileAlive_closing (w : Fin n) :
    (Worker.whileAlive w : Code ι n E Int).Only ((protocol ι n E).Keeps t .closing) := by
  simp [Worker.whileAlive]

/-- All methods keep to the protocol. -/
theorem obeyed [DecidableEq ι] : (protocol ι n E).Obeyed (processor ι n E) where
  body := by
    rintro t p φ (rfl | hφ)
    · exact absorbs.conforms rfl _
    · cases p with
      | runLoop w => obtain rfl := hφ; exact Conforms.of_keeps (runLoop_idle w)
      | whileAlive w => obtain rfl := hφ; exact Conforms.of_keeps (whileAlive_closing w)
      | whileResizing | whileAdding | whileFull entry | addLoop entry index => exact hφ.elim
  main := by
    rintro (i | w) φ hφ
    · exact hφ
    · rcases hφ with rfl | rfl
      · exact (absorbs.conforms rfl _).mono fun _ _ h => .inl h
      · exact (Conforms.of_keeps (run_idle w)).mono fun _ _ h => .inr h
  entry := by
    rintro t c m m' p φ hentry hφ
    obtain ⟨i, rfl, -, rfl⟩ := entry_eq_some hentry
    rcases hφ with rfl | rfl
    · exact (absorbs.conforms rfl (method c)).mono fun _ _ h => .inl h
    · cases c with
      | add entry => exact (absorbs.conforms rfl _).mono fun _ _ h => .inl h
      | terminate => exact (absorbs.conforms rfl _).mono fun _ _ h => .inl h
      | start => exact conforms_start
      | stop => exact conforms_stop
      | pause block => exact conforms_pause block
      | resume => exact conforms_resume

/-! ## The invariant -/

/-- The flag, the counter and the workers agree. -/
structure Kept (m : Control ι n) : Prop where
  counter : m.flag .isPausedFlag = true ↔ m.nestedPauseCounter ≠ 0
  workers : m.flag .isRunningFlag = true → ∀ w, m.flag (.worker w .isTerminatedFlag) = false →
    m.flag (.worker w .isPausedFlag) = m.flag .isPausedFlag

/-- The workers that are not terminated are paused. -/
def AllPaused (m : Control ι n) : Prop :=
  m.flag .isRunningFlag = true → ∀ w, m.flag (.worker w .isTerminatedFlag) = false →
    m.flag (.worker w .isPausedFlag) = true

/-- What holds while a call is in this phase, and no other is made. -/
def Knows (m : Control ι n) : Phase n → Prop
  | .idle => Kept m
  | .starting => Kept m ∧ (m.flag .isPausedFlag = true → m.flag .isRunningFlag = true ∨ n = 0)
  | .opening => Kept m ∧ (m.flag .isPausedFlag = true → n = 0)
  | .making done => (m.flag .isPausedFlag = true ↔ m.nestedPauseCounter ≠ 0) ∧
      (m.flag .isPausedFlag = true → n = 0) ∧
        ∀ w ∈ done, m.flag (.worker w .isPausedFlag) = false
  | .stopping => Kept m ∧ (m.flag .isRunningFlag = true → m.flag .isPausedFlag = false)
  | .closing => m.flag .isPausedFlag = false ∧ m.nestedPauseCounter = 0
  | .pausing => Kept m ∧ m.nestedPauseCounter ≠ -1
  | .fresh => m.flag .isPausedFlag = false ∧ m.nestedPauseCounter = 0
  | .marking done => m.flag .isPausedFlag = false ∧ m.nestedPauseCounter = 0 ∧
      ∀ w ∈ done, m.flag (.worker w .isTerminatedFlag) = true ∨
        m.flag (.worker w .isPausedFlag) = true
  | .marked => m.flag .isRunningFlag = false ∧ m.nestedPauseCounter = 0
  | .counting => m.flag .isPausedFlag = true ∧ m.nestedPauseCounter ≠ -1 ∧ AllPaused m
  | .resuming => Kept m
  | .lowering => Kept m ∧ m.flag .isPausedFlag = true
  | .lowered => m.flag .isPausedFlag = true ∧ AllPaused m
  | .last => m.nestedPauseCounter = 0
  | .freeing done => m.nestedPauseCounter = 0 ∧
      ∀ w ∈ done, m.flag (.worker w .isPausedFlag) = false
  | .freed => m.flag .isRunningFlag = false ∧ m.nestedPauseCounter = 0
  | .never => False

/-- What threads do that are not in a call: a worker may end. -/
structure Mild (m m' : Control ι n) : Prop where
  running : m'.flag .isRunningFlag = m.flag .isRunningFlag
  paused : m'.flag .isPausedFlag = m.flag .isPausedFlag
  counter : m'.nestedPauseCounter = m.nestedPauseCounter
  workers : ∀ w, m'.flag (.worker w .isPausedFlag) = m.flag (.worker w .isPausedFlag)
  ended : ∀ w, m'.flag (.worker w .isTerminatedFlag) = false →
    m.flag (.worker w .isTerminatedFlag) = false

namespace Mild

variable {m m' : Control ι n}

theorem refl : Mild m m := ⟨rfl, rfl, rfl, fun _ => rfl, fun _ => id⟩

theorem kept (h : Mild m m') (hm : Kept m) : Kept m' where
  counter := by rw [h.paused, h.counter]; exact hm.counter
  workers hrun w hw := by
    rw [h.workers, h.paused]
    exact hm.workers (h.running.symm.trans hrun) w (h.ended w hw)

theorem allPaused (h : Mild m m') (hm : AllPaused m) : AllPaused m' := by
  intro hrun w hw
  rw [h.workers]
  exact hm (h.running.symm.trans hrun) w (h.ended w hw)

theorem knows (h : Mild m m') {φ : Phase n} (hφ : Knows m φ) : Knows m' φ := by
  cases φ with
  | idle | resuming => exact h.kept hφ
  | starting | opening | stopping | pausing | lowering =>
      simp only [Knows, h.paused, h.running, h.counter] at hφ ⊢
      exact ⟨h.kept hφ.1, hφ.2⟩
  | never => exact hφ
  | making done | freeing done | closing | fresh | marked | last | freed =>
      simpa only [Knows, h.paused, h.running, h.counter, h.workers] using hφ
  | marking done =>
      simp only [Knows, h.paused, h.counter, h.workers] at hφ ⊢
      refine ⟨hφ.1, hφ.2.1, fun w hw => (hφ.2.2 w hw).imp_left fun hterminated => ?_⟩
      by_contra hnot
      rw [h.ended w (by simpa using hnot)] at hterminated
      cases hterminated
  | counting =>
      simp only [Knows, h.paused, h.counter] at hφ ⊢
      exact ⟨hφ.1, hφ.2.1, h.allPaused hφ.2.2⟩
  | lowered =>
      simp only [Knows, h.paused] at hφ ⊢
      exact ⟨hφ.1, h.allPaused hφ.2⟩

end Mild

section Looks

variable {m : Control ι n} {φ : Phase n}

theorem knows_seesRunning (h : Knows m φ) : Knows m (φ.seesRunning (m.flag .isRunningFlag)) := by
  cases hflag : m.flag .isRunningFlag with
  | true =>
      cases φ with
      | starting => exact h.1
      | stopping =>
          have hpaused := h.2 hflag
          refine ⟨hpaused, ?_⟩
          by_contra hcounter
          rw [h.1.counter.mpr hcounter] at hpaused
          cases hpaused
      | fresh => exact ⟨h.1, h.2, by simp⟩
      | last => exact ⟨h, by simp⟩
      | _ => exact h
  | false =>
      cases φ with
      | starting => exact ⟨h.1, fun hpaused => (h.2 hpaused).resolve_left (by simp [hflag])⟩
      | stopping => exact h.1
      | fresh => exact ⟨hflag, h.2⟩
      | last => exact ⟨hflag, h⟩
      | _ => exact h

theorem knows_seesPaused (h : Knows m φ) : Knows m (φ.seesPaused (m.flag .isPausedFlag)) := by
  cases hflag : m.flag .isPausedFlag with
  | true =>
      cases φ with
      | pausing => exact ⟨hflag, h.2, fun hrun w hw => (h.1.workers hrun w hw).trans hflag⟩
      | resuming => exact ⟨h, hflag⟩
      | _ => exact h
  | false =>
      cases φ with
      | pausing =>
          refine ⟨hflag, ?_⟩
          by_contra hcounter
          rw [h.1.counter.mpr hcounter] at hflag
          cases hflag
      | resuming => exact h
      | _ => exact h

theorem knows_seesCounter (h : Knows m φ) :
    Knows m (φ.seesCounter (decide (m.nestedPauseCounter ≠ 0))) := by
  by_cases hcounter : m.nestedPauseCounter = 0
  · rw [decide_eq_false (by simpa using hcounter)]
    cases φ with
    | lowered => exact hcounter
    | _ => exact h
  · rw [decide_eq_true hcounter]
    cases φ with
    | lowered =>
        exact ⟨iff_of_true h.1 hcounter, fun hrun w hw => (h.2 hrun w hw).trans h.1.symm⟩
    | _ => exact h

theorem knows_findsTerminated {w : Fin n} (h : Knows m φ)
    (hw : m.flag (.worker w .isTerminatedFlag) = true) : Knows m (φ.findsTerminated w) := by
  cases φ with
  | marking done =>
      refine ⟨h.1, h.2.1, fun w' hw' => ?_⟩
      rcases List.mem_cons.mp hw' with rfl | hw'
      · exact .inl hw
      · exact h.2.2 w' hw'
  | _ => exact h

theorem knows_findsPaused {w : Fin n} (h : Knows m φ) :
    Knows m (φ.findsPaused w (m.flag (.worker w .isPausedFlag))) := by
  cases hflag : m.flag (.worker w .isPausedFlag) with
  | true =>
      cases φ with
      | marking done =>
          refine ⟨h.1, h.2.1, fun w' hw' => ?_⟩
          rcases List.mem_cons.mp hw' with rfl | hw'
          · exact .inr hflag
          · exact h.2.2 w' hw'
      | _ => exact h
  | false =>
      cases φ with
      | freeing done =>
          refine ⟨h.1, fun w' hw' => ?_⟩
          rcases List.mem_cons.mp hw' with rfl | hw'
          · exact hflag
          · exact h.2 w' hw'
      | _ => exact h

theorem knows_leavesWorkers (h : Knows m φ) : Knows m φ.leavesWorkers := by
  cases φ with
  | making done =>
      simp only [Phase.leavesWorkers]
      split
      · rename_i hall
        refine ⟨h.1, fun _ w _ => ?_⟩
        have hpaused : m.flag .isPausedFlag = false := by
          by_contra hpaused
          have hn := h.2.1 (by simpa using hpaused)
          exact absurd w.isLt (by omega)
        rw [hpaused]
        exact h.2.2 w (hall w)
      · exact h
  | _ => exact h

end Looks

section Stores

variable [DecidableEq ι] {m : Control ι n} {φ ψ : Phase n}

theorem mild_of_flag {f : Flag n} {b : Bool} (hrunning : f ≠ .isRunningFlag)
    (hpaused : f ≠ .isPausedFlag) (hworker : ∀ w, f ≠ .worker w .isPausedFlag)
    (hended : ∀ w, f = .worker w .isTerminatedFlag → b = true) :
    Mild m (m.store t (.flag f b)) := by
  refine ⟨by simp [Ne.symm hrunning], by simp [Ne.symm hpaused], by cases f <;> rfl,
    fun w => by simp [Ne.symm (hworker w)], fun w hw => ?_⟩
  by_cases hf : f = .worker w .isTerminatedFlag
  · have hb := hended w hf
    subst hf hb
    simp at hw
  · simpa [Ne.symm hf] using hw

/-- A store that another part of the processor makes. -/
theorem mild_of_stores {x : Store n} (hψ : φ.stores x = some ψ) (hφ : φ = .idle) :
    ψ = .idle ∧ Mild m (m.store t x) := by
  subst hφ
  cases x with
  | flag f b =>
      cases f with
      | isRunningFlag | isPausedFlag | isTerminatedFlag | cleared => cases b <;> simp at hψ
      | worker w g =>
          cases g with
          | isPausedFlag => cases b <;> simp at hψ
          | isTerminatedFlag =>
              obtain ⟨rfl, rfl⟩ : b = true ∧ .idle = ψ := by simpa using hψ
              exact ⟨rfl, mild_of_flag (by simp) (by simp) (by simp) (by simp)⟩
          | isStartedFlag | isIdleFlag | isDeadFlag | isWaitingFlag | haveWorkJoiners =>
              obtain rfl := Option.some.inj hψ
              exact ⟨rfl, mild_of_flag (by simp) (by simp) (by simp) (by simp)⟩
      | resizing | processingWorker w =>
          obtain rfl := Option.some.inj hψ
          exact ⟨rfl, mild_of_flag (by simp) (by simp) (by simp) (by simp)⟩
  | addingCount d =>
      obtain rfl := Option.some.inj hψ
      exact ⟨rfl, rfl, rfl, rfl, fun _ => rfl, fun _ => id⟩
  | nestedPauseCounter d => simp at hψ
  | newWorker w => simp at hψ

theorem stores_flags {x : Store n} (hψ : φ.stores x = some ψ) :
    (m.store t x).flag .isTerminatedFlag = m.flag .isTerminatedFlag ∧
      (m.store t x).flag .cleared = m.flag .cleared := by
  cases x with
  | flag f b => cases f <;> simp at hψ ⊢
  | addingCount d | nestedPauseCounter d | newWorker w => exact ⟨rfl, rfl⟩

omit [DecidableEq ι] in
theorem stores_ne_never {x : Store n} (hφ : φ ≠ .never) (hψ : φ.stores x = some ψ) :
    ψ ≠ .never := by
  rintro rfl
  unfold Phase.stores at hψ
  repeat' split at hψ
  all_goals simp_all

theorem knows_setsPaused {b : Bool} (h : Knows m φ)
    (hψ : φ.stores (.flag .isPausedFlag b) = some ψ) :
    Knows (m.store t (.flag .isPausedFlag b)) ψ := by
  cases b with
  | true =>
      cases φ <;> simp at hψ
      · obtain ⟨hall, rfl⟩ := hψ
        refine ⟨by simp, by rw [store_flag_nestedPauseCounter, h.2.1]; decide, fun _ w hw => ?_⟩
        have hw : m.flag (.worker w .isTerminatedFlag) = false := by simpa using hw
        simpa using (h.2.2 w (hall w)).resolve_left (by simp [hw])
      · subst hψ
        refine ⟨by simp, by rw [store_flag_nestedPauseCounter, h.2]; decide, fun hrun => ?_⟩
        simp [h.1] at hrun
  | false =>
      cases φ <;> simp at hψ
      · subst hψ
        exact ⟨by simp, by simp [h.2]⟩
      · obtain ⟨hall, rfl⟩ := hψ
        exact ⟨by simp [h.1], fun _ w _ => by simp [h.2 w (hall w)]⟩
      · subst hψ
        exact ⟨by simp [h.2], fun hrun => by simp [h.1] at hrun⟩

theorem knows_setsRunning {b : Bool} (h : Knows m φ)
    (hψ : φ.stores (.flag .isRunningFlag b) = some ψ) :
    Knows (m.store t (.flag .isRunningFlag b)) ψ := by
  cases b with
  | true =>
      obtain ⟨rfl, rfl⟩ : φ = .opening ∧ .making [] = ψ := by simpa using hψ
      exact ⟨by simpa using h.1.counter, by simpa using h.2, by simp⟩
  | false =>
      obtain ⟨rfl, rfl⟩ : φ = .closing ∧ .idle = ψ := by simpa using hψ
      exact ⟨by simp [h.1, h.2], by simp⟩

theorem knows_counts {d : UInt32} (h : Knows m φ)
    (hψ : φ.stores (.nestedPauseCounter d) = some ψ) :
    Knows (m.store t (.nestedPauseCounter d)) ψ := by
  cases φ <;> simp at hψ
  · obtain ⟨rfl, rfl⟩ := hψ
    refine ⟨iff_of_true h.1 ?_, fun hrun w hw => (h.2.2 hrun w hw).trans h.1.symm⟩
    intro hzero
    apply h.2.1
    calc m.nestedPauseCounter
        = m.nestedPauseCounter + 1 - 1 := (UInt32.add_sub_cancel _ _).symm
      _ = 0 - 1 := congrArg (· - 1) hzero
      _ = -1 := UInt32.zero_sub 1
  · obtain ⟨rfl, rfl⟩ := hψ
    exact ⟨h.2, fun hrun w hw => (h.1.workers hrun w hw).trans h.2⟩

theorem knows_newWorker {w : Fin n} (h : Knows m φ) (hψ : φ.stores (.newWorker w) = some ψ) :
    Knows (m.store t (.newWorker w)) ψ := by
  cases φ <;> simp at hψ
  subst hψ
  refine ⟨h.1, h.2.1, fun w' hw' => ?_⟩
  by_cases hw : w' = w
  · simp [Control.store, hw]
  · have hpaused := h.2.2 w' ((List.mem_cons.mp hw').resolve_left hw)
    simpa [Control.store, hw] using hpaused

theorem knows_setsWorker {w : Fin n} {b : Bool} (h : Knows m φ)
    (hψ : φ.stores (.flag (.worker w .isPausedFlag) b) = some ψ) :
    Knows (m.store t (.flag (.worker w .isPausedFlag) b)) ψ := by
  have hothers : ∀ {w' : Fin n} {done : List (Fin n)}, w' ∈ w :: done → w' = w ∨
      w' ∈ done ∧ (m.store t (.flag (.worker w .isPausedFlag) b)).flag (.worker w' .isPausedFlag) =
        m.flag (.worker w' .isPausedFlag) := by
    intro w' done hw'
    by_cases hw : w' = w
    · exact .inl hw
    · exact .inr ⟨(List.mem_cons.mp hw').resolve_left hw, by simp [hw]⟩
  cases b with
  | true =>
      cases φ <;> simp at hψ
      subst hψ
      refine ⟨by simpa using h.1, by simpa using h.2.1, fun w' hw' => ?_⟩
      rcases hothers hw' with rfl | ⟨hdone, hsame⟩
      · exact .inr (by simp)
      · rw [hsame]
        simpa using h.2.2 w' hdone
  | false =>
      cases φ <;> simp at hψ
      · subst hψ
        exact ⟨by simpa using h.1, by simpa using h.2⟩
      · subst hψ
        refine ⟨by simpa using h.1, fun w' hw' => ?_⟩
        rcases hothers hw' with rfl | ⟨hdone, hsame⟩
        · simp
        · rw [hsame]
          exact h.2 w' hdone

/-- A store that the protocol allows. -/
theorem knows_stores {x : Store n} (h : Knows m φ) (hψ : φ.stores x = some ψ) :
    Knows (m.store t x) ψ := by
  have hmild : Mild m (m.store t x) → some φ = some ψ → Knows (m.store t x) ψ := by
    intro hmild hstay
    obtain rfl := Option.some.inj hstay
    exact hmild.knows h
  cases x with
  | flag f b =>
      cases f with
      | isPausedFlag => exact knows_setsPaused h hψ
      | isRunningFlag => exact knows_setsRunning h hψ
      | isTerminatedFlag | cleared => simp at hψ
      | worker w g =>
          cases g with
          | isPausedFlag => exact knows_setsWorker h hψ
          | isTerminatedFlag =>
              obtain ⟨rfl, rfl⟩ : b = true ∧ φ = ψ := by simpa using hψ
              exact (mild_of_flag (by simp) (by simp) (by simp) (by simp)).knows h
          | isStartedFlag | isIdleFlag | isDeadFlag | isWaitingFlag | haveWorkJoiners =>
              exact hmild (mild_of_flag (by simp) (by simp) (by simp) (by simp)) hψ
      | resizing | processingWorker w =>
          exact hmild (mild_of_flag (by simp) (by simp) (by simp) (by simp)) hψ
  | addingCount d => exact hmild ⟨rfl, rfl, rfl, fun _ => rfl, fun _ => id⟩ hψ
  | nestedPauseCounter d => exact knows_counts h hψ
  | newWorker w => exact knows_newWorker h hψ

end Stores

/-- How the phases of the threads relate to the memory: one call at a time. -/
structure Inv (φ : Thread ι n → Phase n) (m : Control ι n) : Prop where
  alone : ∀ t u, φ t ≠ .idle → φ u ≠ .idle → t = u
  workers : ∀ w, φ (.worker w) = .idle
  possible : ∀ t, φ t ≠ .never
  terminated : m.flag .isTerminatedFlag = false
  cleared : m.flag .cleared = false
  knows : ∀ t, (∀ u, u ≠ t → φ u = .idle) → Knows m (φ t)
  kept : (∀ t, φ t = .idle) → Kept m

namespace Inv

variable [DecidableEq ι] {φ : Thread ι n → Phase n} {m m' : Control ι n} {ψ : Phase n}

/-- One thread moves. -/
theorem move (h : Inv φ m) (hidle : φ t = .idle → ψ = .idle ∧ Mild m m')
    (hknows : Knows m (φ t) → Knows m' ψ)
    (hterminated : m'.flag .isTerminatedFlag = m.flag .isTerminatedFlag)
    (hcleared : m'.flag .cleared = m.flag .cleared) (hpossible : ψ ≠ .never) :
    Inv (Function.update φ t ψ) m' := by
  have hmoved : (∀ u, u ≠ t → φ u = .idle) → Knows m' ψ := fun hothers =>
    hknows (h.knows t hothers)
  have hactive : ∀ u, Function.update φ t ψ u ≠ .idle → φ u ≠ .idle := by
    intro u hu hφ
    by_cases hut : u = t
    · subst hut
      exact hu (by rw [Function.update_self]; exact (hidle hφ).1)
    · exact hu (by rwa [Function.update_of_ne hut])
  constructor
  · exact fun u v hu hv => h.alone u v (hactive u hu) (hactive v hv)
  · intro w
    by_contra hw
    exact hactive _ hw (h.workers w)
  · intro u
    by_cases hut : u = t
    · subst hut
      rwa [Function.update_self]
    · rw [Function.update_of_ne hut]
      exact h.possible u
  · exact hterminated.trans h.terminated
  · exact hcleared.trans h.cleared
  · intro u hothers
    by_cases hut : u = t
    · subst hut
      rw [Function.update_self]
      apply hmoved
      intro v hv
      have hv' := hothers v hv
      rwa [Function.update_of_ne hv] at hv'
    · have hψ : ψ = .idle := by simpa using hothers t (Ne.symm hut)
      rw [Function.update_of_ne hut]
      by_cases hφ : φ t = .idle
      · refine (hidle hφ).2.knows (h.knows u fun v hv => ?_)
        by_cases hvt : v = t
        · rwa [hvt]
        · have hv' := hothers v hv
          rwa [Function.update_of_ne hvt] at hv'
      · -- the call of `t` has ended: nobody is in a call now
        have hidle' : ∀ v, v ≠ t → φ v = .idle := by
          intro v hv
          by_contra hne
          exact hv (h.alone v t hne hφ)
        rw [hidle' u hut, ← hψ]
        exact hmoved hidle'
  · intro hall
    have hψ : ψ = .idle := by simpa using hall t
    subst hψ
    apply hmoved
    intro u hut
    have hu := hall u
    rwa [Function.update_of_ne hut] at hu

theorem look (h : Inv φ m) (hidle : φ t = .idle → ψ = .idle) (hknows : Knows m (φ t) → Knows m ψ)
    (hpossible : ψ ≠ .never) : Inv (Function.update φ t ψ) m :=
  h.move (fun hφ => ⟨hidle hφ, .refl⟩) hknows rfl rfl hpossible

end Inv

variable [DecidableEq ι]

theorem inv_new : Inv (fun _ => .idle) (newProcessor ι n E).shared.memory where
  alone _ _ ht := absurd rfl ht
  workers _ := rfl
  possible _ := by simp
  terminated := rfl
  cleared := rfl
  knows _ _ := ⟨by simp [newProcessor, Control.new], by simp [newProcessor, Control.new]⟩
  kept _ := ⟨by simp [newProcessor, Control.new], by simp [newProcessor, Control.new]⟩

/-- What one move preserves. -/
theorem inv_of_effect {φ : Thread ι n → Phase n} {s s' : Shared (names ι n E) (Control ι n)}
    {ψ : Phase n} {o : Op (names ι n E)} {r : o.Result} (h : Inv φ s.memory)
    (heffect : (processor ι n E).Effect s t o r s') (hψ : step (φ t) o r = some ψ) :
    Inv (Function.update φ t ψ) s'.memory := by
  unfold step at hψ
  rw [if_neg (h.possible t)] at hψ
  have hdefault : some (φ t) = some ψ → Function.update φ t ψ = φ := by
    intro hstay
    obtain rfl := Option.some.inj hstay
    exact Function.update_eq_self t φ
  have hpossible := h.possible t
  cases heffect with
  | @acquire l hfree => rwa [hdefault hψ]
  | @release l hheld =>
      cases l with
      | workerLock =>
          obtain rfl := Option.some.inj hψ
          apply h.look
          · intro hφ
            rw [hφ]
            rfl
          · exact knows_leavesWorkers
          · cases hφ : φ t <;> simp_all
            split <;> simp
      | startLock | resizeQueuesLock | workerStartLock w | isWorkLock w | hasDiedLock w
      | hasPausedLock w => rwa [hdefault hψ]
  | @wait c l hheld => rwa [hdefault hψ]
  | @resume c l hawake hfree => rwa [hdefault hψ]
  | unheard hnone => rwa [hdefault hψ]
  | signal hasleep => rwa [hdefault hψ]
  | broadcast => rwa [hdefault hψ]
  | @load x =>
      cases x with
      | flag f =>
          cases f with
          | isTerminatedFlag =>
              have hflag : (processor ι n E).load (.flag .isTerminatedFlag) s.memory = false :=
                h.terminated
              rw [hflag] at hψ
              rwa [hdefault hψ]
          | cleared =>
              have hflag : (processor ι n E).load (.flag .cleared) s.memory = false := h.cleared
              rw [hflag] at hψ
              rwa [hdefault hψ]
          | isRunningFlag =>
              obtain rfl := Option.some.inj hψ
              apply h.look
              · intro hφ
                rw [hφ]
                rfl
              · exact knows_seesRunning
              · cases hφ : φ t <;> simp_all <;> split <;> simp
          | isPausedFlag =>
              obtain rfl := Option.some.inj hψ
              apply h.look
              · intro hφ
                rw [hφ]
                rfl
              · exact knows_seesPaused
              · cases hφ : φ t <;> simp_all <;> split <;> simp
          | worker w g =>
              cases g with
              | isTerminatedFlag =>
                  obtain rfl := Option.some.inj hψ
                  split
                  · rename_i hw
                    apply h.look
                    · intro hφ
                      rw [hφ]
                      rfl
                    · exact fun hknows => knows_findsTerminated hknows hw
                    · cases hφ : φ t <;> simp_all
                  · rwa [Function.update_eq_self]
              | isPausedFlag =>
                  obtain rfl := Option.some.inj hψ
                  apply h.look
                  · intro hφ
                    rw [hφ]
                    rfl
                  · exact knows_findsPaused
                  · cases hφ : φ t <;> simp_all <;> split <;> simp
              | isStartedFlag | isIdleFlag | isDeadFlag | isWaitingFlag | haveWorkJoiners =>
                  rwa [hdefault hψ]
          | resizing | processingWorker w => rwa [hdefault hψ]
      | addingCount => rwa [hdefault hψ]
      | nestedPauseCounter =>
          obtain rfl := Option.some.inj hψ
          apply h.look
          · intro hφ
            rw [hφ]
            rfl
          · exact knows_seesCounter
          · cases hφ : φ t <;> simp_all
            split
            all_goals simp
  | @store x =>
      obtain ⟨hterminated, hcleared⟩ := stores_flags (t := t) (m := s.memory) hψ
      exact h.move (mild_of_stores hψ) (fun hknows => knows_stores hknows hψ) hterminated hcleared
        (stores_ne_never hpossible hψ)
  | @ask q a m hreply =>
      obtain rfl : s.memory = m := by simpa [processor] using hreply
      rwa [hdefault hψ]
  | spawn => rwa [hdefault hψ]

omit [DecidableEq ι] in
theorem idle_of_done {φ : Thread ι n → Phase n} {s : State (names ι n E) (Control ι n)}
    (hobeys : (protocol ι n E).Obeys φ s) (h : Inv φ s.shared.memory)
    (hdone : ∀ i, (s.prog (.client i)).head = none) (t : Thread ι n) : φ t = .idle := by
  cases t with
  | client i =>
      have hi := hobeys (.client i)
      have hnone := hdone i
      cases hprog : s.prog (.client i) with
      | op o k => simp [hprog, Prog.head] at hnone
      | done a =>
          rw [hprog] at hi
          exact Or.resolve_left hi (h.possible _)
  | worker w => exact h.workers w

/-- Calls that are not interleaved, on a processor that is not terminated. -/
def OneAtATime (s : State (names ι n E) (Control ι n)) : Label (names ι n E) → Prop
  | .enter _ c => (∀ i, (s.prog (.client i)).head = none) ∧
      match c with
      | .start => True
      | .stop => True
      | .pause _ => True
      | .resume => True
      | .add _ => False
      | .terminate => False
  | _ => True

/-- The condition on a call: `start` finds the processor running, or not paused, or
without workers; `stop` finds it not running, or not paused; and `pause` finds room
in the counter. -/
def InStep (s : State (names ι n E) (Control ι n)) : Label (names ι n E) → Prop
  | .enter _ c =>
      let m := s.shared.memory
      match c with
      | .start => m.flag .isPausedFlag = true → m.flag .isRunningFlag = true ∨ n = 0
      | .stop => m.flag .isRunningFlag = true → m.flag .isPausedFlag = false
      | .pause _ => m.nestedPauseCounter ≠ -1
      | _ => True
  | _ => True

theorem inv_of_reachable {s : State (names ι n E) (Control ι n)}
    (h : (((processor ι n E).system (newProcessor ι n E)).restrict fun s l =>
      OneAtATime s l ∧ InStep s l).Reachable s) :
    ∃ φ, (protocol ι n E).Obeys φ s ∧ Inv φ s.shared.memory := by
  apply Protocol.invariant (J := fun φ s => Inv φ s.memory) obeyed _ inv_new _ h
  · exact fun t => .inr rfl
  · intro φ s l φ' shared hobeys hinv hC hmoves
    cases hmoves with
    | act _ hexec htrans _ =>
        rw [Protocol.births_eq fun _ _ => rfl]
        exact inv_of_effect hinv (Machine.effect_of_exec hexec) htrans
    | silent => exact hinv
    | spurious => exact hinv
    | @enter t c m p _ hdone hentry hfinal =>
        obtain ⟨i, rfl, rfl, -⟩ := entry_eq_some hentry
        obtain ⟨⟨hatomic, hcall⟩, hstep⟩ := hC
        have hidle := idle_of_done hobeys hinv hatomic
        have hkept := hinv.kept hidle
        have hbegin : (protocol ι n E).enter (.client i) c (φ (.client i)) = begin c := by
          simp [protocol, hidle]
        rw [hbegin]
        have hnot : begin c ≠ (.idle : Phase n) := by cases c <;> simp [begin]
        have hφ : ∀ u, Function.update φ (.client i) (begin c) u ≠ .idle → u = .client i := by
          intro u hu
          by_contra hut
          exact hu (by rw [Function.update_of_ne hut, hidle])
        constructor
        · exact fun u v hu hv => (hφ u hu).trans (hφ v hv).symm
        · intro w
          by_contra hw
          cases hφ _ hw
        · intro u
          by_cases hut : u = .client i
          · subst hut
            rw [Function.update_self]
            cases c <;> simp [begin] at hcall ⊢
          · rw [Function.update_of_ne hut, hidle]
            simp
        · exact hinv.terminated
        · exact hinv.cleared
        · intro u hothers
          have hut : u = .client i := by
            by_contra hut
            have hidle' := hothers (.client i) (Ne.symm hut)
            rw [Function.update_self] at hidle'
            exact hnot hidle'
          subst hut
          rw [Function.update_self]
          cases c with
          | start => exact ⟨hkept, hstep⟩
          | stop => exact ⟨hkept, hstep⟩
          | pause block => exact ⟨hkept, hstep⟩
          | resume => exact hkept
          | add entry => exact hcall.elim
          | terminate => exact hcall.elim
        · intro hall
          have hi := hall (.client i)
          rw [Function.update_self] at hi
          exact absurd hi hnot

end Bookkeeping

open Bookkeeping

/-- The worker was started, and is not terminated. -/
def Live (m : Control ι n) (w : Fin n) : Prop :=
  m.flag (.worker w .isStartedFlag) = true ∧ m.flag (.worker w .isTerminatedFlag) = false

/-- The three places agree on whether the processor is paused. -/
structure PauseBookkeeping (m : Control ι n) : Prop where
  counter : m.flag .isPausedFlag = true ↔ 0 < m.nestedPauseCounter
  workers : m.flag .isRunningFlag = true → ∀ w, Live m w →
    m.flag (.worker w .isPausedFlag) = m.flag .isPausedFlag

variable [DecidableEq ι]

/-- They agree whenever no call is under way. -/
theorem pause_bookkeeping {s : State (names ι n E) (Control ι n)}
    (h : (((processor ι n E).system (newProcessor ι n E)).restrict fun s l =>
      OneAtATime s l ∧ InStep s l).Reachable s)
    (hdone : ∀ i, (s.prog (.client i)).head = none) : PauseBookkeeping s.shared.memory := by
  obtain ⟨φ, hobeys, hinv⟩ := inv_of_reachable h
  have hidle := idle_of_done hobeys hinv hdone
  have hkept := hinv.kept (idle_of_done hobeys hinv hdone)
  constructor
  · rw [hkept.counter, UInt32.pos_iff_ne_zero]
  · exact fun hrun w hw => hkept.workers hrun w hw.2

instance (m : Control ι n) (w : Fin n) : Decidable (Live m w) :=
  inferInstanceAs (Decidable (_ ∧ _))

instance [Fintype ι] (s : State (names ι n E) (Control ι n)) : (l : Label (names ι n E)) →
    Decidable (OneAtATime s l)
  | .enter _ c =>
      match c with
      | .start | .stop | .pause _ | .resume => inferInstanceAs (Decidable (_ ∧ True))
      | .add _ | .terminate => inferInstanceAs (Decidable (_ ∧ False))
  | .step _ _ => .isTrue trivial
  | .spurious _ => .isTrue trivial

instance (s : State (names ι n E) (Control ι n)) : (l : Label (names ι n E)) →
    Decidable (InStep s l)
  | .enter _ .start => inferInstanceAs (Decidable (_ → _ ∨ _))
  | .enter _ .stop => inferInstanceAs (Decidable (_ → _))
  | .enter _ (.pause _) => inferInstanceAs (Decidable (_ ≠ _))
  | .enter _ .resume => .isTrue trivial
  | .enter _ (.add _) => .isTrue trivial
  | .enter _ .terminate => .isTrue trivial
  | .step _ _ => .isTrue trivial
  | .spurious _ => .isTrue trivial

/-- A processor is started, and then paused. -/
theorem pause_bookkeeping_of_started :
    ∃ s : State (names (Fin 1) 1 Unit) (Control (Fin 1) 1),
      ((∀ i, (s.prog (.client i)).head = none) ∧ s.shared.memory.flag .isPausedFlag = true ∧
        Live s.shared.memory 0) ∧ PauseBookkeeping s.shared.memory := by
  obtain ⟨s, hs, hdone, h⟩ := (processor (Fin 1) 1 Unit).exists_of_follow (newProcessor _ _ _)
    (fun s l => OneAtATime s l ∧ InStep s l)
    (fun s => (∀ i, (s.prog (.client i)).head = none) ∧
      s.shared.memory.flag .isPausedFlag = true ∧ Live s.shared.memory 0)
    ([.enter (.client 0) .start] ++ List.replicate 18 (.step (.client 0) .go) ++
      [.enter (.client 0) (.pause false)] ++ List.replicate 19 (.step (.client 0) .go))
    (by decide +kernel)
  exact ⟨s, ⟨hdone, h⟩, pause_bookkeeping hs hdone⟩

/-- A processor is paused, and then started: its worker is not paused. -/
theorem start_not_paused :
    ∃ s : State (names (Fin 1) 1 Unit) (Control (Fin 1) 1),
      (((processor (Fin 1) 1 Unit).system (newProcessor (Fin 1) 1 Unit)).restrict
        OneAtATime).Reachable s ∧ (∀ i, (s.prog (.client i)).head = none) ∧
        ¬ PauseBookkeeping s.shared.memory := by
  obtain ⟨s, hs, hdone, hrun, hlive, hpaused, hworker⟩ :=
    (processor (Fin 1) 1 Unit).exists_of_follow (newProcessor _ _ _) OneAtATime
      (fun s => (∀ i, (s.prog (.client i)).head = none) ∧
        s.shared.memory.flag .isRunningFlag = true ∧ Live s.shared.memory 0 ∧
        s.shared.memory.flag .isPausedFlag = true ∧
        s.shared.memory.flag (.worker 0 .isPausedFlag) = false)
      ([.enter (.client 0) (.pause true)] ++ List.replicate 7 (.step (.client 0) .go) ++
        [.enter (.client 0) .start] ++ List.replicate 18 (.step (.client 0) .go))
      (by decide +kernel)
  refine ⟨s, hs, hdone, ?_⟩
  intro hkept
  have hsame := hkept.workers hrun 0 hlive
  rw [hworker, hpaused] at hsame
  cases hsame

end HPQueue
