import HPQueue.Consumer.Conformance

/-!
# Stopping a paused processor

`stop` holds `startLock` while it waits, in `signal`, until each worker has no work
left.  A worker that is paused does not look for work, so that it never tells; and
`resume`, which would release it, waits for `startLock`.

`stop` gets there exactly if the workers are paused when it acquires the lock: while
it holds the lock, nobody else can pause them.

## Main results

* `obeyed` — the positions of all methods relative to `stop`.
* `stop_not_on_paused` — if no `stop` acquires the lock while a worker is paused,
  `stop` never waits for a paused worker.
* `stop_deadlocks` — one client pauses, another stops: nobody can go on.
-/

namespace HPQueue

open Library.Threads Library.Transition

variable {ι : Type} {n : Nat} {E : Type}

namespace Stopping

/-- Where a thread stands. -/
inductive Phase (n : Nat)
  | out
  /-- In `stop`, which found the processor running without the lock. -/
  | called
  /-- With `startLock`. -/
  | holding
  /-- In `stop` with `startLock`, which has to look again. -/
  | entered
  /-- In `stop` with `startLock`, which found the processor running. -/
  | stopping
  /-- So, and found the worker not terminated. -/
  | live (w : Fin n)
  /-- So, and found the worker started. -/
  | waiting (w : Fin n)
  deriving DecidableEq

namespace Phase

/-- Whether the thread holds `startLock`. -/
def holds : Phase n → Bool
  | out | called => false
  | holding | entered | stopping | live _ | waiting _ => true

/-- Whether the next operation of the thread is known. -/
def strict : Phase n → Bool
  | called | entered | live _ => true
  | out | holding | stopping | waiting _ => false

def acquired : Phase n → Option (Phase n)
  | out => some holding
  | called => some entered
  | _ => none

def released : Phase n → Option (Phase n)
  | holding => some out
  | stopping => some out
  | _ => none

/-- After `isRunningFlag` was found to have this value. -/
def seesRunning (b : Bool) : Phase n → Option (Phase n)
  | out => some (if b then called else out)
  | entered => some (if b then stopping else holding)
  | φ => if φ.strict then none else some φ

/-- After the worker's `isTerminatedFlag` was. -/
def seesTerminated (w : Fin n) (b : Bool) : Phase n → Option (Phase n)
  | stopping => some (if b then stopping else live w)
  | φ => if φ.strict then none else some φ

/-- After the worker's `isStartedFlag` was. -/
def seesStarted (w : Fin n) (b : Bool) : Phase n → Option (Phase n)
  | live w' => if w' = w then some (if b then waiting w else stopping) else none
  | φ => if φ.strict then none else some φ

/-- After the thread has begun to wait for the worker's work. -/
def waits (w : Fin n) : Phase n → Option (Phase n)
  | out => some out
  | waiting w' => if w' = w then some (waiting w) else none
  | _ => none

def wakes (w : Fin n) : Phase n → Option (Phase n)
  | out => some out
  | waiting w' => if w' = w then some stopping else none
  | _ => none

theorem eq_of_waits {w : Fin n} {φ ψ : Phase n} (h : φ.waits w = some ψ) : ψ = φ := by
  cases φ <;> simp [waits] at h
  · exact h.symm
  · obtain ⟨rfl, rfl⟩ := h
    rfl

/-- Whether the thread may store this. -/
def mayStore (φ : Phase n) : Store n → Bool
  | .flag .isRunningFlag _ => φ = .holding ∨ φ = .stopping
  | .flag (.worker _ .isPausedFlag) true => φ = .holding
  | .flag (.worker _ .isStartedFlag) _ => φ = .holding
  | .flag (.worker _ .isTerminatedFlag) false => false
  | .newWorker _ => φ = .holding
  | _ => !φ.strict

end Phase

/-- The operations that matter; every other leaves the phase. -/
def step (φ : Phase n) : (o : Op (names ι n E)) → o.Result → Option (Phase n)
  | .acquire .startLock, _ => φ.acquired
  | .release .startLock, _ => φ.released
  | .wait _ .startLock, _ => none
  | .resume _ .startLock, _ => none
  | .wait (.isWorkWaiting w) _, _ => φ.waits w
  | .resume (.isWorkWaiting w) _, _ => φ.wakes w
  | .load (.flag .isRunningFlag), b => φ.seesRunning b
  | .load (.flag (.worker w .isTerminatedFlag)), b => φ.seesTerminated w b
  | .load (.flag (.worker w .isStartedFlag)), b => φ.seesStarted w b
  | .store x, _ => if φ.mayStore x then some φ else none
  | _, _ => if φ.strict then none else some φ

/-- Where the loops are called, and where they return. -/
def calledFrom : Proc n E → Phase n
  | .whileAlive _ => .stopping
  | _ => .out

def protocol (ι : Type) (n : Nat) (E : Type) : Protocol (names ι n E) (Phase n) where
  trans _ φ o r := step φ o r
  pre _ p φ := φ = calledFrom p
  post _ p _ _ φ := φ = calledFrom p
  final _ φ := φ = .out

/-! ## The methods -/

variable {t : Thread ι n}

theorem protocol_trans (φ : Phase n) (o : Op (names ι n E)) (r : o.Result) :
    (protocol ι n E).trans t φ o r = step φ o r := rfl

theorem protocol_pre (p : Proc n E) (φ : Phase n) :
    (protocol ι n E).pre t p φ ↔ φ = calledFrom p := Iff.rfl

theorem protocol_post (p : Proc n E) (φ ψ : Phase n) (a : Int) :
    (protocol ι n E).post t p φ a ψ ↔ ψ = calledFrom p := Iff.rfl

attribute [local simp] protocol_trans protocol_pre protocol_post calledFrom step
  Phase.strict Phase.acquired Phase.released Phase.seesRunning Phase.seesTerminated
  Phase.seesStarted Phase.waits Phase.wakes Phase.mayStore Protocol.Keeps Prog.Only.ite_iff
  Prog.ite_bind Worker.get Worker.set QueueProcessor.get QueueProcessor.set

/-- Operations of threads that do not hold `startLock`. -/
abbrev Outside (t : Thread ι n) : Op (names ι n E) → Prop := (protocol ι n E).Keeps t .out

/-- Operations of threads that hold it, and do not stop the processor. -/
abbrev Inside (t : Thread ι n) : Op (names ι n E) → Prop := (protocol ι n E).Keeps t .holding

/-- Operations of `stop`, once it has found the processor running. -/
abbrev InStop (t : Thread ι n) : Op (names ι n E) → Prop := (protocol ι n E).Keeps t .stopping

theorem broadcast_outside : (QueueProcessor.broadcast : Code ι n E Unit).Only (Outside t) := by
  simp [QueueProcessor.broadcast]
  apply (only_forWorkers (by simp) fun w => ?_).bind
  · simp
  · simp [Worker.signal]

theorem runLoop_outside (w : Fin n) : (Worker.runLoop w : Code ι n E Int).Only (Outside t) := by
  simp [Worker.runLoop, Worker.waitWhilePaused, Worker.waitForWork, Worker.doWork, Worker.isWork]

theorem run_outside (w : Fin n) : (Worker.run w : Code ι n E Unit).Only (Outside t) := by
  simp [Worker.run, Worker.handleError, Worker.signalDead]

theorem start_inside (w : Fin n) : (Worker.start w : Code ι n E Unit).Only (Inside t) := by
  simp [Worker.start]

theorem startNew_inside (w : Fin n) :
    (QueueProcessor.startNew w : Code ι n E Unit).Only (Inside t) := by
  simp [QueueProcessor.startNew, Worker.start]

theorem pause_inside (w : Fin n) (block : Bool) :
    (Worker.pause w block : Code ι n E Unit).Only (Inside t) := by
  simp [Worker.pause, Worker.signal]

theorem resume_inside (w : Fin n) : (Worker.resume w : Code ι n E Unit).Only (Inside t) := by
  simp [Worker.resume]

theorem stop_inStop (w : Fin n) : (Worker.stop w : Code ι n E Unit).Only (InStop t) := by
  simp [Worker.stop, Worker.wasStarted, Worker.resume, Worker.signal, Worker.signalDead]

theorem discard_inStop (w : Fin n) :
    (QueueProcessor.discard w : Code ι n E Unit).Only (InStop t) := by
  simp [QueueProcessor.discard, Worker.join]

theorem whileAlive_inStop (w : Fin n) :
    (Worker.whileAlive w : Code ι n E Int).Only (InStop t) := by
  simp [Worker.whileAlive]

attribute [local simp] Conforms

theorem conforms_signal (w : Fin n) :
    Conforms (protocol ι n E) t .stopping (Worker.signal w true) fun _ φ => φ = .stopping := by
  simp [Worker.signal]

theorem conforms_stop :
    Conforms (protocol ι n E) t .out QueueProcessor.stop fun _ φ => φ = .out := by
  simp [QueueProcessor.stop]
  have hsignals : Conforms (protocol ι n E) t .stopping
      (QueueProcessor.forWorkers fun w => Worker.signal w true) fun _ φ => φ = .stopping := by
    apply (conforms_forWorkers (I := fun _ φ => φ = .stopping) (J := fun φ => φ = .stopping)
      (by simp) (by simp) ?_).mono
    · simp
    · rintro w _ _ rfl
      exact conforms_signal w
  apply hsignals.bind
  rintro _ _ rfl
  apply (Conforms.of_keeps (only_forWorkers (by simp) stop_inStop)).bind
  rintro _ _ rfl
  apply (Conforms.of_keeps (only_forWorkers (by simp) discard_inStop)).bind
  rintro _ _ rfl
  simp

theorem conforms_start :
    Conforms (protocol ι n E) t .out QueueProcessor.start fun _ φ => φ = .out := by
  simp [QueueProcessor.start]
  constructor
  · apply (Conforms.of_keeps (Prog.Only.forEach startNew_inside)).bind
    rintro _ _ rfl
    simp
  · apply (Conforms.of_keeps (Prog.Only.forEach start_inside)).bind
    rintro _ _ rfl
    simp

theorem conforms_pause (block : Bool) :
    Conforms (protocol ι n E) t .out (QueueProcessor.pause block) fun _ φ => φ = .out := by
  simp [QueueProcessor.pause]
  apply (Conforms.of_keeps (only_forWorkers (by simp) fun w => pause_inside w false)).bind
  rintro _ _ rfl
  split
  · apply (Conforms.of_keeps (only_forWorkers (by simp) fun w => pause_inside w true)).bind
    rintro _ _ rfl
    simp
  · simp

theorem conforms_resume :
    Conforms (protocol ι n E) t .out QueueProcessor.resume fun _ φ => φ = .out := by
  simp [QueueProcessor.resume]
  apply (Conforms.of_keeps (only_forWorkers (by simp) resume_inside)).bind
  rintro _ _ rfl
  simp

theorem conforms_terminate :
    Conforms (protocol ι n E) t .out QueueProcessor.terminate fun _ φ => φ = .out := by
  simp [QueueProcessor.terminate]
  apply conforms_stop.bind
  rintro _ _ rfl
  simp

theorem producing_outside (o : Op (names ι n E)) (h : Producing o) : Outside t o := by
  cases o with
  | acquire l | release l | broadcast c =>
      obtain rfl := h
      simp
  | wait c l =>
      obtain ⟨rfl, rfl⟩ := h
      simp
  | load x => rcases h with rfl | rfl <;> simp
  | store x => rcases h with ⟨b, rfl⟩ | ⟨d, rfl⟩ <;> simp
  | ask q => simp
  | call p =>
      cases p with
      | whileResizing | whileAdding | whileFull entry => simp
      | addLoop entry index | runLoop w | whileAlive w => cases h
  | resume c l | signal c | spawn u => cases h

theorem conforms_addLoop (entry : E) (index : Int) :
    Conforms (protocol ι n E) t .out (QueueProducerInterface.addLoop entry index)
      fun _ φ => φ = .out := by
  apply (conforms_addLoop_of (.nowhere _) producing_outside (by simp [Loops])
    ((conforms_pause true).mono fun _ _ => .inr)
    (conforms_resume.mono fun _ _ => .inr) entry index).mono
  simp

theorem conforms_add (entry : E) :
    Conforms (protocol ι n E) t .out (QueueProducerInterface.add entry) fun _ φ => φ = .out := by
  apply (conforms_add_of (.nowhere _) producing_outside (by simp [Loops]) (by simp)
    ((Conforms.of_keeps broadcast_outside).mono fun _ _ => .inr) entry).mono
  simp

/-- All methods keep to the protocol. -/
theorem obeyed [DecidableEq ι] : (protocol ι n E).Obeyed (processor ι n E) where
  body := by
    intro t p φ hpre
    cases p with
    | whileResizing =>
        obtain rfl := hpre
        show Conforms _ _ _ ResizeControls.whileResizing _
        simp [ResizeControls.whileResizing]
    | whileAdding =>
        obtain rfl := hpre
        show Conforms _ _ _ ResizeControls.whileAdding _
        simp [ResizeControls.whileAdding]
    | whileFull entry =>
        obtain rfl := hpre
        intro index
        simp
        split <;> simp
    | addLoop entry index => obtain rfl := hpre; exact conforms_addLoop entry index
    | runLoop w => obtain rfl := hpre; exact Conforms.of_keeps (runLoop_outside w)
    | whileAlive w => obtain rfl := hpre; exact Conforms.of_keeps (whileAlive_inStop w)
  main := by
    rintro (i | w) φ rfl
    · exact rfl
    · exact Conforms.of_keeps (run_outside w)
  entry := by
    rintro t c m m' p φ hentry rfl
    obtain ⟨i, rfl, -, rfl⟩ := entry_eq_some hentry
    cases c with
    | add entry => exact conforms_add entry
    | start => exact conforms_start
    | stop => exact conforms_stop
    | pause block => exact conforms_pause block
    | resume => exact conforms_resume
    | terminate => exact conforms_terminate

/-! ## The invariant -/

/-- The worker is paused, and will not tell that it has no work left. -/
def KeepsWaiting (m : Control ι n) (w : Fin n) : Prop :=
  m.flag (.worker w .isPausedFlag) = true ∧ m.flag (.worker w .isStartedFlag) = true ∧
    m.flag (.worker w .isTerminatedFlag) = false

/-- What a thread can rely on, because it holds `startLock`. -/
def Knows (m : Control ι n) : Phase n → Prop
  | .out => True
  | .called => True
  | .holding => True
  | .entered => m.flag .isRunningFlag = true → ∀ w, ¬ KeepsWaiting m w
  | .stopping => ∀ w, ¬ KeepsWaiting m w
  | .live w => (∀ w, ¬ KeepsWaiting m w) ∧
      (m.flag (.worker w .isPausedFlag) = true → m.flag (.worker w .isStartedFlag) = false)
  | .waiting w => (∀ w, ¬ KeepsWaiting m w) ∧ m.flag (.worker w .isPausedFlag) = false

theorem knows_of_not_holds {m : Control ι n} {φ : Phase n} (h : φ.holds = false) : Knows m φ := by
  cases φ <;> simp [Phase.holds] at h <;> trivial

/-- What threads that do not hold `startLock` may do: no worker is paused or started. -/
structure Calmer (m m' : Control ι n) : Prop where
  running : m'.flag .isRunningFlag = m.flag .isRunningFlag
  paused : ∀ w, m'.flag (.worker w .isPausedFlag) = true → m.flag (.worker w .isPausedFlag) = true
  started : ∀ w, m'.flag (.worker w .isStartedFlag) = m.flag (.worker w .isStartedFlag)
  terminated : ∀ w, m.flag (.worker w .isTerminatedFlag) = true →
    m'.flag (.worker w .isTerminatedFlag) = true

namespace Calmer

variable {m m' : Control ι n}

theorem of_flags (h : ∀ w, m'.flag (.worker w .isPausedFlag) = m.flag (.worker w .isPausedFlag) ∧
    m'.flag (.worker w .isStartedFlag) = m.flag (.worker w .isStartedFlag) ∧
    m'.flag (.worker w .isTerminatedFlag) = m.flag (.worker w .isTerminatedFlag))
    (hrunning : m'.flag .isRunningFlag = m.flag .isRunningFlag) : Calmer m m' where
  running := hrunning
  paused w := by rw [(h w).1]; exact id
  started w := (h w).2.1
  terminated w := by rw [(h w).2.2]; exact id

theorem refl : Calmer m m := of_flags (fun _ => ⟨rfl, rfl, rfl⟩) rfl

theorem keepsWaiting (h : Calmer m m') {w : Fin n} (hw : KeepsWaiting m' w) : KeepsWaiting m w := by
  obtain ⟨hpaused, hstarted, hterminated⟩ := hw
  refine ⟨h.paused w hpaused, by rw [← h.started w, hstarted], ?_⟩
  by_contra hnot
  rw [h.terminated w (by simpa using hnot)] at hterminated
  cases hterminated

theorem knows (h : Calmer m m') {φ : Phase n} (hφ : Knows m φ) : Knows m' φ := by
  cases φ with
  | out | called | holding => trivial
  | entered => exact fun hrun w hw => hφ (by rw [← h.running, hrun]) w (h.keepsWaiting hw)
  | stopping => exact fun w hw => hφ w (h.keepsWaiting hw)
  | live w =>
      refine ⟨fun w hw => hφ.1 w (h.keepsWaiting hw), fun hpaused => ?_⟩
      rw [h.started w]
      exact hφ.2 (h.paused w hpaused)
  | waiting w =>
      refine ⟨fun w hw => hφ.1 w (h.keepsWaiting hw), ?_⟩
      by_contra hnot
      have hpaused := h.paused w (by simpa using hnot)
      rw [hφ.2] at hpaused
      cases hpaused

end Calmer

structure Inv (φ : Thread ι n → Phase n) (s : Shared (names ι n E) (Control ι n)) : Prop where
  holds : ∀ t, (φ t).holds = true ↔ s.held .startLock = some t
  knows : ∀ t, Knows s.memory (φ t)

namespace Inv

variable {φ : Thread ι n → Phase n} {s s' : Shared (names ι n E) (Control ι n)} {ψ : Phase n}

theorem not_holds_of_ne (h : Inv φ s) {u : Thread ι n} (ht : (φ t).holds = true) (hut : u ≠ t) :
    (φ u).holds = false := by
  by_contra hu
  have hu := (h.holds u).mp (by simpa using hu)
  exact hut (Option.some.inj (hu.symm.trans ((h.holds t).mp ht)))

variable [DecidableEq ι]

/-- A thread moves: it knows what its phase says, and either it holds the lock, so that
nobody else relies on anything, or it makes nothing worse. -/
theorem move (h : Inv φ s)
    (hholds : ∀ u, (Function.update φ t ψ u).holds = true ↔ s'.held .startLock = some u)
    (hψ : Knows s'.memory ψ)
    (hothers : (φ t).holds = true ∨ Calmer s.memory s'.memory) :
    Inv (Function.update φ t ψ) s' := by
  refine ⟨hholds, fun u => ?_⟩
  by_cases hut : u = t
  · subst hut
    simpa using hψ
  · rw [Function.update_of_ne hut]
    rcases hothers with ht | hcalmer
    · exact knows_of_not_holds (h.not_holds_of_ne ht hut)
    · exact hcalmer.knows (h.knows u)

/-- So, with the lock as it was. -/
theorem moveWith (h : Inv φ s) (hheld : s'.held .startLock = s.held .startLock)
    (hsame : ψ.holds = (φ t).holds) (hψ : Knows s'.memory ψ)
    (hothers : (φ t).holds = true ∨ Calmer s.memory s'.memory) :
    Inv (Function.update φ t ψ) s' := by
  apply h.move _ hψ hothers
  intro u
  rw [hheld, ← h.holds u]
  by_cases hut : u = t
  · subst hut
    simp [hsame]
  · simp [hut]

omit [DecidableEq ι] in
/-- A thread stays where it is, and makes nothing worse. -/
theorem stay (h : Inv φ s) (hheld : s'.held .startLock = s.held .startLock)
    (hcalmer : Calmer s.memory s'.memory) : Inv φ s' where
  holds u := by rw [hheld]; exact h.holds u
  knows u := hcalmer.knows (h.knows u)

theorem acquire (h : Inv φ s) (hfree : s.held .startLock = none) (hψ : (φ t).acquired = some ψ)
    (hentered : ψ = .entered → Knows s.memory .entered) :
    Inv (Function.update φ t ψ) (s.lock .startLock (some t)) := by
  have hnone : ∀ u, (φ u).holds = false := by
    intro u
    have hu := (h.holds u).not
    simpa [hfree] using hu
  apply h.move
  · intro u
    by_cases hut : u = t
    · subst hut
      cases hφ : φ u <;> simp [hφ, Phase.acquired] at hψ <;> subst hψ <;>
        simp [Shared.lock, Phase.holds]
    · simp [Shared.lock, hut, hnone u, Ne.symm hut]
  · cases hφ : φ t <;> simp [hφ, Phase.acquired] at hψ <;> subst hψ
    · trivial
    · exact hentered rfl
  · exact .inr Calmer.refl

theorem release (h : Inv φ s) (hheld : s.held .startLock = some t)
    (hψ : (φ t).released = some ψ) :
    Inv (Function.update φ t ψ) (s.lock .startLock none) := by
  have hout : ψ = .out := by
    cases hφ : φ t <;> simp [hφ, Phase.released] at hψ <;> exact hψ.symm
  subst hout
  apply h.move
  · intro u
    by_cases hut : u = t
    · subst hut
      simp [Shared.lock, Phase.holds]
    · simp [Shared.lock, hut, h.not_holds_of_ne ((h.holds t).mpr hheld) hut]
  · trivial
  · exact .inr Calmer.refl

/-- What is shared, and the phase of others, stay as they are. -/
theorem look (h : Inv φ s) (hsame : ψ.holds = (φ t).holds)
    (hψ : Knows s.memory (φ t) → Knows s.memory ψ) : Inv (Function.update φ t ψ) s :=
  h.moveWith rfl hsame (hψ (h.knows t)) (.inr Calmer.refl)

/-- A thread finds `isRunningFlag` with the value it has. -/
theorem seesRunning (h : Inv φ s) (hψ : (φ t).seesRunning (s.memory.flag .isRunningFlag) = some ψ) :
    Inv (Function.update φ t ψ) s := by
  apply h.look
  · cases hφ : φ t <;> cases hflag : s.memory.flag .isRunningFlag <;>
      simp [hφ, hflag] at hψ <;> subst hψ <;> rfl
  · intro hknows
    cases hφ : φ t <;> cases hflag : s.memory.flag .isRunningFlag <;>
      simp [hφ, hflag] at hψ <;> subst hψ <;> rw [hφ] at hknows <;> first
        | trivial
        | exact hknows
        | exact hknows hflag

theorem seesTerminated (h : Inv φ s) {w : Fin n}
    (hψ : (φ t).seesTerminated w (s.memory.flag (.worker w .isTerminatedFlag)) = some ψ) :
    Inv (Function.update φ t ψ) s := by
  apply h.look
  · cases hφ : φ t <;> cases hflag : s.memory.flag (.worker w .isTerminatedFlag) <;>
      simp [hφ, hflag] at hψ <;> subst hψ <;> rfl
  · intro hknows
    cases hφ : φ t <;> cases hflag : s.memory.flag (.worker w .isTerminatedFlag) <;>
      simp [hφ, hflag] at hψ <;> subst hψ <;> rw [hφ] at hknows <;> first
        | trivial
        | exact hknows
        | skip
    -- not terminated: if it is paused, it was not started
    refine ⟨hknows, fun hpaused => ?_⟩
    by_contra hstarted
    exact hknows w ⟨hpaused, by simpa using hstarted, hflag⟩

theorem seesStarted (h : Inv φ s) {w : Fin n}
    (hψ : (φ t).seesStarted w (s.memory.flag (.worker w .isStartedFlag)) = some ψ) :
    Inv (Function.update φ t ψ) s := by
  apply h.look
  · cases hφ : φ t <;> cases hflag : s.memory.flag (.worker w .isStartedFlag) <;>
      simp [hφ, hflag] at hψ <;> first
        | (subst hψ; rfl)
        | (obtain ⟨-, rfl⟩ := hψ; rfl)
  · intro hknows
    cases hφ : φ t with
    | live w' =>
        rw [hφ] at hknows
        simp [hφ] at hψ
        obtain ⟨rfl, rfl⟩ := hψ
        split
        · rename_i hstarted
          refine ⟨hknows.1, ?_⟩
          by_contra hpaused
          rw [hknows.2 (by simpa using hpaused)] at hstarted
          cases hstarted
        · exact hknows.1
    | out | called | holding | entered | stopping | waiting w' =>
        simp [hφ] at hψ
        try { subst hψ; rwa [hφ] at hknows }

/-- The thread that waited for a worker goes on. -/
theorem wakes (h : Inv φ s) {w : Fin n} (hψ : (φ t).wakes w = some ψ) :
    Inv (Function.update φ t ψ) s := by
  apply h.look
  · cases hφ : φ t <;> simp [hφ] at hψ <;> first
      | (subst hψ; rfl)
      | (obtain ⟨-, rfl⟩ := hψ; rfl)
  · intro hknows
    cases hφ : φ t <;> simp [hφ] at hψ
    · subst hψ
      trivial
    · obtain ⟨-, rfl⟩ := hψ
      rw [hφ] at hknows
      exact hknows.1

/-- A thread that holds the lock and does not stop the processor may change anything. -/
theorem holding (h : Inv φ s) (hφ : φ t = .holding) (m : Control ι n) :
    Inv φ { s with memory := m } where
  holds := h.holds
  knows u := by
    by_cases hut : u = t
    · rw [hut, hφ]
      trivial
    · exact knows_of_not_holds (h.not_holds_of_ne (by rw [hφ]; rfl) hut)

/-- A store that the protocol allows. -/
theorem store (h : Inv φ s) {x : Store n} (hx : (φ t).mayStore x = true) :
    Inv φ { s with memory := s.memory.store t x } := by
  have hcases : φ t = .holding ∨ Calmer s.memory (s.memory.store t x) ∨
      φ t = .stopping ∧ ∃ b, x = .flag .isRunningFlag b := by
    cases x with
    | newWorker w => exact .inl (by simpa using hx)
    | addingCount d => exact .inr (.inl (.of_flags (fun _ => ⟨rfl, rfl, rfl⟩) rfl))
    | nestedPauseCounter d => exact .inr (.inl (.of_flags (fun _ => ⟨rfl, rfl, rfl⟩) rfl))
    | flag f b =>
        cases f with
        | isRunningFlag =>
            rcases (by simpa using hx : φ t = .holding ∨ φ t = .stopping) with hφ | hφ
            · exact .inl hφ
            · exact .inr (.inr ⟨hφ, b, rfl⟩)
        | worker w g =>
            cases g with
            | isPausedFlag =>
                cases b with
                | true => exact .inl (by simpa using hx)
                | false =>
                    refine .inr (.inl ⟨by simp, fun w' => ?_, by simp, by simp⟩)
                    by_cases hw : w' = w <;> simp [hw]
            | isStartedFlag => exact .inl (by simpa using hx)
            | isTerminatedFlag =>
                cases b with
                | true =>
                    refine .inr (.inl ⟨by simp, by simp, by simp, fun w' => ?_⟩)
                    by_cases hw : w' = w <;> simp [hw]
                | false => simp at hx
            | isIdleFlag | isDeadFlag | isWaitingFlag | haveWorkJoiners =>
                exact .inr (.inl (.of_flags (by simp) (by simp)))
        | isPausedFlag | isTerminatedFlag | resizing | cleared | processingWorker w =>
            exact .inr (.inl (.of_flags (by simp) (by simp)))
  rcases hcases with hφ | hcalmer | ⟨hφ, b, rfl⟩
  · exact h.holding hφ _
  · exact h.stay rfl hcalmer
  · -- only `stop` relies on anything, and not on `isRunningFlag`
    refine ⟨h.holds, fun u => ?_⟩
    by_cases hut : u = t
    · have hknows := h.knows t
      rw [hut, hφ]
      rw [hφ] at hknows
      exact hknows
    · exact knows_of_not_holds (h.not_holds_of_ne (by rw [hφ]; rfl) hut)

end Inv

variable [DecidableEq ι]

theorem inv_new : Inv (fun _ => .out) (newProcessor ι n E).shared where
  holds t := by simp [Phase.holds, newProcessor]
  knows t := trivial

/-- What one move preserves, unless it is `stop` that acquires the lock too early. -/
theorem inv_of_effect {φ : Thread ι n → Phase n} {s s' : Shared (names ι n E) (Control ι n)}
    {ψ : Phase n} {o : Op (names ι n E)} {r : o.Result} (h : Inv φ s)
    (heffect : (processor ι n E).Effect s t o r s') (hψ : step (φ t) o r = some ψ)
    (hcalm : o = .acquire .startLock → φ t = .called → Knows s.memory .entered) :
    Inv (Function.update φ t ψ) s' := by
  have hdefault : (if (φ t).strict then none else some (φ t)) = some ψ →
      Function.update φ t ψ = φ := by
    intro hstay
    split at hstay
    · cases hstay
    · obtain rfl := Option.some.inj hstay
      exact Function.update_eq_self t φ
  cases heffect with
  | @acquire l hfree =>
      cases l with
      | startLock =>
          apply h.acquire hfree hψ
          rintro rfl
          apply hcalm rfl
          cases hφ : φ t <;> simp [hφ] at hψ
          rfl
      | workerLock | resizeQueuesLock | workerStartLock w | isWorkLock w | hasDiedLock w
      | hasPausedLock w =>
          rw [hdefault hψ]
          exact h.stay (by simp [Shared.lock]) .refl
  | @release l hheld =>
      cases l with
      | startLock => exact h.release hheld hψ
      | workerLock | resizeQueuesLock | workerStartLock w | isWorkLock w | hasDiedLock w
      | hasPausedLock w =>
          rw [hdefault hψ]
          exact h.stay (by simp [Shared.lock]) .refl
  | @wait c l hheld =>
      have hl : l ≠ .startLock := by
        rintro rfl
        simp at hψ
      have hsame : Function.update φ t ψ = φ := by
        cases c with
        | isWorkWaiting w =>
            have hwaits : (φ t).waits w = some ψ := by
              cases l <;> first | exact hψ | exact absurd rfl hl
            rw [Phase.eq_of_waits hwaits, Function.update_eq_self]
        | isResizingCond | hasDied w | hasPaused w | isIdle w =>
            exact hdefault (by cases l <;> first | exact hψ | exact absurd rfl hl)
      rw [hsame]
      exact h.stay (by simp [Shared.lock, Shared.sleep, Ne.symm hl]) .refl
  | @resume c l hawake hfree =>
      have hl : l ≠ .startLock := by
        rintro rfl
        simp at hψ
      have hheld : (s.lock l (some t)).held .startLock = s.held .startLock := by
        simp [Shared.lock, Ne.symm hl]
      cases c with
      | isWorkWaiting w =>
          have hwakes : (φ t).wakes w = some ψ := by
            cases l <;> first | exact hψ | exact absurd rfl hl
          exact (h.wakes hwakes).stay hheld .refl
      | isResizingCond | hasDied w | hasPaused w | isIdle w =>
          rw [hdefault (by cases l <;> first | exact hψ | exact absurd rfl hl)]
          exact h.stay hheld .refl
  | unheard hnone => rwa [hdefault hψ]
  | signal hasleep =>
      rw [hdefault hψ]
      exact h.stay rfl .refl
  | broadcast =>
      rw [hdefault hψ]
      exact h.stay rfl .refl
  | @load x =>
      cases x with
      | flag f =>
          cases f with
          | isRunningFlag => exact h.seesRunning hψ
          | worker w g =>
              cases g with
              | isTerminatedFlag => exact h.seesTerminated hψ
              | isStartedFlag => exact h.seesStarted hψ
              | isPausedFlag | isIdleFlag | isDeadFlag | isWaitingFlag | haveWorkJoiners =>
                  rwa [hdefault hψ]
          | isPausedFlag | isTerminatedFlag | resizing | cleared | processingWorker w =>
              rwa [hdefault hψ]
      | addingCount | nestedPauseCounter => rwa [hdefault hψ]
  | @store x =>
      obtain ⟨hx, rfl⟩ : (φ t).mayStore x = true ∧ φ t = ψ := by
        by_cases hx : (φ t).mayStore x = true <;> simp only [step, hx] at hψ
        · exact ⟨hx, by simpa using hψ⟩
        · simp at hψ
      rw [Function.update_eq_self]
      exact h.store hx
  | @ask q a m hreply =>
      obtain rfl : s.memory = m := by simpa [processor] using hreply
      rwa [hdefault hψ]
  | spawn => rwa [hdefault hψ]

/-- The thread is about to acquire `startLock` in `stop`: the only method that then
looks at `isRunningFlag` before anything else. -/
def EntersStop (s : State (names ι n E) (Control ι n)) (t : Thread ι n) : Bool :=
  match s.prog t with
  | .op (.acquire .startLock) k =>
      match (k ()).head with
      | some (.load (.flag .isRunningFlag)) => true
      | _ => false
  | _ => false

/-- The condition on a step: if it is `stop` that acquires the lock of a processor
that is running, then no worker keeps it waiting. -/
def StopsAwake (s : State (names ι n E) (Control ι n)) : Label (names ι n E) → Prop
  | .step t _ => EntersStop s t → s.shared.memory.flag .isRunningFlag = true →
      ∀ w, ¬ KeepsWaiting s.shared.memory w
  | _ => True

instance (m : Control ι n) (w : Fin n) : Decidable (KeepsWaiting m w) :=
  inferInstanceAs (Decidable (_ ∧ _ ∧ _))

instance (s : State (names ι n E) (Control ι n)) : (l : Label (names ι n E)) →
    Decidable (StopsAwake s l)
  | .step t _ => inferInstanceAs (Decidable (EntersStop s t → _ → ∀ _, _))
  | .spurious _ => .isTrue trivial
  | .enter _ _ => .isTrue trivial

/-- `stop` waits in `signal` for a worker that is paused, with `startLock`. -/
def WaitsForPaused (s : State (names ι n E) (Control ι n)) (i : ι) (w : Fin n) : Prop :=
  s.shared.held .startLock = some (.client i) ∧
    (s.prog (.client i)).head = some (.resume (.isWorkWaiting w) (.isWorkLock w)) ∧
      Thread.client i ∈ s.shared.asleep (.isWorkWaiting w) ∧
        s.shared.memory.flag (.worker w .isPausedFlag) = true

instance (s : State (names ι n E) (Control ι n)) (i : ι) (w : Fin n) :
    Decidable (WaitsForPaused s i w) :=
  inferInstanceAs (Decidable (_ ∧ _ ∧ _ ∧ _))

omit [DecidableEq ι] in
/-- What a thread in the phase `entered` is about to do. -/
theorem head_of_entered {α : Type} {p : Code ι n E α} {Q : α → Phase n → Prop}
    (h : Conforms (protocol ι n E) t .entered p Q) (hQ : ∀ a, ¬ Q a .entered) :
    p.head = some (.load (.flag .isRunningFlag)) := by
  cases p with
  | done a => exact absurd h (hQ a)
  | op o k =>
      cases o with
      | load x =>
          obtain ⟨ψ, hψ, -⟩ := h true
          cases x with
          | flag f =>
              cases f with
              | isRunningFlag => rfl
              | worker w g => cases g <;> simp at hψ
              | _ => simp at hψ
          | _ => simp at hψ
      | ask q =>
          obtain ⟨ψ, hψ, -⟩ := h 0
          simp at hψ
      | call p => cases p <;> simp at h
      | acquire l | release l =>
          obtain ⟨ψ, hψ, -⟩ := h
          cases l <;> simp at hψ
      | wait c l | resume c l =>
          obtain ⟨ψ, hψ, -⟩ := h
          cases l <;> cases c <;> simp at hψ
      | store x =>
          obtain ⟨ψ, hψ, -⟩ := h
          cases x with
          | flag f b =>
              cases f with
              | worker w g => cases g <;> cases b <;> simp at hψ
              | _ => simp at hψ
          | _ => simp at hψ
      | signal c | broadcast c | spawn u =>
          obtain ⟨ψ, hψ, -⟩ := h
          simp at hψ

/-- `stop` waits, if at all, for a worker that is not paused. -/
theorem inv_of_reachable {s : State (names ι n E) (Control ι n)}
    (h : (((processor ι n E).system (newProcessor ι n E)).restrict StopsAwake).Reachable s) :
    ∃ φ, (protocol ι n E).Obeys φ s ∧ Inv φ s.shared := by
  apply Protocol.invariant obeyed _ inv_new _ h
  · exact fun t => rfl
  · intro φ s l φ' shared hobeys hinv hC hmoves
    cases hmoves with
    | @act t c o r _ ψ hhead hexec htrans hspawn =>
        rw [Protocol.births_eq fun _ _ => rfl]
        apply inv_of_effect hinv (Machine.effect_of_exec hexec) htrans
        rintro rfl hφ
        intro hrun
        refine hC ?_ hrun
        have ht := hobeys t
        rw [hφ] at ht
        cases hprog : s.prog t with
        | done a => simp [hprog, Prog.head] at hhead
        | op o k =>
            obtain rfl : o = .acquire .startLock := by simpa [hprog, Prog.head] using hhead
            rw [hprog] at ht
            obtain ⟨ψ', hψ', ht⟩ := ht
            obtain rfl : Phase.entered = ψ' := by simpa using hψ'
            simp [EntersStop, hprog, head_of_entered ht (by simp [protocol])]
    | silent => exact hinv
    | spurious => exact hinv.stay rfl .refl
    | @enter t c m p _ _ hentry =>
        obtain ⟨-, -, rfl, -⟩ := entry_eq_some hentry
        rw [show (protocol ι n E).enter t c (φ t) = φ t from rfl, Function.update_eq_self]
        exact hinv

end Stopping

open Stopping

variable [DecidableEq ι]

/-- If whenever `stop` acquires the lock no worker is paused, it never waits for one
that is. -/
theorem stop_not_on_paused {s : State (names ι n E) (Control ι n)}
    (h : (((processor ι n E).system (newProcessor ι n E)).restrict StopsAwake).Reachable s)
    (i : ι) (w : Fin n) : ¬ WaitsForPaused s i w := by
  rintro ⟨hheld, hhead, -, hpaused⟩
  obtain ⟨φ, hobeys, hinv⟩ := inv_of_reachable h
  have hholds := (hinv.holds (.client i)).mpr hheld
  have hknows := hinv.knows (.client i)
  obtain ⟨ψ, hψ⟩ := (hobeys (.client i)).trans_of_head hhead (by simp) ()
  cases hφ : φ (.client i) with
  | waiting w' =>
      obtain ⟨rfl, -⟩ : w' = w ∧ .stopping = ψ := by
        simpa [protocol, step, Phase.wakes, hφ] using hψ
      rw [hφ] at hknows
      rw [hknows.2] at hpaused
      cases hpaused
  | out | called => simp [hφ, Phase.holds] at hholds
  | holding | entered | stopping | live w' =>
      simp [protocol, step, Phase.wakes, hφ] at hψ

/-- `stop` waits for a worker that was just started. -/
theorem stop_not_on_paused_of_started :
    ∃ s : State (names (Fin 1) 1 Unit) (Control (Fin 1) 1),
      (s.shared.held .startLock = some (.client 0) ∧
        (s.prog (.client 0)).head = some (.resume (.isWorkWaiting 0) (.isWorkLock 0))) ∧
          ¬ WaitsForPaused s 0 0 := by
  obtain ⟨s, hs, hwaits⟩ := (processor (Fin 1) 1 Unit).exists_of_follow (newProcessor _ _ _)
    StopsAwake (fun s => s.shared.held .startLock = some (.client 0) ∧
      (s.prog (.client 0)).head = some (.resume (.isWorkWaiting 0) (.isWorkLock 0)))
    ([.enter (.client 0) .start] ++ List.replicate 18 (.step (.client 0) .go) ++
      [.enter (.client 0) .stop] ++ List.replicate 11 (.step (.client 0) .go))
    (by decide +kernel)
  exact ⟨s, hwaits, stop_not_on_paused hs 0 0⟩

/-- Client 1 pauses the processor, client 0 stops it, and client 1 resumes it: `stop`
waits for the paused worker, `resume` for `stop`, and the worker for `resume`. -/
theorem stop_deadlocks :
    ∃ s : State (names (Fin 2) 1 Unit) (Control (Fin 2) 1),
      ((processor (Fin 2) 1 Unit).system (newProcessor (Fin 2) 1 Unit)).Reachable s ∧
        WaitsForPaused s 0 0 ∧ ∀ t c, (processor (Fin 2) 1 Unit).next s (.step t c) = none := by
  let go (t : Thread (Fin 2) 1) : Label (names (Fin 2) 1 Unit) := .step t .go
  let answer (a : Int) : Label (names (Fin 2) 1 Unit) := .step (.worker 0) (.answer a)
  let findsNoWork := [answer 0, answer 0, go (.worker 0), go (.worker 0), answer 0, go (.worker 0),
    answer 0] ++ List.replicate 5 (go (.worker 0))
  let pauses := List.replicate 13 (go (.client 1)) ++ [.step (.client 1) (.wake (.worker 0))] ++
    List.replicate 10 (go (.client 1))
  let isPaused := List.replicate 10 (go (.worker 0)) ++ [.step (.worker 0) (.wake (.client 1))] ++
    [go (.worker 0)]
  obtain ⟨s, hs, hwaits, hresume, hworker, hasleep⟩ :=
    (processor (Fin 2) 1 Unit).exists_of_follow (newProcessor _ _ _) (fun _ _ => True)
      (fun s => WaitsForPaused s 0 0 ∧ (s.prog (.client 1)).head = some (.acquire .startLock) ∧
        (s.prog (.worker 0)).head = some (.resume (.hasPaused 0) (.hasPausedLock 0)) ∧
          Thread.worker 0 ∈ s.shared.asleep (.hasPaused 0))
    ([.enter (.client 0) .start] ++ List.replicate 18 (go (.client 0)) ++ findsNoWork ++
      [.enter (.client 1) (.pause true)] ++ pauses ++ isPaused ++
        List.replicate 6 (go (.client 1)) ++ [.enter (.client 0) .stop] ++
          List.replicate 11 (go (.client 0)) ++ [.enter (.client 1) .resume, go (.client 1)])
    (by decide +kernel)
  refine ⟨s, hs.of_restrict, hwaits, ?_⟩
  rintro (i | w) c
  · rcases Fin.exists_fin_two.mp ⟨i, rfl⟩ with rfl | rfl
    · exact Machine.next_of_asleep hwaits.2.1 hwaits.2.2.1 c
    · exact Machine.next_of_held hresume hwaits.1 c
  · obtain rfl := Subsingleton.elim w 0
    exact Machine.next_of_asleep hworker hasleep c

end HPQueue
