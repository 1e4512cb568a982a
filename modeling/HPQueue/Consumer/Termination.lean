import HPQueue.Consumer.Conformance

/-!
# Termination

`terminate` sets `isTerminatedFlag`, so that no `start` begins to start workers any
more, stops the processor, and clears the vector of workers.  It takes no lock for the
first two steps, and so it can miss a `start`: one that has looked at the flag before it
was set, and has not set `isRunningFlag` yet.  And a second `terminate` returns at once,
while the first still waits for the workers.

Where neither happens, a `terminate` that has returned is final.

## Main results

* `obeyed` — the positions of all methods relative to `start` and `terminate`.
* `terminate_final` — in every run in which no `terminate` misses a `start` or another
  `terminate`, no worker runs once one has returned, and `start` does not touch a
  vector that was cleared.
* `terminate_misses_start` — a run in which one does.
-/

namespace HPQueue

open Library.Threads Library.Transition

variable {ι : Type} {n : Nat} {E : Type}

namespace Termination

/-- What a thread was called to do. -/
inductive Kind
  | other
  | start
  | terminate
  deriving DecidableEq

/-- Where a thread stands relative to `startLock`. -/
inductive Position (n : Nat)
  | outside
  /-- With the lock. -/
  | holding
  /-- In `start`, which found the processor not terminated. -/
  | passed
  /-- In `start`, which is about to set `isRunningFlag`. -/
  | opening
  /-- With the lock, and the processor is running; these workers were found dead. -/
  | running (dead : List (Fin n))
  /-- In `start`, which has started the workers. -/
  | started
  /-- With the lock, and the processor is not running. -/
  | stopped
  /-- No thread ever is here: the processor is running, and `workers` was cleared. -/
  | never
  deriving DecidableEq

structure Phase (n : Nat) where
  kind : Kind
  position : Position n
  /-- This call has set `isTerminatedFlag`. -/
  flagged : Bool
  /-- No worker runs or will run. -/
  ended : Bool
  /-- And the processor is not running either. -/
  shut : Bool
  deriving DecidableEq

namespace Position

def holds : Position n → Bool
  | outside | never => false
  | holding | passed | opening | running _ | started | stopped => true

end Position

namespace Phase

def goes (φ : Phase n) (p : Position n) : Phase n := { φ with position := p }

/-- Whether the thread may start workers. -/
def starts (φ : Phase n) : Bool :=
  match φ.kind, φ.position with
  | .start, .passed => true
  | .start, .opening => true
  | .start, .running _ => true
  | _, _ => false

def acquired (φ : Phase n) : Option (Phase n) :=
  match φ.position with
  | .outside => some (φ.goes .holding)
  | _ => none

def released (φ : Phase n) : Option (Phase n) :=
  match φ.position with
  | .holding => some (φ.goes .outside)
  | .running _ => if φ.kind = .start then none else some (φ.goes .outside)
  | .started => some (φ.goes .outside)
  | .stopped => some (φ.goes .outside)
  | _ => none

/-- After `workerLock` was released. -/
def leavesWorkers (φ : Phase n) : Option (Phase n) :=
  match φ.position with
  | .passed => none
  | .opening => none
  | .running _ => some (if φ.kind = .start then φ.goes .started else φ)
  | _ => some φ

/-- After `isTerminatedFlag` was found to have this value. -/
def seesTerminated (φ : Phase n) (b : Bool) : Option (Phase n) :=
  match φ.kind, φ.position with
  | .start, .holding => some (if b then φ else φ.goes .passed)
  | .terminate, .outside => some (if b then { φ with ended := true } else φ)
  | _, .outside => some φ
  | _, _ => none

/-- After `isRunningFlag` was found to have this value. -/
def seesRunning (φ : Phase n) (b : Bool) : Option (Phase n) :=
  match φ.position with
  | .outside =>
      some (if φ.kind = .terminate ∧ φ.flagged ∧ b = false then
        { φ with ended := true, shut := true } else φ)
  | .holding =>
      if φ.kind = .start then none else some (φ.goes (if b then .running [] else .stopped))
  | .passed => some (φ.goes (if b then .running [] else .opening))
  | _ => none

/-- After the vector was found to be cleared or not. -/
def seesCleared (φ : Phase n) (b : Bool) : Option (Phase n) :=
  match φ.position with
  | .outside => some φ
  | .running _ => some (if b then φ.goes .never else φ)
  | _ => none

/-- The worker was found dead. -/
def finds (φ : Phase n) (w : Fin n) : Phase n :=
  match φ.position with
  | .running dead => φ.goes (.running (w :: dead))
  | _ => φ

/-- The processor was stopped. -/
def stops (φ : Phase n) : Phase n :=
  { φ with
    position := .stopped
    ended := φ.ended || (φ.kind = .terminate && φ.flagged)
    shut := φ.shut || (φ.kind = .terminate && φ.flagged) }

/-- Whether the next operation of the thread is known. -/
def strict (φ : Phase n) : Bool :=
  match φ.position with
  | .passed => true
  | .opening => true
  | _ => false

/-- After a store, if it is allowed. -/
def stores (φ : Phase n) : Store n → Option (Phase n)
  | .flag .isTerminatedFlag b =>
      if b ∧ φ.kind = .terminate ∧ φ.position = .outside then some { φ with flagged := true }
      else none
  | .flag .isRunningFlag true =>
      if φ.kind = .start ∧ φ.position = .opening then some (φ.goes (.running [])) else none
  | .flag .isRunningFlag false =>
      match φ.position with
      | .stopped => some φ.stops
      | .running dead => if ∀ w, w ∈ dead then some φ.stops else none
      | _ => none
  | .flag .cleared b => if b ∧ φ.shut then some φ else none
  | .newWorker _ => if φ.kind = .start ∧ φ.position = .running [] then some φ else none
  | .flag (.worker _ .isStartedFlag) _ =>
      if φ.kind = .start ∧ φ.position = .running [] then some φ else none
  | .flag (.worker _ .isDeadFlag) b => if b then some φ else none
  | _ => if φ.strict then none else some φ

end Phase

/-- The operations that matter; every other leaves the phase. -/
def step (φ : Phase n) (o : Op (names ι n E)) (r : o.Result) : Option (Phase n) :=
  if φ.position = .never then some φ
  else
    match o, r with
    | .acquire .startLock, _ => φ.acquired
    | .release .startLock, _ => φ.released
    | .release .workerLock, _ => φ.leavesWorkers
    | .wait _ .startLock, _ => none
    | .resume _ .startLock, _ => none
    | .load (.flag .isTerminatedFlag), b => φ.seesTerminated b
    | .load (.flag .isRunningFlag), b => φ.seesRunning b
    | .load (.flag .cleared), b => φ.seesCleared b
    | .load (.flag (.worker w .isDeadFlag)), b => some (if b then φ.finds w else φ)
    | .load (.flag (.worker _ .isStartedFlag)), _ =>
        if φ.kind = .start ∧ φ.position ≠ .running [] then none else some φ
    | .store x, _ => φ.stores x
    | _, _ => if φ.strict then none else some φ

/-- Where the loops are called. -/
def calledFrom (φ : Phase n) : Proc n E → Prop
  | .runLoop _ => φ.position = .outside
  | .whileAlive _ => ∃ dead, φ.position = .running dead
  | _ => φ.position = .outside ∧ φ.kind = .other

/-- And where they return. -/
def returnsTo (φ ψ : Phase n) : Proc n E → Prop
  | .whileAlive w => ψ = φ.finds w
  | .addLoop _ _ => ψ.position = .never ∨ ψ = φ
  | _ => ψ = φ

def kindOf : ClientCall E → Kind
  | .start => .start
  | .terminate => .terminate
  | _ => .other

def protocol (ι : Type) (n : Nat) (E : Type) : Protocol (names ι n E) (Phase n) where
  trans _ φ o r := step φ o r
  pre _ p φ := φ.position = .never ∨ calledFrom φ p
  post _ p φ _ ψ := if φ.position = .never then ψ.position = .never else returnsTo φ ψ p
  final _ φ := φ.position = .never ∨
    φ.position = .outside ∧ (φ.kind = .terminate → φ.ended = true)
  enter _ c φ := { φ with kind := kindOf c, flagged := false }

/-! ## The methods -/

variable {t : Thread ι n}

theorem protocol_trans (φ : Phase n) (o : Op (names ι n E)) (r : o.Result) :
    (protocol ι n E).trans t φ o r = step φ o r := rfl

theorem protocol_pre (p : Proc n E) (φ : Phase n) :
    (protocol ι n E).pre t p φ ↔ φ.position = .never ∨ calledFrom φ p := Iff.rfl

theorem protocol_post (p : Proc n E) (φ ψ : Phase n) (a : Int) :
    (protocol ι n E).post t p φ a ψ ↔
      if φ.position = .never then ψ.position = .never else returnsTo φ ψ p := Iff.rfl

attribute [local simp] protocol_trans protocol_pre protocol_post calledFrom returnsTo step
  Phase.strict Phase.acquired Phase.released Phase.leavesWorkers Phase.seesRunning
  Phase.seesTerminated Phase.seesCleared Phase.finds Phase.stops Phase.stores Phase.goes
  Protocol.Keeps Prog.Only.ite_iff Prog.ite_bind Worker.get Worker.set QueueProcessor.get
  QueueProcessor.set

/-- Operations of threads that do not hold `startLock`. -/
abbrev Outside (t : Thread ι n) (k : Kind) (g o s : Bool) : Op (names ι n E) → Prop :=
  (protocol ι n E).Keeps t ⟨k, .outside, g, o, s⟩

/-- Operations of threads that hold it, of a processor that is running. -/
abbrev Running (t : Thread ι n) (k : Kind) (g o s : Bool) : Op (names ι n E) → Prop :=
  (protocol ι n E).Keeps t ⟨k, .running [], g, o, s⟩

variable {k : Kind} {g o s : Bool}

theorem broadcast_outside :
    (QueueProcessor.broadcast : Code ι n E Unit).Only (Outside t k g o s) := by
  simp [QueueProcessor.broadcast]
  apply (only_forWorkers (by simp) fun w => ?_).bind
  · simp
  · simp [Worker.signal]

theorem runLoop_outside (w : Fin n) :
    (Worker.runLoop w : Code ι n E Int).Only (Outside t k g o s) := by
  simp [Worker.runLoop, Worker.waitWhilePaused, Worker.waitForWork, Worker.doWork, Worker.isWork]

theorem run_outside (w : Fin n) :
    (Worker.run w : Code ι n E Unit).Only (Outside t k g o s) := by
  simp [Worker.run, Worker.handleError, Worker.signalDead]

theorem start_running (w : Fin n) :
    (Worker.start w : Code ι n E Unit).Only (Running t .start g o s) := by
  simp [Worker.start]

theorem startNew_running (w : Fin n) :
    (QueueProcessor.startNew w : Code ι n E Unit).Only (Running t .start g o s) := by
  simp [QueueProcessor.startNew, Worker.start]

theorem pause_running (w : Fin n) (block : Bool) :
    (Worker.pause w block : Code ι n E Unit).Only (Running t k g o s) := by
  simp [Worker.pause, Worker.signal]

theorem resume_running (w : Fin n) :
    (Worker.resume w : Code ι n E Unit).Only (Running t k g o s) := by
  simp [Worker.resume]

theorem signal_running (w : Fin n) (block : Bool) :
    (Worker.signal w block : Code ι n E Unit).Only (Running t k g o s) := by
  simp [Worker.signal]

theorem stop_running (w : Fin n) :
    (Worker.stop w : Code ι n E Unit).Only (Running t k g o s) := by
  simp [Worker.stop, Worker.wasStarted, Worker.resume, Worker.signal, Worker.signalDead]

attribute [local simp] Conforms

/-- A phase that a method may leave: the one it should, or nobody is there. -/
def Leaves (Q : Phase n → Prop) (φ : Phase n) : Prop := φ.position = .never ∨ Q φ

theorem absorbs : (protocol ι n E).Absorbs fun φ => φ.position = .never where
  trans := by
    intro t φ o r h
    exact ⟨φ, by simp [h], h⟩
  pre := fun _ _ _ => .inl
  post := by
    intro t p φ a ψ h hψ
    simpa [h] using hψ

/-- A loop over the workers of a processor that is running. -/
theorem conforms_loop {φ : Phase n} {dead : List (Fin n)} (hφ : φ.position = .running dead)
    {f : Fin n → Code ι n E Unit} {I : List (Fin n) → Phase n → Prop}
    (hI : I (List.finRange n) φ)
    (hf : ∀ w ws ψ, I (w :: ws) ψ → Conforms (protocol ι n E) t ψ (f w) fun _ => I ws) :
    Conforms (protocol ι n E) t φ (QueueProcessor.forWorkers f) fun _ => Leaves (I []) := by
  apply (conforms_forWorkers (I := I) (J := fun ψ => ψ.position = .never) ?_ ?_ hf).mono
  · exact fun _ _ h => h.symm
  · simp [hφ]
  · simp [hφ, hI]

theorem conforms_workers {f : Fin n → Code ι n E Unit}
    (hf : ∀ w, (f w).Only (Running t k g o s)) :
    Conforms (protocol ι n E) t ⟨k, .running [], g, o, s⟩ (QueueProcessor.forWorkers f)
      fun _ => Leaves fun φ => φ = ⟨k, .running [], g, o, s⟩ := by
  apply conforms_loop (I := fun _ φ => φ = ⟨k, .running [], g, o, s⟩) rfl rfl
  rintro w _ _ rfl
  exact Conforms.of_keeps (hf w)

/-- The workers that are not left were found dead. -/
def Found (k : Kind) (g o s : Bool) (ws : List (Fin n)) (φ : Phase n) : Prop :=
  ∃ dead, φ = ⟨k, .running dead, g, o, s⟩ ∧ ∀ w, w ∈ ws ∨ w ∈ dead

theorem conforms_discard (w : Fin n) (ws : List (Fin n)) {φ : Phase n}
    (h : Found k g o s (w :: ws) φ) :
    Conforms (protocol ι n E) t φ (QueueProcessor.discard w) fun _ => Found k g o s ws := by
  obtain ⟨dead, rfl, hdead⟩ := h
  have hfound : Found k g o s ws ⟨k, .running (w :: dead), g, o, s⟩ := by
    refine ⟨_, rfl, fun w' => ?_⟩
    have hw := hdead w'
    simp only [List.mem_cons] at hw ⊢
    tauto
  simp [QueueProcessor.discard, Worker.join, hfound]

/-- What `stop` leaves: in `terminate`, the processor is shut. -/
def Stopped (k : Kind) (g o : Bool) (φ : Phase n) : Prop :=
  φ.position = .outside ∧ φ.kind = k ∧ (o = true → φ.ended = true) ∧
    (k = .terminate → g = true → φ.ended = true ∧ φ.shut = true)

theorem conforms_stop (hk : k ≠ .start) :
    Conforms (protocol ι n E) t ⟨k, .outside, g, o, s⟩ QueueProcessor.stop
      fun _ => Leaves (Stopped k g o) := by
  simp [QueueProcessor.stop]
  constructor
  · right
    split
    · rename_i h
      simp_all [Stopped]
    · simp_all [Stopped]
  · simp [hk]
    constructor
    · right
      cases k <;> simp [Stopped]
      tauto
    · apply absorbs.bind (conforms_workers fun w => signal_running w true)
      rintro _ _ rfl
      apply absorbs.bind (conforms_workers stop_running)
      rintro _ _ rfl
      apply absorbs.bind (conforms_loop (I := Found k g o s) rfl ⟨[], rfl, by simp⟩
        fun w ws _ => conforms_discard w ws)
      rintro _ _ ⟨dead, rfl, hdead⟩
      have hall : ∀ w, w ∈ dead := by simpa using hdead
      simp [hall, hk]
      cases k <;> simp [Stopped]
      tauto

theorem conforms_start :
    Conforms (protocol ι n E) t ⟨.start, .outside, g, o, s⟩ QueueProcessor.start
      fun _ φ => φ = ⟨.start, .outside, g, o, s⟩ := by
  simp [QueueProcessor.start]
  constructor
  · apply (Conforms.of_keeps (Prog.Only.forEach startNew_running)).bind
    rintro _ _ rfl
    simp
  · apply (Conforms.of_keeps (Prog.Only.forEach start_running)).bind
    rintro _ _ rfl
    simp

theorem conforms_terminate :
    Conforms (protocol ι n E) t ⟨.terminate, .outside, g, o, s⟩ QueueProcessor.terminate
      fun _ => Leaves fun φ => φ.position = .outside ∧ φ.ended = true := by
  simp [QueueProcessor.terminate]
  constructor
  · apply absorbs.bind (conforms_stop (by simp))
    rintro _ ⟨k', p', g', o', s'⟩ ⟨hp, hk, -, hended⟩
    obtain ⟨ho, hs⟩ := hended rfl rfl
    simp only at hp hk ho hs
    subst hp hk ho hs
    simp
  · simp [Leaves]

/-- The phase of a thread between the parts of `add`, `pause` and `resume`. -/
abbrev Other (g o s : Bool) : Phase n := ⟨.other, .outside, g, o, s⟩

theorem conforms_pause (block : Bool) :
    Conforms (protocol ι n E) t (Other g o s) (QueueProcessor.pause block)
      fun _ => Leaves (· = Other g o s) := by
  simp [QueueProcessor.pause, Leaves]
  apply absorbs.bind (conforms_workers fun w => pause_running w false)
  rintro _ _ rfl
  split
  · apply absorbs.bind (conforms_workers fun w => pause_running w true)
    rintro _ _ rfl
    simp
  · simp

theorem conforms_resume :
    Conforms (protocol ι n E) t (Other g o s) QueueProcessor.resume
      fun _ => Leaves (· = Other g o s) := by
  simp [QueueProcessor.resume, Leaves]
  apply absorbs.bind (conforms_workers resume_running)
  rintro _ _ rfl
  simp

theorem producing_outside (o' : Op (names ι n E)) (h : Producing o') :
    Outside t .other g o s o' := by
  cases o' with
  | acquire l | release l | broadcast c =>
      obtain rfl := h
      simp
  | wait c l =>
      obtain ⟨rfl, rfl⟩ := h
      simp
  | load x => rcases h with rfl | rfl <;> simp
  | store x => rcases h with ⟨b, rfl⟩ | ⟨d, rfl⟩ <;> simp
  | ask q => simp
  | call p =>
      cases p with
      | whileResizing | whileAdding | whileFull entry => simp
      | addLoop entry index | runLoop w | whileAlive w => cases h
  | resume c l | signal c | spawn u => cases h

theorem conforms_addLoop (entry : E) (index : Int) :
    Conforms (protocol ι n E) t (Other g o s) (QueueProducerInterface.addLoop entry index)
      fun _ => Leaves (· = Other g o s) :=
  conforms_addLoop_of absorbs producing_outside (by simp [Loops]) (conforms_pause true)
    conforms_resume entry index

theorem conforms_add (entry : E) :
    Conforms (protocol ι n E) t (Other g o s) (QueueProducerInterface.add entry)
      fun _ => Leaves (· = Other g o s) :=
  conforms_add_of absorbs producing_outside (by simp [Loops]) (by simp)
    ((Conforms.of_keeps broadcast_outside).mono fun _ _ => .inr) entry

theorem conforms_body {p : Proc n E} {φ : Phase n} (hp : calledFrom φ p) :
    Conforms (protocol ι n E) t φ (procedure p) fun _ ψ => returnsTo φ ψ p := by
  obtain ⟨k, position, g, o, s⟩ := φ
  cases p with
  | whileResizing | whileAdding =>
      obtain ⟨rfl, rfl⟩ : position = .outside ∧ k = .other := hp
      simp [procedure, ResizeControls.whileResizing, ResizeControls.whileAdding]
  | whileFull entry =>
      obtain ⟨rfl, rfl⟩ : position = .outside ∧ k = .other := hp
      intro index
      simp
      split <;> simp
  | addLoop entry index =>
      obtain ⟨rfl, rfl⟩ : position = .outside ∧ k = .other := hp
      exact conforms_addLoop entry index
  | runLoop w =>
      obtain rfl : position = .outside := hp
      exact Conforms.of_keeps (runLoop_outside w)
  | whileAlive w =>
      obtain ⟨dead, rfl⟩ : ∃ dead, position = .running dead := hp
      simp [procedure, Worker.whileAlive]

/-- All methods keep to the protocol. -/
theorem obeyed [DecidableEq ι] : (protocol ι n E).Obeyed (processor ι n E) where
  body := by
    intro t p φ hpre
    by_cases hnever : φ.position = .never
    · apply (absorbs.conforms hnever _).mono
      intro _ ψ hψ
      simpa [hnever] using hψ
    · apply (conforms_body (hpre.resolve_left hnever)).mono
      intro _ ψ hψ
      simpa [hnever] using hψ
  main := by
    rintro (i | w) φ hφ
    · exact hφ
    · rcases hφ with hnever | ⟨houtside, hended⟩
      · exact (absorbs.conforms hnever _).mono fun _ _ h => .inl h
      · obtain ⟨k, position, g, o, s⟩ := φ
        obtain rfl : position = .outside := houtside
        apply (Conforms.of_keeps (run_outside w)).mono
        rintro _ _ rfl
        exact .inr ⟨rfl, hended⟩
  entry := by
    rintro t c m m' p ⟨k, position, g, o, s⟩ hentry hφ
    obtain ⟨i, rfl, -, rfl⟩ := entry_eq_some hentry
    rcases hφ with hnever | ⟨houtside, -⟩
    · apply (absorbs.conforms (φ := ⟨kindOf c, position, false, o, s⟩) hnever (method c)).mono
      exact fun _ _ h => .inl h
    · obtain rfl : position = .outside := houtside
      have hother : ∀ {φ : Phase n}, Leaves (· = Other false o s) φ →
          (protocol ι n E).final (.client i) φ := by
        rintro φ (h | rfl)
        · exact .inl h
        · exact .inr ⟨rfl, fun h => by cases h⟩
      cases c with
      | add entry => exact (conforms_add entry).mono fun _ _ => hother
      | start =>
          apply conforms_start.mono
          rintro _ _ rfl
          exact .inr ⟨rfl, fun h => by cases h⟩
      | stop =>
          apply (conforms_stop (k := .other) (by decide)).mono
          rintro _ φ (h | ⟨hp, hk, -⟩)
          · exact .inl h
          · exact .inr ⟨hp, fun h => by rw [hk] at h; cases h⟩
      | pause block => exact (conforms_pause block).mono fun _ _ => hother
      | resume => exact conforms_resume.mono fun _ _ => hother
      | terminate =>
          apply conforms_terminate.mono
          rintro _ φ (h | ⟨hp, hended⟩)
          · exact .inl h
          · exact .inr ⟨hp, fun _ => hended⟩

/-! ## The invariant -/

/-- The memory, and the calls that each thread was given. -/
abbrev Memory (ι : Type) (n : Nat) (E : Type) : Type :=
  Control ι n × (Thread ι n → List (ClientCall E))

/-- The worker was started, and is not dead. -/
def Runs (m : Control ι n) (w : Fin n) : Prop :=
  m.flag (.worker w .isStartedFlag) = true ∧ m.flag (.worker w .isDeadFlag) = false

/-- No worker runs, and none will be started. -/
structure Over (φ : Thread ι n → Phase n) (m : Control ι n) : Prop where
  terminated : m.flag .isTerminatedFlag = true
  dead : ∀ w, ¬ Runs m w
  unstarted : ∀ u, (φ u).starts = false

/-- What a thread can rely on. -/
def Knows (m : Control ι n) (φ : Phase n) : Prop :=
  (φ.flagged = true → m.flag .isTerminatedFlag = true) ∧
    match φ.position with
    | .running dead => m.flag .isRunningFlag = true ∧
        ∀ w ∈ dead, m.flag (.worker w .isDeadFlag) = true
    | .stopped => m.flag .isRunningFlag = false
    | .never => False
    | _ => True

/-- What any thread may do: no worker is started, and the processor runs as before. -/
structure Gentle (m m' : Control ι n) : Prop where
  running : m'.flag .isRunningFlag = m.flag .isRunningFlag
  cleared : m'.flag .cleared = m.flag .cleared
  terminated : m.flag .isTerminatedFlag = true → m'.flag .isTerminatedFlag = true
  started : ∀ w, m'.flag (.worker w .isStartedFlag) = m.flag (.worker w .isStartedFlag)
  dead : ∀ w, m.flag (.worker w .isDeadFlag) = true → m'.flag (.worker w .isDeadFlag) = true

namespace Gentle

variable {m m' : Control ι n}

theorem refl : Gentle m m := ⟨rfl, rfl, id, fun _ => rfl, fun _ => id⟩

theorem runs (h : Gentle m m') {w : Fin n} (hw : Runs m' w) : Runs m w := by
  refine ⟨by rw [← h.started w, hw.1], ?_⟩
  by_contra hdead
  have hdead' := hw.2
  rw [h.dead w (by simpa using hdead)] at hdead'
  cases hdead'

theorem knows (h : Gentle m m') {φ : Phase n} (hφ : Knows m φ) : Knows m' φ := by
  obtain ⟨k, position, g, o, s⟩ := φ
  refine ⟨fun hg => h.terminated (hφ.1 hg), ?_⟩
  have hφ := hφ.2
  cases position with
  | running dead => exact ⟨h.running.trans hφ.1, fun w hw => h.dead w (hφ.2 w hw)⟩
  | stopped => exact h.running.trans hφ
  | never => exact hφ
  | outside | holding | passed | opening | started => trivial

end Gentle

theorem holds_of_starts {φ : Phase n} (h : φ.starts = true) : φ.position.holds = true := by
  obtain ⟨k, position, g, o, s⟩ := φ
  cases k <;> cases position <;> first | rfl | cases h

/-- A thread that does not hold the lock relies on little. -/
theorem knows_of_not_holds {m m' : Control ι n} {φ : Phase n} (h : φ.position.holds = false)
    (hφ : Knows m φ)
    (hterminated : m.flag .isTerminatedFlag = true → m'.flag .isTerminatedFlag = true) :
    Knows m' φ := by
  obtain ⟨k, position, g, o, s⟩ := φ
  refine ⟨fun hg => hterminated (hφ.1 hg), ?_⟩
  have hφ := hφ.2
  cases position with
  | outside => trivial
  | never => exact hφ
  | _ => cases h

structure Inv (φ : Thread ι n → Phase n) (s : Shared (names ι n E) (Memory ι n E)) : Prop where
  holds : ∀ t, (φ t).position.holds = true ↔ s.held .startLock = some t
  kind : ∀ t, (φ t).kind = ((s.memory.2 t).head?.map kindOf).getD .other
  knows : ∀ t, Knows s.memory.1 (φ t)
  idle : s.memory.1.flag .isRunningFlag = false → ∀ w, ¬ Runs s.memory.1 w
  cleared : s.memory.1.flag .cleared = true →
    s.memory.1.flag .isRunningFlag = false ∧ Over φ s.memory.1
  ended : ∀ t, (φ t).ended = true → Over φ s.memory.1
  shut : ∀ t, (φ t).shut = true → s.memory.1.flag .isRunningFlag = false ∧ Over φ s.memory.1
  returned : ∀ t, .terminate ∈ (s.memory.2 t).tail → (φ t).ended = true

namespace Inv

variable {φ : Thread ι n → Phase n} {s s' : Shared (names ι n E) (Memory ι n E)} {ψ : Phase n}

theorem not_holds_of_ne (h : Inv φ s) {u : Thread ι n} (ht : (φ t).position.holds = true)
    (hut : u ≠ t) : (φ u).position.holds = false := by
  by_contra hu
  have hu := (h.holds u).mp (by simpa using hu)
  exact hut (Option.some.inj (hu.symm.trans ((h.holds t).mp ht)))

variable [DecidableEq ι]

/-- A thread moves, and makes nothing worse. -/
theorem move (h : Inv φ s) (hgentle : Gentle s.memory.1 s'.memory.1)
    (hcalls : s'.memory.2 = s.memory.2)
    (hholds : ∀ u, (Function.update φ t ψ u).position.holds = true ↔
      s'.held .startLock = some u)
    (hkind : ψ.kind = (φ t).kind) (hknows : Knows s'.memory.1 ψ)
    (hstarts : ψ.starts = true →
      (φ t).starts = true ∨ s.memory.1.flag .isTerminatedFlag = false)
    (hended : ψ.ended = true → (φ t).ended = true ∨ Over φ s.memory.1)
    (hshut : ψ.shut = true → (φ t).shut = true ∨
      s.memory.1.flag .isRunningFlag = false ∧ Over φ s.memory.1)
    (hsticky : (φ t).ended = true → ψ.ended = true) :
    Inv (Function.update φ t ψ) s' := by
  have hOver : Over φ s.memory.1 → Over (Function.update φ t ψ) s'.memory.1 := by
    intro hO
    refine ⟨hgentle.terminated hO.terminated, fun w hw => hO.dead w (hgentle.runs hw), ?_⟩
    intro u
    by_cases hut : u = t
    · subst hut
      rw [Function.update_self]
      by_contra hu
      rcases hstarts (by simpa using hu) with hu | hu
      · rw [hO.unstarted u] at hu
        cases hu
      · rw [hO.terminated] at hu
        cases hu
    · rw [Function.update_of_ne hut]
      exact hO.unstarted u
  constructor
  · exact hholds
  · intro u
    rw [hcalls, ← h.kind u]
    by_cases hut : u = t
    · subst hut
      rw [Function.update_self, hkind]
    · rw [Function.update_of_ne hut]
  · intro u
    by_cases hut : u = t
    · subst hut
      rwa [Function.update_self]
    · rw [Function.update_of_ne hut]
      exact hgentle.knows (h.knows u)
  · intro hidle w hw
    exact h.idle (hgentle.running.symm.trans hidle) w (hgentle.runs hw)
  · intro hcleared
    obtain ⟨hrun, hO⟩ := h.cleared (hgentle.cleared.symm.trans hcleared)
    exact ⟨hgentle.running.trans hrun, hOver hO⟩
  · intro u hu
    by_cases hut : u = t
    · subst hut
      rw [Function.update_self] at hu
      exact hOver ((hended hu).elim (h.ended u) id)
    · rw [Function.update_of_ne hut] at hu
      exact hOver (h.ended u hu)
  · intro u hu
    by_cases hut : u = t
    · subst hut
      rw [Function.update_self] at hu
      obtain ⟨hrun, hO⟩ := (hshut hu).elim (h.shut u) id
      exact ⟨hgentle.running.trans hrun, hOver hO⟩
    · rw [Function.update_of_ne hut] at hu
      obtain ⟨hrun, hO⟩ := h.shut u hu
      exact ⟨hgentle.running.trans hrun, hOver hO⟩
  · intro u hu
    rw [hcalls] at hu
    by_cases hut : u = t
    · subst hut
      rw [Function.update_self]
      exact hsticky (h.returned u hu)
    · rw [Function.update_of_ne hut]
      exact h.returned u hu

/-- So, if only the position changes, and `startLock` does not. -/
theorem goes (h : Inv φ s) (hgentle : Gentle s.memory.1 s'.memory.1)
    (hcalls : s'.memory.2 = s.memory.2) (hheld : s'.held .startLock = s.held .startLock)
    {p : Position n} (hsame : p.holds = (φ t).position.holds)
    (hknows : Knows s'.memory.1 ((φ t).goes p))
    (hstarts : ((φ t).goes p).starts = true →
      (φ t).starts = true ∨ s.memory.1.flag .isTerminatedFlag = false) :
    Inv (Function.update φ t ((φ t).goes p)) s' := by
  apply h.move (t := t) (ψ := (φ t).goes p) hgentle hcalls _ rfl hknows hstarts .inl .inl id
  intro u
  rw [hheld, ← h.holds u]
  by_cases hut : u = t
  · subst hut
    rw [Function.update_self]
    show p.holds = true ↔ _
    rw [hsame]
  · rw [Function.update_of_ne hut]

/-- Nothing that matters changes. -/
theorem stay (h : Inv φ s) (t : Thread ι n) (hgentle : Gentle s.memory.1 s'.memory.1)
    (hcalls : s'.memory.2 = s.memory.2) (hheld : s'.held .startLock = s.held .startLock) :
    Inv φ s' := by
  have hgoes := h.goes (t := t) hgentle hcalls hheld rfl (hgentle.knows (h.knows t)) .inl
  have hsame : (φ t).goes (φ t).position = φ t := rfl
  rwa [hsame, Function.update_eq_self] at hgoes

/-- A thread that may start workers does something about it. -/
theorem opens (h : Inv φ s) {p : Position n} {m : Control ι n} (ht : (φ t).starts = true)
    (hp : p.holds = true) (hknows : Knows m ((φ t).goes p))
    (hrunning : m.flag .isRunningFlag = true)
    (hterminated : m.flag .isTerminatedFlag = s.memory.1.flag .isTerminatedFlag)
    (hcleared : m.flag .cleared = s.memory.1.flag .cleared) :
    Inv (Function.update φ t ((φ t).goes p)) { s with memory := (m, s.memory.2) } := by
  have hholds := holds_of_starts ht
  have hnot : ¬ Over φ s.memory.1 := by
    intro hO
    rw [hO.unstarted t] at ht
    cases ht
  have hsame : ∀ {β : Type} (f : Phase n → β), f ((φ t).goes p) = f (φ t) → ∀ u,
      f (Function.update φ t ((φ t).goes p) u) = f (φ u) := by
    intro β f hf u
    by_cases hut : u = t
    · subst hut
      rw [Function.update_self, hf]
    · rw [Function.update_of_ne hut]
  constructor
  · intro u
    rw [hsame (fun φ => φ.position.holds) (hp.trans hholds.symm)]
    exact h.holds u
  · intro u
    rw [hsame Phase.kind rfl]
    exact h.kind u
  · intro u
    by_cases hut : u = t
    · subst hut
      rwa [Function.update_self]
    · rw [Function.update_of_ne hut]
      exact knows_of_not_holds (h.not_holds_of_ne hholds hut) (h.knows u)
        (by rw [hterminated]; exact id)
  · intro hidle
    rw [hrunning] at hidle
    cases hidle
  · intro hclear
    exact absurd (h.cleared (hcleared.symm.trans hclear)).2 hnot
  · intro u hu
    rw [hsame Phase.ended rfl] at hu
    exact absurd (h.ended u hu) hnot
  · intro u hu
    rw [hsame Phase.shut rfl] at hu
    exact absurd (h.shut u hu).2 hnot
  · intro u hu
    rw [hsame Phase.ended rfl]
    exact h.returned u hu

theorem acquire (h : Inv φ s) (hfree : s.held .startLock = none) (hψ : (φ t).acquired = some ψ) :
    Inv (Function.update φ t ψ) (s.lock .startLock (some t)) := by
  have hnone : ∀ u, (φ u).position.holds = false := by
    intro u
    have hu := (h.holds u).not
    simpa [hfree] using hu
  obtain ⟨hp, rfl⟩ : (φ t).position = .outside ∧ (φ t).goes .holding = ψ := by
    unfold Phase.acquired at hψ
    split at hψ
    · rename_i hp
      exact ⟨hp, Option.some.inj hψ⟩
    · cases hψ
  apply h.move
  · exact .refl
  · rfl
  · intro u
    by_cases hut : u = t
    · subst hut
      simp [Shared.lock, Position.holds]
    · simp [Shared.lock, hut, hnone u, Ne.symm hut]
  · rfl
  · exact ⟨(h.knows t).1, trivial⟩
  · intro hstarts
    cases hk : (φ t).kind <;> simp [Phase.starts, hk] at hstarts
  · exact .inl
  · exact .inl
  · exact id

theorem release (h : Inv φ s) (hheld : s.held .startLock = some t)
    (hψ : (φ t).released = some ψ) :
    Inv (Function.update φ t ψ) (s.lock .startLock none) := by
  obtain rfl : (φ t).goes .outside = ψ := by
    unfold Phase.released at hψ
    split at hψ <;> try split at hψ
    all_goals first | exact Option.some.inj hψ | cases hψ
  apply h.move
  · exact .refl
  · rfl
  · intro u
    by_cases hut : u = t
    · subst hut
      simp [Shared.lock, Position.holds]
    · simp [Shared.lock, hut, h.not_holds_of_ne ((h.holds t).mpr hheld) hut]
  · rfl
  · exact ⟨(h.knows t).1, trivial⟩
  · intro hstarts
    cases hk : (φ t).kind <;> simp [Phase.starts, hk] at hstarts
  · exact .inl
  · exact .inl
  · exact id

/-- The thread learns that no worker runs, and perhaps that the processor does not. -/
theorem learns (h : Inv φ s) (hO : Over φ s.memory.1) {o : Bool}
    (ho : o = true → (φ t).shut = true ∨ s.memory.1.flag .isRunningFlag = false) :
    Inv (Function.update φ t { φ t with ended := true, shut := o }) s := by
  apply h.move
  · exact .refl
  · rfl
  · intro u
    rw [← h.holds u]
    by_cases hut : u = t
    · subst hut
      rw [Function.update_self]
    · rw [Function.update_of_ne hut]
  · rfl
  · exact h.knows t
  · exact .inl
  · exact fun _ => .inr hO
  · exact fun hshut => (ho hshut).imp_right fun hrun => ⟨hrun, hO⟩
  · exact fun _ => rfl

theorem seesTerminated (h : Inv φ s)
    (hψ : (φ t).seesTerminated (s.memory.1.flag .isTerminatedFlag) = some ψ)
    (halone : (φ t).kind = .terminate → (φ t).position = .outside →
      s.memory.1.flag .isTerminatedFlag = true → Over φ s.memory.1) :
    Inv (Function.update φ t ψ) s := by
  unfold Phase.seesTerminated at hψ
  split at hψ
  · rename_i hk hp
    cases hflag : s.memory.1.flag .isTerminatedFlag with
    | true =>
        obtain rfl : φ t = ψ := by simpa [hflag] using hψ
        rwa [Function.update_eq_self]
    | false =>
        obtain rfl : (φ t).goes .passed = ψ := by simpa [hflag] using hψ
        exact h.goes .refl rfl rfl (by rw [hp]; rfl) ⟨(h.knows t).1, trivial⟩ fun _ => .inr hflag
  · rename_i hk hp
    cases hflag : s.memory.1.flag .isTerminatedFlag with
    | true =>
        obtain rfl : { φ t with ended := true } = ψ := by simpa [hflag] using hψ
        exact h.learns (halone hk hp hflag) .inl
    | false =>
        obtain rfl : φ t = ψ := by simpa [hflag] using hψ
        rwa [Function.update_eq_self]
  · obtain rfl := Option.some.inj hψ
    rwa [Function.update_eq_self]
  · cases hψ

theorem seesRunning (h : Inv φ s)
    (hψ : (φ t).seesRunning (s.memory.1.flag .isRunningFlag) = some ψ)
    (halone : (φ t).kind = .terminate → (φ t).flagged = true → (φ t).position = .outside →
      s.memory.1.flag .isRunningFlag = false → Over φ s.memory.1) :
    Inv (Function.update φ t ψ) s := by
  unfold Phase.seesRunning at hψ
  split at hψ
  · rename_i hp
    by_cases hsees : (φ t).kind = .terminate ∧ (φ t).flagged = true ∧
        s.memory.1.flag .isRunningFlag = false
    · rw [if_pos hsees] at hψ
      obtain rfl := Option.some.inj hψ
      exact h.learns (halone hsees.1 hsees.2.1 hp hsees.2.2) fun _ => .inr hsees.2.2
    · rw [if_neg hsees] at hψ
      obtain rfl := Option.some.inj hψ
      rwa [Function.update_eq_self]
  · rename_i hp
    split at hψ
    · cases hψ
    · rename_i hk
      have hstarts : ∀ p, ((φ t).goes p).starts = false := by
        intro p
        cases hkind : (φ t).kind <;> simp_all [Phase.starts]
      cases hflag : s.memory.1.flag .isRunningFlag with
      | true =>
          obtain rfl : (φ t).goes (.running []) = ψ := by simpa [hflag] using hψ
          exact h.goes .refl rfl rfl (by rw [hp]; rfl) ⟨(h.knows t).1, hflag, by simp⟩
            fun hs => absurd hs (by rw [hstarts]; decide)
      | false =>
          obtain rfl : (φ t).goes .stopped = ψ := by simpa [hflag] using hψ
          exact h.goes .refl rfl rfl (by rw [hp]; rfl) ⟨(h.knows t).1, hflag⟩
            fun hs => absurd hs (by rw [hstarts]; decide)
  · rename_i hp
    have hstarts : ∀ p, ((φ t).goes p).starts = true → (φ t).starts = true := by
      intro p hs
      cases hkind : (φ t).kind <;> simp_all [Phase.starts]
    cases hflag : s.memory.1.flag .isRunningFlag with
    | true =>
        obtain rfl : (φ t).goes (.running []) = ψ := by simpa [hflag] using hψ
        exact h.goes .refl rfl rfl (by rw [hp]; rfl) ⟨(h.knows t).1, hflag, by simp⟩
          fun hs => .inl (hstarts _ hs)
    | false =>
        obtain rfl : (φ t).goes .opening = ψ := by simpa [hflag] using hψ
        exact h.goes .refl rfl rfl (by rw [hp]; rfl) ⟨(h.knows t).1, trivial⟩
          fun hs => .inl (hstarts _ hs)
  · cases hψ

/-- The vector of a processor that is running was not cleared. -/
theorem seesCleared (h : Inv φ s)
    (hψ : (φ t).seesCleared (s.memory.1.flag .cleared) = some ψ) :
    Inv (Function.update φ t ψ) s := by
  unfold Phase.seesCleared at hψ
  split at hψ
  · obtain rfl := Option.some.inj hψ
    rwa [Function.update_eq_self]
  · rename_i dead hp
    have hrun := (h.knows t).2
    rw [hp] at hrun
    cases hflag : s.memory.1.flag .cleared with
    | true =>
        have hstopped := (h.cleared hflag).1
        rw [hrun.1] at hstopped
        cases hstopped
    | false =>
        obtain rfl : φ t = ψ := by simpa [hflag] using hψ
        rwa [Function.update_eq_self]
  · cases hψ

/-- A worker was found dead. -/
theorem finds (h : Inv φ s) {w : Fin n} (hdead : s.memory.1.flag (.worker w .isDeadFlag) = true) :
    Inv (Function.update φ t ((φ t).finds w)) s := by
  unfold Phase.finds
  split
  · rename_i dead hp
    have hknows := h.knows t
    rw [Knows, hp] at hknows
    apply h.goes .refl rfl rfl (by rw [hp]; rfl)
    · refine ⟨hknows.1, hknows.2.1, ?_⟩
      intro w' hw
      rcases List.mem_cons.mp hw with rfl | hw
      · exact hdead
      · exact hknows.2.2 w' hw
    · intro hs
      left
      cases hkind : (φ t).kind <;> simp_all [Phase.starts]
  · rwa [Function.update_eq_self]

/-- The thread that holds the lock sets `isRunningFlag` to false, and no worker runs. -/
theorem stops (h : Inv φ s) (hholds : (φ t).position.holds = true)
    (hdead : ∀ w, ¬ Runs s.memory.1 w) :
    Inv (Function.update φ t (φ t).stops)
      { s with memory := (s.memory.1.store t (.flag .isRunningFlag false), s.memory.2) } := by
  have hruns : ∀ w, ¬ Runs (s.memory.1.store t (.flag .isRunningFlag false)) w := by
    simpa [Runs] using hdead
  have hunstarted : ∀ u, (Function.update φ t (φ t).stops u).starts = false := by
    intro u
    by_cases hut : u = t
    · subst hut
      cases hk : (φ u).kind <;> simp [Phase.starts, hk]
    · rw [Function.update_of_ne hut]
      by_contra hs
      have hu := holds_of_starts (by simpa using hs)
      rw [h.not_holds_of_ne hholds hut] at hu
      cases hu
  have hOver : s.memory.1.flag .isTerminatedFlag = true →
      Over (Function.update φ t (φ t).stops)
        (s.memory.1.store t (.flag .isRunningFlag false)) := by
    intro hterminated
    exact ⟨by simpa using hterminated, hruns, hunstarted⟩
  have hshut : ∀ u, (Function.update φ t (φ t).stops u).ended = true ∨
      (Function.update φ t (φ t).stops u).shut = true →
      s.memory.1.flag .isTerminatedFlag = true := by
    intro u hu
    by_cases hut : u = t
    · subst hut
      rw [Function.update_self] at hu
      simp only [Phase.stops, Bool.or_eq_true, Bool.and_eq_true] at hu
      rcases hu with (hu | hu) | (hu | hu)
      · exact (h.ended u hu).terminated
      · exact (h.knows u).1 hu.2
      · exact (h.shut u hu).2.terminated
      · exact (h.knows u).1 hu.2
    · rw [Function.update_of_ne hut] at hu
      exact hu.elim (fun hu => (h.ended u hu).terminated) fun hu => (h.shut u hu).2.terminated
  constructor
  · intro u
    rw [← h.holds u]
    by_cases hut : u = t
    · subst hut
      rw [Function.update_self]
      exact iff_of_true rfl hholds
    · rw [Function.update_of_ne hut]
  · intro u
    rw [← h.kind u]
    by_cases hut : u = t
    · subst hut
      simp
    · rw [Function.update_of_ne hut]
  · intro u
    by_cases hut : u = t
    · subst hut
      rw [Function.update_self]
      exact ⟨by simpa using (h.knows u).1, by simp⟩
    · rw [Function.update_of_ne hut]
      exact knows_of_not_holds (h.not_holds_of_ne hholds hut) (h.knows u) (by simp)
  · exact fun _ => hruns
  · intro hcleared
    have hO := (h.cleared (by simpa using hcleared)).2
    exact ⟨by simp, hOver hO.terminated⟩
  · exact fun u hu => hOver (hshut u (.inl hu))
  · exact fun u hu => ⟨by simp, hOver (hshut u (.inr hu))⟩
  · intro u hu
    have hended := h.returned u hu
    by_cases hut : u = t
    · subst hut
      simp [hended]
    · rwa [Function.update_of_ne hut]

/-- The vector of a processor that is shut is cleared. -/
theorem clears (h : Inv φ s) (hshut : (φ t).shut = true) :
    Inv φ { s with memory := (s.memory.1.store t (.flag .cleared true), s.memory.2) } := by
  obtain ⟨hrun, hO⟩ := h.shut t hshut
  have hOver : Over φ s.memory.1 → Over φ (s.memory.1.store t (.flag .cleared true)) := by
    intro hO
    exact ⟨by simpa using hO.terminated, by simpa [Runs] using hO.dead, hO.unstarted⟩
  constructor
  · exact h.holds
  · exact h.kind
  · intro u
    have hu := h.knows u
    unfold Knows at hu ⊢
    simpa using hu
  · simpa [Runs] using h.idle
  · exact fun _ => ⟨by simpa using hrun, hOver hO⟩
  · exact fun u hu => hOver (h.ended u hu)
  · intro u hu
    obtain ⟨hrun, hO⟩ := h.shut u hu
    exact ⟨by simpa using hrun, hOver hO⟩
  · exact h.returned

/-- A thread that starts workers changes what is known of one of them. -/
theorem changes (h : Inv φ s) {m : Control ι n} (hk : (φ t).kind = .start)
    (hp : (φ t).position = .running [])
    (hrunning : m.flag .isRunningFlag = s.memory.1.flag .isRunningFlag)
    (hterminated : m.flag .isTerminatedFlag = s.memory.1.flag .isTerminatedFlag)
    (hcleared : m.flag .cleared = s.memory.1.flag .cleared) :
    Inv φ { s with memory := (m, s.memory.2) } := by
  have hknows := h.knows t
  rw [Knows, hp] at hknows
  have hrun : m.flag .isRunningFlag = true := hrunning.trans hknows.2.1
  have hopens := h.opens (t := t) (p := .running []) (m := m) (by simp [Phase.starts, hk, hp]) rfl
    ⟨by rw [hterminated]; exact hknows.1, hrun, by simp⟩ hrun hterminated hcleared
  have hsame : (φ t).goes (.running []) = φ t := by rw [← hp]; rfl
  rwa [hsame, Function.update_eq_self] at hopens

/-- The call sets `isTerminatedFlag`. -/
theorem flags (h : Inv φ s) (hp : (φ t).position = .outside) :
    Inv (Function.update φ t { φ t with flagged := true })
      { s with memory := (s.memory.1.store t (.flag .isTerminatedFlag true), s.memory.2) } := by
  apply h.move
  · exact ⟨by simp, by simp, by simp, by simp, by simp⟩
  · rfl
  · intro u
    rw [← h.holds u]
    by_cases hut : u = t
    · subst hut
      rw [Function.update_self]
    · rw [Function.update_of_ne hut]
  · rfl
  · refine ⟨by simp, ?_⟩
    simp [hp]
  · exact .inl
  · exact .inl
  · exact .inl
  · exact id

/-- A store that the protocol allows. -/
theorem stores (h : Inv φ s) {x : Store n} (hψ : (φ t).stores x = some ψ) :
    Inv (Function.update φ t ψ) { s with memory := (s.memory.1.store t x, s.memory.2) } := by
  have hdefault : Gentle s.memory.1 (s.memory.1.store t x) →
      (if (φ t).strict then none else some (φ t)) = some ψ →
      Inv (Function.update φ t ψ) { s with memory := (s.memory.1.store t x, s.memory.2) } := by
    intro hgentle hstay
    split at hstay
    · cases hstay
    · obtain rfl := Option.some.inj hstay
      rw [Function.update_eq_self]
      exact h.stay t hgentle rfl rfl
  cases x with
  | newWorker w =>
      simp only [Phase.stores] at hψ
      split at hψ
      · rename_i hk
        obtain rfl := Option.some.inj hψ
        rw [Function.update_eq_self]
        exact h.changes hk.1 hk.2 rfl rfl rfl
      · cases hψ
  | addingCount d => exact hdefault ⟨rfl, rfl, id, fun _ => rfl, fun _ => id⟩ hψ
  | nestedPauseCounter d => exact hdefault ⟨rfl, rfl, id, fun _ => rfl, fun _ => id⟩ hψ
  | flag f b =>
      have hgentle : f ≠ .isRunningFlag → f ≠ .cleared → f ≠ .isTerminatedFlag →
          (∀ w, f ≠ .worker w .isStartedFlag) → (∀ w, f ≠ .worker w .isDeadFlag) →
          Gentle s.memory.1 (s.memory.1.store t (.flag f b)) := by
        intro hr hc ht hs hd
        exact ⟨by simp [Ne.symm hr], by simp [Ne.symm hc], by simp [Ne.symm ht],
          fun w => by simp [Ne.symm (hs w)], fun w => by simp [Ne.symm (hd w)]⟩
      cases f with
      | isRunningFlag =>
          cases b with
          | true =>
              simp only [Phase.stores] at hψ
              split at hψ
              · rename_i hk
                obtain rfl := Option.some.inj hψ
                apply h.opens (by simp [Phase.starts, hk]) rfl _ (by simp) (by simp) (by simp)
                exact ⟨by simpa using (h.knows t).1, by simp, by simp⟩
              · cases hψ
          | false =>
              simp only [Phase.stores] at hψ
              split at hψ
              · rename_i hp
                obtain rfl := Option.some.inj hψ
                have hknows := h.knows t
                rw [Knows, hp] at hknows
                exact h.stops (by rw [hp]; rfl) (h.idle hknows.2)
              · rename_i dead hp
                split at hψ
                · rename_i hall
                  obtain rfl := Option.some.inj hψ
                  have hknows := h.knows t
                  rw [Knows, hp] at hknows
                  apply h.stops (by rw [hp]; rfl)
                  rintro w ⟨-, hw⟩
                  rw [hknows.2.2 w (hall w)] at hw
                  cases hw
                · cases hψ
              · cases hψ
      | isTerminatedFlag =>
          simp only [Phase.stores] at hψ
          split at hψ
          · rename_i hk
            obtain rfl := Option.some.inj hψ
            obtain rfl : b = true := hk.1
            exact h.flags hk.2.2
          · cases hψ
      | cleared =>
          simp only [Phase.stores] at hψ
          split at hψ
          · rename_i hk
            obtain rfl := Option.some.inj hψ
            obtain rfl : b = true := hk.1
            rw [Function.update_eq_self]
            exact h.clears hk.2
          · cases hψ
      | worker w g =>
          cases g with
          | isStartedFlag =>
              simp only [Phase.stores] at hψ
              split at hψ
              · rename_i hk
                obtain rfl := Option.some.inj hψ
                rw [Function.update_eq_self]
                exact h.changes hk.1 hk.2 (by simp) (by simp) (by simp)
              · cases hψ
          | isDeadFlag =>
              simp only [Phase.stores] at hψ
              split at hψ
              · rename_i hb
                obtain rfl := Option.some.inj hψ
                obtain rfl : b = true := hb
                rw [Function.update_eq_self]
                refine h.stay t ⟨by simp, by simp, by simp, by simp, fun w' hw => ?_⟩ rfl rfl
                by_cases hww : w' = w
                · simp [hww]
                · simp [hww, hw]
              · cases hψ
          | isPausedFlag | isIdleFlag | isTerminatedFlag | isWaitingFlag | haveWorkJoiners =>
              exact hdefault (hgentle (by simp) (by simp) (by simp) (by simp) (by simp)) hψ
      | isPausedFlag | resizing | processingWorker w =>
          exact hdefault (hgentle (by simp) (by simp) (by simp) (by simp) (by simp)) hψ

/-- Workers have been started. -/
theorem leavesWorkers (h : Inv φ s) (hψ : (φ t).leavesWorkers = some ψ) :
    Inv (Function.update φ t ψ) s := by
  unfold Phase.leavesWorkers at hψ
  split at hψ
  · cases hψ
  · cases hψ
  · rename_i dead hp
    obtain rfl := Option.some.inj hψ
    split
    · apply h.goes (p := .started) .refl rfl rfl (by rw [hp]; rfl) ⟨(h.knows t).1, trivial⟩
      intro hstarts
      cases hk : (φ t).kind <;> simp [Phase.starts, hk] at hstarts
    · rwa [Function.update_eq_self]
  · obtain rfl := Option.some.inj hψ
    rwa [Function.update_eq_self]

/-- A thread is given a call. -/
theorem enters (h : Inv φ s) {c : ClientCall E} (hfinal : (protocol ι n E).final t (φ t)) :
    Inv (Function.update φ t { φ t with kind := kindOf c, flagged := false })
      { s with memory := (s.memory.1, Function.update s.memory.2 t (c :: s.memory.2 t)) } := by
  have hnever : (φ t).position ≠ .never := by
    intro hp
    have hknows := h.knows t
    rw [Knows, hp] at hknows
    exact hknows.2
  obtain ⟨hp, hended⟩ := hfinal.resolve_left hnever
  have hsame : ∀ {β : Type} (f : Phase n → β),
      f { φ t with kind := kindOf c, flagged := false } = f (φ t) → ∀ u,
      f (Function.update φ t { φ t with kind := kindOf c, flagged := false } u) = f (φ u) := by
    intro β f hf u
    by_cases hut : u = t
    · subst hut
      rw [Function.update_self, hf]
    · rw [Function.update_of_ne hut]
  have hstarts : Phase.starts { φ t with kind := kindOf c, flagged := false } =
      (φ t).starts := by
    cases hk : (φ t).kind <;> cases c <;> simp [Phase.starts, hp, hk, kindOf]
  have hOver : Over φ s.memory.1 → Over (Function.update φ t
      { φ t with kind := kindOf c, flagged := false }) s.memory.1 := by
    intro hO
    refine ⟨hO.terminated, hO.dead, fun u => ?_⟩
    rw [hsame Phase.starts hstarts]
    exact hO.unstarted u
  constructor
  · intro u
    rw [hsame (fun φ => φ.position.holds) rfl]
    exact h.holds u
  · intro u
    by_cases hut : u = t
    · subst hut
      simp
    · simp only [Function.update_of_ne hut]
      exact h.kind u
  · intro u
    by_cases hut : u = t
    · subst hut
      rw [Function.update_self]
      refine ⟨fun hg => by simp at hg, ?_⟩
      simp [hp]
    · rw [Function.update_of_ne hut]
      exact h.knows u
  · exact h.idle
  · intro hcleared
    exact (h.cleared hcleared).imp_right hOver
  · intro u hu
    rw [hsame Phase.ended rfl] at hu
    exact hOver (h.ended u hu)
  · intro u hu
    rw [hsame Phase.shut rfl] at hu
    exact (h.shut u hu).imp_right hOver
  · intro u hu
    rw [hsame Phase.ended rfl]
    by_cases hut : u = t
    · subst hut
      simp only [Function.update_self, List.tail_cons] at hu
      -- the call before this one, or an earlier one
      cases hcalls : s.memory.2 u with
      | nil => simp [hcalls] at hu
      | cons c' cs =>
          rw [hcalls] at hu
          rcases List.mem_cons.mp hu with hc | hu
          · apply hended
            rw [h.kind u, hcalls, ← hc]
            rfl
          · apply h.returned u
            rwa [hcalls]
    · simp only [Function.update_of_ne hut] at hu
      exact h.returned u hu

end Inv

variable [DecidableEq ι]

theorem inv_new : Inv (fun _ => ⟨.other, .outside, false, false, false⟩)
    (newProcessor ι n E).recorded.shared where
  holds t := by simp [Position.holds, newProcessor, State.recorded]
  kind t := by simp [State.recorded]
  knows t := by simp [Knows]
  idle _ w hw := by simp [Runs, State.recorded, newProcessor, Control.new] at hw
  cleared hcleared := by simp [State.recorded, newProcessor, Control.new] at hcleared
  ended t ht := by cases ht
  shut t ht := by cases ht
  returned t ht := by simp [State.recorded] at ht

/-- What one move preserves, unless a `terminate` misses something. -/
theorem inv_of_effect {φ : Thread ι n → Phase n} {s s' : Shared (names ι n E) (Memory ι n E)}
    {ψ : Phase n} {o : Op (names ι n E)} {r : o.Result} (h : Inv φ s)
    (heffect : (processor ι n E).recording.Effect s t o r s') (hψ : step (φ t) o r = some ψ)
    (hterminated : o = .load (.flag .isTerminatedFlag) → (φ t).kind = .terminate →
      (φ t).position = .outside → s.memory.1.flag .isTerminatedFlag = true → Over φ s.memory.1)
    (hrunning : o = .load (.flag .isRunningFlag) → (φ t).kind = .terminate →
      (φ t).flagged = true → (φ t).position = .outside →
      s.memory.1.flag .isRunningFlag = false → Over φ s.memory.1) :
    Inv (Function.update φ t ψ) s' := by
  have hnever : (φ t).position ≠ .never := by
    intro hp
    have hknows := h.knows t
    rw [Knows, hp] at hknows
    exact hknows.2
  unfold step at hψ
  rw [if_neg hnever] at hψ
  have hdefault : (if (φ t).strict then none else some (φ t)) = some ψ →
      Function.update φ t ψ = φ := by
    intro hstay
    split at hstay
    · cases hstay
    · obtain rfl := Option.some.inj hstay
      exact Function.update_eq_self t φ
  cases heffect with
  | @acquire l hfree =>
      cases l with
      | startLock => exact h.acquire hfree hψ
      | workerLock | resizeQueuesLock | workerStartLock w | isWorkLock w | hasDiedLock w
      | hasPausedLock w =>
          rw [hdefault hψ]
          exact h.stay t .refl rfl (by simp [Shared.lock])
  | @release l hheld =>
      cases l with
      | startLock => exact h.release hheld hψ
      | workerLock => exact (h.leavesWorkers hψ).stay t .refl rfl (by simp [Shared.lock])
      | resizeQueuesLock | workerStartLock w | isWorkLock w | hasDiedLock w
      | hasPausedLock w =>
          rw [hdefault hψ]
          exact h.stay t .refl rfl (by simp [Shared.lock])
  | @wait c l hheld =>
      cases l with
      | startLock => cases hψ
      | workerLock | resizeQueuesLock | workerStartLock w | isWorkLock w | hasDiedLock w
      | hasPausedLock w =>
          rw [hdefault hψ]
          exact h.stay t .refl rfl (by simp [Shared.lock, Shared.sleep])
  | @resume c l hawake hfree =>
      cases l with
      | startLock => cases hψ
      | workerLock | resizeQueuesLock | workerStartLock w | isWorkLock w | hasDiedLock w
      | hasPausedLock w =>
          rw [hdefault hψ]
          exact h.stay t .refl rfl (by simp [Shared.lock])
  | unheard hnone => rwa [hdefault hψ]
  | signal hasleep =>
      rw [hdefault hψ]
      exact h.stay t .refl rfl rfl
  | broadcast =>
      rw [hdefault hψ]
      exact h.stay t .refl rfl rfl
  | @load x =>
      cases x with
      | flag f =>
          cases f with
          | isTerminatedFlag => exact h.seesTerminated hψ (hterminated rfl)
          | isRunningFlag => exact h.seesRunning hψ (hrunning rfl)
          | cleared => exact h.seesCleared hψ
          | worker w g =>
              cases g with
              | isDeadFlag =>
                  obtain rfl := Option.some.inj hψ
                  split
                  · rename_i hdead
                    exact h.finds hdead
                  · rwa [Function.update_eq_self]
              | isStartedFlag =>
                  simp only at hψ
                  split at hψ
                  · cases hψ
                  · obtain rfl := Option.some.inj hψ
                    rwa [Function.update_eq_self]
              | isTerminatedFlag | isPausedFlag | isIdleFlag | isWaitingFlag | haveWorkJoiners =>
                  rwa [hdefault hψ]
          | isPausedFlag | resizing | processingWorker w => rwa [hdefault hψ]
      | addingCount | nestedPauseCounter => rwa [hdefault hψ]
  | @store x => exact h.stores hψ
  | @ask q a m hreply =>
      obtain rfl : s.memory = m := by simpa [processor, Machine.recording] using hreply
      rwa [hdefault hψ]
  | spawn => rwa [hdefault hψ]

/-- A state of the processor, with the calls its threads were given. -/
abbrev Recorded (ι : Type) (n : Nat) (E : Type) : Type :=
  State (names ι n E) (Memory ι n E)

/-- What the thread was called to do last. -/
def lastCall (s : Recorded ι n E) (t : Thread ι n) : Option Kind := (s.calls t).head?.map kindOf

/-- The thread is in `start`, has looked at `isTerminatedFlag` under the lock, and is
not through with the workers. -/
def Starting (s : Recorded ι n E) (t : Thread ι n) : Prop :=
  lastCall s t = some .start ∧ s.shared.held .startLock = some t ∧
    (s.prog t).head ≠ some (.load (.flag .isTerminatedFlag)) ∧
      (s.prog t).head ≠ some (.release .startLock)

/-- The condition on a step.  A `terminate` that finds `isTerminatedFlag` set, and
returns, does so when no worker runs; and neither then, nor when its `stop` finds the
processor not running, has a `start` looked at `isTerminatedFlag` before it was set. -/
def TerminatesAlone (s : Recorded ι n E) : Label (names ι n E) → Prop
  | .step t _ => lastCall s t = some .terminate →
      ((s.prog t).head = some (.load (.flag .isTerminatedFlag)) →
        s.shared.memory.1.flag .isTerminatedFlag = true →
          (∀ w, ¬ Runs s.shared.memory.1 w) ∧ ∀ u, ¬ Starting s u) ∧
      ((s.prog t).head = some (.load (.flag .isRunningFlag)) →
        s.shared.held .startLock ≠ some t → s.shared.memory.1.flag .isRunningFlag = false →
          ∀ u, ¬ Starting s u)
  | _ => True

instance (m : Control ι n) (w : Fin n) : Decidable (Runs m w) :=
  inferInstanceAs (Decidable (_ ∧ _))

instance (s : Recorded ι n E) (t : Thread ι n) : Decidable (Starting s t) :=
  inferInstanceAs (Decidable (_ ∧ _ ∧ ¬ _ ∧ ¬ _))

instance [Fintype ι] (s : Recorded ι n E) : (l : Label (names ι n E)) →
    Decidable (TerminatesAlone s l)
  | .step _ _ =>
      inferInstanceAs (Decidable (_ → (_ → _ → (∀ _, _) ∧ ∀ _, _) ∧ (_ → _ → _ → ∀ _, _)))
  | .spurious _ => .isTrue trivial
  | .enter _ _ => .isTrue trivial

omit [DecidableEq ι] in
/-- A thread that may start workers is in `start`. -/
theorem starting_of_starts {φ : Thread ι n → Phase n} {s : Recorded ι n E}
    (hobeys : (protocol ι n E).Obeys φ s) (h : Inv φ s.shared) {t : Thread ι n}
    (ht : (φ t).starts = true) : Starting s t := by
  have hkind : (φ t).kind = .start := by
    cases hk : (φ t).kind <;> simp [Phase.starts, hk] at ht ⊢
  have hcalls := h.kind t
  have hconforms := hobeys t
  refine ⟨?_, (h.holds t).mp (holds_of_starts ht), ?_, ?_⟩
  · unfold lastCall State.calls
    cases hlast : (s.shared.memory.2 t).head? with
    | none => rw [hlast, hkind] at hcalls; cases hcalls
    | some c => rw [hlast, hkind] at hcalls; rw [Option.map_some]; exact congrArg some hcalls.symm
  · intro hhead
    obtain ⟨ψ, hψ⟩ := hconforms.trans_of_head hhead (by simp) true
    cases hp : (φ t).position <;> simp [Phase.starts, hkind, hp] at ht hψ
  · intro hhead
    obtain ⟨ψ, hψ⟩ := hconforms.trans_of_head hhead (by simp) ()
    cases hp : (φ t).position <;> simp [Phase.starts, hkind, hp] at ht hψ

omit [DecidableEq ι] in
theorem lastCall_of_kind {φ : Thread ι n → Phase n} {s : Recorded ι n E} (h : Inv φ s.shared)
    {t : Thread ι n} (ht : (φ t).kind = .terminate) : lastCall s t = some .terminate := by
  have hcalls := h.kind t
  unfold lastCall State.calls
  cases hlast : (s.shared.memory.2 t).head? with
  | none =>
      rw [hlast, ht] at hcalls
      cases hcalls
  | some c =>
      rw [hlast, ht] at hcalls
      exact congrArg some hcalls.symm

theorem inv_of_reachable {s : Recorded ι n E}
    (h : (((processor ι n E).recording.system (newProcessor ι n E).recorded).restrict
      TerminatesAlone).Reachable s) :
    ∃ φ, (protocol ι n E).Obeys φ s ∧ Inv φ s.shared := by
  apply Protocol.invariant obeyed.recording _ inv_new _ h
  · exact fun t => .inr ⟨rfl, fun h => by cases h⟩
  · intro φ s l φ' shared hobeys hinv hC hmoves
    -- no `start` is missed, so that no thread may start workers
    have hunstarted : (∀ u, ¬ Starting s u) → ∀ u, (φ u).starts = false := by
      intro hnone u
      by_contra hu
      exact hnone u (starting_of_starts hobeys hinv (by simpa using hu))
    cases hmoves with
    | @act t c o r _ ψ hhead hexec htrans hspawn =>
        rw [Protocol.births_eq fun _ _ => rfl]
        apply inv_of_effect hinv (Machine.effect_of_exec hexec) htrans
        · rintro rfl hk hp hflag
          obtain ⟨hdead, hnone⟩ := (hC (lastCall_of_kind hinv hk)).1 hhead hflag
          exact ⟨hflag, hdead, hunstarted hnone⟩
        · rintro rfl hk hg hp hflag
          have hnone := (hC (lastCall_of_kind hinv hk)).2 hhead (by
            rw [Ne, ← hinv.holds t, hp]
            simp [Position.holds]) hflag
          exact ⟨(hinv.knows t).1 hg, hinv.idle hflag, hunstarted hnone⟩
    | silent => exact hinv
    | @spurious t c l ψ _ _ _ => exact hinv.stay t .refl rfl rfl
    | @enter t c m p _ _ hentry hfinal =>
        obtain ⟨⟨m₁, p₁⟩, hentry₁, hm⟩ := Option.map_eq_some_iff.mp hentry
        obtain ⟨-, -, rfl, -⟩ := entry_eq_some hentry₁
        obtain ⟨rfl, -⟩ := Prod.ext_iff.mp hm
        exact hinv.enters hfinal

end Termination

open Termination

/-- What holds once a `terminate` has returned, and of `start` at any time. -/
structure TerminateIsFinal (s : Recorded ι n E) : Prop where
  /-- Once a `terminate` has returned, no worker runs. -/
  stopped : ∀ t, s.Returned t .terminate → ∀ w, ¬ Runs s.shared.memory.1 w
  /-- A thread in `start` that is about to use an element of the vector finds it. -/
  there : ∀ t w, lastCall s t = some .start →
    (s.prog t).head = some (.store (.newWorker w)) ∨
      (s.prog t).head = some (.load (.flag (.worker w .isStartedFlag))) →
    s.shared.memory.1.flag .cleared = false

variable [DecidableEq ι]

theorem terminate_final {s : Recorded ι n E}
    (h : (((processor ι n E).recording.system (newProcessor ι n E).recorded).restrict
      TerminatesAlone).Reachable s) : TerminateIsFinal s := by
  obtain ⟨φ, hobeys, hinv⟩ := inv_of_reachable h
  have hnever : ∀ t, (φ t).position ≠ .never := by
    intro t hp
    have hknows := hinv.knows t
    rw [Knows, hp] at hknows
    exact hknows.2
  constructor
  · intro t hreturned
    have hended : (φ t).ended = true := by
      rcases hreturned with htail | ⟨hmem, hdone⟩
      · exact hinv.returned t htail
      · have hfinal := hobeys t
        cases hprog : s.prog t with
        | op o k => simp [hprog, Prog.head] at hdone
        | done a =>
            rw [hprog] at hfinal
            obtain ⟨-, hended⟩ := Or.resolve_left hfinal (hnever t)
            have hkind := hinv.kind t
            have htail := hinv.returned t
            unfold State.calls at hmem
            cases hcalls : s.shared.memory.2 t with
            | nil => simp [hcalls] at hmem
            | cons c cs =>
                rw [hcalls] at hmem hkind htail
                rcases List.mem_cons.mp hmem with rfl | hmem
                · exact hended hkind
                · exact htail hmem
    exact (hinv.ended t hended).dead
  · intro t w hlast hhead
    have hkind : (φ t).kind = .start := by
      rw [hinv.kind t]
      unfold lastCall State.calls at hlast
      rw [hlast]
      rfl
    have hp : (φ t).position = .running [] := by
      rcases hhead with hhead | hhead
      · obtain ⟨ψ, hψ⟩ := (hobeys t).trans_of_head hhead (by simp) ()
        by_contra hp
        simp [protocol, step, Phase.stores, hnever t, hp] at hψ
      · obtain ⟨ψ, hψ⟩ := (hobeys t).trans_of_head hhead (by simp) true
        by_contra hp
        simp [protocol, step, hnever t, hp, hkind] at hψ
    have hknows := hinv.knows t
    rw [Knows, hp] at hknows
    by_contra hcleared
    have hstopped := (hinv.cleared (by simpa using hcleared)).1
    rw [hknows.2.1] at hstopped
    cases hstopped

/-- A processor of one worker is started and terminated. -/
theorem terminate_final_of_started :
    ∃ s : Recorded (Fin 1) 1 Unit, s.Returned (.client 0) .terminate ∧ TerminateIsFinal s := by
  let client (k : Nat) := List.replicate k (.step (.client 0) .go : Label (names (Fin 1) 1 Unit))
  let worker (k : Nat) := List.replicate k (.step (.worker 0) .go : Label (names (Fin 1) 1 Unit))
  let answer : Label (names (Fin 1) 1 Unit) := .step (.worker 0) (.answer 0)
  let findsNoWork := [answer, answer] ++ worker 2 ++ [answer] ++ worker 1 ++ [answer] ++ worker 6
  let dies := worker 4 ++ [answer] ++ worker 2 ++ [.step (.worker 0) (.wake (.client 0))] ++
    worker 1
  obtain ⟨s, hs, hreturned⟩ := (processor (Fin 1) 1 Unit).recording.exists_of_follow
    (newProcessor (Fin 1) 1 Unit).recorded TerminatesAlone
    (fun s => s.Returned (.client 0) .terminate)
    ([.enter (.client 0) .start] ++ client 18 ++ [.enter (.client 0) .terminate] ++ client 13 ++
      findsNoWork ++ client 8 ++ [.step (.client 0) (.wake (.worker 0))] ++ client 12 ++ dies ++
      client 11)
    (by decide +kernel)
  exact ⟨s, hreturned, terminate_final hs⟩

/-- Client 0 is in `start`, and has seen that the processor is not terminated, when
client 1 terminates it; client 0 then starts a worker, with a vector that was cleared. -/
theorem terminate_misses_start :
    (∃ s : Recorded (Fin 2) 1 Unit,
      ((processor (Fin 2) 1 Unit).recording.system (newProcessor (Fin 2) 1 Unit).recorded).Reachable
        s ∧ s.Returned (.client 1) .terminate ∧ lastCall s (.client 0) = some .start ∧
        (s.prog (.client 0)).head = some (.store (.newWorker 0)) ∧
        s.shared.memory.1.flag .cleared = true) ∧
    ∃ s : Recorded (Fin 2) 1 Unit,
      ((processor (Fin 2) 1 Unit).recording.system (newProcessor (Fin 2) 1 Unit).recorded).Reachable
        s ∧ s.Returned (.client 1) .terminate ∧ Runs s.shared.memory.1 0 := by
  let go (i : Fin 2) (k : Nat) : List (Label (names (Fin 2) 1 Unit)) :=
    List.replicate k (.step (.client i) .go)
  let misses := [.enter (.client 0) .start] ++ go 0 3 ++ [.enter (.client 1) .terminate] ++
    go 1 6 ++ go 0 3
  constructor
  · obtain ⟨s, hs, h⟩ := (processor (Fin 2) 1 Unit).recording.exists_of_follow
      (newProcessor (Fin 2) 1 Unit).recorded (fun _ _ => True)
      (fun s => s.Returned (.client 1) .terminate ∧ lastCall s (.client 0) = some .start ∧
        (s.prog (.client 0)).head = some (.store (.newWorker 0)) ∧
        s.shared.memory.1.flag .cleared = true) misses (by decide +kernel)
    exact ⟨s, hs.of_restrict, h⟩
  · obtain ⟨s, hs, h⟩ := (processor (Fin 2) 1 Unit).recording.exists_of_follow
      (newProcessor (Fin 2) 1 Unit).recorded (fun _ _ => True)
      (fun s => s.Returned (.client 1) .terminate ∧ Runs s.shared.memory.1 0) (misses ++ go 0 8)
      (by decide +kernel)
    exact ⟨s, hs.of_restrict, h⟩

end HPQueue
