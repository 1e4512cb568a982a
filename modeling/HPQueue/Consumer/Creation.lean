import HPQueue.Library.Creation
import HPQueue.Consumer.Conformance

/-!
# Workers whose threads cannot be created

`start`, called again, is to start the workers that could not be started before.  It
asks each worker, and the worker does nothing if its `isStartedFlag` is set.  But
`Worker::start` sets the flag before it creates the thread, and `Thread::start` drops
what `pthread_create` returns.

So every worker is started once, whatever comes of it: after a call of `start` each
of them is marked as started, and those whose creation has failed will never run.

## Main results

* `obeyed` — the positions of all methods relative to the creation of workers.
* `recovers_iff_of_returned` — after a call of `start`, the marks are right and all
  workers were created exactly if no creation has failed.
* `not_recovers` — one creation fails, and a second call of `start` changes nothing.
-/

namespace HPQueue

open Library.Threads Library.Transition

variable {ι : Type} {n : Nat} {E : Type}

namespace Creating

/-- Where a thread stands in `start`. -/
inductive Phase (n : Nat)
  /-- A worker that was not created. -/
  | unborn
  | out
  /-- With `startLock`, in another method. -/
  | held
  | called
  /-- With `startLock`. -/
  | opened
  /-- It found the processor running. -/
  | restarting
  /-- It found the processor not running. -/
  | opening
  /-- It has these workers left to create. -/
  | making (ws : List (Fin n))
  /-- Of which `w` was constructed, -/
  | fresh (w : Fin n) (ws : List (Fin n))
  /-- and marked as started. -/
  | marked (w : Fin n) (ws : List (Fin n))
  /-- Nowhere, as long as the processor is not stopped. -/
  | never
  deriving DecidableEq

namespace Phase

/-- Whether the thread holds `startLock`. -/
def holds : Phase n → Bool
  | held | opened | restarting | opening | making _ | fresh _ _ | marked _ _ => true
  | unborn | out | called | never => false

/-- Whether the thread is in `start`. -/
def starts : Phase n → Bool
  | called | opened | restarting | opening | making _ | fresh _ _ | marked _ _ => true
  | unborn | out | held | never => false

/-- Whether the thread has workers to create. -/
def builds : Phase n → Bool
  | making _ | fresh _ _ | marked _ _ => true
  | unborn | out | held | called | opened | restarting | opening | never => false

def acquired : Phase n → Option (Phase n)
  | out => some held
  | called => some opened
  | _ => none

def released : Phase n → Option (Phase n)
  | held | restarting | making [] => some out
  | _ => none

/-- After `isTerminatedFlag` was found to have this value. -/
def seesTerminated (b : Bool) : Phase n → Phase n
  | called => if b then never else called
  | opened => if b then never else opened
  | φ => φ

/-- After `isRunningFlag` was. -/
def seesRunning (b : Bool) : Phase n → Phase n
  | opened => if b then restarting else opening
  | φ => φ

/-- After the worker's `isStartedFlag` was. -/
def seesStarted (w : Fin n) (b : Bool) : Phase n → Phase n
  | restarting => if b then restarting else never
  | fresh v ws => if v = w ∧ b then never else fresh v ws
  | φ => φ

/-- After the worker's `isTerminatedFlag` was. -/
def seesWorkerTerminated (w : Fin n) (b : Bool) : Phase n → Phase n
  | fresh v ws => if v = w ∧ b then never else fresh v ws
  | φ => φ

def constructs (w : Fin n) : Phase n → Option (Phase n)
  | making (v :: ws) => if v = w then some (fresh v ws) else none
  | _ => none

def marks (w : Fin n) : Phase n → Option (Phase n)
  | fresh v ws => if v = w then some (marked v ws) else none
  | _ => none

def creates (w : Fin n) : Phase n → Option (Phase n)
  | marked v ws => if v = w then some (making ws) else none
  | _ => none

end Phase

open Phase

/-- The operations that matter; every other leaves the phase. -/
def step [DecidableEq ι] (t : Thread ι n) (φ : Phase n) (o : Op (names ι n E)) (r : o.Result) :
    Option (Phase n) :=
  if φ = never then some never
  else
    match o, r with
    | .acquire .startLock, _ => φ.acquired
    | .release .startLock, _ => φ.released
    | .wait _ .startLock, _ => none
    | .resume _ .startLock, _ => none
    | .load (.flag .isTerminatedFlag), b => some (φ.seesTerminated b)
    | .load (.flag .isRunningFlag), b => some (φ.seesRunning b)
    | .load (.flag (.worker w .isStartedFlag)), b => some (φ.seesStarted w b)
    | .load (.flag (.worker w .isTerminatedFlag)), b => some (φ.seesWorkerTerminated w b)
    | .store (.flag .isTerminatedFlag _), _ => none
    | .store (.flag .isRunningFlag b), _ =>
        if b ∧ φ = opening then some (making (List.finRange n)) else none
    | .store (.flag (.worker w .isTerminatedFlag) b), _ =>
        if b ∧ t = .worker w ∧ φ = out then some out else none
    | .store (.flag (.worker w .isStartedFlag) b), _ => if b then φ.marks w else none
    | .store (.newWorker w), _ => φ.constructs w
    | .spawn (.worker w), _ => φ.creates w
    | .spawn (.client _), _ => none
    | _, _ => some φ

/-- Where a call begins. -/
def enters (φ : Phase n) (c : ClientCall E) : Phase n :=
  if φ = never then never
  else
    match c with
    | .start => called
    | .stop | .terminate => never
    | .add _ | .pause _ | .resume => φ

/-- Where threads are before the first call. -/
def begins : Thread ι n → Phase n
  | .client _ => out
  | .worker _ => unborn

def protocol (ι : Type) [DecidableEq ι] (n : Nat) (E : Type) :
    Protocol (names ι n E) (Phase n) where
  trans t φ o r := step t φ o r
  pre _ _ φ := φ = never ∨ φ = out
  post _ _ φ _ ψ := ψ = φ
  final t φ := φ = never ∨ φ = out ∨ (∃ w, t = .worker w) ∧ φ = unborn
  enter _ c φ := enters φ c
  born _ _ := out

variable [DecidableEq ι] {t : Thread ι n}

theorem absorbs : (protocol ι n E).Absorbs (· = never) where
  trans := by
    rintro t φ o r rfl
    exact ⟨never, by simp [protocol, step], rfl⟩
  pre := fun _ _ _ h => .inl h
  post := by
    rintro t p φ a ψ rfl rfl
    rfl

/-! ## The methods -/

theorem protocol_trans (φ : Phase n) (o : Op (names ι n E)) (r : o.Result) :
    (protocol ι n E).trans t φ o r = step t φ o r := rfl

theorem protocol_pre (p : Proc n E) (φ : Phase n) :
    (protocol ι n E).pre t p φ ↔ φ = never ∨ φ = out := Iff.rfl

theorem protocol_post (p : Proc n E) (φ ψ : Phase n) (a : Int) :
    (protocol ι n E).post t p φ a ψ ↔ ψ = φ := Iff.rfl

attribute [local simp] protocol_trans protocol_pre protocol_post step acquired released
  seesTerminated seesRunning seesStarted seesWorkerTerminated constructs marks creates
  Protocol.Keeps Prog.Only.ite_iff Prog.ite_bind Worker.get Worker.set QueueProcessor.get
  QueueProcessor.set

/-- Operations of threads that do not hold `startLock`. -/
abbrev Outside (t : Thread ι n) : Op (names ι n E) → Prop := (protocol ι n E).Keeps t out

/-- Operations of threads that hold it in `pause` or `resume`. -/
abbrev Inside (t : Thread ι n) : Op (names ι n E) → Prop := (protocol ι n E).Keeps t held

theorem producing_outside (o : Op (names ι n E)) (h : Producing o) : Outside t o := by
  cases o with
  | acquire l | release l | broadcast c =>
      obtain rfl := h
      simp
  | wait c l =>
      obtain ⟨rfl, rfl⟩ := h
      simp
  | load x => rcases h with rfl | rfl <;> simp
  | store x => rcases h with ⟨b, rfl⟩ | ⟨d, rfl⟩ <;> simp
  | ask q | call p => simp
  | resume c l | signal c | spawn u => cases h

theorem broadcast_outside : (QueueProcessor.broadcast : Code ι n E Unit).Only (Outside t) := by
  simp [QueueProcessor.broadcast]
  apply (only_forWorkers (by simp) fun w => ?_).bind
  · simp
  · simp [Worker.signal]

theorem runLoop_outside (w : Fin n) : (Worker.runLoop w : Code ι n E Int).Only (Outside t) := by
  simp [Worker.runLoop, Worker.waitWhilePaused, Worker.waitForWork, Worker.doWork, Worker.isWork]

theorem run_outside (w : Fin n) :
    (Worker.run w : Code ι n E Unit).Only (Outside (.worker w)) := by
  simp [Worker.run, Worker.handleError, Worker.signalDead]

theorem pause_inside (w : Fin n) (block : Bool) :
    (Worker.pause w block : Code ι n E Unit).Only (Inside t) := by
  simp [Worker.pause, Worker.signal]

theorem resume_inside (w : Fin n) : (Worker.resume w : Code ι n E Unit).Only (Inside t) := by
  simp [Worker.resume]

attribute [local simp] Conforms

theorem conforms_pause (block : Bool) :
    Conforms (protocol ι n E) t out (QueueProcessor.pause block) fun _ φ => φ = out := by
  simp [QueueProcessor.pause]
  apply (Conforms.of_keeps (only_forWorkers (by simp) fun w => pause_inside w false)).bind
  rintro _ _ rfl
  split
  · apply (Conforms.of_keeps (only_forWorkers (by simp) fun w => pause_inside w true)).bind
    rintro _ _ rfl
    simp
  · simp

theorem conforms_resume :
    Conforms (protocol ι n E) t out QueueProcessor.resume fun _ φ => φ = out := by
  simp [QueueProcessor.resume]
  apply (Conforms.of_keeps (only_forWorkers (by simp) resume_inside)).bind
  rintro _ _ rfl
  simp

/-- A worker that was constructed is marked and created. -/
theorem conforms_startNew {w : Fin n} {ws : List (Fin n)} :
    Conforms (protocol ι n E) t (making (w :: ws)) (QueueProcessor.startNew w)
      fun _ φ => φ = never ∨ φ = making ws := by
  simp [QueueProcessor.startNew, Worker.start]

/-- A worker that is marked is left alone. -/
theorem conforms_start_worker (w : Fin n) :
    Conforms (protocol ι n E) t restarting (Worker.start w)
      fun _ φ => φ = never ∨ φ = restarting := by
  simp [Worker.start]

theorem conforms_start :
    Conforms (protocol ι n E) t called QueueProcessor.start fun _ φ => φ = never ∨ φ = out := by
  simp [QueueProcessor.start]
  constructor
  · have hloop : Conforms (protocol ι n E) t (making (List.finRange n))
        (Prog.forEach (List.finRange n) QueueProcessor.startNew)
        fun _ φ => φ = never ∨ φ = making [] := by
      apply Conforms.forEach (I := fun ws φ => φ = never ∨ φ = making ws) _ (.inr rfl)
      rintro w ws φ (hnever | rfl)
      · exact (absorbs.conforms hnever _).mono fun _ _ h => .inl h
      · exact conforms_startNew
    apply absorbs.bind hloop
    rintro _ _ rfl
    simp
  · have hloop : Conforms (protocol ι n E) t restarting
        (Prog.forEach (List.finRange n) Worker.start)
        fun _ φ => φ = never ∨ φ = restarting := by
      apply Conforms.forEach (I := fun _ φ => φ = never ∨ φ = restarting) _ (.inr rfl)
      rintro w ws φ (hnever | rfl)
      · exact (absorbs.conforms hnever _).mono fun _ _ h => .inl h
      · exact conforms_start_worker w
    apply absorbs.bind hloop
    rintro _ _ rfl
    simp

theorem conforms_body (p : Proc n E) :
    Conforms (protocol ι n E) t out (procedure p) fun _ φ => φ = out := by
  cases p with
  | whileResizing => exact Conforms.of_keeps (by simp [procedure, ResizeControls.whileResizing])
  | whileAdding => exact Conforms.of_keeps (by simp [procedure, ResizeControls.whileAdding])
  | whileFull entry =>
      exact Conforms.of_keeps (by simp [procedure, QueueProducerInterface.whileFull])
  | addLoop entry index =>
      apply (conforms_addLoop_of (.nowhere _) producing_outside (by simp [Loops])
        ((conforms_pause true).mono fun _ _ => .inr)
        (conforms_resume.mono fun _ _ => .inr) entry index).mono
      simp
  | runLoop w => exact Conforms.of_keeps (runLoop_outside w)
  | whileAlive w => exact Conforms.of_keeps (by simp [procedure, Worker.whileAlive])

theorem conforms_method {i : ι} (c : ClientCall E) :
    Conforms (protocol ι n E) (.client i) (enters out c) (method c)
      fun _ φ => φ = never ∨ φ = out := by
  cases c with
  | add entry =>
      exact conforms_add_of absorbs producing_outside (by simp [Loops]) (by simp)
        ((Conforms.of_keeps broadcast_outside).mono fun _ _ => .inr) entry
  | start => exact conforms_start
  | stop | terminate => exact (absorbs.conforms rfl _).mono fun _ _ => .inl
  | pause block => exact (conforms_pause block).mono fun _ _ => .inr
  | resume => exact conforms_resume.mono fun _ _ => .inr

/-- All methods keep to the protocol. -/
theorem obeyed : (protocol ι n E).Obeyed (processor ι n E) where
  body := by
    rintro t p φ (rfl | rfl)
    · exact absorbs.conforms rfl _
    · exact conforms_body p
  main := by
    rintro (i | w) φ hfinal
    · exact .inr (.inl rfl)
    · apply (Conforms.of_keeps (run_outside w)).mono
      rintro _ _ rfl
      exact .inr (.inl rfl)
  entry := by
    intro t c m m' p φ hentry hfinal
    obtain ⟨i, rfl, -, rfl⟩ := entry_eq_some hentry
    rcases hfinal with rfl | rfl | ⟨⟨w, hw⟩, -⟩
    · exact (absorbs.conforms rfl _).mono fun _ _ h => .inl h
    · exact (conforms_method c).mono fun _ φ h => h.imp_right .inl
    · cases hw

/-! ## The invariant -/

omit [DecidableEq ι]

/-- The worker is marked as started, and its creation was tried once. -/
def Done (m : Control ι n) (k : Census (names ι n E)) (w : Fin n) : Prop :=
  m.flag (.worker w .isStartedFlag) = true ∧ k.attempts (.worker w) = 1

/-- The workers `ws` are left, and all others are done. -/
structure Left (m : Control ι n) (k : Census (names ι n E)) (ws : List (Fin n)) : Prop where
  running : m.flag .isRunningFlag = true
  nodup : ws.Nodup
  left : ∀ w ∈ ws, k.attempts (.worker w) = 0
  done : ∀ w, w ∉ ws → Done m k w

theorem Left.not_nil {m : Control ι n} {k : Census (names ι n E)} {w : Fin n}
    {ws : List (Fin n)} (h : Left m k (w :: ws)) : ¬ Left m k [] := by
  intro hnil
  have hdone := (hnil.done w (by simp)).2
  rw [h.left w (by simp)] at hdone
  cases hdone

/-- What a thread knows of the workers. -/
def Knows (m : Control ι n) (k : Census (names ι n E)) : Phase n → Prop
  | unborn | out | held | called | opened => True
  | restarting => Left m k []
  | opening => m.flag .isRunningFlag = false
  | making ws => Left m k ws
  | fresh w ws => Left m k (w :: ws) ∧ m.flag (.worker w .isStartedFlag) = false ∧
      m.flag (.worker w .isTerminatedFlag) = false
  | marked w ws => Left m k (w :: ws) ∧ m.flag (.worker w .isStartedFlag) = true
  | never => False

theorem knows_of_not_holds {m m' : Control ι n} {k k' : Census (names ι n E)} {φ : Phase n}
    (h : φ.holds = false) (hknows : Knows m k φ) : Knows m' k' φ := by
  cases φ <;> simp [holds] at h <;> trivial

/-- A change that leaves alone what `start` looks at; a worker that was created may be
terminated. -/
structure Mild (k : Census (names ι n E)) (m m' : Control ι n) : Prop where
  terminated : m'.flag .isTerminatedFlag = m.flag .isTerminatedFlag
  running : m'.flag .isRunningFlag = m.flag .isRunningFlag
  started : ∀ w, m'.flag (.worker w .isStartedFlag) = m.flag (.worker w .isStartedFlag)
  workerTerminated : ∀ w, k.attempts (.worker w) = 0 →
    m'.flag (.worker w .isTerminatedFlag) = m.flag (.worker w .isTerminatedFlag)

namespace Mild

variable {k : Census (names ι n E)} {m m' : Control ι n}

theorem refl : Mild k m m := ⟨rfl, rfl, fun _ => rfl, fun _ _ => rfl⟩

theorem left (h : Mild k m m') {ws : List (Fin n)} (hl : Left m k ws) : Left m' k ws where
  running := by rw [h.running, hl.running]
  nodup := hl.nodup
  left := hl.left
  done w hw := ⟨by rw [h.started, (hl.done w hw).1], (hl.done w hw).2⟩

theorem knows (h : Mild k m m') {φ : Phase n} (hφ : Knows m k φ) : Knows m' k φ := by
  cases φ with
  | unborn | out | held | called | opened => trivial
  | restarting => exact h.left hφ
  | opening => exact h.running.trans hφ
  | making ws => exact h.left hφ
  | fresh w ws =>
      obtain ⟨hl, hstarted, hterminated⟩ := hφ
      exact ⟨h.left hl, by rw [h.started, hstarted],
        by rw [h.workerTerminated w (hl.left w (by simp)), hterminated]⟩
  | marked w ws => exact ⟨h.left hφ.1, by rw [h.started, hφ.2]⟩
  | never => exact hφ

end Mild

/-- The memory, and the calls that were made. -/
abbrev Memory (ι : Type) (n : Nat) (E : Type) : Type :=
  Control ι n × (Thread ι n → List (ClientCall E))

structure Sound (φ : Thread ι n → Phase n) (s : Shared (names ι n E) (Memory ι n E))
    (k : Census (names ι n E)) : Prop where
  terminated : s.memory.1.flag .isTerminatedFlag = false
  holds : ∀ t, (φ t).holds = true → s.held .startLock = some t
  unborn : ∀ w, k.attempts (.worker w) = 0 → φ (.worker w) = .unborn
  idle : s.memory.1.flag .isRunningFlag = false → ∀ w, k.attempts (.worker w) = 0
  running : s.memory.1.flag .isRunningFlag = true →
    (∃ t, (φ t).builds = true) ∨ Left s.memory.1 k []
  knows : ∀ t, Knows s.memory.1 k (φ t)
  returned : ∀ t, .start ∈ (s.memory.2 t).tail → Left s.memory.1 k []
  called : ∀ t, .start ∈ s.memory.2 t → (φ t).starts = true ∨ Left s.memory.1 k []

namespace Sound

variable {φ φ' : Thread ι n → Phase n} {s s' : Shared (names ι n E) (Memory ι n E)}
  {k k' : Census (names ι n E)} {ψ : Phase n}

theorem not_holds_of_ne (h : Sound φ s k) {u : Thread ι n} (ht : (φ t).holds = true)
    (hut : u ≠ t) : (φ u).holds = false := by
  by_contra hu
  have hu := h.holds u (by simpa using hu)
  exact hut (Option.some.inj (hu.symm.trans (h.holds t ht)))

theorem holds_of_builds {φ : Phase n} (h : φ.builds = true) : φ.holds = true := by
  cases φ <;> simp [builds] at h <;> rfl

/-- What was called stays called: the memory changes mildly, and the calls do not. -/
theorem congr (h : Sound φ s k) (hmild : Mild k s.memory.1 s'.memory.1)
    (hcalls : s'.memory.2 = s.memory.2)
    (hheld : s'.held .startLock = s.held .startLock) : Sound φ s' k where
  terminated := by rw [hmild.terminated, h.terminated]
  holds t ht := by rw [hheld, h.holds t ht]
  unborn := h.unborn
  idle hrun := h.idle (by rw [← hmild.running, hrun])
  running hrun := (h.running (by rw [← hmild.running, hrun])).imp_right hmild.left
  knows t := hmild.knows (h.knows t)
  returned t ht := hmild.left (h.returned t (by rwa [hcalls] at ht))
  called t ht := (h.called t (by rwa [hcalls] at ht)).imp_right hmild.left

variable [DecidableEq ι]

/-- A thread goes from one phase to another, and the memory stays as it is. -/
theorem move (h : Sound φ s k)
    (hholds : ∀ u, (Function.update φ t ψ u).holds = true → s'.held .startLock = some u)
    (hmemory : s'.memory = s.memory) (hknows : Knows s.memory.1 k ψ)
    (hunborn : φ t = .unborn → ψ = .unborn)
    (hbuilds : (φ t).builds = true → ψ.builds = true ∨ Left s.memory.1 k [])
    (hstarts : (φ t).starts = true → ψ.starts = true ∨ Left s.memory.1 k []) :
    Sound (Function.update φ t ψ) s' k := by
  constructor <;> try rw [hmemory]
  · exact h.terminated
  · exact hholds
  · intro w hw
    have hw := h.unborn w hw
    by_cases hwt : .worker w = t
    · subst hwt
      simpa using hunborn hw
    · simpa [hwt] using hw
  · exact h.idle
  · intro hrun
    rcases h.running hrun with ⟨u, hu⟩ | hleft
    · by_cases hut : u = t
      · subst hut
        exact (hbuilds hu).imp_left fun hψ => ⟨u, by simpa using hψ⟩
      · exact .inl ⟨u, by simpa [hut] using hu⟩
    · exact .inr hleft
  · intro u
    by_cases hut : u = t
    · subst hut
      simpa using hknows
    · simpa [hut] using h.knows u
  · exact h.returned
  · intro u hu
    rcases h.called u hu with hu | hleft
    · by_cases hut : u = t
      · subst hut
        simpa using hstarts hu
      · exact .inl (by simpa [hut] using hu)
    · exact .inr hleft

omit [DecidableEq ι] in
/-- The thread with the lock gets on with the workers that are left; others can only be
created meanwhile. -/
theorem build (h : Sound φ s k) (ht : (φ t).holds = true) (hleft : ¬ Left s.memory.1 k [])
    (hterminated : s'.memory.1.flag .isTerminatedFlag = s.memory.1.flag .isTerminatedFlag)
    (hrunning : s'.memory.1.flag .isRunningFlag = true) (hcalls : s'.memory.2 = s.memory.2)
    (hheld : s'.held .startLock = s.held .startLock)
    (hothers : ∀ u, u ≠ t → φ' u = φ u ∨ φ u = .unborn ∧ φ' u = .out)
    (hunborn : ∀ w, k'.attempts (.worker w) = 0 → φ' (.worker w) = .unborn)
    (hbuilds : (φ' t).builds = true) (hstarts : (φ' t).starts = true)
    (hknows : Knows s'.memory.1 k' (φ' t)) : Sound φ' s' k' where
  terminated := by rw [hterminated, h.terminated]
  holds u hu := by
    rw [hheld]
    by_cases hut : u = t
    · subst hut
      exact h.holds u ht
    · rcases hothers u hut with hsame | ⟨-, hout⟩
      · exact h.holds u (by rw [← hsame, hu])
      · simp [hout, Phase.holds] at hu
  unborn := hunborn
  idle hrun := by rw [hrunning] at hrun; cases hrun
  running _ := .inl ⟨t, hbuilds⟩
  knows u := by
    by_cases hut : u = t
    · subst hut
      exact hknows
    · rcases hothers u hut with hsame | ⟨-, hout⟩
      · rw [hsame]
        exact knows_of_not_holds (h.not_holds_of_ne ht hut) (h.knows u)
      · rw [hout]
        trivial
  returned u hu := (hleft (h.returned u (by rwa [hcalls] at hu))).elim
  called u hu := by
    by_cases hut : u = t
    · subst hut
      exact .inl hstarts
    · have hu := (h.called u (by rwa [hcalls] at hu)).resolve_right hleft
      rcases hothers u hut with hsame | ⟨hunborn, -⟩
      · exact .inl (by rw [hsame, hu])
      · simp [hunborn, Phase.starts] at hu

theorem acquire (h : Sound φ s k) (hfree : s.held .startLock = none)
    (hψ : (φ t).acquired = some ψ) :
    Sound (Function.update φ t ψ) (s.lock .startLock (some t)) k := by
  have hnone : ∀ u, (φ u).holds = false := by
    intro u
    by_contra hu
    have hu := h.holds u (by simpa using hu)
    rw [hfree] at hu
    cases hu
  have hholds : ∀ u, (Function.update φ t ψ u).holds = true →
      (s.lock .startLock (some t)).held .startLock = some u := by
    intro u hu
    by_cases hut : u = t
    · subst hut
      simp [Shared.lock]
    · simp [hut, hnone u] at hu
  cases hφ : φ t <;> simp [hφ] at hψ <;> subst hψ
  · apply h.move hholds rfl trivial <;> simp [hφ, Phase.builds, Phase.starts]
  · apply h.move hholds rfl trivial <;> simp [hφ, Phase.builds, Phase.starts]

theorem release (h : Sound φ s k) (hheld : s.held .startLock = some t)
    (hψ : (φ t).released = some ψ) :
    Sound (Function.update φ t ψ) (s.lock .startLock none) k := by
  have hholds : (φ t).holds = true → ∀ u, (Function.update φ t .out u).holds = true →
      (s.lock .startLock none).held .startLock = some u := by
    intro ht u hu
    by_cases hut : u = t
    · subst hut
      simp [Phase.holds] at hu
    · simp [hut, h.not_holds_of_ne ht hut] at hu
  have hknows := h.knows t
  cases hφ : φ t with
  | held =>
      obtain rfl : Phase.out = ψ := by simpa [hφ] using hψ
      apply h.move (hholds (by simp [hφ, Phase.holds])) rfl trivial <;>
        simp [hφ, Phase.builds, Phase.starts]
  | restarting =>
      obtain rfl : Phase.out = ψ := by simpa [hφ] using hψ
      rw [hφ] at hknows
      apply h.move (hholds (by simp [hφ, Phase.holds])) rfl trivial
      · simp [hφ]
      · simp [hφ, Phase.builds]
      · exact fun _ => .inr hknows
  | making ws =>
      cases ws with
      | nil =>
          obtain rfl : Phase.out = ψ := by simpa [hφ] using hψ
          rw [hφ] at hknows
          apply h.move (hholds (by simp [hφ, Phase.holds])) rfl trivial
          · simp [hφ]
          · exact fun _ => .inr hknows
          · exact fun _ => .inr hknows
      | cons w ws => simp [hφ] at hψ
  | unborn | out | called | opened | opening | fresh w ws | marked w ws | never =>
      simp [hφ] at hψ

/-- A thread finds out something, and holds the lock as before. -/
theorem look (h : Sound φ s k) (hholds : ψ.holds = true → (φ t).holds = true)
    (hknows : Knows s.memory.1 k ψ) (hunborn : φ t = .unborn → ψ = .unborn)
    (hbuilds : (φ t).builds = true → ψ.builds = true)
    (hstarts : (φ t).starts = true → ψ.starts = true) : Sound (Function.update φ t ψ) s k := by
  refine h.move ?_ rfl hknows hunborn (fun ht => .inl (hbuilds ht)) (fun ht => .inl (hstarts ht))
  intro u hu
  by_cases hut : u = t
  · subst hut
    exact h.holds u (hholds (by simpa using hu))
  · exact h.holds u (by simpa [hut] using hu)

/-- Nobody has stopped the processor. -/
theorem seesTerminated (h : Sound φ s k) :
    Sound (Function.update φ t ((φ t).seesTerminated (s.memory.1.flag .isTerminatedFlag))) s k := by
  have hsame : (φ t).seesTerminated false = φ t := by cases φ t <;> rfl
  rw [h.terminated, hsame, Function.update_eq_self]
  exact h

/-- While a thread holds the lock and builds nothing, either all workers are done or
the processor does not run. -/
theorem seesRunning (h : Sound φ s k) :
    Sound (Function.update φ t ((φ t).seesRunning (s.memory.1.flag .isRunningFlag))) s k := by
  cases hφ : φ t with
  | opened =>
      have ht : (φ t).holds = true := by simp [hφ, Phase.holds]
      cases hrun : s.memory.1.flag .isRunningFlag with
      | true =>
          have hleft : Left s.memory.1 k [] := by
            refine (h.running hrun).resolve_left ?_
            rintro ⟨u, hu⟩
            by_cases hut : u = t
            · subst hut
              simp [hφ, Phase.builds] at hu
            · have hnot := h.not_holds_of_ne ht hut
              rw [holds_of_builds hu] at hnot
              cases hnot
          apply h.look <;> simp [hφ, Phase.holds, Phase.builds, Phase.starts]
          exact hleft
      | false =>
          apply h.look <;> simp [hφ, Phase.holds, Phase.builds, Phase.starts]
          exact hrun
  | unborn | out | held | called | restarting | opening | making ws | fresh w ws | marked w ws
  | never =>
      simp only [Phase.seesRunning]
      rw [← hφ, Function.update_eq_self]
      exact h

theorem seesStarted (h : Sound φ s k) (w : Fin n) :
    Sound (Function.update φ t
      ((φ t).seesStarted w (s.memory.1.flag (.worker w .isStartedFlag)))) s k := by
  have hknows := h.knows t
  have hsame : (φ t).seesStarted w (s.memory.1.flag (.worker w .isStartedFlag)) = φ t := by
    cases hφ : φ t with
    | restarting =>
        rw [hφ] at hknows
        simp [(hknows.done w (by simp)).1]
    | fresh v ws =>
        rw [hφ] at hknows
        simp only [Phase.seesStarted]
        split
        · rename_i hfound
          obtain ⟨rfl, hstarted⟩ := hfound
          rw [hknows.2.1] at hstarted
          cases hstarted
        · rfl
    | unborn | out | held | called | opened | opening | making ws | marked v ws | never => rfl
  rw [hsame, Function.update_eq_self]
  exact h

theorem seesWorkerTerminated (h : Sound φ s k) (w : Fin n) :
    Sound (Function.update φ t
      ((φ t).seesWorkerTerminated w (s.memory.1.flag (.worker w .isTerminatedFlag)))) s k := by
  have hknows := h.knows t
  have hsame : (φ t).seesWorkerTerminated w (s.memory.1.flag (.worker w .isTerminatedFlag)) =
      φ t := by
    cases hφ : φ t with
    | fresh v ws =>
        rw [hφ] at hknows
        simp only [Phase.seesWorkerTerminated]
        split
        · rename_i hfound
          obtain ⟨rfl, hterminated⟩ := hfound
          rw [hknows.2.2] at hterminated
          cases hterminated
        · rfl
    | unborn | out | held | called | opened | restarting | opening | making ws | marked v ws
    | never => rfl
  rw [hsame, Function.update_eq_self]
  exact h

/-- `isRunningFlag` is set, and no worker was created yet. -/
theorem runs (h : Sound φ s k) (hφ : φ t = .opening) :
    Sound (Function.update φ t (.making (List.finRange n)))
      { s with memory := (s.memory.1.store t (.flag .isRunningFlag true), s.memory.2) } k := by
  have hstopped : s.memory.1.flag .isRunningFlag = false := by
    have hknows := h.knows t
    rwa [hφ] at hknows
  have hnone := h.idle hstopped
  have hunborn : ∀ w, .worker w ≠ t := by
    intro w hw
    have hw' := h.unborn w (hnone w)
    rw [hw, hφ] at hw'
    cases hw'
  apply h.build (t := t)
  · simp [hφ, Phase.holds]
  · intro hleft
    rw [hleft.running] at hstopped
    cases hstopped
  · simp
  · simp
  · rfl
  · rfl
  · exact fun u hut => .inl (by simp [hut])
  · intro w hw
    simpa [hunborn w] using h.unborn w hw
  · simp [Phase.builds]
  · simp [Phase.starts]
  · simp only [Function.update_self]
    exact ⟨by simp, List.nodup_finRange n, fun w _ => hnone w, fun w hw => by simp at hw⟩

/-- The thread with the lock constructs or marks the worker it creates next. -/
theorem prepares (h : Sound φ s k) {w : Fin n} {ws : List (Fin n)} {m : Control ι n}
    (ht : (φ t).holds = true) (hleft : Left s.memory.1 k (w :: ws))
    (hterminated : m.flag .isTerminatedFlag = s.memory.1.flag .isTerminatedFlag)
    (hrunning : m.flag .isRunningFlag = s.memory.1.flag .isRunningFlag)
    (hunborn : φ t ≠ .unborn) (hbuilds : ψ.builds = true) (hstarts : ψ.starts = true)
    (hknows : Knows m k ψ) :
    Sound (Function.update φ t ψ) { s with memory := (m, s.memory.2) } k := by
  refine h.build ht hleft.not_nil hterminated (hrunning.trans hleft.running) rfl rfl
    ?_ ?_ ?_ ?_ ?_
  · exact fun u hut => .inl (by simp [hut])
  · intro v hv
    have hv := h.unborn v hv
    have hvt : .worker v ≠ t := by
      rintro rfl
      exact hunborn hv
    simpa [hvt] using hv
  · simpa using hbuilds
  · simpa using hstarts
  · simpa using hknows

theorem constructs (h : Sound φ s k) {w : Fin n} (hψ : (φ t).constructs w = some ψ) :
    Sound (Function.update φ t ψ)
      { s with memory := (s.memory.1.store t (.newWorker w), s.memory.2) } k := by
  have hknows := h.knows t
  cases hφ : φ t with
  | making ws =>
      cases ws with
      | nil => simp [hφ] at hψ
      | cons v ws =>
          obtain ⟨rfl, rfl⟩ : v = w ∧ Phase.fresh v ws = ψ := by simpa [hφ] using hψ
          rw [hφ] at hknows
          refine h.prepares (by simp [hφ, Phase.holds]) hknows rfl rfl (by simp [hφ]) rfl rfl ?_
          refine ⟨⟨hknows.running, hknows.nodup, hknows.left, fun u hu => ?_⟩, ?_, ?_⟩
          · have huv : u ≠ v := fun huv => hu (by simp [huv])
            exact ⟨by simpa [Control.store, huv] using (hknows.done u hu).1,
              (hknows.done u hu).2⟩
          · simp [Control.store]
          · simp [Control.store]
  | unborn | out | held | called | opened | restarting | opening | fresh w ws | marked w ws
  | never => simp [hφ] at hψ

theorem marks (h : Sound φ s k) {w : Fin n} (hψ : (φ t).marks w = some ψ) :
    Sound (Function.update φ t ψ)
      { s with
        memory := (s.memory.1.store t (.flag (.worker w .isStartedFlag) true), s.memory.2) } k := by
  have hknows := h.knows t
  cases hφ : φ t with
  | fresh v ws =>
      obtain ⟨rfl, rfl⟩ : v = w ∧ Phase.marked v ws = ψ := by simpa [hφ] using hψ
      rw [hφ] at hknows
      obtain ⟨hleft, -, -⟩ := hknows
      refine h.prepares (by simp [hφ, Phase.holds]) hleft (by simp) (by simp) (by simp [hφ]) rfl
        rfl ?_
      refine ⟨⟨by simpa using hleft.running, hleft.nodup, hleft.left, fun u hu => ?_⟩, by simp⟩
      have huv : u ≠ v := fun huv => hu (by simp [huv])
      exact ⟨by simpa [huv] using (hleft.done u hu).1, (hleft.done u hu).2⟩
  | unborn | out | held | called | opened | restarting | opening | making ws | marked w ws
  | never => simp [hφ] at hψ

/-- Every other store. -/
theorem store (h : Sound φ s k) {x : Store n}
    (hψ : step t (φ t) (.store x : Op (names ι n E)) () = some ψ) :
    Sound (Function.update φ t ψ)
      { s with memory := (s.memory.1.store t x, s.memory.2) } k := by
  have hnever : φ t ≠ .never := by
    intro hφ
    have hknows := h.knows t
    rwa [hφ] at hknows
  simp only [step, if_neg hnever] at hψ
  have hmild : ∀ {m : Control ι n}, Mild k s.memory.1 m → φ t = ψ →
      Sound (Function.update φ t ψ) { s with memory := (m, s.memory.2) } k := by
    rintro m hmild rfl
    rw [Function.update_eq_self]
    exact h.congr hmild rfl rfl
  cases x with
  | newWorker w => exact h.constructs hψ
  | addingCount d | nestedPauseCounter d =>
      exact hmild ⟨rfl, rfl, fun _ => rfl, fun _ _ => rfl⟩ (by simpa using hψ)
  | flag f b =>
      cases f with
      | isTerminatedFlag => simp at hψ
      | isRunningFlag =>
          obtain ⟨⟨rfl, hφ⟩, rfl⟩ : (b = true ∧ φ t = .opening) ∧ _ = ψ := by simpa using hψ
          exact h.runs hφ
      | isPausedFlag | resizing | cleared | processingWorker w =>
          exact hmild ⟨by simp, by simp, by simp, by simp⟩ (by simpa using hψ)
      | worker w g =>
          cases g with
          | isStartedFlag =>
              obtain ⟨rfl, hψ⟩ : b = true ∧ _ := by simpa using hψ
              exact h.marks hψ
          | isTerminatedFlag =>
              obtain ⟨⟨rfl, rfl, hφ⟩, rfl⟩ :
                (b = true ∧ t = .worker w ∧ φ t = .out) ∧ Phase.out = ψ := by simpa using hψ
              refine hmild ⟨by simp, by simp, by simp, fun v hv => ?_⟩ hφ
              have hvw : v ≠ w := by
                rintro rfl
                rw [h.unborn v hv] at hφ
                cases hφ
              simp [hvw]
          | isPausedFlag | isIdleFlag | isDeadFlag | isWaitingFlag | haveWorkJoiners =>
              exact hmild ⟨by simp, by simp, by simp, by simp⟩ (by simpa using hψ)

omit [DecidableEq ι] in
theorem ne_never (h : Sound φ s k) (t : Thread ι n) : φ t ≠ .never := by
  intro hφ
  have hknows := h.knows t
  rwa [hφ] at hknows

/-- Of what else a thread does, only the lock and what it loads matters. -/
theorem act (h : Sound φ s k) {o : Op (names ι n E)} {r : o.Result} (hspawn : ∀ u, o ≠ .spawn u)
    (heffect : (processor ι n E).recording.Effect s t o r s')
    (hψ : step t (φ t) o r = some ψ) : Sound (Function.update φ t ψ) s' k := by
  have hstep := hψ
  simp only [step, if_neg (h.ne_never t)] at hψ
  have hsame : s'.memory = s.memory → s'.held .startLock = s.held .startLock → φ t = ψ →
      Sound (Function.update φ t ψ) s' k := by
    rintro hmemory hheld rfl
    rw [Function.update_eq_self]
    exact h.congr (by rw [hmemory]; exact .refl) (by rw [hmemory]) hheld
  cases heffect with
  | @acquire l hfree =>
      cases l with
      | startLock => exact h.acquire hfree hψ
      | workerLock | resizeQueuesLock | workerStartLock w | isWorkLock w | hasDiedLock w
      | hasPausedLock w => exact hsame rfl (by simp [Shared.lock]) (Option.some.inj hψ)
  | @release l hheld =>
      cases l with
      | startLock => exact h.release hheld hψ
      | workerLock | resizeQueuesLock | workerStartLock w | isWorkLock w | hasDiedLock w
      | hasPausedLock w => exact hsame rfl (by simp [Shared.lock]) (Option.some.inj hψ)
  | @wait c l hheld =>
      cases l with
      | startLock => cases hψ
      | workerLock | resizeQueuesLock | workerStartLock w | isWorkLock w | hasDiedLock w
      | hasPausedLock w =>
          exact hsame rfl (by simp [Shared.lock, Shared.sleep]) (Option.some.inj hψ)
  | @resume c l hawake hfree =>
      cases l with
      | startLock => cases hψ
      | workerLock | resizeQueuesLock | workerStartLock w | isWorkLock w | hasDiedLock w
      | hasPausedLock w => exact hsame rfl (by simp [Shared.lock]) (Option.some.inj hψ)
  | unheard hnone | signal hasleep | broadcast => exact hsame rfl rfl (Option.some.inj hψ)
  | @ask q a m hreply =>
      have hmemory : s.memory = m := by simpa [Machine.recording, processor] using hreply
      exact hsame hmemory.symm rfl (Option.some.inj hψ)
  | @load x =>
      cases x with
      | addingCount | nestedPauseCounter => exact hsame rfl rfl (Option.some.inj hψ)
      | flag f =>
          cases f with
          | isTerminatedFlag =>
              obtain rfl := Option.some.inj hψ
              exact h.seesTerminated
          | isRunningFlag =>
              obtain rfl := Option.some.inj hψ
              exact h.seesRunning
          | isPausedFlag | resizing | cleared | processingWorker w =>
              exact hsame rfl rfl (Option.some.inj hψ)
          | worker w g =>
              cases g with
              | isStartedFlag =>
                  obtain rfl := Option.some.inj hψ
                  exact h.seesStarted w
              | isTerminatedFlag =>
                  obtain rfl := Option.some.inj hψ
                  exact h.seesWorkerTerminated w
              | isPausedFlag | isIdleFlag | isDeadFlag | isWaitingFlag | haveWorkJoiners =>
                  exact hsame rfl rfl (Option.some.inj hψ)
  | store => exact h.store hstep
  | spawn => exact absurd rfl (hspawn _)

/-- A worker was created, or its creation has failed. -/
theorem attempt (h : Sound φ s k) {u : Thread ι n} {φ₁ : Thread ι n → Phase n}
    (hψ : step t (φ t) (.spawn u : Op (names ι n E)) () = some ψ)
    (hk : ∀ v, k'.attempts v = k.attempts v + if v = u then 1 else 0)
    (hothers : ∀ v, v ≠ t → φ₁ v = φ v ∨ v = u ∧ φ₁ v = .out) :
    Sound (Function.update φ₁ t ψ) s k' := by
  simp only [step, if_neg (h.ne_never t)] at hψ
  have hknows := h.knows t
  cases u with
  | client i => cases hψ
  | worker w =>
      cases hφ : φ t with
      | marked v ws =>
          obtain ⟨rfl, rfl⟩ : v = w ∧ Phase.making ws = ψ := by simpa [hφ] using hψ
          rw [hφ] at hknows
          obtain ⟨hleft, hstarted⟩ := hknows
          obtain ⟨hvs, hnodup⟩ := List.nodup_cons.mp hleft.nodup
          refine h.build (t := t) (by simp [hφ, Phase.holds]) hleft.not_nil rfl hleft.running rfl
            rfl ?_ ?_ (by simp [Phase.builds]) (by simp [Phase.starts]) ?_
          · intro x hx
            rw [Function.update_of_ne hx]
            refine (hothers x hx).imp_right ?_
            rintro ⟨rfl, hout⟩
            exact ⟨h.unborn v (hleft.left v (by simp)), hout⟩
          · intro x hx
            rw [hk] at hx
            have hxv : .worker x ≠ (.worker v : Thread ι n) := by
              intro hxv
              rw [if_pos hxv] at hx
              cases hx
            rw [if_neg hxv] at hx
            have hx := h.unborn x hx
            have hxt : .worker x ≠ t := by
              rintro rfl
              rw [hφ] at hx
              cases hx
            rw [Function.update_of_ne hxt]
            rcases hothers _ hxt with hsame | ⟨hxv', -⟩
            · rw [hsame, hx]
            · exact absurd hxv' hxv
          · simp only [Function.update_self]
            refine ⟨hleft.running, hnodup, fun x hx => ?_, fun x hx => ?_⟩
            · have hxv : x ≠ v := by
                rintro rfl
                exact hvs hx
              simp [hk, hleft.left x (by simp [hx]), hxv]
            · by_cases hxv : x = v
              · subst hxv
                exact ⟨hstarted, by simp [hk, hleft.left x (by simp)]⟩
              · have hdone := hleft.done x (by simp [hxv, hx])
                exact ⟨hdone.1, by simp [hk, hdone.2, hxv]⟩
      | unborn | out | held | called | opened | restarting | opening | making ws | fresh w ws
      | never => simp [hφ] at hψ

/-- A thread is given a call that does not stop the processor. -/
theorem enter (h : Sound φ s k) {c : ClientCall E} (hfinal : φ t = .out)
    (hc : enters .out c ≠ (.never : Phase n)) :
    Sound (Function.update φ t (enters (φ t) c))
      { s with
        memory := (s.memory.1, Function.update s.memory.2 t (c :: s.memory.2 t)) } k := by
  have hphase : (enters .out c : Phase n) = .out ∨
      c = .start ∧ (enters .out c : Phase n) = .called := by
    cases c with
    | start => exact .inr ⟨rfl, rfl⟩
    | stop | terminate => exact absurd rfl hc
    | add entry | pause block | resume => exact .inl rfl
  rw [hfinal]
  constructor
  · exact h.terminated
  · intro u hu
    by_cases hut : u = t
    · subst hut
      rcases hphase with hphase | ⟨-, hphase⟩ <;> simp [hphase, Phase.holds] at hu
    · exact h.holds u (by simpa [hut] using hu)
  · intro w hw
    have hw := h.unborn w hw
    have hwt : .worker w ≠ t := by
      rintro rfl
      rw [hfinal] at hw
      cases hw
    simpa [hwt] using hw
  · exact h.idle
  · intro hrun
    refine (h.running hrun).imp_left ?_
    rintro ⟨u, hu⟩
    have hut : u ≠ t := by
      rintro rfl
      simp [hfinal, Phase.builds] at hu
    exact ⟨u, by simpa [hut] using hu⟩
  · intro u
    by_cases hut : u = t
    · subst hut
      rcases hphase with hphase | ⟨-, hphase⟩ <;> simp [hphase, Knows]
    · simpa [hut] using h.knows u
  · intro u hu
    by_cases hut : u = t
    · subst hut
      simp at hu
      refine (h.called u hu).resolve_left ?_
      simp [hfinal, Phase.starts]
    · exact h.returned u (by simpa [hut] using hu)
  · intro u hu
    by_cases hut : u = t
    · subst hut
      rcases hphase with hphase | ⟨-, hphase⟩
      · have hne : .start ≠ c := by
          rintro rfl
          cases hphase
        refine .inr ((h.called u ?_).resolve_left ?_)
        · simpa [hne] using hu
        · simp [hfinal, Phase.starts]
      · exact .inl (by simp [hphase, Phase.starts])
    · simpa [hut] using h.called u (by simpa [hut] using hu)

omit [DecidableEq ι] in
theorem new [DecidableEq ι] :
    Sound begins (newProcessor ι n E).recorded.shared (.none (names ι n E)) where
  terminated := rfl
  holds t ht := by cases t <;> cases ht
  unborn _ _ := rfl
  idle _ _ := rfl
  running hrun := by cases hrun
  knows t := by cases t <;> trivial
  returned t ht := by cases ht
  called t ht := by cases ht

end Sound

end Creating

open Creating

variable [DecidableEq ι]

/-- Nobody stops or terminates the processor. -/
def KeepsRunning (_ : CountedState (names ι n E) (Memory ι n E)) :
    CountedLabel (names ι n E) → Prop
  | .label (.enter _ .stop) | .label (.enter _ .terminate) => False
  | _ => True

instance (s : CountedState (names ι n E) (Memory ι n E)) :
    (l : CountedLabel (names ι n E)) → Decidable (KeepsRunning s l)
  | .label (.enter _ .stop) | .label (.enter _ .terminate) => .isFalse id
  | .label (.enter _ (.add _)) | .label (.enter _ .start) | .label (.enter _ (.pause _))
  | .label (.enter _ .resume) | .label (.step _ _) | .label (.spurious _) | .fail _ =>
      .isTrue trivial

/-- All runs of a processor that was just constructed and is not stopped, whatever
creations fail. -/
def startSystem (ι : Type) [DecidableEq ι] (n : Nat) (E : Type) :
    System (CountedState (names ι n E) (Memory ι n E)) (CountedLabel (names ι n E)) :=
  ((processor ι n E).recording.countedSystem (newProcessor ι n E).recorded.counted).restrict
    KeepsRunning

namespace Creating

theorem sound_of_reachable {s : CountedState (names ι n E) (Memory ι n E)}
    (h : (startSystem ι n E).Reachable s) :
    ∃ φ, (protocol ι n E).Obeys φ s.toState ∧ Sound φ s.shared s.toCensus := by
  refine Protocol.countedInvariant (J := Sound) obeyed.recording ?_ .new ?_ ?_ ?_ ?_ ?_ h
  · rintro (i | w)
    · exact .inr (.inl rfl)
    · exact .inr (.inr ⟨⟨w, rfl⟩, rfl⟩)
  · intro φ s t c o r shared ψ hJ hC hspawn heffect htrans
    exact hJ.act hspawn heffect htrans
  · intro φ s t c hJ hC
    exact hJ.congr .refl rfl rfl
  · intro φ s t c m p hJ hC hentry hfinal
    obtain ⟨⟨m₁, p₁⟩, hentry, hm⟩ := Option.map_eq_some_iff.mp hentry
    obtain ⟨i, rfl, rfl, -⟩ := entry_eq_some hentry
    obtain rfl : _ = m := (Prod.ext_iff.mp hm).1
    have hout : φ (.client i) = .out := by
      rcases hfinal with hnever | hout | ⟨⟨w, hw⟩, -⟩
      · exact absurd hnever (hJ.ne_never _)
      · exact hout
      · cases hw
    refine hJ.enter hout ?_
    cases c with
    | stop | terminate => exact hC.elim
    | add entry | start | pause block | resume => simp [enters]
  · intro φ shared k t u ψ hJ htrans hfinal
    refine hJ.attempt htrans (k.attempts_create u) ?_
    intro v hv
    by_cases hvu : v = u
    · subst hvu
      exact .inr ⟨rfl, by simp [protocol]⟩
    · exact .inl (by simp [hvu])
  · intro φ shared k t u ψ hJ htrans
    exact hJ.attempt htrans (k.attempts_fail u) fun v hv => .inl rfl

/-- Once a call of `start` has returned, every worker is done. -/
theorem done_of_returned {s : CountedState (names ι n E) (Memory ι n E)}
    (h : (startSystem ι n E).Reachable s) {t : Thread ι n} (ht : s.Returned t .start)
    (w : Fin n) : Done s.shared.memory.1 s.toCensus w := by
  obtain ⟨φ, hobeys, hsound⟩ := sound_of_reachable h
  have hleft : Left s.shared.memory.1 s.toCensus [] := by
    rcases ht with htail | ⟨hcalled, hhead⟩
    · exact hsound.returned t htail
    · refine (hsound.called t hcalled).resolve_left ?_
      obtain ⟨-, hfinal⟩ := (hobeys t).post_of_head hhead
      rcases hfinal with hφ | hφ | ⟨-, hφ⟩ <;> simp [hφ, Phase.starts]
  exact hleft.done w (by simp)

end Creating

/-- Every worker that is marked as started was created, and all workers were. -/
def Recovers (s : CountedState (names ι n E) (Memory ι n E)) : Prop :=
  (∀ w, s.shared.memory.1.flag (.worker w .isStartedFlag) = true → 0 < s.created (.worker w)) ∧
    ∀ w, 0 < s.created (.worker w)

/-- After a call of `start`, workers are marked as they should be, and all of them were
created, exactly if no creation has failed yet. -/
theorem recovers_iff_of_returned {s : CountedState (names ι n E) (Memory ι n E)}
    (h : (startSystem ι n E).Reachable s) {t : Thread ι n} (ht : s.Returned t .start) :
    Recovers s ↔ ∀ w, s.failed (.worker w) = 0 := by
  have hdone : ∀ w, s.created (.worker w) + s.failed (.worker w) = 1 :=
    fun w => (done_of_returned h ht w).2
  constructor
  · intro hrecovers w
    have hcreated := hrecovers.2 w
    have hone := hdone w
    omega
  · intro hfailed
    have hcreated : ∀ w, 0 < s.created (.worker w) := by
      intro w
      have hone := hdone w
      rw [hfailed w] at hone
      omega
    exact ⟨fun w _ => hcreated w, hcreated⟩

/-- So after a call in which the creation of one worker succeeds. -/
theorem recovers_of_created :
    ∃ s : CountedState (names (Fin 1) 1 Unit) (Memory (Fin 1) 1 Unit),
      s.Returned (.client 0) .start ∧ Recovers s := by
  obtain ⟨s, hs, hreturned, hfailed⟩ := (processor (Fin 1) 1 Unit).recording.exists_of_followCounted
    (newProcessor (Fin 1) 1 Unit).recorded.counted KeepsRunning
    (fun s => s.Returned (.client 0) .start ∧ ∀ w, s.failed (.worker w) = 0)
    (.label (.enter (.client 0) .start) :: List.replicate 18 (.label (.step (.client 0) .go)))
    (by decide +kernel)
  exact ⟨s, hreturned, (recovers_iff_of_returned hs hreturned).mpr hfailed⟩

/-- One worker, whose creation fails while a client starts the processor. -/
def failsOnce (i : ι) : List (CountedLabel (names ι 1 E)) :=
  .label (.enter (.client i) .start) :: List.replicate 14 (.label (.step (.client i) .go)) ++
    .fail (.client i) :: List.replicate 3 (.label (.step (.client i) .go))

/-- And the client starts the processor again. -/
def startsAgain (i : ι) : List (CountedLabel (names ι 1 E)) :=
  .label (.enter (.client i) .start) :: List.replicate 8 (.label (.step (.client i) .go))

/-- A creation fails, and the worker is marked as started nevertheless.  `start` is called
again, no creation fails in that call, and the worker was still not created. -/
theorem not_recovers :
    ∃ s : CountedState (names (Fin 1) 1 Unit) (Memory (Fin 1) 1 Unit),
      (startSystem (Fin 1) 1 Unit).Reachable s ∧
        (s.Returned (.client 0) .start ∧
          s.shared.memory.1.flag (.worker 0 .isStartedFlag) = true ∧ s.created (.worker 0) = 0) ∧
        ∃ s', System.follow (processor (Fin 1) 1 Unit).recording.nextCounted KeepsRunning s
            (startsAgain 0) = some s' ∧
          (s'.prog (.client 0)).head = none ∧ s'.failed (.worker 0) = s.failed (.worker 0) ∧
            s'.created (.worker 0) = 0 := by
  obtain ⟨s, hs, hreturned, hagain⟩ := (processor (Fin 1) 1 Unit).recording.exists_of_followCounted
    (newProcessor (Fin 1) 1 Unit).recorded.counted KeepsRunning
    (fun s => (s.Returned (.client 0) .start ∧
        s.shared.memory.1.flag (.worker 0 .isStartedFlag) = true ∧ s.created (.worker 0) = 0) ∧
      ((System.follow (processor (Fin 1) 1 Unit).recording.nextCounted KeepsRunning s
        (startsAgain 0)).any fun s' => decide ((s'.prog (.client 0)).head = none ∧
          s'.failed (.worker 0) = s.failed (.worker 0) ∧ s'.created (.worker 0) = 0)) = true)
    (failsOnce 0) (by decide +kernel)
  obtain ⟨s', hs', hafter⟩ := (Option.any_eq_true _ _).mp hagain
  exact ⟨s, hs, hreturned, s', hs', of_decide_eq_true hafter⟩

end HPQueue
