import HPQueue.Consumer.Conformance

/-!
# Where threads wait for a pause

The phases of workers and clients relative to three waits: of a worker for work, of a
worker that is paused, and of a client whose `pause` blocks.  A worker looks at
`isPausedFlag` under its `isWorkLock` before it waits for work, and under its
`hasPausedLock` before it waits to be resumed; a client sets the flag under the latter
and then signals under the former.

A call of `stop` or `terminate` has no phase, nor does a worker that finds itself
terminated, or a client that finds the processor so: they lead to `never`.

## Main results

* `obeyed` — all methods keep to the protocol.
-/

namespace HPQueue

open Library.Threads Prog

variable {ι : Type} {n : Nat} {E : Type}

namespace PauseWaits

inductive Phase (n : Nat)
  /-- Not created, and created but not registered. -/
  | unborn
  | fresh
  /-- A worker that looks at `isPausedFlag` before it looks for work, and one that does
  not. -/
  | calm
  | running
  /-- Under `isWorkLock`: not having found `isPausedFlag` clear, having found it so, having
  set `isWaitingFlag`. -/
  | checking
  | looked
  | flagged
  | waiting
  | woken
  /-- Under `hasPausedLock`: having found `isPausedFlag` set, having set `isIdleFlag`, having
  signalled. -/
  | entering
  | seen
  | idling
  | told
  | parked
  | unparked
  /-- Its consumer has thrown: without `hasPausedLock`, with it, having found `isPausedFlag`
  set, and through with that. -/
  | leaving
  | parting
  | announcing
  | parted
  | gone
  /-- A client. -/
  | out
  /-- In `start`, without and with `startLock`, and having found the processor not to run. -/
  | startCalled
  | startHeld
  | found
  /-- It runs; some workers are still to be constructed; so under `workerLock`; having found a
  worker not started, and having marked it as started. -/
  | opening (ws : List (Fin n))
  | making (ws : List (Fin n))
  | vacant (w : Fin n) (ws : List (Fin n))
  | launching (w : Fin n) (ws : List (Fin n))
  | opened
  /-- In `pause` or `resume`: under `startLock`, and under `workerLock`. -/
  | held
  | locked
  /-- Under the `hasPausedLock` of a worker, which was found not terminated. -/
  | pausing (w : Fin n)
  | pausable (w : Fin n)
  /-- `isPausedFlag` was set, and the worker is still to be told: with `isWorkLock`, having
  found it waiting, and having told it. -/
  | owing (w : Fin n)
  | telling (w : Fin n)
  | waking (w : Fin n)
  | signalled (w : Fin n)
  /-- The worker is paused; it was found not idle, and found started. -/
  | marked (w : Fin n)
  | busy (w : Fin n)
  | ready (w : Fin n)
  | awaiting (w : Fin n)
  /-- `isPausedFlag` was cleared, and the worker is still to be told. -/
  | freeing (w : Fin n)
  /-- No thread ever is here. -/
  | never
  deriving DecidableEq

open Phase

/-- Nothing can be done here but to wake up. -/
def Phase.rests : Phase n → Bool
  | unborn | waiting | parked | awaiting _ => true
  | _ => false

variable [DecidableEq ι]

def acquires (t : Thread ι n) (φ : Phase n) : Lock n → Option (Phase n)
  | .isWorkLock v =>
      match φ with
      | running => if t = .worker v then some checking else none
      | gone => some gone
      | owing w => if v = w then some (telling w) else none
      | out => some out
      | _ => none
  | .hasPausedLock v =>
      match φ with
      | calm => if t = .worker v then some entering else none
      | leaving => if t = .worker v then some parting else none
      | locked => some (pausing v)
      | _ => none
  | .workerLock =>
      match φ with
      | out => some out
      | opening ws => some (making ws)
      | held => some locked
      | _ => none
  | .startLock =>
      match φ with
      | out => some held
      | startCalled => some startHeld
      | _ => none
  | .resizeQueuesLock => if φ = out then some out else none
  | .workerStartLock _ => some φ
  | .hasDiedLock _ => some φ

def releases (t : Thread ι n) (φ : Phase n) : Lock n → Option (Phase n)
  | .isWorkLock v =>
      match φ with
      | checking => if t = .worker v then some running else none
      | woken => if t = .worker v then some calm else none
      | gone => some gone
      | signalled w => if v = w then some (marked w) else none
      | out => some out
      | _ => none
  | .hasPausedLock v =>
      match φ with
      | entering => if t = .worker v then some calm else none
      | parted => if t = .worker v then some gone else none
      | pausing w => if v = w then some locked else none
      | pausable w => if v = w then some locked else none
      | marked w => if v = w then some locked else none
      | busy w => if v = w then some locked else none
      | _ => none
  | .workerLock =>
      match φ with
      | out => some out
      | making [] => some opened
      | locked => some held
      | _ => none
  | .startLock =>
      match φ with
      | held => some out
      | opened => some out
      | _ => none
  | .resizeQueuesLock => if φ = out then some out else none
  | .workerStartLock _ => some φ
  | .hasDiedLock _ => some φ

def waits (t : Thread ι n) (φ : Phase n) : Cond n → Lock n → Option (Phase n)
  | .isWorkWaiting v, .isWorkLock v' =>
      if t = .worker v ∧ v' = v ∧ φ = flagged then some waiting else none
  | .hasPaused v, .hasPausedLock v' =>
      if t = .worker v ∧ v' = v ∧ φ = told then some parked else none
  | .isIdle v, .hasPausedLock v' => if v' = v ∧ φ = ready v then some (awaiting v) else none
  | .isResizingCond, .resizeQueuesLock => if φ = out then some out else none
  | _, _ => none

def resumes (t : Thread ι n) (φ : Phase n) : Cond n → Lock n → Option (Phase n)
  | .isWorkWaiting v, .isWorkLock v' =>
      if t = .worker v ∧ v' = v ∧ φ = waiting then some woken else none
  | .hasPaused v, .hasPausedLock v' =>
      if t = .worker v ∧ v' = v ∧ φ = parked then some unparked else none
  | .isIdle v, .hasPausedLock v' => if v' = v ∧ φ = awaiting v then some (pausing v) else none
  | .isResizingCond, .resizeQueuesLock => if φ = out then some out else none
  | _, _ => none

def signals (t : Thread ι n) (φ : Phase n) : Cond n → Option (Phase n)
  | .isWorkWaiting v =>
      match φ with
      | waking w => if v = w then some (signalled w) else none
      | out => some out
      | _ => none
  | .hasPaused v =>
      match φ with
      | freeing w => if v = w then some (pausing w) else none
      | _ => none
  | .isIdle v =>
      match φ with
      | idling => if t = .worker v then some told else none
      | announcing => if t = .worker v then some parted else none
      | _ => none
  | .isResizingCond => some φ
  | .hasDied _ => some φ

def broadcasts (t : Thread ι n) (φ : Phase n) : Cond n → Option (Phase n)
  | .isWorkWaiting v =>
      match φ with
      | flagged => if t = .worker v then some flagged else none
      | gone => some gone
      | _ => none
  | .isResizingCond => some φ
  | _ => none

def loads (t : Thread ι n) (φ : Phase n) (b : Bool) : Load n → Option (Phase n)
  | .flag (.worker v .isPausedFlag) =>
      match φ with
      | calm => if t = .worker v then some (if b then calm else running) else none
      | running => if t = .worker v then some (if b then calm else running) else none
      | checking => if t = .worker v then some (if b then checking else looked) else none
      | entering => if t = .worker v then some (if b then seen else entering) else none
      | parting => if t = .worker v then some (if b then announcing else parted) else none
      | pausable w => if v = w then some (if b then marked w else pausable w) else none
      | _ => some φ
  | .flag (.worker v .isTerminatedFlag) =>
      match φ with
      | calm => if t = .worker v then some (if b then never else calm) else none
      | running => if t = .worker v then some (if b then never else running) else none
      | checking => if t = .worker v then some (if b then never else checking) else none
      | seen => if t = .worker v then some (if b then never else seen) else none
      | pausing w => if v = w then some (if b then pausing w else pausable w) else none
      | vacant w _ => if v = w then some (if b then never else φ) else none
      | _ => some φ
  | .flag (.worker v .isWaitingFlag) =>
      match φ with
      | telling w => if v = w then some (if b then waking w else signalled w) else none
      | _ => some φ
  | .flag (.worker v .isIdleFlag) =>
      match φ with
      | marked w => if v = w then some (if b then marked w else busy w) else none
      | _ => some φ
  | .flag (.worker v .isStartedFlag) =>
      match φ with
      | making ws =>
          if v ∈ ws then none else some (if b then making ws else vacant v ws)
      | vacant w ws => if v = w then some (if b then making ws else vacant w ws) else none
      | busy w => if v = w then some (if b then ready w else busy w) else none
      | _ => some φ
  | .flag .isRunningFlag =>
      match φ with
      | startHeld => some (if b then opening [] else found)
      | _ => some φ
  | .flag .isTerminatedFlag =>
      match φ with
      | startCalled => some (if b then never else φ)
      | startHeld => some (if b then never else φ)
      | _ => some φ
  | .flag .cleared => some (if b then never else φ)
  | _ => some φ

def stores (t : Thread ι n) (φ : Phase n) : Store n → Option (Phase n)
  | .flag (.worker v .isPausedFlag) b =>
      match φ, b with
      | pausable w, true => if v = w then some (owing w) else none
      | pausing w, false => if v = w then some (freeing w) else none
      | _, _ => none
  | .flag (.worker v .isIdleFlag) b =>
      match φ, b with
      | seen, true => if t = .worker v then some idling else none
      | unparked, false => if t = .worker v then some entering else none
      | parted, false => if t = .worker v then some parted else none
      | _, _ => none
  | .flag (.worker v .isWaitingFlag) b =>
      match φ, b with
      | looked, true => if t = .worker v then some flagged else none
      | woken, false => if t = .worker v then some woken else none
      | gone, false => if t = .worker v then some gone else none
      | _, _ => none
  | .flag (.worker v .isTerminatedFlag) b =>
      match φ, b with
      | running, true => if t = .worker v then some leaving else none
      | _, _ => none
  | .flag (.worker v .isStartedFlag) b =>
      match φ, b with
      | vacant w ws, true => if v = w then some (launching w ws) else none
      | _, _ => none
  | .flag .isRunningFlag b =>
      match φ, b with
      | found, true => some (opening (List.finRange n))
      | _, _ => none
  | .flag .isTerminatedFlag _ => none
  | .flag .cleared _ => none
  | .flag .resizing _ => if φ = out then some out else none
  | .newWorker v =>
      match φ with
      | making (w :: ws) => if v = w then some (making ws) else none
      | _ => none
  | _ => some φ

def asks (t : Thread ι n) (φ : Phase n) : Query n E → Option (Phase n)
  | .init v => if t = .worker v ∧ φ = fresh then some calm else none
  | .remove v => if t = .worker v ∧ φ = running then some running else none
  | .handle v => if t = .worker v ∧ φ = running then some running else none
  | .isWork v => if t = .worker v ∧ φ = checking then some checking else none
  | .finalize v => if t = .worker v ∧ φ = gone then some gone else none
  | _ => some φ

def spawns (φ : Phase n) (u : Thread ι n) : Option (Phase n) :=
  match u, φ with
  | .worker v, launching w ws => if v = w then some (making ws) else none
  | _, _ => none

/-- The phase after an operation. -/
def step (t : Thread ι n) (φ : Phase n) (o : Op (names ι n E)) (r : o.Result) :
    Option (Phase n) :=
  if φ = never then some never
  else
    match o, r with
    | .resume c l, _ => resumes t φ c l
    | .acquire l, _ => if φ.rests then none else acquires t φ l
    | .release l, _ => if φ.rests then none else releases t φ l
    | .wait c l, _ => if φ.rests then none else waits t φ c l
    | .signal c, _ => if φ.rests then none else signals t φ c
    | .broadcast c, _ => if φ.rests then none else broadcasts t φ c
    | .load x, b => if φ.rests then none else loads t φ b x
    | .store x, _ => if φ.rests then none else stores t φ x
    | .ask q, _ => if φ.rests then none else asks t φ q
    | .call _, _ => none
    | .spawn u, _ => if φ.rests then none else spawns φ u

/-- Where the loops are called. -/
def calledFrom (t : Thread ι n) (φ : Phase n) : Proc n E → Prop
  | .whileResizing | .whileAdding | .whileFull _ | .addLoop _ _ => (∃ i, t = .client i) ∧ φ = out
  | .runLoop w => t = .worker w ∧ (φ = calm ∨ φ = running)
  | .whileAlive _ => False

/-- And where they return, and with which results. -/
def returnsTo (a : Int) (ψ : Phase n) : Proc n E → Prop
  | .whileResizing | .whileAdding | .whileFull _ => ψ = out
  | .addLoop _ _ => ψ = never ∨ ψ = out
  | .runLoop _ => ψ = never ∨ ψ = running ∧ a ≠ 0
  | .whileAlive _ => ψ = never

/-- Where a call begins. -/
def begin : ClientCall E → Phase n
  | .add _ | .pause _ | .resume => out
  | .start => startCalled
  | .stop | .terminate => never

/-- Where a thread has nothing left to do. -/
def atRest : Thread ι n → Phase n → Prop
  | .client _, φ => φ = out
  | .worker _, φ => φ = unborn ∨ φ = gone

def protocol (ι : Type) [DecidableEq ι] (n : Nat) (E : Type) :
    Protocol (names ι n E) (Phase n) where
  trans t φ o r := step t φ o r
  pre t p φ := φ = never ∨ calledFrom t φ p
  post _ p φ a ψ := if φ = never then ψ = never else returnsTo a ψ p
  final t φ := φ = never ∨ atRest t φ
  enter _ c φ := if φ = never then never else begin c
  born t φ :=
    match t with
    | .client _ => φ
    | .worker _ => if φ = never then never else fresh

/-! ## The methods -/

variable {t : Thread ι n} {i : ι}

theorem protocol_trans (φ : Phase n) (o : Op (names ι n E)) (r : o.Result) :
    (protocol ι n E).trans t φ o r = step t φ o r := rfl

theorem protocol_pre (p : Proc n E) (φ : Phase n) :
    (protocol ι n E).pre t p φ ↔ φ = never ∨ calledFrom t φ p := Iff.rfl

theorem protocol_post (p : Proc n E) (φ ψ : Phase n) (a : Int) :
    (protocol ι n E).post t p φ a ψ ↔ if φ = never then ψ = never else returnsTo a ψ p := Iff.rfl

attribute [local simp] protocol_trans protocol_pre protocol_post calledFrom returnsTo step
  Phase.rests acquires releases waits resumes signals broadcasts loads stores asks spawns
  Protocol.Keeps Prog.Only.ite_iff Prog.ite_bind Worker.get Worker.set QueueProcessor.get
  QueueProcessor.set

theorem absorbs : (protocol ι n E).Absorbs (· = never) where
  trans := by
    rintro t φ o r rfl
    exact ⟨never, by simp, rfl⟩
  pre := by
    rintro t p φ rfl
    exact .inl rfl
  post := by
    rintro t p φ a ψ rfl hψ
    simpa using hψ

/-- The phase that a method leaves, unless nobody is there. -/
def Leaves (Q : Phase n → Prop) (φ : Phase n) : Prop := φ = never ∨ Q φ

attribute [local simp] Conforms Leaves

theorem conforms_waitWhilePaused (w : Fin n) :
    Conforms (protocol ι n E) (.worker w) calm (Worker.waitWhilePaused w)
      fun _ => Leaves (· = calm) := by
  simp [Worker.waitWhilePaused]

theorem conforms_waitForWork (w : Fin n) :
    Conforms (protocol ι n E) (.worker w) running (Worker.waitForWork w)
      fun _ => Leaves fun φ => φ = calm ∨ φ = running := by
  simp [Worker.waitForWork, Worker.isWork]
  intro work
  split <;> simp

theorem conforms_doWork (w : Fin n) :
    Conforms (protocol ι n E) (.worker w) running (Worker.doWork w)
      fun _ => Leaves (· = running) := by
  simp [Worker.doWork]
  intro entry
  split <;> simp

theorem conforms_runLoop (w : Fin n) {φ : Phase n} (hφ : φ = calm ∨ φ = running) :
    Conforms (protocol ι n E) (.worker w) φ (Worker.runLoop w)
      fun a ψ => ψ = never ∨ ψ = running ∧ a ≠ 0 := by
  rcases hφ with rfl | rfl
  all_goals
    simp [Worker.runLoop]
    constructor
    · apply absorbs.bind (conforms_doWork w)
      rintro outcome _ rfl
      cases outcome with
      | none =>
          simp
          apply absorbs.bind (conforms_waitForWork w)
          rintro _ _ (rfl | rfl) <;> simp
      | some | thrown => simp
    · apply absorbs.bind (conforms_waitWhilePaused w)
      rintro _ _ rfl
      simp

theorem conforms_run (w : Fin n) :
    Conforms (protocol ι n E) (.worker w) fresh (Worker.run w) fun _ => Leaves (· = gone) := by
  simp [Worker.run]
  intro error
  constructor
  · exact (absorbs.conforms rfl _).mono fun _ _ h => .inl h
  · intro herror
    simp [herror, Worker.handleError, Worker.signalDead]

/-! ### The methods of a worker, as the processor calls them -/

theorem conforms_signal (w : Fin n) :
    Conforms (protocol ι n E) (.client i) out (Worker.signal w false) fun _ φ => φ = out := by
  simp [Worker.signal]

theorem conforms_pauseWorker (w : Fin n) (block : Bool) :
    Conforms (protocol ι n E) (.client i) locked (Worker.pause w block)
      fun _ φ => φ = locked := by
  cases block <;> simp [Worker.pause, Worker.signal]

theorem conforms_resumeWorker (w : Fin n) :
    Conforms (protocol ι n E) (.client i) locked (Worker.resume w) fun _ φ => φ = locked := by
  simp [Worker.resume]

/-- The workers that are left are not constructed. -/
def Unmade (ws : List (Fin n)) (φ : Phase n) : Prop := φ = making ws ∧ ws.Nodup

theorem conforms_startWorker (w : Fin n) {ws : List (Fin n)} (hw : w ∉ ws) :
    Conforms (protocol ι n E) (.client i) (making ws) (Worker.start w)
      fun _ => Leaves (· = making ws) := by
  simp [Worker.start, hw]

theorem conforms_startNew (w : Fin n) (ws : List (Fin n)) {φ : Phase n}
    (h : Unmade (w :: ws) φ) :
    Conforms (protocol ι n E) (.client i) φ (QueueProcessor.startNew w)
      fun _ => Leaves (Unmade ws) := by
  obtain ⟨rfl, hnodup⟩ := h
  obtain ⟨hw, hnodup⟩ := List.nodup_cons.mp hnodup
  simp [QueueProcessor.startNew]
  apply (conforms_startWorker w hw).mono
  rintro _ φ (h | h)
  · exact .inl h
  · exact .inr ⟨h, hnodup⟩

/-! ### The processor -/

theorem conforms_start :
    Conforms (protocol ι n E) (.client i) startCalled QueueProcessor.start
      fun _ => Leaves (· = out) := by
  simp [QueueProcessor.start]
  constructor
  · apply absorbs.bind (Conforms.forEach (I := fun ws => Leaves (Unmade ws)) ?_ ?_)
    · rintro _ _ ⟨rfl, -⟩
      simp
    · rintro w ws φ (rfl | h)
      · exact (absorbs.conforms rfl _).mono fun _ _ h => .inl h
      · exact conforms_startNew w ws h
    · exact .inr ⟨rfl, List.nodup_finRange n⟩
  · apply absorbs.bind (Conforms.forEach (I := fun _ => Leaves (· = making [])) ?_ ?_)
    · rintro _ _ rfl
      simp
    · rintro w ws φ (rfl | rfl)
      · exact (absorbs.conforms rfl _).mono fun _ _ h => .inl h
      · exact conforms_startWorker w (by simp)
    · exact .inr rfl

/-- A loop over the workers, unless `workers` was cleared. -/
theorem conforms_loop {φ : Phase n} {f : Fin n → Code ι n E Unit}
    (hφ : φ = locked ∨ φ = out)
    (hf : ∀ w, Conforms (protocol ι n E) t φ (f w) fun _ ψ => ψ = φ) :
    Conforms (protocol ι n E) t φ (QueueProcessor.forWorkers f) fun _ => Leaves (· = φ) := by
  apply (conforms_forWorkers (I := fun _ ψ => ψ = φ) (J := fun ψ => ψ = never) ?_ ?_ ?_).mono
  · rintro _ _ (h | h)
    · exact .inr h
    · exact .inl h
  · rcases hφ with rfl | rfl <;> simp
  · rcases hφ with rfl | rfl <;> simp
  · rintro w _ _ rfl
    exact hf w

theorem conforms_pause (block : Bool) :
    Conforms (protocol ι n E) (.client i) out (QueueProcessor.pause block)
      fun _ => Leaves (· = out) := by
  simp [QueueProcessor.pause]
  apply absorbs.bind (conforms_loop (.inl rfl) fun w => conforms_pauseWorker w false)
  rintro _ _ rfl
  split
  · apply absorbs.bind (conforms_loop (.inl rfl) fun w => conforms_pauseWorker w true)
    rintro _ _ rfl
    simp
  · simp

theorem conforms_resume :
    Conforms (protocol ι n E) (.client i) out QueueProcessor.resume fun _ => Leaves (· = out) := by
  simp [QueueProcessor.resume]
  apply absorbs.bind (conforms_loop (.inl rfl) conforms_resumeWorker)
  rintro _ _ rfl
  simp

theorem conforms_broadcast :
    Conforms (protocol ι n E) (.client i) out QueueProcessor.broadcast
      fun _ => Leaves (· = out) := by
  simp [QueueProcessor.broadcast]
  apply absorbs.bind (conforms_loop (.inr rfl) ?_)
  · rintro _ _ rfl
    simp
  · intro w
    simp
    exact conforms_signal w

/-! ### Producers -/

theorem producing_keeps (o : Op (names ι n E)) (h : Producing o) :
    (protocol ι n E).Keeps (.client i) out o := by
  cases o with
  | acquire l | release l | broadcast c =>
      obtain rfl := h
      simp
  | wait c l =>
      obtain ⟨rfl, rfl⟩ := h
      simp
  | load x => rcases h with rfl | rfl <;> simp
  | store x => rcases h with ⟨b, rfl⟩ | ⟨d, rfl⟩ <;> simp
  | ask q =>
      cases q with
      | add entry | isMaxSize | resize =>
          intro a
          simp
      | started w | init w | finalize w | remove w | handle w | isWork w => cases h
  | call p =>
      cases p with
      | whileResizing | whileAdding | whileFull entry => simp
      | addLoop entry index | runLoop w | whileAlive w => cases h
  | resume c l | signal c | spawn u => cases h

theorem loops_out : Loops (protocol ι n E) (.client i) (· = never) out := by
  simp [Loops]

theorem conforms_body {p : Proc n E} {φ : Phase n} (hp : calledFrom t φ p) :
    Conforms (protocol ι n E) t φ (procedure p) fun a ψ => returnsTo a ψ p := by
  cases p with
  | whileResizing =>
      obtain ⟨⟨i, rfl⟩, rfl⟩ := hp
      simp [procedure, ResizeControls.whileResizing]
  | whileAdding =>
      obtain ⟨⟨i, rfl⟩, rfl⟩ := hp
      simp [procedure, ResizeControls.whileAdding]
  | whileFull entry =>
      obtain ⟨⟨i, rfl⟩, rfl⟩ := hp
      simp [procedure, QueueProducerInterface.whileFull]
      intro index
      split <;> simp
  | addLoop entry index =>
      obtain ⟨⟨i, rfl⟩, rfl⟩ := hp
      exact conforms_addLoop_of absorbs producing_keeps loops_out (conforms_pause true)
        conforms_resume entry index
  | runLoop w =>
      obtain ⟨rfl, hφ⟩ := hp
      exact conforms_runLoop w hφ
  | whileAlive w => cases hp

/-- All methods keep to the protocol. -/
theorem obeyed : (protocol ι n E).Obeyed (processor ι n E) where
  body := by
    rintro t p φ (rfl | hp)
    · exact (absorbs.conforms rfl _).mono fun _ _ h => by simpa using h
    · apply (conforms_body hp).mono
      intro a ψ hψ
      have hφ : φ ≠ never := by
        rintro rfl
        cases p with
        | runLoop w => rcases hp.2 with h | h <;> cases h
        | whileResizing | whileAdding | whileFull entry | addLoop entry index => cases hp.2
        | whileAlive w => cases hp
      simpa [hφ] using hψ
  main := by
    rintro (i | w) φ hφ
    · exact hφ
    · rcases hφ with rfl | hφ
      · exact (absorbs.conforms rfl _).mono fun _ _ h => .inl h
      · have hborn : (protocol ι n E).born (.worker w) φ = fresh := by
          rcases hφ with rfl | rfl <;> simp [protocol]
        rw [hborn]
        apply (conforms_run w).mono
        rintro _ φ (h | h)
        · exact .inl h
        · exact .inr (.inr h)
  entry := by
    rintro t c m m' p φ hentry hφ
    obtain ⟨i, rfl, -, rfl⟩ := entry_eq_some hentry
    rcases hφ with rfl | rfl
    · exact (absorbs.conforms (by simp [protocol]) _).mono fun _ _ h => .inl h
    · have hfinal : ∀ {c : ClientCall E},
          Conforms (protocol ι n E) (.client i) (begin c) (method c) (fun _ => Leaves (· = out)) →
          Conforms (protocol ι n E) (.client i) ((protocol ι n E).enter (.client i) c out) (method c)
            fun _ => (protocol ι n E).final (.client i) :=
        fun h => h
      apply hfinal
      cases c with
      | add entry =>
          exact conforms_add_of absorbs producing_keeps loops_out (by simp) conforms_broadcast entry
      | start => exact conforms_start
      | pause block => exact conforms_pause block
      | resume => exact conforms_resume
      | stop | terminate => exact (absorbs.conforms rfl _).mono fun _ _ h => .inl h

end PauseWaits

end HPQueue
