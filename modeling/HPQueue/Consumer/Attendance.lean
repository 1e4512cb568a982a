import HPQueue.Consumer.Conformance
import HPQueue.Consumer.ServedProcessor

/-!
# What the threads of a processor are about

The phases of workers and clients between taking an entry and waiting for the next,
between adding an entry and having told every worker, and through `start` and `stop`.
A worker waits under its `isWorkLock`, after it has found its slot empty under the same
lock; a client that has added an entry owes every worker a look at its `isWaitingFlag`
under that lock.

Neither a resize nor an exception, nor a call of `terminate`, has a phase: they lead to
`never`.

## Main results

* `obeyed` — all methods keep to the protocol.
-/

namespace HPQueue

open Library.Threads Prog

variable {ι : Type} {n : Nat} {E : Type}

namespace Attendance

inductive Phase (n : Nat)
  /-- Not created, or created and not registered. -/
  | absent
  | fresh
  /-- Between entries, and with an entry that was not handled yet. -/
  | idle
  | taken
  /-- Under `isWorkLock`: not having looked, having found the slot empty, and having set
  `isWaitingFlag`. -/
  | locked
  | empty
  | marked
  | waiting
  | woken
  /-- About to look whether it is terminated, and having found so. -/
  | rounding
  | leaving
  | gone
  /-- A client, and the workers it owes a signal. -/
  | outside (owes : List (Fin n))
  /-- The same under `workerLock`, and under the `isWorkLock` of a worker, which is found
  to wait. -/
  | inside (owes : List (Fin n))
  | signalling (w : Fin n) (owes : List (Fin n))
  | waking (w : Fin n) (owes : List (Fin n))
  /-- In `start`, without and with `startLock`, and having found the processor not to
  run. -/
  | startCalled
  | startHeld
  | opening
  /-- Some workers are not started; one was constructed, and has its pointer. -/
  | starting (ws : List (Fin n))
  | making (w : Fin n) (ws : List (Fin n))
  | made (w : Fin n) (ws : List (Fin n))
  /-- The processor was found to run. -/
  | restarting
  /-- In `stop`, before it holds `workerLock`. -/
  | stopCalled
  /-- Through with some workers, and with the next one: under its `isWorkLock`, waiting for
  it, and awake again. -/
  | draining (visited : List (Fin n))
  | visiting (w : Fin n) (visited : List (Fin n))
  | joining (w : Fin n) (visited : List (Fin n))
  | joined (w : Fin n) (visited : List (Fin n))
  /-- Through with all workers; some are terminated, and all are. -/
  | telling (told : List (Fin n))
  | drained
  /-- No thread ever is here. -/
  | never
  deriving DecidableEq

namespace Phase

/-- All but one. -/
def without (w : Fin n) (ws : List (Fin n)) : List (Fin n) := ws.filter (· ≠ w)

/-- After these workers were terminated. -/
def told (ws : List (Fin n)) : Phase n := if ∀ w, w ∈ ws then drained else telling ws

/-- After these workers were found to wait. -/
def visited (ws : List (Fin n)) : Phase n := if ∀ w, w ∈ ws then told [] else draining ws

end Phase

open Phase

variable [DecidableEq ι]

def acquires (t : Thread ι n) (φ : Phase n) : Lock n → Option (Phase n)
  | .isWorkLock v =>
      match φ with
      | idle => if t = .worker v then some locked else none
      | inside owes => some (signalling v owes)
      | draining ws => some (visiting v ws)
      | telling ws => some (telling ws)
      | drained => some drained
      | _ => none
  | .workerLock =>
      match φ with
      | outside owes => some (inside owes)
      | starting ws => some (starting ws)
      | restarting => some restarting
      | stopCalled => some (visited [])
      | _ => none
  | .startLock =>
      match φ with
      | outside owes => some (outside owes)
      | startCalled => some startHeld
      | stopCalled => some stopCalled
      | _ => none
  | _ => some φ

def releases (t : Thread ι n) (φ : Phase n) : Lock n → Option (Phase n)
  | .isWorkLock v =>
      match φ with
      | locked => if t = .worker v then some rounding else none
      | empty => if t = .worker v then some rounding else none
      | signalling w owes => if v = w then some (inside owes) else none
      | joined w ws => if v = w then some (visited (w :: ws)) else none
      | telling ws => some (telling ws)
      | drained => some drained
      | _ => none
  | .workerLock =>
      match φ with
      | inside owes => some (outside owes)
      | starting [] => some (starting [])
      | restarting => some restarting
      | drained => some drained
      | _ => none
  | .startLock =>
      match φ with
      | outside owes => some (outside owes)
      | starting [] => some (outside [])
      | restarting => some (outside [])
      | drained => some drained
      | _ => none
  | _ => some φ

def waits (t : Thread ι n) (φ : Phase n) : Cond n → Lock n → Option (Phase n)
  | .isWorkWaiting v, .isWorkLock v' =>
      match φ with
      | marked => if t = .worker v ∧ v' = v then some waiting else none
      | visiting w ws => if v = w ∧ v' = w then some (joining w ws) else none
      | _ => none
  | .isResizingCond, .resizeQueuesLock => some φ
  | .hasDied _, .hasDiedLock _ => some φ
  | .hasPaused _, .hasPausedLock _ => some φ
  | .isIdle _, .hasPausedLock _ => some φ
  | _, _ => none

def resumes (t : Thread ι n) (φ : Phase n) : Cond n → Lock n → Option (Phase n)
  | .isWorkWaiting v, .isWorkLock v' =>
      match φ with
      | waiting => if t = .worker v ∧ v' = v then some woken else none
      | joining w ws => if v = w ∧ v' = w then some (joined w ws) else none
      | _ => none
  | .isResizingCond, .resizeQueuesLock => some φ
  | .hasDied _, .hasDiedLock _ => some φ
  | .hasPaused _, .hasPausedLock _ => some φ
  | .isIdle _, .hasPausedLock _ => some φ
  | _, _ => none

def signals (φ : Phase n) (c : Cond n) : Option (Phase n) :=
  match c, φ with
  | .isWorkWaiting v, waking w owes =>
      if v = w then some (signalling w (without w owes)) else none
  | .isWorkWaiting v, visiting w ws => if v = w then some (visiting w ws) else none
  | .isWorkWaiting v, telling ws => if v ∈ ws then some (telling ws) else none
  | .isWorkWaiting _, drained => some drained
  | .isWorkWaiting _, _ => none
  | _, φ => some φ

def broadcasts (t : Thread ι n) (φ : Phase n) : Cond n → Option (Phase n)
  | .isWorkWaiting v => if t = .worker v ∧ φ = marked then some marked else none
  | _ => some φ

def loads (t : Thread ι n) (φ : Phase n) (b : Bool) : Load n → Option (Phase n)
  | .flag (.worker v .isWaitingFlag) =>
      match φ with
      | signalling w owes =>
          if v = w then some (if b then waking w owes else signalling w (without w owes))
          else none
      | _ => some φ
  | .flag (.processingWorker v) =>
      match φ with
      | inside owes => some (inside (if b then owes else without v owes))
      | _ => some φ
  | .flag .cleared => some (if b then never else φ)
  | .flag .isRunningFlag =>
      match φ with
      | startHeld => some (if b then restarting else opening)
      | stopCalled => some (if b then stopCalled else never)
      | _ => some φ
  | .flag .isTerminatedFlag =>
      match φ with
      | startCalled => some (if b then never else startCalled)
      | startHeld => some (if b then never else startHeld)
      | _ => some φ
  | .flag (.worker v .isTerminatedFlag) =>
      match φ with
      | idle => if t = .worker v then some (if b then leaving else idle) else none
      | rounding => if t = .worker v then some (if b then leaving else idle) else none
      | leaving => if t = .worker v then some (if b then leaving else never) else none
      | visiting w ws => some (if b then never else visiting w ws)
      | made w ws => some (if b then never else made w ws)
      | _ => some φ
  | .flag (.worker v .isStartedFlag) =>
      match φ with
      | made w ws => if v = w then some (if b then starting ws else made w ws) else none
      | visiting w ws => some (if b then visiting w ws else never)
      | _ => some φ
  | _ => some φ

def stores (t : Thread ι n) (φ : Phase n) : Store n → Option (Phase n)
  | .flag .isRunningFlag b =>
      match φ, b with
      | opening, true => some (starting (List.finRange n))
      | drained, false => some drained
      | _, _ => none
  | .flag .isTerminatedFlag _ => none
  | .flag .cleared _ => none
  | .flag (.processingWorker v) b =>
      match φ, b with
      | making w ws, true => if v = w then some (made w ws) else none
      | drained, false => some drained
      | _, _ => none
  | .flag (.worker v .isWaitingFlag) b =>
      match φ, b with
      | empty, true => if t = .worker v then some marked else none
      | woken, false => if t = .worker v then some locked else none
      | _, _ => none
  | .flag (.worker v .isTerminatedFlag) b =>
      match φ, b with
      | telling ws, true => some (told (v :: ws))
      | drained, true => some drained
      | _, _ => none
  | .flag (.worker v .isStartedFlag) b =>
      match φ, b with
      | made w ws, true => if v = w then some (starting ws) else none
      | restarting, true => some restarting
      | _, _ => none
  | .newWorker v =>
      match φ with
      | starting (w :: ws) => if v = w then some (making w ws) else none
      | _ => none
  | _ => some φ

def asks (t : Thread ι n) (φ : Phase n) (a : Int) : Query n E → Option (Phase n)
  | .add _ =>
      match φ with
      | outside owes => some (outside (if 0 ≤ a then List.finRange n else owes))
      | _ => none
  | .isMaxSize => some φ
  | .resize => some never
  | .started _ => some φ
  | .init v => if t = .worker v ∧ φ = fresh then some idle else none
  | .finalize v => if t = .worker v ∧ φ = leaving then some gone else none
  | .remove v => if t = .worker v ∧ φ = idle then some (if a = 0 then idle else taken) else none
  | .handle v => if t = .worker v ∧ φ = taken then some (if a = 0 then idle else never) else none
  | .isWork v => if t = .worker v ∧ φ = locked then some (if a = 0 then empty else locked) else none

def spawns (φ : Phase n) (u : Thread ι n) : Option (Phase n) :=
  match u, φ with
  | .worker v, starting ws => if v ∈ ws then none else some (starting ws)
  | .worker _, restarting => some restarting
  | _, _ => none

/-- The phase after an operation. -/
def step (t : Thread ι n) (φ : Phase n) (o : Op (names ι n E)) (r : o.Result) :
    Option (Phase n) :=
  if φ = never then some never
  else
    match o, r with
    | .acquire l, _ => acquires t φ l
    | .release l, _ => releases t φ l
    | .wait c l, _ => waits t φ c l
    | .resume c l, _ => resumes t φ c l
    | .signal c, _ => signals φ c
    | .broadcast c, _ => broadcasts t φ c
    | .load x, b => loads t φ b x
    | .store x, _ => stores t φ x
    | .ask q, a => asks t φ a q
    | .call _, _ => none
    | .spawn u, _ => spawns φ u

/-- A client that owes nothing if its entry was not accepted. -/
def Settled (index : Int) (φ : Phase n) : Prop :=
  ∃ owes, φ = outside owes ∧ (index < 0 → owes = [])

/-- Where the loops are called. -/
def calledFrom (t : Thread ι n) (φ : Phase n) : Proc n E → Prop
  | .whileResizing => ∃ owes, φ = outside owes
  | .whileAdding => ∃ owes, φ = outside owes
  | .whileFull _ => φ = outside []
  | .addLoop _ index => Settled index φ
  | .runLoop w => t = .worker w ∧ φ = idle
  | .whileAlive _ => φ = drained

/-- And where they return, and with which results. -/
def returnsTo (φ : Phase n) (a : Int) (ψ : Phase n) : Proc n E → Prop
  | .whileResizing => ψ = φ
  | .whileAdding => ψ = φ
  | .whileFull _ => Settled a ψ
  | .addLoop _ _ => ψ = never ∨ Settled a ψ
  | .runLoop _ => ψ = never ∨ ψ = leaving ∧ a = 0
  | .whileAlive _ => ψ = drained

/-- Where a call begins. -/
def begin : ClientCall E → Phase n
  | .add _ => outside []
  | .start => startCalled
  | .stop => stopCalled
  | .pause _ => outside []
  | .resume => outside []
  | .terminate => never

/-- Where a thread has nothing left to do. -/
def atRest : Thread ι n → Phase n → Prop
  | .client _, φ => φ = outside [] ∨ φ = drained
  | .worker _, φ => φ = absent ∨ φ = gone

def protocol (ι : Type) [DecidableEq ι] (n : Nat) (E : Type) :
    Protocol (names ι n E) (Phase n) where
  trans t φ o r := step t φ o r
  pre t p φ := φ = never ∨ calledFrom t φ p
  post _ p φ a ψ := if φ = never then ψ = never else returnsTo φ a ψ p
  final t φ := φ = never ∨ atRest t φ
  enter _ c φ := if φ = never then never else begin c
  born t φ :=
    match t with
    | .client _ => φ
    | .worker _ => if φ = never then never else fresh

/-! ## The methods -/

variable {t : Thread ι n}

theorem protocol_trans (φ : Phase n) (o : Op (names ι n E)) (r : o.Result) :
    (protocol ι n E).trans t φ o r = step t φ o r := rfl

theorem protocol_pre (p : Proc n E) (φ : Phase n) :
    (protocol ι n E).pre t p φ ↔ φ = never ∨ calledFrom t φ p := Iff.rfl

theorem protocol_post (p : Proc n E) (φ ψ : Phase n) (a : Int) :
    (protocol ι n E).post t p φ a ψ ↔ if φ = never then ψ = never else returnsTo φ a ψ p := Iff.rfl

attribute [local simp] protocol_trans protocol_pre protocol_post calledFrom returnsTo step
  acquires releases waits resumes signals broadcasts loads stores asks spawns
  Protocol.Keeps Prog.Only.ite_iff Prog.ite_bind Worker.get Worker.set QueueProcessor.get
  QueueProcessor.set

theorem absorbs : (protocol ι n E).Absorbs (· = never) where
  trans := by
    rintro t φ o r rfl
    exact ⟨never, by simp, rfl⟩
  pre := by
    rintro t p φ rfl
    exact .inl rfl
  post := by
    rintro t p φ a ψ rfl hψ
    simpa using hψ

/-- The phase that a method leaves, unless nobody is there. -/
def Leaves (Q : Phase n → Prop) (φ : Phase n) : Prop := φ = never ∨ Q φ

attribute [local simp] Conforms Leaves

theorem conforms_waitWhilePaused (w : Fin n) :
    Conforms (protocol ι n E) (.worker w) idle (Worker.waitWhilePaused w)
      fun _ φ => φ = idle ∨ φ = leaving := by
  simp [Worker.waitWhilePaused]

theorem conforms_waitForWork (w : Fin n) :
    Conforms (protocol ι n E) (.worker w) idle (Worker.waitForWork w)
      fun _ φ => φ = rounding := by
  simp [Worker.waitForWork, Worker.isWork]
  intro a
  split <;> simp_all

theorem conforms_doWork (w : Fin n) :
    Conforms (protocol ι n E) (.worker w) idle (Worker.doWork w)
      fun outcome φ => φ = never ∨ φ = idle ∧ outcome ≠ .thrown := by
  intro entry
  by_cases hentry : entry = 0
  · simp [hentry]
  · simp [hentry]
    intro error
    by_cases herror : error = 0 <;> simp [herror]

theorem conforms_runLoop (w : Fin n) :
    Conforms (protocol ι n E) (.worker w) idle (Worker.runLoop w)
      fun a φ => φ = never ∨ φ = leaving ∧ a = 0 := by
  simp [Worker.runLoop]
  constructor
  · apply absorbs.bind (conforms_doWork w)
    rintro outcome _ ⟨rfl, houtcome⟩
    simp only [if_neg houtcome]
    split
    · apply (conforms_waitForWork w).bind
      rintro _ _ rfl
      simp
    · simp
  · apply (conforms_waitWhilePaused w).bind
    rintro _ _ (rfl | rfl)
    · simp
    · simp

theorem conforms_run (w : Fin n) :
    Conforms (protocol ι n E) (.worker w) fresh (Worker.run w) fun _ => Leaves (· = gone) := by
  simp [Worker.run]
  intro a
  constructor
  · exact (absorbs.conforms rfl _).mono fun _ _ h => .inl h
  · rintro rfl
    simp [Worker.signalDead]

/-! ### Clients -/

@[simp] theorem without_nil (w : Fin n) : without w [] = [] := rfl

variable {owes : List (Fin n)}

theorem conforms_signal (w : Fin n) :
    Conforms (protocol ι n E) t (inside owes) (Worker.signal w false)
      fun _ φ => φ = inside (without w owes) := by
  simp [Worker.signal]

theorem without_subset {w : Fin n} {ws : List (Fin n)} (h : owes ⊆ w :: ws) :
    without w owes ⊆ ws := by
  intro v hv
  obtain ⟨hv, hne⟩ := List.mem_filter.mp hv
  exact (List.mem_cons.mp (h hv)).resolve_left (of_decide_eq_true hne)

/-- A loop over the workers, unless `workers` was cleared. -/
theorem conforms_loop {φ : Phase n} {f : Fin n → Code ι n E Unit}
    {I : List (Fin n) → Phase n → Prop} (hφ : φ ≠ never) (hI : I (List.finRange n) φ)
    (hf : ∀ w ws ψ, I (w :: ws) ψ → Conforms (protocol ι n E) t ψ (f w) fun _ => Leaves (I ws)) :
    Conforms (protocol ι n E) t φ (QueueProcessor.forWorkers f) fun _ => Leaves (I []) := by
  apply (conforms_forWorkers (I := fun ws => Leaves (I ws)) (J := fun ψ => ψ = never) ?_ ?_ ?_).mono
  · rintro _ _ (h | h)
    · exact h
    · exact .inl h
  · simp [hφ]
  · simp [hφ, hI]
  · rintro w ws ψ (rfl | h)
    · exact (absorbs.conforms rfl (f w)).mono fun _ _ h => .inl h
    · exact hf w ws ψ h

/-- A client under `workerLock` owes no other workers than these. -/
def Owes (ws : List (Fin n)) (φ : Phase n) : Prop := ∃ owes, φ = inside owes ∧ owes ⊆ ws

theorem Owes.without {w : Fin n} {ws : List (Fin n)} (h : owes ⊆ w :: ws) :
    Owes ws (inside (Phase.without w owes)) := ⟨_, rfl, without_subset h⟩

theorem conforms_broadcast :
    Conforms (protocol ι n E) t (outside owes) QueueProcessor.broadcast
      fun _ => Leaves (· = outside []) := by
  simp [QueueProcessor.broadcast]
  apply absorbs.bind (conforms_loop (I := Owes) (by simp) ⟨owes, rfl, ?_⟩ ?_)
  · rintro _ _ ⟨owes, rfl, howes⟩
    obtain rfl := List.subset_nil.mp howes
    simp
  · exact fun w _ => List.mem_finRange w
  · rintro w ws _ ⟨owes, rfl, howes⟩
    have hdone := Owes.without howes
    simp [hdone]
    apply (conforms_signal w).mono
    rintro _ _ rfl
    exact .inr hdone

theorem conforms_pauseWorker (w : Fin n) (block : Bool) :
    Conforms (protocol ι n E) t (inside []) (Worker.pause w block)
      fun _ => Leaves (· = inside []) := by
  cases block <;> simp [Worker.pause, Worker.signal]

theorem conforms_resumeWorker (w : Fin n) :
    Conforms (protocol ι n E) t (inside []) (Worker.resume w)
      fun _ => Leaves (· = inside []) := by
  simp [Worker.resume]

theorem conforms_workers {f : Fin n → Code ι n E Unit}
    (hf : ∀ w, Conforms (protocol ι n E) t (inside []) (f w) fun _ => Leaves (· = inside [])) :
    Conforms (protocol ι n E) t (inside []) (QueueProcessor.forWorkers f)
      fun _ => Leaves (· = inside []) := by
  apply conforms_loop (I := fun _ φ => φ = inside []) (by simp) rfl
  rintro w _ _ rfl
  exact hf w

theorem conforms_pause (block : Bool) :
    Conforms (protocol ι n E) t (outside []) (QueueProcessor.pause block)
      fun _ => Leaves (· = outside []) := by
  simp [QueueProcessor.pause]
  apply absorbs.bind (conforms_workers fun w => conforms_pauseWorker w false)
  rintro _ _ rfl
  split
  · apply absorbs.bind (conforms_workers fun w => conforms_pauseWorker w true)
    rintro _ _ rfl
    simp
  · simp

theorem conforms_resume :
    Conforms (protocol ι n E) t (outside []) QueueProcessor.resume
      fun _ => Leaves (· = outside []) := by
  simp [QueueProcessor.resume]
  apply absorbs.bind (conforms_workers conforms_resumeWorker)
  rintro _ _ rfl
  simp

theorem Settled.of_full {index : Int} {φ : Phase n} (h : Settled index φ)
    (hfull : index = QueueConstants.IS_FULL) : φ = outside [] := by
  obtain ⟨owes, rfl, howes⟩ := h
  rw [howes (by simp [hfull, QueueConstants.IS_FULL])]

theorem settled_add (index : Int) : Settled index
    (outside (if 0 ≤ index then List.finRange n else []) : Phase n) := by
  refine ⟨_, rfl, fun hneg => ?_⟩
  rw [if_neg (by omega)]

theorem conforms_whileFull (entry : E) :
    Conforms (protocol ι n E) t (outside []) (QueueProducerInterface.whileFull entry) Settled := by
  intro index
  have hsettled := settled_add (n := n) index
  refine ⟨_, by simp; rfl, ?_⟩
  simp only [done_bind]
  by_cases hfull : index = QueueConstants.IS_FULL
  · rw [hsettled.of_full hfull, if_pos hfull]
    exact ⟨.inr rfl, fun a φ h => by simpa using h⟩
  · rw [if_neg hfull]
    exact hsettled

theorem conforms_checkResizable (entry : E) {index : Int} {φ : Phase n} (h : Settled index φ) :
    Conforms (protocol ι n E) t φ (QueueProducerInterface.checkResizable entry index) Settled := by
  unfold QueueProducerInterface.checkResizable
  split
  · rename_i hfull
    rw [h.of_full hfull]
    intro maxSize
    refine ⟨_, by simp; rfl, ?_⟩
    simp only [done_bind]
    split
    · exact ⟨.inr rfl, fun a φ h => by simpa using h⟩
    · exact ⟨[], rfl, fun _ => rfl⟩
  · exact h

theorem conforms_checkFull {index : Int} :
    Conforms (protocol ι n E) t (outside owes) (ResizeControls.checkFull index)
      fun full φ => φ = outside owes ∧ (full = true → index = QueueConstants.IS_FULL) := by
  simp [ResizeControls.checkFull]
  split <;> simp_all

theorem conforms_checkFullForResize {index : Int} :
    Conforms (protocol ι n E) t (outside owes) (ResizeControls.checkFullForResize index)
      fun full φ => φ = outside owes ∧ (full = true → index = QueueConstants.IS_FULL) := by
  simp [ResizeControls.checkFullForResize]

theorem conforms_addLoop (entry : E) {index : Int} {φ : Phase n} (h : Settled index φ) :
    Conforms (protocol ι n E) t φ (QueueProducerInterface.addLoop entry index)
      fun index φ => φ = never ∨ Settled index φ := by
  apply (conforms_checkResizable entry h).bind
  rintro index _ ⟨owes, rfl, howes⟩
  apply conforms_checkFull.bind
  rintro full _ ⟨rfl, hfull⟩
  cases full with
  | false => exact .inr ⟨owes, rfl, howes⟩
  | true =>
      rw [howes (by simp [hfull rfl, QueueConstants.IS_FULL])]
      intro index
      refine ⟨_, by simp; rfl, ?_⟩
      have hsettled := settled_add (n := n) index
      apply conforms_checkFullForResize.bind
      rintro full _ ⟨rfl, hfull⟩
      cases full with
      | false => exact .inr hsettled
      | true =>
          rw [hsettled.of_full (hfull rfl)]
          simp [QueueProducerInterface.pauseThreadsForResize, ResizeControls.pauseAdders]
          apply absorbs.bind (conforms_pause true)
          rintro _ _ rfl
          exact fun _ => ⟨never, by simp, (absorbs.conforms rfl _).mono fun _ _ h => .inl h⟩

theorem conforms_add (entry : E) :
    Conforms (protocol ι n E) t (outside []) (QueueProducerInterface.add entry)
      fun _ => Leaves (· = outside []) := by
  have haddToQueue : Conforms (protocol ι n E) t (outside [])
      (QueueProducerInterface.addToQueue entry)
      fun index φ => φ = never ∨ Settled index φ := by
    intro terminated
    cases terminated with
    | true => exact ⟨outside [], by simp, .inr ⟨[], rfl, fun _ => rfl⟩⟩
    | false =>
        simp [ResizeControls.waitForResize]
        exact fun index => settled_add index
  apply absorbs.bind haddToQueue
  rintro index _ ⟨owes, rfl, howes⟩
  split
  · exact conforms_broadcast
  · rename_i hneg
    rw [howes (by omega)]
    exact .inr rfl

/-! ### `start` and `stop` -/

theorem restart_keeps (w : Fin n) :
    (Worker.start w : Code ι n E Unit).Only ((protocol ι n E).Keeps t restarting) := by
  simp [Worker.start]

/-- The workers that are left were not started. -/
def Unstarted (ws : List (Fin n)) (φ : Phase n) : Prop := φ = starting ws ∧ ws.Nodup

theorem conforms_startNew (w : Fin n) (ws : List (Fin n)) {φ : Phase n}
    (h : Unstarted (w :: ws) φ) :
    Conforms (protocol ι n E) t φ (QueueProcessor.startNew w)
      fun _ => Leaves (Unstarted ws) := by
  obtain ⟨rfl, hnodup⟩ := h
  obtain ⟨hw, hnodup⟩ := List.nodup_cons.mp hnodup
  simp [QueueProcessor.startNew, Worker.start, Unstarted, hw, hnodup]

theorem conforms_start :
    Conforms (protocol ι n E) t startCalled QueueProcessor.start
      fun _ => Leaves (· = outside []) := by
  simp [QueueProcessor.start]
  constructor
  · apply absorbs.bind (Conforms.forEach (I := fun ws => Leaves (Unstarted ws)) ?_ ?_)
    · rintro _ _ ⟨rfl, -⟩
      simp
    · rintro w ws φ (rfl | h)
      · exact (absorbs.conforms rfl _).mono fun _ _ h => .inl h
      · exact conforms_startNew w ws h
    · exact .inr ⟨rfl, List.nodup_finRange n⟩
  · apply (Conforms.of_keeps (Prog.Only.forEach restart_keeps)).bind
    rintro _ _ rfl
    simp

/-- All workers but these were found to wait. -/
def Visited (ws : List (Fin n)) (φ : Phase n) : Prop :=
  ws.Nodup ∧ ∃ vs, φ = visited vs ∧ ∀ w, w ∈ ws ↔ w ∉ vs

theorem visited_of_not_mem {w : Fin n} {vs : List (Fin n)} (h : w ∉ vs) :
    visited vs = draining vs := if_neg fun hall => h (hall w)

theorem visited_of_forall {vs : List (Fin n)} (h : ∀ w, w ∈ vs) : visited vs = told [] :=
  if_pos h

theorem conforms_visit (w : Fin n) (ws : List (Fin n)) {φ : Phase n} (h : Visited (w :: ws) φ) :
    Conforms (protocol ι n E) t φ (Worker.signal w true)
      fun _ => Leaves (Visited ws) := by
  obtain ⟨hnodup, vs, rfl, hvs⟩ := h
  obtain ⟨hw, hnodup⟩ := List.nodup_cons.mp hnodup
  have hnext : Visited ws (visited (w :: vs)) := by
    refine ⟨hnodup, _, rfl, fun v => ?_⟩
    have hv := hvs v
    simp only [List.mem_cons] at hv ⊢
    by_cases hvw : v = w
    · subst hvw
      simp [hw]
    · simpa [hvw] using hv
  rw [visited_of_not_mem ((hvs w).mp (by simp))]
  simp [Worker.signal, hnext]

/-- All workers but these were terminated. -/
def Told (ws : List (Fin n)) (φ : Phase n) : Prop :=
  ∃ vs, φ = told vs ∧ ∀ w, w ∈ ws ∨ w ∈ vs

theorem told_of_forall {vs : List (Fin n)} (h : ∀ w, w ∈ vs) : told vs = drained := if_pos h

theorem stop_drained (w : Fin n) :
    (Worker.stop w : Code ι n E Unit).Only ((protocol ι n E).Keeps t drained) := by
  simp [Worker.stop, Worker.wasStarted, Worker.resume, Worker.signal, Worker.signalDead]

theorem discard_drained (w : Fin n) :
    (QueueProcessor.discard w : Code ι n E Unit).Only ((protocol ι n E).Keeps t drained) := by
  simp [QueueProcessor.discard, Worker.join]

theorem conforms_tell (w : Fin n) (ws : List (Fin n)) {φ : Phase n} (h : Told (w :: ws) φ) :
    Conforms (protocol ι n E) t φ (Worker.stop w) fun _ => Leaves (Told ws) := by
  obtain ⟨vs, rfl, hvs⟩ := h
  have hcover : ∀ v, v ∈ ws ∨ v ∈ w :: vs := by
    intro v
    have hv := hvs v
    simp only [List.mem_cons] at hv ⊢
    tauto
  by_cases hall : ∀ v, v ∈ vs
  · rw [told_of_forall hall]
    apply (Conforms.of_keeps (stop_drained w)).mono
    rintro _ _ rfl
    exact .inr ⟨vs, (told_of_forall hall).symm, fun v => .inr (hall v)⟩
  · rw [told, if_neg hall]
    refine ⟨told (w :: vs), by simp, ?_⟩
    apply (Conforms.of_keeps ?_).mono
    · rintro _ _ rfl
      exact .inr ⟨w :: vs, rfl, hcover⟩
    · by_cases hlast : ∀ v, v ∈ w :: vs
      · rw [told_of_forall hlast]
        simp [Worker.wasStarted, Worker.resume, Worker.signal, Worker.signalDead]
      · rw [told, if_neg hlast]
        simp [Worker.wasStarted, Worker.resume, Worker.signal, Worker.signalDead]

theorem conforms_stop :
    Conforms (protocol ι n E) t stopCalled QueueProcessor.stop
      fun _ => Leaves (· = drained) := by
  simp [QueueProcessor.stop]
  have hnever : ∀ vs : List (Fin n), visited vs ≠ never := by
    intro vs
    unfold visited told
    split
    · split <;> simp
    · simp
  apply absorbs.bind (conforms_loop (I := Visited) (hnever []) ?_ conforms_visit)
  · rintro _ _ ⟨-, vs, rfl, hvs⟩
    rw [visited_of_forall (by simpa using hvs)]
    apply absorbs.bind (conforms_loop (I := Told) ?_ ?_ conforms_tell)
    · rintro _ _ ⟨vs, rfl, hvs⟩
      rw [told_of_forall (by simpa using hvs)]
      apply absorbs.bind (conforms_loop (I := fun _ φ => φ = drained) (by simp) rfl ?_)
      · rintro _ _ rfl
        simp
      · rintro w _ _ rfl
        exact (Conforms.of_keeps (discard_drained w)).mono fun _ _ h => .inr h
    · unfold told
      split <;> simp
    · exact ⟨[], rfl, fun w => .inl (List.mem_finRange w)⟩
  · exact ⟨List.nodup_finRange n, [], rfl, fun w => by simp⟩

theorem conforms_body {p : Proc n E} {φ : Phase n} (hp : calledFrom t φ p) :
    Conforms (protocol ι n E) t φ (procedure p) fun a ψ => returnsTo φ a ψ p := by
  cases p with
  | whileResizing =>
      obtain ⟨owes, rfl⟩ := hp
      simp [procedure, ResizeControls.whileResizing]
  | whileAdding =>
      obtain ⟨owes, rfl⟩ := hp
      simp [procedure, ResizeControls.whileAdding]
  | whileFull entry =>
      obtain rfl := hp
      exact conforms_whileFull entry
  | addLoop entry index =>
      exact conforms_addLoop entry hp
  | runLoop w =>
      obtain ⟨rfl, rfl⟩ := hp
      exact conforms_runLoop w
  | whileAlive w =>
      obtain rfl := hp
      simp [procedure, Worker.whileAlive]

omit [DecidableEq ι] in
theorem ne_never_of_calledFrom {p : Proc n E} {φ : Phase n} (hp : calledFrom t φ p) :
    φ ≠ never := by
  rintro rfl
  cases p with
  | whileResizing | whileAdding =>
      obtain ⟨owes, howes⟩ := hp
      cases howes
  | addLoop entry index =>
      obtain ⟨owes, howes, -⟩ := hp
      cases howes
  | whileFull entry | whileAlive w => cases hp
  | runLoop w => cases hp.2

/-- All methods keep to the protocol. -/
theorem obeyed : (protocol ι n E).Obeyed (servedProcessor ι n E) where
  body := by
    rintro t p φ (rfl | hp)
    · exact (absorbs.conforms rfl _).mono fun _ _ h => by simpa using h
    · apply (conforms_body hp).mono
      intro a ψ hψ
      simpa [ne_never_of_calledFrom hp] using hψ
  main := by
    rintro (i | w) φ hφ
    · exact hφ
    · rcases hφ with rfl | hφ
      · exact (absorbs.conforms rfl _).mono fun _ _ h => .inl h
      · have hborn : (protocol ι n E).born (.worker w) φ = fresh := by
          rcases hφ with rfl | rfl <;> simp [protocol]
        rw [hborn]
        apply (conforms_run w).mono
        rintro _ φ (h | h)
        · exact .inl h
        · exact .inr (.inr h)
  entry := by
    rintro t c m m' p φ hentry hφ
    obtain ⟨p', hp', hentry⟩ := Option.map_eq_some_iff.mp hentry
    obtain ⟨-, rfl⟩ := Prod.mk.inj hentry
    cases t with
    | worker w => cases hp'
    | client i =>
        obtain rfl := Option.some.inj hp'
        have hfinal : ∀ φ : Phase n, Leaves (· = outside []) φ →
            (protocol ι n E).final (.client i) φ := by
          rintro φ (h | h)
          · exact .inl h
          · exact .inr (.inl h)
        rcases hφ with rfl | hφ
        · exact (absorbs.conforms rfl _).mono fun _ _ h => .inl h
        · have henter : (protocol ι n E).enter (.client i) c φ = begin c := by
            rcases hφ with rfl | rfl <;> rfl
          rw [henter]
          cases c with
          | add entry => exact (conforms_add entry).mono fun _ => hfinal
          | start => exact conforms_start.mono fun _ => hfinal
          | stop =>
              apply conforms_stop.mono
              rintro _ φ (h | h)
              · exact .inl h
              · exact .inr (.inr h)
          | pause block => exact (conforms_pause block).mono fun _ => hfinal
          | resume => exact conforms_resume.mono fun _ => hfinal
          | terminate => exact (absorbs.conforms rfl _).mono fun _ _ h => .inl h

end Attendance

end HPQueue
