import HPQueue.Consumer.Conformance

/-!
# The pause that a resize needs

The phases of a thread relative to the pauses of the processor: where it is in `pause`
or `resume`, which of the workers it has told, and found idle; how many pauses it has
counted and not taken back; and how many of these are left when its call returns.
A producer that resizes the queue counts one more in between.

Calls of `stop`, of `terminate`, of a `pause` that does not block, and of a `resume`
with no pause to take back, have no phase, nor does a worker whose consumer has thrown.

## Main results

* `obeyed` — all methods keep to the protocol.
-/

namespace HPQueue

open Library.Threads Prog

variable {ι : Type} {n : Nat} {E : Type}

namespace ResizePause

inductive Place (n : Nat)
  | out
  /-- With `startLock`. -/
  | held
  /-- In `pause`, having found the processor not paused, and running. -/
  | unpaused
  | running
  /-- These workers are still to be told. -/
  | marking (ws : List (Fin n))
  /-- All are told, and these are still to be found idle, or not started. -/
  | settling (ws : List (Fin n))
  | sleeping (w : Fin n) (ws : List (Fin n))
  /-- The processor is paused, and the pause is to be counted. -/
  | nested
  /-- A pause is to be taken back: without and with `startLock`, and having found the
  processor paused. -/
  | due
  | dueHeld
  | lowering
  /-- It is taken back, and it was the last. -/
  | lowered
  | lifting
  /-- No thread ever is here. -/
  | never
  deriving DecidableEq

structure Phase (n : Nat) where
  place : Place n
  /-- The pauses that it has counted and not taken back. -/
  owed : Nat
  /-- Those that its calls leave. -/
  own : Nat
  deriving DecidableEq

open Place

namespace Place

/-- Whether the thread holds `startLock`. -/
def holds : Place n → Bool
  | held | unpaused | running | marking _ | settling _ | sleeping _ _ | nested | dueHeld
  | lowering | lowered | lifting => true
  | out | due | never => false

/-- After `startLock` was acquired. -/
def acquired : Place n → Option (Place n)
  | out => some held
  | due => some dueHeld
  | _ => none

/-- After it was released. -/
def released : Place n → Option (Place n)
  | held => some out
  | _ => none

/-- After `isPausedFlag` was found to have this value. -/
def seesPaused (b : Bool) : Place n → Place n
  | held => if b then nested else unpaused
  | dueHeld => if b then lowering else never
  | p => p

/-- After `isRunningFlag` was. -/
def seesRunning (b : Bool) : Place n → Place n
  | unpaused => if b then running else settling []
  | p => p

/-- After the counter was found not to be zero (`true`), or to be. -/
def seesCounter (b : Bool) : Place n → Place n
  | lowered => if b then held else lifting
  | p => p

/-- After `workers` was found to be there. -/
def gathers : Place n → Place n
  | running => marking (List.finRange n)
  | marking [] => settling (List.finRange n)
  | p => p

/-- After the worker's `isPausedFlag` was found set, or was set. -/
def marks (w : Fin n) : Place n → Place n
  | marking (v :: ws) => if v = w then marking ws else marking (v :: ws)
  | p => p

/-- After the worker was found idle, or not started. -/
def settles (w : Fin n) : Place n → Place n
  | settling (v :: ws) => if v = w then settling ws else settling (v :: ws)
  | p => p

end Place

def loads (p : Place n) (b : Bool) : Load n → Place n
  | .flag .isTerminatedFlag => if b then never else p
  | .flag .cleared => if b then never else p.gathers
  | .flag .isPausedFlag => p.seesPaused b
  | .flag .isRunningFlag => p.seesRunning b
  | .flag (.worker _ .isTerminatedFlag) => if b then never else p
  | .flag (.worker w .isPausedFlag) => if b then p.marks w else p
  | .flag (.worker w .isIdleFlag) => if b then p.settles w else p
  | .flag (.worker w .isStartedFlag) => if b then p else p.settles w
  | .nestedPauseCounter => p.seesCounter b
  | _ => p

def stores (p : Place n) : Store n → Option (Place n)
  | .flag .isPausedFlag b =>
      match p, b with
      | settling [], true => some nested
      | lifting, false => some held
      | _, _ => none
  | .flag (.worker w .isPausedFlag) b =>
      match p, b with
      | marking ws, true => some ((marking ws).marks w)
      | settling ws, true => some (settling ws)
      | lifting, false => some lifting
      | _, _ => none
  | .flag .isRunningFlag _ => if p = held then some held else none
  | .flag (.worker _ .isStartedFlag) _ => if p = held then some held else none
  | .newWorker _ => if p = held then some held else none
  | .flag .isTerminatedFlag _ => none
  | .flag .cleared _ => none
  | .flag (.worker _ .isTerminatedFlag) _ => none
  | .nestedPauseCounter _ => none
  | _ => some p

def waits (p : Place n) : Cond n → Lock n → Option (Place n)
  | .isIdle w, .hasPausedLock _ =>
      match p with
      | settling (v :: ws) => if v = w then some (sleeping w ws) else none
      | _ => none
  | .isIdle _, _ => none
  | _, .startLock => none
  | _, _ => if p = out then some out else none

def resumes (p : Place n) : Cond n → Lock n → Option (Place n)
  | .isIdle w, .hasPausedLock _ =>
      match p with
      | sleeping v ws => if v = w then some (settling ws) else none
      | _ => none
  | .isIdle _, _ => none
  | _, .startLock => none
  | _, _ => if p = out then some out else none

def asks (p : Place n) (a : Int) : Query n E → Option (Place n)
  | .handle _ => if p = out then some (if a = 0 then out else never) else none
  | .resize => none
  | _ => some p

/-- The place after an operation that neither counts pauses nor resizes the queue. -/
def moves (p : Place n) : (o : Op (names ι n E)) → o.Result → Option (Place n)
  | .acquire .startLock, _ => p.acquired
  | .acquire _, _ => some p
  | .release .startLock, _ => p.released
  | .release _, _ => some p
  | .wait c l, _ => waits p c l
  | .resume c l, _ => resumes p c l
  | .signal _, _ => some p
  | .broadcast (.isIdle _), _ => none
  | .broadcast _, _ => some p
  | .load x, b => some (loads p b x)
  | .store x, _ => stores p x
  | .ask q, a => asks p a q
  | .call _, _ => none
  | .spawn _, _ => if p = held then some held else none

namespace Phase

/-- After the counter was changed. -/
def counts (φ : Phase n) (d : UInt32) : Option (Phase n) :=
  match φ.place with
  | nested => if d = 1 then some { φ with place := held, owed := φ.owed + 1 } else none
  | lowering => if d = -1 then some { φ with place := lowered, owed := φ.owed - 1 } else none
  | _ => none

/-- After the queue was resized. -/
def resized (φ : Phase n) : Option (Phase n) :=
  if φ.place = out ∧ φ.own < φ.owed then some { φ with place := due } else none

end Phase

/-- No thread is there. -/
def Gone (φ : Phase n) : Prop := φ.place = never

instance (φ : Phase n) : Decidable (Gone φ) := inferInstanceAs (Decidable (_ = _))

/-- Where a call ends. -/
def Rests (φ : Phase n) : Prop := φ.place = out ∧ φ.owed = φ.own

/-- The phase after an operation. -/
def step (φ : Phase n) (o : Op (names ι n E)) (r : o.Result) : Option (Phase n) :=
  if Gone φ then some φ
  else
    match o, r with
    | .store (.nestedPauseCounter d), _ => φ.counts d
    | .ask .resize, _ => φ.resized
    | o, r => (moves φ.place o r).map fun p => { φ with place := p }

/-- Where a call begins. -/
def begin (φ : Phase n) : ClientCall E → Phase n
  | .add _ | .start => φ
  | .pause block => if block then { φ with own := φ.own + 1 } else { φ with place := never }
  | .resume =>
      if 0 < φ.own then { φ with place := due, own := φ.own - 1 } else { φ with place := never }
  | .stop | .terminate => { φ with place := never }

/-- Where the loops are called. -/
def calledFrom (φ : Phase n) : Proc n E → Prop
  | .whileAlive _ => False
  | _ => Rests φ

/-- And where they return. -/
def returnsTo (φ ψ : Phase n) : Proc n E → Prop
  | .whileResizing | .whileAdding | .whileFull _ => ψ = φ
  | .addLoop _ _ => Gone ψ ∨ ψ = φ
  | .runLoop _ | .whileAlive _ => Gone ψ

def protocol (ι : Type) (n : Nat) (E : Type) : Protocol (names ι n E) (Phase n) where
  trans _ φ o r := step φ o r
  pre _ p φ := Gone φ ∨ calledFrom φ p
  post _ p φ _ ψ := if Gone φ then Gone ψ else returnsTo φ ψ p
  final _ φ := Gone φ ∨ Rests φ
  enter _ c φ := if Gone φ then φ else begin φ c

/-! ## The methods -/

variable {t : Thread ι n} {i : ι} {k m : Nat}

theorem protocol_trans (φ : Phase n) (o : Op (names ι n E)) (r : o.Result) :
    (protocol ι n E).trans t φ o r = step φ o r := rfl

theorem protocol_pre (p : Proc n E) (φ : Phase n) :
    (protocol ι n E).pre t p φ ↔ Gone φ ∨ calledFrom φ p := Iff.rfl

theorem protocol_post (p : Proc n E) (φ ψ : Phase n) (a : Int) :
    (protocol ι n E).post t p φ a ψ ↔ if Gone φ then Gone ψ else returnsTo φ ψ p := Iff.rfl

attribute [local simp] protocol_trans protocol_pre protocol_post calledFrom returnsTo step moves
  Phase.counts Phase.resized acquired released seesPaused seesRunning seesCounter gathers marks
  settles loads stores waits resumes asks Protocol.Keeps Prog.Only.ite_iff Prog.ite_bind
  Worker.get Worker.set QueueProcessor.get QueueProcessor.set

theorem absorbs : (protocol ι n E).Absorbs Gone where
  trans := by
    intro t φ o r hφ
    exact ⟨φ, if_pos hφ, hφ⟩
  pre := fun _ _ _ => .inl
  post := by
    intro t p φ a ψ hφ hψ
    rwa [protocol_post, if_pos hφ] at hψ

/-- The phase that a method leaves, unless nobody is there. -/
def Leaves (Q : Phase n → Prop) (φ : Phase n) : Prop := Gone φ ∨ Q φ

attribute [local simp] Conforms Leaves Gone Rests

/-! ### Workers -/

theorem conforms_doWork (w : Fin n) :
    Conforms (protocol ι n E) t ⟨out, k, k⟩ (Worker.doWork w)
      fun outcome => Leaves fun φ => φ = ⟨out, k, k⟩ ∧ outcome ≠ .thrown := by
  simp [Worker.doWork]
  intro entry
  split
  · simp
  · simp
    intro error
    exact (Decidable.em (error = 0)).symm

/-- The loop only ends if the worker is terminated, or has thrown. -/
theorem conforms_runLoop (w : Fin n) :
    Conforms (protocol ι n E) t ⟨out, k, k⟩ (Worker.runLoop w) fun _ => Gone := by
  have hpaused : Conforms (protocol ι n E) t ⟨out, k, k⟩ (Worker.waitWhilePaused w)
      fun _ => Leaves (· = ⟨out, k, k⟩) := by
    simp [Worker.waitWhilePaused]
  have hwork : Conforms (protocol ι n E) t ⟨out, k, k⟩ (Worker.waitForWork w)
      fun _ => Leaves (· = ⟨out, k, k⟩) := by
    simp [Worker.waitForWork, Worker.isWork]
    intro work
    split <;> simp
  have hgone : ∀ (a : Int) (φ : Phase n), Gone φ ∨ False → Gone φ := fun _ _ h => h.resolve_right id
  simp [Worker.runLoop]
  constructor
  · refine (absorbs.bind (R := fun _ _ => False) (conforms_doWork w) ?_).mono hgone
    rintro outcome _ ⟨rfl, houtcome⟩
    cases outcome with
    | none =>
        simp
        refine (absorbs.bind (R := fun _ _ => False) hwork ?_).mono hgone
        rintro _ _ rfl
        simp
    | some => simp
    | thrown => exact absurd rfl houtcome
  · refine (absorbs.bind (R := fun _ _ => False) hpaused ?_).mono hgone
    rintro _ _ rfl
    simp

theorem conforms_run (w : Fin n) :
    Conforms (protocol ι n E) t ⟨out, k, k⟩ (Worker.run w)
      fun _ => Leaves (· = ⟨out, k, k⟩) := by
  simp [Worker.run]
  intro error φ hφ
  exact (absorbs.conforms hφ _).mono fun _ _ h => .inl h

/-! ### The methods of a worker, as the processor calls them -/

theorem conforms_startWorker (w : Fin n) :
    Conforms (protocol ι n E) t ⟨held, k, m⟩ (Worker.start w)
      fun _ => Leaves (· = ⟨held, k, m⟩) := by
  simp [Worker.start]

theorem conforms_startNew (w : Fin n) :
    Conforms (protocol ι n E) t ⟨held, k, m⟩ (QueueProcessor.startNew w)
      fun _ => Leaves (· = ⟨held, k, m⟩) := by
  simp [QueueProcessor.startNew]
  exact conforms_startWorker w

theorem conforms_mark (w : Fin n) (ws : List (Fin n)) :
    Conforms (protocol ι n E) t ⟨marking (w :: ws), k, m⟩ (Worker.pause w false)
      fun _ => Leaves (· = ⟨marking ws, k, m⟩) := by
  simp [Worker.pause, Worker.signal]

theorem conforms_settle (w : Fin n) (ws : List (Fin n)) :
    Conforms (protocol ι n E) t ⟨settling (w :: ws), k, m⟩ (Worker.pause w true)
      fun _ => Leaves (· = ⟨settling ws, k, m⟩) := by
  simp [Worker.pause, Worker.signal]

theorem conforms_resumeWorker (w : Fin n) :
    Conforms (protocol ι n E) t ⟨lifting, k, m⟩ (Worker.resume w)
      fun _ => Leaves (· = ⟨lifting, k, m⟩) := by
  simp [Worker.resume]

theorem conforms_signal (w : Fin n) :
    Conforms (protocol ι n E) t ⟨out, k, m⟩ (Worker.signal w false)
      fun _ => Leaves (· = ⟨out, k, m⟩) := by
  simp [Worker.signal]

/-! ### The processor -/

/-- A loop over the workers, unless `workers` was cleared. -/
theorem conforms_loop {p : Place n} {q : List (Fin n) → Place n} {f : Fin n → Code ι n E Unit}
    (hp : p ≠ never) (hgathers : p.gathers = q (List.finRange n))
    (hf : ∀ w ws, Conforms (protocol ι n E) t ⟨q (w :: ws), k, m⟩ (f w)
      fun _ => Leaves (· = ⟨q ws, k, m⟩)) :
    Conforms (protocol ι n E) t ⟨p, k, m⟩ (QueueProcessor.forWorkers f)
      fun _ => Leaves (· = ⟨q [], k, m⟩) := by
  apply (conforms_forWorkers (I := fun ws => Leaves (· = ⟨q ws, k, m⟩)) (J := Gone) ?_ ?_ ?_).mono
  · rintro _ _ ((h | h) | h)
    · exact .inl h
    · exact .inr h
    · exact .inl h
  · simp [hp]
  · exact ⟨⟨p.gathers, k, m⟩, by simp [hp], .inr (by rw [hgathers])⟩
  · rintro w ws φ (h | rfl)
    · exact (absorbs.conforms h _).mono fun _ _ h => .inl h
    · exact hf w ws

theorem conforms_start :
    Conforms (protocol ι n E) t ⟨out, k, m⟩ QueueProcessor.start
      fun _ => Leaves (· = ⟨out, k, m⟩) := by
  have heach : ∀ {f : Fin n → Code ι n E Unit}, (∀ w, Conforms (protocol ι n E) t ⟨held, k, m⟩ (f w)
      fun _ => Leaves (· = ⟨held, k, m⟩)) →
      Conforms (protocol ι n E) t ⟨held, k, m⟩ (Prog.forEach (List.finRange n) f)
        fun _ => Leaves (· = ⟨held, k, m⟩) := by
    intro f hf
    apply Conforms.forEach (I := fun _ => Leaves (· = ⟨held, k, m⟩)) ?_ (.inr rfl)
    rintro w ws φ (h | rfl)
    · exact (absorbs.conforms h _).mono fun _ _ h => .inl h
    · exact hf w
  simp [QueueProcessor.start]
  constructor
  · apply absorbs.bind (heach conforms_startNew)
    rintro _ _ rfl
    simp
  · apply absorbs.bind (heach conforms_startWorker)
    rintro _ _ rfl
    simp

theorem conforms_pause :
    Conforms (protocol ι n E) t ⟨out, k, m⟩ (QueueProcessor.pause true)
      fun _ => Leaves (· = ⟨out, k + 1, m⟩) := by
  simp [QueueProcessor.pause]
  apply absorbs.bind (conforms_loop (q := marking) (by simp) rfl conforms_mark)
  rintro _ _ rfl
  apply absorbs.bind (conforms_loop (q := settling) (by simp) rfl conforms_settle)
  rintro _ _ rfl
  simp

theorem conforms_resume :
    Conforms (protocol ι n E) t ⟨due, k + 1, m⟩ QueueProcessor.resume
      fun _ => Leaves (· = ⟨out, k, m⟩) := by
  simp [QueueProcessor.resume]
  apply absorbs.bind (conforms_loop (q := fun _ => lifting) (by simp) rfl
    fun w _ => conforms_resumeWorker w)
  rintro _ _ rfl
  simp

theorem conforms_broadcast :
    Conforms (protocol ι n E) t ⟨out, k, m⟩ QueueProcessor.broadcast
      fun _ => Leaves (· = ⟨out, k, m⟩) := by
  simp [QueueProcessor.broadcast]
  apply absorbs.bind (conforms_loop (q := fun _ => out) (by simp) rfl ?_)
  · rintro _ _ rfl
    simp
  · intro w _
    simp
    exact conforms_signal w

/-! ### Producers -/

theorem offering_keeps (o : Op (names ι n E)) (h : Offering o) :
    (protocol ι n E).Keeps t ⟨out, k, k⟩ o := by
  have hproducing := h.producing
  cases o with
  | acquire l | release l | broadcast c =>
      obtain rfl := hproducing
      simp
  | wait c l =>
      obtain ⟨rfl, rfl⟩ := hproducing
      simp
  | load x => rcases hproducing with rfl | rfl <;> simp
  | store x => rcases hproducing with ⟨b, rfl⟩ | ⟨d, rfl⟩ <;> simp
  | ask q =>
      cases q with
      | add entry | isMaxSize =>
          intro a
          simp
      | resize => cases h
      | started w | init w | finalize w | remove w | handle w | isWork w => cases h
  | call p =>
      cases p with
      | whileResizing | whileAdding | whileFull entry => simp
      | addLoop entry index | runLoop w | whileAlive w => cases h
  | resume c l | signal c | spawn u => cases h

theorem loops_out : Loops (protocol ι n E) t Gone ⟨out, k, k⟩ := by
  simp [Loops]

theorem conforms_body {p : Proc n E} {φ : Phase n} (hp : calledFrom φ p) :
    Conforms (protocol ι n E) t φ (procedure p) fun _ ψ => returnsTo φ ψ p := by
  obtain ⟨place, owed, own⟩ := φ
  cases p with
  | whileAlive w => cases hp
  | whileResizing =>
      obtain ⟨rfl, rfl⟩ : place = out ∧ owed = own := hp
      simp [procedure, ResizeControls.whileResizing]
  | whileAdding =>
      obtain ⟨rfl, rfl⟩ : place = out ∧ owed = own := hp
      simp [procedure, ResizeControls.whileAdding]
  | whileFull entry =>
      obtain ⟨rfl, rfl⟩ : place = out ∧ owed = own := hp
      simp [procedure, QueueProducerInterface.whileFull]
      intro index
      split <;> simp
  | addLoop entry index =>
      obtain ⟨rfl, rfl⟩ : place = out ∧ owed = own := hp
      exact conforms_addLoop_through absorbs offering_keeps loops_out conforms_pause (by simp)
        conforms_resume entry index
  | runLoop w =>
      obtain ⟨rfl, rfl⟩ : place = out ∧ owed = own := hp
      exact conforms_runLoop w

/-- All methods keep to the protocol. -/
theorem obeyed [DecidableEq ι] : (protocol ι n E).Obeyed (processor ι n E) where
  body := by
    rintro t p φ (hφ | hp)
    · exact (absorbs.conforms hφ _).mono fun _ _ h => by rwa [protocol_post, if_pos hφ]
    · apply (conforms_body hp).mono
      intro a ψ hψ
      have hφ : ¬ Gone φ := by
        have hrests : Rests φ := by
          cases p with
          | whileAlive w => cases hp
          | whileResizing | whileAdding | whileFull entry | addLoop entry index | runLoop w =>
              exact hp
        simp [hrests.1]
      rwa [protocol_post, if_neg hφ]
  main := by
    rintro (i | w) φ hφ
    · exact hφ
    · rcases hφ with hφ | hφ
      · exact (absorbs.conforms hφ _).mono fun _ _ h => .inl h
      · obtain ⟨place, owed, own⟩ := φ
        obtain ⟨rfl, rfl⟩ : place = out ∧ owed = own := hφ
        exact (conforms_run w).mono fun _ φ h => h.imp id fun h => by rw [h]; exact ⟨rfl, rfl⟩
  entry := by
    rintro t c m m' p φ hentry hφ
    obtain ⟨i, rfl, -, rfl⟩ := entry_eq_some hentry
    have hend : ∀ {j : Nat} {φ : Phase n}, Leaves (· = ⟨out, j, j⟩) φ → Gone φ ∨ Rests φ :=
      fun h => h.imp id fun h => by rw [h]; exact ⟨rfl, rfl⟩
    by_cases hgone : Gone φ
    · apply (absorbs.conforms _ _).mono fun _ _ h => .inl h
      rwa [show (protocol ι n E).enter (.client i) _ φ = φ from if_pos hgone]
    · have henter : ∀ c : ClientCall E, (protocol ι n E).enter (.client i) c φ = begin φ c :=
        fun c => if_neg hgone
      obtain ⟨place, owed, own⟩ := φ
      obtain ⟨rfl, rfl⟩ : place = out ∧ owed = own := hφ.resolve_left hgone
      rw [henter]
      have hnever : ∀ {p : Code ι n E Unit} {φ : Phase n}, Gone φ →
          Conforms (protocol ι n E) (.client i) φ p fun _ φ => Gone φ ∨ Rests φ :=
        fun h => (absorbs.conforms h _).mono fun _ _ h => .inl h
      cases c with
      | add entry =>
          exact (conforms_add_through absorbs offering_keeps loops_out (by simp)
            conforms_broadcast entry).mono fun _ _ => hend
      | start => exact conforms_start.mono fun _ _ => hend
      | pause block =>
          cases block with
          | true => exact conforms_pause.mono fun _ _ => hend
          | false => exact hnever rfl
      | resume =>
          cases owed with
          | zero => exact hnever rfl
          | succ j => exact conforms_resume.mono fun _ _ => hend
      | stop | terminate => exact hnever rfl

end ResizePause

end HPQueue
