import HPQueue.Consumer.OneWorker

/-!
# Pausing a worker

`pause(true)` sets `isPausedFlag` and waits until the worker says that it is idle.  After
a quick `resume`, the worker may still seem idle when the next `pause` looks: it was
woken, and has not cleared `isIdleFlag` yet.  That does no harm.  Wherever the worker is
while `isIdleFlag` is set, it looks at `isPausedFlag` again before it looks for work.

So what matters is only whether the worker may still look for work without having seen
`isPausedFlag`; a worker that seems idle, or was not started, or has terminated, may not.

One thread controls the worker.  The worker itself may wake from a wait at any time.

## Main results

* `obeyed` — the positions of all methods relative to a pause.
* `pause_effective` — after `pause(true)`, and before the next `resume` or `stop`, the
  worker neither looks for work nor does any.
-/

namespace HPQueue

open Library.Threads Library.Transition
open OneWorker (flag Memory)
open scoped OneWorker

variable {E : Type}

namespace Pausing

/-- Where a thread stands. -/
inductive Phase
  /-- The worker, before it is created. -/
  | unborn
  /-- The worker, which looks at `isPausedFlag` before it looks for work. -/
  | calm
  /-- So, and `isIdleFlag` is set. -/
  | idling
  /-- It did not find `isPausedFlag` set, and may look for work. -/
  | working
  /-- It will not look for work again. -/
  | leaving
  /-- The controller; `kept` if a pause is in effect. -/
  | out (kept : Bool)
  /-- So, and the worker was not started. -/
  | fresh (kept : Bool)
  /-- In `start`, which has marked the worker as started. -/
  | launching (kept : Bool)
  /-- In `pause(true)`. -/
  | pausing
  /-- `isPausedFlag` is set. -/
  | marked
  /-- It waits until the worker is idle. -/
  | awaiting
  /-- In `stop`. -/
  | never
  deriving DecidableEq

namespace Phase

/-- After `isPausedFlag` was found to have this value. -/
def seesPaused (b : Bool) : Phase → Phase
  | calm | working => if b then calm else working
  | pausing => if b then marked else pausing
  | φ => φ

/-- After `isTerminatedFlag` was. -/
def seesTerminated (b : Bool) : Phase → Phase
  | pausing => if b then out true else pausing
  | φ => φ

/-- After `isIdleFlag` was. -/
def seesIdle (b : Bool) : Phase → Phase
  | marked => if b then out true else marked
  | φ => φ

/-- After `isStartedFlag` was. -/
def seesStarted (b : Bool) : Phase → Phase
  | marked => if b then marked else out true
  | out kept | fresh kept => if b then out kept else fresh kept
  | φ => φ

/-- After `isPausedFlag` was set to this value. -/
def pauses (b : Bool) : Phase → Option Phase
  | pausing => if b then some marked else none
  | out kept => if kept ∧ !b then none else some (out kept)
  | _ => none

/-- After `isIdleFlag` was. -/
def idles (b : Bool) : Phase → Option Phase
  | calm => if b then some idling else none
  | idling => if b then none else some calm
  | leaving => if b then none else some leaving
  | _ => none

/-- After `isStartedFlag` was set. -/
def starts : Phase → Option Phase
  | fresh kept => some (launching kept)
  | _ => none

def spawns : Phase → Option Phase
  | launching kept => some (out kept)
  | _ => none

/-- After `isTerminatedFlag` was set, or the worker has begun to finalize. -/
def leaves : Phase → Option Phase
  | calm | working | leaving => some leaving
  | _ => none

/-- After the thread has begun to wait until the worker is idle. -/
def waits : Phase → Option Phase
  | marked => some awaiting
  | out true => some (out true)
  | _ => none

def wakes : Phase → Option Phase
  | awaiting | out true => some (out true)
  | _ => none

/-- The pause is in effect. -/
def keeps : Phase → Bool
  | out kept | fresh kept | launching kept => kept
  | _ => false

/-- The thread is in a `pause(true)` that has yet to take effect. -/
def isPausing : Phase → Bool
  | pausing | marked | awaiting => true
  | _ => false

/-- The worker may be in this phase. -/
def ofWorker : Phase → Bool
  | unborn | calm | idling | working | leaving => true
  | _ => false

/-- The controller may. -/
def ofClient : Phase → Bool
  | out _ | fresh _ | launching _ | pausing | marked | awaiting => true
  | _ => false

end Phase

open Phase

/-- The operations that matter; every other leaves the phase. -/
def step (φ : Phase) (o : Op (OneWorker.names Unit E)) (r : o.Result) : Option Phase :=
  if φ = never then some never
  else
    match o, r with
    | .wait (.isIdle _) _, _ => φ.waits
    | .resume (.isIdle _) _, _ => φ.wakes
    | .signal (.isIdle _), _ => if φ = idling ∨ φ = leaving then some φ else none
    | .broadcast (.isIdle _), _ => none
    | .load (.flag (.worker _ .isPausedFlag)), b => some (φ.seesPaused b)
    | .load (.flag (.worker _ .isTerminatedFlag)), b => some (φ.seesTerminated b)
    | .load (.flag (.worker _ .isIdleFlag)), b => some (φ.seesIdle b)
    | .load (.flag (.worker _ .isStartedFlag)), b => some (φ.seesStarted b)
    | .store (.inl (.newWorker _)), _ => none
    | .store (.inl (.flag (.worker _ .isPausedFlag) b)), _ => φ.pauses b
    | .store (.inl (.flag (.worker _ .isIdleFlag) b)), _ => φ.idles b
    | .store (.inl (.flag (.worker _ .isStartedFlag) b)), _ => if b then φ.starts else none
    | .store (.inl (.flag (.worker _ .isTerminatedFlag) b)), _ => if b then φ.leaves else none
    | .ask (.remove _), _ => if φ = working then some working else none
    | .ask (.handle _), _ => if φ = working then some working else none
    | .ask (.isWork _), _ => if φ = working then some working else none
    | .ask (.finalize _), _ => φ.leaves
    | .spawn (.worker _), _ => φ.spawns
    | .spawn (.client _), _ => none
    | _, _ => some φ

/-- Where a call begins. -/
def enters : WorkerCall → Phase → Phase
  | .pause true, out false | .pause true, fresh false => pausing
  | .resume, out _ | .resume, fresh _ => out false
  | .stop, _ => never
  | _, fresh kept => out kept
  | _, φ => φ

theorem enters_never (c : WorkerCall) : enters c never = never := by
  cases c with
  | pause block => cases block <;> rfl
  | start | stop | resume | signal | join => rfl

theorem enters_fresh (c : WorkerCall) (kept : Bool) :
    enters c (fresh kept) = enters c (out kept) := by
  cases c with
  | pause block => cases block <;> cases kept <;> rfl
  | start | stop | resume | signal | join => rfl

theorem enters_out {c : WorkerCall} (hstop : c ≠ .stop) (kept : Bool) :
    (c = .pause true ∧ kept = false ∧ enters c (out kept) = pausing) ∨
    (c = .resume ∧ enters c (out kept) = out false) ∨
    (c ≠ .resume ∧ (c = .pause true → kept = true) ∧ enters c (out kept) = out kept) := by
  cases c with
  | stop => exact absurd rfl hstop
  | pause block => cases block <;> cases kept <;> simp [enters]
  | start | resume | signal | join => simp [enters]

/-- Where threads are before the first call. -/
def begins : Thread Unit 1 → Phase
  | .client _ => out false
  | .worker _ => unborn

def protocol (E : Type) : Protocol (OneWorker.names Unit E) Phase where
  trans _ φ o r := step φ o r
  pre _ p φ := φ = never ∨
    match p with
    | .runLoop _ => φ = calm ∨ φ = working
    | .whileAlive _ => ∃ kept, φ = out kept
    | _ => False
  post _ p φ _ ψ := φ = never ∧ ψ = never ∨ φ ≠ never ∧
    match p with
    | .runLoop _ => ψ = calm ∨ ψ = working
    | _ => ψ = φ
  final t φ := φ = never ∨
    match t with
    | .client _ => ∃ kept, φ = out kept ∨ φ = fresh kept
    | .worker _ => φ = unborn ∨ φ = leaving
  enter _ c φ := enters c φ
  born t φ :=
    match t with
    | .client _ => φ
    | .worker _ => if φ = never then never else calm

theorem absorbs : (protocol E).Absorbs (· = never) where
  trans := by
    rintro t φ o r rfl
    exact ⟨never, by simp [protocol, step], rfl⟩
  pre := fun _ _ _ => .inl
  post := by
    rintro t p φ a ψ rfl (⟨-, hψ⟩ | ⟨hne, -⟩)
    · exact hψ
    · exact absurd rfl hne

/-! ## The methods -/

variable {t : Thread Unit 1}

theorem protocol_trans (φ : Phase) (o : Op (OneWorker.names Unit E)) (r : o.Result) :
    (protocol E).trans t φ o r = step φ o r := rfl

theorem pre_runLoop (w : Fin 1) (φ : Phase) :
    (protocol E).pre t (.runLoop w) φ ↔ φ = never ∨ φ = calm ∨ φ = working := Iff.rfl

theorem post_runLoop (w : Fin 1) (φ ψ : Phase) (a : Int) :
    (protocol E).post t (.runLoop w) φ a ψ ↔
      φ = never ∧ ψ = never ∨ φ ≠ never ∧ (ψ = calm ∨ ψ = working) := Iff.rfl

theorem pre_whileAlive (w : Fin 1) (φ : Phase) :
    (protocol E).pre t (.whileAlive w) φ ↔ φ = never ∨ ∃ kept, φ = out kept := Iff.rfl

theorem post_whileAlive (w : Fin 1) (φ ψ : Phase) (a : Int) :
    (protocol E).post t (.whileAlive w) φ a ψ ↔
      φ = never ∧ ψ = never ∨ φ ≠ never ∧ ψ = φ := Iff.rfl

attribute [local simp] protocol_trans pre_runLoop post_runLoop pre_whileAlive post_whileAlive step
  seesPaused seesTerminated seesIdle seesStarted pauses idles starts spawns leaves waits wakes
  Conforms Conforms.ite_iff Prog.ite_bind Worker.get Worker.set OneWorker.method

theorem conforms_waitWhilePaused (w : Fin 1) :
    Conforms (protocol E) t calm (OneWorker.lift (Worker.waitWhilePaused w)) fun _ ψ =>
      ψ = calm ∨ ψ = working := by
  simp [Worker.waitWhilePaused]

theorem conforms_doWork (w : Fin 1) :
    Conforms (protocol E) t working (OneWorker.lift (Worker.doWork w)) fun _ ψ =>
      ψ = working := by
  simp [Worker.doWork]

theorem conforms_waitForWork (w : Fin 1) :
    Conforms (protocol E) t working (OneWorker.lift (Worker.waitForWork w)) fun _ ψ =>
      ψ = calm ∨ ψ = working := by
  simp [Worker.waitForWork, Worker.isWork]

/-- One round of the loop: from wherever it begins, the worker looks at `isPausedFlag`
first. -/
theorem conforms_runLoop (w : Fin 1) {φ : Phase} (hφ : φ = calm ∨ φ = working) :
    Conforms (protocol E) t φ (OneWorker.lift (Worker.runLoop w)) fun _ ψ =>
      ψ = calm ∨ ψ = working := by
  rcases hφ with rfl | rfl
  all_goals
    simp [Worker.runLoop]
    constructor
    · apply (conforms_doWork w).bind
      rintro outcome _ rfl
      cases outcome with
      | none =>
          simp
          apply (conforms_waitForWork w).bind
          rintro _ _ (rfl | rfl) <;> simp
      | some | thrown => simp
    · apply (conforms_waitWhilePaused w).bind
      rintro _ _ (rfl | rfl) <;> simp

theorem conforms_handleError (w : Fin 1) {φ : Phase} (hφ : φ = calm ∨ φ = working) :
    Conforms (protocol E) t φ (OneWorker.lift (Worker.handleError w)) fun _ ψ =>
      ψ = leaving := by
  rcases hφ with rfl | rfl <;> simp [Worker.handleError]

theorem conforms_signalDead (w : Fin 1) :
    Conforms (protocol E) t leaving (OneWorker.lift (Worker.signalDead w)) fun _ ψ =>
      ψ = leaving := by
  simp [Worker.signalDead]

theorem conforms_run (w : Fin 1) :
    Conforms (protocol E) t calm (OneWorker.lift (Worker.run w)) fun _ φ => φ = leaving := by
  have hfails : ∀ {φ : Phase}, φ = calm ∨ φ = working →
      Conforms (protocol E) t φ
        ((OneWorker.lift (Worker.handleError w)).bind fun _ =>
          Prog.op (.ask (.finalize w)) fun _ => OneWorker.lift (Worker.signalDead w))
        fun _ φ => φ = leaving := by
    intro φ hφ
    apply (conforms_handleError w hφ).bind
    rintro _ _ rfl
    exact fun _ => ⟨leaving, rfl, conforms_signalDead w⟩
  simp [Worker.run, conforms_signalDead]
  exact fun _ => ⟨fun _ => hfails (.inl rfl), fun _ => hfails (.inr rfl)⟩

theorem conforms_start (kept : Bool) :
    Conforms (protocol E) t (out kept) (OneWorker.lift (Worker.start 0)) fun _ φ =>
      φ = out kept ∨ φ = fresh kept := by
  simp [Worker.start]

/-- `signal` matters to no phase. -/
theorem conforms_signal (φ : Phase) :
    Conforms (protocol E) t φ (OneWorker.lift (Worker.signal 0 false)) fun _ ψ => ψ = φ := by
  by_cases hφ : φ = never <;> simp [Worker.signal, hφ]

theorem conforms_pause_block :
    Conforms (protocol E) t pausing (OneWorker.lift (Worker.pause 0 true)) fun _ φ =>
      φ = out true := by
  simp [Worker.pause]
  apply (conforms_signal marked).bind
  rintro _ _ rfl
  simp

theorem conforms_pause_again (block : Bool) :
    Conforms (protocol E) t (out true) (OneWorker.lift (Worker.pause 0 block)) fun _ φ =>
      φ = out true ∨ φ = fresh true := by
  cases block with
  | true =>
      simp [Worker.pause]
      apply (conforms_signal (out true)).bind
      rintro _ _ rfl
      simp
  | false =>
      simp [Worker.pause]
      apply (conforms_signal (out true)).bind
      rintro _ _ rfl
      simp

theorem conforms_pause :
    Conforms (protocol E) t (out false) (OneWorker.lift (Worker.pause 0 false)) fun _ φ =>
      φ = out false := by
  simp [Worker.pause]
  apply (conforms_signal (out false)).bind
  rintro _ _ rfl
  simp

theorem conforms_resume :
    Conforms (protocol E) t (out false) (OneWorker.lift (Worker.resume 0)) fun _ φ =>
      φ = out false := by
  simp [Worker.resume]

theorem conforms_join (kept : Bool) :
    Conforms (protocol E) t (out kept) (OneWorker.lift (Worker.join 0)) fun _ φ =>
      φ = out kept := by
  simp [Worker.join]

theorem conforms_method {i : Unit} (kept : Bool) (c : WorkerCall) :
    Conforms (protocol E) (.client i) (enters c (out kept)) (OneWorker.lift (OneWorker.method c))
      fun _ φ => φ = never ∨ ∃ kept, φ = out kept ∨ φ = fresh kept := by
  cases c with
  | start => exact (conforms_start kept).mono fun _ _ h => .inr ⟨kept, h⟩
  | stop => exact (absorbs.conforms rfl _).mono fun _ _ => .inl
  | pause block =>
      cases kept with
      | true =>
          have hsame : enters (.pause block) (out true) = out true := by cases block <;> rfl
          rw [hsame]
          exact (conforms_pause_again block).mono fun _ _ h => .inr ⟨true, h⟩
      | false =>
          cases block with
          | true => exact conforms_pause_block.mono fun _ _ h => .inr ⟨true, .inl h⟩
          | false => exact conforms_pause.mono fun _ _ h => .inr ⟨false, .inl h⟩
  | resume => exact conforms_resume.mono fun _ _ h => .inr ⟨false, .inl h⟩
  | signal => exact (conforms_signal (out kept)).mono fun _ _ h => .inr ⟨kept, .inl h⟩
  | join => exact (conforms_join kept).mono fun _ _ h => .inr ⟨kept, .inl h⟩

/-- All methods keep to the protocol. -/
theorem obeyed : (protocol E).Obeyed (oneWorker Unit E) where
  body := by
    intro t p φ hpre
    by_cases hφ : φ = never
    · exact (absorbs.conforms hφ _).mono fun _ _ h => .inl ⟨hφ, h⟩
    · have hpre := hpre.resolve_left hφ
      cases p with
      | runLoop w => exact (conforms_runLoop w hpre).mono fun _ _ h => .inr ⟨hφ, h⟩
      | whileAlive w =>
          obtain ⟨kept, rfl⟩ := hpre
          show Conforms _ _ _ (OneWorker.lift (Worker.whileAlive w)) _
          simp [Worker.whileAlive]
      | whileResizing | whileAdding | whileFull entry | addLoop entry index => cases hpre
  main := by
    rintro (i | w) φ hfinal
    · exact hfinal
    · show Conforms _ _ (if φ = never then never else calm) _ _
      split
      · exact (absorbs.conforms rfl _).mono fun _ _ => .inl
      · exact (conforms_run w).mono fun _ _ h => .inr (.inr h)
  entry := by
    intro t c m m' p φ hentry hfinal
    obtain ⟨i, rfl, -, rfl⟩ := OneWorker.entry_eq_some hentry
    rcases hfinal with rfl | ⟨kept, rfl | rfl⟩
    · show Conforms _ _ (enters c never) _ _
      rw [enters_never]
      exact (absorbs.conforms rfl _).mono fun _ _ => .inl
    · exact conforms_method kept c
    · show Conforms _ _ (enters c (fresh kept)) _ _
      rw [enters_fresh]
      exact conforms_method kept c

/-! ## The invariant -/

/-- The worker will not look for work until it is resumed. -/
def Quiet (φ : Phase) (m : Control Unit 1) : Prop :=
  φ ≠ working ∧ flag m .isPausedFlag = true ∨ φ = leaving

/-- What the controller knows of the worker, which is in phase `φ`. -/
def Knows (φ : Phase) (s : Shared (OneWorker.names Unit E) (Memory Unit)) : Phase → Prop
  | out kept => kept = true → Quiet φ s.memory.1
  | fresh kept => (kept = true → Quiet φ s.memory.1) ∧
      flag s.memory.1 .isStartedFlag = false
  | launching kept => (kept = true → Quiet φ s.memory.1) ∧
      flag s.memory.1 .isStartedFlag = true ∧ φ = unborn
  | marked => flag s.memory.1 .isPausedFlag = true
  | awaiting => flag s.memory.1 .isPausedFlag = true ∧
      (.client () ∈ s.asleep (.isIdle 0) ∨ φ ≠ working)
  | _ => True

/-- A `pause(true)` was called, and no `resume` since; the latest call comes first. -/
def paused : List WorkerCall → Bool
  | [] => false
  | .resume :: _ => false
  | .pause true :: _ => true
  | _ :: calls => paused calls

theorem paused_cons {c : WorkerCall} (hresume : c ≠ .resume) (hpause : c ≠ .pause true)
    (calls : List WorkerCall) : paused (c :: calls) = paused calls := by
  cases c with
  | pause block =>
      cases block with
      | true => exact absurd rfl hpause
      | false => rfl
  | resume => exact absurd rfl hresume
  | start | stop | signal | join => rfl

structure Sound (φ : Thread Unit 1 → Phase)
    (s : Shared (OneWorker.names Unit E) (Memory Unit)) : Prop where
  ofWorker : (φ (.worker 0)).ofWorker = true
  ofClient : (φ (.client ())).ofClient = true
  started : flag s.memory.1 .isStartedFlag = false → φ (.worker 0) = .unborn
  idle : flag s.memory.1 .isIdleFlag = true → φ (.worker 0) = .idling
  terminated : flag s.memory.1 .isTerminatedFlag = true → φ (.worker 0) = .leaving
  knows : Knows (φ (.worker 0)) s (φ (.client ()))
  called : paused (s.memory.2 (.client ())) = true →
    (φ (.client ())).isPausing = true ∨ (φ (.client ())).keeps = true
  returned : paused (s.memory.2 (.client ())).tail = true →
    (s.memory.2 (.client ())).head? = some .resume ∨ (φ (.client ())).keeps = true

namespace Sound

variable {φ : Thread Unit 1 → Phase} {s s' : Shared (OneWorker.names Unit E) (Memory Unit)}
  {ψ : Phase}

/-- Neither of the two is in `never`. -/
theorem ne_never (h : Sound φ s) (t : Thread Unit 1) : φ t ≠ never := by
  intro hφ
  rcases t with _ | w
  · simpa [hφ, Phase.ofClient] using h.ofClient
  · obtain rfl := Subsingleton.elim w 0
    simpa [hφ, Phase.ofWorker] using h.ofWorker

/-- A pause that is in effect keeps the worker from looking for work. -/
theorem quiet (h : Sound φ s) (hkeeps : (φ (.client ())).keeps = true) :
    Quiet (φ (.worker 0)) s.memory.1 := by
  have hknows := h.knows
  cases hφ : φ (.client ()) <;> rw [hφ] at hkeeps hknows
  case out => exact hknows hkeeps
  case fresh | launching => exact hknows.1 hkeeps
  all_goals cases hkeeps

/-- The worker moves. -/
theorem worker (h : Sound φ s) (hψ : ψ.ofWorker = true)
    (hpaused : flag s'.memory.1 .isPausedFlag = flag s.memory.1 .isPausedFlag)
    (hstarted : flag s'.memory.1 .isStartedFlag = flag s.memory.1 .isStartedFlag)
    (hcalls : s'.memory.2 = s.memory.2)
    (hunborn : φ (.worker 0) = .unborn → ψ = .unborn)
    (hidle : flag s'.memory.1 .isIdleFlag = true → ψ = .idling)
    (hterminated : flag s'.memory.1 .isTerminatedFlag = true → ψ = .leaving)
    (hworks : ψ = .working →
      φ (.worker 0) = .working ∨ flag s.memory.1 .isPausedFlag = false)
    (hleaving : φ (.worker 0) = .leaving → ψ = .leaving)
    (hasleep : .client () ∈ s.asleep (.isIdle 0) →
      .client () ∈ s'.asleep (.isIdle 0) ∨ ψ ≠ .working) :
    Sound (Function.update φ (.worker 0) ψ) s' := by
  have hquiet : Quiet (φ (.worker 0)) s.memory.1 → Quiet ψ s'.memory.1 := by
    rintro (⟨hworking, hflag⟩ | hφ)
    · refine .inl ⟨fun hψ => ?_, by rw [hpaused, hflag]⟩
      rcases hworks hψ with hφ | hnot
      · exact hworking hφ
      · rw [hflag] at hnot
        cases hnot
    · exact .inr (hleaving hφ)
  have hknows := h.knows
  constructor <;> (try simp only [Function.update_self]) <;>
    (try rw [Function.update_of_ne (by simp)])
  · exact hψ
  · exact h.ofClient
  · exact fun hflag => hunborn (h.started (by rw [← hstarted, hflag]))
  · exact hidle
  · exact hterminated
  · cases hφ : φ (.client ()) <;> rw [hφ] at hknows
    case out => exact fun hkept => hquiet (hknows hkept)
    case fresh => exact ⟨fun hkept => hquiet (hknows.1 hkept), hstarted.trans hknows.2⟩
    case launching =>
      exact ⟨fun hkept => hquiet (hknows.1 hkept), hstarted.trans hknows.2.1, hunborn hknows.2.2⟩
    case marked => exact hpaused.trans hknows
    case awaiting =>
      refine ⟨hpaused.trans hknows.1, ?_⟩
      rcases hknows.2 with hsleeps | hφw
      · exact hasleep hsleeps
      · refine .inr fun hψ => ?_
        rcases hworks hψ with hφ | hnot
        · exact hφw hφ
        · rw [hknows.1] at hnot
          cases hnot
    all_goals trivial
  · rw [hcalls]
    exact h.called
  · rw [hcalls]
    exact h.returned

/-- The controller moves. -/
theorem client (h : Sound φ s) (hψ : ψ.ofClient = true)
    (hstarted : flag s'.memory.1 .isStartedFlag = false →
      flag s.memory.1 .isStartedFlag = false)
    (hidle : flag s'.memory.1 .isIdleFlag = flag s.memory.1 .isIdleFlag)
    (hterminated : flag s'.memory.1 .isTerminatedFlag = flag s.memory.1 .isTerminatedFlag)
    (hcalls : s'.memory.2 = s.memory.2) (hknows : Knows (φ (.worker 0)) s' ψ)
    (hpauses : (φ (.client ())).isPausing = true → ψ.isPausing = true ∨ ψ.keeps = true)
    (hkeeps : (φ (.client ())).keeps = true → ψ.keeps = true) :
    Sound (Function.update φ (.client ()) ψ) s' := by
  constructor <;> (try simp only [Function.update_self]) <;>
    (try rw [Function.update_of_ne (by simp)])
  · exact h.ofWorker
  · exact hψ
  · exact fun hflag => h.started (hstarted hflag)
  · exact fun hflag => h.idle (by rw [← hidle, hflag])
  · exact fun hflag => h.terminated (by rw [← hterminated, hflag])
  · exact hknows
  · intro hcalled
    rw [hcalls] at hcalled
    rcases h.called hcalled with hpausing | hkept
    · exact hpauses hpausing
    · exact .inr (hkeeps hkept)
  · rw [hcalls]
    exact fun hreturned => (h.returned hreturned).imp_right hkeeps

/-- What does not matter changes. -/
theorem stay (h : Sound φ s)
    (hflag : ∀ f, f = .isPausedFlag ∨ f = .isStartedFlag ∨ f = .isIdleFlag ∨
      f = .isTerminatedFlag → flag s'.memory.1 f = flag s.memory.1 f)
    (hasleep : s'.asleep (.isIdle 0) = s.asleep (.isIdle 0))
    (hcalls : s'.memory.2 = s.memory.2) : Sound φ s' := by
  rw [← Function.update_eq_self (.worker 0) φ]
  apply h.worker h.ofWorker (hflag _ (by simp)) (hflag _ (by simp)) hcalls id
  · exact fun hidle => h.idle (by rw [← hflag _ (by simp), hidle])
  · exact fun hterminated => h.terminated (by rw [← hflag _ (by simp), hterminated])
  · exact .inl
  · exact id
  · exact fun hsleeps => .inl (by rwa [hasleep])

/-- So, and the thread stays where it is. -/
theorem stays {t : Thread Unit 1} (h : Sound φ s) (hψ : some (φ t) = some ψ)
    (hmemory : s'.memory = s.memory) (hasleep : s'.asleep (.isIdle 0) = s.asleep (.isIdle 0)) :
    Sound (Function.update φ t ψ) s' := by
  obtain rfl := Option.some.inj hψ
  rw [Function.update_eq_self]
  exact h.stay (fun _ _ => by rw [hmemory]) hasleep (by rw [hmemory])

theorem stays_store {t : Thread Unit 1} {m : Control Unit 1} (h : Sound φ s)
    (hψ : some (φ t) = some ψ)
    (hflag : ∀ f, f = .isPausedFlag ∨ f = .isStartedFlag ∨ f = .isIdleFlag ∨
      f = .isTerminatedFlag → flag m f = flag s.memory.1 f) :
    Sound (Function.update φ t ψ) { s with memory := (m, s.memory.2) } := by
  obtain rfl := Option.some.inj hψ
  rw [Function.update_eq_self]
  exact h.stay hflag rfl rfl

/-- The worker looks at `isPausedFlag`. -/
theorem worker_seesPaused (h : Sound φ s) :
    Sound (Function.update φ (.worker 0)
      ((φ (.worker 0)).seesPaused (flag s.memory.1 .isPausedFlag))) s := by
  have hw := h.ofWorker
  have hidle := h.idle
  have hterminated := h.terminated
  cases hφ : φ (.worker 0) <;> simp [hφ, Phase.ofWorker] at hw hidle hterminated
  case calm | working =>
    cases hpaused : flag s.memory.1 .isPausedFlag <;>
      apply h.worker <;> simp [hφ, hidle, hterminated, hpaused, Phase.ofWorker]
  all_goals
    rw [← hφ]
    exact h.stays (by rw [hφ]; rfl) rfl rfl

/-- The worker sets `isIdleFlag`. -/
theorem worker_idles (h : Sound φ s) {b : Bool} (hψ : (φ (.worker 0)).idles b = some ψ) :
    Sound (Function.update φ (.worker 0) ψ)
      { s with
        memory :=
          (s.memory.1.store (.worker 0) (.flag (.worker 0 .isIdleFlag) b), s.memory.2) } := by
  have hterminated := h.terminated
  cases hφ : φ (.worker 0) <;> cases b <;> simp [hφ] at hψ hterminated <;> subst hψ <;>
    apply h.worker <;> simp [hφ, hterminated, Phase.ofWorker]

/-- The worker sets `isTerminatedFlag`, or begins to finalize. -/
theorem worker_leaves (h : Sound φ s) (hψ : (φ (.worker 0)).leaves = some ψ)
    (hpaused : flag s'.memory.1 .isPausedFlag = flag s.memory.1 .isPausedFlag)
    (hstarted : flag s'.memory.1 .isStartedFlag = flag s.memory.1 .isStartedFlag)
    (hidle : flag s'.memory.1 .isIdleFlag = flag s.memory.1 .isIdleFlag)
    (hcalls : s'.memory.2 = s.memory.2) : Sound (Function.update φ (.worker 0) ψ) s' := by
  have hnotIdle := h.idle
  cases hφ : φ (.worker 0) <;> simp [hφ] at hψ hnotIdle <;> subst hψ <;>
    apply h.worker <;> simp [hφ, hpaused, hstarted, hidle, hcalls, hnotIdle, Phase.ofWorker]

theorem worker_store (h : Sound φ s) {x : Store 1}
    (hψ : step (φ (.worker 0)) (.store (.inl x) : Op (OneWorker.names Unit E)) () = some ψ) :
    Sound (Function.update φ (.worker 0) ψ)
      { s with memory := (s.memory.1.store (.worker 0) x, s.memory.2) } := by
  have hw := h.ofWorker
  simp only [step, if_neg (h.ne_never _)] at hψ
  cases x with
  | newWorker w => cases hψ
  | addingCount d | nestedPauseCounter d => exact h.stays_store hψ fun _ _ => rfl
  | flag f b =>
      cases f with
      | isRunningFlag | isPausedFlag | isTerminatedFlag | resizing | cleared | processingWorker w =>
          exact h.stays_store hψ fun _ _ => by simp [flag]
      | worker w g =>
          obtain rfl := Subsingleton.elim w 0
          cases g with
          | isPausedFlag => cases hφ : φ (.worker 0) <;> simp [hφ, Phase.ofWorker] at hw hψ
          | isStartedFlag => cases hφ : φ (.worker 0) <;> simp [hφ, Phase.ofWorker] at hw hψ
          | isIdleFlag => exact h.worker_idles hψ
          | isTerminatedFlag =>
              obtain ⟨rfl, hψ⟩ : b = true ∧ (φ (.worker 0)).leaves = some ψ := by simpa using hψ
              exact h.worker_leaves hψ (by simp) (by simp) (by simp) rfl
          | isDeadFlag | isWaitingFlag | haveWorkJoiners =>
              refine h.stays_store hψ fun f hf => ?_
              rcases hf with rfl | rfl | rfl | rfl <;> simp

theorem worker_load (h : Sound φ s) {f : WorkerFlag}
    (hψ : step (φ (.worker 0)) (.load (.flag (.worker 0 f)) : Op (OneWorker.names Unit E))
      (flag s.memory.1 f) = some ψ) :
    Sound (Function.update φ (.worker 0) ψ) s := by
  have hw := h.ofWorker
  simp only [step, if_neg (h.ne_never _)] at hψ
  cases f with
  | isPausedFlag =>
      obtain rfl := Option.some.inj hψ
      exact h.worker_seesPaused
  | isTerminatedFlag | isIdleFlag | isStartedFlag =>
      refine h.stays (hψ.symm.trans (congrArg some ?_)).symm rfl rfl
      cases hφ : φ (.worker 0) <;> simp [hφ, Phase.ofWorker] at hw ⊢
  | isDeadFlag | isWaitingFlag | haveWorkJoiners => exact h.stays hψ rfl rfl

/-- The controller looks at a flag, and learns what it says. -/
theorem client_sees (h : Sound φ s) (hψ : ψ.ofClient = true)
    (hknows : Knows (φ (.worker 0)) s ψ)
    (hpauses : (φ (.client ())).isPausing = true → ψ.isPausing = true ∨ ψ.keeps = true)
    (hkeeps : (φ (.client ())).keeps = true → ψ.keeps = true) :
    Sound (Function.update φ (.client ()) ψ) s :=
  h.client hψ id rfl rfl rfl hknows hpauses hkeeps

/-- In `pause(true)`, the controller finds the worker terminated, idle or not started. -/
theorem client_finds (h : Sound φ s) (hquiet : Quiet (φ (.worker 0)) s.memory.1) :
    Sound (Function.update φ (.client ()) (out true)) s :=
  h.client_sees rfl (fun _ => hquiet) (fun _ => .inr rfl) fun _ => rfl

theorem client_load (h : Sound φ s) {f : WorkerFlag}
    (hψ : step (φ (.client ())) (.load (.flag (.worker 0 f)) : Op (OneWorker.names Unit E))
      (flag s.memory.1 f) = some ψ) :
    Sound (Function.update φ (.client ()) ψ) s := by
  have hc := h.ofClient
  have hknows := h.knows
  have hstay : some (φ (.client ())) = some ψ → Sound (Function.update φ (.client ()) ψ) s :=
    fun hφ => h.stays hφ rfl rfl
  cases hφ : φ (.client ()) <;> rw [hφ] at hc hψ hknows hstay
  case launching | awaiting => cases f <;> exact hstay (by simpa [step] using hψ)
  case out kept | fresh kept =>
    cases f
    case isStartedFlag =>
      have hquiet : kept = true → Quiet (φ (.worker 0)) s.memory.1 :=
        fun hkept => h.quiet (by rw [hφ]; exact hkept)
      cases hstarted : flag s.memory.1 .isStartedFlag with
      | false =>
          obtain rfl : fresh kept = ψ := by simpa [step, hstarted] using hψ
          exact h.client_sees rfl ⟨hquiet, hstarted⟩ (by rw [hφ]; exact .inl)
            (by rw [hφ]; exact id)
      | true =>
          obtain rfl : out kept = ψ := by simpa [step, hstarted] using hψ
          exact h.client_sees rfl hquiet (by rw [hφ]; exact .inl) (by rw [hφ]; exact id)
    all_goals exact hstay (by simpa [step] using hψ)
  case pausing =>
    cases f
    case isPausedFlag =>
      cases hpaused : flag s.memory.1 .isPausedFlag with
      | false => exact hstay (by simpa [step, hpaused] using hψ)
      | true =>
          obtain rfl : marked = ψ := by simpa [step, hpaused] using hψ
          exact h.client_sees rfl hpaused (fun _ => .inl rfl) (by simp [hφ, Phase.keeps])
    case isTerminatedFlag =>
      cases hterminated : flag s.memory.1 .isTerminatedFlag with
      | false => exact hstay (by simpa [step, hterminated] using hψ)
      | true =>
          obtain rfl : out true = ψ := by simpa [step, hterminated] using hψ
          exact h.client_finds (.inr (h.terminated hterminated))
    all_goals exact hstay (by simpa [step] using hψ)
  case marked =>
    cases f
    case isIdleFlag =>
      cases hidle : flag s.memory.1 .isIdleFlag with
      | false => exact hstay (by simpa [step, hidle] using hψ)
      | true =>
          obtain rfl : out true = ψ := by simpa [step, hidle] using hψ
          exact h.client_finds (.inl ⟨by simp [h.idle hidle], hknows⟩)
    case isStartedFlag =>
      cases hstarted : flag s.memory.1 .isStartedFlag with
      | true => exact hstay (by simpa [step, hstarted] using hψ)
      | false =>
          obtain rfl : out true = ψ := by simpa [step, hstarted] using hψ
          exact h.client_finds (.inl ⟨by simp [h.started hstarted], hknows⟩)
    all_goals exact hstay (by simpa [step] using hψ)
  all_goals simp [Phase.ofClient] at hc

theorem client_store (h : Sound φ s) {x : Store 1}
    (hψ : step (φ (.client ())) (.store (.inl x) : Op (OneWorker.names Unit E)) () = some ψ) :
    Sound (Function.update φ (.client ()) ψ)
      { s with memory := (s.memory.1.store (.client ()) x, s.memory.2) } := by
  have hc := h.ofClient
  have hknows := h.knows
  simp only [step, if_neg (h.ne_never _)] at hψ
  cases x with
  | newWorker w => cases hψ
  | addingCount d | nestedPauseCounter d => exact h.stays_store hψ fun _ _ => rfl
  | flag f b =>
      cases f with
      | isRunningFlag | isPausedFlag | isTerminatedFlag | resizing | cleared | processingWorker w =>
          exact h.stays_store hψ fun _ _ => by simp [flag]
      | worker w g =>
          obtain rfl := Subsingleton.elim w 0
          cases g with
          | isPausedFlag =>
              cases hφ : φ (.client ()) <;> simp [hφ, Phase.ofClient] at hc hψ
              case out kept =>
                obtain ⟨hb, rfl⟩ := hψ
                rw [hφ] at hknows
                refine h.client rfl (by simp) (by simp) (by simp) rfl ?_
                  (by rw [hφ]; exact .inl) (by rw [hφ]; exact id)
                intro hkept
                exact (hknows hkept).imp_left fun ⟨hφw, _⟩ => ⟨hφw, by simp [hb hkept]⟩
              case pausing =>
                obtain ⟨rfl, rfl⟩ := hψ
                apply h.client <;> simp [hφ, Phase.ofClient, Knows, Phase.isPausing, Phase.keeps]
          | isStartedFlag =>
              obtain ⟨rfl, hψ⟩ : b = true ∧ (φ (.client ())).starts = some ψ := by simpa using hψ
              cases hφ : φ (.client ()) <;> simp [hφ] at hψ
              case fresh kept =>
                subst hψ
                rw [hφ] at hknows
                have hquiet : kept = true → Quiet (φ (.worker 0))
                    (s.memory.1.store (.client ()) (.flag (.worker 0 .isStartedFlag) true)) := by
                  intro hkept
                  simpa [Quiet] using hknows.1 hkept
                exact h.client rfl (by simp) (by simp) (by simp) rfl
                  ⟨hquiet, by simp, h.started hknows.2⟩
                  (by simp [hφ, Phase.isPausing]) (by simp [hφ, Phase.keeps])
          | isIdleFlag => cases hφ : φ (.client ()) <;> simp [hφ, Phase.ofClient] at hc hψ
          | isTerminatedFlag => cases hφ : φ (.client ()) <;> simp [hφ, Phase.ofClient] at hc hψ
          | isDeadFlag | isWaitingFlag | haveWorkJoiners =>
              refine h.stays_store hψ fun f hf => ?_
              rcases hf with rfl | rfl | rfl | rfl <;> simp

/-- The controller begins to wait until the worker is idle. -/
theorem client_waits (h : Sound φ s) {l : Lock 1} (hψ : (φ (.client ())).waits = some ψ) :
    Sound (Function.update φ (.client ()) ψ)
      ((s.lock l none).sleep (.isIdle 0) (insert (.client ()) (s.asleep (.isIdle 0)))) := by
  have hknows := h.knows
  cases hφ : φ (.client ()) with
  | marked =>
      obtain rfl : awaiting = ψ := by simpa [hφ] using hψ
      rw [hφ] at hknows
      exact h.client rfl id rfl rfl rfl ⟨hknows, .inl (by simp [Shared.sleep])⟩
        (fun _ => .inl rfl) (by simp [hφ, Phase.keeps])
  | out kept =>
      cases kept with
      | false => simp [hφ] at hψ
      | true =>
          obtain rfl : out true = ψ := by simpa [hφ] using hψ
          rw [hφ] at hknows
          exact h.client rfl id rfl rfl rfl hknows (fun _ => .inr rfl) fun _ => rfl
  | _ => simp [hφ] at hψ

/-- It was told. -/
theorem client_wakes (h : Sound φ s) {l : Lock 1} (hψ : (φ (.client ())).wakes = some ψ)
    (hawake : .client () ∉ s.asleep (.isIdle 0)) :
    Sound (Function.update φ (.client ()) ψ) (s.lock l (some (.client ()))) := by
  have hknows := h.knows
  cases hφ : φ (.client ()) with
  | awaiting =>
      obtain rfl : out true = ψ := by simpa [hφ] using hψ
      rw [hφ] at hknows
      have hquiet : Quiet (φ (.worker 0)) s.memory.1 :=
        .inl ⟨hknows.2.resolve_left hawake, hknows.1⟩
      exact h.client rfl id rfl rfl rfl (fun _ => hquiet) (fun _ => .inr rfl) fun _ => rfl
  | out kept =>
      cases kept with
      | false => simp [hφ] at hψ
      | true =>
          obtain rfl : out true = ψ := by simpa [hφ] using hψ
          rw [hφ] at hknows
          exact h.client rfl id rfl rfl rfl hknows (fun _ => .inr rfl) fun _ => rfl
  | _ => simp [hφ] at hψ

/-- The worker does not wait until it is idle, and the controller does not tell. -/
theorem act (h : Sound φ s) {t : Thread Unit 1} {o : Op (OneWorker.names Unit E)} {r : o.Result}
    (hspawn : ∀ u, o ≠ .spawn u)
    (heffect : (oneWorker Unit E).recording.Effect s t o r s')
    (hψ : step (φ t) o r = some ψ) : Sound (Function.update φ t ψ) s' := by
  have hstep := hψ
  simp only [step, if_neg (h.ne_never t)] at hψ
  cases heffect with
  | acquire hfree | release hheld => exact h.stays hψ rfl rfl
  | @wait c l hheld =>
      cases c with
      | isIdle w =>
          obtain rfl := Subsingleton.elim w 0
          rcases t with _ | w
          · exact h.client_waits hψ
          · obtain rfl := Subsingleton.elim w 0
            have hw := h.ofWorker
            cases hφ : φ (.worker 0) <;> simp [hφ, Phase.ofWorker] at hw hψ
      | isResizingCond | isWorkWaiting w | hasDied w | hasPaused w =>
          exact h.stays hψ rfl (by simp [Shared.sleep, Shared.lock])
  | @resume c l hawake hfree =>
      cases c with
      | isIdle w =>
          obtain rfl := Subsingleton.elim w 0
          rcases t with _ | w
          · exact h.client_wakes hψ hawake
          · obtain rfl := Subsingleton.elim w 0
            have hw := h.ofWorker
            cases hφ : φ (.worker 0) <;> simp [hφ, Phase.ofWorker] at hw hψ
      | isResizingCond | isWorkWaiting w | hasDied w | hasPaused w => exact h.stays hψ rfl rfl
  | @unheard c hnone =>
      cases c with
      | isIdle w =>
          obtain ⟨-, rfl⟩ : _ ∧ φ t = ψ := by simpa using hψ
          exact h.stays rfl rfl rfl
      | isResizingCond | isWorkWaiting w | hasDied w | hasPaused w => exact h.stays hψ rfl rfl
  | @signal c u _ =>
      cases c with
      | isIdle w =>
          obtain ⟨hφ, rfl⟩ : (φ t = .idling ∨ φ t = .leaving) ∧ φ t = ψ := by simpa using hψ
          rcases t with _ | w
          · have hc := h.ofClient
            rcases hφ with hφ | hφ <;> simp [hφ, Phase.ofClient] at hc
          · obtain rfl := Subsingleton.elim w 0
            refine h.worker h.ofWorker rfl rfl rfl id h.idle h.terminated .inl id fun _ => .inr ?_
            rcases hφ with hφ | hφ <;> simp [hφ]
      | isResizingCond | isWorkWaiting w | hasDied w | hasPaused w =>
          exact h.stays hψ rfl (by simp [Shared.sleep])
  | @broadcast c =>
      cases c with
      | isIdle w => cases hψ
      | isResizingCond | isWorkWaiting w | hasDied w | hasPaused w =>
          exact h.stays hψ rfl (by simp [Shared.sleep])
  | @ask q a m hreply =>
      have hmemory : s.memory = m := by
        simpa [Machine.recording, oneWorker, Machine.extend, processor] using hreply
      subst hmemory
      cases q with
      | remove w | handle w | isWork w =>
          obtain ⟨hφ, rfl⟩ : φ t = .working ∧ Phase.working = ψ := by simpa using hψ
          exact h.stays (by rw [hφ]) rfl rfl
      | finalize w =>
          rcases t with _ | w
          · have hc := h.ofClient
            cases hφ : φ (.client ()) <;> simp [hφ, Phase.ofClient] at hc hψ
          · obtain rfl := Subsingleton.elim w 0
            exact h.worker_leaves hψ rfl rfl rfl rfl
      | add entry | isMaxSize | resize | started w | init w => exact h.stays hψ rfl rfl
  | @load x =>
      cases x with
      | addingCount | nestedPauseCounter => exact h.stays hψ rfl rfl
      | flag f =>
          cases f with
          | isTerminatedFlag | isRunningFlag | isPausedFlag | resizing | cleared
          | processingWorker w => exact h.stays hψ rfl rfl
          | worker w f =>
              obtain rfl := Subsingleton.elim w 0
              rcases t with _ | w
              · exact h.client_load hstep
              · obtain rfl := Subsingleton.elim w 0
                exact h.worker_load hstep
  | @store x =>
      cases x with
      | inr x => exact x.elim
      | inl x =>
          rcases t with _ | w
          · exact h.client_store hstep
          · obtain rfl := Subsingleton.elim w 0
            exact h.worker_store hstep
  | @spawn u => exact absurd rfl (hspawn u)

/-- The worker is created. -/
theorem spawn (h : Sound φ s) {t u : Thread Unit 1}
    (hψ : step (φ t) (.spawn u : Op (OneWorker.names Unit E)) () = some ψ) :
    Sound (Function.update (Function.update φ u ((protocol E).born u (φ u))) t ψ) s := by
  simp only [step, if_neg (h.ne_never t)] at hψ
  rcases u with _ | w
  · cases hψ
  obtain rfl := Subsingleton.elim w 0
  rcases t with _ | w
  · have hborn : (protocol E).born (.worker 0) (φ (.worker 0)) = calm :=
      if_neg (h.ne_never (.worker 0))
    have hknows := h.knows
    cases hφ : φ (.client ()) <;> simp [hφ] at hψ
    case launching kept =>
      subst hψ
      rw [hφ] at hknows
      obtain ⟨hquiet, hstarted, hunborn⟩ := hknows
      rw [hborn]
      have hnotIdle : flag s.memory.1 .isIdleFlag ≠ true := by
        intro hidle
        rw [h.idle hidle] at hunborn
        cases hunborn
      have hnotTerminated : flag s.memory.1 .isTerminatedFlag ≠ true := by
        intro hterminated
        rw [h.terminated hterminated] at hunborn
        cases hunborn
      have hcalm : kept = true → Quiet calm s.memory.1 := by
        intro hkept
        rcases hquiet hkept with ⟨-, hpaused⟩ | hleaving
        · exact .inl ⟨by simp, hpaused⟩
        · rw [hunborn] at hleaving
          cases hleaving
      constructor <;> (try simp only [Function.update_self]) <;>
        (try rw [Function.update_of_ne (by simp), Function.update_self])
      · rfl
      · rfl
      · rw [hstarted]
        exact fun h => nomatch h
      · exact fun hidle => absurd hidle hnotIdle
      · exact fun hterminated => absurd hterminated hnotTerminated
      · exact hcalm
      · have hcalled := h.called
        rw [hφ] at hcalled
        exact hcalled
      · have hreturned := h.returned
        rw [hφ] at hreturned
        exact hreturned
  · obtain rfl := Subsingleton.elim w 0
    have hw := h.ofWorker
    cases hφ : φ (.worker 0) <;> simp [hφ, Phase.ofWorker] at hw hψ

/-- The worker wakes by itself. -/
theorem wake (h : Sound φ s) {c : Cond 1} :
    Sound φ (s.sleep c ((s.asleep c).erase (.worker 0))) := by
  rw [← Function.update_eq_self (.worker 0) φ]
  refine h.worker h.ofWorker rfl rfl rfl id h.idle h.terminated .inl id fun hasleep => .inl ?_
  by_cases hc : (.isIdle 0) = c
  · subst hc
    simp [Shared.sleep, hasleep]
  · simpa [Shared.sleep, hc] using hasleep

/-- The controller calls a method. -/
theorem enter (h : Sound φ s) {c : WorkerCall} (hstop : c ≠ .stop)
    (hfinal : (protocol E).final (.client ()) (φ (.client ()))) :
    Sound (Function.update φ (.client ()) (enters c (φ (.client ()))))
      { s with
        memory :=
          (s.memory.1,
            Function.update s.memory.2 (.client ()) (c :: s.memory.2 (.client ()))) } := by
  obtain ⟨kept, hkept, hnotPausing, henters⟩ : ∃ kept, (φ (.client ())).keeps = kept ∧
      (φ (.client ())).isPausing = false ∧
      enters c (φ (.client ())) = enters c (out kept) := by
    rcases hfinal with hφ | ⟨kept, hφ | hφ⟩
    · exact absurd hφ (h.ne_never _)
    · exact ⟨kept, by rw [hφ]; rfl, by rw [hφ]; rfl, by rw [hφ]⟩
    · exact ⟨kept, by rw [hφ]; rfl, by rw [hφ]; rfl, by rw [hφ, enters_fresh]⟩
  have hbefore : paused (s.memory.2 (.client ())) = true → kept = true := by
    intro hpaused
    rcases h.called hpaused with hpausing | hkeeps
    · rw [hnotPausing] at hpausing
      cases hpausing
    · rw [← hkept, hkeeps]
  have hquiet : kept = true → Quiet (φ (.worker 0)) s.memory.1 :=
    fun hk => h.quiet (hkept.trans hk)
  -- The new phase, what the controller knows in it, and what its calls say of it.
  suffices hphase : (enters c (out kept)).ofClient = true ∧
      Knows (φ (.worker 0)) s (enters c (out kept)) ∧
      (paused (c :: s.memory.2 (.client ())) = true →
        (enters c (out kept)).isPausing = true ∨ (enters c (out kept)).keeps = true) ∧
      (paused (s.memory.2 (.client ())) = true →
        c = .resume ∨ (enters c (out kept)).keeps = true) by
    obtain ⟨hclient, hknows, hcalled, hreturned⟩ := hphase
    rw [henters]
    constructor <;> (try simp only [Function.update_self]) <;>
      (try rw [Function.update_of_ne (by simp)])
    · exact h.ofWorker
    · exact hclient
    · exact h.started
    · exact h.idle
    · exact h.terminated
    · cases hφ : enters c (out kept) <;> rw [hφ] at hknows <;> exact hknows
    · exact hcalled
    · intro hpaused
      exact (hreturned hpaused).imp_left fun hresume => by rw [hresume]; rfl
  rcases enters_out hstop kept with ⟨hc, hnot, hψ⟩ | ⟨hc, hψ⟩ | ⟨hresume, hpause, hψ⟩ <;> rw [hψ]
  · refine ⟨rfl, trivial, fun _ => .inl rfl, fun hpaused => ?_⟩
    rw [hbefore hpaused] at hnot
    cases hnot
  · subst hc
    refine ⟨rfl, ?_, ?_, fun _ => .inl rfl⟩
    · intro hkept
      cases hkept
    · intro hpaused
      cases hpaused
  · refine ⟨rfl, hquiet, fun hpaused => .inr ?_, fun hpaused => .inr (hbefore hpaused)⟩
    by_cases hc : c = .pause true
    · exact hpause hc
    · exact hbefore (by rwa [paused_cons hresume hc] at hpaused)

end Sound

/-- What is assumed: the controller does not stop the worker, and no wait of the
controller returns unless it was signalled. -/
def Allowed (_ : State (OneWorker.names Unit E) (Memory Unit)) :
    Label (OneWorker.names Unit E) → Prop
  | .step _ _ => True
  | .spurious t => t = .worker 0
  | .enter _ c => c ≠ .stop

theorem sound_new :
    Sound (E := E) begins (newWorker Unit E).recorded.shared where
  ofWorker := rfl
  ofClient := rfl
  started := fun _ => rfl
  idle := by
    intro hidle
    cases hidle
  terminated := by
    intro hterminated
    cases hterminated
  knows := by
    intro hkept
    cases hkept
  called := by
    intro hpaused
    cases hpaused
  returned := by
    intro hpaused
    cases hpaused

instance (s : State (OneWorker.names Unit E) (Memory Unit)) :
    (l : Label (OneWorker.names Unit E)) → Decidable (Allowed s l)
  | .step _ _ => .isTrue trivial
  | .spurious t => inferInstanceAs (Decidable (t = _))
  | .enter _ c => inferInstanceAs (Decidable (c ≠ _))

/-- The invariant holds in every state reached. -/
theorem sound_of_reachable {s : State (OneWorker.names Unit E) (Memory Unit)}
    (h : (((oneWorker Unit E).recording.system (newWorker Unit E).recorded).restrict
      Allowed).Reachable s) :
    ∃ φ, (protocol E).Obeys φ s ∧ Sound φ s.shared := by
  have hobeys : (protocol E).Obeys begins (newWorker Unit E).recorded := by
    rintro (i | w)
    · exact .inr ⟨false, .inl rfl⟩
    · exact .inr (.inl rfl)
  refine Protocol.invariant_of_effects obeyed.recording hobeys sound_new ?_ ?_ ?_ ?_ h
  · intro φ s t c o r shared ψ hJ _ hspawn heffect htrans
    exact hJ.act hspawn heffect htrans
  · intro φ shared t u ψ hJ htrans _
    exact hJ.spawn htrans
  · rintro φ s t c l ψ hJ rfl _
    exact hJ.wake
  · intro φ s t c m p hJ hstop hentry hfinal
    obtain ⟨⟨m₁, p₁⟩, hentry₁, hm⟩ := Option.map_eq_some_iff.mp hentry
    obtain ⟨i, rfl, rfl, -⟩ := OneWorker.entry_eq_some hentry₁
    obtain rfl : _ = m := (Prod.ext_iff.mp hm).1
    exact hJ.enter hstop hfinal

/-- Where the worker may be about to look for work, or to do some. -/
def AtWork (p : Prog (OneWorker.names Unit E) Unit) : Prop :=
  p.head = some (.ask (.remove 0)) ∨ p.head = some (.ask (.handle 0)) ∨
    p.head = some (.ask (.isWork 0))

/-- The worker is at work only in its phase. -/
theorem working_of_atWork {φ : Phase} {p : Prog (OneWorker.names Unit E) Unit}
    {Q : Unit → Phase → Prop} (h : Conforms (protocol E) t φ p Q) (hnever : φ ≠ never)
    (hp : AtWork p) : φ = working := by
  have hallowed : ∀ q, q = .remove 0 ∨ q = .handle 0 ∨ q = .isWork 0 →
      p.head = some (.ask q) → φ = working := by
    intro q hq hhead
    obtain ⟨ψ, hψ⟩ := h.trans_of_head hhead (by simp) 0
    simp only [protocol_trans, step, if_neg hnever] at hψ
    by_contra hφ
    rcases hq with rfl | rfl | rfl <;> simp [hφ] at hψ
  rcases hp with hhead | hhead | hhead
  · exact hallowed _ (by simp) hhead
  · exact hallowed _ (by simp) hhead
  · exact hallowed _ (by simp) hhead

theorem paused_of_since {since before : List WorkerCall} (hresume : .resume ∉ since) :
    paused (since ++ .pause true :: before) = true := by
  induction since with
  | nil => rfl
  | cons c since ih =>
      simp only [List.mem_cons, not_or] at hresume
      by_cases hc : c = .pause true
      · subst hc
        rfl
      · rw [List.cons_append, paused_cons (Ne.symm hresume.1) hc]
        exact ih hresume.2

end Pausing

open Pausing in
/-- Once `pause(true)` has returned, and until the next `resume`, the worker does not look
for work, does none, and does not test for any: whichever calls were made before, and
whichever are made since. -/
theorem pause_effective {s : State (OneWorker.names Unit E) (Memory Unit)}
    {since before : List WorkerCall}
    (h : (((oneWorker Unit E).recording.system (newWorker Unit E).recorded).restrict
      Allowed).Reachable s)
    (hcalls : s.calls (.client ()) = since ++ .pause true :: before)
    (hresume : .resume ∉ since)
    (hreturned : since ≠ [] ∨ (s.prog (.client ())).head = none) :
    ¬ AtWork (s.prog (.worker 0)) := by
  obtain ⟨φ, hobeys, hsound⟩ := sound_of_reachable h
  have hkeeps : (φ (.client ())).keeps = true := by
    cases since with
    | cons c since =>
        have htail : s.shared.memory.2 (.client ()) = c :: (since ++ .pause true :: before) :=
          hcalls
        have hpaused : paused (s.shared.memory.2 (.client ())).tail = true := by
          rw [htail]
          exact paused_of_since (List.not_mem_of_not_mem_cons hresume)
        refine (hsound.returned hpaused).resolve_left ?_
        rw [htail]
        intro hhead
        obtain rfl : c = .resume := Option.some.inj hhead
        simp at hresume
    | nil =>
        have hhead : (s.prog (.client ())).head = none := hreturned.resolve_left (by simp)
        have hpaused : paused (s.shared.memory.2 (.client ())) = true := by
          rw [show s.shared.memory.2 (.client ()) = .pause true :: before from hcalls]
          rfl
        obtain ⟨-, hfinal⟩ := (hobeys (.client ())).post_of_head hhead
        refine (hsound.called hpaused).resolve_left ?_
        rcases hfinal with hφ | ⟨kept, hφ | hφ⟩
        · exact absurd hφ (hsound.ne_never _)
        · simp [hφ, Phase.isPausing]
        · simp [hφ, Phase.isPausing]
  intro hwork
  have hworking := working_of_atWork (hobeys (.worker 0)) (hsound.ne_never _) hwork
  rcases hsound.quiet hkeeps with ⟨hnot, -⟩ | hleaving
  · exact hnot hworking
  · rw [hworking] at hleaving
    cases hleaving

/-- The worker is started, finds no work and waits.  `pause(true)` wakes it, waits until it
is idle, and returns. -/
def pausedOnce : List (Label (OneWorker.names Unit Unit)) :=
  let client (n : Nat) : List (Label (OneWorker.names Unit Unit)) :=
    List.replicate n (.step (.client ()) .go)
  let worker (n : Nat) : List (Label (OneWorker.names Unit Unit)) :=
    List.replicate n (.step (.worker 0) .go)
  let answered : List (Label (OneWorker.names Unit Unit)) := [.step (.worker 0) (.answer 0)]
  [.enter (.client ()) .start] ++ client 8 ++
    answered ++ answered ++ worker 2 ++ answered ++ worker 1 ++ answered ++ worker 5 ++
    [.enter (.client ()) (.pause true)] ++ client 7 ++
    [.step (.client ()) (.wake (.worker 0))] ++ client 4 ++ worker 10 ++
    [.step (.worker 0) (.wake (.client ()))] ++ worker 1 ++ client 2

open Pausing in
theorem pause_effective_of_pausedOnce :
    ∃ s : State (OneWorker.names Unit Unit) (Memory Unit),
      s.calls (.client ()) = [.pause true, .start] ∧ ¬ AtWork (s.prog (.worker 0)) := by
  obtain ⟨s, hs, hcalls, hhead⟩ := (oneWorker Unit Unit).recording.exists_of_follow
    (newWorker Unit Unit).recorded Allowed
    (fun s => s.calls (.client ()) = [.pause true, .start] ∧ (s.prog (.client ())).head = none)
    pausedOnce (by decide +kernel)
  have hsince : s.calls (.client ()) = [] ++ .pause true :: [.start] := hcalls
  exact ⟨s, hcalls, pause_effective hs hsince (by simp) (.inr hhead)⟩

end HPQueue
