import HPQueue.Library.Creation
import HPQueue.Consumer.OneWorker

/-!
# The life of a worker

`start` and `stop` look at the worker's flags without a lock first, and `start` looks
again once it holds `startLock`.  `stop` marks the worker as terminated without the lock,
and then, if the worker seems not to be started, looks under the lock whether it is.

If it is not, nobody can start it any more: whoever acquires the lock later finds it
terminated, and whoever held it earlier has left.  That is when `stop` may say that the
worker is dead.  Otherwise the worker says so itself, at the end of `run`.

## Main results

* `obeyed` — the positions of all methods relative to the start of the worker.
* `lifecycle` — the worker is started at most once, and dead only at the end of `run`
  or if it will never be started.
-/

namespace HPQueue

open Library.Threads Library.Transition
open OneWorker (flag Memory)
open scoped OneWorker

variable {ι E : Type}

namespace Lifecycle

/-- Where a thread stands in the worker's life. -/
inductive Phase
  /-- The worker, before it is created. -/
  | unborn
  /-- The worker in `run`, -/
  | running
  /-- and after it has said that it is dead. -/
  | dead
  | out
  /-- In `join`, which did not find the worker dead. -/
  | joining
  /-- With `startLock`, in `start`. -/
  | locked
  /-- It found the worker not started, -/
  | unstarted
  /-- and not terminated, -/
  | live
  /-- and has marked it as started. -/
  | starting
  /-- In `stop`, which has marked the worker as terminated. -/
  | stopping
  /-- With `startLock`. -/
  | looking
  /-- It found the worker not started, -/
  | sentencing
  /-- and has released the lock. -/
  | sentenced
  deriving DecidableEq

namespace Phase

/-- Whether the thread holds `startLock`. -/
def holds : Phase → Bool
  | locked | unstarted | live | starting | looking | sentencing => true
  | unborn | running | dead | out | joining | stopping | sentenced => false

def acquired : Phase → Option Phase
  | out => some locked
  | stopping => some looking
  | _ => none

def released : Phase → Option Phase
  | locked | unstarted => some out
  | sentencing => some sentenced
  | _ => none

/-- After `isStartedFlag` was found to have this value. -/
def seesStarted (b : Bool) : Phase → Phase
  | locked => if b then locked else unstarted
  | stopping => if b then out else stopping
  | looking => if b then locked else sentencing
  | φ => φ

/-- After `isTerminatedFlag` was. -/
def seesTerminated (b : Bool) : Phase → Phase
  | unstarted => if b then unstarted else live
  | φ => φ

/-- After `isDeadFlag` was. -/
def seesDead (b : Bool) : Phase → Phase
  | joining => if b then out else joining
  | φ => φ

/-- After `isTerminatedFlag` was set. -/
def terminates : Phase → Option Phase
  | out => some stopping
  | running => some running
  | _ => none

/-- After `isDeadFlag` was. -/
def dies : Phase → Option Phase
  | running => some dead
  | sentenced => some out
  | _ => none

/-- Whether the thread may do this: a dead worker only tells those who wait for it. -/
def allows (φ : Phase) : Op (OneWorker.names ι E) → Bool
  | .signal (.hasDied _) | .release (.hasDiedLock _) => φ ≠ unborn
  | _ => φ ≠ unborn ∧ φ ≠ dead

theorem not_allows_unborn (o : Op (OneWorker.names ι E)) : unborn.allows o = false := by
  unfold allows
  split <;> rfl

end Phase

open Phase

/-- The operations that matter; every other leaves the phase. -/
def step (φ : Phase) (o : Op (OneWorker.names ι E)) (r : o.Result) : Option Phase :=
  if φ.allows o then
    match o, r with
    | .acquire (.workerStartLock _), _ => φ.acquired
    | .release (.workerStartLock _), _ => φ.released
    | .wait _ (.workerStartLock _), _ => none
    | .resume _ (.workerStartLock _), _ => none
    | .load (.flag (.worker _ .isStartedFlag)), b => some (φ.seesStarted b)
    | .load (.flag (.worker _ .isTerminatedFlag)), b => some (φ.seesTerminated b)
    | .load (.flag (.worker _ .isDeadFlag)), b => some (φ.seesDead b)
    | .store (.inl (.newWorker _)), _ => none
    | .store (.inl (.flag (.worker _ .isStartedFlag) b)), _ =>
        if b ∧ φ = live then some starting else none
    | .store (.inl (.flag (.worker _ .isTerminatedFlag) b)), _ =>
        if b then φ.terminates else none
    | .store (.inl (.flag (.worker _ .isDeadFlag) b)), _ => if b then φ.dies else none
    | .spawn (.worker _), _ => if φ = starting then some locked else none
    | .spawn (.client _), _ => none
    | _, _ => some φ
  else none

/-- Where the loops are called, -/
def calledFrom : Proc 1 E → Option Phase
  | .runLoop _ => some running
  | .whileAlive _ => some joining
  | _ => none

/-- and where they return. -/
def returnsTo : Proc 1 E → Phase
  | .runLoop _ => running
  | _ => out

/-- Where threads are before the first call. -/
def begins : Thread ι 1 → Phase
  | .client _ => out
  | .worker _ => unborn

def protocol (ι E : Type) : Protocol (OneWorker.names ι E) Phase where
  trans _ φ o r := step φ o r
  pre _ p φ := calledFrom p = some φ
  post _ p _ _ φ := φ = returnsTo p
  final t φ :=
    match t with
    | .client _ => φ = out
    | .worker _ => φ = unborn ∨ φ = dead
  enter _ c φ := if c = .join then joining else φ
  born t φ :=
    match t with
    | .client _ => φ
    | .worker _ => running

/-! ## The methods -/

variable {t : Thread ι 1}

theorem protocol_trans (φ : Phase) (o : Op (OneWorker.names ι E)) (r : o.Result) :
    (protocol ι E).trans t φ o r = step φ o r := rfl

theorem protocol_pre (p : Proc 1 E) (φ : Phase) :
    (protocol ι E).pre t p φ ↔ calledFrom p = some φ := Iff.rfl

theorem protocol_post (p : Proc 1 E) (φ ψ : Phase) (a : Int) :
    (protocol ι E).post t p φ a ψ ↔ ψ = returnsTo p := Iff.rfl

attribute [local simp] protocol_trans protocol_pre protocol_post calledFrom returnsTo step acquired
  released seesStarted seesTerminated seesDead terminates dies allows Conforms Prog.ite_bind
  Worker.get Worker.set OneWorker.method Protocol.Keeps Prog.Only.ite_iff

theorem runLoop_running (w : Fin 1) :
    (OneWorker.lift (Worker.runLoop w)).Only ((protocol ι E).Keeps t running) := by
  simp [Worker.runLoop, Worker.waitWhilePaused, Worker.waitForWork, Worker.doWork, Worker.isWork]

theorem handleError_running (w : Fin 1) :
    (OneWorker.lift (Worker.handleError w)).Only ((protocol ι E).Keeps t running) := by
  simp [Worker.handleError]

theorem conforms_run (w : Fin 1) :
    Conforms (protocol ι E) t running (OneWorker.lift (Worker.run w)) fun _ φ => φ = dead := by
  simp [Worker.run, Worker.signalDead]
  intro error
  split
  · simp
  · apply (Conforms.of_keeps (handleError_running w)).bind
    rintro _ _ rfl
    simp

theorem conforms_start :
    Conforms (protocol ι E) t out (OneWorker.lift (Worker.start 0)) fun _ φ => φ = out := by
  simp [Worker.start]

theorem conforms_stop :
    Conforms (protocol ι E) t out (OneWorker.lift (Worker.stop 0)) fun _ φ => φ = out := by
  simp [Worker.stop, Worker.wasStarted, Worker.resume, Worker.signal, Worker.signalDead]

theorem conforms_join :
    Conforms (protocol ι E) t joining (OneWorker.lift (Worker.join 0)) fun _ φ => φ = out := by
  simp [Worker.join]

theorem conforms_pause (block : Bool) :
    Conforms (protocol ι E) t out (OneWorker.lift (Worker.pause 0 block)) fun _ φ => φ = out := by
  cases block <;> simp [Worker.pause, Worker.signal]

theorem conforms_resume :
    Conforms (protocol ι E) t out (OneWorker.lift (Worker.resume 0)) fun _ φ => φ = out := by
  simp [Worker.resume]

theorem conforms_signal :
    Conforms (protocol ι E) t out (OneWorker.lift (Worker.signal 0 false)) fun _ φ => φ = out := by
  simp [Worker.signal]

/-- All methods keep to the protocol. -/
theorem obeyed [DecidableEq ι] : (protocol ι E).Obeyed (oneWorker ι E) where
  body := by
    intro t p φ hpre
    cases p with
    | runLoop w =>
        obtain rfl : running = φ := by simpa using hpre
        exact Conforms.of_keeps (runLoop_running w)
    | whileAlive w =>
        obtain rfl : joining = φ := by simpa using hpre
        show Conforms _ _ _ (OneWorker.lift (Worker.whileAlive w)) _
        simp [Worker.whileAlive]
    | whileResizing | whileAdding | whileFull entry | addLoop entry index => cases hpre
  main := by
    rintro (i | w) φ hfinal
    · exact hfinal
    · exact (conforms_run w).mono fun _ _ => .inr
  entry := by
    intro t c m m' p φ hentry hfinal
    obtain ⟨i, rfl, -, rfl⟩ := OneWorker.entry_eq_some hentry
    obtain rfl : φ = out := hfinal
    cases c with
    | start => exact conforms_start
    | stop => exact conforms_stop
    | pause block => exact conforms_pause block
    | resume => exact conforms_resume
    | signal => exact conforms_signal
    | join => exact conforms_join

/-! ## The invariant -/

/-- The worker was not started, and nobody can start it any more. -/
structure Doomed (φ : Thread ι 1 → Phase) (m : Control ι 1) : Prop where
  terminated : flag m .isTerminatedFlag = true
  notStarted : flag m .isStartedFlag = false
  notLive : ∀ t, φ t ≠ live

/-- What a thread knows of the worker. -/
def Knows (φ : Thread ι 1 → Phase) (m : Control ι 1) (k : Census (OneWorker.names ι E)) :
    Phase → Prop
  | unstarted | live => flag m .isStartedFlag = false
  | starting => flag m .isStartedFlag = true ∧ k.attempts (.worker 0) = 0
  | stopping | looking => flag m .isTerminatedFlag = true
  | sentencing | sentenced => Doomed φ m
  | unborn | running | dead | out | joining | locked => True

/-- The invariant of all runs; `d` says that the worker was doomed when the run began. -/
structure Sound (d : Prop) (φ : Thread ι 1 → Phase)
    (s : Shared (OneWorker.names ι E) (Memory ι)) (k : Census (OneWorker.names ι E)) :
    Prop where
  holds : ∀ t, (φ t).holds = true → s.held (.workerStartLock 0) = some t
  knows : ∀ t, Knows φ s.memory.1 k (φ t)
  notStarted : flag s.memory.1 .isStartedFlag = false → k.attempts (.worker 0) = 0
  once : k.attempts (.worker 0) ≤ 1
  born : φ (.worker 0) = .unborn ∨ k.created (.worker 0) = 1
  runs : ∀ i, φ (.client i) ≠ .running
  doom : d → Doomed φ s.memory.1
  dead : flag s.memory.1 .isDeadFlag = true → Doomed φ s.memory.1 ∨ φ (.worker 0) = .dead
  returned : ∀ t, .join ∈ (s.memory.2 t).tail → flag s.memory.1 .isDeadFlag = true
  joined : ∀ t, .join ∈ s.memory.2 t → φ t = .joining ∨ flag s.memory.1 .isDeadFlag = true

variable {φ : Thread ι 1 → Phase} {s s' : Shared (OneWorker.names ι E) (Memory ι)}
  {k : Census (OneWorker.names ι E)} {ψ : Phase} {d : Prop}

theorem Sound.not_holds_of_ne (h : Sound d φ s k) {u : Thread ι 1} (ht : (φ t).holds = true)
    (hut : u ≠ t) : (φ u).holds = false := by
  by_contra hu
  have hu := h.holds u (by simpa using hu)
  exact hut (Option.some.inj (hu.symm.trans (h.holds t ht)))

variable [DecidableEq ι]

/-- A change after which nobody can start the worker who could not before. -/
structure Mild (φ : Thread ι 1 → Phase) (m : Control ι 1) (t : Thread ι 1) (ψ : Phase)
    (m' : Control ι 1) : Prop where
  started : flag m' .isStartedFlag = flag m .isStartedFlag
  terminated : flag m .isTerminatedFlag = true → flag m' .isTerminatedFlag = true
  live : ψ = live → φ t = live ∨ flag m .isTerminatedFlag = false

namespace Mild

variable {m m' : Control ι 1}

theorem doomed (h : Mild φ m t ψ m') (hd : Doomed φ m) : Doomed (Function.update φ t ψ) m' where
  terminated := h.terminated hd.terminated
  notStarted := by rw [h.started, hd.notStarted]
  notLive u hu := by
    by_cases hut : u = t
    · subst hut
      rcases h.live (by simpa using hu) with hlive | hterminated
      · exact hd.notLive u hlive
      · rw [hd.terminated] at hterminated
        cases hterminated
    · exact hd.notLive u (by simpa [hut] using hu)

theorem knows (h : Mild φ m t ψ m') {χ : Phase} (hχ : Knows φ m k χ) :
    Knows (Function.update φ t ψ) m' k χ := by
  cases χ with
  | unstarted | live => exact h.started.trans hχ
  | starting => exact ⟨h.started.trans hχ.1, hχ.2⟩
  | stopping | looking => exact h.terminated hχ
  | sentencing | sentenced => exact h.doomed hχ
  | unborn | running | dead | out | joining | locked => trivial

end Mild

namespace Sound

/-- A thread goes from one phase to another, and the worker dies no death. -/
theorem move (h : Sound d φ s k)
    (hholds : ∀ u, (Function.update φ t ψ u).holds = true →
      s'.held (.workerStartLock 0) = some u)
    (hmild : Mild φ s.memory.1 t ψ s'.memory.1)
    (hdead : flag s'.memory.1 .isDeadFlag = flag s.memory.1 .isDeadFlag)
    (hcalls : s'.memory.2 = s.memory.2)
    (hknows : Knows (Function.update φ t ψ) s'.memory.1 k ψ) (hunborn : φ t ≠ .unborn)
    (hruns : ψ = .running → φ t = .running) (hdies : φ t = .dead → ψ = .dead)
    (hjoins : φ t = .joining → ψ = .joining ∨ flag s.memory.1 .isDeadFlag = true) :
    Sound d (Function.update φ t ψ) s' k where
  holds := hholds
  knows u := by
    by_cases hut : u = t
    · subst hut
      simpa using hknows
    · rw [Function.update_of_ne hut]
      exact hmild.knows (h.knows u)
  notStarted hstarted := h.notStarted (by rw [← hmild.started, hstarted])
  once := h.once
  born := by
    by_cases hwt : .worker 0 = t
    · subst hwt
      exact .inr (h.born.resolve_left hunborn)
    · simpa [hwt] using h.born
  runs i := by
    by_cases hit : .client i = t
    · subst hit
      intro hψ
      exact h.runs i (hruns (by simpa using hψ))
    · simpa [hit] using h.runs i
  doom hd := hmild.doomed (h.doom hd)
  dead hflag := by
    refine (h.dead (by rw [← hdead, hflag])).imp hmild.doomed fun hw => ?_
    by_cases hwt : .worker 0 = t
    · subst hwt
      simpa using hdies hw
    · simpa [hwt] using hw
  returned u hu := by rw [hdead, h.returned u (by rwa [hcalls] at hu)]
  joined u hu := by
    rw [hdead]
    rcases h.joined u (by rwa [hcalls] at hu) with hjoining | hflag
    · by_cases hut : u = t
      · subst hut
        simpa using hjoins hjoining
      · exact .inl (by simpa [hut] using hjoining)
    · exact .inr hflag

/-- A thread stays where it is, and changes nothing that matters. -/
theorem stay (h : Sound d φ s k)
    (hheld : s'.held (.workerStartLock 0) = s.held (.workerStartLock 0))
    (hflag : ∀ f, f = .isStartedFlag ∨ f = .isTerminatedFlag ∨ f = .isDeadFlag →
      flag s'.memory.1 f = flag s.memory.1 f)
    (hcalls : s'.memory.2 = s.memory.2) : Sound d φ s' k := by
  have hmild : Mild φ s.memory.1 (.worker 0) (φ (.worker 0)) s'.memory.1 :=
    ⟨hflag _ (by simp), fun h => by rw [hflag _ (by simp), h], .inl⟩
  constructor
  · exact fun u hu => by rw [hheld, h.holds u hu]
  · intro u
    simpa using hmild.knows (h.knows u)
  · exact fun hstarted => h.notStarted (by rw [← hflag _ (by simp), hstarted])
  · exact h.once
  · exact h.born
  · exact h.runs
  · exact fun hd => by simpa using hmild.doomed (h.doom hd)
  · intro hdead
    refine (h.dead (by rw [← hflag _ (by simp), hdead])).imp_left fun hd => ?_
    simpa using hmild.doomed hd
  · exact fun u hu => by rw [hflag _ (by simp), h.returned u (by rwa [hcalls] at hu)]
  · exact fun u hu => by
      rw [hflag _ (by simp)]
      exact h.joined u (by rwa [hcalls] at hu)

theorem acquire (h : Sound d φ s k) (hfree : s.held (.workerStartLock 0) = none)
    (hψ : (φ t).acquired = some ψ) :
    Sound d (Function.update φ t ψ) (s.lock (.workerStartLock 0) (some t)) k := by
  have hnone : ∀ u, (φ u).holds = false := by
    intro u
    by_contra hu
    have hu := h.holds u (by simpa using hu)
    rw [hfree] at hu
    cases hu
  have hknows := h.knows t
  cases hφ : φ t <;> simp [hφ] at hψ <;> subst hψ <;> rw [hφ] at hknows
  all_goals
    apply h.move
    · intro u hu
      by_cases hut : u = t
      · subst hut
        simp [Shared.lock]
      · simp [hut, hnone u] at hu
    · exact ⟨rfl, id, by simp⟩
    · rfl
    · rfl
    · exact hknows
    all_goals simp [hφ]

theorem release (h : Sound d φ s k) (hheld : s.held (.workerStartLock 0) = some t)
    (hψ : (φ t).released = some ψ) :
    Sound d (Function.update φ t ψ) (s.lock (.workerStartLock 0) none) k := by
  have hknows := h.knows t
  have hmild : ψ ≠ live → Mild φ s.memory.1 t ψ s.memory.1 :=
    fun hlive => ⟨rfl, id, fun hψ => absurd hψ hlive⟩
  have hholds : (φ t).holds = true := by
    cases hφ : φ t <;> simp [hφ] at hψ <;> rfl
  cases hφ : φ t <;> simp [hφ] at hψ <;> subst hψ <;> rw [hφ] at hknows
  all_goals
    apply h.move
    · intro u hu
      by_cases hut : u = t
      · subst hut
        simp [Phase.holds] at hu
      · simp [hut, h.not_holds_of_ne hholds hut] at hu
    · exact hmild (by simp)
    · rfl
    · rfl
  case sentencing.hknows => exact (hmild (by simp)).knows hknows
  all_goals first
    | trivial
    | simp [hφ]

/-- A thread looks at a flag, and holds the lock as before. -/
theorem look (h : Sound d φ s k) (hholds : ψ.holds = true → (φ t).holds = true)
    (hlive : ψ = live → φ t = live ∨ flag s.memory.1 .isTerminatedFlag = false)
    (hknows : Mild φ s.memory.1 t ψ s.memory.1 → Knows (Function.update φ t ψ) s.memory.1 k ψ)
    (hunborn : φ t ≠ .unborn) (hruns : ψ = .running → φ t = .running)
    (hdies : φ t = .dead → ψ = .dead)
    (hjoins : φ t = .joining → ψ = .joining ∨ flag s.memory.1 .isDeadFlag = true) :
    Sound d (Function.update φ t ψ) s k := by
  have hmild : Mild φ s.memory.1 t ψ s.memory.1 := ⟨rfl, id, hlive⟩
  refine h.move ?_ hmild rfl rfl (hknows hmild) hunborn hruns hdies hjoins
  intro u hu
  by_cases hut : u = t
  · subst hut
    exact h.holds u (hholds (by simpa using hu))
  · exact h.holds u (by simpa [hut] using hu)

/-- Under the lock, nobody else is about to start the worker: if it is terminated and
not started, it will not be started. -/
theorem doomed (h : Sound d φ s k) (ht : (φ t).holds = true) (hlive : ψ ≠ .live)
    (hterminated : flag s.memory.1 .isTerminatedFlag = true)
    (hstarted : flag s.memory.1 .isStartedFlag = false) :
    Doomed (Function.update φ t ψ) s.memory.1 where
  terminated := hterminated
  notStarted := hstarted
  notLive u hu := by
    by_cases hut : u = t
    · subst hut
      exact hlive (by simpa using hu)
    · have hnot := h.not_holds_of_ne ht hut
      rw [Function.update_of_ne hut] at hu
      simp [hu, Phase.holds] at hnot

theorem seesStarted (h : Sound d φ s k) (hunborn : φ t ≠ .unborn) :
    Sound d (Function.update φ t ((φ t).seesStarted (flag s.memory.1 .isStartedFlag))) s k := by
  have hknows := h.knows t
  cases hφ : φ t with
  | stopping =>
      cases hflag : flag s.memory.1 .isStartedFlag with
      | true =>
          apply h.look <;> simp [hφ, Phase.holds]
          exact fun _ => trivial
      | false =>
          rw [hφ] at hknows
          apply h.look <;> simp [hφ, Phase.holds]
          exact fun _ => hknows
  | locked =>
      cases hflag : flag s.memory.1 .isStartedFlag with
      | true =>
          apply h.look <;> simp [hφ, Phase.holds]
          exact fun _ => trivial
      | false =>
          apply h.look <;> simp [hφ, Phase.holds]
          exact fun _ => hflag
  | looking =>
      cases hflag : flag s.memory.1 .isStartedFlag with
      | true =>
          apply h.look <;> simp [hφ, Phase.holds]
          exact fun _ => trivial
      | false =>
          rw [hφ] at hknows
          apply h.look <;> simp [hφ, Phase.holds]
          exact fun _ => h.doomed (by simp [hφ, Phase.holds]) (by simp) hknows hflag
  | unborn => exact absurd hφ hunborn
  | running | dead | out | joining | unstarted | live | starting | sentencing | sentenced =>
      simp only [Phase.seesStarted]
      rw [← hφ, Function.update_eq_self]
      exact h

theorem seesTerminated (h : Sound d φ s k) :
    Sound d (Function.update φ t
      ((φ t).seesTerminated (flag s.memory.1 .isTerminatedFlag))) s k := by
  have hknows := h.knows t
  cases hφ : φ t with
  | unstarted =>
      rw [hφ] at hknows
      cases hflag : flag s.memory.1 .isTerminatedFlag with
      | true =>
          apply h.look <;> simp [hφ, Phase.holds]
          exact fun _ => hknows
      | false =>
          apply h.look <;> simp [hφ, Phase.holds]
          · exact hflag
          · exact fun _ => hknows
  | unborn | running | dead | out | joining | locked | live | starting | stopping | looking
  | sentencing | sentenced =>
      simp only [Phase.seesTerminated]
      rw [← hφ, Function.update_eq_self]
      exact h

theorem seesDead (h : Sound d φ s k) :
    Sound d (Function.update φ t ((φ t).seesDead (flag s.memory.1 .isDeadFlag))) s k := by
  cases hφ : φ t with
  | joining =>
      cases hflag : flag s.memory.1 .isDeadFlag with
      | true =>
          apply h.look <;> simp [hφ, Phase.holds]
          · exact fun _ => trivial
          · exact hflag
      | false =>
          simp only [Phase.seesDead]
          rw [if_neg (by simp), ← hφ, Function.update_eq_self]
          exact h
  | unborn | running | dead | out | locked | unstarted | live | starting | stopping | looking
  | sentencing | sentenced =>
      simp only [Phase.seesDead]
      rw [← hφ, Function.update_eq_self]
      exact h

/-- The thread with the lock marks the worker as started, which was not doomed. -/
theorem marks (h : Sound d φ s k) (hφ : φ t = .live) :
    Sound d (Function.update φ t .starting)
      { s with
        memory := (s.memory.1.store t (.flag (.worker 0 .isStartedFlag) true), s.memory.2) } k := by
  have ht : (φ t).holds = true := by simp [hφ, Phase.holds]
  have hknows := h.knows t
  rw [hφ] at hknows
  have hworker : .worker 0 ≠ t ∨ φ (.worker 0) = .live := by
    by_cases hwt : .worker 0 = t
    · exact .inr (by rw [hwt, hφ])
    · exact .inl hwt
  have hnot : ¬ Doomed φ s.memory.1 := fun hd => hd.notLive t hφ
  constructor
  · intro u hu
    by_cases hut : u = t
    · subst hut
      exact h.holds u ht
    · exact h.holds u (by simpa [hut] using hu)
  · intro u
    by_cases hut : u = t
    · subst hut
      simp [Knows, h.notStarted hknows]
    · have hu := h.not_holds_of_ne ht hut
      have hu' := h.knows u
      rw [Function.update_of_ne hut]
      cases hφu : φ u <;> simp [hφu, Phase.holds] at hu <;> rw [hφu] at hu'
      case stopping => simpa [Knows] using hu'
      case sentenced => exact absurd hu' hnot
      all_goals trivial
  · intro hstarted
    simp at hstarted
  · exact h.once
  · rcases hworker with hwt | hlive
    · simpa [hwt] using h.born
    · exact .inr (h.born.resolve_left (by simp [hlive]))
  · intro i
    by_cases hit : .client i = t
    · subst hit
      simp
    · simpa [hit] using h.runs i
  · exact fun hd => absurd (h.doom hd) hnot
  · intro hdead
    have hdead := (h.dead (by simpa using hdead)).resolve_left hnot
    rcases hworker with hwt | hlive
    · exact .inr (by simpa [hwt] using hdead)
    · rw [hlive] at hdead
      cases hdead
  · exact fun u hu => by simpa using h.returned u hu
  · intro u hu
    rcases h.joined u hu with hjoining | hdead
    · have hut : u ≠ t := by
        rintro rfl
        rw [hφ] at hjoining
        cases hjoining
      exact .inl (by simpa [hut] using hjoining)
    · exact .inr (by simpa using hdead)

/-- `isTerminatedFlag` is set, by `stop` or by the worker itself. -/
theorem terminates (h : Sound d φ s k) (hψ : (φ t).terminates = some ψ) :
    Sound d (Function.update φ t ψ)
      { s with
        memory :=
          (s.memory.1.store t (.flag (.worker 0 .isTerminatedFlag) true), s.memory.2) } k := by
  have hmild : Mild φ s.memory.1 t ψ
      (s.memory.1.store t (.flag (.worker 0 .isTerminatedFlag) true)) := by
    refine ⟨by simp, by simp, ?_⟩
    cases hφ : φ t <;> simp [hφ] at hψ <;> subst hψ <;> simp
  have hholds : ψ.holds = false := by
    cases hφ : φ t <;> simp [hφ] at hψ <;> subst hψ <;> rfl
  refine h.move ?_ hmild (by simp) rfl ?_ ?_ ?_ ?_ ?_
  · intro u hu
    by_cases hut : u = t
    · subst hut
      simp [hholds] at hu
    · exact h.holds u (by simpa [hut] using hu)
  all_goals cases hφ : φ t <;> simp [hφ] at hψ <;> subst hψ <;> simp [Knows]

/-- The worker is said to be dead: by itself, or by `stop`, which has found that it will
not be started. -/
theorem dies (h : Sound d φ s k) (hψ : (φ t).dies = some ψ) :
    Sound d (Function.update φ t ψ)
      { s with
        memory := (s.memory.1.store t (.flag (.worker 0 .isDeadFlag) true), s.memory.2) } k := by
  have hknows := h.knows t
  have hmild : Mild φ s.memory.1 t ψ
      (s.memory.1.store t (.flag (.worker 0 .isDeadFlag) true)) := by
    refine ⟨by simp, by simp, ?_⟩
    cases hφ : φ t <;> simp [hφ] at hψ <;> subst hψ <;> simp
  have hend : Doomed (Function.update φ t ψ)
      (s.memory.1.store t (.flag (.worker 0 .isDeadFlag) true)) ∨
        t = .worker 0 ∧ ψ = .dead := by
    cases hφ : φ t <;> simp [hφ] at hψ <;> subst hψ <;> rw [hφ] at hknows
    case running =>
      cases t with
      | client i => exact absurd hφ (h.runs i)
      | worker w =>
          obtain rfl := Subsingleton.elim w 0
          exact .inr ⟨rfl, rfl⟩
    case sentenced => exact .inl (hmild.doomed hknows)
  have hphase : ψ.holds = false ∧ ψ ≠ .running ∧ φ t ≠ .unborn ∧
      Knows (Function.update φ t ψ)
        (s.memory.1.store t (.flag (.worker 0 .isDeadFlag) true)) k ψ := by
    cases hφ : φ t <;> simp [hφ] at hψ <;> subst hψ <;> exact ⟨rfl, by simp, by simp, trivial⟩
  obtain ⟨hholds, hrunning, hunborn, hψknows⟩ := hphase
  constructor
  · intro u hu
    by_cases hut : u = t
    · subst hut
      simp [hholds] at hu
    · exact h.holds u (by simpa [hut] using hu)
  · intro u
    by_cases hut : u = t
    · subst hut
      simpa using hψknows
    · rw [Function.update_of_ne hut]
      exact hmild.knows (h.knows u)
  · exact fun hstarted => h.notStarted (by simpa using hstarted)
  · exact h.once
  · by_cases hwt : .worker 0 = t
    · subst hwt
      exact .inr (h.born.resolve_left hunborn)
    · simpa [hwt] using h.born
  · intro i
    by_cases hit : .client i = t
    · subst hit
      simpa using hrunning
    · simpa [hit] using h.runs i
  · exact fun hd => hmild.doomed (h.doom hd)
  · intro _
    refine hend.imp_right ?_
    rintro ⟨rfl, rfl⟩
    simp
  · exact fun u hu => by simp
  · exact fun u hu => .inr (by simp)

/-- Every other store. -/
theorem store (h : Sound d φ s k) {x : Store 1}
    (hψ : step (φ t) (.store (.inl x) : Op (OneWorker.names ι E)) () = some ψ) :
    Sound d (Function.update φ t ψ) { s with memory := (s.memory.1.store t x, s.memory.2) } k := by
  unfold step at hψ
  split at hψ
  swap
  · cases hψ
  have hsame : ∀ {m : Control ι 1}, φ t = ψ →
      (∀ f, f = .isStartedFlag ∨ f = .isTerminatedFlag ∨ f = .isDeadFlag →
        flag m f = flag s.memory.1 f) →
      Sound d (Function.update φ t ψ) { s with memory := (m, s.memory.2) } k := by
    rintro m rfl hflag
    rw [Function.update_eq_self]
    exact h.stay rfl hflag rfl
  cases x with
  | newWorker w => cases hψ
  | addingCount d | nestedPauseCounter d => exact hsame (Option.some.inj hψ) fun _ _ => rfl
  | flag f b =>
      cases f with
      | isRunningFlag | isPausedFlag | isTerminatedFlag | resizing | cleared | processingWorker w =>
          exact hsame (Option.some.inj hψ) fun _ _ => by simp [flag]
      | worker w g =>
          obtain rfl := Subsingleton.elim w 0
          cases g with
          | isStartedFlag =>
              obtain ⟨⟨rfl, hφ⟩, rfl⟩ : (b = true ∧ φ t = .live) ∧ Phase.starting = ψ := by
                simpa using hψ
              exact h.marks hφ
          | isTerminatedFlag =>
              obtain ⟨rfl, hψ⟩ : b = true ∧ (φ t).terminates = some ψ := by simpa using hψ
              exact h.terminates hψ
          | isDeadFlag =>
              obtain ⟨rfl, hψ⟩ : b = true ∧ (φ t).dies = some ψ := by simpa using hψ
              exact h.dies hψ
          | isPausedFlag | isIdleFlag | isWaitingFlag | haveWorkJoiners =>
              refine hsame (Option.some.inj hψ) fun f hf => ?_
              rcases hf with rfl | rfl | rfl <;> simp

/-- Of what else a thread does, only the lock and what it loads matters. -/
theorem act (h : Sound d φ s k) {o : Op (OneWorker.names ι E)} {r : o.Result}
    (hspawn : ∀ u, o ≠ .spawn u) (heffect : (oneWorker ι E).recording.Effect s t o r s')
    (hψ : step (φ t) o r = some ψ) : Sound d (Function.update φ t ψ) s' k := by
  have hstep := hψ
  unfold step at hψ
  split at hψ
  swap
  · cases hψ
  rename_i hallows
  have hunborn : φ t ≠ .unborn := by
    intro hφ
    rw [hφ, not_allows_unborn] at hallows
    cases hallows
  have hsame : s'.memory = s.memory →
      s'.held (.workerStartLock 0) = s.held (.workerStartLock 0) → φ t = ψ →
      Sound d (Function.update φ t ψ) s' k := by
    rintro hmemory hheld rfl
    rw [Function.update_eq_self]
    exact h.stay hheld (fun _ _ => by rw [hmemory]) (by rw [hmemory])
  cases heffect with
  | @acquire l hfree =>
      cases l with
      | workerStartLock w =>
          obtain rfl := Subsingleton.elim w 0
          exact h.acquire hfree hψ
      | startLock | workerLock | resizeQueuesLock | isWorkLock w | hasDiedLock w
      | hasPausedLock w => exact hsame rfl (by simp [Shared.lock]) (Option.some.inj hψ)
  | @release l hheld =>
      cases l with
      | workerStartLock w =>
          obtain rfl := Subsingleton.elim w 0
          exact h.release hheld hψ
      | startLock | workerLock | resizeQueuesLock | isWorkLock w | hasDiedLock w
      | hasPausedLock w => exact hsame rfl (by simp [Shared.lock]) (Option.some.inj hψ)
  | @wait c l hheld =>
      cases l with
      | workerStartLock w => cases hψ
      | startLock | workerLock | resizeQueuesLock | isWorkLock w | hasDiedLock w
      | hasPausedLock w =>
          exact hsame rfl (by simp [Shared.lock, Shared.sleep]) (Option.some.inj hψ)
  | @resume c l hawake hfree =>
      cases l with
      | workerStartLock w => cases hψ
      | startLock | workerLock | resizeQueuesLock | isWorkLock w | hasDiedLock w
      | hasPausedLock w => exact hsame rfl (by simp [Shared.lock]) (Option.some.inj hψ)
  | unheard hnone | signal hasleep | broadcast => exact hsame rfl rfl (Option.some.inj hψ)
  | @ask q a m hreply =>
      have hmemory : s.memory = m := by
        simpa [Machine.recording, oneWorker, Machine.extend, processor] using hreply
      exact hsame hmemory.symm rfl (Option.some.inj hψ)
  | @load x =>
      cases x with
      | addingCount | nestedPauseCounter => exact hsame rfl rfl (Option.some.inj hψ)
      | flag f =>
          cases f with
          | isTerminatedFlag | isRunningFlag | isPausedFlag | resizing | cleared
          | processingWorker w => exact hsame rfl rfl (Option.some.inj hψ)
          | worker w g =>
              obtain rfl := Subsingleton.elim w 0
              cases g with
              | isStartedFlag =>
                  obtain rfl := Option.some.inj hψ
                  exact h.seesStarted hunborn
              | isTerminatedFlag =>
                  obtain rfl := Option.some.inj hψ
                  exact h.seesTerminated
              | isDeadFlag =>
                  obtain rfl := Option.some.inj hψ
                  exact h.seesDead
              | isPausedFlag | isIdleFlag | isWaitingFlag | haveWorkJoiners =>
                  exact hsame rfl rfl (Option.some.inj hψ)
  | @store x =>
      cases x with
      | inl x => exact h.store hstep
      | inr x => exact x.elim
  | spawn => exact absurd rfl (hspawn _)

omit [DecidableEq ι] in
theorem eq_of_spawn {φ : Phase} {u : Thread ι 1}
    (hψ : step φ (.spawn u : Op (OneWorker.names ι E)) () = some ψ) : u = .worker 0 := by
  cases u with
  | client i => simp at hψ
  | worker w => rw [Subsingleton.elim w 0]

/-- The worker's thread was created, or its creation has failed. -/
theorem attempt (h : Sound d φ s k) {φ₁ : Thread ι 1 → Phase}
    {k' : Census (OneWorker.names ι E)}
    (hψ : step (φ t) (.spawn (.worker 0) : Op (OneWorker.names ι E)) () = some ψ)
    (hk : k'.attempts (.worker 0) = k.attempts (.worker 0) + 1)
    (hborn : φ (.worker 0) = .unborn → k.attempts (.worker 0) = 0 →
      φ₁ (.worker 0) = .unborn ∨ k'.created (.worker 0) = 1)
    (hothers : ∀ v, v ≠ t → φ₁ v = φ v ∨ v = .worker 0 ∧ φ₁ v = .running) :
    Sound d (Function.update φ₁ t ψ) s k' := by
  have hknows := h.knows t
  obtain ⟨-, hφ, rfl⟩ : _ ∧ φ t = .starting ∧ Phase.locked = ψ := by simpa using hψ
  rw [hφ] at hknows
  obtain ⟨hstarted, hnone⟩ := hknows
  have ht : (φ t).holds = true := by simp [hφ, Phase.holds]
  have hunborn : φ (.worker 0) = .unborn := by
    refine h.born.resolve_right fun hcreated => ?_
    unfold Census.attempts at hnone
    omega
  have hwt : .worker 0 ≠ t := by
    rintro rfl
    rw [hφ] at hunborn
    cases hunborn
  have hnot : ¬ Doomed φ s.memory.1 := by
    intro hd
    rw [hd.notStarted] at hstarted
    cases hstarted
  constructor
  · intro v hv
    by_cases hvt : v = t
    · subst hvt
      exact h.holds v ht
    · rcases hothers v hvt with hsame | ⟨-, hrunning⟩
      · exact h.holds v (by simpa [hvt, hsame] using hv)
      · simp [hvt, hrunning, Phase.holds] at hv
  · intro v
    by_cases hvt : v = t
    · subst hvt
      simp [Knows]
    · rw [Function.update_of_ne hvt]
      rcases hothers v hvt with hsame | ⟨-, hrunning⟩
      · have hv := h.not_holds_of_ne ht hvt
        have hv' := h.knows v
        rw [hsame]
        cases hφv : φ v <;> simp [hφv, Phase.holds] at hv <;> rw [hφv] at hv'
        case stopping => exact hv'
        case sentenced => exact absurd hv' hnot
        all_goals trivial
      · rw [hrunning]
        trivial
  · intro hnotStarted
    rw [hstarted] at hnotStarted
    cases hnotStarted
  · omega
  · simpa [hwt] using hborn hunborn hnone
  · intro i
    by_cases hit : .client i = t
    · subst hit
      simp
    · rw [Function.update_of_ne hit]
      rcases hothers _ hit with hsame | ⟨hi, -⟩
      · rw [hsame]
        exact h.runs i
      · cases hi
  · exact fun hd => absurd (h.doom hd) hnot
  · intro hdead
    have hdead := (h.dead hdead).resolve_left hnot
    rw [hunborn] at hdead
    cases hdead
  · exact h.returned
  · intro v hv
    refine (h.joined v hv).imp_left fun hjoining => ?_
    have hvt : v ≠ t := by
      rintro rfl
      rw [hφ] at hjoining
      cases hjoining
    rw [Function.update_of_ne hvt]
    rcases hothers v hvt with hsame | ⟨rfl, -⟩
    · rw [hsame, hjoining]
    · rw [hunborn] at hjoining
      cases hjoining

/-- A thread is given a call. -/
theorem enter (h : Sound d φ s k) {c : WorkerCall} (hfinal : φ t = .out) :
    Sound d (Function.update φ t (if c = .join then .joining else φ t))
      { s with
        memory := (s.memory.1, Function.update s.memory.2 t (c :: s.memory.2 t)) } k := by
  have hphase : ∀ χ : Phase, χ = .joining ∨ χ = .out →
      Mild φ s.memory.1 t χ s.memory.1 ∧ χ.holds = false := by
    rintro χ (rfl | rfl) <;> exact ⟨⟨rfl, id, by simp⟩, rfl⟩
  have hsplit : (if c = .join then .joining else φ t) = Phase.joining ∨
      (if c = .join then .joining else φ t) = Phase.out := by
    rw [hfinal]
    split <;> simp
  obtain ⟨hmild, hholds⟩ := hphase _ hsplit
  have hwt : ∀ w, φ (.worker w) ≠ .out → .worker w ≠ t := by
    rintro w hw rfl
    exact hw hfinal
  constructor
  · intro u hu
    by_cases hut : u = t
    · subst hut
      rw [Function.update_self, hholds] at hu
      cases hu
    · exact h.holds u (by simpa [hut] using hu)
  · intro u
    by_cases hut : u = t
    · subst hut
      rw [Function.update_self]
      rcases hsplit with hχ | hχ <;> rw [hχ] <;> trivial
    · rw [Function.update_of_ne hut]
      exact hmild.knows (h.knows u)
  · exact h.notStarted
  · exact h.once
  · by_cases hw : .worker 0 = t
    · subst hw
      exact .inr (h.born.resolve_left (by simp [hfinal]))
    · simpa [hw] using h.born
  · intro i
    by_cases hit : .client i = t
    · subst hit
      rw [Function.update_self]
      rcases hsplit with hχ | hχ <;> rw [hχ] <;> simp
    · simpa [hit] using h.runs i
  · exact fun hd => hmild.doomed (h.doom hd)
  · intro hdead
    refine (h.dead hdead).imp hmild.doomed fun hw => ?_
    simpa [hwt 0 (by simp [hw])] using hw
  · intro u hu
    by_cases hut : u = t
    · subst hut
      refine (h.joined u (by simpa using hu)).resolve_left ?_
      simp [hfinal]
    · exact h.returned u (by simpa [hut] using hu)
  · intro u hu
    by_cases hut : u = t
    · subst hut
      by_cases hc : c = .join
      · exact .inl (by simp [hc])
      · refine .inr ((h.joined u ?_).resolve_left (by simp [hfinal]))
        simpa [Ne.symm hc] using hu
    · simpa [hut] using h.joined u (by simpa [hut] using hu)

end Sound

omit [DecidableEq ι] in
theorem Sound.new [DecidableEq ι] :
    Sound False begins (newWorker ι E).recorded.shared (.none (OneWorker.names ι E)) where
  holds t ht := by cases t <;> cases ht
  knows t := by cases t <;> trivial
  notStarted _ := rfl
  once := by simp
  born := .inl rfl
  runs i := by simp [begins]
  doom := False.elim
  dead hdead := by cases hdead
  returned t ht := by cases ht
  joined t ht := by cases ht

end Lifecycle

open Lifecycle

variable [DecidableEq ι]

/-- All runs from a state of a worker, whatever creations fail. -/
def lifeFrom (s₀ : CountedState (OneWorker.names ι E) (Memory ι)) :
    System (CountedState (OneWorker.names ι E) (Memory ι)) (CountedLabel (OneWorker.names ι E)) :=
  (oneWorker ι E).recording.countedSystem s₀

namespace Lifecycle

theorem sound_of_reachable {s₀ s : CountedState (OneWorker.names ι E) (Memory ι)} {d : Prop}
    {φ₀ : Thread ι 1 → Phase} (hobeys : (protocol ι E).Obeys φ₀ s₀.toState)
    (hsound : Sound d φ₀ s₀.shared s₀.toCensus) (h : (lifeFrom s₀).Reachable s) :
    ∃ φ, (protocol ι E).Obeys φ s.toState ∧ Sound d φ s.shared s.toCensus := by
  refine Protocol.countedInvariant (J := Sound d) obeyed.recording hobeys hsound
    ?_ ?_ ?_ ?_ ?_ (System.Reachable.restrict_true h)
  · intro φ s t c o r shared ψ hJ hC hspawn heffect htrans
    exact hJ.act hspawn heffect htrans
  · intro φ s t c hJ hC
    exact hJ.stay rfl (fun _ _ => rfl) rfl
  · intro φ s t c m p hJ hC hentry hfinal
    obtain ⟨⟨m₁, p₁⟩, hentry, hm⟩ := Option.map_eq_some_iff.mp hentry
    obtain ⟨i, rfl, rfl, -⟩ := OneWorker.entry_eq_some hentry
    obtain rfl : _ = m := (Prod.ext_iff.mp hm).1
    exact hJ.enter hfinal
  · intro φ shared k t u ψ hJ htrans hfinal
    obtain rfl := Sound.eq_of_spawn htrans
    refine hJ.attempt htrans (by simp [Census.attempts_create]) ?_ ?_
    · intro hunborn hnone
      have hcreated : k.created (.worker 0) = 0 := by
        unfold Census.attempts at hnone
        omega
      exact .inr (by simp [Census.create, hcreated])
    · intro v hv
      by_cases hvw : v = .worker 0
      · subst hvw
        exact .inr ⟨rfl, by simp [protocol]⟩
      · exact .inl (by simp [hvw])
  · intro φ shared k t u ψ hJ htrans
    obtain rfl := Sound.eq_of_spawn htrans
    exact hJ.attempt htrans (by simp [Census.attempts_fail]) (fun hunborn _ => .inl hunborn)
      fun v hv => .inl rfl

omit [DecidableEq ι] in
/-- A worker that has said that it is dead only tells it to those who wait for it. -/
theorem head_of_dead {p : Prog (OneWorker.names ι E) Unit} {Q : Unit → Phase → Prop}
    (h : Conforms (protocol ι E) t .dead p Q) :
    p.head = none ∨ p.head = some (.signal (.hasDied 0)) ∨
      p.head = some (.release (.hasDiedLock 0)) := by
  cases p with
  | done a => exact .inl rfl
  | op o k =>
      refine .inr ?_
      have hallowed : ∀ r ψ, step Phase.dead o r = some ψ → Phase.dead.allows o = true := by
        intro r ψ hψ
        unfold step at hψ
        split at hψ
        · assumption
        · cases hψ
      cases o with
      | call p =>
          have hpre : calledFrom p = some Phase.dead := h.1
          cases p <;> cases hpre
      | signal c =>
          obtain ⟨ψ, hψ, -⟩ := h
          have hc := hallowed () ψ hψ
          cases c with
          | hasDied w => exact .inl (by rw [Subsingleton.elim w 0]; rfl)
          | isResizingCond | isWorkWaiting w | hasPaused w | isIdle w => cases hc
      | release l =>
          obtain ⟨ψ, hψ, -⟩ := h
          have hl := hallowed () ψ hψ
          cases l with
          | hasDiedLock w => exact .inr (by rw [Subsingleton.elim w 0]; rfl)
          | startLock | workerLock | resizeQueuesLock | workerStartLock w | isWorkLock w
          | hasPausedLock w => cases hl
      | load x =>
          obtain ⟨ψ, hψ, -⟩ := h true
          cases hallowed true ψ hψ
      | ask q =>
          obtain ⟨ψ, hψ, -⟩ := h 0
          cases hallowed (0 : Int) ψ hψ
      | acquire l | wait c l | resume c l | broadcast c | store x | spawn u =>
          obtain ⟨ψ, hψ, -⟩ := h
          cases hallowed () ψ hψ

end Lifecycle

/-- The worker's thread was created, and its `run` is over: it may still have to tell
those who wait for its death. -/
def Ended (s : CountedState (OneWorker.names ι E) (Memory ι)) : Prop :=
  s.created (.worker 0) = 1 ∧
    ((s.prog (.worker 0)).head = none ∨
      (s.prog (.worker 0)).head = some (.signal (.hasDied 0)) ∨
        (s.prog (.worker 0)).head = some (.release (.hasDiedLock 0)))

/-- Nobody has called the worker's `thread.start`, and nobody ever will. -/
def NeverStarts (s : CountedState (OneWorker.names ι E) (Memory ι)) : Prop :=
  ∀ s', (lifeFrom s).Reachable s' → s'.attempts (.worker 0) = 0 ∧
    ∀ t, (s'.prog t).head ≠ some (.spawn (.worker 0))

namespace Lifecycle

variable {s : CountedState (OneWorker.names ι E) (Memory ι)} {φ : Thread ι 1 → Phase} {d : Prop}

omit [DecidableEq ι] in
/-- Who is about to create the worker has marked it as started. -/
theorem starting_of_head (hobeys : (protocol ι E).Obeys φ s.toState) {t : Thread ι 1}
    (hhead : (s.prog t).head = some (.spawn (.worker 0))) : φ t = .starting := by
  obtain ⟨ψ, hψ⟩ := (hobeys t).trans_of_head hhead (by simp) ()
  obtain ⟨-, hφ, -⟩ : _ ∧ φ t = .starting ∧ _ := by
    simpa [protocol, step, Phase.allows] using hψ
  exact hφ

/-- Nobody starts a worker that is doomed. -/
theorem neverStarts (hobeys : (protocol ι E).Obeys φ s.toState)
    (hsound : Sound d φ s.shared s.toCensus) (hd : Doomed φ s.shared.memory.1) :
    NeverStarts s := by
  intro s' hs'
  obtain ⟨φ', hobeys', hsound'⟩ :=
    sound_of_reachable hobeys { hsound with doom := fun _ : True => hd } hs'
  have hd' := hsound'.doom trivial
  refine ⟨hsound'.notStarted hd'.notStarted, fun t hhead => ?_⟩
  have hknows := hsound'.knows t
  rw [starting_of_head hobeys' hhead] at hknows
  have hstarted := hknows.1
  rw [hd'.notStarted] at hstarted
  cases hstarted

theorem ended_or_neverStarts (hobeys : (protocol ι E).Obeys φ s.toState)
    (hsound : Sound d φ s.shared s.toCensus)
    (hdead : flag s.shared.memory.1 .isDeadFlag = true) : Ended s ∨ NeverStarts s := by
  rcases hsound.dead hdead with hd | hφ
  · exact .inr (neverStarts hobeys hsound hd)
  · refine .inl ⟨hsound.born.resolve_left (by simp [hφ]), ?_⟩
    have hconforms := hobeys (.worker 0)
    rw [hφ] at hconforms
    exact head_of_dead hconforms

end Lifecycle

/-- Whatever the order of the calls: `thread.start` is called at most once; when the
worker is said to be dead, either its `run` is over or it will never be started, and so
from the moment on in which a `stop` that found it unstarted is about to say it; and when a
`join` has returned. -/
theorem lifecycle {s : CountedState (OneWorker.names ι E) (Memory ι)}
    (h : (lifeFrom (newWorker ι E).recorded.counted).Reachable s) :
    (s.attempts (.worker 0) ≤ 1 ∧
      ∀ t, (s.prog t).head = some (.spawn (.worker 0)) → s.attempts (.worker 0) = 0 ∧
        ∀ u, (s.prog u).head = some (.spawn (.worker 0)) → u = t) ∧
    (flag s.shared.memory.1 .isDeadFlag = true → Ended s ∨ NeverStarts s) ∧
    (∀ i, (s.prog (.client i)).head = some (.store (.inl (.flag (.worker 0 .isDeadFlag) true))) →
      NeverStarts s) ∧
    ∀ t, s.Returned t .join → Ended s ∨ NeverStarts s := by
  have hbegins : (protocol ι E).Obeys begins (newWorker ι E).recorded.counted.toState := by
    rintro (i | w)
    · exact rfl
    · exact .inl rfl
  obtain ⟨φ, hobeys, hsound⟩ := sound_of_reachable hbegins Sound.new h
  refine ⟨⟨hsound.once, fun t ht => ?_⟩, ended_or_neverStarts hobeys hsound, fun i hi => ?_,
    fun t ht => ?_⟩
  · have hφ := starting_of_head hobeys ht
    have hknows := hsound.knows t
    rw [hφ] at hknows
    refine ⟨hknows.2, fun u hu => ?_⟩
    have hφu := starting_of_head hobeys hu
    have hheld := hsound.holds t (by simp [hφ, Phase.holds])
    have hheldu := hsound.holds u (by simp [hφu, Phase.holds])
    exact Option.some.inj (hheldu.symm.trans hheld)
  · obtain ⟨ψ, hψ⟩ := (hobeys (.client i)).trans_of_head hi (by simp) ()
    have hsentenced : φ (.client i) = .sentenced := by
      have hruns := hsound.runs i
      cases hφ : φ (.client i) <;>
        simp [hφ, protocol, step, Phase.allows, Phase.dies] at hψ hruns ⊢
    have hknows := hsound.knows (.client i)
    rw [hsentenced] at hknows
    exact neverStarts hobeys hsound hknows
  · apply ended_or_neverStarts hobeys hsound
    rcases ht with htail | ⟨hcalled, hhead⟩
    · exact hsound.returned t htail
    · refine (hsound.joined t hcalled).resolve_left fun hφ => ?_
      obtain ⟨-, hfinal⟩ := (hobeys t).post_of_head hhead
      cases t with
      | client i =>
          have hfinal : φ (.client i) = .out := hfinal
          simp [hφ] at hfinal
      | worker w =>
          have hfinal : φ (.worker w) = .unborn ∨ φ (.worker w) = .dead := hfinal
          simp [hφ] at hfinal

/-- A client stops a worker that was not started, and joins it. -/
theorem ended_or_neverStarts_of_stop :
    ∃ s : CountedState (OneWorker.names (Fin 1) Unit) (Memory (Fin 1)),
      s.Returned (.client 0) .join ∧ (Ended s ∨ NeverStarts s) := by
  obtain ⟨s, hs, hreturned⟩ := (oneWorker (Fin 1) Unit).recording.exists_of_followCounted
    (newWorker (Fin 1) Unit).recorded.counted (fun _ _ => True)
    (fun s => s.Returned (.client 0) .join)
    (.label (.enter (.client 0) .stop) :: List.replicate 14 (.label (.step (.client 0) .go)) ++
      [.label (.enter (.client 0) .join), .label (.step (.client 0) .go)]) (by decide +kernel)
  exact ⟨s, hreturned, (lifecycle hs.of_restrict).2.2.2 _ hreturned⟩

end HPQueue
