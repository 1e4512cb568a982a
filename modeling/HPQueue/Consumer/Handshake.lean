import HPQueue.Consumer.Order
import HPQueue.Consumer.PauseWaits

/-!
# What a step can do about a pause

The steps of workers and of those who start, pause and resume the processor: one
constructor for each that leaves the phase or touches what matters.

## Main results

* `turn_of_step` — these are the steps there are.
* `Turn.attends`, `Turn.holds` — who is in which phase, and which mutexes are held there.
-/

namespace HPQueue

open Library.Threads Prog

variable {ι : Type} {n : Nat} {E : Type}

namespace PauseWaits

open Phase
open Attendance (written Sees)

/-- Who is in which phase. -/
def Attends : Thread ι n → Phase n → Prop
  | .worker _, unborn | .worker _, fresh | .worker _, calm | .worker _, running
  | .worker _, checking | .worker _, looked | .worker _, flagged | .worker _, waiting
  | .worker _, woken | .worker _, entering | .worker _, seen | .worker _, idling
  | .worker _, told | .worker _, parked | .worker _, unparked | .worker _, leaving
  | .worker _, parting | .worker _, announcing | .worker _, parted | .worker _, gone => True
  | .client _, out | .client _, startCalled | .client _, startHeld | .client _, found
  | .client _, opening _ | .client _, making _ | .client _, vacant _ _ | .client _, launching _ _
  | .client _, opened | .client _, held | .client _, locked | .client _, pausing _
  | .client _, pausable _ | .client _, owing _ | .client _, telling _ | .client _, waking _
  | .client _, signalled _ | .client _, marked _ | .client _, busy _ | .client _, ready _
  | .client _, awaiting _ | .client _, freeing _ => True
  | _, _ => False

/-- The mutexes that matter here. -/
def Holds : Thread ι n → Phase n → Lock n → Prop
  | .worker w, checking, l | .worker w, looked, l | .worker w, flagged, l
  | .worker w, woken, l => l = .isWorkLock w
  | .worker w, entering, l | .worker w, seen, l | .worker w, idling, l | .worker w, told, l
  | .worker w, unparked, l | .worker w, parting, l | .worker w, announcing, l
  | .worker w, parted, l => l = .hasPausedLock w
  | .client _, startHeld, l | .client _, found, l | .client _, opening _, l
  | .client _, opened, l | .client _, held, l => l = .startLock
  | .client _, making _, l | .client _, vacant _ _, l | .client _, launching _ _, l
  | .client _, locked, l | .client _, awaiting _, l => l = .startLock ∨ l = .workerLock
  | .client _, pausing v, l | .client _, pausable v, l | .client _, owing v, l
  | .client _, marked v, l | .client _, busy v, l | .client _, ready v, l
  | .client _, freeing v, l => (l = .startLock ∨ l = .workerLock) ∨ l = .hasPausedLock v
  | .client _, telling v, l | .client _, waking v, l | .client _, signalled v, l =>
      ((l = .startLock ∨ l = .workerLock) ∨ l = .hasPausedLock v) ∨ l = .isWorkLock v
  | _, _, _ => False

/-- The flags that matter here. -/
def Watched : Flag n → Prop
  | .isRunningFlag | .isTerminatedFlag | .cleared => True
  | .worker _ .isStartedFlag | .worker _ .isPausedFlag | .worker _ .isIdleFlag
  | .worker _ .isTerminatedFlag | .worker _ .isWaitingFlag => True
  | _ => False

/-- What may be stored where nothing else is. -/
def Quiet (φ : Phase n) : Store n → Prop
  | .flag .resizing _ => φ = out
  | .flag f _ => ¬ Watched f
  | .newWorker _ => False
  | _ => True

/-- What leaves the phase as it is. -/
def Plain (t : Thread ι n) (φ : Phase n) : Op (names ι n E) → Prop
  | .acquire _ | .load _ | .ask _ => True
  | .release l => ¬ Holds t φ l
  | .wait c l => c = .isResizingCond ∧ ¬ Holds t φ l
  | .resume c _ => c = .isResizingCond
  | .signal c => (∀ w, c ≠ .hasPaused w) ∧ ∀ w, c ≠ .isIdle w
  | .broadcast _ => True
  | .store x => Quiet φ x
  | _ => False

/-- What a worker does. -/
inductive Works (w : Fin n) : Phase n → (o : Op (names ι n E)) → o.Result → Phase n → Prop
  | init (a : Int) : Works w fresh (.ask (.init w)) a calm
  | glance (b : Bool) :
      Works w calm (.load (.flag (.worker w .isPausedFlag))) b (if b then calm else running)
  | glanceAgain (b : Bool) :
      Works w running (.load (.flag (.worker w .isPausedFlag))) b (if b then calm else running)
  | check : Works w running (.acquire (.isWorkLock w)) () checking
  | look (b : Bool) :
      Works w checking (.load (.flag (.worker w .isPausedFlag))) b (if b then checking else looked)
  | flag : Works w looked (.store (.flag (.worker w .isWaitingFlag) true)) () flagged
  | wait : Works w flagged (.wait (.isWorkWaiting w) (.isWorkLock w)) () waiting
  | wake : Works w waiting (.resume (.isWorkWaiting w) (.isWorkLock w)) () woken
  | unflag : Works w woken (.store (.flag (.worker w .isWaitingFlag) false)) () woken
  | uncheck : Works w checking (.release (.isWorkLock w)) () running
  | rouse : Works w woken (.release (.isWorkLock w)) () calm
  | enter : Works w calm (.acquire (.hasPausedLock w)) () entering
  | see (b : Bool) :
      Works w entering (.load (.flag (.worker w .isPausedFlag))) b (if b then seen else entering)
  | idle : Works w seen (.store (.flag (.worker w .isIdleFlag) true)) () idling
  | tell : Works w idling (.signal (.isIdle w)) () told
  | park : Works w told (.wait (.hasPaused w) (.hasPausedLock w)) () parked
  | unpark : Works w parked (.resume (.hasPaused w) (.hasPausedLock w)) () unparked
  | rise : Works w unparked (.store (.flag (.worker w .isIdleFlag) false)) () entering
  | leave : Works w entering (.release (.hasPausedLock w)) () calm
  | fail : Works w running (.store (.flag (.worker w .isTerminatedFlag) true)) () leaving
  | part : Works w leaving (.acquire (.hasPausedLock w)) () parting
  | find (b : Bool) :
      Works w parting (.load (.flag (.worker w .isPausedFlag))) b
        (if b then announcing else parted)
  | announce : Works w announcing (.signal (.isIdle w)) () parted
  | lower : Works w parted (.store (.flag (.worker w .isIdleFlag) false)) () parted
  | go : Works w parted (.release (.hasPausedLock w)) () gone
  | drop : Works w gone (.store (.flag (.worker w .isWaitingFlag) false)) () gone

/-- What those do who start, pause and resume the processor. -/
inductive Controls : Phase n → (o : Op (names ι n E)) → o.Result → Phase n → Prop
  | hold : Controls out (.acquire .startLock) () held
  | call : Controls startCalled (.acquire .startLock) () startHeld
  | isRunning (b : Bool) :
      Controls startHeld (.load (.flag .isRunningFlag)) b (if b then opening [] else found)
  | run : Controls found (.store (.flag .isRunningFlag true)) () (opening (List.finRange n))
  | lockWorkers (ws : List (Fin n)) : Controls (opening ws) (.acquire .workerLock) () (making ws)
  | construct (w : Fin n) (ws : List (Fin n)) :
      Controls (making (w :: ws)) (.store (.newWorker w)) () (making ws)
  | find (w : Fin n) {ws : List (Fin n)} (hw : w ∉ ws) (b : Bool) :
      Controls (making ws) (.load (.flag (.worker w .isStartedFlag))) b
        (if b then making ws else vacant w ws)
  | findAgain (w : Fin n) (ws : List (Fin n)) (b : Bool) :
      Controls (vacant w ws) (.load (.flag (.worker w .isStartedFlag))) b
        (if b then making ws else vacant w ws)
  | launch (w : Fin n) (ws : List (Fin n)) :
      Controls (vacant w ws) (.store (.flag (.worker w .isStartedFlag) true)) ()
        (launching w ws)
  | unlockWorkers : Controls (making []) (.release .workerLock) () opened
  | opened : Controls opened (.release .startLock) () out
  | lock : Controls held (.acquire .workerLock) () locked
  | unlock : Controls locked (.release .workerLock) () held
  | unhold : Controls held (.release .startLock) () out
  | pause (w : Fin n) : Controls locked (.acquire (.hasPausedLock w)) () (pausing w)
  | able (w : Fin n) (b : Bool) :
      Controls (pausing w) (.load (.flag (.worker w .isTerminatedFlag))) b
        (if b then pausing w else pausable w)
  | isPaused (w : Fin n) (b : Bool) :
      Controls (pausable w) (.load (.flag (.worker w .isPausedFlag))) b
        (if b then marked w else pausable w)
  | mark (w : Fin n) :
      Controls (pausable w) (.store (.flag (.worker w .isPausedFlag) true)) () (owing w)
  | tell (w : Fin n) : Controls (owing w) (.acquire (.isWorkLock w)) () (telling w)
  | hear (w : Fin n) (b : Bool) :
      Controls (telling w) (.load (.flag (.worker w .isWaitingFlag))) b
        (if b then waking w else signalled w)
  | signal (w : Fin n) : Controls (waking w) (.signal (.isWorkWaiting w)) () (signalled w)
  | told (w : Fin n) : Controls (signalled w) (.release (.isWorkLock w)) () (marked w)
  | isIdle (w : Fin n) (b : Bool) :
      Controls (marked w) (.load (.flag (.worker w .isIdleFlag))) b
        (if b then marked w else busy w)
  | isStarted (w : Fin n) (b : Bool) :
      Controls (busy w) (.load (.flag (.worker w .isStartedFlag))) b
        (if b then ready w else busy w)
  | await (w : Fin n) :
      Controls (ready w) (.wait (.isIdle w) (.hasPausedLock w)) () (awaiting w)
  | back (w : Fin n) :
      Controls (awaiting w) (.resume (.isIdle w) (.hasPausedLock w)) () (pausing w)
  | free (w : Fin n) :
      Controls (pausing w) (.store (.flag (.worker w .isPausedFlag) false)) () (freeing w)
  | freed (w : Fin n) : Controls (freeing w) (.signal (.hasPaused w)) () (pausing w)
  | leave {w : Fin n} {φ : Phase n}
      (hφ : φ = pausing w ∨ φ = pausable w ∨ φ = marked w ∨ φ = busy w) :
      Controls φ (.release (.hasPausedLock w)) () locked

/-- What a step is about. -/
inductive Turn (t : Thread ι n) (φ : Phase n) (o : Op (names ι n E)) (r : o.Result) :
    Phase n → Prop
  | works {w : Fin n} {ψ : Phase n} (ht : t = .worker w) (h : Works w φ o r ψ) : Turn t φ o r ψ
  | controls {i : ι} {ψ : Phase n} (ht : t = .client i) (h : Controls φ o r ψ) : Turn t φ o r ψ
  | stays (hrests : φ.rests = false) (h : Plain t φ o) : Turn t φ o r φ

variable [DecidableEq ι] {t : Thread ι n} {φ ψ : Phase n}

theorem of_guard {α : Type} {c : Prop} [Decidable c] {a b : α}
    (h : (if c then some a else none) = some b) : c ∧ a = b := by
  simpa using h

/-- Nobody is where a test is not to lead. -/
theorem of_ne_never {b : Bool} (hψ : ψ ≠ never) (h : (if b then never else φ) = ψ) :
    φ = ψ := by
  cases b with
  | true => exact absurd h.symm hψ
  | false => exact h

theorem turn_acquires {l : Lock n} (hφ : Attends t φ) (hrests : φ.rests = false)
    (h : acquires t φ l = some ψ) : Turn t φ (.acquire l : Op (names ι n E)) () ψ := by
  cases l with
  | isWorkLock v =>
      cases t <;> cases φ <;> simp [acquires, Attends] at hφ h
      · subst h
        exact .stays hrests trivial
      · obtain ⟨rfl, rfl⟩ := h
        exact .controls rfl (.tell v)
      · obtain ⟨rfl, rfl⟩ := h
        exact .works rfl .check
      · subst h
        exact .stays hrests trivial
  | hasPausedLock v =>
      cases t <;> cases φ <;> simp [acquires, Attends] at hφ h
      · subst h
        exact .controls rfl (.pause v)
      · obtain ⟨rfl, rfl⟩ := h
        exact .works rfl .enter
      · obtain ⟨rfl, rfl⟩ := h
        exact .works rfl .part
  | workerLock =>
      cases t <;> cases φ <;> simp [acquires, Attends] at hφ h <;> subst h
      · exact .stays hrests trivial
      · exact .controls rfl (.lockWorkers _)
      · exact .controls rfl .lock
  | startLock =>
      cases t <;> cases φ <;> simp [acquires, Attends] at hφ h <;> subst h
      · exact .controls rfl .hold
      · exact .controls rfl .call
  | resizeQueuesLock =>
      obtain ⟨rfl, rfl⟩ : φ = out ∧ out = ψ := by simpa [acquires] using h
      exact .stays hrests trivial
  | workerStartLock v | hasDiedLock v =>
      obtain rfl : φ = ψ := by simpa [acquires] using h
      exact .stays hrests trivial

theorem turn_releases {l : Lock n} (hφ : Attends t φ) (hrests : φ.rests = false)
    (h : releases t φ l = some ψ) : Turn t φ (.release l : Op (names ι n E)) () ψ := by
  cases l with
  | isWorkLock v =>
      cases t <;> cases φ <;> simp [releases, Attends] at hφ h
      · subst h
        exact .stays hrests not_false
      · obtain ⟨rfl, rfl⟩ := h
        exact .controls rfl (.told v)
      · obtain ⟨rfl, rfl⟩ := h
        exact .works rfl .uncheck
      · obtain ⟨rfl, rfl⟩ := h
        exact .works rfl .rouse
      · subst h
        exact .stays hrests not_false
  | hasPausedLock v =>
      cases t <;> cases φ <;> simp [releases, Attends] at hφ h
      · obtain ⟨rfl, rfl⟩ := h
        exact .controls rfl (.leave (.inl rfl))
      · obtain ⟨rfl, rfl⟩ := h
        exact .controls rfl (.leave (.inr (.inl rfl)))
      · obtain ⟨rfl, rfl⟩ := h
        exact .controls rfl (.leave (.inr (.inr (.inl rfl))))
      · obtain ⟨rfl, rfl⟩ := h
        exact .controls rfl (.leave (.inr (.inr (.inr rfl))))
      · obtain ⟨rfl, rfl⟩ := h
        exact .works rfl .leave
      · obtain ⟨rfl, rfl⟩ := h
        exact .works rfl .go
  | workerLock =>
      simp only [releases] at h
      split at h <;> cases t <;> simp [Attends] at hφ h <;> subst h
      · exact .stays hrests not_false
      · exact .controls rfl .unlockWorkers
      · exact .controls rfl .unlock
  | startLock =>
      cases t <;> cases φ <;> simp [releases, Attends] at hφ h <;> subst h
      · exact .controls rfl .opened
      · exact .controls rfl .unhold
  | resizeQueuesLock =>
      obtain ⟨rfl, rfl⟩ : φ = out ∧ out = ψ := by simpa [releases] using h
      exact .stays hrests (by cases t <;> exact not_false)
  | workerStartLock v | hasDiedLock v =>
      obtain rfl : φ = ψ := by simpa [releases] using h
      exact .stays hrests (by cases t <;> cases φ <;> simp [Plain, Holds])

theorem turn_waits {c : Cond n} {l : Lock n} (hφ : Attends t φ) (hrests : φ.rests = false)
    (h : waits t φ c l = some ψ) : Turn t φ (.wait c l : Op (names ι n E)) () ψ := by
  unfold waits at h
  split at h
  · rename_i v v'
    obtain ⟨⟨rfl, rfl, rfl⟩, rfl⟩ : (t = .worker v ∧ v' = v ∧ φ = flagged) ∧ waiting = ψ := by
      simpa using h
    exact .works rfl .wait
  · rename_i v v'
    obtain ⟨⟨rfl, rfl, rfl⟩, rfl⟩ : (t = .worker v ∧ v' = v ∧ φ = Phase.told) ∧ parked = ψ := by
      simpa using h
    exact .works rfl .park
  · rename_i v v'
    obtain ⟨⟨rfl, rfl⟩, rfl⟩ : (v' = v ∧ φ = ready v) ∧ awaiting v = ψ := by simpa using h
    cases t with
    | worker w => cases hφ
    | client i => exact .controls rfl (.await _)
  · obtain ⟨rfl, rfl⟩ : φ = out ∧ out = ψ := by simpa using h
    exact .stays hrests ⟨rfl, by cases t <;> exact not_false⟩
  · cases h

theorem turn_resumes {c : Cond n} {l : Lock n} (hφ : Attends t φ)
    (h : resumes t φ c l = some ψ) : Turn t φ (.resume c l : Op (names ι n E)) () ψ := by
  unfold resumes at h
  split at h
  · rename_i v v'
    obtain ⟨⟨rfl, rfl, rfl⟩, rfl⟩ : (t = .worker v ∧ v' = v ∧ φ = waiting) ∧ woken = ψ := by
      simpa using h
    exact .works rfl .wake
  · rename_i v v'
    obtain ⟨⟨rfl, rfl, rfl⟩, rfl⟩ : (t = .worker v ∧ v' = v ∧ φ = parked) ∧ unparked = ψ := by
      simpa using h
    exact .works rfl .unpark
  · rename_i v v'
    obtain ⟨⟨rfl, rfl⟩, rfl⟩ : (v' = v ∧ φ = awaiting v) ∧ pausing v = ψ := by simpa using h
    cases t with
    | worker w => cases hφ
    | client i => exact .controls rfl (.back _)
  · obtain ⟨rfl, rfl⟩ : φ = out ∧ out = ψ := by simpa using h
    exact .stays rfl rfl
  · cases h

theorem turn_signals {c : Cond n} (hφ : Attends t φ) (hrests : φ.rests = false)
    (h : signals t φ c = some ψ) : Turn t φ (.signal c : Op (names ι n E)) () ψ := by
  cases c with
  | isWorkWaiting v =>
      cases t <;> cases φ <;> simp [signals, Attends] at hφ h
      · subst h
        exact .stays hrests ⟨by simp, by simp⟩
      · obtain ⟨rfl, rfl⟩ := h
        exact .controls rfl (.signal v)
  | hasPaused v =>
      cases t <;> cases φ <;> simp [signals, Attends] at hφ h
      obtain ⟨rfl, rfl⟩ := h
      exact .controls rfl (.freed v)
  | isIdle v =>
      cases t <;> cases φ <;> simp [signals, Attends] at hφ h
      · obtain ⟨rfl, rfl⟩ := h
        exact .works rfl .tell
      · obtain ⟨rfl, rfl⟩ := h
        exact .works rfl .announce
  | isResizingCond | hasDied v =>
      obtain rfl : φ = ψ := by simpa [signals] using h
      exact .stays hrests ⟨by simp, by simp⟩

theorem turn_broadcasts {c : Cond n} (hrests : φ.rests = false)
    (h : broadcasts t φ c = some ψ) : Turn t φ (.broadcast c : Op (names ι n E)) () ψ := by
  have hstays : φ = ψ → Turn t φ (.broadcast c : Op (names ι n E)) () ψ := by
    rintro rfl
    exact .stays hrests trivial
  cases c with
  | isWorkWaiting v =>
      apply hstays
      cases φ <;> simp [broadcasts] at h ⊢
      · exact h.2
      · exact h
  | isResizingCond => exact hstays (by simpa [broadcasts] using h)
  | hasDied v | hasPaused v | isIdle v => simp [broadcasts] at h

theorem turn_loads {x : Load n} {b : Bool} (hφ : Attends t φ) (hrests : φ.rests = false)
    (hψ : ψ ≠ never) (h : loads t φ b x = some ψ) :
    Turn t φ (.load x : Op (names ι n E)) b ψ := by
  have hstays : φ = ψ → Turn t φ (.load x : Op (names ι n E)) b ψ := by
    rintro rfl
    exact .stays hrests trivial
  unfold loads at h
  split at h
  · rename_i v
    split at h
    · obtain ⟨rfl, rfl⟩ := of_guard h
      exact .works rfl (.glance b)
    · obtain ⟨rfl, rfl⟩ := of_guard h
      exact .works rfl (.glanceAgain b)
    · obtain ⟨rfl, rfl⟩ := of_guard h
      exact .works rfl (.look b)
    · obtain ⟨rfl, rfl⟩ := of_guard h
      exact .works rfl (.see b)
    · obtain ⟨rfl, rfl⟩ := of_guard h
      exact .works rfl (.find b)
    · obtain ⟨rfl, rfl⟩ := of_guard h
      cases t with
      | worker w => cases hφ
      | client i => exact .controls rfl (.isPaused _ b)
    · exact hstays (Option.some.inj h)
  · rename_i v
    split at h
    · exact hstays (of_ne_never hψ (of_guard h).2)
    · exact hstays (of_ne_never hψ (of_guard h).2)
    · exact hstays (of_ne_never hψ (of_guard h).2)
    · exact hstays (of_ne_never hψ (of_guard h).2)
    · obtain ⟨rfl, rfl⟩ := of_guard h
      cases t with
      | worker w => cases hφ
      | client i => exact .controls rfl (.able _ b)
    · exact hstays (of_ne_never hψ (of_guard h).2)
    · exact hstays (Option.some.inj h)
  · rename_i v
    split at h
    · obtain ⟨rfl, rfl⟩ := of_guard h
      cases t with
      | worker w => cases hφ
      | client i => exact .controls rfl (.hear _ b)
    · exact hstays (Option.some.inj h)
  · rename_i v
    split at h
    · obtain ⟨rfl, rfl⟩ := of_guard h
      cases t with
      | worker w => cases hφ
      | client i => exact .controls rfl (.isIdle _ b)
    · exact hstays (Option.some.inj h)
  · rename_i v
    cases t with
    | worker w =>
        split at h <;> simp only [Attends] at hφ
        exact hstays (Option.some.inj h)
    | client i =>
        split at h
        · rename_i ws
          obtain ⟨hv, h⟩ := Option.ite_none_left_eq_some.mp h
          obtain rfl := Option.some.inj h
          exact .controls rfl (.find v hv b)
        · obtain ⟨rfl, rfl⟩ := of_guard h
          exact .controls rfl (.findAgain _ _ b)
        · obtain ⟨rfl, rfl⟩ := of_guard h
          exact .controls rfl (.isStarted _ b)
        · exact hstays (Option.some.inj h)
  · split at h
    · obtain rfl := Option.some.inj h
      cases t with
      | worker w => cases hφ
      | client i => exact .controls rfl (.isRunning b)
    · exact hstays (Option.some.inj h)
  · split at h
    · exact hstays (of_ne_never hψ (Option.some.inj h))
    · exact hstays (of_ne_never hψ (Option.some.inj h))
    · exact hstays (Option.some.inj h)
  · exact hstays (of_ne_never hψ (Option.some.inj h))
  · exact hstays (Option.some.inj h)

theorem turn_stores {x : Store n} (hφ : Attends t φ) (hrests : φ.rests = false)
    (h : stores t φ x = some ψ) : Turn t φ (.store x : Op (names ι n E)) () ψ := by
  unfold stores at h
  split at h
  · rename_i v b
    split at h <;> cases t <;> simp [Attends] at hφ h
    · obtain ⟨rfl, rfl⟩ := h
      exact .controls rfl (.mark _)
    · obtain ⟨rfl, rfl⟩ := h
      exact .controls rfl (.free _)
  · rename_i v b
    split at h <;> cases t <;> simp [Attends] at hφ h
    · obtain ⟨rfl, rfl⟩ := h
      exact .works rfl .idle
    · obtain ⟨rfl, rfl⟩ := h
      exact .works rfl .rise
    · obtain ⟨rfl, rfl⟩ := h
      exact .works rfl .lower
  · rename_i v b
    split at h <;> cases t <;> simp [Attends] at hφ h
    · obtain ⟨rfl, rfl⟩ := h
      exact .works rfl .flag
    · obtain ⟨rfl, rfl⟩ := h
      exact .works rfl .unflag
    · obtain ⟨rfl, rfl⟩ := h
      exact .works rfl .drop
  · rename_i v b
    split at h <;> cases t <;> simp [Attends] at hφ h
    obtain ⟨rfl, rfl⟩ := h
    exact .works rfl .fail
  · rename_i v b
    split at h <;> cases t <;> simp [Attends] at hφ h
    obtain ⟨rfl, rfl⟩ := h
    exact .controls rfl (.launch _ _)
  · rename_i b
    split at h <;> cases t <;> simp [Attends] at hφ h
    subst h
    exact .controls rfl .run
  · cases h
  · cases h
  · obtain ⟨rfl, rfl⟩ : φ = out ∧ out = ψ := by simpa using h
    exact .stays hrests rfl
  · rename_i v
    split at h <;> cases t <;> simp [Attends] at hφ h
    obtain ⟨rfl, rfl⟩ := h
    exact .controls rfl (.construct _ _)
  · rename_i hpaused hidle hwaiting hfailed hstarted hrunning hterminated hcleared hresizing hnew
    obtain rfl : φ = ψ := by simpa using h
    refine .stays hrests ?_
    cases x with
    | flag f b =>
        cases f with
        | isRunningFlag => exact absurd rfl (hrunning b)
        | isTerminatedFlag => exact absurd rfl (hterminated b)
        | cleared => exact absurd rfl (hcleared b)
        | worker v g =>
            cases g with
            | isWaitingFlag => exact absurd rfl (hwaiting v b)
            | isTerminatedFlag => exact absurd rfl (hfailed v b)
            | isStartedFlag => exact absurd rfl (hstarted v b)
            | isPausedFlag => exact absurd rfl (hpaused v b)
            | isIdleFlag => exact absurd rfl (hidle v b)
            | isDeadFlag | haveWorkJoiners => exact not_false
        | resizing => exact absurd rfl (hresizing b)
        | isPausedFlag | processingWorker v => exact not_false
    | addingCount d | nestedPauseCounter d => trivial
    | newWorker v => exact absurd rfl (hnew v)

theorem turn_asks {q : Query n E} {a : Int} (hrests : φ.rests = false)
    (h : asks t φ q = some ψ) : Turn t φ (.ask q : Op (names ι n E)) a ψ := by
  have hstays : φ = ψ → Turn t φ (.ask q : Op (names ι n E)) a ψ := by
    rintro rfl
    exact .stays hrests trivial
  cases q with
  | init v =>
      obtain ⟨⟨rfl, rfl⟩, rfl⟩ : (t = .worker v ∧ φ = fresh) ∧ calm = ψ := by
        simpa [asks] using h
      exact .works rfl (.init a)
  | remove v | handle v | isWork v | finalize v =>
      obtain ⟨⟨-, hφ⟩, hψ⟩ := of_guard h
      exact hstays (hφ.trans hψ)
  | add entry | isMaxSize | resize | started v => exact hstays (Option.some.inj h)

/-- What a step can do, as long as nobody stops the processor. -/
theorem turn_of_step {o : Op (names ι n E)} {r : o.Result} (hφ : Attends t φ) (hψ : ψ ≠ never)
    (hspawn : ∀ u, o ≠ .spawn u) (h : step t φ o r = some ψ) : Turn t φ o r ψ := by
  have hne : φ ≠ never := by
    rintro rfl
    cases t <;> cases hφ
  unfold step at h
  rw [if_neg hne] at h
  cases o with
  | resume c l => exact turn_resumes hφ h
  | call p => cases h
  | spawn u => exact absurd rfl (hspawn u)
  | acquire l =>
      obtain ⟨hrests, h⟩ := Option.ite_none_left_eq_some.mp h
      exact turn_acquires hφ (by simpa using hrests) h
  | release l =>
      obtain ⟨hrests, h⟩ := Option.ite_none_left_eq_some.mp h
      exact turn_releases hφ (by simpa using hrests) h
  | wait c l =>
      obtain ⟨hrests, h⟩ := Option.ite_none_left_eq_some.mp h
      exact turn_waits hφ (by simpa using hrests) h
  | signal c =>
      obtain ⟨hrests, h⟩ := Option.ite_none_left_eq_some.mp h
      exact turn_signals hφ (by simpa using hrests) h
  | broadcast c =>
      obtain ⟨hrests, h⟩ := Option.ite_none_left_eq_some.mp h
      exact turn_broadcasts (by simpa using hrests) h
  | load x =>
      obtain ⟨hrests, h⟩ := Option.ite_none_left_eq_some.mp h
      exact turn_loads hφ (by simpa using hrests) hψ h
  | store x =>
      obtain ⟨hrests, h⟩ := Option.ite_none_left_eq_some.mp h
      exact turn_stores hφ (by simpa using hrests) h
  | ask q =>
      obtain ⟨hrests, h⟩ := Option.ite_none_left_eq_some.mp h
      exact turn_asks (by simpa using hrests) h

/-! ## What leads nowhere -/

/-- A worker that finds itself terminated, and a client that finds so what it is to start,
or finds the processor terminated. -/
inductive Dooms (t : Thread ι n) (φ : Phase n) : Load n → Prop
  | isTerminatedFlag : Dooms t φ (.flag .isTerminatedFlag)
  | cleared : Dooms t φ (.flag .cleared)
  | own {w : Fin n} (ht : t = .worker w)
      (hφ : φ = calm ∨ φ = running ∨ φ = checking ∨ φ = seen) :
      Dooms t φ (.flag (.worker w .isTerminatedFlag))
  | vacant {w : Fin n} {ws : List (Fin n)} (hφ : φ = vacant w ws) :
      Dooms t φ (.flag (.worker w .isTerminatedFlag))

theorem dooms_of_loads {x : Load n} {b : Bool} (hφ : φ ≠ never)
    (h : loads t φ b x = some never) : Dooms t φ x ∧ b = true := by
  have htest : (if b then never else φ) = never → b = true := by
    intro h
    cases b with
    | true => rfl
    | false => exact absurd h hφ
  have hstays : some φ ≠ some never := fun h => hφ (Option.some.inj h)
  unfold loads at h
  split at h
  · split at h <;> cases b <;> simp at h
    all_goals exact absurd h hφ
  · split at h
    · obtain ⟨rfl, hb⟩ := of_guard h
      exact ⟨.own rfl (by simp), htest hb⟩
    · obtain ⟨rfl, hb⟩ := of_guard h
      exact ⟨.own rfl (by simp), htest hb⟩
    · obtain ⟨rfl, hb⟩ := of_guard h
      exact ⟨.own rfl (by simp), htest hb⟩
    · obtain ⟨rfl, hb⟩ := of_guard h
      exact ⟨.own rfl (by simp), htest hb⟩
    · cases b <;> simp at h
    · obtain ⟨rfl, hb⟩ := of_guard h
      exact ⟨.vacant rfl, htest hb⟩
    · exact absurd h hstays
  · split at h
    · cases b <;> simp at h
    · exact absurd h hstays
  · split at h
    · cases b <;> simp at h
    · exact absurd h hstays
  · split at h
    · cases b <;> simp at h
    · cases b <;> simp at h
    · cases b <;> simp at h
    · exact absurd h hstays
  · split at h
    · cases b <;> simp at h
    · exact absurd h hstays
  · split at h
    · exact ⟨.isTerminatedFlag, htest (Option.some.inj h)⟩
    · exact ⟨.isTerminatedFlag, htest (Option.some.inj h)⟩
    · exact absurd h hstays
  · exact ⟨.cleared, htest (Option.some.inj h)⟩
  · exact absurd h hstays

/-- Only such a test leads to `never`. -/
theorem dooms_of_step {o : Op (names ι n E)} {r : o.Result} {m : Control ι n} (hφ : φ ≠ never)
    (hsees : Sees m o r) (h : step t φ o r = some never) :
    ∃ x, Dooms t φ x ∧ m.load x = true := by
  unfold step at h
  rw [if_neg hφ] at h
  cases o with
  | load x =>
      obtain ⟨hdooms, hb⟩ := dooms_of_loads hφ (Option.ite_none_left_eq_some.mp h).2
      exact ⟨x, hdooms, hsees.symm.trans hb⟩
  | call p => cases h
  | acquire l =>
      obtain ⟨-, h⟩ := Option.ite_none_left_eq_some.mp h
      cases l <;> cases φ <;> simp_all [acquires]
  | release l =>
      obtain ⟨-, h⟩ := Option.ite_none_left_eq_some.mp h
      unfold releases at h
      split at h <;> (try split at h) <;> simp_all
  | wait c l =>
      obtain ⟨-, h⟩ := Option.ite_none_left_eq_some.mp h
      cases c <;> cases l <;> simp_all [waits]
  | resume c l => cases c <;> cases l <;> simp_all [resumes]
  | signal c =>
      obtain ⟨-, h⟩ := Option.ite_none_left_eq_some.mp h
      cases c <;> cases φ <;> simp_all [signals]
  | broadcast c =>
      obtain ⟨-, h⟩ := Option.ite_none_left_eq_some.mp h
      cases c <;> cases φ <;> simp_all [broadcasts]
  | store x =>
      obtain ⟨-, h⟩ := Option.ite_none_left_eq_some.mp h
      unfold stores at h
      split at h <;> (try split at h) <;> simp_all
  | ask q =>
      obtain ⟨-, h⟩ := Option.ite_none_left_eq_some.mp h
      cases q <;> simp_all [asks]
  | spawn u =>
      obtain ⟨-, h⟩ := Option.ite_none_left_eq_some.mp h
      cases u <;> cases φ <;> simp_all [spawns]

/-! ## What it preserves -/

variable {o : Op (names ι n E)} {r : o.Result}

omit [DecidableEq ι] in
theorem Turn.attends (h : Turn t φ o r ψ) (hφ : Attends t φ) : Attends t ψ := by
  cases h with
  | works ht h =>
      subst ht
      cases h with
      | glance b | glanceAgain b | look b | see b | find b => cases b <;> trivial
      | _ => trivial
  | controls ht h =>
      subst ht
      cases h with
      | isRunning b | find w hw b | findAgain w ws b | able w b | isPaused w b | hear w b
      | isIdle w b | isStarted w b => cases b <;> trivial
      | _ => trivial
  | stays hrests h => exact hφ

omit [DecidableEq ι] in
/-- A mutex is held from the step that acquires it to the one that releases it. -/
theorem Turn.holds {l : Lock n} (h : Turn t φ o r ψ) (hl : Holds t ψ l) :
    (o = .acquire l ∨ ∃ c, o = .resume c l) ∨
      Holds t φ l ∧ o ≠ .release l ∧ ∀ c, o ≠ .wait c l := by
  cases h with
  | works ht h =>
      subst ht
      cases h with
      | glance b | glanceAgain b => cases b <;> simp [Holds] at hl
      | look b | see b | find b => cases b <;> simpa [Holds] using hl
      | _ => simp_all [Holds]
  | controls ht h =>
      subst ht
      cases h with
      | isRunning b | find w hw b | findAgain w ws b | able w b | isPaused w b | hear w b
      | isIdle w b | isStarted w b => cases b <;> simpa [Holds] using hl
      | lockWorkers ws | lock | await w => rcases hl with rfl | rfl <;> simp [Holds]
      | pause w | told w | back w => rcases hl with (rfl | rfl) | rfl <;> simp [Holds]
      | tell w => rcases hl with ((rfl | rfl) | rfl) | rfl <;> simp [Holds]
      | leave hφ =>
          rcases hl with rfl | rfl
          all_goals rcases hφ with rfl | rfl | rfl | rfl <;> simp [Holds]
      | _ => simp_all [Holds]
  | stays hrests h =>
      refine .inr ⟨hl, ?_, ?_⟩
      · rintro rfl
        exact h hl
      · rintro c rfl
        exact h.2 hl

end PauseWaits

end HPQueue
