import HPQueue.Consumer.Attendance

/-!
# What a step can do

The steps of workers, of producers and of those who start the processor, as long as
nobody stops it: one constructor for each that leaves the phase or touches what matters.

## Main results

* `turn_of_step` — these are the steps there are.
* `Turn.attends`, `Turn.holds` — who is in which phase, and which mutexes are held there.
-/

namespace HPQueue

open Library.Threads Prog

variable {ι : Type} {n : Nat} {E : Type}

namespace Attendance

open Phase

/-! ## What a step can do -/

/-- Who is in which phase, until the processor is stopped. -/
def Attends : Thread ι n → Phase n → Prop
  | .worker _, absent => True
  | .worker _, fresh => True
  | .worker _, idle => True
  | .worker _, taken => True
  | .worker _, locked => True
  | .worker _, empty => True
  | .worker _, marked => True
  | .worker _, waiting => True
  | .worker _, woken => True
  | .worker _, rounding => True
  | .client _, outside _ => True
  | .client _, inside _ => True
  | .client _, signalling _ _ => True
  | .client _, waking _ _ => True
  | .client _, startCalled => True
  | .client _, startHeld => True
  | .client _, opening => True
  | .client _, starting _ => True
  | .client _, making _ _ => True
  | .client _, made _ _ => True
  | .client _, restarting => True
  | _, _ => False

/-- The mutexes that matter here. -/
def Holds : Thread ι n → Phase n → Lock n → Prop
  | .worker w, locked, l => l = .isWorkLock w
  | .worker w, empty, l => l = .isWorkLock w
  | .worker w, marked, l => l = .isWorkLock w
  | .worker w, woken, l => l = .isWorkLock w
  | _, signalling w _, l => l = .isWorkLock w
  | _, waking w _, l => l = .isWorkLock w
  | _, startHeld, l => l = .startLock
  | _, opening, l => l = .startLock
  | _, starting _, l => l = .startLock
  | _, making _ _, l => l = .startLock
  | _, made _ _, l => l = .startLock
  | _, restarting, l => l = .startLock
  | _, _, _ => False

/-- The flags that matter here. -/
def Watched : Flag n → Prop
  | .isRunningFlag => True
  | .isTerminatedFlag => True
  | .cleared => True
  | .processingWorker _ => True
  | .worker _ .isTerminatedFlag => True
  | .worker _ .isWaitingFlag => True
  | _ => False

def Quiet : Store n → Prop
  | .flag f _ => ¬ Watched f
  | .newWorker _ => False
  | _ => True

/-- What leaves the phase as it is. -/
def Plain (t : Thread ι n) (φ : Phase n) : Op (names ι n E) → Prop
  | .acquire _ => True
  | .release l => ¬ Holds t φ l
  | .wait c l => ¬ Holds t φ l ∧ ∀ w, c ≠ .isWorkWaiting w
  | .resume _ _ => True
  | .signal c => ∀ w, c ≠ .isWorkWaiting w
  | .broadcast c => ∀ w, c ≠ .isWorkWaiting w
  | .load _ => True
  | .store x => Quiet x
  | .ask .isMaxSize => True
  | .ask (.started _) => True
  | _ => False

/-- What a worker does. -/
inductive Works (w : Fin n) : Phase n → (o : Op (names ι n E)) → o.Result → Phase n → Prop
  | init (a : Int) : Works w fresh (.ask (.init w)) a idle
  | remove (entry : Int) :
      Works w idle (.ask (.remove w)) entry (if entry = 0 then idle else taken)
  | handle : Works w taken (.ask (.handle w)) 0 idle
  | lock : Works w idle (.acquire (.isWorkLock w)) () locked
  | isWork (work : Int) :
      Works w locked (.ask (.isWork w)) work (if work = 0 then empty else locked)
  | mark : Works w empty (.store (.flag (.worker w .isWaitingFlag) true)) () marked
  | rouse : Works w marked (.broadcast (.isWorkWaiting w)) () marked
  | wait : Works w marked (.wait (.isWorkWaiting w) (.isWorkLock w)) () waiting
  | resume : Works w waiting (.resume (.isWorkWaiting w) (.isWorkLock w)) () woken
  | unmark : Works w woken (.store (.flag (.worker w .isWaitingFlag) false)) () locked
  | unlock : Works w locked (.release (.isWorkLock w)) () rounding
  | unlockEmpty : Works w empty (.release (.isWorkLock w)) () rounding
  | round : Works w rounding (.load (.flag (.worker w .isTerminatedFlag))) false idle

/-- What a producer does, and everybody who signals a worker. -/
inductive Produces : Phase n → (o : Op (names ι n E)) → o.Result → Phase n → Prop
  | add (owes : List (Fin n)) (entry : E) (index : Int) :
      Produces (outside owes) (.ask (.add entry)) index
        (outside (if 0 ≤ index then List.finRange n else owes))
  | enter (owes : List (Fin n)) :
      Produces (outside owes) (.acquire .workerLock) () (inside owes)
  | leave (owes : List (Fin n)) :
      Produces (inside owes) (.release .workerLock) () (outside owes)
  | pointer (w : Fin n) (owes : List (Fin n)) (b : Bool) :
      Produces (inside owes) (.load (.flag (.processingWorker w))) b
        (inside (if b then owes else without w owes))
  | lock (w : Fin n) (owes : List (Fin n)) :
      Produces (inside owes) (.acquire (.isWorkLock w)) () (signalling w owes)
  | waitingFlag (w : Fin n) (owes : List (Fin n)) (b : Bool) :
      Produces (signalling w owes) (.load (.flag (.worker w .isWaitingFlag))) b
        (if b then waking w owes else signalling w (without w owes))
  | signal (w : Fin n) (owes : List (Fin n)) :
      Produces (waking w owes) (.signal (.isWorkWaiting w)) () (signalling w (without w owes))
  | unlock (w : Fin n) (owes : List (Fin n)) :
      Produces (signalling w owes) (.release (.isWorkLock w)) () (inside owes)

/-- What `start` does. -/
inductive Opens : Phase n → (o : Op (names ι n E)) → o.Result → Phase n → Prop
  | lock : Opens startCalled (.acquire .startLock) () startHeld
  | isRunning (b : Bool) :
      Opens startHeld (.load (.flag .isRunningFlag)) b (if b then restarting else opening)
  | restarted : Opens restarting (.release .startLock) () (outside [])
  | run : Opens opening (.store (.flag .isRunningFlag true)) () (starting (List.finRange n))
  | construct (w : Fin n) (ws : List (Fin n)) :
      Opens (starting (w :: ws)) (.store (.newWorker w)) () (making w ws)
  | point (w : Fin n) (ws : List (Fin n)) :
      Opens (making w ws) (.store (.flag (.processingWorker w) true)) () (made w ws)
  | found (w : Fin n) (ws : List (Fin n)) :
      Opens (made w ws) (.load (.flag (.worker w .isStartedFlag))) true (starting ws)
  | started (w : Fin n) (ws : List (Fin n)) :
      Opens (made w ws) (.store (.flag (.worker w .isStartedFlag) true)) () (starting ws)
  | opened : Opens (starting []) (.release .startLock) () (outside [])

/-- What a step is about. -/
inductive Turn (t : Thread ι n) (φ : Phase n) (o : Op (names ι n E)) (r : o.Result) :
    Phase n → Prop
  | works {w : Fin n} {ψ : Phase n} (ht : t = .worker w) (h : Works w φ o r ψ) : Turn t φ o r ψ
  | produces {i : ι} {ψ : Phase n} (ht : t = .client i) (h : Produces φ o r ψ) : Turn t φ o r ψ
  | opens {i : ι} {ψ : Phase n} (ht : t = .client i) (h : Opens φ o r ψ) : Turn t φ o r ψ
  | stays (h : Plain t φ o) : Turn t φ o r φ

/-- The phases in which it matters whether a worker is terminated. -/
def Wary : Phase n → Prop
  | idle => True
  | rounding => True
  | made _ _ => True
  | _ => False

/-- Nobody who cares finds that anything was terminated, and there is neither a resize nor
an exception. -/
def Calm (φ : Phase n) : (o : Op (names ι n E)) → o.Result → Prop
  | .load (.flag .isTerminatedFlag), b => b = false
  | .load (.flag .cleared), b => b = false
  | .load (.flag (.worker _ .isTerminatedFlag)), b => Wary φ → b = false
  | .ask .resize, _ => False
  | .ask (.handle _), error => error = 0
  | _, _ => True

variable [DecidableEq ι] {t : Thread ι n} {φ ψ : Phase n}

theorem turn_acquires {l : Lock n} (hφ : Attends t φ) (h : acquires t φ l = some ψ) :
    Turn t φ (.acquire l : Op (names ι n E)) () ψ := by
  cases l with
  | isWorkLock v =>
      cases t <;> cases φ <;> simp [acquires, Attends] at hφ h
      · obtain rfl := h
        exact .produces rfl (.lock v _)
      · obtain ⟨rfl, rfl⟩ := h
        exact .works rfl .lock
  | workerLock =>
      cases t <;> cases φ <;> simp [acquires, Attends] at hφ h <;> subst h
      · exact .produces rfl (.enter _)
      · exact .stays trivial
      · exact .stays trivial
  | startLock =>
      cases t <;> cases φ <;> simp [acquires, Attends] at hφ h <;> subst h
      · exact .stays trivial
      · exact .opens rfl .lock
  | resizeQueuesLock | workerStartLock v | hasDiedLock v | hasPausedLock v =>
      obtain rfl : φ = ψ := by simpa [acquires] using h
      exact .stays trivial

omit [DecidableEq ι] in
theorem not_holds {l : Lock n} (hwork : ∀ v, l ≠ .isWorkLock v) (hstart : l ≠ .startLock) :
    ¬ Holds t φ l := by
  cases t <;> cases φ <;> simp [Holds, hwork, hstart]

theorem turn_releases {l : Lock n} (hφ : Attends t φ) (h : releases t φ l = some ψ) :
    Turn t φ (.release l : Op (names ι n E)) () ψ := by
  cases l with
  | isWorkLock v =>
      cases t <;> cases φ <;> simp [releases, Attends] at hφ h
      · obtain ⟨rfl, rfl⟩ := h
        exact .produces rfl (.unlock _ _)
      · obtain ⟨rfl, rfl⟩ := h
        exact .works rfl .unlock
      · obtain ⟨rfl, rfl⟩ := h
        exact .works rfl .unlockEmpty
  | workerLock =>
      simp only [releases] at h
      split at h <;> cases t <;> simp [Attends] at hφ h <;> subst h
      · exact .produces rfl (.leave _)
      · exact .stays (not_holds (by simp) (by simp))
      · exact .stays (not_holds (by simp) (by simp))
  | startLock =>
      simp only [releases] at h
      split at h <;> cases t <;> simp [Attends] at hφ h <;> subst h
      · exact .stays (by simp [Plain, Holds])
      · exact .opens rfl .opened
      · exact .opens rfl .restarted
  | resizeQueuesLock | workerStartLock v | hasDiedLock v | hasPausedLock v =>
      obtain rfl : φ = ψ := by simpa [releases] using h
      exact .stays (not_holds (by simp) (by simp))
theorem turn_waits {c : Cond n} {l : Lock n} (hφ : Attends t φ) (h : waits t φ c l = some ψ) :
    Turn t φ (.wait c l : Op (names ι n E)) () ψ := by
  unfold waits at h
  split at h
  · rename_i v v'
    cases t <;> cases φ <;> simp [Attends] at hφ h
    obtain ⟨⟨rfl, rfl⟩, rfl⟩ := h
    exact .works rfl .wait
  · cases h
    exact .stays ⟨not_holds (by simp) (by simp), by simp⟩
  · cases h
    exact .stays ⟨not_holds (by simp) (by simp), by simp⟩
  · cases h
    exact .stays ⟨not_holds (by simp) (by simp), by simp⟩
  · cases h
    exact .stays ⟨not_holds (by simp) (by simp), by simp⟩
  · cases h

theorem turn_resumes {c : Cond n} {l : Lock n} (hφ : Attends t φ)
    (h : resumes t φ c l = some ψ) :
    Turn t φ (.resume c l : Op (names ι n E)) () ψ := by
  unfold resumes at h
  split at h
  · rename_i v v'
    cases t <;> cases φ <;> simp [Attends] at hφ h
    obtain ⟨⟨rfl, rfl⟩, rfl⟩ := h
    exact .works rfl .resume
  all_goals
    cases h
  all_goals exact .stays trivial

omit [DecidableEq ι] in
theorem turn_signals {c : Cond n} (hφ : Attends t φ) (h : signals φ c = some ψ) :
    Turn t φ (.signal c : Op (names ι n E)) () ψ := by
  cases c with
  | isWorkWaiting v =>
      cases t <;> cases φ <;> simp [signals, Attends] at hφ h
      obtain ⟨rfl, rfl⟩ := h
      exact .produces rfl (.signal _ _)
  | isResizingCond | hasDied v | hasPaused v | isIdle v =>
      obtain rfl : φ = ψ := by simpa [signals] using h
      exact .stays (by simp [Plain])

theorem turn_broadcasts {c : Cond n} (h : broadcasts t φ c = some ψ) :
    Turn t φ (.broadcast c : Op (names ι n E)) () ψ := by
  cases c with
  | isWorkWaiting v =>
      obtain ⟨⟨rfl, rfl⟩, rfl⟩ : (t = .worker v ∧ φ = marked) ∧ marked = ψ := by
        simpa [broadcasts] using h
      exact .works rfl .rouse
  | isResizingCond | hasDied v | hasPaused v | isIdle v =>
      obtain rfl : φ = ψ := by simpa [broadcasts] using h
      exact .stays (by simp [Plain])

theorem turn_loads {x : Load n} {b : Bool} (hφ : Attends t φ)
    (hcalm : Calm φ (.load x : Op (names ι n E)) b) (h : loads t φ b x = some ψ) :
    Turn t φ (.load x : Op (names ι n E)) b ψ := by
  have hstays : φ = ψ → Turn t φ (.load x : Op (names ι n E)) b ψ := by
    rintro rfl
    exact .stays trivial
  unfold loads at h
  split at h
  · rename_i v
    split at h
    · cases t <;> simp [Attends] at hφ
      obtain ⟨rfl, rfl⟩ : v = _ ∧ _ = ψ := by simpa using h
      exact .produces rfl (.waitingFlag _ _ b)
    · exact hstays (by simpa using h)
  · rename_i v
    split at h
    · cases t <;> simp [Attends] at hφ
      cases h
      exact .produces rfl (.pointer _ _ b)
    · exact hstays (by simpa using h)
  · obtain rfl : b = false := hcalm
    exact hstays (by simpa using h)
  · split at h
    · cases t <;> simp [Attends] at hφ
      cases h
      exact .opens rfl (.isRunning b)
    · cases t <;> simp [Attends] at hφ
    · exact hstays (by simpa using h)
  · obtain rfl : b = false := hcalm
    split at h <;> exact hstays (by simpa using h)
  · rename_i v
    split at h
    · obtain rfl : b = false := hcalm trivial
      exact hstays (by simp_all)
    · obtain rfl : b = false := hcalm trivial
      obtain ⟨rfl, rfl⟩ : t = .worker v ∧ idle = ψ := by simpa using h
      exact .works rfl .round
    · cases t <;> simp [Attends] at hφ
    · cases t <;> simp [Attends] at hφ
    · obtain rfl : b = false := hcalm trivial
      exact hstays (by simpa using h)
    · exact hstays (by simpa using h)
  · rename_i v
    split at h
    · cases t <;> simp [Attends] at hφ
      cases b with
      | true =>
          obtain ⟨rfl, rfl⟩ : v = _ ∧ _ = ψ := by simpa using h
          exact .opens rfl (.found _ _)
      | false =>
          obtain ⟨rfl, rfl⟩ : v = _ ∧ _ = ψ := by simpa using h
          exact .stays trivial
    · cases t <;> simp [Attends] at hφ
    · exact hstays (by simpa using h)
  · exact hstays (by simpa using h)

theorem turn_stores {x : Store n} (hφ : Attends t φ) (h : stores t φ x = some ψ) :
    Turn t φ (.store x : Op (names ι n E)) () ψ := by
  unfold stores at h
  split at h
  · rename_i b
    split at h <;> cases t <;> simp [Attends] at hφ h
    subst h
    exact .opens rfl .run
  · cases h
  · cases h
  · rename_i v b
    split at h <;> cases t <;> simp [Attends] at hφ h
    obtain ⟨rfl, rfl⟩ := h
    exact .opens rfl (.point _ _)
  · rename_i v b
    split at h <;> cases t <;> simp [Attends] at hφ h
    · obtain ⟨rfl, rfl⟩ := h
      exact .works rfl .mark
    · obtain ⟨rfl, rfl⟩ := h
      exact .works rfl .unmark
  · rename_i v b
    split at h <;> cases t <;> simp [Attends] at hφ h
  · rename_i v b
    split at h <;> cases t <;> simp [Attends] at hφ h
    · obtain ⟨rfl, rfl⟩ := h
      exact .opens rfl (.started _ _)
    · subst h
      exact .stays (by simp [Plain, Quiet, Watched])
  · rename_i v
    split at h <;> cases t <;> simp [Attends] at hφ h
    obtain ⟨rfl, rfl⟩ := h
    exact .opens rfl (.construct _ _)
  · rename_i hrunning hterminated hcleared hpointer hwaiting hworker hstarted hnew
    obtain rfl : φ = ψ := by simpa using h
    refine .stays ?_
    cases x with
    | flag f b =>
        cases f with
        | isRunningFlag => exact absurd rfl (hrunning b)
        | isTerminatedFlag => exact absurd rfl (hterminated b)
        | cleared => exact absurd rfl (hcleared b)
        | processingWorker v => exact absurd rfl (hpointer v b)
        | worker v g =>
            cases g with
            | isWaitingFlag => exact absurd rfl (hwaiting v b)
            | isTerminatedFlag => exact absurd rfl (hworker v b)
            | isStartedFlag | isPausedFlag | isIdleFlag | isDeadFlag | haveWorkJoiners =>
                exact not_false
        | isPausedFlag | resizing => exact not_false
    | addingCount d | nestedPauseCounter d => trivial
    | newWorker v => exact absurd rfl (hnew v)

theorem turn_asks {q : Query n E} {a : Int} (hφ : Attends t φ)
    (hcalm : Calm φ (.ask q : Op (names ι n E)) a) (h : asks t φ a q = some ψ) :
    Turn t φ (.ask q : Op (names ι n E)) a ψ := by
  cases q with
  | add entry =>
      cases t <;> cases φ <;> simp [asks, Attends] at hφ h
      subst h
      exact .produces rfl (.add _ _ _)
  | isMaxSize | started v =>
      obtain rfl : φ = ψ := by simpa [asks] using h
      exact .stays trivial
  | resize => cases hcalm
  | init v =>
      obtain ⟨⟨rfl, rfl⟩, rfl⟩ : (t = .worker v ∧ φ = fresh) ∧ idle = ψ := by
        simpa [asks] using h
      exact .works rfl (.init a)
  | finalize v =>
      obtain ⟨⟨rfl, rfl⟩, rfl⟩ : (t = .worker v ∧ φ = leaving) ∧ gone = ψ := by
        simpa [asks] using h
      cases hφ
  | remove v =>
      obtain ⟨⟨rfl, rfl⟩, rfl⟩ : (t = .worker v ∧ φ = idle) ∧ _ = ψ := by
        simpa [asks] using h
      exact .works rfl (.remove a)
  | handle v =>
      obtain rfl : a = 0 := hcalm
      obtain ⟨⟨rfl, rfl⟩, rfl⟩ : (t = .worker v ∧ φ = taken) ∧ idle = ψ := by
        simpa [asks] using h
      exact .works rfl .handle
  | isWork v =>
      obtain ⟨⟨rfl, rfl⟩, rfl⟩ : (t = .worker v ∧ φ = locked) ∧ _ = ψ := by
        simpa [asks] using h
      exact .works rfl (.isWork a)

/-- What a step can do, as long as nobody stops the processor. -/
theorem turn_of_step {o : Op (names ι n E)} {r : o.Result} (hφ : Attends t φ) (hcalm : Calm φ o r)
    (hspawn : ∀ u, o ≠ .spawn u) (h : step t φ o r = some ψ) : Turn t φ o r ψ := by
  have hne : φ ≠ never := by
    rintro rfl
    cases t <;> cases hφ
  unfold step at h
  rw [if_neg hne] at h
  cases o with
  | acquire l => exact turn_acquires hφ h
  | release l => exact turn_releases hφ h
  | wait c l => exact turn_waits hφ h
  | resume c l => exact turn_resumes hφ h
  | signal c => exact turn_signals hφ h
  | broadcast c => exact turn_broadcasts h
  | load x => exact turn_loads hφ hcalm h
  | store x => exact turn_stores hφ h
  | ask q => exact turn_asks hφ hcalm h
  | call p => cases h
  | spawn u => exact absurd rfl (hspawn u)

/-! ## What it preserves -/

omit [DecidableEq ι] in
theorem Turn.attends {o : Op (names ι n E)} {r : o.Result} (h : Turn t φ o r ψ)
    (hφ : Attends t φ) : Attends t ψ := by
  cases h with
  | works ht h =>
      subst ht
      cases h with
      | remove entry => by_cases hentry : entry = 0 <;> simp [hentry, Attends]
      | isWork work => by_cases hwork : work = 0 <;> simp [hwork, Attends]
      | init | handle | lock | mark | rouse | wait | resume | unmark | unlock | unlockEmpty
      | round => trivial
  | produces ht h =>
      subst ht
      cases h with
      | waitingFlag w owes b => cases b <;> trivial
      | add | enter | leave | pointer | lock | signal | unlock => trivial
  | opens ht h =>
      subst ht
      cases h with
      | isRunning b => cases b <;> trivial
      | lock | restarted | run | construct | point | found | started | opened => trivial
  | stays h => exact hφ

omit [DecidableEq ι] in
/-- A mutex is held from the step that acquires it to the one that releases it. -/
theorem Turn.holds {o : Op (names ι n E)} {r : o.Result} {l : Lock n} (h : Turn t φ o r ψ)
    (hl : Holds t ψ l) :
    (o = .acquire l ∨ ∃ c, o = .resume c l) ∨
      Holds t φ l ∧ o ≠ .release l ∧ ∀ c, o ≠ .wait c l := by
  cases h with
  | works ht h =>
      subst ht
      cases h with
      | remove entry => by_cases hentry : entry = 0 <;> simp [hentry, Holds] at hl
      | isWork work => by_cases hwork : work = 0 <;> simpa [hwork, Holds] using hl
      | lock | mark | rouse | resume | unmark => simp_all [Holds]
      | init | handle | wait | unlock | unlockEmpty | round => cases hl
  | produces ht h =>
      subst ht
      cases h with
      | waitingFlag w owes b => cases b <;> simpa [Holds] using hl
      | lock | signal => simp_all [Holds]
      | add | enter | leave | pointer | unlock => cases hl
  | opens ht h =>
      subst ht
      cases h with
      | isRunning b => cases b <;> simpa [Holds] using hl
      | lock | run | construct | point | found | started => simp_all [Holds]
      | restarted | opened => cases hl
  | stays h =>
      refine .inr ⟨hl, ?_, ?_⟩
      · rintro rfl
        exact h hl
      · rintro c rfl
        exact h.1 hl

end Attendance

end HPQueue
