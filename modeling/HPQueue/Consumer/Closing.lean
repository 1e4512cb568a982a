import HPQueue.Consumer.Tally

/-!
# What it takes to stop

The steps of one who stops the processor, one constructor for each that leaves the phase
or touches what matters, and of the workers that were told to end.  `workerLock` is held
from the first visit of a worker until all were told.

## Main results

* `closes_of_step` — these are the steps there are.
* `held_of_guards` — which mutexes are held where.
-/

namespace HPQueue

open Library.Threads Prog

variable {ι : Type} {n : Nat} {E : Type}

namespace Attendance

open Phase

/-! ## What a step can do -/

/-- A client that adds entries, and signals workers. -/
def Feeds : Phase n → Prop
  | outside _ => True
  | inside _ => True
  | signalling _ _ => True
  | waking _ _ => True
  | _ => False

/-- A client that stops the processor. -/
def Stops : Phase n → Prop
  | stopCalled => True
  | draining _ => True
  | visiting _ _ => True
  | joining _ _ => True
  | joined _ _ => True
  | telling _ => True
  | drained => True
  | _ => False

/-- What `stop` does. -/
inductive Closes : Phase n → (o : Op (names ι n E)) → o.Result → Phase n → Prop
  | begin : Closes stopCalled (.acquire .workerLock) () (visited [])
  | visit (w : Fin n) (ws : List (Fin n)) :
      Closes (draining ws) (.acquire (.isWorkLock w)) () (visiting w ws)
  | rouse (w : Fin n) (ws : List (Fin n)) :
      Closes (visiting w ws) (.signal (.isWorkWaiting w)) () (visiting w ws)
  | wait (w : Fin n) (ws : List (Fin n)) :
      Closes (visiting w ws) (.wait (.isWorkWaiting w) (.isWorkLock w)) () (joining w ws)
  | resume (w : Fin n) (ws : List (Fin n)) :
      Closes (joining w ws) (.resume (.isWorkWaiting w) (.isWorkLock w)) () (joined w ws)
  | leave (w : Fin n) (ws : List (Fin n)) :
      Closes (joined w ws) (.release (.isWorkLock w)) () (visited (w :: ws))
  | tell (w : Fin n) (ws : List (Fin n)) :
      Closes (telling ws) (.store (.flag (.worker w .isTerminatedFlag) true)) () (told (w :: ws))
  | wake (w : Fin n) (ws : List (Fin n)) (hw : w ∈ ws) :
      Closes (telling ws) (.signal (.isWorkWaiting w)) () (telling ws)
  | finish {o : Op (names ι n E)} {r : o.Result} (hask : ∀ q, o ≠ .ask q) :
      Closes drained o r drained

/-- What one who stops the processor finds: it runs, and so do its workers. -/
def Steady : Phase n → (o : Op (names ι n E)) → o.Result → Prop
  | _, .load (.flag .cleared), b => b = false
  | stopCalled, .load (.flag .isRunningFlag), b => b = true
  | visiting _ _, .load (.flag (.worker _ .isTerminatedFlag)), b => b = false
  | visiting _ _, .load (.flag (.worker _ .isStartedFlag)), b => b = true
  | _, .ask .resize, _ => False
  | _, _, _ => True

variable [DecidableEq ι] {t : Thread ι n} {φ ψ : Phase n} {o : Op (names ι n E)} {r : o.Result}

theorem closes_acquires {l : Lock n} (hφ : Stops φ) (h : acquires t φ l = some ψ) :
    Closes φ (.acquire l : Op (names ι n E)) () ψ ∨ ψ = φ := by
  cases l with
  | isWorkLock v =>
      cases φ <;> simp [acquires, Stops] at hφ h <;> subst h
      · exact .inl (.visit v _)
      · exact .inr rfl
      · exact .inr rfl
  | workerLock =>
      cases φ <;> simp [acquires, Stops] at hφ h
      subst h
      exact .inl .begin
  | startLock =>
      cases φ <;> simp [acquires, Stops] at hφ h
      exact .inr h.symm
  | resizeQueuesLock | workerStartLock v | hasDiedLock v | hasPausedLock v =>
      exact .inr (by simpa [acquires] using h.symm)

omit [DecidableEq ι] in
theorem not_holds_of_stops {i : ι} {l : Lock n} (hφ : Stops φ) :
    ¬ Holds (.client i : Thread ι n) φ l := by
  cases φ <;> first | exact id | cases hφ

theorem closes_releases {i : ι} {l : Lock n} (hφ : Stops φ)
    (h : releases (.client i) φ l = some ψ) :
    Closes φ (.release l : Op (names ι n E)) () ψ ∨ ψ = φ := by
  cases l with
  | isWorkLock v =>
      cases φ <;> simp [releases, Stops] at hφ h
      · obtain ⟨rfl, rfl⟩ := h
        exact .inl (.leave _ _)
      · exact .inr h.symm
      · exact .inr h.symm
  | workerLock | startLock =>
      simp only [releases] at h
      split at h <;> simp [Stops] at hφ h
      exact .inr h.symm
  | resizeQueuesLock | workerStartLock v | hasDiedLock v | hasPausedLock v =>
      exact .inr (by simpa [releases] using h.symm)

theorem closes_waits {i : ι} {c : Cond n} {l : Lock n} (hφ : Stops φ)
    (h : waits (.client i) φ c l = some ψ) :
    Closes φ (.wait c l : Op (names ι n E)) () ψ ∨
      Plain (.client i) φ (.wait c l : Op (names ι n E)) ∧ ψ = φ := by
  unfold waits at h
  split at h
  · rename_i v v'
    cases φ <;> simp [Stops] at hφ h
    obtain ⟨⟨rfl, rfl⟩, rfl⟩ := h
    exact .inl (.wait _ _)
  · exact .inr ⟨⟨not_holds_of_stops hφ, by simp⟩, (Option.some.inj h).symm⟩
  · exact .inr ⟨⟨not_holds_of_stops hφ, by simp⟩, (Option.some.inj h).symm⟩
  · exact .inr ⟨⟨not_holds_of_stops hφ, by simp⟩, (Option.some.inj h).symm⟩
  · exact .inr ⟨⟨not_holds_of_stops hφ, by simp⟩, (Option.some.inj h).symm⟩
  · cases h

theorem closes_resumes {i : ι} {c : Cond n} {l : Lock n} (hφ : Stops φ)
    (h : resumes (.client i) φ c l = some ψ) :
    Closes φ (.resume c l : Op (names ι n E)) () ψ ∨ ψ = φ := by
  unfold resumes at h
  split at h
  · rename_i v v'
    cases φ <;> simp [Stops] at hφ h
    obtain ⟨⟨rfl, rfl⟩, rfl⟩ := h
    exact .inl (.resume _ _)
  all_goals cases h
  all_goals exact .inr rfl

omit [DecidableEq ι] in
theorem closes_signals {i : ι} {c : Cond n} (hφ : Stops φ) (h : signals φ c = some ψ) :
    Closes φ (.signal c : Op (names ι n E)) () ψ ∨
      Plain (.client i) φ (.signal c : Op (names ι n E)) ∧ ψ = φ := by
  cases c with
  | isWorkWaiting v =>
      cases φ <;> simp [signals, Stops] at hφ h
      · obtain ⟨rfl, rfl⟩ := h
        exact .inl (.rouse _ _)
      · obtain ⟨hv, rfl⟩ := h
        exact .inl (.wake v _ hv)
      · subst h
        exact .inl (.finish (by simp))
  | isResizingCond | hasDied v | hasPaused v | isIdle v =>
      exact .inr ⟨by simp [Plain], by simpa [signals] using h.symm⟩

theorem closes_broadcasts {i : ι} {c : Cond n} (h : broadcasts (.client i) φ c = some ψ) :
    Plain (.client i) φ (.broadcast c : Op (names ι n E)) ∧ ψ = φ := by
  cases c with
  | isWorkWaiting v => simp [broadcasts] at h
  | isResizingCond | hasDied v | hasPaused v | isIdle v =>
      exact ⟨by simp [Plain], by simpa [broadcasts] using h.symm⟩

theorem closes_loads {i : ι} {x : Load n} {b : Bool} (hφ : Stops φ)
    (hsteady : Steady φ (.load x : Op (names ι n E)) b)
    (h : loads (.client i) φ b x = some ψ) : ψ = φ := by
  unfold loads at h
  split at h
  · split at h
    · cases hφ
    · exact (Option.some.inj h).symm
  · split at h
    · cases hφ
    · exact (Option.some.inj h).symm
  · have hb : b = false := by cases φ <;> exact hsteady
    simpa [hb] using h.symm
  · split at h
    · cases hφ
    · have hb : b = true := hsteady
      simpa [hb] using h.symm
    · exact (Option.some.inj h).symm
  · split at h
    · cases hφ
    · cases hφ
    · exact (Option.some.inj h).symm
  · split at h
    · cases hφ
    · cases hφ
    · cases hφ
    · have hb : b = false := hsteady
      simpa [hb] using h.symm
    · cases hφ
    · exact (Option.some.inj h).symm
  · split at h
    · cases hφ
    · have hb : b = true := hsteady
      simpa [hb] using h.symm
    · exact (Option.some.inj h).symm
  · exact (Option.some.inj h).symm

theorem closes_stores {i : ι} {x : Store n} (hφ : Stops φ)
    (h : stores (.client i) φ x = some ψ) :
    Closes φ (.store x : Op (names ι n E)) () ψ ∨
      Plain (.client i) φ (.store x : Op (names ι n E)) ∧ ψ = φ := by
  cases x with
  | flag f b =>
      cases f with
      | isRunningFlag | processingWorker v =>
          cases φ <;> cases b <;> simp [stores, Stops] at hφ h
          subst h
          exact .inl (.finish (by simp))
      | isTerminatedFlag | cleared => cases h
      | worker v g =>
          cases g with
          | isWaitingFlag | isStartedFlag =>
              cases φ <;> cases b <;> simp [stores, Stops] at hφ h
          | isTerminatedFlag =>
              cases φ <;> cases b <;> simp [stores, Stops] at hφ h <;> subst h
              · exact .inl (.tell v _)
              · exact .inl (.finish (by simp))
          | isPausedFlag | isIdleFlag | isDeadFlag | haveWorkJoiners =>
              exact .inr ⟨not_false, (Option.some.inj h).symm⟩
      | isPausedFlag | resizing => exact .inr ⟨not_false, (Option.some.inj h).symm⟩
  | addingCount d | nestedPauseCounter d => exact .inr ⟨trivial, (Option.some.inj h).symm⟩
  | newWorker v => cases φ <;> simp [stores, Stops] at hφ h

theorem closes_of_step {i : ι} (hφ : Stops φ) (hsteady : Steady φ o r)
    (h : step (.client i) φ o r = some ψ) :
    Closes φ o r ψ ∨ Plain (.client i) φ o ∧ ψ = φ := by
  have hne : φ ≠ never := by
    rintro rfl
    cases hφ
  unfold step at h
  rw [if_neg hne] at h
  cases o with
  | acquire l => exact (closes_acquires hφ h).imp_right fun h => ⟨trivial, h⟩
  | release l => exact (closes_releases hφ h).imp_right fun h => ⟨not_holds_of_stops hφ, h⟩
  | wait c l => exact closes_waits hφ h
  | resume c l => exact (closes_resumes hφ h).imp_right fun h => ⟨trivial, h⟩
  | signal c => exact closes_signals hφ h
  | broadcast c => exact .inr (closes_broadcasts h)
  | load x => exact .inr ⟨trivial, closes_loads hφ hsteady h⟩
  | store x => exact closes_stores hφ h
  | ask q =>
      right
      cases q with
      | isMaxSize | started v => exact ⟨trivial, (Option.some.inj h).symm⟩
      | add e => cases φ <;> simp [asks, Stops] at hφ h
      | resize => cases φ <;> cases hsteady
      | init v | finalize v | remove v | handle v | isWork v => simp [asks] at h
  | call p => cases h
  | spawn u =>
      cases u with
      | client j => cases h
      | worker v => cases φ <;> simp [spawns, Stops] at hφ h

/-- The processor and its workers were started. -/
structure Ready (flag : Flag n → Bool) : Prop where
  running : flag .isRunningFlag = true
  started : ∀ w, flag (.worker w .isStartedFlag) = true

theorem steady_of_effect {s s' : Shared (names ι n E) (Plant ι n E)}
    (h : (servedProcessor ι n E).Effect s t o r s')
    (hcleared : s.memory.control.flag .cleared = false)
    (hready : φ = stopCalled ∨ (∃ w ws, φ = visiting w ws) → Ready s.memory.control.flag ∧
      ∀ w, s.memory.control.flag (.worker w .isTerminatedFlag) = false) : Steady φ o r := by
  cases h with
  | @load x =>
      cases x with
      | flag f =>
          cases f with
          | cleared => cases φ <;> exact hcleared
          | isRunningFlag =>
              cases φ <;> first | exact trivial | exact (hready (.inl rfl)).1.running
          | worker w g =>
              cases g with
              | isTerminatedFlag =>
                  cases φ <;> first | exact trivial | exact (hready (.inr ⟨_, _, rfl⟩)).2 w
              | isStartedFlag =>
                  cases φ <;> first | exact trivial | exact (hready (.inr ⟨_, _, rfl⟩)).1.started w
              | isPausedFlag | isIdleFlag | isDeadFlag | isWaitingFlag | haveWorkJoiners =>
                  cases φ <;> trivial
          | isTerminatedFlag | isPausedFlag | resizing | processingWorker w => cases φ <;> trivial
      | addingCount | nestedPauseCounter => cases φ <;> trivial
  | ask hreply => cases Plant.replies_of_reply hreply <;> cases φ <;> trivial
  | acquire | release | wait | resume | unheard | signal | broadcast | store | spawn =>
      cases φ <;> trivial

/-! ## What some operations say of the phase -/

omit [DecidableEq ι] in
theorem Turn.feeds {i : ι} (h : Turn (.client i) φ o r ψ) (hφ : Feeds φ) : Feeds ψ := by
  cases h with
  | works ht h => cases ht
  | produces ht h =>
      cases h with
      | waitingFlag w owes b => cases b <;> trivial
      | add | enter | leave | pointer | lock | signal | unlock => trivial
  | opens ht h => cases h <;> cases hφ
  | stays h => exact hφ

omit [DecidableEq ι] in
theorem Feeds.attends {i : ι} (h : Feeds φ) : Attends (.client i : Thread ι n) φ := by
  cases φ <;> first | exact trivial | exact False.elim h

omit [DecidableEq ι] in
theorem Feeds.not_wary (h : Feeds φ) : ¬ Wary φ := by
  cases φ <;> first | exact id | exact False.elim h

theorem signal_of_step {w : Fin n} (hφ : φ ≠ never)
    (h : step t φ (.signal (.isWorkWaiting w) : Op (names ι n E)) () = some ψ) :
    (∃ owes, φ = waking w owes) ∨ (∃ ws, φ = visiting w ws) ∨
      (∃ ws, φ = telling ws ∧ w ∈ ws) ∨ φ = drained := by
  simp only [step, if_neg hφ] at h
  cases φ <;> simp [signals] at h
  · obtain ⟨rfl, -⟩ := h
    exact .inl ⟨_, rfl⟩
  · obtain ⟨rfl, -⟩ := h
    exact .inr (.inl ⟨_, rfl⟩)
  · exact .inr (.inr (.inl ⟨_, rfl, h.1⟩))
  · exact .inr (.inr (.inr rfl))

theorem broadcast_of_step {w : Fin n} (hφ : φ ≠ never)
    (h : step t φ (.broadcast (.isWorkWaiting w) : Op (names ι n E)) () = some ψ) :
    t = .worker w ∧ φ = marked := by
  simp only [step, if_neg hφ, broadcasts] at h
  exact (Option.ite_none_right_eq_some.mp h).1

theorem handle_of_step {w : Fin n} {a : Int} (hφ : φ ≠ never)
    (h : step t φ (.ask (.handle w) : Op (names ι n E)) a = some ψ) : φ = taken := by
  simp only [step, if_neg hφ, asks] at h
  exact (Option.ite_none_right_eq_some.mp h).1.2

/-! ## The mutexes -/

/-- The mutexes that keep producers and workers from one who stops the processor. -/
def Guards : Thread ι n → Phase n → Lock n → Prop
  | .worker w, locked, l => l = .isWorkLock w
  | .worker w, empty, l => l = .isWorkLock w
  | .worker w, marked, l => l = .isWorkLock w
  | .worker w, woken, l => l = .isWorkLock w
  | _, inside _, l => l = .workerLock
  | _, signalling _ _, l => l = .workerLock
  | _, waking _ _, l => l = .workerLock
  | _, draining _, l => l = .workerLock
  | _, visiting w _, l => l = .workerLock ∨ l = .isWorkLock w
  | _, joining _ _, l => l = .workerLock
  | _, joined _ _, l => l = .workerLock
  | _, telling _, l => l = .workerLock
  | _, _, _ => False

/-- What an operation lets its thread guard, it acquires. -/
def Gains (t : Thread ι n) (φ ψ : Phase n) (o : Op (names ι n E)) : Prop :=
  ∀ l, Guards t ψ l → (o = .acquire l ∨ ∃ c, o = .resume c l) ∨ Guards t φ l

omit [DecidableEq ι] in
theorem Turn.gains (h : Turn t φ o r ψ) : Gains t φ ψ o := by
  intro l hl
  cases h with
  | works ht h =>
      subst ht
      cases h with
      | remove entry => by_cases hentry : entry = 0 <;> simp [hentry, Guards] at hl
      | isWork work => by_cases hwork : work = 0 <;> simpa [hwork, Guards] using hl
      | lock | mark | rouse | resume | unmark => simp_all [Guards]
      | init | handle | wait | unlock | unlockEmpty | round => cases hl
  | produces ht h =>
      subst ht
      cases h with
      | waitingFlag w owes b => cases b <;> simpa [Guards] using hl
      | enter | pointer | lock | signal | unlock => simp_all [Guards]
      | add | leave => cases hl
  | opens ht h =>
      subst ht
      cases h with
      | isRunning b => cases b <;> cases hl
      | lock | restarted | run | construct | point | found | started | opened => cases hl
  | stays h => exact .inr hl

omit [DecidableEq ι] in
theorem guards_told {ws : List (Fin n)} {l : Lock n} (hl : Guards t (told ws) l) :
    l = .workerLock := by
  unfold told at hl
  split at hl
  · cases t <;> cases hl
  · cases t <;> exact hl

omit [DecidableEq ι] in
theorem guards_visited {ws : List (Fin n)} {l : Lock n} (hl : Guards t (visited ws) l) :
    l = .workerLock := by
  unfold visited at hl
  split at hl
  · exact guards_told hl
  · cases t <;> exact hl

omit [DecidableEq ι] in
theorem Closes.gains {i : ι} (h : Closes φ o r ψ) : Gains (.client i) φ ψ o := by
  intro l hl
  cases h with
  | begin => exact .inl (.inl (by rw [guards_visited hl]))
  | visit w ws =>
      rcases hl with rfl | rfl
      · exact .inr rfl
      · exact .inl (.inl rfl)
  | wait w ws => exact .inr (.inl hl)
  | leave w ws => exact .inr (guards_visited hl)
  | tell w ws => exact .inr (guards_told hl)
  | rouse | resume | wake => exact .inr hl
  | finish => cases hl

omit [DecidableEq ι] in
theorem lock_of_guards {l : Lock n} (hl : Guards t φ l) :
    l = .workerLock ∨ ∃ w, l = .isWorkLock w := by
  cases t <;> cases φ <;> simp only [Guards] at hl <;>
    first
    | exact .inl hl
    | exact .inr ⟨_, hl⟩
    | exact hl.imp_right fun hl => ⟨_, hl⟩

theorem not_guards_of_release {l : Lock n} (h : releases t φ l = some ψ) (hl : Guards t φ l) :
    ¬ Guards t ψ l := by
  rcases lock_of_guards hl with rfl | ⟨v, rfl⟩
  · simp only [releases] at h
    split at h <;> cases h <;> cases t <;> exact id
  · have hvisited : ∀ ws, ¬ Guards t (visited (n := n) ws) (.isWorkLock v) := by
      intro ws hl
      cases guards_visited hl
    cases φ <;> simp [releases] at h
    · obtain ⟨rfl, rfl⟩ := h
      exact id
    · obtain ⟨rfl, rfl⟩ := h
      exact id
    · obtain ⟨rfl, rfl⟩ := h
      cases t <;> simp [Guards]
    · obtain ⟨rfl, rfl⟩ := h
      exact hvisited _
    · subst h
      cases t <;> simp [Guards]
    · subst h
      cases t <;> exact id

theorem not_guards_of_wait {c : Cond n} {l : Lock n} (h : waits t φ c l = some ψ)
    (hl : Guards t φ l) : ¬ Guards t ψ l := by
  unfold waits at h
  split at h
  · rename_i v v'
    split at h
    · obtain ⟨⟨rfl, rfl⟩, hψ⟩ := Option.ite_none_right_eq_some.mp h
      obtain rfl := Option.some.inj hψ
      exact id
    · obtain ⟨⟨rfl, rfl⟩, hψ⟩ := Option.ite_none_right_eq_some.mp h
      obtain rfl := Option.some.inj hψ
      cases t <;> simp [Guards]
    · cases h
  · rcases lock_of_guards hl with hl | ⟨w, hl⟩ <;> cases hl
  · rcases lock_of_guards hl with hl | ⟨w, hl⟩ <;> cases hl
  · rcases lock_of_guards hl with hl | ⟨w, hl⟩ <;> cases hl
  · rcases lock_of_guards hl with hl | ⟨w, hl⟩ <;> cases hl
  · cases h

/-- A mutex is held from the step that acquires it to the one that releases it. -/
theorem held_of_guards {s s' : Shared (names ι n E) (Plant ι n E)} {l : Lock n}
    (heffect : (servedProcessor ι n E).Effect s t o r s') (hφ : φ ≠ never)
    (h : step t φ o r = some ψ) (hl : Guards t ψ l) (hgains : Gains t φ ψ o)
    (hheld : Guards t φ l → s.held l = some t) : s'.held l = some t := by
  unfold step at h
  rw [if_neg hφ] at h
  apply heffect.held_self
  apply (hgains l hl).imp_right
  intro hguards
  refine ⟨hheld hguards, ?_, ?_⟩
  · rintro rfl
    exact not_guards_of_release h hguards hl
  · rintro c rfl
    exact not_guards_of_wait h hguards hl

/-! ## The flags -/

section Flags

variable {m : Control ι n}

/-- A flag that no step sets to anything else. -/
theorem flag_of_stores {f : Flag n} {b : Bool} (hf : m.flag f = b)
    (hstore : ∀ b', o = .store (.flag f b') → b' = b)
    (hnew : ∀ w g, f = .worker w g → o ≠ .store (.newWorker w)) :
    (written t m o).flag f = b := by
  cases o with
  | store x =>
      cases x with
      | flag g b' =>
          by_cases hfg : f = g
          · subst hfg
            rw [written_flag]
            exact hstore b' rfl
          · rwa [written_flag_of_ne hfg]
      | addingCount d | nestedPauseCounter d => exact hf
      | newWorker w =>
          cases f with
          | worker v g =>
              have hne : v ≠ w := by
                rintro rfl
                exact hnew v g rfl rfl
              simpa [written, Control.store, hne] using hf
          | isRunningFlag | isPausedFlag | isTerminatedFlag | resizing | cleared
          | processingWorker v => exact hf
  | acquire l | release l | wait c l | resume c l | signal c | broadcast c | load x | ask q
  | call p | spawn u => exact hf

variable (hφ : φ ≠ never) (h : step t φ o r = some ψ)

include hφ h

/-- Nobody terminates the processor. -/
theorem ends_of_step {f : Flag n} (hf : f = .isTerminatedFlag ∨ f = .cleared)
    (hm : m.flag f = false) : (written t m o).flag f = false := by
  apply flag_of_stores hm
  · rintro b rfl
    simp only [step, if_neg hφ] at h
    rcases hf with rfl | rfl <;> cases h
  · rintro w g rfl
    simp at hf

/-- Once a worker is started, or terminated, it stays so until it is constructed again. -/
theorem lasts_of_ne {w : Fin n} {g : WorkerFlag}
    (hg : g = .isStartedFlag ∨ g = .isTerminatedFlag) (hnew : o ≠ .store (.newWorker w))
    (hm : m.flag (.worker w g) = true) : (written t m o).flag (.worker w g) = true := by
  apply flag_of_stores hm
  · rintro b rfl
    simp only [step, if_neg hφ] at h
    rcases hg with rfl | rfl
    all_goals
      simp only [stores] at h
      split at h
      · rfl
      · rfl
      · cases h
  · rintro v g' hv
    obtain ⟨rfl, -⟩ := Flag.worker.inj hv
    exact hnew

theorem lasts_of_step (hstarting : ∀ ws, φ ≠ starting ws) {w : Fin n} {g : WorkerFlag}
    (hg : g = .isStartedFlag ∨ g = .isTerminatedFlag) (hm : m.flag (.worker w g) = true) :
    (written t m o).flag (.worker w g) = true := by
  apply lasts_of_ne hφ h hg ?_ hm
  rintro rfl
  simp only [step, if_neg hφ, stores] at h
  split at h
  · exact hstarting _ rfl
  · cases h

end Flags

end Attendance

end HPQueue
