import HPQueue.Consumer.Turn

/-!
# The workers of a processor that runs

What holds of the threads, the mutexes and the flags until the processor is stopped: a
worker exists from its creation on, and has a pointer by then; `isWaitingFlag` is set
while it waits.

## Main results

* `Staffed.turn` — the workers, through `start`.
* `Orderly.turn`, `Orderly.spawn`, `Orderly.enter` — all of it, one for each kind of step.
-/

namespace HPQueue

open Library.Threads Prog

variable {ι : Type} {n : Nat} {E : Type}

namespace Attendance

open Phase

variable [DecidableEq ι] {t : Thread ι n} {φ ψ : Phase n} {o : Op (names ι n E)} {r : o.Result}

/-! ## What a phase says -/

/-- The workers that were not created yet, to one who starts them. -/
def unstarted : Phase n → List (Fin n)
  | opening => List.finRange n
  | starting ws => ws
  | making w ws => w :: ws
  | made w ws => w :: ws
  | _ => []

/-- The workers that may have no pointer, although the processor runs. -/
def unset : Phase n → List (Fin n)
  | starting ws => ws
  | making w ws => w :: ws
  | made _ ws => ws
  | _ => []

/-- One who knows that the processor runs. -/
def Opened : Phase n → Prop
  | starting _ => True
  | making _ _ => True
  | made _ _ => True
  | restarting => True
  | _ => False

/-- A worker that has found its slot empty, until it wakes. -/
def Marks (φ : Phase n) : Prop := φ = marked ∨ φ = waiting ∨ φ = woken

/-! ## What an operation does to the memory -/

/-- What an operation does to the memory of the processor. -/
def written (t : Thread ι n) (m : Control ι n) : Op (names ι n E) → Control ι n
  | .store x => m.store t x
  | _ => m

theorem control_of_effect {s s' : Shared (names ι n E) (Plant ι n E)}
    (h : (servedProcessor ι n E).Effect s t o r s') :
    s'.memory.control = written t s.memory.control o := by
  cases h with
  | ask hreply => cases Plant.replies_of_reply hreply <;> rfl
  | acquire | release | wait | resume | unheard | signal | broadcast | load | store | spawn => rfl

/-- A test finds what is there. -/
def Sees (m : Control ι n) : (o : Op (names ι n E)) → o.Result → Prop
  | .load x, b => b = m.load x
  | _, _ => True

theorem sees_of_effect {s s' : Shared (names ι n E) (Plant ι n E)}
    (h : (servedProcessor ι n E).Effect s t o r s') : Sees s.memory.control o r := by
  cases h with
  | load => rfl
  | acquire | release | wait | resume | unheard | signal | broadcast | store | ask | spawn =>
      trivial

/-- Only a query reaches the queue. -/
theorem plant_of_effect {s s' : Shared (names ι n E) (Plant ι n E)}
    (h : (servedProcessor ι n E).Effect s t o r s') (hask : ∀ q, o ≠ .ask q) :
    s'.memory = { s.memory with control := written t s.memory.control o } := by
  cases h with
  | ask hreply => exact absurd rfl (hask _)
  | acquire | release | wait | resume | unheard | signal | broadcast | load | store | spawn => rfl

/-- A processor that was not terminated, and whose workers were not as far as it matters. -/
theorem calm_of_effect {s s' : Shared (names ι n E) (Plant ι n E)}
    (h : (servedProcessor ι n E).Effect s t o r s')
    (hterminated : s.memory.control.flag .isTerminatedFlag = false)
    (hcleared : s.memory.control.flag .cleared = false)
    (hworker : Wary φ → ∀ w, s.memory.control.flag (.worker w .isTerminatedFlag) = false) :
    Calm φ o r := by
  cases h with
  | @load x =>
      cases x with
      | flag f =>
          cases f with
          | isTerminatedFlag => exact hterminated
          | cleared => exact hcleared
          | worker w g =>
              cases g with
              | isTerminatedFlag => exact fun hφ => hworker hφ w
              | isStartedFlag | isPausedFlag | isIdleFlag | isDeadFlag | isWaitingFlag
              | haveWorkJoiners => trivial
          | isRunningFlag | isPausedFlag | resizing | processingWorker w => trivial
      | addingCount | nestedPauseCounter => trivial
  | ask hreply =>
      cases Plant.replies_of_reply hreply with
      | handle w => exact rfl
      | add | isMaxSize | started | init | finalize | remove | isWork => trivial
  | acquire | release | wait | resume | unheard | signal | broadcast | store | spawn => trivial

theorem flag_of_quiet {m : Control ι n} {x : Store n} {f : Flag n} (hx : Quiet x)
    (hf : Watched f) : (m.store t x).flag f = m.flag f := by
  cases x with
  | flag g b =>
      have hne : f ≠ g := by
        rintro rfl
        exact hx hf
      simp [hne]
  | addingCount d | nestedPauseCounter d => rfl
  | newWorker w => cases hx

theorem written_flag_of_ne {m : Control ι n} {f g : Flag n} {b : Bool} (hfg : f ≠ g) :
    (written t m (.store (.flag g b) : Op (names ι n E))).flag f = m.flag f := by
  simp [written, hfg]

theorem written_flag {m : Control ι n} {f : Flag n} {b : Bool} :
    (written t m (.store (.flag f b) : Op (names ι n E))).flag f = b := by
  simp [written]

theorem Plain.flag {m : Control ι n} {f : Flag n} (h : Plain t φ o) (hf : Watched f) :
    (written t m o).flag f = m.flag f := by
  cases o with
  | store x => exact flag_of_quiet h hf
  | acquire l | release l | wait c l | resume c l | signal c | broadcast c | load x | ask q
  | call p | spawn u => rfl

theorem Works.flag {w : Fin n} {m : Control ι n} {f : Flag n} (h : Works w φ o r ψ)
    (hf : f ≠ .worker w .isWaitingFlag) : (written t m o).flag f = m.flag f := by
  cases h with
  | mark | unmark => simp [written, hf]
  | init | remove | handle | lock | isWork | rouse | wait | resume | unlock | unlockEmpty
  | round => rfl

theorem Produces.written {m : Control ι n} (h : Produces φ o r ψ) : written t m o = m := by
  cases h <;> rfl

/-! ## The workers that are there -/

/-- The flags that are set at the end. -/
def Ends : Flag n → Prop
  | .isTerminatedFlag => True
  | .cleared => True
  | .worker _ .isTerminatedFlag => True
  | _ => False

def Alive (flag : Flag n → Bool) : Prop := ∀ f, Ends f → flag f = false

omit [DecidableEq ι] in
theorem Ends.watched {f : Flag n} (h : Ends f) : Watched f := by
  cases f with
  | isTerminatedFlag | cleared => trivial
  | worker w g => cases g <;> trivial
  | isRunningFlag | isPausedFlag | resizing | processingWorker w => cases h

theorem Turn.alive {m : Control ι n} (h : Turn t φ o r ψ) (hm : Alive m.flag) :
    Alive (Attendance.written t m o).flag := by
  intro f hf
  cases h with
  | works ht h =>
      rw [h.flag (by rintro rfl; cases hf)]
      exact hm f hf
  | produces ht h =>
      rw [h.written]
      exact hm f hf
  | opens ht h =>
      cases h with
      | run | point w ws | started w ws =>
          rw [written_flag_of_ne (by rintro rfl; cases hf)]
          exact hm f hf
      | construct w ws =>
          cases f with
          | worker v g =>
              by_cases hvw : v = w
              · simp [Attendance.written, Control.store, hvw]
              · simpa [Attendance.written, Control.store, hvw] using hm _ hf
          | isTerminatedFlag | cleared => exact hm _ hf
          | isRunningFlag | isPausedFlag | resizing | processingWorker v => cases hf
      | lock | isRunning | restarted | found | opened => exact hm f hf
  | stays h =>
      rw [h.flag hf.watched]
      exact hm f hf

/-- A worker that is absent was not created; the processor that does not run has none; one
that runs has a pointer to each, unless somebody is about to set it. -/
structure Staffed (φ : Thread ι n → Phase n) (flag : Flag n → Bool) : Prop where
  absent : ∀ t w, w ∈ unstarted (φ t) → φ (.worker w) = absent
  stopped : flag .isRunningFlag = false → ∀ w, φ (.worker w) = Phase.absent
  opened : ∀ t, Opened (φ t) → flag .isRunningFlag = true
  running : flag .isRunningFlag = true →
    ∀ w, flag (.processingWorker w) = true ∨ ∃ t, w ∈ unset (φ t)

namespace Staffed

variable {φ : Thread ι n → Phase n} {flag flag' : Flag n → Bool}

omit [DecidableEq ι] in
theorem pointer (h : Staffed φ flag) {w : Fin n} (hw : flag (.processingWorker w) = false) :
    φ (.worker w) = Phase.absent := by
  cases hrun : flag .isRunningFlag with
  | false => exact h.stopped hrun w
  | true =>
      obtain ⟨t, ht⟩ := (h.running hrun w).resolve_left (by simp [hw])
      apply h.absent t w
      cases hφ : φ t <;> simp_all [unset, unstarted]

/-- A step that creates nobody and leaves `isRunningFlag` as it is. -/
theorem frame (h : Staffed φ flag) {χ : Phase n} (hφ : φ t = χ)
    (habsent : ∀ w, t = .worker w → χ = Phase.absent → ψ = Phase.absent)
    (hunstarted : ∀ w ∈ unstarted ψ, w ∈ unstarted χ ∨ φ (.worker w) = Phase.absent)
    (hopened : Opened ψ → Opened χ ∨ flag .isRunningFlag = true)
    (hunset : ∀ w ∈ unset χ, w ∈ unset ψ ∨ flag' (.processingWorker w) = true)
    (hrun : flag' .isRunningFlag = flag .isRunningFlag)
    (hpointer : ∀ w, flag (.processingWorker w) = true → flag' (.processingWorker w) = true) :
    Staffed (Function.update φ t ψ) flag' := by
  subst hφ
  have hstays : ∀ w, φ (.worker w) = Phase.absent →
      Function.update φ t ψ (.worker w) = Phase.absent := by
    intro w hw
    by_cases hwt : .worker w = t
    · subst hwt
      simpa using habsent w rfl hw
    · simpa [hwt] using hw
  constructor
  · intro u w hw
    apply hstays w
    by_cases hut : u = t
    · subst hut
      exact (hunstarted w (by simpa using hw)).elim (h.absent u w) id
    · exact h.absent u w (by simpa [hut] using hw)
  · intro hstopped w
    exact hstays w (h.stopped (by rwa [← hrun]) w)
  · intro u hu
    rw [hrun]
    by_cases hut : u = t
    · subst hut
      exact (hopened (by simpa using hu)).elim (h.opened u) id
    · exact h.opened u (by simpa [hut] using hu)
  · intro hrunning w
    rcases h.running (by rwa [← hrun]) w with hw | ⟨u, hu⟩
    · exact .inl (hpointer w hw)
    · by_cases hut : u = t
      · subst hut
        rcases hunset w hu with hw | hw
        · exact .inr ⟨u, by simpa using hw⟩
        · exact .inl hw
      · exact .inr ⟨u, by simpa [hut] using hu⟩

end Staffed

omit [DecidableEq ι] in
theorem Works.apart {w : Fin n} (h : Works w φ o r ψ) :
    φ ≠ absent ∧ unset φ = [] ∧ unstarted ψ = [] ∧ ¬ Opened ψ := by
  cases h with
  | remove entry => by_cases hentry : entry = 0 <;> simp [hentry, unset, unstarted, Opened]
  | isWork work => by_cases hwork : work = 0 <;> simp [hwork, unset, unstarted, Opened]
  | init | handle | lock | mark | rouse | wait | resume | unmark | unlock | unlockEmpty | round =>
      simp [unset, unstarted, Opened]

omit [DecidableEq ι] in
theorem Produces.apart (h : Produces φ o r ψ) :
    unset φ = [] ∧ unstarted ψ = [] ∧ ¬ Opened ψ := by
  cases h with
  | waitingFlag w owes b => cases b <;> simp [unset, unstarted, Opened]
  | add | enter | leave | pointer | lock | signal | unlock => simp [unset, unstarted, Opened]

namespace Staffed

variable {φ : Thread ι n → Phase n} {m : Control ι n}

/-- What `start` does to the workers. -/
theorem opens {i : ι} (h : Staffed φ m.flag) {χ : Phase n} (hφ : φ (.client i) = χ)
    (hturn : Opens χ o r ψ) (hsees : Sees m o r) :
    Staffed (Function.update φ (.client i) ψ) (written (.client i) m o).flag := by
  have hworker : ∀ w : Fin n, Thread.client i = .worker w → χ = Phase.absent → ψ = Phase.absent :=
    fun w hw => by cases hw
  cases hturn with
  | lock | restarted | opened =>
      exact h.frame hφ hworker (by simp [unstarted]) (by simp [Opened]) (by simp [unset]) rfl
        fun _ => id
  | isRunning b =>
      replace hsees : b = m.flag .isRunningFlag := hsees
      cases b with
      | true =>
          exact h.frame hφ hworker (by simp [unstarted]) (fun _ => .inr hsees.symm)
            (by simp [unset]) rfl fun _ => id
      | false =>
          exact h.frame hφ hworker (fun w _ => .inr (h.stopped hsees.symm w)) (by simp [Opened])
            (by simp [unset]) rfl fun _ => id
  | run =>
      have hrunning := written_flag (E := E) (t := .client i) (m := m) (f := .isRunningFlag)
        (b := true)
      constructor
      · intro u w hw
        have hw' : φ (.worker w) = Phase.absent := by
          by_cases hut : u = .client i
          · apply h.absent (.client i) w
            simp [hφ, unstarted]
          · exact h.absent u w (by simpa [hut] using hw)
        simpa using hw'
      · intro hstopped
        rw [hrunning] at hstopped
        cases hstopped
      · exact fun u _ => hrunning
      · exact fun _ w => .inr ⟨.client i, by simp [unset]⟩
  | construct w ws =>
      exact h.frame hφ hworker (fun v hv => .inl hv) (by simp [Opened]) (fun v hv => .inl hv) rfl
        fun _ => id
  | point w ws =>
      refine h.frame hφ hworker (fun v hv => .inl hv) (by simp [Opened]) ?_
        (written_flag_of_ne (by simp)) ?_
      · intro v hv
        rcases List.mem_cons.mp hv with rfl | hv
        · exact .inr written_flag
        · exact .inl hv
      · intro v hv
        by_cases hvw : v = w
        · subst hvw
          exact written_flag
        · rwa [written_flag_of_ne (by simpa using hvw)]
  | found w ws =>
      exact h.frame hφ hworker (fun v hv => .inl (List.mem_cons_of_mem w hv)) (by simp [Opened])
        (fun v hv => .inl hv) rfl fun _ => id
  | started w ws =>
      refine h.frame hφ hworker (fun v hv => .inl (List.mem_cons_of_mem w hv)) (by simp [Opened])
        (fun v hv => .inl hv) (written_flag_of_ne (by simp)) fun v hv => ?_
      rwa [written_flag_of_ne (by simp)]

/-- What one step preserves. -/
theorem turn (h : Staffed φ m.flag) (hturn : Turn t (φ t) o r ψ) (hsees : Sees m o r) :
    Staffed (Function.update φ t ψ) (written t m o).flag := by
  cases hturn with
  | @works w _ ht hturn =>
      obtain ⟨habsent, hunset, hunstarted, hopened⟩ := hturn.apart
      refine h.frame rfl (fun _ _ hφ => absurd hφ habsent) ?_ (fun hψ => absurd hψ hopened) ?_
        (hturn.flag (by simp)) fun v hv => ?_
      · simp [hunstarted]
      · simp [hunset]
      · rwa [hturn.flag (by simp)]
  | @produces i _ ht hturn =>
      obtain ⟨hunset, hunstarted, hopened⟩ := hturn.apart
      rw [hturn.written]
      refine h.frame rfl (fun w hw => ?_) ?_ (fun hψ => absurd hψ hopened) ?_ rfl fun _ => id
      · rw [ht] at hw
        cases hw
      · simp [hunstarted]
      · simp [hunset]
  | @opens i _ ht hturn =>
      subst ht
      exact h.opens rfl hturn hsees
  | stays hplain =>
      refine h.frame rfl (fun _ _ hφ => hφ) (fun v hv => .inl hv) .inl (fun v hv => .inl hv)
        (hplain.flag trivial) fun v hv => ?_
      rwa [hplain.flag (f := .processingWorker v) trivial]

end Staffed

/-! ## The workers that wait -/

/-- `isWaitingFlag` is set for the workers that wait. -/
def Marked (φ : Thread ι n → Phase n) (flag : Flag n → Bool) : Prop :=
  ∀ w, Marks (φ (.worker w)) → flag (.worker w .isWaitingFlag) = true

theorem Works.marks {w : Fin n} {m : Control ι n} (h : Works w φ o r ψ) (hψ : Marks ψ)
    (hm : Marks φ → m.flag (.worker w .isWaitingFlag) = true) :
    (written t m o).flag (.worker w .isWaitingFlag) = true := by
  cases h with
  | mark => exact written_flag
  | rouse | wait | resume => exact hm (by simp [Marks])
  | remove entry => by_cases hentry : entry = 0 <;> simp [hentry, Marks] at hψ
  | isWork work => by_cases hwork : work = 0 <;> simp [hwork, Marks] at hψ
  | init | handle | lock | unmark | unlock | unlockEmpty | round => simp [Marks] at hψ

theorem Turn.marked {φ : Thread ι n → Phase n} {m : Control ι n} (h : Turn t (φ t) o r ψ)
    (hm : Marked φ m.flag) (hstaffed : Staffed φ m.flag) :
    Marked (Function.update φ t ψ) (Attendance.written t m o).flag := by
  intro w hw
  cases h with
  | @works v _ ht h =>
      by_cases hwv : w = v
      · subst hwv
        rw [ht, Function.update_self] at hw
        exact h.marks hw (by rw [ht]; exact hm w)
      · rw [h.flag (by simp [hwv])]
        exact hm w (by simpa [ht, hwv] using hw)
  | produces ht h =>
      rw [h.written]
      exact hm w (by simpa [ht] using hw)
  | opens ht h =>
      have hmarks : Marks (φ (.worker w)) := by simpa [ht] using hw
      replace hw := hm w hmarks
      generalize hφ : φ t = χ at h
      cases h with
      | run | point | started => rwa [written_flag_of_ne (by simp)]
      | construct v ws =>
          by_cases hwv : w = v
          · subst hwv
            rw [hstaffed.absent t w (by simp [hφ, unstarted])] at hmarks
            simp [Marks] at hmarks
          · simpa [Attendance.written, Control.store, hwv] using hw
      | lock | isRunning | restarted | found | opened => exact hw
  | stays h =>
      rw [h.flag (f := .worker w .isWaitingFlag) trivial]
      exact hm w (by simpa using hw)
omit [DecidableEq ι] in
theorem Turn.worker_of_wait {w : Fin n} {l : Lock n}
    (h : Turn t φ (.wait (.isWorkWaiting w) l : Op (names ι n E)) () ψ) : t = .worker w := by
  cases h with
  | works ht h =>
      cases h
      exact ht
  | produces ht h | opens ht h => cases h
  | stays h => exact absurd rfl (h.2 w)

/-- What holds of the threads, the mutexes and the flags. -/
structure Orderly (φ : Thread ι n → Phase n) (s : Shared (names ι n E) (Plant ι n E)) :
    Prop where
  attends : ∀ t, Attends t (φ t)
  locks : ∀ t l, Holds t (φ t) l → s.held l = some t
  alive : Alive s.memory.control.flag
  marked : Marked φ s.memory.control.flag
  staffed : Staffed φ s.memory.control.flag
  /-- Nobody else waits for work. -/
  asleep : ∀ w t, t ∈ s.asleep (.isWorkWaiting w) → t = .worker w

namespace Orderly

variable {φ : Thread ι n → Phase n} {s s' : Shared (names ι n E) (Plant ι n E)}

theorem calm (h : Orderly φ s) (heffect : (servedProcessor ι n E).Effect s t o r s') :
    Calm (φ t) o r :=
  calm_of_effect heffect (h.alive _ trivial) (h.alive _ trivial) fun _ _ => h.alive _ trivial

/-- A worker waits for its own work. -/
theorem worker_of_asleep (h : Orderly φ s) (hturn : Turn t (φ t) o r ψ)
    (heffect : (servedProcessor ι n E).Effect s t o r s') {w : Fin n} {u : Thread ι n}
    (hu : u ∈ s'.asleep (.isWorkWaiting w)) : u = .worker w := by
  rcases heffect.asleep hu with hu | ⟨rfl, l, rfl⟩
  · exact h.asleep w u hu
  · exact hturn.worker_of_wait

/-- What one step preserves. -/
theorem turn (h : Orderly φ s) (hturn : Turn t (φ t) o r ψ)
    (heffect : (servedProcessor ι n E).Effect s t o r s') :
    Orderly (Function.update φ t ψ) s' where
  attends := by
    intro u
    by_cases hut : u = t
    · subst hut
      simpa using hturn.attends (h.attends u)
    · simpa [hut] using h.attends u
  locks := by
    intro u l hl
    by_cases hut : u = t
    · subst hut
      apply heffect.held_self
      exact (hturn.holds (by simpa using hl)).imp_right fun hφ => ⟨h.locks u l hφ.1, hφ.2⟩
    · exact heffect.held_of_ne hut (h.locks u l (by simpa [hut] using hl))
  alive := by
    rw [control_of_effect heffect]
    exact hturn.alive h.alive
  marked := by
    rw [control_of_effect heffect]
    exact hturn.marked h.marked h.staffed
  staffed := by
    rw [control_of_effect heffect]
    exact h.staffed.turn hturn (sees_of_effect heffect)
  asleep := fun w u hu => h.worker_of_asleep hturn heffect hu

end Orderly

omit [DecidableEq ι] in
theorem holds_of_opened (h : Opened φ) : Holds t φ .startLock := by
  cases t <;> cases φ <;> first | exact rfl | cases h

omit [DecidableEq ι] in
theorem holds_of_unstarted {w : Fin n} (h : w ∈ unstarted φ) : Holds t φ .startLock := by
  cases t <;> cases φ <;> first | exact rfl | cases h

/-- One who starts the processor creates workers he has constructed. -/
theorem worker_of_spawn {u : Thread ι n} (hφ : Attends t φ)
    (h : step t φ (.spawn u : Op (names ι n E)) () = some ψ) :
    ∃ i v, t = .client i ∧ u = .worker v ∧ ψ = φ ∧ Opened φ ∧ v ∉ unstarted φ := by
  have hne : φ ≠ never := by
    rintro rfl
    cases t <;> cases hφ
  unfold step at h
  rw [if_neg hne] at h
  simp only [spawns] at h
  split at h
  · rename_i v ws
    cases t with
    | worker w => cases hφ
    | client i =>
        by_cases hv : v ∈ ws
        · simp [hv] at h
        · obtain rfl : _ = ψ := by simpa [hv] using h
          exact ⟨i, v, rfl, rfl, rfl, trivial, hv⟩
  · rename_i v
    cases t with
    | worker w => cases hφ
    | client i =>
        obtain rfl := Option.some.inj h
        exact ⟨i, v, rfl, rfl, rfl, trivial, by simp [unstarted]⟩
  · cases h

namespace Orderly

variable {φ : Thread ι n → Phase n} {s s' : Shared (names ι n E) (Plant ι n E)}

theorem spawn (h : Orderly φ s) {i : ι} {v : Fin n} (hopened : Opened (φ (.client i)))
    (hv : v ∉ unstarted (φ (.client i))) (habsent : φ (.worker v) = absent) :
    Orderly (Function.update φ (.worker v) fresh) s := by
  have hother : ∀ u, u ≠ .worker v → Function.update φ (.worker v) fresh u = φ u :=
    fun u hu => Function.update_of_ne hu _ _
  constructor
  · intro u
    by_cases hu : u = .worker v
    · subst hu
      simp [Attends]
    · rw [hother u hu]
      exact h.attends u
  · intro u l hl
    by_cases hu : u = .worker v
    · subst hu
      simp [Holds] at hl
    · rw [hother u hu] at hl
      exact h.locks u l hl
  · exact h.alive
  · intro w hw
    by_cases hu : w = v
    · subst hu
      simp [Marks] at hw
    · rw [hother _ (by simpa using hu)] at hw
      exact h.marked w hw
  · constructor
    · intro u w hw
      by_cases hu : u = .worker v
      · subst hu
        simp [unstarted] at hw
      · rw [hother u hu] at hw
        have hwv : w ≠ v := by
          rintro rfl
          have hlock := (h.locks u _ (holds_of_unstarted hw)).symm.trans
            (h.locks (.client i) _ (holds_of_opened hopened))
          obtain rfl := Option.some.inj hlock
          exact hv hw
        rw [hother _ (by simpa using hwv)]
        exact h.staffed.absent u w hw
    · intro hstopped
      rw [h.staffed.opened _ hopened] at hstopped
      cases hstopped
    · exact fun _ _ => h.staffed.opened _ hopened
    · intro hrunning w
      refine (h.staffed.running hrunning w).imp_right ?_
      rintro ⟨u, hu⟩
      have hne : u ≠ .worker v := by
        rintro rfl
        rw [habsent] at hu
        cases hu
      exact ⟨u, by rwa [hother u hne]⟩
  · exact h.asleep

theorem wake (h : Orderly φ s) (c : Cond n) (t : Thread ι n) :
    Orderly φ (s.sleep c ((s.asleep c).erase t)) where
  attends := h.attends
  locks := h.locks
  alive := h.alive
  marked := h.marked
  staffed := h.staffed
  asleep := by
    intro w u hu
    apply h.asleep w u
    by_cases hc : Cond.isWorkWaiting w = c
    · subst hc
      exact Finset.mem_of_mem_erase (by simpa [Shared.sleep] using hu)
    · simpa [Shared.sleep, hc] using hu

/-- A client begins a call. -/
theorem enter (h : Orderly φ s) {i : ι} {χ : Phase n} {m : Plant ι n E}
    (hφ : φ (.client i) = outside []) (hχ : χ = outside [] ∨ χ = startCalled)
    (hm : m.control = s.memory.control) :
    Orderly (Function.update φ (.client i) χ) { s with memory := m } := by
  have hother : ∀ u, u ≠ .client i → Function.update φ (.client i) χ u = φ u :=
    fun u hu => Function.update_of_ne hu _ _
  constructor
  · intro u
    by_cases hu : u = .client i
    · subst hu
      rw [Function.update_self]
      rcases hχ with rfl | rfl <;> trivial
    · rw [hother u hu]
      exact h.attends u
  · intro u l hl
    by_cases hu : u = .client i
    · subst hu
      rw [Function.update_self] at hl
      rcases hχ with rfl | rfl <;> cases hl
    · rw [hother u hu] at hl
      exact h.locks u l hl
  · rw [hm]
    exact h.alive
  · rw [hm]
    exact fun w hw => h.marked w (by simpa using hw)
  · rw [hm]
    refine h.staffed.frame hφ (fun w hw => by cases hw) ?_ ?_ ?_ rfl fun _ => id
    · rcases hχ with rfl | rfl <;> simp [unstarted]
    · rcases hχ with rfl | rfl <;> simp [Opened]
    · simp [unset]
  · exact h.asleep

end Orderly

end Attendance

end HPQueue
