import HPQueue.Consumer.Finishing

/-!
# What `stop` leaves behind

One client starts the processor and stops it later, while others add entries.  The run is
in one of three stages: before `stop` is called, while it visits the workers, and once it
is through with them.

## Main results

* `Stage.act` — a step, in each of the stages.
* `stop_drains` — once `stop` has returned, all entries accepted before it was called were
  handled, each once.
-/

namespace HPQueue

open Library.Threads Prog

variable {ι : Type} {n : Nat} {E : Type}

namespace Attendance

open Phase

variable [DecidableEq ι] {t : Thread ι n} {φ ψ : Phase n} {o : Op (names ι n E)} {r : o.Result}

/-! ## The start -/

/-- What one who was told to start the processor knows: nobody else does, and the workers
that are not left to start were started. -/
inductive Launched (flag : Flag n → Bool) : Phase n → Prop
  | called (hstopped : flag .isRunningFlag = false) : Launched flag startCalled
  | held (hstopped : flag .isRunningFlag = false) : Launched flag startHeld
  | opening (hstopped : flag .isRunningFlag = false) : Launched flag opening
  | running {φ : Phase n} (hφ : Feeds φ ∨ Opened φ ∧ φ ≠ restarting)
      (hrunning : flag .isRunningFlag = true)
      (hstarted : ∀ w, w ∈ unstarted φ ∨ flag (.worker w .isStartedFlag) = true) :
      Launched flag φ

omit [DecidableEq ι] in
theorem unstarted_of_feeds (h : Feeds φ) : unstarted φ = [] := by
  cases φ <;> first | rfl | exact False.elim h

namespace Launched

variable {flag flag' : Flag n → Bool} {m : Control ι n} {i : ι}

omit [DecidableEq ι] in
theorem attends (h : Launched flag φ) : Attends (.client i : Thread ι n) φ := by
  cases h with
  | called | held | opening => trivial
  | running hφ =>
      rcases hφ with hφ | ⟨hφ, -⟩
      · exact hφ.attends
      · cases φ <;> first | exact trivial | exact False.elim hφ

/-- What somebody else leaves as it is. -/
theorem congr (h : Launched flag φ) (hrunning : flag' .isRunningFlag = flag .isRunningFlag)
    (hstarted : ∀ w, flag (.worker w .isStartedFlag) = true →
      flag' (.worker w .isStartedFlag) = true) : Launched flag' φ := by
  cases h with
  | called hstopped => exact .called (by rw [hrunning, hstopped])
  | held hstopped => exact .held (by rw [hrunning, hstopped])
  | opening hstopped => exact .opening (by rw [hrunning, hstopped])
  | running hφ hrun hstart =>
      exact .running hφ (by rw [hrunning, hrun]) fun w => (hstart w).imp_right (hstarted w)

theorem ready (h : Launched flag φ) (hφ : Feeds φ) : Ready flag := by
  cases h with
  | called | held | opening => cases hφ
  | running _ hrunning hstarted =>
      refine ⟨hrunning, fun w => (hstarted w).resolve_left ?_⟩
      rw [unstarted_of_feeds hφ]
      exact List.not_mem_nil

/-- A step of `start`. -/
theorem opens (h : Launched m.flag φ) (hopens : Opens φ o r ψ) (hsees : Sees m o r) :
    Launched (written t m o).flag ψ := by
  cases hopens with
  | lock =>
      cases h with
      | called hstopped => exact .held hstopped
      | running hφ => simp [Feeds, Opened] at hφ
  | isRunning b =>
      cases h with
      | held hstopped =>
          obtain rfl : b = false := hsees.trans hstopped
          exact .opening hstopped
      | running hφ => simp [Feeds, Opened] at hφ
  | restarted =>
      cases h with
      | running hφ => simp [Feeds] at hφ
  | run => exact .running (.inr ⟨trivial, by simp⟩) written_flag fun w => .inl (by simp [unstarted])
  | construct w ws =>
      cases h with
      | running hφ hrunning hstarted =>
          refine .running (.inr ⟨trivial, by simp⟩) hrunning fun v => ?_
          by_cases hvw : v = w
          · exact .inl (by simp [unstarted, hvw])
          · apply (hstarted v).imp_right
            intro hv
            simpa [written, Control.store, hvw] using hv
  | point w ws =>
      cases h with
      | running hφ hrunning hstarted =>
          refine .running (.inr ⟨trivial, by simp⟩) ?_ fun v => ?_
          · rwa [written_flag_of_ne (by simp)]
          · rw [written_flag_of_ne (by simp)]
            exact hstarted v
  | found w ws =>
      cases h with
      | running hφ hrunning hstarted =>
          refine .running (.inr ⟨trivial, by simp⟩) hrunning fun v => ?_
          by_cases hvw : v = w
          · subst hvw
            exact .inr hsees.symm
          · exact (hstarted v).imp_left fun hv => (List.mem_cons.mp hv).resolve_left hvw
  | started w ws =>
      cases h with
      | running hφ hrunning hstarted =>
          refine .running (.inr ⟨trivial, by simp⟩) ?_ fun v => ?_
          · rwa [written_flag_of_ne (by simp)]
          · by_cases hvw : v = w
            · subst hvw
              exact .inr written_flag
            · rw [written_flag_of_ne (by simp [hvw])]
              exact (hstarted v).imp_left fun hv => (List.mem_cons.mp hv).resolve_left hvw
  | opened =>
      cases h with
      | running hφ hrunning hstarted => exact .running (.inl trivial) hrunning hstarted

/-- A step of the one who starts the processor. -/
theorem turn (h : Launched m.flag φ) (hturn : Turn (.client i) φ o r ψ)
    (hstep : step (.client i) φ o r = some ψ) (hsees : Sees m o r) :
    Launched (written (.client i) m o).flag ψ := by
  have hnever : φ ≠ never := by
    rintro rfl
    cases h.attends (ι := ι) (i := i)
  cases hturn with
  | works ht hturn => cases ht
  | produces ht hproduces =>
      rw [hproduces.written]
      have hφ : Feeds φ := by cases hproduces <;> trivial
      have hψ := (Turn.produces rfl hproduces : Turn (.client i) φ o r ψ).feeds hφ
      obtain ⟨hrunning, hstarted⟩ := h.ready hφ
      exact .running (.inl hψ) hrunning fun w => .inr (hstarted w)
  | opens ht hopens => exact h.opens hopens hsees
  | stays hplain =>
      apply h.congr (hplain.flag trivial)
      intro w hw
      apply lasts_of_ne hnever hstep (.inl rfl) ?_ hw
      rintro rfl
      exact hplain

end Launched

/-! ## The stages -/

variable {φ : Thread ι n → Phase n} {s s' : Shared (names ι n E) (Plant ι n E)}
  {T : Tickets (Fin n) E} {owner : ι} {queueSize : Nat}

/-- The workers, until they are told to end. -/
structure Working (queueSize : Nat) (φ : Thread ι n → Phase n)
    (s : Shared (names ι n E) (Plant ι n E)) (T : Tickets (Fin n) E) : Prop where
  attends : ∀ w, Attends (.worker w : Thread ι n) (φ (.worker w))
  alive : ∀ w, s.memory.control.flag (.worker w .isTerminatedFlag) = false
  tended : Tended queueSize φ s.memory T

/-- Before `stop` is called; `calls` are those of the owner. -/
structure BeforeStop (owner : ι) (queueSize : Nat) (calls : List (ClientCall E))
    (φ : Thread ι n → Phase n) (s : Shared (names ι n E) (Plant ι n E))
    (T : Tickets (Fin n) E) : Prop where
  stop : .stop ∉ calls
  working : Working queueSize φ s T
  idle : .start ∉ calls →
    Feeds (φ (.client owner)) ∧ s.memory.control.flag .isRunningFlag = false
  launched : .start ∈ calls → Launched s.memory.control.flag (φ (.client owner))

/-- While `stop`, the latest call of the owner, visits the workers. -/
structure Stopping (owner : ι) (queueSize : Nat) (calls : List (ClientCall E))
    (φ : Thread ι n → Phase n) (s : Shared (names ι n E) (Plant ι n E))
    (T : Tickets (Fin n) E) : Prop where
  calls : ∃ before, calls = .stop :: before ∧ .stop ∉ before ∧ .start ∈ before
  working : Working queueSize φ s T
  ready : Ready s.memory.control.flag
  due : s.memory.due ≤ s.memory.ledger.accepted.length
  visits : Visits (.client owner) φ s T (φ (.client owner))

/-- The three stages of a run. -/
inductive Stage (owner : ι) (queueSize : Nat) (calls : List (ClientCall E))
    (φ : Thread ι n → Phase n) (s : Shared (names ι n E) (Plant ι n E)) : Prop
  | before {T : Tickets (Fin n) E} (h : BeforeStop owner queueSize calls φ s T)
  | stopping {T : Tickets (Fin n) E} (h : Stopping owner queueSize calls φ s T)
  | finished (hstart : .start ∈ calls) (hstop : .stop ∈ calls) (h : Finished owner φ s)

theorem Shares.act (h : Shares owner φ s) (hnever : φ t ≠ never)
    (heffect : (servedProcessor ι n E).Effect s t o r s') (hstep : step t (φ t) o r = some ψ)
    (hgains : Gains t (φ t) ψ o) (hfeeds : ∀ i, t = .client i → i ≠ owner → Feeds ψ) :
    Shares owner (Function.update φ t ψ) s' where
  feeds := by
    intro i hi
    by_cases hit : .client i = t
    · subst hit
      rw [Function.update_self]
      exact hfeeds i rfl hi
    · rw [Function.update_of_ne hit]
      exact h.feeds i hi
  locks := by
    intro u l hl
    by_cases hut : u = t
    · subst hut
      rw [Function.update_self] at hl
      exact held_of_guards heffect hnever hstep hl hgains (h.locks u l)
    · rw [Function.update_of_ne hut] at hl
      exact heffect.held_of_ne hut (h.locks u l hl)
  terminated := by
    rw [control_of_effect heffect]
    exact ends_of_step hnever hstep (.inl rfl) h.terminated
  cleared := by
    rw [control_of_effect heffect]
    exact ends_of_step hnever hstep (.inr rfl) h.cleared

omit [DecidableEq ι] in
theorem Attends.ne_never {φ : Phase n} (h : Attends t φ) : φ ≠ never := by
  rintro rfl
  cases t <;> cases h

namespace Working

omit [DecidableEq ι] in
theorem alive_all (h : Working queueSize φ s T) (hshares : Shares owner φ s) :
    Alive s.memory.control.flag := by
  intro f hf
  cases f with
  | isTerminatedFlag => exact hshares.terminated
  | cleared => exact hshares.cleared
  | worker w g => cases g <;> first | exact h.alive w | cases hf
  | isRunningFlag | isPausedFlag | resizing | processingWorker w => cases hf

theorem calm (h : Working queueSize φ s T) (hshares : Shares owner φ s)
    (heffect : (servedProcessor ι n E).Effect s t o r s') {χ : Phase n} : Calm χ o r :=
  calm_of_effect heffect hshares.terminated hshares.cleared fun _ => h.alive

/-- A step of anybody who does not stop the processor. -/
theorem turn (h : Working queueSize φ s T) (hshares : Shares owner φ s)
    (hturn : Turn t (φ t) o r ψ) (heffect : (servedProcessor ι n E).Effect s t o r s') :
    ∃ T', Working queueSize (Function.update φ t ψ) s' T' ∧
      Advances t (φ t) ψ s.memory s'.memory T T' := by
  obtain ⟨T', htended, hadvances⟩ := h.tended.turn hturn heffect
  refine ⟨T', ⟨fun w => ?_, fun w => ?_, htended⟩, hadvances⟩
  · by_cases hwt : Thread.worker w = t
    · subst hwt
      rw [Function.update_self]
      exact hturn.attends (h.attends w)
    · rw [Function.update_of_ne hwt]
      exact h.attends w
  · rw [control_of_effect heffect]
    exact hturn.alive (h.alive_all hshares) _ trivial

/-- A step of a client that touches neither the queue nor what was handled. -/
theorem client (h : Working queueSize φ s T) {i : ι}
    (hledger : s'.memory.ledger = s.memory.ledger) (hhandled : s'.memory.handled = s.memory.handled)
    (halive : ∀ w, s'.memory.control.flag (.worker w .isTerminatedFlag) =
      s.memory.control.flag (.worker w .isTerminatedFlag)) :
    Working queueSize (Function.update φ (.client i) ψ) s' T where
  attends := by
    intro w
    rw [Function.update_of_ne (by simp)]
    exact h.attends w
  alive := by
    intro w
    rw [halive w, h.alive w]
  tended := by
    refine ⟨by rw [hledger]; exact h.tended.serving, fun w => ?_, ?_⟩
    · rw [Function.update_of_ne (by simp), hledger]
      exact h.tended.inQueue w
    · refine h.tended.tallied.congr (fun w => by rw [Function.update_of_ne (by simp)]) hhandled
        (by rw [hledger]) (by rw [hledger]) fun _ _ => by rw [hledger]

end Working

omit [DecidableEq ι] in
theorem Shares.bystander (h : Shares owner φ s) (ht : t ≠ .client owner) :
    ∀ i, t = .client i → Feeds (φ t) := by
  rintro i rfl
  exact h.feeds i fun hi => ht (by rw [hi])

omit [DecidableEq ι] in
theorem not_starting {φ : Phase n} (hφ : Attends t φ) (hfeeds : ∀ i, t = .client i → Feeds φ) :
    ∀ ws, φ ≠ starting ws := by
  rintro ws rfl
  cases t with
  | client i => exact hfeeds i rfl
  | worker w => exact hφ

theorem Turn.running_eq {φ : Phase n} {m : Control ι n} (h : Turn t φ o r ψ)
    (hfeeds : ∀ i, t = .client i → Feeds φ) :
    (written t m o).flag .isRunningFlag = m.flag .isRunningFlag := by
  cases h with
  | works ht h => exact h.flag (by simp)
  | produces ht h => rw [h.written]
  | opens ht h => cases h <;> cases hfeeds _ ht
  | stays h => exact h.flag trivial

variable {calls : List (ClientCall E)}

namespace BeforeStop

omit [DecidableEq ι] in
theorem attends (h : BeforeStop owner queueSize calls φ s T) (hshares : Shares owner φ s)
    (t : Thread ι n) : Attends t (φ t) := by
  cases t with
  | worker w => exact h.working.attends w
  | client i =>
      by_cases hi : i = owner
      · subst hi
        by_cases hstart : .start ∈ calls
        · exact (h.launched hstart).attends
        · exact (h.idle hstart).1.attends
      · exact (hshares.feeds i hi).attends

/-- A step before `stop` is called. -/
theorem act (h : BeforeStop owner queueSize calls φ s T) (hshares : Shares owner φ s)
    (heffect : (servedProcessor ι n E).Effect s t o r s') (hspawn : ∀ u, o ≠ .spawn u)
    (hstep : step t (φ t) o r = some ψ) :
    Stage owner queueSize calls (Function.update φ t ψ) s' ∧
      Shares owner (Function.update φ t ψ) s' := by
  have hattends := h.attends hshares t
  have hturn := turn_of_step hattends (h.working.calm hshares heffect) hspawn hstep
  obtain ⟨T', hworking', -⟩ := h.working.turn hshares hturn heffect
  refine ⟨.before ⟨h.stop, hworking', ?_, ?_⟩,
    hshares.act hattends.ne_never heffect hstep hturn.gains ?_⟩
  · intro hstart
    obtain ⟨hfeeds, hstopped⟩ := h.idle hstart
    have hall : ∀ i, t = .client i → Feeds (φ t) := by
      rintro i rfl
      by_cases hi : i = owner
      · rwa [hi]
      · exact hshares.feeds i hi
    rw [control_of_effect heffect, hturn.running_eq hall]
    refine ⟨?_, hstopped⟩
    by_cases hto : t = .client owner
    · subst hto
      rw [Function.update_self]
      exact hturn.feeds hfeeds
    · rwa [Function.update_of_ne (Ne.symm hto)]
  · intro hstart
    rw [control_of_effect heffect]
    by_cases hto : t = .client owner
    · subst hto
      rw [Function.update_self]
      exact (h.launched hstart).turn hturn hstep (sees_of_effect heffect)
    · have hfeeds := hshares.bystander hto
      rw [Function.update_of_ne (Ne.symm hto)]
      refine (h.launched hstart).congr (hturn.running_eq hfeeds) fun w hw => ?_
      exact lasts_of_step hattends.ne_never hstep (not_starting hattends hfeeds) (.inl rfl) hw
  · rintro i rfl hi
    exact hturn.feeds (hshares.feeds i hi)

end BeforeStop

omit [DecidableEq ι] in
theorem Visits.guards {t : Thread ι n} {i : ι} {χ : Phase n} (h : Visits t φ s T χ)
    (hχ : χ ≠ stopCalled) : Guards (.client i : Thread ι n) χ .workerLock := by
  cases h with
  | called => exact absurd rfl hχ
  | visiting => exact .inl rfl
  | draining | joining | answered | joined => exact rfl

omit [DecidableEq ι] in
theorem Visits.stops {t : Thread ι n} {χ : Phase n} (h : Visits t φ s T χ) : Stops χ := by
  cases h <;> trivial

theorem Visits.not_final {t : Thread ι n} {i : ι} {χ : Phase n} (h : Visits t φ s T χ) :
    ¬ (protocol ι n E).final (.client i) χ := by
  rintro (rfl | rfl | rfl) <;> cases h

omit [DecidableEq ι] in
theorem Stops.ne_never {φ : Phase n} (h : Stops φ) : φ ≠ never := by
  rintro rfl
  exact h

/-- Until it is through with the workers, `stop` sets no flag that matters. -/
theorem Visits.written {u : Thread ι n} {χ : Phase n} {m : Control ι n} (h : Visits u φ s T χ)
    (hcloses : Closes χ o r ψ) : Attendance.written t m o = m := by
  cases hcloses with
  | begin | visit | rouse | wait | resume | leave => rfl
  | tell | wake | finish => cases h

omit [DecidableEq ι] in
/-- Once every worker rests, all entries were handled. -/
theorem Working.finished (h : Working queueSize φ s T) (hn : 0 < n)
    (hdue : s.memory.due ≤ s.memory.ledger.accepted.length)
    (htelling : φ (.client owner) = telling []) (hrests : ∀ w, Rests φ s T w) :
    Finished owner φ s where
  handled := by
    intro k hk
    refine h.tended.handledOnce hn (by omega) fun w => ⟨(hrests w).waiting, ?_⟩
    have hpassed := (hrests w).passed
    omega
  ended := fun w => .inl ⟨(hrests w).waiting, (hrests w).asleep⟩
  through := .inr (.inl ⟨[], htelling⟩)
  told := fun w hw => absurd (hw [] htelling) List.not_mem_nil

namespace Stopping

/-- A step of somebody else while `stop` visits the workers. -/
theorem attend (h : Stopping owner queueSize calls φ s T) (hshares : Shares owner φ s)
    (hto : t ≠ .client owner) (heffect : (servedProcessor ι n E).Effect s t o r s')
    (hspawn : ∀ u, o ≠ .spawn u) (hstep : step t (φ t) o r = some ψ) :
    Stage owner queueSize calls (Function.update φ t ψ) s' ∧
      Shares owner (Function.update φ t ψ) s' := by
  have hfeeds := hshares.bystander hto
  have hattends : Attends t (φ t) := by
    cases t with
    | worker w => exact h.working.attends w
    | client i => exact (hfeeds i rfl).attends
  have hturn := turn_of_step hattends (h.working.calm hshares heffect) hspawn hstep
  obtain ⟨T', hworking', hadvances⟩ := h.working.turn hshares hturn heffect
  have hvisits : Visits (.client owner) (Function.update φ t ψ) s' T' (φ (.client owner)) := by
    apply h.visits.turn h.due hturn heffect hadvances
    rintro hχ w rfl
    -- a producer that signals holds `workerLock`
    obtain ⟨i, owes, rfl, hwaking⟩ := hturn.waking_of_signal
    have hproducer := hshares.locks (.client i) .workerLock (by rw [hwaking]; exact rfl)
    rw [hshares.locks (.client owner) .workerLock (h.visits.guards hχ)] at hproducer
    exact hto (Option.some.inj hproducer).symm
  refine ⟨.stopping ⟨h.calls, hworking', ⟨?_, fun w => ?_⟩, ?_, ?_⟩,
    hshares.act hattends.ne_never heffect hstep hturn.gains ?_⟩
  · rw [control_of_effect heffect, hturn.running_eq hfeeds]
    exact h.ready.running
  · rw [control_of_effect heffect]
    exact lasts_of_step hattends.ne_never hstep (not_starting hattends hfeeds) (.inl rfl)
      (h.ready.started w)
  · rw [hadvances.due]
    exact h.due.trans hadvances.accepted.length_le
  · rwa [Function.update_of_ne (Ne.symm hto)]
  · rintro i rfl hi
    exact hturn.feeds (hshares.feeds i hi)

/-- A step of `stop` while it visits the workers. -/
theorem visit (h : Stopping owner queueSize calls φ s T) (hn : 0 < n)
    (hshares : Shares owner φ s)
    (heffect : (servedProcessor ι n E).Effect s (.client owner) o r s')
    (hstep : step (.client owner) (φ (.client owner)) o r = some ψ) :
    Stage owner queueSize calls (Function.update φ (.client owner) ψ) s' ∧
      Shares owner (Function.update φ (.client owner) ψ) s' := by
  have hnever := h.visits.stops.ne_never
  have hsteady : Steady (φ (.client owner)) o r :=
    steady_of_effect heffect hshares.cleared fun _ => ⟨h.ready, h.working.alive⟩
  have hact : Gains (.client owner) (φ (.client owner)) ψ o →
      Shares owner (Function.update φ (.client owner) ψ) s' := by
    intro hgains
    apply hshares.act hnever heffect hstep hgains
    intro i hi hne
    exact absurd (by simpa using hi.symm) hne
  rcases closes_of_step h.visits.stops hsteady hstep with hcloses | ⟨hplain, hψ⟩
  · refine ⟨?_, hact hcloses.gains⟩
    have hplant := plant_of_closes heffect hcloses
    rw [h.visits.written hcloses] at hplant
    have hworking : Working queueSize (Function.update φ (.client owner) ψ) s' T :=
      h.working.client (by rw [hplant]) (by rw [hplant]) fun w => by rw [hplant]
    have hdue : s'.memory.due ≤ s'.memory.ledger.accepted.length := by
      rw [hplant]
      exact h.due
    have hready : Ready s'.memory.control.flag := by
      rw [hplant]
      exact h.ready
    rcases h.visits.closes hn heffect hcloses rfl hshares.locks with hvisits | ⟨rfl, hrests⟩
    · refine .stopping ⟨h.calls, hworking, hready, hdue, ?_⟩
      rwa [Function.update_self]
    · obtain ⟨before, rfl, -, hstart⟩ := h.calls
      refine .finished (List.mem_cons_of_mem _ hstart) List.mem_cons_self ?_
      exact hworking.finished hn hdue (Function.update_self _ _ _) hrests
  · subst hψ
    refine ⟨?_, hact fun l hl => .inr hl⟩
    have hplant := plant_of_plain heffect hplain
    have hcontrol := control_of_effect heffect
    have hworking : Working queueSize (Function.update φ (.client owner) (φ (.client owner))) s'
        T := by
      apply h.working.client (by rw [hplant]) (by rw [hplant])
      intro w
      rw [hcontrol, hplain.flag (f := .worker w .isTerminatedFlag) trivial]
    refine .stopping ⟨h.calls, hworking, ⟨?_, fun w => ?_⟩, ?_, ?_⟩
    · rw [hcontrol, hplain.flag (f := .isRunningFlag) trivial]
      exact h.ready.running
    · rw [hcontrol]
      apply lasts_of_ne hnever hstep (.inl rfl) ?_ (h.ready.started w)
      rintro rfl
      exact hplain
    · rw [hplant]
      exact h.due
    · rw [Function.update_self]
      exact h.visits.plain heffect hplain

end Stopping

namespace Stage

/-- A step once `stop` is through with the workers. -/
theorem finish (hshares : Shares owner φ s) (hstart : .start ∈ calls) (hstop : .stop ∈ calls)
    (h : Finished owner φ s)
    (heffect : (servedProcessor ι n E).Effect s t o r s') (hspawn : ∀ u, o ≠ .spawn u)
    (hstep : step t (φ t) o r = some ψ) :
    Stage owner queueSize calls (Function.update φ t ψ) s' ∧
      Shares owner (Function.update φ t ψ) s' := by
  obtain ⟨hnever, -⟩ := (h.late hshares t).apart
  cases t with
  | worker w =>
      obtain ⟨hfinished, hgains⟩ := h.work hshares heffect hspawn hstep
      refine ⟨.finished hstart hstop hfinished, hshares.act hnever heffect hstep hgains ?_⟩
      intro i hi
      cases hi
  | client i =>
      by_cases hfeeds : Feeds (φ (.client i))
      · have hcalm : Calm (φ (.client i)) o r :=
          calm_of_effect heffect hshares.terminated hshares.cleared fun hwary =>
            absurd hwary hfeeds.not_wary
        have hturn := turn_of_step hfeeds.attends hcalm hspawn hstep
        refine ⟨.finished hstart hstop (h.feed hshares hfeeds heffect hturn hstep),
          hshares.act hnever heffect hstep hturn.gains fun _ _ _ => hturn.feeds hfeeds⟩
      · obtain rfl : i = owner := by
          by_contra hi
          exact hfeeds (hshares.feeds i hi)
        obtain ⟨hfinished, hgains⟩ := h.close hshares hfeeds heffect hstep
        refine ⟨.finished hstart hstop hfinished, hshares.act hnever heffect hstep hgains ?_⟩
        intro j hj hne
        exact absurd (by simpa using hj.symm) hne

/-- What one step preserves. -/
theorem act (h : Stage owner queueSize calls φ s) (hn : 0 < n) (hshares : Shares owner φ s)
    (heffect : (servedProcessor ι n E).Effect s t o r s') (hspawn : ∀ u, o ≠ .spawn u)
    (hstep : step t (φ t) o r = some ψ) :
    Stage owner queueSize calls (Function.update φ t ψ) s' ∧
      Shares owner (Function.update φ t ψ) s' := by
  cases h with
  | before h => exact h.act hshares heffect hspawn hstep
  | stopping h =>
      by_cases hto : t = .client owner
      · subst hto
        exact h.visit hn hshares heffect hstep
      · exact h.attend hshares hto heffect hspawn hstep
  | finished hstart hstop h => exact finish hshares hstart hstop h heffect hspawn hstep

end Stage

/-! ## Workers that are created, and calls -/

omit [DecidableEq ι] in
theorem Feeds.not_opened {φ : Phase n} (h : Feeds φ) : ¬ Opened φ := by
  cases φ <;> first | exact id | exact False.elim h

omit [DecidableEq ι] in
theorem Stops.not_opened {φ : Phase n} (h : Stops φ) : ¬ Opened φ := by
  cases φ <;> first | exact id | exact False.elim h

omit [DecidableEq ι] in
theorem Retires.not_opened {φ : Phase n} (h : Retires φ) : ¬ Opened φ := by
  cases φ <;> first | exact id | exact False.elim h

omit [DecidableEq ι] in
theorem not_opened_of_worker {φ : Phase n} {w : Fin n} (h : Attends (.worker w : Thread ι n) φ) :
    ¬ Opened φ := by
  cases φ <;> first | exact id | exact False.elim h

theorem opened_of_spawn {φ : Phase n} {u : Thread ι n} (hφ : φ ≠ never)
    (h : step t φ (.spawn u : Op (names ι n E)) () = some ψ) : Opened φ := by
  simp only [step, if_neg hφ, spawns] at h
  split at h
  · trivial
  · trivial
  · cases h

/-- A step of a client that leaves everybody else, and what is shared, as it is. -/
theorem Shares.enter (h : Shares owner φ s) {i : ι} {χ : Phase n} {m : Plant ι n E}
    (hfeeds : i ≠ owner → Feeds χ) (hguards : ∀ l, ¬ Guards (.client i : Thread ι n) χ l)
    (hcontrol : m.control = s.memory.control) :
    Shares owner (Function.update φ (.client i) χ) { s with memory := m } where
  feeds := by
    intro j hj
    by_cases hji : j = i
    · subst hji
      rw [Function.update_self]
      exact hfeeds hj
    · rw [Function.update_of_ne (by simpa using hji)]
      exact h.feeds j hj
  locks := by
    intro u l hl
    by_cases hui : u = .client i
    · subst hui
      rw [Function.update_self] at hl
      exact absurd hl (hguards l)
    · rw [Function.update_of_ne hui] at hl
      exact h.locks u l hl
  terminated := by
    rw [hcontrol]
    exact h.terminated
  cleared := by
    rw [hcontrol]
    exact h.cleared

namespace Stage

theorem ne_never (h : Stage owner queueSize calls φ s) (hshares : Shares owner φ s)
    (t : Thread ι n) : φ t ≠ never := by
  cases h with
  | before h => exact (h.attends hshares t).ne_never
  | stopping h =>
      cases t with
      | worker w => exact (h.working.attends w).ne_never
      | client i =>
          by_cases hi : i = owner
          · subst hi
            exact h.visits.stops.ne_never
          · exact (hshares.feeds i hi).late.apart.1
  | finished hstart hstop h => exact (h.late hshares t).apart.1

/-- Workers are created before `stop` is called. -/
theorem spawn (h : Stage owner queueSize calls φ s) (hshares : Shares owner φ s)
    {u : Thread ι n} (hstep : step t (φ t) (.spawn u : Op (names ι n E)) () = some ψ)
    (hfinal : (protocol ι n E).final u (φ u)) :
    Stage owner queueSize calls
        (Function.update (Function.update φ u ((protocol ι n E).born u (φ u))) t ψ) s ∧
      Shares owner
        (Function.update (Function.update φ u ((protocol ι n E).born u (φ u))) t ψ) s := by
  have hopened := opened_of_spawn (h.ne_never hshares t) hstep
  cases h with
  | before h =>
      have hattends := h.attends hshares t
      obtain ⟨i, v, rfl, rfl, rfl, -, -⟩ := worker_of_spawn (E := E) hattends hstep
      have habsent := final_worker (h.working.attends v) hfinal
      have hborn : (protocol ι n E).born (.worker v) (φ (.worker v)) = fresh := by
        rw [habsent]
        rfl
      have hsame : Function.update (Function.update φ (.worker v) fresh) (.client i)
          (φ (.client i)) = Function.update φ (.worker v) fresh :=
        Function.update_eq_self_iff.mpr (by simp)
      rw [hborn, hsame]
      have hclient : ∀ j, Function.update φ (.worker v) fresh (.client j) = φ (.client j) :=
        fun j => Function.update_of_ne (by simp) _ _
      refine ⟨.before ⟨h.stop, ⟨?_, h.working.alive, h.working.tended.serving, ?_, ?_⟩, ?_, ?_⟩,
        ?_, ?_, hshares.terminated, hshares.cleared⟩
      · intro w
        by_cases hwv : w = v
        · subst hwv
          rw [Function.update_self]
          trivial
        · rw [Function.update_of_ne (by simpa using hwv)]
          exact h.working.attends w
      · exact registered_update h.working.tended.inQueue (fun _ => id)
          fun _ _ _ hfresh => absurd rfl hfresh
      · exact h.working.tended.tallied.congr
          (fun w => Tallied.taken_update (by simp [habsent])) rfl (List.prefix_refl _) rfl
          fun _ _ => rfl
      · rw [hclient]
        exact h.idle
      · rw [hclient]
        exact h.launched
      · intro j hj
        rw [hclient]
        exact hshares.feeds j hj
      · intro x l hl
        by_cases hxv : x = .worker v
        · subst hxv
          rw [Function.update_self] at hl
          cases hl
        · rw [Function.update_of_ne hxv] at hl
          exact hshares.locks x l hl
  | stopping h =>
      exfalso
      cases t with
      | worker w => exact not_opened_of_worker (h.working.attends w) hopened
      | client i =>
          by_cases hi : i = owner
          · subst hi
            exact h.visits.stops.not_opened hopened
          · exact (hshares.feeds i hi).not_opened hopened
  | finished hstart hstop h =>
      exfalso
      cases t with
      | worker w => exact (h.retires w).not_opened hopened
      | client i =>
          by_cases hi : i = owner
          · subst hi
            rcases h.through with hfeeds | ⟨ws, hφ⟩ | hφ
            · exact hfeeds.not_opened hopened
            · rw [hφ] at hopened
              exact hopened
            · rw [hφ] at hopened
              exact hopened
          · exact (hshares.feeds i hi).not_opened hopened

/-- What a thread has added does not matter here. -/
theorem added (h : Stage owner queueSize calls φ s) (a : Thread ι n → Bool) :
    Stage owner queueSize calls φ { s with memory := { s.memory with added := a } } := by
  have hworking : ∀ T, Working queueSize φ s T →
      Working queueSize φ { s with memory := { s.memory with added := a } } T := by
    intro T hT
    rw [← Function.update_eq_self (.client owner) φ]
    exact hT.client rfl rfl fun _ => rfl
  cases h with
  | before h => exact .before ⟨h.stop, hworking _ h.working, h.idle, h.launched⟩
  | stopping h =>
      refine .stopping ⟨h.calls, hworking _ h.working, h.ready, h.due, ?_⟩
      exact h.visits.congr (fun v hv => ⟨hv.waiting, hv.asleep, hv.passed⟩) (fun _ => id)
        (fun _ => rfl) rfl
  | finished hstart hstop h =>
      refine .finished hstart hstop ⟨fun k hk => ?_, h.ended, h.through, h.told⟩
      exact (h.handled k hk).congr rfl (List.prefix_refl _)

/-- Another client begins to add an entry. -/
theorem enter_other (h : Stage owner queueSize calls φ s) (hshares : Shares owner φ s) {i : ι}
    (hi : i ≠ owner) (hfinal : (protocol ι n E).final (.client i) (φ (.client i)))
    (a : Thread ι n → Bool) :
    Stage owner queueSize calls (Function.update φ (.client i) (outside []))
      { s with memory := { s.memory with added := a } } := by
  have hφ := final_client (hshares.feeds i hi).attends hfinal
  rw [← hφ, Function.update_eq_self]
  exact h.added a

/-- The owner begins to add an entry. -/
theorem enter_add (h : Stage owner queueSize calls φ s) (hshares : Shares owner φ s) (e : E)
    (hfinal : (protocol ι n E).final (.client owner) (φ (.client owner)))
    (a : Thread ι n → Bool) :
    Stage owner queueSize (.add e :: calls) (Function.update φ (.client owner) (outside []))
      { s with memory := { s.memory with added := a } } := by
  apply added
  cases h with
  | before h =>
      have hφ := final_client (h.attends hshares (.client owner)) hfinal
      rw [← hφ, Function.update_eq_self]
      exact .before ⟨by simpa using h.stop, h.working, by simpa using h.idle,
        by simpa using h.launched⟩
  | stopping h => exact absurd hfinal h.visits.not_final
  | finished hstart hstop h =>
      refine .finished (by simp [hstart]) (by simp [hstop])
        ⟨h.handled, fun w => ?_, .inl ?_, fun w _ => ?_⟩
      · rw [Ended, Function.update_of_ne (by simp)]
        exact h.ended w
      · rw [Function.update_self]
        trivial
      · apply h.told w
        intro ws htelling
        rcases hfinal with hφ | hφ | hφ <;> rw [htelling] at hφ <;> cases hφ

/-- The owner begins to start the processor. -/
theorem enter_start (h : Stage owner queueSize calls φ s) (hstart : .start ∉ calls)
    (a : Thread ι n → Bool) :
    Stage owner queueSize (.start :: calls) (Function.update φ (.client owner) startCalled)
      { s with memory := { s.memory with added := a } } := by
  cases h with
  | before h =>
      refine .before ⟨by simpa using h.stop, h.working.client rfl rfl fun _ => rfl,
        fun hnot => absurd List.mem_cons_self hnot, fun _ => ?_⟩
      rw [Function.update_self]
      exact .called (h.idle hstart).2
  | stopping h =>
      obtain ⟨before, rfl, -, hbefore⟩ := h.calls
      exact absurd (List.mem_cons_of_mem _ hbefore) hstart
  | finished hbefore => exact absurd hbefore hstart

/-- The owner begins to stop the processor. -/
theorem enter_stop (h : Stage owner queueSize calls φ s) (hstart : .start ∈ calls)
    (hstop : .stop ∉ calls)
    (hfinal : (protocol ι n E).final (.client owner) (φ (.client owner)))
    (a : Thread ι n → Bool) :
    Stage owner queueSize (.stop :: calls) (Function.update φ (.client owner) stopCalled)
      { s with
        memory := { s.memory with added := a, due := s.memory.ledger.accepted.length } } := by
  cases h with
  | before h =>
      have hlaunched := h.launched hstart
      have hφ := final_client hlaunched.attends hfinal
      have hready := hlaunched.ready (by rw [hφ]; trivial)
      refine .stopping ⟨⟨calls, rfl, hstop, hstart⟩, h.working.client rfl rfl fun _ => rfl, hready,
        le_refl _, ?_⟩
      rw [Function.update_self]
      exact .called
  | stopping h =>
      obtain ⟨before, rfl, -⟩ := h.calls
      exact absurd List.mem_cons_self hstop
  | finished _ hbefore => exact absurd hbefore hstop

end Stage

end Attendance

variable [DecidableEq ι]

open Attendance

/-- The owner starts the processor once, and stops it once after that; everybody may add
entries. -/
def Permitted (owner : ι) (calls : Thread ι n → List (ClientCall E)) (t : Thread ι n) :
    ClientCall E → Prop
  | .add _ => True
  | .start => t = .client owner ∧ .start ∉ calls t
  | .stop => t = .client owner ∧ .start ∈ calls t ∧ .stop ∉ calls t
  | .pause _ => False
  | .resume => False
  | .terminate => False

instance [DecidableEq E] (owner : ι) (calls : Thread ι n → List (ClientCall E)) (t : Thread ι n) :
    (c : ClientCall E) → Decidable (Permitted owner calls t c)
  | .add _ => .isTrue trivial
  | .start => inferInstanceAs (Decidable (_ ∧ _))
  | .stop => inferInstanceAs (Decidable (_ ∧ _))
  | .pause _ => .isFalse id
  | .resume => .isFalse id
  | .terminate => .isFalse id

/-- And waits return only when signalled. -/
def StoppedOnce (owner : ι)
    (s : State (names ι n E) (Plant ι n E × (Thread ι n → List (ClientCall E)))) :
    Label (names ι n E) → Prop
  | .step _ _ => True
  | .spurious _ => False
  | .enter t c => Permitted owner s.calls t c

instance [DecidableEq E] (owner : ι)
    (s : State (names ι n E) (Plant ι n E × (Thread ι n → List (ClientCall E)))) :
    (l : Label (names ι n E)) → Decidable (StoppedOnce owner s l)
  | .step _ _ => .isTrue trivial
  | .spurious _ => .isFalse id
  | .enter t c => inferInstanceAs (Decidable (Permitted owner s.calls t c))

namespace Attendance

open Phase

/-- Where the threads are, and what that says of the entries. -/
def Progresses (owner : ι) (queueSize : Nat) (φ : Thread ι n → Phase n)
    (s : Shared (names ι n E) (Plant ι n E × (Thread ι n → List (ClientCall E)))) : Prop :=
  Shares owner φ s.forget ∧ Stage owner queueSize (s.memory.2 (.client owner)) φ s.forget

variable {owner : ι} {queueSize : Nat}

theorem progresses_new (hsize : 0 < queueSize) (dataEntries : ProcessingQueueDataArray E) :
    Progresses owner queueSize atFirst
      (newServedProcessor ι n queueSize dataEntries).recorded.shared := by
  refine ⟨⟨fun i _ => trivial, ?_, rfl, rfl⟩, ?_⟩
  · rintro (i | w) l hl <;> cases hl
  · refine .before ⟨by simp [State.recorded],
      ⟨fun w => trivial, fun w => rfl, .new hsize dataEntries, fun w hw => absurd rfl hw, ?_⟩,
      fun _ => ⟨trivial, rfl⟩, by simp [State.recorded]⟩
    constructor
    · exact List.nodup_nil
    · rintro w k hk
      cases hk
    · rintro k hk
      cases hk
    · rintro w hw
      cases hw
    · rintro x hx
      cases hx

variable {φ : Thread ι n → Phase n}
  {s s' : Shared (names ι n E) (Plant ι n E × (Thread ι n → List (ClientCall E)))}

theorem Progresses.enter (h : Progresses owner queueSize φ s) {i : ι} {c : ClientCall E}
    (hpermitted : Permitted owner s.memory.2 (.client i) c)
    (hfinal : (protocol ι n E).final (.client i) (φ (.client i))) :
    Progresses owner queueSize
      (Function.update φ (.client i) ((protocol ι n E).enter (.client i) c (φ (.client i))))
      { s with memory := (s.memory.1.enter (.client i) c,
        Function.update s.memory.2 (.client i) (c :: s.memory.2 (.client i))) } := by
  obtain ⟨hshares, hstage⟩ := h
  have henter : (protocol ι n E).enter (.client i) c (φ (.client i)) = begin c :=
    if_neg (hstage.ne_never hshares (.client i))
  rw [henter]
  cases c with
  | add e =>
      refine ⟨hshares.enter (fun _ => trivial) (fun l => id) rfl, ?_⟩
      by_cases hi : i = owner
      · subst hi
        dsimp only
        rw [Function.update_self]
        exact hstage.enter_add hshares e hfinal _
      · dsimp only
        rw [Function.update_of_ne (by simpa using Ne.symm hi)]
        exact hstage.enter_other hshares hi hfinal _
  | start =>
      obtain ⟨hi, hstart⟩ := hpermitted
      obtain rfl : i = owner := by simpa using hi
      refine ⟨hshares.enter (fun hne => absurd rfl hne) (fun l => id) rfl, ?_⟩
      dsimp only
      rw [Function.update_self]
      exact hstage.enter_start hstart _
  | stop =>
      obtain ⟨hi, hstart, hstop⟩ := hpermitted
      obtain rfl : i = owner := by simpa using hi
      refine ⟨hshares.enter (fun hne => absurd rfl hne) (fun l => id) rfl, ?_⟩
      dsimp only
      rw [Function.update_self]
      exact hstage.enter_stop hstart hstop hfinal _
  | pause block | resume | terminate => cases hpermitted

end Attendance

/-- The phases of a run in which the owner stops the processor. -/
theorem progresses_of_reachable {queueSize : Nat} (hn : 0 < n) (hsize : 0 < queueSize)
    (dataEntries : ProcessingQueueDataArray E) (owner : ι)
    {s : State (names ι n E) (Plant ι n E × (Thread ι n → List (ClientCall E)))}
    (h : (((servedProcessor ι n E).recording.system
      (newServedProcessor ι n queueSize dataEntries).recorded).restrict
        (StoppedOnce owner)).Reachable s) :
    ∃ φ, (protocol ι n E).Obeys φ s ∧ Progresses owner queueSize φ s.shared := by
  have hobeys : (protocol ι n E).Obeys atFirst
      (newServedProcessor ι n queueSize dataEntries).recorded := by
    rintro (i | w)
    · exact .inr (.inl rfl)
    · exact .inr (.inl rfl)
  apply Protocol.invariant_of_effects obeyed.recording (J := Progresses owner queueSize) hobeys
    (progresses_new hsize dataEntries) ?_ ?_ ?_ ?_ h
  · rintro φ s t c o r shared ψ ⟨hshares, hstage⟩ - hspawn heffect htrans
    obtain ⟨heffect', hcalls⟩ := heffect.forget
    obtain ⟨hstage', hshares'⟩ := hstage.act hn hshares heffect' hspawn htrans
    exact ⟨hshares', by rwa [hcalls]⟩
  · rintro φ shared t u ψ ⟨hshares, hstage⟩ htrans hfinal
    obtain ⟨hstage', hshares'⟩ := hstage.spawn hshares htrans hfinal
    exact ⟨hshares', hstage'⟩
  · intro φ s t c l ψ _ hspurious
    exact hspurious.elim
  · intro φ s t c m p hJ hpermitted hentry hfinal
    obtain ⟨⟨m', p'⟩, hentry', hm⟩ := Option.map_eq_some_iff.mp hentry
    cases t with
    | worker w => cases hentry'
    | client i =>
        obtain ⟨rfl, -⟩ : s.shared.memory.1.enter (.client i) c = m' ∧ method c = p' := by
          simpa [servedProcessor, threadCall] using hentry'
        obtain ⟨rfl, -⟩ := Prod.mk.inj hm
        exact hJ.enter hpermitted hfinal

/-- Once `stop` has returned, every entry that was accepted before it was called was
handled, and was handled once. -/
theorem stop_drains {queueSize : Nat} (hn : 0 < n) (hsize : 0 < queueSize)
    (dataEntries : ProcessingQueueDataArray E) (owner : ι)
    {s : State (names ι n E) (Plant ι n E × (Thread ι n → List (ClientCall E)))}
    (h : (((servedProcessor ι n E).recording.system
      (newServedProcessor ι n queueSize dataEntries).recorded).restrict
        (StoppedOnce owner)).Reachable s)
    (hreturned : s.Returned (.client owner) .stop) {k : Nat} (hk : k < s.shared.memory.1.due) :
    s.shared.memory.1.HandledOnce k := by
  obtain ⟨φ, hobeys, -, hstage⟩ := progresses_of_reachable hn hsize dataEntries owner h
  cases hstage with
  | before h =>
      have hmem : .stop ∈ s.calls (.client owner) := by
        rcases hreturned with htail | ⟨hmem, -⟩
        · exact List.mem_of_mem_tail htail
        · exact hmem
      exact absurd hmem h.stop
  | stopping h =>
      obtain ⟨before, hcalls, hstop, -⟩ := h.calls
      rcases hreturned with htail | ⟨-, hhead⟩
      · rw [State.calls, hcalls] at htail
        exact absurd htail hstop
      · obtain ⟨-, hfinal⟩ := (hobeys (.client owner)).post_of_head hhead
        exact absurd hfinal h.visits.not_final
  | finished hstart hstop h => exact h.handled k hk

/-- An entry is added and `stop` called before the worker has begun; the worker takes the
entry, finds nothing else, and is told to end. -/
def stoppedOnce : List (Label (names Unit 1 Nat)) :=
  let w : Thread Unit 1 := .worker ⟨0, Nat.one_pos⟩
  let client (k : Nat) : List (Label (names Unit 1 Nat)) :=
    List.replicate k (.step (.client ()) .go)
  let worker (k : Nat) : List (Label (names Unit 1 Nat)) :=
    List.replicate k (.step w .go)
  let answered (a : Int) : List (Label (names Unit 1 Nat)) := [.step w (.answer a)]
  [.enter (.client ()) .start] ++ client 18 ++
    [.enter (.client ()) (.add 5)] ++ client 6 ++ [.step (.client ()) (.answer 0)] ++ client 11 ++
    [.enter (.client ()) .stop] ++ client 11 ++
    answered 0 ++ answered 0 ++ worker 2 ++ answered 1 ++ answered 0 ++ worker 3 ++
    answered 0 ++ worker 1 ++ answered 0 ++ worker 6 ++
    client 8 ++ [.step (.client ()) (.wake w)] ++ client 12 ++
    worker 4 ++ answered 0 ++ worker 2 ++ [.step w (.wake (.client ()))] ++ worker 1 ++
    client 8

theorem stop_drains_of_stoppedOnce :
    ∃ s : State (names Unit 1 Nat) (Plant Unit 1 Nat × (Thread Unit 1 → List (ClientCall Nat))),
      s.Returned (.client ()) .stop ∧ s.shared.memory.1.due = 1 ∧
      s.shared.memory.1.HandledOnce 0 := by
  obtain ⟨s, hs, hreturned, hdue⟩ := (servedProcessor Unit 1 Nat).recording.exists_of_follow
    (newServedProcessor Unit 1 4 (.uniform Nat 8)).recorded (StoppedOnce ())
    (fun s => s.Returned (.client ()) .stop ∧ s.shared.memory.1.due = 1)
    stoppedOnce (by decide +kernel)
  exact ⟨s, hreturned, hdue, stop_drains (by decide) (by decide) _ () hs hreturned (by omega)⟩

end HPQueue
