import HPQueue.Consumer.Draining

/-!
# Once all workers rest

The workers are told to end, one after the other.  A worker that was told ends without
another look at its slot, and one that was not told still waits, so that nothing is
handled any more.

## Main results

* `Retires.of_step` — a worker that was told to end.
* `Finished.turn`, `Finished.closes`, `Finished.retire` — what a step preserves.
-/

namespace HPQueue

open Library.Threads Prog

variable {ι : Type} {n : Nat} {E : Type}

namespace Ledger

variable {ρ : Type} [DecidableEq ρ] {t t' : Ledger ρ E} {r : ρ}

omit [DecidableEq ρ] in
theorem accepted_add (t : Ledger ρ E) (e : E) : t.accepted <+: (t.add e).accepted := by
  unfold Ledger.add
  dsimp only
  split
  · exact List.prefix_refl _
  · exact List.prefix_append _ _

theorem accepted_startAccess (h : t.startAccess r = .ok t') : t'.accepted = t.accepted := by
  obtain ⟨s, -, h⟩ := bind_eq_ok.mp h
  dsimp only at h
  split at h
  all_goals
    obtain rfl := Except.ok.inj h
    rfl

theorem accepted_remove (h : t.remove r = .ok t') : t'.accepted = t.accepted := by
  obtain ⟨⟨s, result⟩, -, h⟩ := bind_eq_ok.mp h
  obtain rfl := Except.ok.inj h
  dsimp only [Ledger.settle, Ledger.assign]
  split <;> split <;> rfl

omit [DecidableEq ρ] in
theorem accepted_endAccess [DecidableEq ρ] (h : t.endAccess r = .ok t') :
    t'.accepted = t.accepted := by
  obtain ⟨s, -, h⟩ := bind_eq_ok.mp h
  obtain rfl := Except.ok.inj h
  rfl

end Ledger

namespace Attendance

open Phase

variable [DecidableEq ι] {t : Thread ι n} {φ ψ : Phase n} {o : Op (names ι n E)} {r : o.Result}
  {s s' : Shared (names ι n E) (Plant ι n E)}

/-- An entry that was handled once stays so, as long as nothing is handled. -/
theorem handledOnce_of_effect (heffect : (servedProcessor ι n E).Effect s t o r s')
    (hhandle : ∀ v, o ≠ .ask (.handle v)) :
    s'.memory.due = s.memory.due ∧ ∀ k, s.memory.HandledOnce k → s'.memory.HandledOnce k := by
  by_cases hask : ∀ q, o ≠ .ask q
  · rw [plant_of_effect heffect hask]
    exact ⟨rfl, fun k hk => hk.congr rfl (List.prefix_refl _)⟩
  · obtain ⟨q, rfl⟩ := not_forall_not.mp hask
    cases heffect with
    | ask hreply =>
        cases Plant.replies_of_reply hreply with
        | add e => exact ⟨rfl, fun k hk => hk.congr rfl (Ledger.accepted_add _ e)⟩
        | isMaxSize | started => exact ⟨rfl, fun k hk => hk⟩
        | init hrun a =>
            refine ⟨rfl, fun k hk => hk.congr rfl ?_⟩
            rw [Ledger.accepted_startAccess hrun]
        | finalize hrun a =>
            refine ⟨rfl, fun k hk => hk.congr rfl ?_⟩
            rw [Ledger.accepted_endAccess hrun]
        | remove hrun hentry =>
            refine ⟨rfl, fun k hk => hk.congr rfl ?_⟩
            rw [Ledger.accepted_remove hrun]
        | handle w => exact absurd rfl (hhandle w)
        | isWork hwork => exact ⟨rfl, fun k hk => hk.congr rfl (List.prefix_refl _)⟩

/-! ## A worker that was told to end -/

/-- A worker on its way from its last wait to its end. -/
def Retires : Phase n → Prop
  | waiting => True
  | woken => True
  | locked => True
  | empty => True
  | marked => True
  | rounding => True
  | leaving => True
  | gone => True
  | _ => False

omit [DecidableEq ι] in
/-- Only some tests depend on the phase. -/
theorem Calm.congr {φ' : Phase n} (h : Calm φ o r)
    (hwary : ∀ v, o = .load (.flag (.worker v .isTerminatedFlag)) → Wary φ' → Wary φ) :
    Calm φ' o r := by
  cases o with
  | load x =>
      cases x with
      | flag f =>
          cases f with
          | worker v g =>
              cases g with
              | isTerminatedFlag => exact fun hφ => h (hwary v rfl hφ)
              | isStartedFlag | isPausedFlag | isIdleFlag | isDeadFlag | isWaitingFlag
              | haveWorkJoiners => exact h
          | isRunningFlag | isPausedFlag | isTerminatedFlag | resizing | cleared
          | processingWorker v => exact h
      | addingCount | nestedPauseCounter => exact h
  | ask q => cases q <;> exact h
  | acquire l | release l | wait c l | resume c l | signal c | broadcast c | store x | call p
  | spawn u => exact h

omit [DecidableEq ι] in
theorem Retires.turn {w : Fin n} (h : Retires φ) (hturn : Turn (.worker w) φ o r ψ)
    (hround : ∀ v, φ = rounding → o ≠ .load (.flag (.worker v .isTerminatedFlag))) :
    Retires ψ := by
  cases hturn with
  | works ht hturn =>
      cases hturn with
      | init | remove | handle | lock => cases h
      | isWork work => split <;> trivial
      | round => exact absurd rfl (hround _ rfl)
      | mark | rouse | wait | resume | unmark | unlock | unlockEmpty => trivial
  | produces ht hturn | opens ht hturn => cases ht
  | stays hplain => exact h

/-- A worker that is out of its loop. -/
theorem gone_of_step {w : Fin n} (hφ : φ = leaving ∨ φ = gone)
    (heffect : (servedProcessor ι n E).Effect s (.worker w) o r s')
    (hcleared : s.memory.control.flag .cleared = false)
    (hterminated : s.memory.control.flag (.worker w .isTerminatedFlag) = true)
    (h : step (.worker w) φ o r = some ψ) : ψ = leaving ∨ ψ = gone := by
  have hsees := sees_of_effect heffect
  have hne : φ ≠ never := by rcases hφ with rfl | rfl <;> simp
  have hstays : some φ = some ψ → ψ = leaving ∨ ψ = gone := by
    intro hψ
    obtain rfl := Option.some.inj hψ
    exact hφ
  unfold step at h
  rw [if_neg hne] at h
  cases o with
  | acquire l =>
      apply hstays
      replace h : acquires (.worker w) φ l = some ψ := h
      rcases hφ with rfl | rfl <;> cases l <;> first | exact h | cases h
  | release l =>
      apply hstays
      replace h : releases (.worker w) φ l = some ψ := h
      rcases hφ with rfl | rfl <;> cases l <;> first | exact h | cases h
  | wait c l =>
      apply hstays
      replace h : waits (.worker w) φ c l = some ψ := h
      unfold waits at h
      split at h <;> rcases hφ with rfl | rfl <;> first | exact h | cases h
  | resume c l =>
      apply hstays
      replace h : resumes (.worker w) φ c l = some ψ := h
      unfold resumes at h
      split at h <;> rcases hφ with rfl | rfl <;> first | exact h | cases h
  | signal c =>
      apply hstays
      replace h : signals φ c = some ψ := h
      rcases hφ with rfl | rfl <;> cases c <;> first | exact h | cases h
  | broadcast c =>
      apply hstays
      cases c with
      | isWorkWaiting v => rcases hφ with rfl | rfl <;> simp [broadcasts] at h
      | isResizingCond | hasDied v | hasPaused v | isIdle v => exact h
  | load x =>
      apply hstays
      replace h : loads (.worker w) φ r x = some ψ := h
      unfold loads at h
      split at h
      · rcases hφ with rfl | rfl <;> exact h
      · rcases hφ with rfl | rfl <;> exact h
      · rw [show r = false from hsees.trans hcleared] at h
        exact h
      · rcases hφ with rfl | rfl <;> exact h
      · rcases hφ with rfl | rfl <;> exact h
      · rename_i v
        rcases hφ with rfl | rfl
        · obtain ⟨hv, h⟩ := Option.ite_none_right_eq_some.mp h
          obtain rfl : w = v := by simpa using hv
          rw [show r = true from hsees.trans hterminated] at h
          exact h
        · exact h
      · rcases hφ with rfl | rfl <;> exact h
      · exact h
  | store x =>
      apply hstays
      replace h : stores (.worker w) φ x = some ψ := h
      unfold stores at h
      split at h
      all_goals first | exact h | skip
      all_goals rcases hφ with rfl | rfl <;> cases h
  | ask q =>
      cases q with
      | isMaxSize | started v => exact hstays h
      | resize =>
          cases heffect with
          | ask hreply => cases hreply
      | finalize v =>
          obtain ⟨-, rfl⟩ : _ ∧ gone = ψ := by simpa [asks] using h
          exact .inr rfl
      | add e | init v | remove v | handle v | isWork v =>
          rcases hφ with rfl | rfl <;> simp [asks] at h
  | call p => cases h
  | spawn u =>
      replace h : spawns φ u = some ψ := h
      rcases hφ with rfl | rfl <;> cases u <;> cases h

/-- A worker that was told to end. -/
theorem Retires.of_step {w : Fin n} (h : Retires φ)
    (heffect : (servedProcessor ι n E).Effect s (.worker w) o r s')
    (hspawn : ∀ u, o ≠ .spawn u)
    (hends : s.memory.control.flag .isTerminatedFlag = false)
    (hcleared : s.memory.control.flag .cleared = false)
    (hterminated : s.memory.control.flag (.worker w .isTerminatedFlag) = true)
    (hstep : step (.worker w) φ o r = some ψ) : Retires ψ ∧ Gains (.worker w) φ ψ o := by
  by_cases hend : φ = leaving ∨ φ = gone
  · rcases gone_of_step hend heffect hcleared hterminated hstep with rfl | rfl
    · exact ⟨trivial, fun l hl => hl.elim⟩
    · exact ⟨trivial, fun l hl => hl.elim⟩
  by_cases hround : ∃ v, φ = rounding ∧ o = .load (.flag (.worker v .isTerminatedFlag))
  · obtain ⟨v, rfl, rfl⟩ := hround
    have hsees := sees_of_effect heffect
    simp [step, loads] at hstep
    obtain ⟨rfl, rfl⟩ := hstep
    rw [show r = true from hsees.trans hterminated]
    exact ⟨trivial, fun l hl => hl.elim⟩
  · have hattends : Attends (.worker w : Thread ι n) φ := by
      cases φ <;> first | trivial | exact absurd h id | simp at hend
    have hcalm : Calm φ o r := by
      have hwaiting : Calm (waiting : Phase n) o r :=
        calm_of_effect heffect hends hcleared fun hwary => hwary.elim
      apply hwaiting.congr
      rintro v rfl hwary
      have hφ : φ = rounding := by
        cases φ <;> first | rfl | exact False.elim hwary | exact False.elim h
      exact absurd ⟨v, hφ, rfl⟩ hround
    have hturn := turn_of_step hattends hcalm hspawn hstep
    refine ⟨h.turn hturn ?_, hturn.gains⟩
    rintro v rfl rfl
    exact hround ⟨v, rfl, rfl⟩

/-! ## What holds until the end -/

/-- Besides the owner, clients only add entries; nobody terminates the processor. -/
structure Shares (owner : ι) (φ : Thread ι n → Phase n)
    (s : Shared (names ι n E) (Plant ι n E)) : Prop where
  feeds : ∀ i, i ≠ owner → Feeds (φ (.client i))
  locks : ∀ t l, Guards t (φ t) l → s.held l = some t
  terminated : s.memory.control.flag .isTerminatedFlag = false
  cleared : s.memory.control.flag .cleared = false

/-- A worker was told to end, or waits until it is. -/
def Ended (φ : Thread ι n → Phase n) (s : Shared (names ι n E) (Plant ι n E)) (w : Fin n) :
    Prop :=
  φ (.worker w) = waiting ∧ .worker w ∈ s.asleep (.isWorkWaiting w) ∨
    s.memory.control.flag (.worker w .isTerminatedFlag) = true ∧ Retires (φ (.worker w))

/-- All entries were handled, and all workers are ended or wait. -/
structure Finished (owner : ι) (φ : Thread ι n → Phase n)
    (s : Shared (names ι n E) (Plant ι n E)) : Prop where
  handled : ∀ k < s.memory.due, s.memory.HandledOnce k
  ended : ∀ w, Ended φ s w
  through : Feeds (φ (.client owner)) ∨ (∃ ws, φ (.client owner) = telling ws) ∨
    φ (.client owner) = drained
  told : ∀ w, (∀ ws, φ (.client owner) = telling ws → w ∈ ws) →
    s.memory.control.flag (.worker w .isTerminatedFlag) = true

/-- The phases in which nobody starts the processor, visits a worker, or works. -/
def Late : Phase n → Prop
  | never => False
  | taken => False
  | starting _ => False
  | visiting _ _ => False
  | _ => True

omit [DecidableEq ι] in
theorem Late.apart {φ : Phase n} (h : Late φ) : φ ≠ never ∧ φ ≠ taken ∧
    (∀ ws, φ ≠ starting ws) ∧ ∀ w ws, φ ≠ visiting w ws := by
  cases φ <;> simp [Late] at h <;> simp

theorem Feeds.late {φ : Phase n} (h : Feeds φ) : Late φ := by
  cases φ <;> first | exact trivial | exact h

theorem Retires.late {φ : Phase n} (h : Retires φ) : Late φ := by
  cases φ <;> first | exact trivial | exact h

omit [DecidableEq ι] in
theorem mem_of_told {ws : List (Fin n)} {w : Fin n}
    (hw : ∀ ws', told ws = telling ws' → w ∈ ws') : w ∈ ws := by
  by_cases hall : ∀ v, v ∈ ws
  · exact hall w
  · exact hw ws (if_neg hall)

omit [DecidableEq ι] in
theorem told_or (ws : List (Fin n)) :
    Feeds (told ws) ∨ (∃ ws', told ws = telling ws') ∨ told ws = drained := by
  by_cases hall : ∀ v, v ∈ ws
  · exact .inr (.inr (if_pos hall))
  · exact .inr (.inl ⟨ws, if_neg hall⟩)

variable {φ : Thread ι n → Phase n} {owner : ι}

namespace Finished

omit [DecidableEq ι] in
theorem retires (h : Finished owner φ s) (w : Fin n) : Retires (φ (.worker w)) := by
  rcases h.ended w with ⟨hwaiting, -⟩ | ⟨-, hretires⟩
  · rw [hwaiting]
    trivial
  · exact hretires

theorem late (h : Finished owner φ s) (hshares : Shares owner φ s) (t : Thread ι n) :
    Late (φ t) := by
  cases t with
  | worker w => exact (h.retires w).late
  | client i =>
      by_cases hi : i = owner
      · subst hi
        rcases h.through with hfeeds | ⟨ws, htelling⟩ | hdrained
        · exact hfeeds.late
        · rw [htelling]
          trivial
        · rw [hdrained]
          trivial
      · exact (hshares.feeds i hi).late

/-- Who was told to end stays so. -/
theorem lasts (h : Finished owner φ s) (hshares : Shares owner φ s)
    (heffect : (servedProcessor ι n E).Effect s t o r s') (hstep : step t (φ t) o r = some ψ)
    {w : Fin n} (hw : s.memory.control.flag (.worker w .isTerminatedFlag) = true) :
    s'.memory.control.flag (.worker w .isTerminatedFlag) = true := by
  obtain ⟨hnever, -, hstarting, -⟩ := (h.late hshares t).apart
  rw [control_of_effect heffect]
  exact lasts_of_step hnever hstep hstarting (.inr rfl) hw

/-- Who is signalled was told to end before. -/
theorem told_of_signal (h : Finished owner φ s) (hshares : Shares owner φ s) {w : Fin n}
    (hstep : step t (φ t) (.signal (.isWorkWaiting w) : Op (names ι n E)) () = some ψ) :
    s.memory.control.flag (.worker w .isTerminatedFlag) = true := by
  obtain ⟨hnever, -, -, hvisiting⟩ := (h.late hshares t).apart
  have howner : ∀ χ : Phase n, φ t = χ → ¬ Retires χ → ¬ Feeds χ → t = .client owner := by
    rintro χ rfl hretires hfeeds
    cases t with
    | worker v => exact absurd (h.retires v) hretires
    | client i =>
        by_contra hi
        exact hfeeds (hshares.feeds i (by simpa using hi))
  rcases signal_of_step hnever hstep with ⟨owes, hφ⟩ | ⟨ws, hφ⟩ | ⟨ws, hφ, hw⟩ | hφ
  · apply h.told w
    intro ws htelling
    -- both would hold `workerLock`
    have ht := hshares.locks t .workerLock (by rw [hφ]; cases t <;> exact rfl)
    have howner := hshares.locks (.client owner) .workerLock (by rw [htelling]; exact rfl)
    obtain rfl := Option.some.inj (ht.symm.trans howner)
    rw [htelling] at hφ
    cases hφ
  · exact absurd hφ (hvisiting w ws)
  · obtain rfl := howner _ hφ id id
    apply h.told w
    intro ws' htelling
    rw [hφ] at htelling
    cases htelling
    exact hw
  · obtain rfl := howner _ hφ id id
    apply h.told w
    intro ws htelling
    rw [hφ] at htelling
    cases htelling

/-- What one step preserves, if it does so for the thread that takes it. -/
theorem act (h : Finished owner φ s) (hshares : Shares owner φ s)
    (heffect : (servedProcessor ι n E).Effect s t o r s') (hstep : step t (φ t) o r = some ψ)
    (hworker : ∀ w, t = .worker w → Ended (Function.update φ t ψ) s' w)
    (howner : t = .client owner →
      (Feeds ψ ∨ (∃ ws, ψ = telling ws) ∨ ψ = drained) ∧
      ∀ w, (∀ ws, ψ = telling ws → w ∈ ws) →
        s'.memory.control.flag (.worker w .isTerminatedFlag) = true) :
    Finished owner (Function.update φ t ψ) s' := by
  obtain ⟨hnever, htaken, -⟩ := (h.late hshares t).apart
  obtain ⟨hdue, hhandled⟩ := handledOnce_of_effect heffect (by
    rintro v rfl
    exact htaken (handle_of_step hnever hstep))
  constructor
  · intro k hk
    rw [hdue] at hk
    exact hhandled k (h.handled k hk)
  · intro w
    by_cases hwt : t = .worker w
    · exact hworker w hwt
    · rw [Ended, Function.update_of_ne (Ne.symm hwt)]
      cases htold : s.memory.control.flag (.worker w .isTerminatedFlag) with
      | true => exact .inr ⟨h.lasts hshares heffect hstep htold, h.retires w⟩
      | false =>
          rcases h.ended w with ⟨hwaiting, hasleep⟩ | ⟨hterminated, -⟩
          · refine .inl ⟨hwaiting, heffect.asleep_of_ne hasleep ?_ ?_⟩
            · rintro rfl
              rw [h.told_of_signal hshares hstep] at htold
              cases htold
            · rintro rfl
              exact hwt (broadcast_of_step hnever hstep).1
          · rw [hterminated] at htold
            cases htold
  · by_cases hto : t = .client owner
    · subst hto
      rw [Function.update_self]
      exact (howner rfl).1
    · rw [Function.update_of_ne (Ne.symm hto)]
      exact h.through
  · intro w hw
    by_cases hto : t = .client owner
    · subst hto
      rw [Function.update_self] at hw
      exact (howner rfl).2 w hw
    · rw [Function.update_of_ne (Ne.symm hto)] at hw
      exact h.lasts hshares heffect hstep (h.told w hw)

/-- A step of a client that adds entries. -/
theorem feed (h : Finished owner φ s) (hshares : Shares owner φ s) {i : ι}
    (hφ : Feeds (φ (.client i))) (heffect : (servedProcessor ι n E).Effect s (.client i) o r s')
    (hturn : Turn (.client i) (φ (.client i)) o r ψ)
    (hstep : step (.client i) (φ (.client i)) o r = some ψ) :
    Finished owner (Function.update φ (.client i) ψ) s' := by
  apply h.act hshares heffect hstep
  · rintro w hw
    cases hw
  · rintro howner
    obtain rfl : i = owner := by simpa using howner
    refine ⟨.inl (hturn.feeds hφ), fun w _ => ?_⟩
    apply h.lasts hshares heffect hstep
    apply h.told w
    intro ws htelling
    rw [htelling] at hφ
    exact hφ.elim

/-- A step of a worker. -/
theorem work (h : Finished owner φ s) (hshares : Shares owner φ s) {w : Fin n}
    (heffect : (servedProcessor ι n E).Effect s (.worker w) o r s')
    (hspawn : ∀ u, o ≠ .spawn u)
    (hstep : step (.worker w) (φ (.worker w)) o r = some ψ) :
    Finished owner (Function.update φ (.worker w) ψ) s' ∧
      Gains (.worker w) (φ (.worker w)) ψ o := by
  have hact : Ended (Function.update φ (.worker w) ψ) s' w →
      Finished owner (Function.update φ (.worker w) ψ) s' := by
    intro hw
    apply h.act hshares heffect hstep
    · intro v hv
      obtain rfl : w = v := by simpa using hv
      exact hw
    · intro howner
      cases howner
  cases htold : s.memory.control.flag (.worker w .isTerminatedFlag) with
  | true =>
      obtain ⟨hretires, hgains⟩ := (h.retires w).of_step heffect hspawn hshares.terminated
        hshares.cleared htold hstep
      refine ⟨hact (.inr ⟨h.lasts hshares heffect hstep htold, ?_⟩), hgains⟩
      rwa [Function.update_self]
  | false =>
      obtain ⟨hwaiting, hasleep⟩ := (h.ended w).resolve_right fun hterminated => by
        rw [hterminated.1] at htold
        cases htold
      have hturn : Turn (.worker w) (φ (.worker w)) o r ψ := by
        rw [hwaiting] at hstep ⊢
        exact turn_of_step trivial
          (calm_of_effect heffect hshares.terminated hshares.cleared fun hwary => hwary.elim)
          hspawn hstep
      refine ⟨hact (.inl ⟨?_, ?_⟩), hturn.gains⟩
      · rw [Function.update_self]
        exact hturn.waits_on hwaiting heffect hasleep
      · apply heffect.asleep_of_ne hasleep
        · rintro rfl
          rw [h.told_of_signal hshares hstep] at htold
          cases htold
        · rintro rfl
          rw [hwaiting] at hstep
          cases (broadcast_of_step (by simp) hstep).2

/-- A step of `stop`. -/
theorem close (h : Finished owner φ s) (hshares : Shares owner φ s)
    (hφ : ¬ Feeds (φ (.client owner)))
    (heffect : (servedProcessor ι n E).Effect s (.client owner) o r s')
    (hstep : step (.client owner) (φ (.client owner)) o r = some ψ) :
    Finished owner (Function.update φ (.client owner) ψ) s' ∧
      Gains (.client owner) (φ (.client owner)) ψ o := by
  have hthrough := h.through.resolve_left hφ
  have hstops : Stops (φ (.client owner)) := by
    rcases hthrough with ⟨ws, hχ⟩ | hχ <;> rw [hχ] <;> trivial
  have hsteady : Steady (φ (.client owner)) o r := by
    apply steady_of_effect heffect hshares.cleared
    rintro (hχ | ⟨w, ws, hχ⟩)
    all_goals
      rcases hthrough with ⟨ws', htelling⟩ | hdrained
      · rw [hχ] at htelling
        cases htelling
      · rw [hχ] at hdrained
        cases hdrained
  have hact := h.act hshares heffect hstep fun w hw => by cases hw
  have hlasts := fun w => h.lasts hshares heffect hstep (w := w)
  have hsame : ψ = φ (.client owner) → Finished owner (Function.update φ (.client owner) ψ) s' := by
    rintro rfl
    exact hact fun _ => ⟨h.through, fun w hw => hlasts w (h.told w hw)⟩
  rcases closes_of_step hstops hsteady hstep with hcloses | ⟨hplain, rfl⟩
  · refine ⟨?_, hcloses.gains⟩
    generalize hχ : φ (.client owner) = χ at *
    cases hcloses with
    | tell w ws =>
        refine hact fun _ => ⟨told_or _, fun v hv => ?_⟩
        by_cases hvw : v = w
        · subst hvw
          rw [control_of_effect heffect]
          exact written_flag
        · have hv := (List.mem_cons.mp (mem_of_told hv)).resolve_left hvw
          have htold : s.memory.control.flag (.worker v .isTerminatedFlag) = true := by
            apply h.told v
            intro ws' htelling
            rw [hχ] at htelling
            cases htelling
            exact hv
          exact hlasts v htold
    | wake | finish => exact hsame rfl
    | begin | visit | rouse | wait | resume | leave => simp at hthrough
  · exact ⟨hsame rfl, fun l hl => .inr hl⟩

end Finished

end Attendance

end HPQueue
