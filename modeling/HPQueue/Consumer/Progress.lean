import HPQueue.Consumer.Locking
import HPQueue.Consumer.Rendezvous
import HPQueue.Consumer.ResizeWaits

/-!
# A processor never gets stuck

As long as nobody stops the processor, some thread can take a step, or every call has
returned and every worker waits for what only a call can bring: work, or to be resumed.
Whoever waits for a mutex waits for a thread that holds none while it sleeps; a client
that waits for a worker waits for one that is awake; and a producer that waits for the
end of a resize waits for another producer.

## Main results

* `never_stuck` — so clients' calls never block each other or the workers for good.
-/

namespace HPQueue

open Library.Threads Prog Relation

variable {ι : Type} {n : Nat} {E : Type} [DecidableEq ι]

namespace PauseWaits

open Phase

variable {s : State (names ι n E) (Control ι n)} {φ : Thread ι n → Phase n} {t : Thread ι n}
  {w : Fin n}

/-! ## Who sleeps, and who is done -/

/-- The phase of a thread that sleeps. -/
inductive SleepsAt (t : Thread ι n) (φ : Phase n) : Cond n → Lock n → Prop
  | waiting {w : Fin n} (ht : t = .worker w) (hφ : φ = waiting) :
      SleepsAt t φ (.isWorkWaiting w) (.isWorkLock w)
  | parked {w : Fin n} (ht : t = .worker w) (hφ : φ = parked) :
      SleepsAt t φ (.hasPaused w) (.hasPausedLock w)
  | awaiting {i : ι} {w : Fin n} (ht : t = .client i) (hφ : φ = awaiting w) :
      SleepsAt t φ (.isIdle w) (.hasPausedLock w)
  | resizing {i : ι} (ht : t = .client i) : SleepsAt t φ .isResizingCond .resizeQueuesLock

theorem sleepsAt_of_resumes {c : Cond n} {l : Lock n} {χ ψ : Phase n} (hχ : Attends t χ)
    (h : resumes t χ c l = some ψ) : SleepsAt t χ c l := by
  unfold resumes at h
  split at h
  · obtain ⟨⟨rfl, rfl, rfl⟩, -⟩ := of_guard h
    exact .waiting rfl rfl
  · obtain ⟨⟨rfl, rfl, rfl⟩, -⟩ := of_guard h
    exact .parked rfl rfl
  · obtain ⟨⟨rfl, rfl⟩, -⟩ := of_guard h
    cases t with
    | worker v => cases hχ
    | client i => exact .awaiting rfl rfl
  · obtain ⟨rfl, -⟩ := of_guard h
    cases t with
    | worker v => cases hχ
    | client i => exact .resizing rfl
  · cases h

theorem sleepsAt_of_head (hobeys : (protocol ι n E).Obeys φ s) (hφ : Attends t (φ t))
    {c : Cond n} {l : Lock n} (hhead : (s.prog t).head = some (.resume c l)) :
    SleepsAt t (φ t) c l := by
  obtain ⟨ψ, hψ⟩ := (hobeys t).trans_of_head hhead (by simp) ()
  have hψ : step t (φ t) (.resume c l : Op (names ι n E)) () = some ψ := hψ
  unfold step at hψ
  rw [if_neg (Staffed.ne_never hφ)] at hψ
  exact sleepsAt_of_resumes hφ hψ

/-- Who is to wake up has nothing else to do. -/
theorem resume_of_rests (hobeys : (protocol ι n E).Obeys φ s) (hφ : Attends t (φ t))
    (hrests : (φ t).rests = true) {o : Op (names ι n E)} (hhead : (s.prog t).head = some o) :
    ∃ c l, o = .resume c l := by
  by_cases hcall : ∃ q, o = .call q
  · obtain ⟨q, rfl⟩ := hcall
    have hpre := ((hobeys t).pre_of_head hhead).resolve_left (Staffed.ne_never hφ)
    cases q with
    | whileResizing | whileAdding | whileFull entry | addLoop entry index =>
        rw [hpre.2] at hrests
        cases hrests
    | runLoop v => rcases hpre.2 with h | h <;> rw [h] at hrests <;> cases hrests
    | whileAlive v => exact hpre.elim
  · have hresult : Nonempty o.Result := by cases o <;> exact ⟨default⟩
    obtain ⟨ψ, hψ⟩ := (hobeys t).trans_of_head hhead (fun q hq => hcall ⟨q, hq⟩) hresult.some
    have hψ : step t (φ t) o hresult.some = some ψ := hψ
    unfold step at hψ
    rw [if_neg (Staffed.ne_never hφ)] at hψ
    cases o with
    | resume c l => exact ⟨c, l, rfl⟩
    | call q => exact absurd ⟨q, rfl⟩ hcall
    | acquire l | release l | wait c l | signal c | broadcast c | load x | store x | ask q
    | spawn u => simp [hrests] at hψ

/-- A worker that was not created has no program. -/
theorem done_of_unborn (hobeys : (protocol ι n E).Obeys φ s) (hφ : φ (.worker w) = unborn) :
    (s.prog (.worker w)).head = none := by
  have hattends : Attends (.worker w : Thread ι n) (φ (.worker w)) := by
    rw [hφ]
    trivial
  by_contra hhead
  obtain ⟨o, ho⟩ := Option.ne_none_iff_exists'.mp hhead
  obtain ⟨c, l, rfl⟩ := resume_of_rests hobeys hattends (by rw [hφ]; rfl) ho
  have hsleeps := sleepsAt_of_head hobeys hattends ho
  rw [hφ] at hsleeps
  cases hsleeps with
  | waiting ht hφ | parked ht hφ | awaiting ht hφ => cases hφ
  | resizing ht => cases ht

/-- So nobody waits for a thread to end that it creates anew. -/
theorem not_creates (hobeys : (protocol ι n E).Obeys φ s) (hinv : Inv φ s.shared) :
    ¬ s.Creates t := by
  rintro ⟨u, hhead, hu⟩
  obtain ⟨ψ, hψ⟩ := (hobeys t).trans_of_head hhead (by simp) ()
  obtain ⟨i, v, ws, rfl, rfl, hlaunching, -⟩ :=
    launching_of_spawn (E := E) (hinv.fits.attends t) hψ
  have hopens := hinv.staffed.opens (.client i)
  rw [hlaunching] at hopens
  exact hu (done_of_unborn hobeys (hopens.1.absent v (List.mem_cons_self ..)))

theorem head_of_present (hobeys : (protocol ι n E).Obeys φ s) (hinv : Inv φ s.shared)
    (hpresent : Present (φ (.worker w))) (hborn : φ (.worker w) ≠ unborn) :
    (s.prog (.worker w)).head ≠ none := by
  intro hhead
  obtain ⟨-, hfinal⟩ := (hobeys (.worker w)).post_of_head hhead
  rcases hfinal with hnever | hunborn | hgone
  · exact Staffed.ne_never (hinv.fits.attends _) hnever
  · exact hborn hunborn
  · exact hpresent.2 hgone

omit [DecidableEq ι] in
theorem client_of_owes {χ : Phase n} (hχ : Attends t χ) (h : Owes w χ) : ∃ i, t = .client i := by
  cases t with
  | client i => exact ⟨i, rfl⟩
  | worker v => cases χ <;> cases hχ <;> cases h

/-! ## What sleepers hold -/

variable {ψ : Thread ι n → List (Lock n)}

/-- Only a client that waits for a worker holds mutexes while it sleeps. -/
theorem awaits_of_held (hobeys : (protocol ι n E).Obeys φ s) (hinv : Inv φ s.shared)
    (hordered : (Locking.discipline ι n E).protocol.Obeys ψ s)
    (hholds : Discipline.Holds ψ s.shared) (hasleep : s.Asleep t) {l : Lock n}
    (hheld : s.shared.held l = some t) :
    Locking.rank l ≤ 1 ∧ ∃ i w, t = .client i ∧ φ t = awaiting w ∧
      t ∈ s.shared.asleep (.isIdle w) := by
  have hmem := (hholds.iff t l).mpr hheld
  have hsleeps := Discipline.sleeps_of_asleep hordered hasleep
  obtain ⟨c, k, hhead, hc⟩ := hasleep
  cases sleepsAt_of_head hobeys (hinv.fits.attends t) hhead with
  | waiting ht _ | parked ht _ =>
      subst ht
      rw [show ψ (.worker _) = [] from of_decide_eq_true hsleeps] at hmem
      cases hmem
  | @awaiting i w ht hφ =>
      subst ht
      refine ⟨?_, i, w, rfl, hφ, hc⟩
      have hboth : ψ (.client i) = [] ∨ ψ (.client i) = [.workerLock, .startLock] :=
        of_decide_eq_true hsleeps
      rcases hboth with hboth | hboth <;> rw [hboth] at hmem <;> simp at hmem
      rcases hmem with rfl | rfl <;> simp [Locking.rank]
  | resizing ht =>
      obtain ⟨ls, htrans⟩ := (hordered t).trans_of_head hhead (by simp) ()
      have hbefore := (Discipline.trans_resume.mp htrans).1.1 l hmem
      exact absurd hbefore (by simp [Locking.discipline, Locking.rank])

/-- A worker waits for mutexes of workers only. -/
theorem rank_of_wanted (hobeys : (protocol ι n E).Obeys φ s) (hinv : Inv φ s.shared) {l : Lock n}
    (hl : s.wanted (.worker w) = some l) : 2 ≤ Locking.rank l := by
  have hattends := hinv.fits.attends (.worker w)
  unfold State.wanted at hl
  split at hl
  · rename_i k hhead
    obtain rfl := Option.some.inj hl
    obtain ⟨χ, hχ⟩ := (hobeys (.worker w)).trans_of_head hhead (by simp) ()
    have hχ : step (.worker w) (φ (.worker w)) (.acquire k : Op (names ι n E)) () = some χ := hχ
    unfold step at hχ
    rw [if_neg (Staffed.ne_never hattends)] at hχ
    obtain ⟨-, hχ⟩ := Option.ite_none_left_eq_some.mp hχ
    generalize φ (.worker w) = χ' at hattends hχ
    cases k with
    | isWorkLock v | hasPausedLock v | workerStartLock v | hasDiedLock v => simp [Locking.rank]
    | startLock | workerLock | resizeQueuesLock =>
        cases χ' <;> simp [acquires, Attends] at hattends hχ
  · rename_i c k hhead
    obtain ⟨-, hl⟩ := Option.ite_none_left_eq_some.mp hl
    obtain rfl := Option.some.inj hl
    cases sleepsAt_of_head hobeys hattends hhead with
    | waiting | parked | awaiting => simp [Locking.rank]
    | resizing ht => cases ht
  · cases hl

/-! ## Nobody is stuck -/

/-- A client that waits for a worker waits for one that is not done and not asleep, and that
waits for no client. -/
theorem enabled_of_awaiting (hobeys : (protocol ι n E).Obeys φ s) (hinv : Inv φ s.shared)
    (hordered : (Locking.discipline ι n E).protocol.Obeys ψ s)
    (hholds : Discipline.Holds ψ s.shared) {i : ι} (hφ : φ (.client i) = awaiting w)
    (hasleep : .client i ∈ s.shared.asleep (.isIdle w)) :
    ∃ t, (processor ι n E).Enabled s t := by
  have hknows := hinv.knows i
  rw [hφ] at hknows
  obtain ⟨⟨hwarned, hidle⟩, hborn⟩ := hknows hasleep
  have hhead := head_of_present hobeys hinv hwarned.present hborn
  obtain ⟨u, hu, henabled | hsleeps | hcreates⟩ :=
    Discipline.exists_enabled Locking.answers hordered hholds Locking.rank_le hhead
  · exact ⟨u, henabled⟩
  · exfalso
    rcases ReflTransGen.cases_tail hu with rfl | ⟨v, hv, l, hl, hheld⟩
    · obtain ⟨c, l, hhead, hc⟩ := hsleeps
      cases sleepsAt_of_head hobeys (hinv.fits.attends _) hhead with
      | waiting ht hphase =>
          obtain rfl := Thread.worker.inj ht
          exact hwarned.aware (.inr (.inr ⟨hphase, hc⟩))
      | parked ht hphase =>
          rw [hphase] at hidle
          cases hidle trivial
      | awaiting ht _ | resizing ht => cases ht
    · -- The chain leads to a mutex of low rank, and begins at a higher one.
      have hlow := (awaits_of_held hobeys hinv hordered hholds hsleeps hheld).1
      rcases reflTransGen_iff_eq_or_transGen.mp hv with rfl | hv
      · have hhigh := rank_of_wanted hobeys hinv hl
        omega
      · obtain ⟨k, hk, hlt⟩ := Discipline.rank_lt hordered hholds hv hl
        have hhigh := rank_of_wanted hobeys hinv hk
        have hlt : Locking.rank k < Locking.rank l := hlt
        omega
  · exact absurd hcreates (not_creates hobeys hinv)

/-- Where nobody can go on, nobody waits for a mutex. -/
theorem asleep_of_stuck (hobeys : (protocol ι n E).Obeys φ s) (hinv : Inv φ s.shared)
    (hordered : (Locking.discipline ι n E).protocol.Obeys ψ s)
    (hholds : Discipline.Holds ψ s.shared)
    (hstuck : ∀ t, ¬ (processor ι n E).Enabled s t) (hhead : (s.prog t).head ≠ none) :
    s.Asleep t := by
  obtain ⟨u, hu, henabled | hsleeps | hcreates⟩ :=
    Discipline.exists_enabled Locking.answers hordered hholds Locking.rank_le hhead
  · exact absurd henabled (hstuck u)
  · rcases ReflTransGen.cases_tail hu with rfl | ⟨v, -, l, -, hheld⟩
    · exact hsleeps
    · obtain ⟨-, i, w, rfl, hφ, hasleep⟩ :=
        awaits_of_held hobeys hinv hordered hholds hsleeps hheld
      obtain ⟨t, ht⟩ := enabled_of_awaiting hobeys hinv hordered hholds hφ hasleep
      exact absurd ht (hstuck t)
  · exact absurd hcreates (not_creates hobeys hinv)

end PauseWaits

open PauseWaits

/-- What a worker may wait for where nobody can go on. -/
inductive Waits (s : State (names ι n E) (Control ι n)) (w : Fin n) : Prop
  /-- It was not created, or has ended. -/
  | never (hhead : (s.prog (.worker w)).head = none)
  | forWork (hhead : (s.prog (.worker w)).head = some (.resume (.isWorkWaiting w) (.isWorkLock w)))
      (hasleep : .worker w ∈ s.shared.asleep (.isWorkWaiting w))
      (hpaused : s.shared.memory.flag (.worker w .isPausedFlag) = false)
  | forResume
      (hhead : (s.prog (.worker w)).head = some (.resume (.hasPaused w) (.hasPausedLock w)))
      (hasleep : .worker w ∈ s.shared.asleep (.hasPaused w))
      (hpaused : s.shared.memory.flag (.worker w .isPausedFlag) = true)

/-- Where nobody can go on, every call has returned, and the workers wait. -/
theorem waits_of_stuck [Fintype ι] {s : State (names ι n E) (Control ι n)}
    (h : (((processor ι n E).system (newProcessor ι n E)).restrict Spared).Reachable s)
    (hstuck : ∀ t, ¬ (processor ι n E).Enabled s t) :
    (∀ i, (s.prog (.client i)).head = none) ∧ ∀ w, Waits s w := by
  obtain ⟨φ, hobeys, hinv⟩ := rendezvous_of_reachable h
  obtain ⟨ψ, hordered, hholds⟩ := Locking.holds_of_reachable h.of_restrict
  have hasleep := fun t => asleep_of_stuck (t := t) hobeys hinv hordered hholds hstuck
  have hresizing : ∀ i, (s.prog (.client i)).head ≠ none → WaitsForResize s (.client i) := by
    intro i hhead
    obtain ⟨c, l, hhead, hc⟩ := hasleep _ hhead
    cases sleepsAt_of_head hobeys (hinv.fits.attends _) hhead with
    | waiting ht _ | parked ht _ => cases ht
    | awaiting ht hφ =>
        obtain rfl := Thread.client.inj ht
        obtain ⟨t, ht⟩ := enabled_of_awaiting hobeys hinv hordered hholds hφ hc
        exact absurd ht (hstuck t)
    | resizing ht => exact ⟨hhead, hc⟩
  have hdone : ∀ i, (s.prog (.client i)).head = none := by
    intro i
    by_contra hhead
    rcases ResizeWaits.resizing_of_waits h.of_restrict (hresizing i hhead) with
      hflag | ⟨u, hu⟩
    · obtain ⟨u, hu, hhead', hnot⟩ := ResizeWaits.resizer_of_resizing h.of_restrict hflag
      cases u with
      | client j => exact hnot (hresizing j hhead')
      | worker w =>
          rw [hinv.fits.resizes w] at hu
          cases hu
    · obtain ⟨c, l, hhead', -⟩ := hasleep u (by rw [hu]; simp)
      rw [hu] at hhead'
      cases hhead'
  have hout : ∀ i, φ (.client i) = .out := by
    intro i
    obtain ⟨-, hfinal⟩ := (hobeys (.client i)).post_of_head (hdone i)
    exact hfinal.resolve_left (Staffed.ne_never (hinv.fits.attends _))
  refine ⟨hdone, fun w => ?_⟩
  by_cases hhead : (s.prog (.worker w)).head = none
  · exact .never hhead
  · obtain ⟨c, l, hhead, hc⟩ := hasleep _ hhead
    cases sleepsAt_of_head hobeys (hinv.fits.attends _) hhead with
    | @waiting v ht hφ =>
        obtain rfl := Thread.worker.inj ht
        refine .forWork hhead hc ((hinv.heeds.paused w (.inr (.inr ⟨hφ, hc⟩))).resolve_right ?_)
        rintro ⟨u, hu⟩
        obtain ⟨i, rfl⟩ := client_of_owes (hinv.fits.attends u) hu
        rw [hout] at hu
        exact hu
    | parked ht hφ =>
        obtain rfl := Thread.worker.inj ht
        refine .forResume hhead hc
          ((hinv.heeds.resumed w (.inr (.inr (.inr ⟨hφ, hc⟩)))).resolve_right ?_)
        rintro ⟨u | v, hu⟩
        · cases (hout u).symm.trans hu
        · have hattends := hinv.fits.attends (.worker v)
          rw [hu] at hattends
          exact hattends
    | awaiting ht _ | resizing ht => cases ht

/-- A processor that is not stopped never gets stuck: some thread can take a step, or every
call has returned, and each worker that was created and has not ended waits, for work if it
is not paused, and to be resumed if it is. -/
theorem never_stuck [Fintype ι] {s : State (names ι n E) (Control ι n)}
    (h : (((processor ι n E).system (newProcessor ι n E)).restrict Spared).Reachable s) :
    (∃ t, (processor ι n E).Enabled s t) ∨
      (∀ i, (s.prog (.client i)).head = none) ∧ ∀ w, Waits s w := by
  by_cases hstuck : ∃ t, (processor ι n E).Enabled s t
  · exact .inl hstuck
  · exact .inr (waits_of_stuck h (not_exists.mp hstuck))

/-- One client sleeps in its `pause`, with the mutexes that the other one wants. -/
theorem never_stuck_of_blockedByPause : ∃ s : State (names Bool 1 Unit) (Control Bool 1),
    s.Asleep (.client true) ∧ s.WaitsFor (.client false) (.client true) ∧
      ∃ t, (processor Bool 1 Unit).Enabled s t := by
  obtain ⟨s, hs, ⟨hhead, hasleep⟩, hwanted, hheld⟩ := (processor Bool 1 Unit).exists_of_follow
    (newProcessor Bool 1 Unit) Spared
    (fun s => ((s.prog (.client true)).head = some (.resume (.isIdle 0) (.hasPausedLock 0)) ∧
      .client true ∈ s.shared.asleep (.isIdle 0)) ∧
      s.wanted (.client false) = some .startLock ∧
      s.shared.held .startLock = some (.client true))
    blockedByPause (by decide)
  refine ⟨s, ⟨_, _, hhead, hasleep⟩, ⟨_, hwanted, hheld⟩, ?_⟩
  refine (never_stuck hs).resolve_right ?_
  rintro ⟨hdone, -⟩
  rw [hdone true] at hhead
  cases hhead

end HPQueue
