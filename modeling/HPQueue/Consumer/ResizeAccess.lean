import HPQueue.Consumer.ResizeTurn
import HPQueue.Consumer.Resizing
import HPQueue.Consumer.RemovedCount
import HPQueue.Library.TwoProtocols
import Mathlib.Algebra.Order.BigOperators.Group.Finset

/-!
# A resize has the queue for itself

A producer resizes the queue between a `pause` that blocks and a `resume`.  While no
client takes back more pauses than it has made, as many pauses are counted as threads owe
a `resume`; so the processor stays paused until the last of them, and every worker that
there is stays where it waits to be resumed.

## Main results

* `Inv.turn`, `Inv.spawn`, `Inv.wake`, `Inv.enter` — what a step preserves.
* `sound_of_reachable` — the invariant holds in every state of a considerate run.
* `resize_alone` — while a thread resizes the queue, no other accesses it.
-/

namespace HPQueue

open Library.Threads Prog

variable {ι : Type} {n : Nat} {E : Type}

namespace ResizePause

open Place
open Attendance (written Sees written_flag_of_ne written_flag)
open PauseWaits (Staffed Fits memory_of_effect sees_of_effect)

variable [DecidableEq ι] {t : Thread ι n} {o : Op (names ι n E)} {r : o.Result} {p : Place n}
  {φ : Thread ι n → PauseWaits.Phase n} {w : Fin n} {χ : PauseWaits.Phase n}
  {s s' : Shared (names ι n E) (Control ι n)}

/-! ## The invariant -/

section Knowing

variable (φ : Thread ι n → PauseWaits.Phase n) (s : Shared (names ι n E) (Control ι n))
  (t : Thread ι n)

/-- What a thread knows where it is. -/
def Knows : Place n → Prop
  | marking ws => ∀ w, w ∉ ws → Told φ s.memory.flag w
  | settling ws =>
      (∀ w, Told φ s.memory.flag w) ∧ ∀ w, w ∉ ws → Settled φ s.memory.flag w
  | sleeping v ws =>
      (∀ w, Told φ s.memory.flag w) ∧ (∀ w, w ∉ v :: ws → Settled φ s.memory.flag w) ∧
        (t ∉ s.asleep (.isIdle v) → Settled φ s.memory.flag v)
  | nested => s.memory.flag .isPausedFlag = true
  | lifting => s.memory.nestedPauseCounter = 0
  | _ => True

end Knowing

omit [DecidableEq ι] in
/-- There is nothing to be known without `startLock`. -/
theorem knows_of_free {u : Thread ι n} (hp : p.holds = false) : Knows φ s u p := by
  cases p <;> trivial

/-- What nobody undoes is still known. -/
theorem Knows.mono {u : Thread ι n} (hknows : Knows φ s u p) (hs : Staffed φ s.memory.flag)
    (h : PauseWaits.Turn t (φ t) o r χ) (heffect : (processor ι n E).Effect s t o r s')
    (hfailed : ∀ w, s.memory.flag (.worker w .isTerminatedFlag) = false)
    (hbroadcast : ∀ w, o ≠ .broadcast (.isIdle w))
    (hfree : p ≠ lifting → ∀ w, o ≠ .store (.flag (.worker w .isPausedFlag) false))
    (hflag : s'.memory.flag .isPausedFlag = s.memory.flag .isPausedFlag)
    (hcounter : s'.memory.nestedPauseCounter = s.memory.nestedPauseCounter) :
    Knows (Function.update φ t χ) s' u p := by
  cases p with
  | marking ws => exact fun w hw => (hknows w hw).turn hs h heffect (hfree (by simp) w)
  | settling ws =>
      exact ⟨fun w => (hknows.1 w).turn hs h heffect (hfree (by simp) w),
        fun w hw => (hknows.2 w hw).turn hs h heffect (hfree (by simp) w)⟩
  | sleeping v ws =>
      obtain ⟨htold, hsettled, hawake⟩ := hknows
      refine ⟨fun w => (htold w).turn hs h heffect (hfree (by simp) w),
        fun w hw => (hsettled w hw).turn hs h heffect (hfree (by simp) w), ?_⟩
      intro hawake'
      by_cases hasleep : u ∈ s.asleep (.isIdle v)
      · exact settled_of_awake (htold v) hs h heffect (hfailed v) (hbroadcast v) hasleep hawake'
      · exact (hawake hasleep).turn hs h heffect (hfree (by simp) v)
  | nested => exact hflag.trans hknows
  | lifting => exact hcounter.trans hknows
  | _ => trivial

/-- One who is to take back a pause. -/
def Owes : Place n → Prop
  | due | dueHeld | lowering => True
  | _ => False

variable [Fintype ι]

structure Inv (φ : Thread ι n → PauseWaits.Phase n) (ψ : Thread ι n → Phase n)
    (s : Shared (names ι n E) (Control ι n)) : Prop where
  there : ∀ t, ¬ Gone (ψ t)
  startLock : ∀ t, (ψ t).place.holds = true → s.held .startLock = some t
  failed : ∀ w, s.memory.flag (.worker w .isTerminatedFlag) = false
  tally : s.memory.nestedPauseCounter.toNat = ∑ t, (ψ t).owed
  owes : ∀ t, Owes (ψ t).place → 0 < (ψ t).owed
  paused : 0 < ∑ t, (ψ t).owed → s.memory.flag .isPausedFlag = true
  settled : s.memory.flag .isPausedFlag = true → (∀ t, (ψ t).place ≠ lifting) →
    ∀ w, Settled φ s.memory.flag w
  knows : ∀ t, Knows φ s t (ψ t).place

omit [DecidableEq ι] [Fintype ι] in
theorem Turn.holds {ψ ψ' : Phase n} (h : Turn ψ o r ψ') (hψ' : ψ'.place.holds = true) :
    o = .acquire .startLock ∨
      ψ.place.holds = true ∧ o ≠ .release .startLock ∧ ∀ c, o ≠ .wait c .startLock := by
  cases h with
  | moves h =>
      generalize ψ.place = p at h
      cases h with
      | hold | holdDue => exact .inl rfl
      | unhold => cases hψ'
      | stays h =>
          refine .inr ⟨hψ', ?_, ?_⟩
          · rintro rfl
            exact h rfl
          · rintro c rfl
            exact h.1 rfl
      | _ => exact .inr ⟨rfl, (by simp), (by simp)⟩
  | count hφ | uncount hφ => exact .inr ⟨by rw [hφ]; rfl, (by simp), (by simp)⟩
  | resize => cases hψ'

omit [DecidableEq ι] [Fintype ι] in
theorem Turn.owes {ψ ψ' : Phase n} (h : Turn ψ o r ψ') (hψ : Owes ψ.place → 0 < ψ.owed)
    (hψ' : Owes ψ'.place) : 0 < ψ'.owed := by
  cases h with
  | moves h =>
      generalize ψ.place = p at h hψ
      cases h with
      | isPaused b | isRunning b | last b => cases b <;> cases hψ'
      | holdDue | wasPaused => exact hψ trivial
      | stays => exact hψ hψ'
      | _ => cases hψ'
  | count | uncount => cases hψ'
  | resize _ _ howed => exact Nat.zero_lt_of_lt howed

omit [DecidableEq ι] [Fintype ι] in
theorem Turn.own {ψ ψ' : Phase n} (h : Turn ψ o r ψ') : ψ'.own = ψ.own := by
  cases h <;> rfl

omit [DecidableEq ι] [Fintype ι] in
theorem Turn.broadcast {ψ ψ' : Phase n} (h : Turn ψ o r ψ') (w : Fin n) :
    o ≠ .broadcast (.isIdle w) := by
  rintro rfl
  cases h with
  | moves h =>
      generalize ψ.place = p at h
      cases h with
      | stays h => exact h w rfl

omit [Fintype ι] in
/-- What a thread knows after a step of its own. -/
theorem Knows.own {ψ ψ' : Phase n} (hknows : Knows φ s t ψ.place) (hs : Staffed φ s.memory.flag)
    (h : PauseWaits.Turn t (φ t) o r χ) (heffect : (processor ι n E).Effect s t o r s')
    (hfailed : ∀ w, s.memory.flag (.worker w .isTerminatedFlag) = false)
    (hturn : Turn ψ o r ψ') : Knows (Function.update φ t χ) s' t ψ'.place := by
  have hmemory := memory_of_effect heffect
  have hsees := sees_of_effect heffect
  have hfree := hturn.free
  have hbroadcast := hturn.broadcast
  cases hturn with
  | count | uncount | resize => trivial
  | moves hmoves =>
      generalize ψ.place = p at hmoves hknows hfree
      have htold : ∀ {v}, p ≠ lifting → Told φ s.memory.flag v →
          Told (Function.update φ t χ) s'.memory.flag v :=
        fun hp hv => hv.turn hs h heffect (hfree hp _)
      have hsettled : ∀ {v}, p ≠ lifting → Settled φ s.memory.flag v →
          Settled (Function.update φ t χ) s'.memory.flag v :=
        fun hp hv => hv.turn hs h heffect (hfree hp _)
      cases hmoves with
      | hold | holdDue | unhold | lift => trivial
      | isPaused b =>
          cases b with
          | true =>
              show s'.memory.flag _ = true
              rw [PauseWaits.eq_of_load heffect]
              exact hsees.symm
          | false => trivial
      | wasPaused b => cases b <;> trivial
      | isRunning b =>
          cases b with
          | true => trivial
          | false =>
              have hunborn : ∀ w, Settled φ s.memory.flag w :=
                fun w => .inl (hs.running hsees.symm w)
              exact ⟨fun w => htold (by simp) (hunborn w).told,
                fun w _ => hsettled (by simp) (hunborn w)⟩
      | gather => exact fun w hw => absurd (List.mem_finRange w) hw
      | gatherAgain =>
          exact ⟨fun w => htold (by simp) (hknows w List.not_mem_nil),
            fun w hw => absurd (List.mem_finRange w) hw⟩
      | marked v ws =>
          intro w hw
          by_cases hwv : w = v
          · subst hwv
            exact htold (by simp) (.inr hsees.symm)
          · exact htold (by simp) (hknows w (by simp [hwv, hw]))
      | mark v ws =>
          intro w hw
          by_cases hwv : w = v
          · subst hwv
            rw [hmemory]
            exact .inr written_flag
          · exact htold (by simp) (hknows w (by simp [hwv, hw]))
      | idle v ws =>
          refine ⟨fun w => htold (by simp) (hknows.1 w), fun w hw => hsettled (by simp) ?_⟩
          by_cases hwv : w = v
          · subst hwv
            exact (hknows.1 w).settled hs hsees.symm
          · exact hknows.2 w (by simp [hwv, hw])
      | unstarted v ws =>
          refine ⟨fun w => htold (by simp) (hknows.1 w), fun w hw => hsettled (by simp) ?_⟩
          by_cases hwv : w = v
          · subst hwv
            exact settled_of_unstarted hs hsees.symm
          · exact hknows.2 w (by simp [hwv, hw])
      | wait v v' ws =>
          refine ⟨fun w => htold (by simp) (hknows.1 w),
            fun w hw => hsettled (by simp) (hknows.2 w hw), ?_⟩
          intro hawake
          cases heffect with
          | wait hheld => simp [Shared.sleep] at hawake
      | wake v v' ws =>
          obtain ⟨hall, hrest, hlast⟩ := hknows
          refine ⟨fun w => htold (by simp) (hall w), fun w hw => hsettled (by simp) ?_⟩
          by_cases hwv : w = v
          · subst hwv
            cases heffect with
            | resume hawake hfree => exact hlast hawake
          · exact hrest w (by simp [hwv, hw])
      | settled =>
          show s'.memory.flag _ = true
          rw [hmemory]
          exact written_flag
      | last b =>
          cases b with
          | true => trivial
          | false =>
              show s'.memory.nestedPauseCounter = 0
              rw [PauseWaits.eq_of_load heffect]
              simpa [Sees, Control.load] using hsees
      | stays hplain =>
          apply hknows.mono hs h heffect hfailed hbroadcast hfree
          · rw [hmemory]
            exact hplain.isPausedFlag
          · rw [hmemory]
            exact hplain.counter

namespace Inv

variable {ψ : Thread ι n → Phase n} {δ : Phase n}

omit [DecidableEq ι] in
theorem owed_le (t : Thread ι n) : (ψ t).owed ≤ ∑ u, (ψ u).owed :=
  Finset.single_le_sum (f := fun u => (ψ u).owed) (fun _ _ => Nat.zero_le _) (Finset.mem_univ t)

omit [DecidableEq ι] in
/-- No pause is counted while one is lifted. -/
theorem owed_of_lifting (h : Inv φ ψ s) (ht : (ψ t).place = lifting) : ∑ u, (ψ u).owed = 0 := by
  have hzero := h.knows t
  rw [ht] at hzero
  rw [← h.tally, hzero]
  rfl

omit [DecidableEq ι] in
/-- Only one thread has `startLock`. -/
theorem free_of_ne (h : Inv φ ψ s) {u : Thread ι n} (hut : u ≠ t)
    (hu : (ψ u).place.holds = true) : (ψ t).place.holds = false := by
  by_contra ht
  have ht := h.startLock t (by simpa using ht)
  exact hut (Option.some.inj ((h.startLock u hu).symm.trans ht))

/-- The counter is what the threads owe together. -/
theorem tally_turn (h : Inv φ ψ s) (hturn : Turn (ψ t) o r δ)
    (hcount : ∀ d, o = .store (.nestedPauseCounter d) →
      s.memory.nestedPauseCounter.toNat + 1 < 2 ^ 32) :
    (written t s.memory o).nestedPauseCounter.toNat =
      ∑ u, (Function.update ψ t δ u).owed := by
  have htotal := sum_update Phase.owed ψ t δ
  have htally := h.tally
  rcases hturn.counter (t := t) (m := s.memory) with ⟨hsame, howed⟩ | ⟨⟨-, ho⟩, hcounter, howed⟩ |
    ⟨hplace, hcounter, howed⟩
  · rw [hsame]
    omega
  · have hbound := hcount 1 ho
    rw [hcounter, UInt32.toNat_add, UInt32.toNat_one, Nat.mod_eq_of_lt hbound]
    omega
  · have hpositive := h.owes t (by rw [hplace]; trivial)
    have hle := owed_le (ψ := ψ) t
    rw [hcounter, UInt32.toNat_sub_of_le, UInt32.toNat_one]
    · omega
    · rw [UInt32.le_iff_toNat_le, UInt32.toNat_one]
      omega

/-- The processor is paused as long as one of them owes something. -/
theorem paused_turn (h : Inv φ ψ s) (hturn : Turn (ψ t) o r δ)
    (howed : 0 < ∑ u, (Function.update ψ t δ u).owed) :
    (written t s.memory o).flag .isPausedFlag = true := by
  have htotal := sum_update Phase.owed ψ t δ
  rcases hturn.isPausedFlag (t := t) (m := s.memory) with ⟨hsame, -⟩ | ⟨-, hset⟩ | ⟨hlifting, -⟩
  · rw [hsame]
    rcases hturn.counter (t := t) (m := s.memory) with ⟨-, hδ⟩ | ⟨⟨hplace, -⟩, -⟩ | ⟨-, -, hδ⟩
    · exact h.paused (by omega)
    · have hpaused := h.knows t
      rwa [hplace] at hpaused
    · exact h.paused (by omega)
  · exact hset
  · have hzero := h.owed_of_lifting hlifting
    rcases hturn.counter (t := t) (m := s.memory) with ⟨-, hδ⟩ | ⟨⟨hplace, -⟩, -⟩ | ⟨hplace, -⟩
    · omega
    · rw [hlifting] at hplace
      cases hplace
    · rw [hlifting] at hplace
      cases hplace

/-- And as long as it is, unless the pause is being lifted, no worker is at the queue. -/
theorem settled_turn (h : Inv φ ψ s) (hs : Staffed φ s.memory.flag)
    (hwaits : PauseWaits.Turn t (φ t) o r χ) (heffect : (processor ι n E).Effect s t o r s')
    (hturn : Turn (ψ t) o r δ) (hpaused : s'.memory.flag .isPausedFlag = true)
    (hlifting : ∀ u, (Function.update ψ t δ u).place ≠ lifting) (w : Fin n) :
    Settled (Function.update φ t χ) s'.memory.flag w := by
  have hmemory := memory_of_effect heffect
  have hδ : δ.place ≠ lifting := by simpa using hlifting t
  rcases hturn.isPausedFlag (t := t) (m := s.memory) with ⟨hsame, hstays⟩ | ⟨hplace, -⟩ |
    ⟨hplace, hclear⟩
  · have hnone : ∀ u, (ψ u).place ≠ lifting := by
      intro u
      by_cases hut : u = t
      · subst hut
        exact fun hu => hδ (hstays hu)
      · simpa [hut] using hlifting u
    rw [hmemory, hsame] at hpaused
    exact (h.settled hpaused hnone w).turn hs hwaits heffect (hturn.free (hnone t) w)
  · have hknows := h.knows t
    rw [hplace] at hknows
    exact (hknows.2 w List.not_mem_nil).turn hs hwaits heffect
      (hturn.free (by rw [hplace]; simp) w)
  · rw [hmemory, hclear] at hpaused
    cases hpaused

omit [DecidableEq ι] in
/-- A thread that takes back a pause finds the processor paused. -/
theorem there_turn (h : Inv φ ψ s) (hsees : Sees s.memory o r) (hturn : Turn (ψ t) o r δ) :
    ¬ Gone δ := by
  have hthere := h.there t
  have howes := h.owes t
  have hle := owed_le (ψ := ψ) t
  generalize ψ t = χ at hturn hthere howes hle
  cases hturn with
  | count | uncount | resize => rintro ⟨⟩
  | moves hmoves =>
      obtain ⟨p, owed, own⟩ := χ
      cases hmoves with
      | stays => exact hthere
      | wasPaused b =>
          have hpaused := h.paused (Nat.lt_of_lt_of_le (howes trivial) hle)
          obtain rfl : b = true := hsees.trans hpaused
          rintro ⟨⟩
      | isPaused b | isRunning b | last b => cases b <;> rintro ⟨⟩
      | _ => rintro ⟨⟩

/-- What one operation preserves. -/
theorem turn (h : Inv φ ψ s) (hs : Staffed φ s.memory.flag)
    (hwaits : PauseWaits.Turn t (φ t) o r χ) (heffect : (processor ι n E).Effect s t o r s')
    (hturn : Turn (ψ t) o r δ)
    (hcount : ∀ d, o = .store (.nestedPauseCounter d) →
      s.memory.nestedPauseCounter.toNat + 1 < 2 ^ 32) :
    Inv (Function.update φ t χ) (Function.update ψ t δ) s' := by
  have hmemory := memory_of_effect heffect
  constructor
  · intro u
    by_cases hut : u = t
    · subst hut
      simpa using h.there_turn (sees_of_effect heffect) hturn
    · simpa [hut] using h.there u
  · intro u hu
    by_cases hut : u = t
    · subst hut
      rw [Function.update_self] at hu
      refine heffect.held_self ((hturn.holds hu).imp .inl ?_)
      exact fun hheld => ⟨h.startLock u hheld.1, hheld.2⟩
    · rw [Function.update_of_ne hut] at hu
      exact heffect.held_of_ne hut (h.startLock u hu)
  · intro w
    rw [hmemory]
    exact hturn.failed (h.failed w)
  · rw [hmemory]
    exact h.tally_turn hturn hcount
  · intro u hu
    by_cases hut : u = t
    · subst hut
      rw [Function.update_self] at hu ⊢
      exact hturn.owes (h.owes u) hu
    · rw [Function.update_of_ne hut] at hu ⊢
      exact h.owes u hu
  · intro howed
    rw [hmemory]
    exact h.paused_turn hturn howed
  · exact h.settled_turn hs hwaits heffect hturn
  · intro u
    by_cases hut : u = t
    · subst hut
      rw [Function.update_self]
      exact (h.knows u).own hs hwaits heffect h.failed hturn
    · rw [Function.update_of_ne hut]
      by_cases hu : (ψ u).place.holds = true
      · obtain ⟨hfree, hflag, hcounter⟩ :=
          hturn.spares (t := t) (m := s.memory) (h.free_of_ne hut hu)
        apply (h.knows u).mono hs hwaits heffect h.failed hturn.broadcast fun _ => hfree
        · rw [hmemory]
          exact hflag
        · rw [hmemory]
          exact hcounter
      · exact knows_of_free (by simpa using hu)

/-- A worker is created, while the processor is not paused. -/
theorem spawn (h : Inv φ ψ s) {φ' : Thread ι n → PauseWaits.Phase n}
    (hpaused : s.memory.flag .isPausedFlag = false) (ht : (ψ t).place = held) :
    Inv φ' ψ s where
  there := h.there
  startLock := h.startLock
  failed := h.failed
  tally := h.tally
  owes := h.owes
  paused := h.paused
  settled hflag := absurd (hpaused.symm.trans hflag) (by simp)
  knows := by
    intro u
    by_cases hut : u = t
    · subst hut
      rw [ht]
      trivial
    · apply knows_of_free
      by_contra hu
      have hfree := h.free_of_ne hut (by simpa using hu)
      rw [ht] at hfree
      cases hfree

omit [DecidableEq ι] in
/-- A thread wakes that does not wait for a worker to be idle. -/
theorem wake (h : Inv φ ψ s) {s' : Shared (names ι n E) (Control ι n)} (hheld : s'.held = s.held)
    (hmemory : s'.memory = s.memory) (hasleep : ∀ w, s'.asleep (.isIdle w) = s.asleep (.isIdle w)) :
    Inv φ ψ s' where
  there := h.there
  startLock := by rw [hheld]; exact h.startLock
  failed := by rw [hmemory]; exact h.failed
  tally := by rw [hmemory]; exact h.tally
  owes := h.owes
  paused := by rw [hmemory]; exact h.paused
  settled := by rw [hmemory]; exact h.settled
  knows := by
    intro t
    have hknows := h.knows t
    unfold Knows at hknows ⊢
    simp only [hmemory, hasleep]
    exact hknows

/-- A call begins. -/
theorem enter (h : Inv φ ψ s) {φ' : Thread ι n → PauseWaits.Phase n}
    (hworker : ∀ w, φ' (.worker w) = φ (.worker w)) (hout : (ψ t).place = out)
    (hδ : δ.place = out ∨ δ.place = due ∧ 0 < δ.owed) (howed : δ.owed = (ψ t).owed) :
    Inv φ' (Function.update ψ t δ) s := by
  have hcases : ∀ u, Function.update ψ t δ u = ψ u ∨
      Function.update ψ t δ u = δ ∧ (ψ u).place = out := by
    intro u
    by_cases hut : u = t
    · subst hut
      exact .inr ⟨Function.update_self .., hout⟩
    · exact .inl (Function.update_of_ne hut ..)
  have hsum : ∑ u, (Function.update ψ t δ u).owed = ∑ u, (ψ u).owed := by
    have htotal := sum_update Phase.owed ψ t δ
    omega
  have hfree : δ.place.holds = false ∧ ¬ Gone δ ∧ δ.place ≠ lifting := by
    rcases hδ with hδ | ⟨hδ, -⟩ <;> simp [Gone, hδ, Place.holds]
  have hsettled : ∀ w, Settled φ s.memory.flag w → Settled φ' s.memory.flag w := by
    intro w hw
    unfold Settled at hw ⊢
    rwa [hworker]
  have htold : ∀ w, Told φ s.memory.flag w → Told φ' s.memory.flag w := by
    intro w hw
    unfold Told at hw ⊢
    rwa [hworker]
  constructor
  · intro u
    rcases hcases u with hu | ⟨hu, -⟩ <;> rw [hu]
    · exact h.there u
    · exact hfree.2.1
  · intro u hholds
    rcases hcases u with hu | ⟨hu, -⟩ <;> rw [hu] at hholds
    · exact h.startLock u hholds
    · rw [hfree.1] at hholds
      cases hholds
  · exact h.failed
  · rw [hsum]
    exact h.tally
  · intro u howes
    rcases hcases u with hu | ⟨hu, -⟩ <;> rw [hu] at howes ⊢
    · exact h.owes u howes
    · rcases hδ with hδ | ⟨-, hδ⟩
      · rw [hδ] at howes
        cases howes
      · exact hδ
  · rw [hsum]
    exact h.paused
  · intro hpaused hnone w
    refine hsettled w (h.settled hpaused (fun u => ?_) w)
    rcases hcases u with hu | ⟨-, hu⟩
    · rw [← hu]
      exact hnone u
    · rw [hu]
      rintro ⟨⟩
  · intro u
    rcases hcases u with hu | ⟨hu, -⟩ <;> rw [hu]
    · have hknows := h.knows u
      generalize (ψ u).place = p at hknows
      cases p with
      | marking ws => exact fun w hw => htold w (hknows w hw)
      | settling ws =>
          exact ⟨fun w => htold w (hknows.1 w), fun w hw => hsettled w (hknows.2 w hw)⟩
      | sleeping v ws =>
          exact ⟨fun w => htold w (hknows.1 w), fun w hw => hsettled w (hknows.2.1 w hw),
            fun hawake => hsettled v (hknows.2.2 hawake)⟩
      | nested | lifting => exact hknows
      | _ => trivial
    · exact knows_of_free hfree.1

omit [DecidableEq ι] in
/-- While a thread owes a `resume`, every worker is away. -/
theorem settled_of_owed (h : Inv φ ψ s) (ht : 0 < (ψ t).owed) (w : Fin n) :
    Settled φ s.memory.flag w := by
  have hpositive : 0 < ∑ u, (ψ u).owed := Nat.lt_of_lt_of_le ht (owed_le t)
  apply h.settled (h.paused hpositive)
  intro u hu
  rw [h.owed_of_lifting hu] at hpositive
  cases hpositive

end Inv

end ResizePause

/-! ## Runs -/

namespace ClientCall

def isPause : ClientCall E → Bool
  | .pause _ => true
  | _ => false

def isResume : ClientCall E → Bool
  | .resume => true
  | _ => false

end ClientCall

namespace ResizePause

open PauseWaits (Fits sees_of_effect)

variable [DecidableEq ι]

/-- The states of a processor, with a record of the calls. -/
abbrev Recorded (ι : Type) (n : Nat) (E : Type) :=
  State (names ι n E) (Control ι n × (Thread ι n → List (ClientCall E)))

/-- Whether an operation respects the pause: no worker is created during it, the counter
does not overflow, and no consumer throws. -/
def respects (m : Control ι n) : Op (names ι n E) → Choice (names ι n E) → Bool
  | .spawn _, _ => !m.flag .isPausedFlag
  | .store (.nestedPauseCounter _), _ => m.nestedPauseCounter.toNat + 1 < 2 ^ 32
  | .ask (.handle _), .answer a => a = 0
  | _, _ => true

/-- Whether a step does: no client wakes by itself while it waits for a worker to be idle,
or resumes the processor more often than it has paused it, or stops it, or does not wait
for a pause. -/
def considerate (s : Recorded ι n E) : Label (names ι n E) → Bool
  | .step t c => (s.prog t).head.all fun o => respects s.shared.memory.1 o c
  | .spurious t => decide (∀ w, t ∉ s.shared.asleep (.isIdle w))
  | .enter t .resume =>
      (s.calls t).countP ClientCall.isResume < (s.calls t).countP ClientCall.isPause
  | .enter _ (.pause block) => block
  | .enter _ .stop | .enter _ .terminate => false
  | .enter _ (.add _) | .enter _ .start => true

def Considerate (s : Recorded ι n E) (l : Label (names ι n E)) : Prop :=
  considerate s l = true

instance (s : Recorded ι n E) (l : Label (names ι n E)) : Decidable (Considerate s l) :=
  inferInstanceAs (Decidable (_ = true))

theorem respects_of_considerate {s : Recorded ι n E} {t : Thread ι n} {o : Op (names ι n E)}
    {c : Choice (names ι n E)} (h : Considerate s (.step t c)) (hhead : (s.prog t).head = some o) :
    respects s.shared.memory.1 o c = true := by
  have hall : (s.prog t).head.all (fun o => respects s.shared.memory.1 o c) = true := h
  rwa [hhead] at hall

variable [Fintype ι]

/-- All that holds of a processor whose clients are considerate. -/
structure Sound (φ : Thread ι n → PauseWaits.Phase n) (ψ : Thread ι n → Phase n)
    (s : Shared (names ι n E) (Control ι n × (Thread ι n → List (ClientCall E)))) : Prop where
  waits : PauseWaits.Inv φ s.forget
  inv : Inv φ ψ s.forget
  /-- A client is to take back the pauses that it has made and not taken back. -/
  balanced : ∀ t, (ψ t).own + (s.memory.2 t).countP ClientCall.isResume =
    (s.memory.2 t).countP ClientCall.isPause

namespace Sound

open Place

variable {φ : Thread ι n → PauseWaits.Phase n} {ψ : Thread ι n → Phase n} {δ : Phase n}
  {s s' : Shared (names ι n E) (Control ι n × (Thread ι n → List (ClientCall E)))}
  {t : Thread ι n} {o : Op (names ι n E)} {r : o.Result} {c : Choice (names ι n E)}

theorem new : Sound PauseWaits.initial (fun _ => ⟨out, 0, 0⟩)
    (newProcessor ι n E).recorded.shared where
  waits := .new
  inv := by
    refine ⟨fun _ => by rintro ⟨⟩, fun _ => by rintro ⟨⟩, fun _ => rfl, ?_,
      fun _ => by rintro ⟨⟩, ?_, by rintro ⟨⟩, fun _ => trivial⟩
    · exact Finset.sum_const_zero.symm
    · simp
  balanced _ := rfl

/-- What a thread does, then. -/
theorem turn_of_step (h : Sound φ ψ s)
    (hexec : (processor ι n E).recording.exec s t o c = some (r, s'))
    (hrespects : respects s.memory.1 o c = true) (hstep : step (ψ t) o r = some δ) :
    Turn (ψ t) o r δ := by
  have hsees := sees_of_effect (Machine.effect_of_exec hexec).forget.1
  rcases turn_or_dooms (h.inv.there t) hstep with hturn | hdooms
  · exact hturn
  · cases hdooms with
    | isTerminatedFlag => cases hsees.trans h.waits.fits.isTerminatedFlag
    | cleared => cases hsees.trans h.waits.fits.cleared
    | failed w => cases hsees.trans (h.inv.failed w)
    | @thrown w a ha =>
        cases c with
        | go | wake u => cases hexec
        | answer b =>
            simp [Machine.exec] at hexec
            obtain ⟨m, k, -, rfl, -⟩ := hexec
            exact absurd (of_decide_eq_true hrespects) ha

/-- What one operation preserves. -/
theorem act (h : Sound φ ψ s) {χ : PauseWaits.Phase n} (hspawn : ∀ u, o ≠ .spawn u)
    (hexec : (processor ι n E).recording.exec s t o c = some (r, s'))
    (hrespects : respects s.memory.1 o c = true)
    (hwaits : (PauseWaits.protocol ι n E).trans t (φ t) o r = some χ)
    (hstep : step (ψ t) o r = some δ) :
    Sound (Function.update φ t χ) (Function.update ψ t δ) s' := by
  obtain ⟨heffect, hcalls⟩ := (Machine.effect_of_exec hexec).forget
  have hmoves := h.waits.staffed.turn_of_step h.waits.fits (sees_of_effect heffect) hspawn hwaits
  have hturn := h.turn_of_step hexec hrespects hstep
  refine ⟨h.waits.turn hmoves heffect, h.inv.turn h.waits.staffed hmoves heffect hturn ?_, ?_⟩
  · rintro d rfl
    exact of_decide_eq_true hrespects
  · intro u
    rw [hcalls]
    by_cases hut : u = t
    · subst hut
      rw [Function.update_self, hturn.own]
      exact h.balanced u
    · rw [Function.update_of_ne hut]
      exact h.balanced u

/-- A worker is created. -/
theorem spawn (h : Sound φ ψ s) {u : Thread ι n} {χ : PauseWaits.Phase n}
    (hpaused : s.memory.1.flag .isPausedFlag = false)
    (hwaits : (PauseWaits.protocol ι n E).trans t (φ t) (.spawn u) () = some χ)
    (hstep : step (ψ t) (.spawn u : Op (names ι n E)) () = some δ) :
    Sound (Function.update (Function.update φ u ((PauseWaits.protocol ι n E).born u (φ u))) t χ)
      (Function.update ψ t δ) s := by
  obtain ⟨i, w, ws, rfl, rfl, hlaunching, rfl⟩ := PauseWaits.launching_of_spawn (E := E)
    (h.waits.fits.attends t) hwaits
  have hborn : (PauseWaits.protocol ι n E).born (.worker w) (φ (.worker w)) = .fresh :=
    if_neg (PauseWaits.Staffed.ne_never (h.waits.fits.attends (.worker w)))
  obtain ⟨hheld, rfl⟩ : (ψ (.client i)).place = held ∧ ψ (.client i) = δ := by
    unfold step at hstep
    rw [if_neg (h.inv.there _)] at hstep
    obtain ⟨p, hp, rfl⟩ := Option.map_eq_some_iff.mp hstep
    obtain ⟨hheld, rfl⟩ := PauseWaits.of_guard hp
    exact ⟨hheld, by rw [← hheld]⟩
  rw [hborn, Function.update_eq_self]
  exact ⟨h.waits.spawn hlaunching, h.inv.spawn hpaused hheld, h.balanced⟩

/-- A thread wakes by itself. -/
theorem wake (h : Sound φ ψ s) {d : Cond n} (hasleep : t ∈ s.asleep d)
    (hidle : ∀ w, t ∉ s.asleep (.isIdle w)) :
    Sound φ ψ (s.sleep d ((s.asleep d).erase t)) where
  waits := by
    refine h.waits.wake rfl rfl fun c => ?_
    by_cases hc : c = d
    · subst hc
      simpa [Shared.forget, Shared.sleep] using Finset.erase_subset _ _
    · simp [Shared.forget, Shared.sleep, hc]
  inv := by
    refine h.inv.wake rfl rfl fun w => ?_
    have hne : .isIdle w ≠ d := by
      rintro rfl
      exact hidle w hasleep
    simp [Shared.forget, Shared.sleep, hne]
  balanced := h.balanced

/-- A call begins, which is recorded. -/
theorem enter (h : Sound φ ψ s) {i : ι} {a : ClientCall E}
    (hwaits : (PauseWaits.protocol ι n E).final (.client i) (φ (.client i)))
    (hout : (protocol ι n E).final (.client i) (ψ (.client i)))
    (hstop : a ≠ .stop) (hterminate : a ≠ .terminate) (hblocks : a ≠ .pause false)
    (hresume : a = .resume → (s.memory.2 (.client i)).countP ClientCall.isResume <
      (s.memory.2 (.client i)).countP ClientCall.isPause) :
    Sound
      (Function.update φ (.client i) ((PauseWaits.protocol ι n E).enter (.client i) a
        (φ (.client i))))
      (Function.update ψ (.client i) ((protocol ι n E).enter (.client i) a (ψ (.client i))))
      { s with memory := (s.memory.1,
          Function.update s.memory.2 (.client i) (a :: s.memory.2 (.client i))) } := by
  have hφ : φ (.client i) = .out :=
    hwaits.resolve_left (PauseWaits.Staffed.ne_never (h.waits.fits.attends (.client i)))
  have hbalanced := h.balanced (.client i)
  obtain ⟨hplace, howed⟩ := hout.resolve_left (h.inv.there (.client i))
  rw [show (protocol ι n E).enter (.client i) a (ψ (.client i)) = begin (ψ (.client i)) a from
      if_neg (h.inv.there _), hφ]
  have hbegin : ((begin (ψ (.client i)) a).place = out ∨
      (begin (ψ (.client i)) a).place = due ∧ 0 < (begin (ψ (.client i)) a).owed) ∧
      (begin (ψ (.client i)) a).owed = (ψ (.client i)).owed ∧
      (begin (ψ (.client i)) a).own + (a :: s.memory.2 (.client i)).countP ClientCall.isResume =
        (a :: s.memory.2 (.client i)).countP ClientCall.isPause := by
    cases a with
    | add entry | start =>
        refine ⟨.inl hplace, rfl, ?_⟩
        simpa [ClientCall.isResume, ClientCall.isPause, begin] using hbalanced
    | pause block =>
        cases block with
        | false => exact absurd rfl hblocks
        | true =>
            refine ⟨.inl hplace, rfl, ?_⟩
            simp [List.countP_cons, ClientCall.isResume, ClientCall.isPause, begin]
            omega
    | resume =>
        have hown : 0 < (ψ (.client i)).own := by
          have hless := hresume rfl
          omega
        rw [show begin (ψ (.client i)) .resume =
          { ψ (.client i) with place := due, own := (ψ (.client i)).own - 1 } from if_pos hown]
        refine ⟨.inr ⟨rfl, howed ▸ hown⟩, rfl, ?_⟩
        simp [List.countP_cons, ClientCall.isResume, ClientCall.isPause]
        omega
    | stop => exact absurd rfl hstop
    | terminate => exact absurd rfl hterminate
  obtain ⟨hplace', howed', hbalanced'⟩ := hbegin
  refine ⟨h.waits.enter hφ ?_, h.inv.enter (fun w => Function.update_of_ne (by simp) ..) hplace
    hplace' howed', ?_⟩
  · cases a with
    | add entry | pause block | resume => exact .inl rfl
    | start => exact .inr rfl
    | stop => exact absurd rfl hstop
    | terminate => exact absurd rfl hterminate
  · intro u
    by_cases hui : u = .client i
    · subst hui
      simpa using hbalanced'
    · simpa [hui] using h.balanced u

end Sound

/-- The phases of every state reached. -/
theorem sound_of_reachable {s : Recorded ι n E}
    (h : (((processor ι n E).recording.system (newProcessor ι n E).recorded).restrict
      Considerate).Reachable s) :
    ∃ φ : Thread ι n → PauseWaits.Phase n × Phase n,
      ((PauseWaits.protocol ι n E).both (protocol ι n E)).Obeys φ s ∧
        Sound (fun t => (φ t).1) (fun t => (φ t).2) s.shared := by
  have hwaits : (PauseWaits.protocol ι n E).Obeys PauseWaits.initial
      (newProcessor ι n E).recorded := by
    rintro (i | w)
    · exact .inr rfl
    · exact .inr (.inl rfl)
  have hpauses : (protocol ι n E).Obeys (fun _ => ⟨.out, 0, 0⟩) (newProcessor ι n E).recorded :=
    fun _ => .inr ⟨rfl, rfl⟩
  refine Protocol.invariant_of_both PauseWaits.obeyed.recording obeyed.recording (J := Sound)
    hwaits hpauses .new ?_ ?_ ?_ ?_ h
  · intro φ ψ s t c o r shared χ δ hsound hconsiderate hspawn hhead hexec hφ hψ
    exact hsound.act hspawn hexec (respects_of_considerate hconsiderate hhead) hφ hψ
  · intro φ ψ s t c u χ δ hsound hconsiderate hhead hφ hψ
    have hpaused := respects_of_considerate hconsiderate hhead
    rw [show (protocol ι n E).born u (ψ u) = ψ u from rfl, Function.update_eq_self]
    exact hsound.spawn (by simpa [respects] using hpaused) hφ hψ
  · intro φ ψ s t d l hsound hconsiderate hasleep hhead
    exact hsound.wake hasleep (of_decide_eq_true hconsiderate)
  · intro φ ψ s t a m p hsound hconsiderate hentry hφ hψ
    obtain ⟨⟨m', p'⟩, hentry', hm⟩ := Option.map_eq_some_iff.mp hentry
    obtain ⟨i, rfl, rfl, -⟩ := entry_eq_some hentry'
    obtain rfl : _ = m := (Prod.ext_iff.mp hm).1
    refine hsound.enter hφ hψ ?_ ?_ ?_ ?_
    · rintro rfl
      cases hconsiderate
    · rintro rfl
      cases hconsiderate
    · rintro rfl
      cases hconsiderate
    · rintro rfl
      exact of_decide_eq_true hconsiderate

end ResizePause

namespace Resizing

/-- Who resizes the queue is alone with it. -/
theorem Inv.alone [Fintype ι] {φ : Thread ι n → Phase}
    {s : Shared (names ι n E) (Control ι n)} {t u : Thread ι n} (h : Inv φ s) (ht : φ t = .alone) :
    φ u ≠ .counted ∧ φ u ≠ .clear ∧ (φ u = .alone → u = t) := by
  have hzero := h.excludes t (by rw [ht]; rfl)
  refine ⟨?_, ?_, ?_⟩
  · intro hu
    have hpos := countOf_pos (f := s.memory.counted) (a := u) (by rw [h.counted, hu]; rfl)
    have hcount := h.count
    omega
  · intro hu
    have hflag := h.flag.mpr ⟨t, by rw [ht]; rfl⟩
    rw [h.clear u hu] at hflag
    cases hflag
  · exact fun hu => h.unique u t (by rw [hu]; rfl) (by rw [ht]; rfl)

end Resizing

open ResizePause

variable [DecidableEq ι] [Fintype ι]

/-- While a thread resizes the queue, no worker is at work. -/
theorem quiet_of_resize {s : Recorded ι n E}
    (h : (((processor ι n E).recording.system (newProcessor ι n E).recorded).restrict
      Considerate).Reachable s) {t : Thread ι n} (hresize : (s.prog t).head = some (.ask .resize))
    {u : Thread ι n} {q : Query n E} (hask : (s.prog u).head = some (.ask q)) : ¬ Works q := by
  obtain ⟨φ, hobeys, hsound⟩ := sound_of_reachable h
  obtain ⟨ψ, hψ⟩ := (hobeys t).trans_of_head hresize (by simp) 0
  have howed : 0 < (φ t).2.owed := by
    obtain ⟨-, hstep⟩ := Protocol.both_trans.mp hψ
    have hresized : (φ t).2.resized = some ψ.2 := by
      rwa [protocol_trans, step, if_neg (hsound.inv.there t)] at hstep
    exact Nat.zero_lt_of_lt (PauseWaits.of_guard hresized).1.2
  obtain ⟨ψ', hψ'⟩ := (hobeys u).trans_of_head hask (by simp) 0
  exact not_works_of_settled (a := 0) (hsound.inv.settled_of_owed howed)
    (PauseWaits.Staffed.ne_never (hsound.waits.fits.attends u)) (Protocol.both_trans.mp hψ').1

/-- While a thread resizes the queue, no other is in a call of the queue or of the
consumer, but to ask whether the queue has its largest size. -/
theorem resize_alone {s : Recorded ι n E}
    (h : (((processor ι n E).recording.system (newProcessor ι n E).recorded).restrict
      Considerate).Reachable s) {t : Thread ι n} (hresize : (s.prog t).head = some (.ask .resize)) :
    ∀ u q, u ≠ t → (s.prog u).head = some (.ask q) → q = .isMaxSize ∨ ∃ w, q = .started w := by
  obtain ⟨χ, hχ, hinv⟩ := Resizing.inv_of_reachable (Machine.reachable_forget h.of_restrict)
  have halone : χ t = .alone := by
    obtain ⟨χ', hχ'⟩ := (hχ t).trans_of_head hresize (by simp) 0
    exact (PauseWaits.of_guard hχ').1
  intro u q hut hask
  have hquiet := quiet_of_resize h hresize hask
  obtain ⟨hcounted, hclear, hsame⟩ := hinv.alone (u := u) halone
  obtain ⟨χ', hχ'⟩ := (hχ u).trans_of_head hask (by simp) 0
  cases q with
  | isMaxSize => exact .inl rfl
  | started w => exact .inr ⟨w, rfl⟩
  | add entry => exact ((PauseWaits.of_guard hχ').1.elim hcounted hclear).elim
  | resize => exact absurd (hsame (PauseWaits.of_guard hχ').1) hut
  | init w | remove w | handle w | isWork w | finalize w => exact absurd trivial hquiet

instance (t : Thread ι n) (s : Recorded ι n E) :
    Decidable ((s.prog t).head = some (.ask .resize)) :=
  match s.prog t with
  | .op (.ask .resize) _ => .isTrue rfl
  | .done _ | .op (.ask (.add _)) _ | .op (.ask .isMaxSize) _ | .op (.ask (.started _)) _
  | .op (.ask (.init _)) _ | .op (.ask (.finalize _)) _ | .op (.ask (.remove _)) _
  | .op (.ask (.handle _)) _ | .op (.ask (.isWork _)) _ | .op (.acquire _) _ | .op (.release _) _
  | .op (.wait _ _) _ | .op (.resume _ _) _ | .op (.signal _) _ | .op (.broadcast _) _
  | .op (.load _) _ | .op (.store _) _ | .op (.call _) _ | .op (.spawn _) _ =>
      .isFalse (by simp [Prog.head])

/-- The worker waits to be resumed. -/
theorem resize_alone_of_full : ∃ s : Recorded Unit 1 Unit,
    (s.prog (.client ())).head = some (.ask .resize) ∧
      (s.prog (.worker 0)).head = some (.resume (.hasPaused 0) (.hasPausedLock 0)) ∧
      ∀ u q, u ≠ .client () → (s.prog u).head = some (.ask q) →
        q = .isMaxSize ∨ ∃ w, q = .started w := by
  let go (t : Thread Unit 1) (k : Nat) : List (Label (names Unit 1 Unit)) :=
    List.replicate k (.step t .go)
  let answer (t : Thread Unit 1) (a : Int) : Label (names Unit 1 Unit) := .step t (.answer a)
  obtain ⟨s, hs, hresize, hwaits⟩ := (processor Unit 1 Unit).recording.exists_of_follow
    (newProcessor Unit 1 Unit).recorded Considerate
    (fun s => (s.prog (.client ())).head = some (.ask .resize) ∧
      (s.prog (.worker 0)).head = some (.resume (.hasPaused 0) (.hasPausedLock 0)))
    ([.enter (.client ()) .start] ++ go (.client ()) 18 ++
      [answer (.worker 0) 0, answer (.worker 0) 0, .enter (.client ()) (.add ())] ++
      go (.client ()) 6 ++ [answer (.client ()) QueueConstants.IS_FULL] ++ go (.client ()) 1 ++
      [answer (.client ()) 0] ++ go (.client ()) 4 ++
      [answer (.client ()) QueueConstants.IS_FULL] ++ go (.client ()) 27 ++ go (.worker 0) 6 ++
      [.step (.worker 0) (.wake (.client ()))] ++ go (.worker 0) 1 ++ go (.client ()) 6)
    (by decide +kernel)
  exact ⟨s, hresize, hwaits, resize_alone hs hresize⟩

end HPQueue
