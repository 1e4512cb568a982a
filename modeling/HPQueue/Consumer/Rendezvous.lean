import HPQueue.Consumer.Staffing

/-!
# Nobody waits for a pause in vain

A worker that is paused does not wait for work, unless a client is about to tell it; one
that is not paused does not wait to be resumed, unless a client is about to; and a client
waits for a worker that will come to know of its pause, and say so.

## Main results

* `Heeds.turn` — what a worker that waits does not know.
* `Knows.turn` — what a client knows of the worker that it pauses.
* `rendezvous_of_reachable` — all of it.
-/

namespace HPQueue

open Library.Threads Prog

variable {ι : Type} {n : Nat} {E : Type}

namespace PauseWaits

open Phase
open Attendance (written Sees written_flag_of_ne written_flag)

/-! ## What a worker that waits does not know -/

section Waiting

variable (φ : Thread ι n → Phase n) (s : Shared (names ι n E) (Control ι n)) (w : Fin n)

/-- It has found that it is not paused, and waits for work, or is about to. -/
def Unaware : Prop :=
  φ (.worker w) = looked ∨ φ (.worker w) = flagged ∨
    φ (.worker w) = waiting ∧ .worker w ∈ s.asleep (.isWorkWaiting w)

/-- It has found that it is paused, and waits to be resumed, or is about to. -/
def Halted : Prop :=
  φ (.worker w) = seen ∨ φ (.worker w) = idling ∨ φ (.worker w) = told ∨
    φ (.worker w) = parked ∧ .worker w ∈ s.asleep (.hasPaused w)

/-- The client is about to tell the worker that it is paused. -/
def Owes : Phase n → Prop
  | owing v | telling v | waking v => v = w
  | _ => False

structure Heeds : Prop where
  paused : ∀ w, Unaware φ s w →
    s.memory.flag (.worker w .isPausedFlag) = false ∨ ∃ t, Owes w (φ t)
  resumed : ∀ w, Halted φ s w →
    s.memory.flag (.worker w .isPausedFlag) = true ∨ ∃ t, φ t = freeing w

end Waiting

variable [DecidableEq ι] {t : Thread ι n} {o : Op (names ι n E)} {r : o.Result}
  {φ : Thread ι n → Phase n} {s s' : Shared (names ι n E) (Control ι n)} {w : Fin n}
  {ψ : Phase n}

theorem unaware_update {i : ι} :
    Unaware (Function.update φ (.client i) ψ) s w ↔ Unaware φ s w := by simp [Unaware]

theorem halted_update {i : ι} :
    Halted (Function.update φ (.client i) ψ) s w ↔ Halted φ s w := by simp [Halted]

/-- How `isPausedFlag` changes. -/
inductive Repaused (w : Fin n) (b b' : Bool) (φ ψ : Phase n) : Prop
  | same (hb : b' = b)
  | mark (hφ : φ = pausable w) (hψ : ψ = owing w) (hb : b' = true)
  | free (hφ : φ = pausing w) (hψ : ψ = freeing w) (hb : b' = false)
  | construct {ws : List (Fin n)} (hφ : φ = making (w :: ws)) (hb : b' = false)

theorem Turn.paused {m : Control ι n} {χ : Phase n} (h : Turn t χ o r ψ) (w : Fin n) :
    Repaused w (m.flag (.worker w .isPausedFlag))
      ((written t m o).flag (.worker w .isPausedFlag)) χ ψ := by
  cases h with
  | works ht h => exact .same (h.keeps fun g hg => by rintro ⟨⟩; exact hg)
  | controls ht h =>
      cases h with
      | construct v ws =>
          by_cases hvw : w = v
          · subst hvw
            exact .construct rfl (by simp [written, Control.store])
          · exact .same (by simp [written, Control.store, hvw])
      | mark v =>
          by_cases hvw : w = v
          · subst hvw
            exact .mark rfl rfl written_flag
          · exact .same (written_flag_of_ne (by simpa using hvw))
      | free v =>
          by_cases hvw : w = v
          · subst hvw
            exact .free rfl rfl written_flag
          · exact .same (written_flag_of_ne (by simpa using hvw))
      | run | launch => exact .same (written_flag_of_ne (by simp))
      | _ => exact .same rfl
  | stays _ h => exact .same (h.flag trivial)

/-- A worker falls asleep for itself. -/
theorem asleep_of_turn {c : Cond n} {v : Fin n} (h : (processor ι n E).Effect s t o r s')
    (hv : .worker v ∈ s'.asleep c) (hne : t ≠ .worker v) : .worker v ∈ s.asleep c :=
  (h.asleep hv).resolve_right fun hwait => hne hwait.1.symm

/-- It does not come to wait for work unless it finds that it is not paused. -/
theorem unaware_of_turn (h : Turn t (φ t) o r ψ) (heffect : (processor ι n E).Effect s t o r s')
    (hw : Unaware (Function.update φ t ψ) s' w) :
    Unaware φ s w ∨ s.memory.flag (.worker w .isPausedFlag) = false ∧ s'.memory = s.memory := by
  by_cases ht : t = .worker w
  · subst ht
    have hsees := sees_of_effect heffect
    unfold Unaware at hw ⊢
    rw [Function.update_self] at hw
    generalize φ (.worker w) = χ at h hw
    cases h with
    | works ht h =>
        obtain rfl := Thread.worker.inj ht
        cases h with
        | look b =>
            cases b with
            | true => simp at hw
            | false => exact .inr ⟨hsees.symm, memory_of_effect heffect⟩
        | flag => exact .inl (.inl rfl)
        | wait => exact .inl (.inr (.inl rfl))
        | glance b | glanceAgain b | see b | find b => cases b <;> simp at hw
        | _ => simp at hw
    | controls ht h => cases ht
    | stays hrests h =>
        refine .inl (hw.imp id fun hw => hw.imp id ?_)
        rintro ⟨rfl, -⟩
        cases hrests
  · left
    unfold Unaware at hw ⊢
    rw [Function.update_of_ne (Ne.symm ht)] at hw
    exact hw.imp id fun hw => hw.imp id fun hw => ⟨hw.1, asleep_of_turn heffect hw.2 ht⟩

/-- Nor to be resumed, unless it finds that it is. -/
theorem halted_of_turn (h : Turn t (φ t) o r ψ) (heffect : (processor ι n E).Effect s t o r s')
    (hw : Halted (Function.update φ t ψ) s' w) :
    Halted φ s w ∨ s.memory.flag (.worker w .isPausedFlag) = true ∧ s'.memory = s.memory := by
  by_cases ht : t = .worker w
  · subst ht
    have hsees := sees_of_effect heffect
    unfold Halted at hw ⊢
    rw [Function.update_self] at hw
    generalize φ (.worker w) = χ at h hw
    cases h with
    | works ht h =>
        obtain rfl := Thread.worker.inj ht
        cases h with
        | see b =>
            cases b with
            | true => exact .inr ⟨hsees.symm, memory_of_effect heffect⟩
            | false => simp at hw
        | idle => exact .inl (.inl rfl)
        | tell => exact .inl (.inr (.inl rfl))
        | park => exact .inl (.inr (.inr (.inl rfl)))
        | glance b | glanceAgain b | look b | find b => cases b <;> simp at hw
        | _ => simp at hw
    | controls ht h => cases ht
    | stays hrests h =>
        refine .inl (hw.imp id fun hw => hw.imp id fun hw => hw.imp id ?_)
        rintro ⟨rfl, -⟩
        cases hrests
  · left
    unfold Halted at hw ⊢
    rw [Function.update_of_ne (Ne.symm ht)] at hw
    exact hw.imp id fun hw => hw.imp id fun hw => hw.imp id fun hw =>
      ⟨hw.1, asleep_of_turn heffect hw.2 ht⟩

omit [DecidableEq ι] in
/-- With the worker's `isWorkLock`, it is known to be unaware only if it sleeps. -/
theorem asleep_of_unaware (hfits : Fits φ s) {i : ι}
    (hi : Holds (.client i : Thread ι n) (φ (.client i)) (.isWorkLock w)) (hw : Unaware φ s w) :
    φ (.worker w) = waiting ∧ .worker w ∈ s.asleep (.isWorkWaiting w) := by
  have hnot : ¬ Holds (.worker w : Thread ι n) (φ (.worker w)) (.isWorkLock w) := by
    intro hworker
    cases hfits.alone hi hworker
  rcases hw with hw | hw | hw
  · rw [hw] at hnot
    exact absurd rfl hnot
  · rw [hw] at hnot
    exact absurd rfl hnot
  · exact hw

omit [DecidableEq ι] in
theorem asleep_of_halted (hfits : Fits φ s) {i : ι}
    (hi : Holds (.client i : Thread ι n) (φ (.client i)) (.hasPausedLock w))
    (hw : Halted φ s w) : φ (.worker w) = parked ∧ .worker w ∈ s.asleep (.hasPaused w) := by
  have hnot : ¬ Holds (.worker w : Thread ι n) (φ (.worker w)) (.hasPausedLock w) := by
    intro hworker
    cases hfits.alone hi hworker
  rcases hw with hw | hw | hw | hw
  · rw [hw] at hnot
    exact absurd rfl hnot
  · rw [hw] at hnot
    exact absurd rfl hnot
  · rw [hw] at hnot
    exact absurd rfl hnot
  · exact hw

/-- What is owed is paid: the worker no longer waits. -/
theorem Owes.turn {i : ι} (howes : Owes w (φ (.client i))) (hs : Staffed φ s.memory.flag)
    (hfits : Fits φ s) (h : Controls (φ (.client i)) o r ψ)
    (heffect : (processor ι n E).Effect s (.client i) o r s') :
    Owes w ψ ∨ ¬ Unaware φ s' w := by
  have hsees := sees_of_effect heffect
  have hasleep := asleep_of_unaware (w := w) hfits (i := i)
  generalize hχ : φ (.client i) = χ at h howes hasleep
  cases h with
  | tell v => exact .inl howes
  | hear v b =>
      obtain rfl : v = w := howes
      cases b with
      | true => exact .inl rfl
      | false =>
          obtain rfl := eq_of_load heffect
          right
          intro hw
          have hwaiting := (hs.tells v).waiting (.inr (hasleep (by simp [Holds]) hw).1)
          exact Bool.false_ne_true (hsees.trans hwaiting)
  | signal v =>
      obtain rfl : v = w := howes
      right
      intro hw
      have hsleeps : ∀ u ∈ s.asleep (.isWorkWaiting v), u = .worker v :=
        fun u hu => (hfits.sleeps _ u hu).1
      have hw' : Unaware φ s v :=
        hw.imp id fun hw => hw.imp id fun hw =>
          ⟨hw.1, asleep_of_turn heffect hw.2 (by simp)⟩
      have hphase := (hasleep (by simp [Holds]) hw').1
      rcases hw with hw | hw | ⟨-, hw⟩
      · rw [hw] at hphase
        cases hphase
      · rw [hw] at hphase
        cases hphase
      · exact heffect.awake_of_signal hsleeps hw
  | leave hφ => rcases hφ with rfl | rfl | rfl | rfl <;> cases howes
  | _ => cases howes

/-- Nor does it wait to be resumed once that is signalled. -/
theorem freed {i : ι} (hfreeing : φ (.client i) = freeing w) (hfits : Fits φ s)
    (h : Controls (φ (.client i)) o r ψ) (heffect : (processor ι n E).Effect s (.client i) o r s') :
    ¬ Halted φ s' w := by
  have hasleep := asleep_of_halted (w := w) hfits (i := i) (by simp [hfreeing, Holds])
  rw [hfreeing] at h
  intro hw
  have hsleeps : ∀ u ∈ s.asleep (.hasPaused w), u = .worker w :=
    fun u hu => (hfits.sleeps _ u hu).1
  have hw' : Halted φ s w :=
    hw.imp id fun hw => hw.imp id fun hw => hw.imp id fun hw =>
      ⟨hw.1, asleep_of_turn heffect hw.2 (by simp)⟩
  have hphase := (hasleep hw').1
  have hstill : .worker w ∈ s'.asleep (.hasPaused w) := by
    rcases hw with hw | hw | hw | hw
    · cases hphase.symm.trans hw
    · cases hphase.symm.trans hw
    · cases hphase.symm.trans hw
    · exact hw.2
  cases h with
  | freed => exact heffect.awake_of_signal hsleeps hstill
  | leave hφ => simp at hφ

/-- What a client is about to do is still to be done, or is done. -/
theorem debt_of_turn {D : Phase n → Prop} {P : Prop} {u : Thread ι n} (hu : D (φ u))
    (hworker : ∀ v, ¬ Works v (φ u) o r ψ)
    (hclient : ∀ i, u = .client i → t = u → Controls (φ u) o r ψ → D ψ ∨ P)
    (h : Turn t (φ t) o r ψ) : (∃ u, D (Function.update φ t ψ u)) ∨ P := by
  by_cases hut : u = t
  · subst hut
    generalize hχ : φ u = χ at h
    cases h with
    | works ht h => exact absurd (by rwa [hχ]) (hworker _)
    | controls ht h =>
        exact (hclient _ ht rfl (by rwa [hχ])).imp (fun hψ => ⟨u, by rwa [Function.update_self]⟩) id
    | stays hrests h => exact .inl ⟨u, by rwa [Function.update_self, ← hχ]⟩
  · exact .inl ⟨u, by rwa [Function.update_of_ne hut]⟩

namespace Heeds

/-- What one operation preserves. -/
theorem turn (hheeds : Heeds φ s) (hs : Staffed φ s.memory.flag) (hfits : Fits φ s)
    (h : Turn t (φ t) o r ψ) (heffect : (processor ι n E).Effect s t o r s') :
    Heeds (Function.update φ t ψ) s' := by
  have hmemory := memory_of_effect heffect
  constructor
  · intro w hw
    rcases unaware_of_turn h heffect hw with hunaware | ⟨hpaused, hsame⟩
    · rcases hheeds.paused w hunaware with hpaused | ⟨u, hu⟩
      · rw [hmemory]
        cases h.paused (m := s.memory) w with
        | same hb => exact .inl (hb.trans hpaused)
        | mark hφ hψ hb => exact .inr ⟨t, by rw [Function.update_self, hψ]; rfl⟩
        | free hφ hψ hb => exact .inl hb
        | construct hφ hb => exact .inl hb
      · right
        apply (debt_of_turn (D := Owes w) hu ?_ ?_ h).resolve_right (not_not_intro hw)
        · intro v h
          generalize φ u = χ at h hu
          cases h <;> cases hu
        · rintro i rfl rfl hcontrols
          rw [unaware_update]
          exact hu.turn hs hfits hcontrols heffect
    · exact .inl (by rw [hsame, hpaused])
  · intro w hw
    rcases halted_of_turn h heffect hw with hhalted | ⟨hpaused, hsame⟩
    · rcases hheeds.resumed w hhalted with hpaused | ⟨u, hu⟩
      · rw [hmemory]
        cases h.paused (m := s.memory) w with
        | same hb => exact .inl (hb.trans hpaused)
        | mark hφ hψ hb => exact .inl hb
        | free hφ hψ hb => exact .inr ⟨t, by rw [Function.update_self, hψ]⟩
        | construct hφ hb =>
            have habsent : φ (.worker w) = unborn := by
              have hopens := hs.opens t
              rw [hφ] at hopens
              exact hopens.absent w (List.mem_cons_self ..)
            simp [Halted, habsent] at hhalted
      · right
        apply (debt_of_turn (D := (· = freeing w)) hu ?_ ?_ h).resolve_right (not_not_intro hw)
        · intro v h
          rw [hu] at h
          cases h
        · rintro i rfl rfl hcontrols
          rw [halted_update]
          exact .inr (freed hu hfits hcontrols heffect)
    · exact .inl (by rw [hsame, hpaused])

end Heeds

/-! ## What a client knows of the worker that it pauses -/

/-- It has not thrown, or will find that it is paused. -/
def Present (φ : Phase n) : Prop := φ ≠ parted ∧ φ ≠ gone

section Pausing

variable (φ : Thread ι n → Phase n) (s : Shared (names ι n E) (Control ι n))

/-- The worker is paused, and will come to know. -/
structure Warned (w : Fin n) : Prop where
  paused : s.memory.flag (.worker w .isPausedFlag) = true
  present : Present (φ (.worker w))
  aware : ¬ Unaware φ s w

/-- What a client in this phase knows. -/
def Knows (i : ι) : Phase n → Prop
  | pausable w => Present (φ (.worker w))
  | owing w | telling w | waking w =>
      s.memory.flag (.worker w .isPausedFlag) = true ∧ Present (φ (.worker w))
  | signalled w | marked w => Warned φ s w
  | busy w => Warned φ s w ∧ ¬ Idles (φ (.worker w))
  | ready w => (Warned φ s w ∧ ¬ Idles (φ (.worker w))) ∧ φ (.worker w) ≠ unborn
  | awaiting w => .client i ∈ s.asleep (.isIdle w) →
      (Warned φ s w ∧ (Idles (φ (.worker w)) → φ (.worker w) = idling)) ∧ φ (.worker w) ≠ unborn
  | _ => True

end Pausing

omit [DecidableEq ι] in
theorem Present.of_alive {χ : Phase n} (h : ¬ Fails χ) : Present χ :=
  ⟨by rintro rfl; exact h trivial, by rintro rfl; exact h trivial⟩

omit [DecidableEq ι] in
theorem knows_of_free {i : ι} {χ : Phase n} (hχ : Attends (.client i : Thread ι n) χ)
    (h : ¬ Holds (.client i : Thread ι n) χ .startLock) : Knows φ s i χ := by
  cases χ <;> simp_all [Knows, Holds, Attends]

/-- A worker whose `hasPausedLock` is held does not come to part, nor to be idle. -/
theorem Works.barred {χ : Phase n} (h : Works w χ o r ψ)
    (heffect : (processor ι n E).Effect s (.worker w) o r s')
    (hheld : s.held (.hasPausedLock w) ≠ none)
    (hnot : ¬ Holds (.worker w : Thread ι n) χ (.hasPausedLock w)) :
    (Present χ → Present ψ) ∧ (Idles ψ → Idles χ) := by
  cases h with
  | enter | part =>
      cases heffect with
      | acquire hfree => exact absurd hfree hheld
  | unpark =>
      cases heffect with
      | resume hawake hfree => exact absurd hfree hheld
  | see b | find b | idle | tell | park | rise | leave | announce | lower | go =>
      exact absurd rfl hnot
  | glance b | glanceAgain b | look b => cases b <;> simp [Present, Idles]
  | _ => simp [Present, Idles]

/-- While a client sleeps, the worker finds that it is paused, and says that it is idle. -/
theorem Works.stirs {χ : Phase n} {i : ι} (h : Works w χ o r ψ)
    (heffect : (processor ι n E).Effect s (.worker w) o r s')
    (hpaused : s.memory.flag (.worker w .isPausedFlag) = true)
    (hasleep : .client i ∈ s'.asleep (.isIdle w))
    (honly : ∀ u ∈ s.asleep (.isIdle w), u = .client i) :
    (Present χ → Present ψ) ∧ ((Idles χ → χ = idling) → Idles ψ → ψ = idling) := by
  have hsees := sees_of_effect heffect
  cases h with
  | tell | announce => exact absurd hasleep (heffect.awake_of_signal honly)
  | find b =>
      cases b with
      | true => simp [Present, Idles]
      | false => cases hpaused.symm.trans hsees.symm
  | glance b | glanceAgain b | look b | see b => cases b <;> simp [Present, Idles]
  | _ => simp [Present, Idles]

theorem Warned.turn {w : Fin n} (hw : Warned φ s w) (h : Turn t (φ t) o r ψ)
    (heffect : (processor ι n E).Effect s t o r s')
    (hpaused : s'.memory.flag (.worker w .isPausedFlag) = s.memory.flag (.worker w .isPausedFlag))
    (hpresent : Present (Function.update φ t ψ (.worker w))) :
    Warned (Function.update φ t ψ) s' w where
  paused := hpaused.trans hw.paused
  present := hpresent
  aware := by
    intro hunaware
    rcases unaware_of_turn h heffect hunaware with hunaware | ⟨hnot, -⟩
    · exact hw.aware hunaware
    · cases hw.paused.symm.trans hnot

/-- What workers do, a client that knows of one need not care. -/
theorem Knows.mono {i : ι} {χ : Phase n} (hknows : Knows φ s i χ) (h : Turn t (φ t) o r ψ)
    (heffect : (processor ι n E).Effect s t o r s')
    (hpaused : ∀ w, s'.memory.flag (.worker w .isPausedFlag) =
      s.memory.flag (.worker w .isPausedFlag))
    (hasleep : ∀ w, .client i ∈ s'.asleep (.isIdle w) → .client i ∈ s.asleep (.isIdle w))
    (hborn : ∀ w, φ (.worker w) ≠ unborn → Function.update φ t ψ (.worker w) ≠ unborn)
    (hbarred : ∀ w, Holds (.client i : Thread ι n) χ (.hasPausedLock w) →
      (Present (φ (.worker w)) → Present (Function.update φ t ψ (.worker w))) ∧
      (Idles (Function.update φ t ψ (.worker w)) → Idles (φ (.worker w))))
    (hstirs : ∀ w, χ = awaiting w → .client i ∈ s'.asleep (.isIdle w) →
      s.memory.flag (.worker w .isPausedFlag) = true →
      (Present (φ (.worker w)) → Present (Function.update φ t ψ (.worker w))) ∧
      ((Idles (φ (.worker w)) → φ (.worker w) = idling) →
        Idles (Function.update φ t ψ (.worker w)) →
        Function.update φ t ψ (.worker w) = idling)) :
    Knows (Function.update φ t ψ) s' i χ := by
  have hwarned : ∀ {w}, Warned φ s w → Present (Function.update φ t ψ (.worker w)) →
      Warned (Function.update φ t ψ) s' w :=
    fun hw hpresent => hw.turn h heffect (hpaused _) hpresent
  cases χ with
  | pausable w => exact (hbarred w (by simp [Holds])).1 hknows
  | owing w | telling w | waking w =>
      exact ⟨(hpaused w).trans hknows.1, (hbarred w (by simp [Holds])).1 hknows.2⟩
  | signalled w | marked w =>
      exact hwarned hknows ((hbarred w (by simp [Holds])).1 hknows.present)
  | busy w =>
      obtain ⟨hpresent, hidle⟩ := hbarred w (by simp [Holds])
      exact ⟨hwarned hknows.1 (hpresent hknows.1.present), mt hidle hknows.2⟩
  | ready w =>
      obtain ⟨hpresent, hidle⟩ := hbarred w (by simp [Holds])
      obtain ⟨⟨hw, hnot⟩, hthere⟩ := hknows
      exact ⟨⟨hwarned hw (hpresent hw.present), mt hidle hnot⟩, hborn w hthere⟩
  | awaiting w =>
      intro hsleeps
      obtain ⟨⟨hw, hidle⟩, hthere⟩ := hknows (hasleep w hsleeps)
      obtain ⟨hpresent, hidling⟩ := hstirs w rfl hsleeps hw.paused
      exact ⟨⟨hwarned hw (hpresent hw.present), hidling hidle⟩, hborn w hthere⟩
  | _ => trivial

omit [DecidableEq ι] in
/-- Whoever has found a worker paused need not tell it: if it were unaware, somebody else
would be about to, with the same mutex. -/
theorem warned_of_paused {i : ι} (hφ : φ (.client i) = pausable w) (hheeds : Heeds φ s)
    (hfits : Fits φ s) (hpaused : s.memory.flag (.worker w .isPausedFlag) = true)
    (hpresent : Present (φ (.worker w))) : Warned φ s w where
  paused := hpaused
  present := hpresent
  aware := by
    intro hunaware
    rcases hheeds.paused w hunaware with hnot | ⟨u, hu⟩
    · cases hpaused.symm.trans hnot
    · have hi : Holds (.client i : Thread ι n) (φ (.client i)) (.hasPausedLock w) := by
        simp [hφ, Holds]
      have hheld : Holds u (φ u) (.hasPausedLock w) := by
        have hattends := hfits.attends u
        generalize φ u = χ at hu hattends
        cases u <;> cases χ <;> simp_all [Owes, Holds, Attends]
      obtain rfl := hfits.alone hi hheld
      rw [hφ] at hu
      cases hu

/-- A client's own step. -/
theorem Knows.own {i : ι} (hknows : Knows φ s i (φ (.client i))) (hheeds : Heeds φ s)
    (hs : Staffed φ s.memory.flag) (hfits : Fits φ s) (h : Controls (φ (.client i)) o r ψ)
    (heffect : (processor ι n E).Effect s (.client i) o r s') :
    Knows (Function.update φ (.client i) ψ) s' i ψ := by
  have hsees := sees_of_effect heffect
  have hpaid := fun w hw => Owes.turn (w := w) hw hs hfits h heffect
  have hwarned := fun w (hw : Warned φ s w) => hw.turn (.controls rfl h) heffect
  have hworker : ∀ v, Function.update φ (.client i) ψ (.worker v) = φ (.worker v) :=
    fun v => Function.update_of_ne (by simp) _ _
  simp only [hworker] at hwarned
  generalize hχ : φ (.client i) = χ at h hknows hpaid
  cases h with
  | able w b =>
      cases b with
      | true => trivial
      | false =>
          show Present _
          rw [hworker]
          apply Present.of_alive
          rw [← (hs.tells w).fails, Bool.not_eq_true]
          exact hsees.symm
  | isPaused w b =>
      obtain rfl := eq_of_load heffect
      cases b with
      | true => exact hwarned w (warned_of_paused hχ hheeds hfits hsees.symm hknows) rfl hknows
      | false => exact (congrArg Present (hworker w)).mpr hknows
  | mark w =>
      refine ⟨?_, (congrArg Present (hworker w)).mpr hknows⟩
      rw [memory_of_effect heffect]
      exact written_flag
  | tell w =>
      refine ⟨?_, (congrArg Present (hworker w)).mpr hknows.2⟩
      rw [memory_of_effect heffect]
      exact hknows.1
  | hear w b =>
      obtain rfl := eq_of_load heffect
      cases b with
      | true => exact ⟨hknows.1, (congrArg Present (hworker w)).mpr hknows.2⟩
      | false =>
          refine ⟨hknows.1, (congrArg Present (hworker w)).mpr hknows.2, ?_⟩
          rw [unaware_update]
          exact (hpaid w rfl).resolve_left id
  | signal w =>
      refine ⟨?_, (congrArg Present (hworker w)).mpr hknows.2, ?_⟩
      · rw [memory_of_effect heffect]
        exact hknows.1
      · rw [unaware_update]
        exact (hpaid w rfl).resolve_left id
  | told w =>
      refine hwarned w hknows ?_ hknows.present
      rw [memory_of_effect heffect]
      rfl
  | isIdle w b =>
      obtain rfl := eq_of_load heffect
      have hw := hwarned w hknows rfl hknows.present
      cases b with
      | true => exact hw
      | false =>
          refine ⟨hw, ?_⟩
          rw [hworker, ← (hs.tells w).idle, Bool.not_eq_true]
          exact hsees.symm
  | isStarted w b =>
      obtain rfl := eq_of_load heffect
      have hw := hwarned w hknows.1 rfl hknows.1.present
      have hidle := hknows.2
      rw [← hworker w] at hidle
      cases b with
      | false => exact ⟨hw, hidle⟩
      | true =>
          refine ⟨⟨hw, hidle⟩, ?_⟩
          rw [hworker]
          apply (hs.launched w hsees.symm).resolve_right
          rintro ⟨u, ws, hu⟩
          have hi : Holds (.client i : Thread ι n) (φ (.client i)) .startLock := by
            simp [hχ, Holds]
          have hheld : Holds u (φ u) .startLock := by
            have hattends := hfits.attends u
            rw [hu] at hattends ⊢
            cases u <;> simp_all [Holds, Attends]
          obtain rfl := hfits.alone hi hheld
          cases hχ.symm.trans hu
  | await w =>
      rintro -
      obtain ⟨⟨hw, hidle⟩, hborn⟩ := hknows
      rw [← hworker w] at hidle hborn
      refine ⟨⟨hwarned w hw ?_ hw.present, fun h => absurd h hidle⟩, hborn⟩
      rw [memory_of_effect heffect]
      rfl
  | isRunning b | find w hw b | findAgain w ws b => cases b <;> trivial
  | _ => trivial

/-- What one operation preserves. -/
theorem Knows.turn (hknows : ∀ i, Knows φ s i (φ (.client i))) (hheeds : Heeds φ s)
    (hs : Staffed φ s.memory.flag) (hfits : Fits φ s) (h : Turn t (φ t) o r ψ)
    (heffect : (processor ι n E).Effect s t o r s') (i : ι) :
    Knows (Function.update φ t ψ) s' i (Function.update φ t ψ (.client i)) := by
  have hmemory := memory_of_effect heffect
  have hwhole := h
  generalize hχ : φ t = χ at h
  cases h with
  | @works v ψ ht h =>
      subst ht
      rw [Function.update_of_ne (by simp)]
      rw [← hχ] at h
      by_cases hfree : Holds (.client i : Thread ι n) (φ (.client i)) .startLock
      · apply (hknows i).mono hwhole heffect
        · intro w
          rw [hmemory]
          exact h.keeps fun g hg => by rintro ⟨⟩; exact hg
        · exact fun w hw => (heffect.asleep hw).resolve_right fun hwait => by cases hwait.1
        · intro w hw
          by_cases hwv : w = v
          · subst hwv
            rw [Function.update_self]
            exact h.born.2
          · rwa [Function.update_of_ne (by simpa using hwv)]
        · intro w hw
          by_cases hwv : w = v
          · subst hwv
            rw [Function.update_self]
            apply h.barred heffect (by rw [hfits.holds _ _ hw]; simp)
            intro hworker
            cases hfits.alone hw hworker
          · rw [Function.update_of_ne (by simpa using hwv)]
            exact ⟨id, id⟩
        · intro w hawaiting hasleep hpaused
          by_cases hwv : w = v
          · subst hwv
            rw [Function.update_self]
            apply h.stirs heffect hpaused hasleep
            intro u hu
            have hawaits : φ u = awaiting w := hfits.sleeps _ u hu
            apply hfits.alone ?_ hfree
            have hattends := hfits.attends u
            rw [hawaits] at hattends ⊢
            cases u <;> simp_all [Attends, Holds]
          · rw [Function.update_of_ne (by simpa using hwv)]
            exact ⟨id, fun hidle => hidle⟩
      · exact knows_of_free (hfits.attends _) hfree
  | @controls j ψ ht h =>
      subst ht
      rw [← hχ] at h
      by_cases hij : i = j
      · subst hij
        rw [Function.update_self]
        exact (hknows i).own hheeds hs hfits h heffect
      · have hne : (.client i : Thread ι n) ≠ .client j := by simpa using hij
        rw [Function.update_of_ne hne]
        exact knows_of_free (hfits.attends _) fun hi =>
          hne (hfits.alone_of_controls h heffect hi)
  | stays hrests h =>
      have hsame : Function.update φ t ψ = φ := by rw [← hχ, Function.update_eq_self]
      rw [congrFun hsame (.client i)]
      apply (hknows i).mono hwhole heffect
      · intro w
        rw [hmemory]
        exact h.flag trivial
      · intro w hw
        refine (heffect.asleep hw).resolve_right ?_
        rintro ⟨rfl, l, rfl⟩
        cases h.1
      · exact fun w hw => by rwa [hsame]
      · exact fun w _ => by rw [hsame]; exact ⟨id, id⟩
      · exact fun w _ _ _ => by rw [hsame]; exact ⟨id, fun hidle => hidle⟩

section Congr

variable {φ' : Thread ι n → Phase n} (hworker : ∀ w, φ' (.worker w) = φ (.worker w))
  (hasleep : ∀ c, s'.asleep c ⊆ s.asleep c)

include hworker hasleep

omit [DecidableEq ι]

theorem unaware_congr (hw : Unaware φ' s' w) : Unaware φ s w := by
  unfold Unaware at hw ⊢
  rw [hworker] at hw
  exact hw.imp id fun hw => hw.imp id fun hw => ⟨hw.1, hasleep _ hw.2⟩

theorem halted_congr (hw : Halted φ' s' w) : Halted φ s w := by
  unfold Halted at hw ⊢
  rw [hworker] at hw
  exact hw.imp id fun hw => hw.imp id fun hw => hw.imp id fun hw => ⟨hw.1, hasleep _ hw.2⟩

/-- Other clients' phases do not matter, nor who wakes. -/
theorem Knows.congr (hmemory : s'.memory = s.memory) {i : ι} {χ : Phase n}
    (h : Knows φ s i χ) : Knows φ' s' i χ := by
  have hwarned : ∀ w, Warned φ s w → Warned φ' s' w := by
    intro w hw
    refine ⟨?_, ?_, fun hunaware => hw.aware (unaware_congr hworker hasleep hunaware)⟩
    · rw [hmemory]
      exact hw.paused
    · rw [hworker]
      exact hw.present
  unfold Knows at h ⊢
  simp only [hworker, hmemory]
  cases χ with
  | signalled w | marked w => exact hwarned w h
  | busy w => exact ⟨hwarned w h.1, h.2⟩
  | ready w => exact ⟨⟨hwarned w h.1.1, h.1.2⟩, h.2⟩
  | awaiting w =>
      intro hsleeps
      obtain ⟨⟨hw, hidle⟩, hborn⟩ := h (hasleep _ hsleeps)
      exact ⟨⟨hwarned w hw, hidle⟩, hborn⟩
  | _ => exact h

end Congr

/-! ## The invariant -/

structure Inv (φ : Thread ι n → Phase n) (s : Shared (names ι n E) (Control ι n)) : Prop where
  fits : Fits φ s
  staffed : Staffed φ s.memory.flag
  heeds : Heeds φ s
  knows : ∀ i, Knows φ s i (φ (.client i))

def initial : Thread ι n → Phase n
  | .client _ => out
  | .worker _ => unborn

namespace Inv

theorem new : Inv initial (newProcessor ι n E).shared where
  fits := by
    refine ⟨?_, ?_, ?_, rfl, rfl, fun _ => rfl⟩
    · rintro (i | w) <;> trivial
    · rintro (i | w) l h <;> cases h
    · intro c t ht
      simp [newProcessor] at ht
  staffed := by
    refine ⟨fun w => .new fun _ => rfl, fun _ _ => rfl, ?_, ?_⟩
    · intro w hw
      cases hw
    · rintro (i | w) <;> trivial
  heeds := by
    constructor <;> intro w hw
    · simp [Unaware, initial] at hw
    · simp [Halted, initial] at hw
  knows := fun _ => trivial

/-- What one operation preserves. -/
theorem turn (h : Inv φ s) (hturn : Turn t (φ t) o r ψ)
    (heffect : (processor ι n E).Effect s t o r s') : Inv (Function.update φ t ψ) s' where
  fits := h.fits.turn hturn heffect
  staffed := h.staffed.turn h.fits hturn heffect
  heeds := h.heeds.turn h.staffed h.fits hturn heffect
  knows := Knows.turn h.knows h.heeds h.staffed h.fits hturn heffect

omit [DecidableEq ι] in
/-- A thread wakes. -/
theorem wake (h : Inv φ s) (hheld : s'.held = s.held) (hmemory : s'.memory = s.memory)
    (hasleep : ∀ c, s'.asleep c ⊆ s.asleep c) : Inv φ s' := by
  constructor
  · refine ⟨h.fits.attends, ?_, fun c t ht => h.fits.sleeps c t (hasleep c ht), ?_, ?_, ?_⟩
    · rw [hheld]
      exact h.fits.holds
    · rw [hmemory]
      exact h.fits.isTerminatedFlag
    · rw [hmemory]
      exact h.fits.cleared
    · rw [hmemory]
      exact h.fits.resizes
  · rw [hmemory]
    exact h.staffed
  · constructor <;> intro w hw <;> rw [hmemory]
    · exact h.heeds.paused w (unaware_congr (fun _ => rfl) hasleep hw)
    · exact h.heeds.resumed w (halted_congr (fun _ => rfl) hasleep hw)
  · exact fun i => (h.knows i).congr (fun _ => rfl) hasleep hmemory

/-- A call begins. -/
theorem enter (h : Inv φ s) {i : ι} (hout : φ (.client i) = out)
    (hψ : ψ = out ∨ ψ = startCalled) : Inv (Function.update φ (.client i) ψ) s := by
  have hworker : ∀ w, Function.update φ (.client i) ψ (.worker w) = φ (.worker w) :=
    fun w => Function.update_of_ne (by simp) _ _
  have hkept : ∀ u χ, φ u = χ → χ ≠ out → Function.update φ (.client i) ψ u = χ := by
    intro u χ hu hχ
    rw [Function.update_of_ne ?_, hu]
    rintro rfl
    exact hχ (hu.symm.trans hout)
  have hattends : ∀ u, Attends u (Function.update φ (.client i) ψ u) := by
    intro u
    by_cases hui : u = .client i
    · subst hui
      rw [Function.update_self]
      rcases hψ with rfl | rfl <;> trivial
    · rw [Function.update_of_ne hui]
      exact h.fits.attends u
  have hholds : ∀ u l, Holds u (Function.update φ (.client i) ψ u) l → Holds u (φ u) l := by
    intro u l hu
    by_cases hui : u = .client i
    · subst hui
      rw [Function.update_self] at hu
      rcases hψ with rfl | rfl <;> cases hu
    · rwa [Function.update_of_ne hui] at hu
  constructor
  · refine ⟨hattends, fun u l hu => h.fits.holds u l (hholds u l hu), ?_,
      h.fits.isTerminatedFlag, h.fits.cleared, h.fits.resizes⟩
    intro c u hu
    have hsleeps := h.fits.sleeps c u hu
    cases c with
    | isWorkWaiting w => exact ⟨hsleeps.1, hkept u _ hsleeps.2 (by simp)⟩
    | hasPaused w => exact ⟨hsleeps.1, hkept u _ hsleeps.2 (by simp)⟩
    | isIdle w => exact hkept u _ hsleeps (by simp)
    | isResizingCond | hasDied w => trivial
  · refine ⟨fun w => by rw [hworker]; exact h.staffed.tells w,
      fun hnot w => by rw [hworker]; exact h.staffed.running hnot w, ?_, ?_⟩
    · intro w hw
      rw [hworker]
      refine (h.staffed.launched w hw).imp id ?_
      rintro ⟨u, ws, hu⟩
      exact ⟨u, ws, hkept u _ hu (by simp)⟩
    · intro u
      by_cases hui : u = .client i
      · subst hui
        rw [Function.update_self]
        rcases hψ with rfl | rfl <;> trivial
      · rw [Function.update_of_ne hui]
        exact (h.staffed.opens u).congr rfl (fun _ => id) fun v hv => (hworker v).trans hv
  · constructor
    · intro w hw
      rw [unaware_update] at hw
      refine (h.heeds.paused w hw).imp id ?_
      rintro ⟨u, hu⟩
      refine ⟨u, ?_⟩
      rwa [hkept u _ rfl]
      intro hu'
      rw [hu'] at hu
      exact hu
    · intro w hw
      rw [halted_update] at hw
      refine (h.heeds.resumed w hw).imp id ?_
      rintro ⟨u, hu⟩
      exact ⟨u, hkept u _ hu (by simp)⟩
  · intro j
    by_cases hij : j = i
    · subst hij
      rw [Function.update_self]
      rcases hψ with rfl | rfl <;> trivial
    · rw [Function.update_of_ne (by simpa using hij)]
      exact (h.knows j).congr hworker (fun _ => Finset.Subset.refl _) rfl

/-- A worker is created. -/
theorem spawn (h : Inv φ s) {i : ι} {w : Fin n} {ws : List (Fin n)}
    (ht : φ (.client i) = launching w ws) :
    Inv (Function.update (Function.update φ (.worker w) fresh) (.client i) (making ws)) s := by
  obtain ⟨hawaits, hstarted⟩ : Awaits φ s.memory.flag (w :: ws) ∧ _ = true := by
    have hopens := h.staffed.opens (.client i)
    rwa [ht] at hopens
  have habsent : φ (.worker w) = unborn := hawaits.absent w (List.mem_cons_self ..)
  have hlock : Holds (.client i : Thread ι n) (φ (.client i)) .startLock := by
    rw [ht]
    simp [Holds]
  generalize hφ' : Function.update (Function.update φ (.worker w) fresh) (.client i) (making ws) =
    φ'
  have hclient : φ' (.client i) = making ws := by simp [← hφ']
  have hworker : φ' (.worker w) = fresh := by simp [← hφ']
  have hothers : ∀ u, u ≠ .client i → u ≠ .worker w → φ' u = φ u := by
    intro u hi hw
    rw [← hφ', Function.update_of_ne hi, Function.update_of_ne hw]
  -- What neither of them is, is what it was.
  have hkept : ∀ u χ, φ u = χ → χ ≠ unborn → (∀ v ws, χ ≠ launching v ws) → φ' u = χ := by
    rintro u χ hu hborn hlaunching
    rw [hothers u ?_ ?_, hu]
    · rintro rfl
      exact hlaunching w ws (hu.symm.trans ht)
    · rintro rfl
      exact hborn (hu.symm.trans habsent)
  have hcases : ∀ u, u = .client i ∨ u = .worker w ∨ u ≠ .client i ∧ φ' u = φ u := by
    intro u
    by_cases hi : u = .client i
    · exact .inl hi
    · by_cases hw : u = .worker w
      · exact .inr (.inl hw)
      · exact .inr (.inr ⟨hi, hothers u hi hw⟩)
  have hunborn : ∀ v, φ (.worker v) = unborn → v ≠ w → φ' (.worker v) = unborn := by
    intro v hv hvw
    rw [hothers _ (by simp) (by simpa using hvw), hv]
  constructor
  · refine ⟨?_, ?_, ?_, h.fits.isTerminatedFlag, h.fits.cleared, h.fits.resizes⟩
    · intro u
      rcases hcases u with rfl | rfl | ⟨-, hu⟩
      · rw [hclient]
        trivial
      · rw [hworker]
        trivial
      · rw [hu]
        exact h.fits.attends u
    · intro u l hl
      apply h.fits.holds u l
      rcases hcases u with rfl | rfl | ⟨-, hu⟩
      · rw [hclient] at hl
        rwa [ht]
      · rw [hworker] at hl
        cases hl
      · rwa [hu] at hl
    · intro c u hu
      have hsleeps := h.fits.sleeps c u hu
      cases c with
      | isWorkWaiting v => exact ⟨hsleeps.1, hkept u _ hsleeps.2 (by simp) (by simp)⟩
      | hasPaused v => exact ⟨hsleeps.1, hkept u _ hsleeps.2 (by simp) (by simp)⟩
      | isIdle v => exact hkept u _ hsleeps (by simp) (by simp)
      | isResizingCond | hasDied v => trivial
  · refine ⟨?_, ?_, ?_, ?_⟩
    · intro v
      have htells := h.staffed.tells v
      by_cases hvw : v = w
      · subst hvw
        rw [habsent] at htells
        rw [hworker]
        exact ⟨htells.fails, by simp, htells.idle, fun _ => hstarted⟩
      · rwa [hothers _ (by simp) (by simpa using hvw)]
    · intro hnot
      cases hnot.symm.trans hawaits.running
    · intro v hv
      left
      by_cases hvw : v = w
      · subst hvw
        rw [hworker]
        simp
      · rw [hothers _ (by simp) (by simpa using hvw)]
        apply (h.staffed.launched v hv).resolve_right
        rintro ⟨u, ws', hu⟩
        have hheld : Holds u (φ u) .startLock := by
          have hattends := h.fits.attends u
          rw [hu] at hattends ⊢
          cases u <;> simp_all [Holds, Attends]
        obtain rfl := h.fits.alone hlock hheld
        obtain ⟨rfl, -⟩ : w = v ∧ ws = ws' := by simpa using ht.symm.trans hu
        exact hvw rfl
    · intro u
      rcases hcases u with rfl | rfl | ⟨hi, hu⟩
      · rw [hclient]
        refine ⟨hawaits.running, hawaits.nodup.of_cons, fun v hv => ?_⟩
        apply hunborn v (hawaits.absent v (List.mem_cons_of_mem _ hv))
        rintro rfl
        exact (List.nodup_cons.mp hawaits.nodup).1 hv
      · rw [hworker]
        trivial
      · rw [hu]
        exact opens_of_free (h.fits.attends u) fun hheld => hi (h.fits.alone hheld hlock)
  · constructor
    · intro v hv
      have hvw : v ≠ w := by
        rintro rfl
        simp [Unaware, hworker] at hv
      have hunaware : Unaware φ s v := by
        unfold Unaware at hv ⊢
        rwa [hothers _ (by simp) (by simpa using hvw)] at hv
      refine (h.heeds.paused v hunaware).imp id ?_
      rintro ⟨u, hu⟩
      refine ⟨u, ?_⟩
      rwa [hkept u _ rfl]
      · rintro hu'
        rw [hu'] at hu
        exact hu
      · rintro v' ws' hu'
        rw [hu'] at hu
        exact hu
    · intro v hv
      have hvw : v ≠ w := by
        rintro rfl
        simp [Halted, hworker] at hv
      have hhalted : Halted φ s v := by
        unfold Halted at hv ⊢
        rwa [hothers _ (by simp) (by simpa using hvw)] at hv
      refine (h.heeds.resumed v hhalted).imp id ?_
      rintro ⟨u, hu⟩
      exact ⟨u, hkept u _ hu (by simp) (by simp)⟩
  · intro j
    rcases hcases (.client j) with hj | hj | ⟨hj, hsame⟩
    · rw [hj, hclient]
      trivial
    · cases hj
    · rw [hsame]
      exact knows_of_free (h.fits.attends _) fun hheld => hj (h.fits.alone hheld hlock)

end Inv

theorem launching_of_spawn {t u : Thread ι n} {φ ψ : Phase n} (hφ : Attends t φ)
    (h : step t φ (.spawn u : Op (names ι n E)) () = some ψ) :
    ∃ i w ws, t = .client i ∧ u = .worker w ∧ φ = launching w ws ∧ making ws = ψ := by
  unfold step at h
  rw [if_neg (Staffed.ne_never hφ)] at h
  obtain ⟨-, h⟩ := Option.ite_none_left_eq_some.mp h
  unfold spawns at h
  split at h
  · obtain ⟨rfl, rfl⟩ := of_guard h
    cases t with
    | worker v => cases hφ
    | client i => exact ⟨i, _, _, rfl, rfl, rfl, rfl⟩
  · cases h

end PauseWaits

/-- Nobody stops or terminates the processor. -/
def Spared (_ : State (names ι n E) (Control ι n)) : Label (names ι n E) → Prop
  | .enter _ .stop => False
  | .enter _ .terminate => False
  | _ => True

instance (s : State (names ι n E) (Control ι n)) :
    (l : Label (names ι n E)) → Decidable (Spared s l)
  | .enter _ .stop => .isFalse id
  | .enter _ .terminate => .isFalse id
  | .enter _ (.add _) => .isTrue trivial
  | .enter _ .start => .isTrue trivial
  | .enter _ (.pause _) => .isTrue trivial
  | .enter _ .resume => .isTrue trivial
  | .step _ _ => .isTrue trivial
  | .spurious _ => .isTrue trivial

namespace PauseWaits

/-- In the runs of a processor that is not stopped. -/
theorem rendezvous_of_reachable [DecidableEq ι] {s : State (names ι n E) (Control ι n)}
    (h : (((processor ι n E).system (newProcessor ι n E)).restrict Spared).Reachable s) :
    ∃ φ, (protocol ι n E).Obeys φ s ∧ Inv φ s.shared := by
  have hobeys : (protocol ι n E).Obeys initial (newProcessor ι n E) := by
    rintro (i | w)
    · exact .inr rfl
    · exact .inr (.inl rfl)
  refine Protocol.invariant_of_effects obeyed hobeys Inv.new ?_ ?_ ?_ ?_ h
  · intro φ s t c o r shared ψ hinv _ hspawn heffect htrans
    exact hinv.turn (hinv.staffed.turn_of_step hinv.fits (sees_of_effect heffect) hspawn htrans)
      heffect
  · intro φ shared t u ψ hinv htrans hfinal
    obtain ⟨i, w, ws, rfl, rfl, hlaunching, rfl⟩ := launching_of_spawn (E := E)
      (hinv.fits.attends t) htrans
    have hborn : (protocol ι n E).born (.worker w) (φ (.worker w)) = .fresh :=
      if_neg (Staffed.ne_never (hinv.fits.attends (.worker w)))
    rw [hborn]
    exact hinv.spawn hlaunching
  · intro φ s t c l ψ hinv _ _
    refine hinv.wake rfl rfl fun c' => ?_
    by_cases hc : c' = c
    · subst hc
      simpa [Shared.sleep] using Finset.erase_subset _ _
    · simp [Shared.sleep, hc]
  · intro φ s t c m p hinv hspared hentry hfinal
    obtain ⟨i, rfl, rfl, -⟩ := entry_eq_some hentry
    have hout : φ (.client i) = .out :=
      hfinal.resolve_left (Staffed.ne_never (hinv.fits.attends (.client i)))
    have henter : (protocol ι n E).enter (.client i) c (φ (.client i)) = begin c := by
      rw [hout]
      rfl
    rw [henter]
    apply hinv.enter hout
    cases c with
    | add entry | pause block | resume => exact .inl rfl
    | start => exact .inr rfl
    | stop | terminate => cases hspared

end PauseWaits

end HPQueue
