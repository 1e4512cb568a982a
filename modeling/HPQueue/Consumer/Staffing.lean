import HPQueue.Consumer.Handshake

/-!
# The workers, through `start`

What holds of the threads, the mutexes and the flags until the processor is stopped: who
sleeps where, what a worker's own flags say of it, and that a worker which is marked as
started has been created, or is about to be.

## Main results

* `Works.tells` — what a worker's flags say of it.
* `Fits.turn`, `Staffed.turn` — what a step preserves.
-/

namespace HPQueue

open Library.Threads Prog

variable {ι : Type} {n : Nat} {E : Type}

namespace PauseWaits

open Phase
open Attendance (written Sees written_flag_of_ne written_flag)

variable [DecidableEq ι] {t : Thread ι n} {φ ψ : Phase n} {o : Op (names ι n E)} {r : o.Result}

/-! ## What an operation does to the memory -/

section Memory

variable {s s' : Shared (names ι n E) (Control ι n)}

theorem memory_of_effect (h : (processor ι n E).Effect s t o r s') :
    s'.memory = written t s.memory o := by
  cases h with
  | @ask q a m hreply => exact (Option.some.inj hreply).symm
  | _ => rfl

theorem sees_of_effect (h : (processor ι n E).Effect s t o r s') : Sees s.memory o r := by
  cases h with
  | load => rfl
  | _ => trivial

theorem eq_of_load {x : Load n} {b : Bool}
    (h : (processor ι n E).Effect s t (.load x) b s') : s' = s := by
  cases h
  rfl

end Memory

theorem Plain.flag {m : Control ι n} {f : Flag n} (h : Plain t φ o) (hf : Watched f) :
    (written t m o).flag f = m.flag f := by
  cases o with
  | store x =>
      cases x with
      | flag g b =>
          have hne : f ≠ g := by
            rintro rfl
            cases f <;> first | exact h hf | cases hf
          exact written_flag_of_ne hne
      | addingCount d | nestedPauseCounter d => rfl
      | newWorker w => cases h
  | _ => rfl

/-! ## What the flags of a worker say -/

/-- Its consumer has thrown. -/
def Fails : Phase n → Prop
  | leaving | parting | announcing | parted | gone => True
  | _ => False

/-- It has said that it is idle. -/
def Idles : Phase n → Prop
  | idling | told | parked | unparked => True
  | _ => False

/-- The flags that a worker sets for itself. -/
def Own : WorkerFlag → Prop
  | .isTerminatedFlag | .isWaitingFlag | .isIdleFlag => True
  | _ => False

structure Tells (flag : Flag n → Bool) (w : Fin n) (φ : Phase n) : Prop where
  fails : flag (.worker w .isTerminatedFlag) = true ↔ Fails φ
  waiting : φ = flagged ∨ φ = Phase.waiting → flag (.worker w .isWaitingFlag) = true
  idle : flag (.worker w .isIdleFlag) = true ↔ Idles φ
  started : φ ≠ unborn → flag (.worker w .isStartedFlag) = true

namespace Tells

variable {flag flag' : Flag n → Bool} {w : Fin n}

theorem alive {φ : Phase n} (h : Tells flag w φ) (hφ : ¬ Fails φ) :
    flag (.worker w .isTerminatedFlag) = false := by
  rw [← Bool.not_eq_true, h.fails]
  exact hφ

theorem new (h : ∀ g, flag (.worker w g) = false) : Tells flag w unborn where
  fails := by simp [h, Fails]
  waiting := by simp
  idle := by simp [h, Idles]
  started := by simp

theorem congr {φ : Phase n} (h : Tells flag w φ)
    (hsame : ∀ g, Own g → flag' (.worker w g) = flag (.worker w g))
    (hstarted : flag (.worker w .isStartedFlag) = true → flag' (.worker w .isStartedFlag) = true) :
    Tells flag' w φ where
  fails := by rw [hsame .isTerminatedFlag trivial]; exact h.fails
  waiting := by rw [hsame .isWaitingFlag trivial]; exact h.waiting
  idle := by rw [hsame .isIdleFlag trivial]; exact h.idle
  started := fun hφ => hstarted (h.started hφ)

end Tells

section Steps

variable {m : Control ι n} {v w : Fin n}

/-- What a worker does. -/
theorem Works.tells (h : Works w φ o r ψ) (hm : Tells m.flag w φ) :
    Tells (written t m o).flag w ψ := by
  obtain ⟨hfails, hwaiting, hidle, hstarted⟩ := hm
  cases h with
  | glance b | glanceAgain b | look b | see b | find b =>
      cases b <;> constructor <;> simp_all [written, Fails, Idles]
  | _ => constructor <;> simp_all [written, Fails, Idles]

/-- A worker sets flags of its own. -/
theorem Works.keeps (h : Works v φ o r ψ) {f : Flag n} (hf : ∀ g, Own g → f ≠ .worker v g) :
    (written t m o).flag f = m.flag f := by
  cases h with
  | flag | unflag | idle | rise | fail | lower | drop => exact written_flag_of_ne (hf _ trivial)
  | _ => rfl

omit [DecidableEq ι] in
/-- It is there before and after. -/
theorem Works.born (h : Works v φ o r ψ) : φ ≠ unborn ∧ ψ ≠ unborn := by
  cases h with
  | glance b | glanceAgain b | look b | see b | find b => cases b <;> simp
  | _ => simp

/-- A client constructs a worker, or leaves its flags but for two. -/
theorem Controls.flags (h : Controls φ o r ψ) (w : Fin n) :
    (∃ ws, φ = making (w :: ws) ∧ ∀ g, (written t m o).flag (.worker w g) = false) ∨
      (∀ g, Own g → (written t m o).flag (.worker w g) = m.flag (.worker w g)) ∧
      (m.flag (.worker w .isStartedFlag) = true →
        (written t m o).flag (.worker w .isStartedFlag) = true) := by
  cases h with
  | construct v ws =>
      by_cases hvw : w = v
      · subst hvw
        exact .inl ⟨ws, rfl, by simp [written, Control.store]⟩
      · exact .inr ⟨by simp [written, Control.store, hvw], by simp [written, Control.store, hvw]⟩
  | launch v ws =>
      refine .inr ⟨fun g hg => written_flag_of_ne (by rintro ⟨⟩; exact hg), ?_⟩
      by_cases hvw : w = v
      · subst hvw
        exact fun _ => written_flag
      · rw [written_flag_of_ne (by simp [hvw])]
        exact id
  | mark v | free v =>
      refine .inr ⟨fun g hg => written_flag_of_ne (by rintro ⟨⟩; exact hg), ?_⟩
      rw [written_flag_of_ne (by simp)]
      exact id
  | run =>
      refine .inr ⟨fun g hg => written_flag_of_ne (by simp), ?_⟩
      rw [written_flag_of_ne (by simp)]
      exact id
  | _ => exact .inr ⟨fun _ _ => rfl, id⟩

/-- And the processor is not stopped. -/
theorem Turn.keeps (h : Turn t φ o r ψ) {f : Flag n} (hf : f = .isTerminatedFlag ∨ f = .cleared) :
    (written t m o).flag f = m.flag f := by
  have hwatched : Watched f := by rcases hf with rfl | rfl <;> trivial
  have hworker : ∀ v g, f ≠ .worker v g := by rcases hf with rfl | rfl <;> simp
  have hrunning : f ≠ .isRunningFlag := by rcases hf with rfl | rfl <;> simp
  cases h with
  | works ht h => exact h.keeps fun g _ => hworker _ g
  | controls ht h =>
      cases h with
      | construct v ws => rcases hf with rfl | rfl <;> simp [written, Control.store]
      | launch v ws | mark v | free v => exact written_flag_of_ne (hworker _ _)
      | run => exact written_flag_of_ne hrunning
      | _ => rfl
  | stays _ h => exact h.flag hwatched

/-- No worker resizes the queue. -/
theorem Turn.resizes (h : Turn t φ o r ψ) (hφ : Attends t φ) :
    (written t m o).resizes (.worker w) = m.resizes (.worker w) := by
  by_cases hresizing : ∃ b, o = .store (.flag .resizing b)
  · obtain ⟨b, rfl⟩ := hresizing
    have ht : (.worker w : Thread ι n) ≠ t := by
      rintro rfl
      cases h with
      | works ht h => cases h
      | controls ht h =>
          cases h
      | stays hrests h =>
          obtain rfl : φ = out := h
          cases hφ
    simp [written, Control.store, ht]
  · cases o with
    | store x =>
        cases x with
        | flag f b =>
            cases f with
            | resizing => exact absurd ⟨b, rfl⟩ hresizing
            | _ => rfl
        | addingCount d | nestedPauseCounter d | newWorker v => rfl
    | _ => rfl

end Steps

/-! ## Mutexes and sleepers -/

/-- Who may sleep where. -/
def Sleeps (t : Thread ι n) (φ : Phase n) : Cond n → Prop
  | .isWorkWaiting w => t = .worker w ∧ φ = waiting
  | .hasPaused w => t = .worker w ∧ φ = parked
  | .isIdle w => φ = awaiting w
  | .isResizingCond | .hasDied _ => True

structure Fits (φ : Thread ι n → Phase n) (s : Shared (names ι n E) (Control ι n)) : Prop where
  attends : ∀ t, Attends t (φ t)
  holds : ∀ t l, Holds t (φ t) l → s.held l = some t
  sleeps : ∀ c, ∀ t ∈ s.asleep c, Sleeps t (φ t) c
  isTerminatedFlag : s.memory.flag .isTerminatedFlag = false
  cleared : s.memory.flag .cleared = false
  resizes : ∀ w, s.memory.resizes (.worker w) = false

omit [DecidableEq ι] in
/-- Who sleeps does nothing but wake up. -/
theorem Turn.resumes {c : Cond n} (h : Turn t φ o r ψ) (hc : Sleeps t φ c) :
    (∃ l, o = .resume c l) ∨ c = .isResizingCond ∨ ∃ w, c = .hasDied w := by
  have hplain : ∀ {χ : Phase n}, χ.rests = true → Turn t χ o r ψ →
      (∃ w, t = .worker w ∧ Works w χ o r ψ) ∨ ∃ i, t = .client i ∧ Controls χ o r ψ := by
    intro χ hχ h
    cases h with
    | works ht h => exact .inl ⟨_, ht, h⟩
    | controls ht h => exact .inr ⟨_, ht, h⟩
    | stays hrests _ =>
        rw [hχ] at hrests
        cases hrests
  cases c with
  | isWorkWaiting w =>
      obtain ⟨rfl, rfl⟩ := hc
      rcases hplain rfl h with ⟨v, hv, h⟩ | ⟨i, hi, h⟩
      · obtain rfl := Thread.worker.inj hv
        cases h
        exact .inl ⟨_, rfl⟩
      · cases hi
  | hasPaused w =>
      obtain ⟨rfl, rfl⟩ := hc
      rcases hplain rfl h with ⟨v, hv, h⟩ | ⟨i, hi, h⟩
      · obtain rfl := Thread.worker.inj hv
        cases h
        exact .inl ⟨_, rfl⟩
      · cases hi
  | isIdle w =>
      obtain rfl := hc
      rcases hplain rfl h with ⟨v, hv, h⟩ | ⟨i, hi, h⟩
      · cases h
      · cases h with
        | back => exact .inl ⟨_, rfl⟩
        | leave hφ => simp at hφ
  | isResizingCond => exact .inr (.inl rfl)
  | hasDied w => exact .inr (.inr ⟨w, rfl⟩)

omit [DecidableEq ι] in
theorem Turn.sleeps {c : Cond n} {l : Lock n} {r : (Op.wait c l : Op (names ι n E)).Result}
    (h : Turn t φ (.wait c l : Op (names ι n E)) r ψ) : Sleeps t ψ c := by
  cases h with
  | works ht h =>
      subst ht
      cases h <;> exact ⟨rfl, rfl⟩
  | controls ht h =>
      cases h
      rfl
  | stays hrests h =>
      obtain ⟨rfl, -⟩ := h
      trivial

namespace Fits

variable {φ : Thread ι n → Phase n} {s s' : Shared (names ι n E) (Control ι n)}
  {u : Thread ι n} {l : Lock n}

omit [DecidableEq ι] in
/-- Two threads do not hold one mutex. -/
theorem alone (h : Fits φ s) (ht : Holds t (φ t) l) (hu : Holds u (φ u) l) : t = u :=
  Option.some.inj ((h.holds t l ht).symm.trans (h.holds u l hu))

omit [DecidableEq ι] in
theorem free (h : Fits φ s) (hfree : s.held l = none) : ¬ Holds u (φ u) l := by
  intro hu
  have hheld := h.holds u l hu
  rw [hfree] at hheld
  cases hheld

/-- What one operation preserves. -/
theorem turn (h : Fits φ s) (hturn : Turn t (φ t) o r ψ)
    (heffect : (processor ι n E).Effect s t o r s') : Fits (Function.update φ t ψ) s' where
  attends := by
    intro u
    by_cases hut : u = t
    · subst hut
      rw [Function.update_self]
      exact hturn.attends (h.attends u)
    · rw [Function.update_of_ne hut]
      exact h.attends u
  holds := by
    intro u l hu
    by_cases hut : u = t
    · subst hut
      rw [Function.update_self] at hu
      exact heffect.held_self ((hturn.holds hu).imp id fun hl => ⟨h.holds u l hl.1, hl.2⟩)
    · rw [Function.update_of_ne hut] at hu
      exact heffect.held_of_ne hut (h.holds u l hu)
  sleeps := by
    intro c u hu
    rcases heffect.asleep hu with hu | ⟨rfl, l, rfl⟩
    · by_cases hut : u = t
      · subst hut
        rw [Function.update_self]
        rcases hturn.resumes (h.sleeps c u hu) with ⟨l, rfl⟩ | rfl | ⟨w, rfl⟩
        · cases heffect with
          | resume hawake _ => exact absurd hu hawake
        · trivial
        · trivial
      · rw [Function.update_of_ne hut]
        exact h.sleeps c u hu
    · rw [Function.update_self]
      exact hturn.sleeps
  isTerminatedFlag := by
    rw [memory_of_effect heffect, hturn.keeps (.inl rfl)]
    exact h.isTerminatedFlag
  cleared := by
    rw [memory_of_effect heffect, hturn.keeps (.inr rfl)]
    exact h.cleared
  resizes := by
    intro w
    rw [memory_of_effect heffect, hturn.resizes (h.attends t)]
    exact h.resizes w

end Fits

/-! ## The workers, through `start` -/

/-- These workers are still to be constructed. -/
structure Awaits (φ : Thread ι n → Phase n) (flag : Flag n → Bool) (ws : List (Fin n)) :
    Prop where
  running : flag .isRunningFlag = true
  nodup : ws.Nodup
  absent : ∀ v ∈ ws, φ (.worker v) = unborn

/-- What a client in this phase knows of the workers. -/
def Opens (φ : Thread ι n → Phase n) (flag : Flag n → Bool) : Phase n → Prop
  | found => flag .isRunningFlag = false
  | opening ws | making ws => Awaits φ flag ws
  | vacant w ws => Awaits φ flag (w :: ws)
  | launching w ws => Awaits φ flag (w :: ws) ∧ flag (.worker w .isStartedFlag) = true
  | _ => True

structure Staffed (φ : Thread ι n → Phase n) (flag : Flag n → Bool) : Prop where
  tells : ∀ w, Tells flag w (φ (.worker w))
  running : flag .isRunningFlag = false → ∀ w, φ (.worker w) = unborn
  /-- A worker is created once it is marked as started. -/
  launched : ∀ w, flag (.worker w .isStartedFlag) = true →
    φ (.worker w) ≠ unborn ∨ ∃ t ws, φ t = launching w ws
  opens : ∀ t, Opens φ flag (φ t)

section Start

variable {φ φ' : Thread ι n → Phase n} {flag flag' : Flag n → Bool} {χ : Phase n}

omit [DecidableEq ι] in
theorem Awaits.congr {ws : List (Fin n)} (h : Awaits φ flag ws)
    (hrunning : flag .isRunningFlag = true → flag' .isRunningFlag = true)
    (hunborn : ∀ v, φ (.worker v) = unborn → φ' (.worker v) = unborn) : Awaits φ' flag' ws where
  running := hrunning h.running
  nodup := h.nodup
  absent := fun v hv => hunborn v (h.absent v hv)

omit [DecidableEq ι] in
theorem Awaits.tail {w : Fin n} {ws : List (Fin n)} (h : Awaits φ flag (w :: ws)) :
    Awaits φ flag ws where
  running := h.running
  nodup := h.nodup.of_cons
  absent := fun v hv => h.absent v (List.mem_cons_of_mem _ hv)

omit [DecidableEq ι] in
theorem Opens.congr (h : Opens φ flag χ) (hrunning : flag' .isRunningFlag = flag .isRunningFlag)
    (hstarted : ∀ w, flag (.worker w .isStartedFlag) = true →
      flag' (.worker w .isStartedFlag) = true)
    (hunborn : ∀ v, φ (.worker v) = unborn → φ' (.worker v) = unborn) : Opens φ' flag' χ := by
  have hawaits : ∀ {ws}, Awaits φ flag ws → Awaits φ' flag' ws :=
    fun h => h.congr (by rw [hrunning]; exact id) hunborn
  cases χ with
  | found => exact hrunning.trans h
  | opening ws | making ws | vacant w ws => exact hawaits h
  | launching w ws => exact ⟨hawaits h.1, hstarted w h.2⟩
  | _ => trivial

omit [DecidableEq ι] in
/-- Whoever starts, pauses or resumes has `startLock`, or acquires it. -/
theorem Controls.starts {ψ : Phase n} {i : ι} (h : Controls χ o r ψ) :
    o = .acquire .startLock ∨ Holds (.client i : Thread ι n) χ .startLock := by
  cases h with
  | hold | call => exact .inl rfl
  | leave hφ => rcases hφ with rfl | rfl | rfl | rfl <;> simp [Holds]
  | _ => simp [Holds]

end Start

variable {φ : Thread ι n → Phase n} {s s' : Shared (names ι n E) (Control ι n)}

/-- So nobody else does so while a thread has `startLock`. -/
theorem Fits.alone_of_controls {i : ι} {ψ : Phase n} {u : Thread ι n} (h : Fits φ s)
    (hcontrols : Controls (φ (.client i)) o r ψ)
    (heffect : (processor ι n E).Effect s (.client i) o r s') (hu : Holds u (φ u) .startLock) :
    u = .client i := by
  rcases hcontrols.starts (i := i) with rfl | hi
  · cases heffect with
    | acquire hfree => exact absurd hu (h.free hfree)
  · exact h.alone hu hi

theorem unborn_of_works {v w : Fin n} {ψ : Phase n} (h : Works w (φ (.worker w)) o r ψ)
    (hv : φ (.worker v) = unborn) : Function.update φ (.worker w) ψ (.worker v) = unborn := by
  have hne : (.worker v : Thread ι n) ≠ .worker w := by
    rintro heq
    obtain rfl := Thread.worker.inj heq
    exact h.born.1 hv
  rw [Function.update_of_ne hne, hv]

omit [DecidableEq ι] in
theorem opens_of_free {flag : Flag n → Bool} {u : Thread ι n} {χ : Phase n} (hχ : Attends u χ)
    (hfree : ¬ Holds u χ .startLock) : Opens φ flag χ := by
  cases u <;> cases χ <;> simp_all [Opens, Holds, Attends]

section Flags

variable {m : Control ι n} {χ ψ : Phase n}

theorem Controls.runs (h : Controls χ o r ψ) :
    (written t m o).flag .isRunningFlag = m.flag .isRunningFlag ∨
      χ = found ∧ (written t m o).flag .isRunningFlag = true := by
  cases h with
  | run => exact .inr ⟨rfl, written_flag⟩
  | construct | launch | mark | free => exact .inl (by simp [written, Control.store])
  | _ => exact .inl rfl

/-- A client marks a worker as started, to create it. -/
theorem Controls.marks (h : Controls χ o r ψ) {w : Fin n}
    (hw : (written t m o).flag (.worker w .isStartedFlag) = true) :
    m.flag (.worker w .isStartedFlag) = true ∧ (∀ v ws, χ ≠ launching v ws) ∨
      ∃ ws, ψ = launching w ws := by
  cases h with
  | launch v ws =>
      by_cases hvw : w = v
      · subst hvw
        exact .inr ⟨ws, rfl⟩
      · rw [written_flag_of_ne (by simp [hvw])] at hw
        exact .inl ⟨hw, by simp⟩
  | construct v ws =>
      by_cases hvw : w = v
      · simp [written, Control.store, hvw] at hw
      · refine .inl ⟨?_, by simp⟩
        simpa [written, Control.store, hvw] using hw
  | mark v | free v | run =>
      rw [written_flag_of_ne (by simp)] at hw
      exact .inl ⟨hw, by simp⟩
  | leave hφ => exact .inl ⟨hw, by rcases hφ with rfl | rfl | rfl | rfl <;> simp⟩
  | _ => exact .inl ⟨hw, by simp⟩

end Flags

namespace Staffed

/-- A client. -/
theorem opens_of_controls (hs : Staffed φ s.memory.flag) {i : ι} {ψ : Phase n}
    (h : Controls (φ (.client i)) o r ψ) (hsees : Sees s.memory o r) :
    Opens φ (written t s.memory o).flag ψ := by
  have hopens := hs.opens (.client i)
  generalize hχ : φ (.client i) = χ at h hopens
  have hsame : (written t s.memory o).flag .isRunningFlag = s.memory.flag .isRunningFlag →
      ∀ {ws}, Awaits φ s.memory.flag ws → Awaits φ (written t s.memory o).flag ws :=
    fun hrunning _ h => h.congr (by rw [hrunning]; exact id) fun _ => id
  cases h with
  | isRunning b =>
      obtain rfl : b = s.memory.flag .isRunningFlag := hsees
      cases hb : s.memory.flag .isRunningFlag with
      | true => exact ⟨hb, List.nodup_nil, by simp⟩
      | false => exact hb
  | run => exact ⟨written_flag, List.nodup_finRange n, fun v _ => hs.running hopens v⟩
  | lockWorkers ws => exact hopens
  | construct w ws => exact hsame (by simp [written, Control.store]) (Awaits.tail hopens)
  | @find w ws hw b =>
      obtain rfl : b = s.memory.flag (.worker w .isStartedFlag) := hsees
      cases hb : s.memory.flag (.worker w .isStartedFlag) with
      | true => exact hopens
      | false =>
          have habsent : φ (.worker w) = unborn := by
            by_contra hborn
            rw [(hs.tells w).started hborn] at hb
            cases hb
          exact ⟨hopens.running, List.nodup_cons.mpr ⟨hw, hopens.nodup⟩,
            List.forall_mem_cons.mpr ⟨habsent, hopens.absent⟩⟩
  | findAgain w ws b =>
      cases b with
      | true => exact Awaits.tail hopens
      | false => exact hopens
  | launch w ws => exact ⟨hsame (written_flag_of_ne (by simp)) hopens, written_flag⟩
  | able w b | isPaused w b | hear w b | isIdle w b | isStarted w b => cases b <;> trivial
  | _ => trivial

/-- What one operation preserves. -/
theorem turn (hs : Staffed φ s.memory.flag) (hfits : Fits φ s) {ψ : Phase n}
    (h : Turn t (φ t) o r ψ) (heffect : (processor ι n E).Effect s t o r s') :
    Staffed (Function.update φ t ψ) s'.memory.flag := by
  have hsees := sees_of_effect heffect
  have hattends := (hfits.turn h heffect).attends
  rw [memory_of_effect heffect]
  generalize hm : s.memory = m at hs hsees
  generalize hturn : φ t = χ at h
  cases h with
  | @works w ψ ht h =>
      subst ht
      rw [← hturn] at h
      have hkeeps : ∀ v g, (v ≠ w ∨ ¬ Own g) →
          (written (.worker w) m o).flag (.worker v g) = m.flag (.worker v g) := by
        intro v g hvw
        apply h.keeps
        rintro g' hg heq
        obtain ⟨rfl, rfl⟩ : v = w ∧ g = g' := by simpa using heq
        exact hvw.elim (fun hne => hne rfl) fun hown => hown hg
      have hrunning : (written (.worker w) m o).flag .isRunningFlag = m.flag .isRunningFlag :=
        h.keeps (by simp)
      have hstarted : ∀ v, (written (.worker w) m o).flag (.worker v .isStartedFlag) =
          m.flag (.worker v .isStartedFlag) := fun v => hkeeps v _ (.inr not_false)
      constructor
      · intro v
        by_cases hvw : v = w
        · subst hvw
          rw [Function.update_self]
          exact h.tells (hs.tells v)
        · rw [Function.update_of_ne (by simpa using hvw)]
          exact (hs.tells v).congr (fun g _ => hkeeps v g (.inl hvw)) (by rw [hstarted]; exact id)
      · intro hnot v
        rw [hrunning] at hnot
        exact absurd (hs.running hnot w) h.born.1
      · intro v hv
        rw [hstarted] at hv
        rcases hs.launched v hv with hborn | ⟨u, ws, hu⟩
        · left
          by_cases hvw : v = w
          · subst hvw
            rw [Function.update_self]
            exact h.born.2
          · rwa [Function.update_of_ne (by simpa using hvw)]
        · right
          refine ⟨u, ws, ?_⟩
          rw [Function.update_of_ne ?_, hu]
          rintro rfl
          have hattends := hfits.attends (.worker w)
          rw [hu] at hattends
          exact hattends
      · intro u
        by_cases huw : u = .worker w
        · subst huw
          exact opens_of_free (hattends _) (by rw [Function.update_self]; cases ψ <;> simp [Holds])
        · rw [Function.update_of_ne huw]
          exact (hs.opens u).congr hrunning (fun v => by rw [hstarted]; exact id)
            fun v hv => unborn_of_works h hv
  | @controls i ψ ht h =>
      subst ht
      rw [← hturn] at h
      have hworker : ∀ v, Function.update φ (.client i) ψ (.worker v) = φ (.worker v) :=
        fun v => Function.update_of_ne (by simp) _ _
      constructor
      · intro v
        rw [hworker]
        rcases h.flags (t := .client i) (m := m) v with ⟨ws, hφ, hnew⟩ | ⟨hown, hstarted⟩
        · have hopens := hs.opens (.client i)
          rw [hφ] at hopens
          rw [hopens.absent v (List.mem_cons_self ..)]
          exact .new hnew
        · exact (hs.tells v).congr hown hstarted
      · intro hnot v
        rw [hworker]
        rcases h.runs (t := .client i) (m := m) with hrunning | ⟨-, hrunning⟩
        · exact hs.running (hrunning.symm.trans hnot) v
        · rw [hrunning] at hnot
          cases hnot
      · intro v hv
        rw [hworker]
        rcases h.marks hv with ⟨hstarted, hne⟩ | ⟨ws, rfl⟩
        · refine (hs.launched v hstarted).imp id ?_
          rintro ⟨u, ws, hu⟩
          refine ⟨u, ws, ?_⟩
          rw [Function.update_of_ne ?_, hu]
          rintro rfl
          exact hne v ws hu
        · exact .inr ⟨.client i, ws, Function.update_self ..⟩
      · intro u
        by_cases hui : u = .client i
        · subst hui
          rw [Function.update_self]
          have hopens := opens_of_controls (t := .client i) (s := s) (by rwa [hm]) h (by rwa [hm])
          rw [hm] at hopens
          exact hopens.congr rfl (fun _ => id) fun v hv => (hworker v).trans hv
        · rw [Function.update_of_ne hui]
          exact opens_of_free (hfits.attends u) fun hu =>
            hui (hfits.alone_of_controls h heffect hu)
  | stays hrests h =>
      have hkeeps : ∀ f, Watched f → (written t m o).flag f = m.flag f := fun f hf => h.flag hf
      rw [← hturn, Function.update_eq_self]
      have hstarted : ∀ v, m.flag (.worker v .isStartedFlag) = true →
          (written t m o).flag (.worker v .isStartedFlag) = true := by
        intro v
        rw [hkeeps (.worker v .isStartedFlag) trivial]
        exact id
      refine ⟨fun v => (hs.tells v).congr ?_ (hstarted v), ?_, ?_, fun u => ?_⟩
      · intro g hg
        cases g <;> first | exact hkeeps _ trivial | cases hg
      · rw [hkeeps .isRunningFlag trivial]
        exact hs.running
      · intro v
        rw [hkeeps (.worker v .isStartedFlag) trivial]
        exact hs.launched v
      · exact (hs.opens u).congr (hkeeps _ trivial) hstarted fun _ => id

omit [DecidableEq ι] in
theorem ne_never {t : Thread ι n} {χ : Phase n} (h : Attends t χ) : χ ≠ never := by
  rintro rfl
  cases t <;> cases h

/-- Nobody finds itself, or the processor, terminated. -/
theorem alive (hs : Staffed φ s.memory.flag) (hfits : Fits φ s) {ψ : Phase n}
    (hsees : Sees s.memory o r) (h : step t (φ t) o r = some ψ) : ψ ≠ never := by
  rintro rfl
  obtain ⟨x, hdooms, hx⟩ := dooms_of_step (ne_never (hfits.attends t)) hsees h
  cases hdooms with
  | isTerminatedFlag => cases hx.symm.trans hfits.isTerminatedFlag
  | cleared => cases hx.symm.trans hfits.cleared
  | @own w ht hφ =>
      subst ht
      have hfails := (hs.tells w).fails.mp hx
      rcases hφ with hφ | hφ | hφ | hφ <;> rw [hφ] at hfails <;> exact hfails
  | @vacant w ws hφ =>
      have hopens := hs.opens t
      rw [hφ] at hopens
      have hfails := (hs.tells w).fails.mp hx
      rw [hopens.absent w (List.mem_cons_self ..)] at hfails
      exact hfails

/-- What a step does, then. -/
theorem turn_of_step (hs : Staffed φ s.memory.flag) (hfits : Fits φ s) {ψ : Phase n}
    (hsees : Sees s.memory o r) (hspawn : ∀ u, o ≠ .spawn u) (h : step t (φ t) o r = some ψ) :
    Turn t (φ t) o r ψ :=
  PauseWaits.turn_of_step (hfits.attends t) (hs.alive hfits hsees h) hspawn h

end Staffed

end PauseWaits

end HPQueue
