import HPQueue.Consumer.Rendezvous
import HPQueue.Consumer.ResizePause

/-!
# What a step can do to the pause that a resize needs

One constructor for each step that leaves the place or touches what matters: the mutex,
the processor's flag and its counter, and the flags of the workers that are told.

## Main results

* `turn_or_dooms` — these are the steps there are.
* `Settled.turn` — a worker that is idle stays away from the queue while it is paused.
* `Turn.isPausedFlag`, `Turn.counter`, `Turn.free`, `Turn.spares` — what they do to the memory.
-/

namespace HPQueue

open Library.Threads Prog

variable {ι : Type} {n : Nat} {E : Type}

namespace ResizePause

open Place
open Attendance (written Sees written_flag_of_ne written_flag)
open PauseWaits (Staffed Fits memory_of_effect sees_of_effect)

/-! ## What a step can do -/

/-- What may be stored where nothing else is. -/
def Quiet (p : Place n) : Store n → Prop
  | .flag .isPausedFlag _ | .flag (.worker _ .isTerminatedFlag) _ | .nestedPauseCounter _ => False
  | .flag (.worker _ .isPausedFlag) b => p.holds = true ∧ (b = false → p = lifting)
  | _ => True

/-- What leaves the place as it is. -/
def Plain (p : Place n) : Op (names ι n E) → Prop
  | .acquire l | .release l => l ≠ .startLock
  | .wait c l | .resume c l => l ≠ .startLock ∧ ∀ w, c ≠ .isIdle w
  | .broadcast c => ∀ w, c ≠ .isIdle w
  | .store x => Quiet p x
  | .call _ => False
  | _ => True

inductive Moves : Place n → (o : Op (names ι n E)) → o.Result → Place n → Prop
  | hold : Moves out (.acquire .startLock) () held
  | holdDue : Moves due (.acquire .startLock) () dueHeld
  | unhold : Moves held (.release .startLock) () out
  | isPaused (b : Bool) :
      Moves held (.load (.flag .isPausedFlag)) b (if b then nested else unpaused)
  | wasPaused (b : Bool) :
      Moves dueHeld (.load (.flag .isPausedFlag)) b (if b then lowering else never)
  | isRunning (b : Bool) :
      Moves unpaused (.load (.flag .isRunningFlag)) b (if b then running else settling [])
  | gather : Moves running (.load (.flag .cleared)) false (marking (List.finRange n))
  | gatherAgain : Moves (marking []) (.load (.flag .cleared)) false (settling (List.finRange n))
  | marked (w : Fin n) (ws : List (Fin n)) :
      Moves (marking (w :: ws)) (.load (.flag (.worker w .isPausedFlag))) true (marking ws)
  | mark (w : Fin n) (ws : List (Fin n)) :
      Moves (marking (w :: ws)) (.store (.flag (.worker w .isPausedFlag) true)) () (marking ws)
  | idle (w : Fin n) (ws : List (Fin n)) :
      Moves (settling (w :: ws)) (.load (.flag (.worker w .isIdleFlag))) true (settling ws)
  | unstarted (w : Fin n) (ws : List (Fin n)) :
      Moves (settling (w :: ws)) (.load (.flag (.worker w .isStartedFlag))) false (settling ws)
  | wait (w v : Fin n) (ws : List (Fin n)) :
      Moves (settling (w :: ws)) (.wait (.isIdle w) (.hasPausedLock v)) () (sleeping w ws)
  | wake (w v : Fin n) (ws : List (Fin n)) :
      Moves (sleeping w ws) (.resume (.isIdle w) (.hasPausedLock v)) () (settling ws)
  | settled : Moves (settling []) (.store (.flag .isPausedFlag true)) () nested
  | last (b : Bool) : Moves lowered (.load .nestedPauseCounter) b (if b then held else lifting)
  | lift : Moves lifting (.store (.flag .isPausedFlag false)) () held
  | stays {p : Place n} {o : Op (names ι n E)} {r : o.Result} (h : Plain p o) : Moves p o r p

/-- What a step is about. -/
inductive Turn (φ : Phase n) : (o : Op (names ι n E)) → o.Result → Phase n → Prop
  | moves {o : Op (names ι n E)} {r : o.Result} {p : Place n} (h : Moves φ.place o r p) :
      Turn φ o r { φ with place := p }
  | count (hφ : φ.place = nested) :
      Turn φ (.store (.nestedPauseCounter 1)) () { φ with place := held, owed := φ.owed + 1 }
  | uncount (hφ : φ.place = lowering) :
      Turn φ (.store (.nestedPauseCounter (-1))) ()
        { φ with place := lowered, owed := φ.owed - 1 }
  | resize (a : Int) (hφ : φ.place = out) (howed : φ.own < φ.owed) :
      Turn φ (.ask .resize) a { φ with place := due }

/-- What is not to be found: that the processor was terminated, that a consumer has thrown. -/
inductive Dooms : (o : Op (names ι n E)) → o.Result → Prop
  | isTerminatedFlag : Dooms (.load (.flag .isTerminatedFlag)) true
  | cleared : Dooms (.load (.flag .cleared)) true
  | failed (w : Fin n) : Dooms (.load (.flag (.worker w .isTerminatedFlag))) true
  | thrown (w : Fin n) {a : Int} (ha : a ≠ 0) : Dooms (.ask (.handle w)) a

variable {p q : Place n}

theorem marks_cases (p : Place n) (w : Fin n) :
    p.marks w = p ∨ ∃ ws, p = marking (w :: ws) ∧ p.marks w = marking ws := by
  unfold Place.marks
  split
  · rename_i v ws
    by_cases hvw : v = w
    · subst hvw
      exact .inr ⟨ws, rfl, if_pos rfl⟩
    · exact .inl (if_neg hvw)
  · exact .inl rfl

theorem settles_cases (p : Place n) (w : Fin n) :
    p.settles w = p ∨ ∃ ws, p = settling (w :: ws) ∧ p.settles w = settling ws := by
  unfold Place.settles
  split
  · rename_i v ws
    by_cases hvw : v = w
    · subst hvw
      exact .inr ⟨ws, rfl, if_pos rfl⟩
    · exact .inl (if_neg hvw)
  · exact .inl rfl

theorem moves_loads {x : Load n} {b : Bool} (h : loads p b x = q) :
    Moves p (.load x : Op (names ι n E)) b q ∨ Dooms (.load x : Op (names ι n E)) b := by
  have hstays : p = q → Moves p (.load x : Op (names ι n E)) b q ∨
      Dooms (.load x : Op (names ι n E)) b := by
    rintro rfl
    exact .inl (.stays trivial)
  subst h
  cases x with
  | addingCount => exact hstays rfl
  | nestedPauseCounter =>
      cases p with
      | lowered => exact .inl (.last b)
      | _ => exact hstays rfl
  | flag f =>
      cases f with
      | isTerminatedFlag =>
          cases b with
          | true => exact .inr .isTerminatedFlag
          | false => exact hstays rfl
      | cleared =>
          cases b with
          | true => exact .inr .cleared
          | false =>
              cases p with
              | running => exact .inl .gather
              | marking ws =>
                  cases ws with
                  | nil => exact .inl .gatherAgain
                  | cons w ws => exact hstays rfl
              | _ => exact hstays rfl
      | isPausedFlag =>
          cases p with
          | held => exact .inl (.isPaused b)
          | dueHeld => exact .inl (.wasPaused b)
          | _ => exact hstays rfl
      | isRunningFlag =>
          cases p with
          | unpaused => exact .inl (.isRunning b)
          | _ => exact hstays rfl
      | resizing | processingWorker w => exact hstays rfl
      | worker w g =>
          cases g with
          | isTerminatedFlag =>
              cases b with
              | true => exact .inr (.failed w)
              | false => exact hstays rfl
          | isPausedFlag =>
              cases b with
              | false => exact hstays rfl
              | true =>
                  rcases marks_cases p w with hsame | ⟨ws, rfl, hmarks⟩
                  · exact hstays hsame.symm
                  · rw [show loads (marking (w :: ws)) true (.flag (.worker w .isPausedFlag)) =
                      marking ws from hmarks]
                    exact .inl (.marked w ws)
          | isIdleFlag =>
              cases b with
              | false => exact hstays rfl
              | true =>
                  rcases settles_cases p w with hsame | ⟨ws, rfl, hsettles⟩
                  · exact hstays hsame.symm
                  · rw [show loads (settling (w :: ws)) true (.flag (.worker w .isIdleFlag)) =
                      settling ws from hsettles]
                    exact .inl (.idle w ws)
          | isStartedFlag =>
              cases b with
              | true => exact hstays rfl
              | false =>
                  rcases settles_cases p w with hsame | ⟨ws, rfl, hsettles⟩
                  · exact hstays hsame.symm
                  · rw [show loads (settling (w :: ws)) false (.flag (.worker w .isStartedFlag)) =
                      settling ws from hsettles]
                    exact .inl (.unstarted w ws)
          | isDeadFlag | isWaitingFlag | haveWorkJoiners => exact hstays rfl

theorem moves_stores {x : Store n} (h : stores p x = some q) :
    Moves p (.store x : Op (names ι n E)) () q := by
  have hstays : Quiet p x → p = q → Moves p (.store x : Op (names ι n E)) () q := by
    rintro hquiet rfl
    exact .stays hquiet
  cases x with
  | addingCount d => exact hstays trivial (Option.some.inj h)
  | nestedPauseCounter d => cases h
  | newWorker w =>
      obtain ⟨rfl, rfl⟩ := PauseWaits.of_guard h
      exact hstays trivial rfl
  | flag f b =>
      cases f with
      | isPausedFlag =>
          simp only [stores] at h
          split at h <;> cases h
          · exact .settled
          · exact .lift
      | isRunningFlag =>
          obtain ⟨rfl, rfl⟩ := PauseWaits.of_guard h
          exact hstays trivial rfl
      | isTerminatedFlag | cleared => cases h
      | resizing | processingWorker w => exact hstays trivial (Option.some.inj h)
      | worker w g =>
          cases g with
          | isTerminatedFlag => cases h
          | isStartedFlag =>
              obtain ⟨rfl, rfl⟩ := PauseWaits.of_guard h
              exact hstays trivial rfl
          | isPausedFlag =>
              simp only [stores] at h
              split at h <;> cases h
              · rename_i ws
                cases ws with
                | nil => exact hstays ⟨rfl, (by simp)⟩ rfl
                | cons v ws =>
                    by_cases hvw : v = w
                    · subst hvw
                      simpa [marks] using .mark v ws
                    · exact hstays ⟨rfl, (by simp)⟩ (by simp [marks, hvw])
              · exact hstays ⟨rfl, (by simp)⟩ rfl
              · exact hstays ⟨rfl, fun _ => rfl⟩ rfl
          | isIdleFlag | isDeadFlag | isWaitingFlag | haveWorkJoiners =>
              exact hstays trivial (Option.some.inj h)

theorem moves_waits {c : Cond n} {l : Lock n} (h : waits p c l = some q) :
    Moves p (.wait c l : Op (names ι n E)) () q := by
  unfold waits at h
  split at h
  · rename_i w v
    split at h
    · obtain ⟨rfl, rfl⟩ := PauseWaits.of_guard h
      exact .wait _ _ _
    · cases h
  · cases h
  · cases h
  · rename_i hidle hstart hpaused
    obtain ⟨rfl, rfl⟩ := PauseWaits.of_guard h
    exact .stays ⟨hstart, hidle⟩

theorem moves_resumes {c : Cond n} {l : Lock n} (h : resumes p c l = some q) :
    Moves p (.resume c l : Op (names ι n E)) () q := by
  unfold resumes at h
  split at h
  · rename_i w v
    split at h
    · obtain ⟨rfl, rfl⟩ := PauseWaits.of_guard h
      exact .wake _ _ _
    · cases h
  · cases h
  · cases h
  · rename_i hidle hstart hpaused
    obtain ⟨rfl, rfl⟩ := PauseWaits.of_guard h
    exact .stays ⟨hstart, hidle⟩

/-- A step that neither counts pauses nor resizes the queue. -/
theorem moves_or_dooms {o : Op (names ι n E)} {r : o.Result} (h : moves p o r = some q) :
    Moves p o r q ∨ Dooms o r := by
  have hstays : Plain p o → p = q → Moves p o r q ∨ Dooms o r := by
    rintro hplain rfl
    exact .inl (.stays hplain)
  cases o with
  | acquire l =>
      cases l with
      | startLock =>
          cases p <;> cases h
          · exact .inl .hold
          · exact .inl .holdDue
      | workerLock | resizeQueuesLock | workerStartLock w | isWorkLock w | hasDiedLock w
      | hasPausedLock w => exact hstays (by simp [Plain]) (Option.some.inj h)
  | release l =>
      cases l with
      | startLock =>
          cases p <;> cases h
          exact .inl .unhold
      | workerLock | resizeQueuesLock | workerStartLock w | isWorkLock w | hasDiedLock w
      | hasPausedLock w => exact hstays (by simp [Plain]) (Option.some.inj h)
  | wait c l => exact .inl (moves_waits h)
  | resume c l => exact .inl (moves_resumes h)
  | signal c => exact hstays trivial (Option.some.inj h)
  | broadcast c =>
      cases c with
      | isIdle w => cases h
      | isResizingCond | isWorkWaiting w | hasDied w | hasPaused w =>
          exact hstays (by simp [Plain]) (Option.some.inj h)
  | load x => exact moves_loads (Option.some.inj h)
  | store x => exact .inl (moves_stores h)
  | ask qu =>
      cases qu with
      | resize => cases h
      | handle w =>
          obtain ⟨rfl, hr⟩ := PauseWaits.of_guard h
          by_cases hzero : r = 0
          · exact hstays trivial (by simpa [hzero] using hr)
          · exact .inr (.thrown w hzero)
      | add entry | isMaxSize | started w | init w | finalize w | remove w | isWork w =>
          exact hstays trivial (Option.some.inj h)
  | call p => cases h
  | spawn u =>
      obtain ⟨rfl, rfl⟩ := PauseWaits.of_guard h
      exact hstays trivial rfl

theorem turn_or_dooms {φ ψ : Phase n} {o : Op (names ι n E)} {r : o.Result} (hφ : ¬ Gone φ)
    (h : step φ o r = some ψ) : Turn φ o r ψ ∨ Dooms o r := by
  unfold step at h
  rw [if_neg hφ] at h
  split at h
  · rename_i d
    unfold Phase.counts at h
    split at h
    · rename_i hplace
      obtain ⟨rfl, rfl⟩ := PauseWaits.of_guard h
      exact .inl (.count hplace)
    · rename_i hplace
      obtain ⟨rfl, rfl⟩ := PauseWaits.of_guard h
      exact .inl (.uncount hplace)
    · cases h
  · obtain ⟨⟨hplace, howed⟩, rfl⟩ := PauseWaits.of_guard h
    exact .inl (.resize _ hplace howed)
  · obtain ⟨p, hp, rfl⟩ := Option.map_eq_some_iff.mp h
    exact (moves_or_dooms hp).imp .moves id

/-! ## Workers that are paused -/

/-- The worker looks whether it is paused, or waits to be resumed. -/
def Away : PauseWaits.Phase n → Prop
  | .calm | .entering | .seen | .idling | .told | .parked | .unparked => True
  | _ => False

section Workers

variable (φ : Thread ι n → PauseWaits.Phase n) (flag : Flag n → Bool) (w : Fin n)

/-- The worker, if it is there, is marked as paused. -/
def Told : Prop := φ (.worker w) = .unborn ∨ flag (.worker w .isPausedFlag) = true

/-- And it has come to know. -/
def Settled : Prop :=
  φ (.worker w) = .unborn ∨ flag (.worker w .isPausedFlag) = true ∧ Away (φ (.worker w))

end Workers

variable {φ : Thread ι n → PauseWaits.Phase n} {w : Fin n}

theorem Settled.told {flag : Flag n → Bool} (h : Settled φ flag w) : Told φ flag w :=
  h.imp id And.left

/-- A worker that is not started is not there. -/
theorem settled_of_unstarted {flag : Flag n → Bool} (hs : Staffed φ flag)
    (hstarted : flag (.worker w .isStartedFlag) = false) : Settled φ flag w := by
  left
  by_contra hborn
  rw [(hs.tells w).started hborn] at hstarted
  cases hstarted

/-- And one that is idle is away. -/
theorem Told.settled {flag : Flag n → Bool} (h : Told φ flag w) (hs : Staffed φ flag)
    (hidle : flag (.worker w .isIdleFlag) = true) : Settled φ flag w := by
  refine h.imp id fun hpaused => ⟨hpaused, ?_⟩
  have hidles := (hs.tells w).idle.mp hidle
  generalize φ (.worker w) = χ at hidles ⊢
  cases χ <;> trivial

variable [DecidableEq ι] {t : Thread ι n} {o : Op (names ι n E)} {r : o.Result}
  {χ χ' : PauseWaits.Phase n} {s s' : Shared (names ι n E) (Control ι n)}

/-- The calls that workers make. -/
def Works : Query n E → Prop
  | .init _ | .remove _ | .handle _ | .isWork _ | .finalize _ => True
  | _ => False

/-- A worker that is away makes none. -/
theorem not_works_of_settled {flag : Flag n → Bool} {q : Query n E} {a : Int}
    (hsettled : ∀ w, Settled φ flag w) (hφ : φ t ≠ .never)
    (h : PauseWaits.step t (φ t) (.ask q : Op (names ι n E)) a = some χ) : ¬ Works q := by
  intro hq
  unfold PauseWaits.step at h
  rw [if_neg hφ] at h
  obtain ⟨hrests, h⟩ := Option.ite_none_left_eq_some.mp h
  have haway : ∀ w, t = .worker w → Away (φ t) := by
    rintro w rfl
    rcases hsettled w with hunborn | ⟨-, haway⟩
    · rw [hunborn] at hrests
      exact absurd rfl hrests
    · exact haway
  cases q with
  | init w | remove w | handle w | isWork w | finalize w =>
      obtain ⟨⟨ht, hplace⟩, -⟩ := PauseWaits.of_guard h
      have haway := haway w ht
      rw [hplace] at haway
      exact haway
  | add entry | isMaxSize | resize | started w => cases hq

omit [DecidableEq ι] in
theorem away_of_works {m : Control ι n} (h : PauseWaits.Works w χ o r χ') (hsees : Sees m o r)
    (hpaused : m.flag (.worker w .isPausedFlag) = true) (hχ : Away χ) : Away χ' := by
  cases h with
  | glance b | see b =>
      obtain rfl : b = true := hsees.trans hpaused
      trivial
  | enter | idle | tell | park | unpark | rise | leave => trivial
  | _ => cases hχ

theorem unborn_of_turn (h : PauseWaits.Turn t (φ t) o r χ) (hw : φ (.worker w) = .unborn) :
    Function.update φ t χ (.worker w) = .unborn := by
  generalize hχ : φ t = χ₀ at h
  cases h with
  | works ht h =>
      subst ht
      exact PauseWaits.unborn_of_works (hχ ▸ h) hw
  | controls ht h =>
      subst ht
      rwa [Function.update_of_ne (by simp)]
  | stays => rwa [← hχ, Function.update_eq_self]

theorem Told.turn (hw : Told φ s.memory.flag w) (hs : Staffed φ s.memory.flag)
    (h : PauseWaits.Turn t (φ t) o r χ) (heffect : (processor ι n E).Effect s t o r s')
    (hfree : o ≠ .store (.flag (.worker w .isPausedFlag) false)) :
    Told (Function.update φ t χ) s'.memory.flag w := by
  rcases hw with hw | hw
  · exact .inl (unborn_of_turn h hw)
  · rw [memory_of_effect heffect]
    cases h.paused (m := s.memory) w with
    | same hb => exact .inr (hb.trans hw)
    | mark hφ hψ hb => exact .inr hb
    | free hφ hψ hb =>
        rw [hφ] at h
        cases h with
        | works ht h => cases h
        | controls ht h =>
            cases h with
            | free => exact absurd rfl hfree
            | able | leave => cases hb.symm.trans hw
        | stays => cases hψ
    | construct hφ hb =>
        have hopens := hs.opens t
        rw [hφ] at hopens
        exact .inl (unborn_of_turn h (hopens.absent w (List.mem_cons_self ..)))

/-- A worker that is paused stays where it is while it is marked so. -/
theorem Settled.turn (hw : Settled φ s.memory.flag w) (hs : Staffed φ s.memory.flag)
    (h : PauseWaits.Turn t (φ t) o r χ) (heffect : (processor ι n E).Effect s t o r s')
    (hfree : o ≠ .store (.flag (.worker w .isPausedFlag) false)) :
    Settled (Function.update φ t χ) s'.memory.flag w := by
  rcases hw with hunborn | ⟨hpaused, haway⟩
  · exact .inl (unborn_of_turn h hunborn)
  · refine (Told.turn (.inr hpaused) hs h heffect hfree).imp id fun hpaused' => ⟨hpaused', ?_⟩
    by_cases ht : t = .worker w
    · subst ht
      rw [Function.update_self]
      generalize φ (.worker w) = χ₀ at h haway
      cases h with
      | works ht h =>
          obtain rfl := Thread.worker.inj ht
          exact away_of_works h (sees_of_effect heffect) hpaused haway
      | controls ht h => cases ht
      | stays => exact haway
    · rwa [Function.update_of_ne (Ne.symm ht)]

/-- Whoever waits for a worker to be idle is woken by the worker. -/
theorem settled_of_awake {u : Thread ι n} (htold : Told φ s.memory.flag w)
    (hs : Staffed φ s.memory.flag) (h : PauseWaits.Turn t (φ t) o r χ)
    (heffect : (processor ι n E).Effect s t o r s')
    (hfailed : s.memory.flag (.worker w .isTerminatedFlag) = false)
    (hbroadcast : o ≠ .broadcast (.isIdle w)) (hasleep : u ∈ s.asleep (.isIdle w))
    (hawake : u ∉ s'.asleep (.isIdle w)) :
    Settled (Function.update φ t χ) s'.memory.flag w := by
  have hsignal : o = .signal (.isIdle w) := by
    by_contra hsignal
    exact hawake (heffect.asleep_of_ne hasleep hsignal hbroadcast)
  subst hsignal
  have htold' := htold.turn hs h heffect (by simp)
  generalize hχ : φ t = χ₀ at h
  cases h with
  | works ht h =>
      subst ht
      cases h with
      | tell =>
          refine htold'.imp id fun hpaused => ⟨hpaused, ?_⟩
          rw [Function.update_self]
          trivial
      | announce =>
          have hfails := (hs.tells w).fails.mpr (by rw [hχ]; trivial)
          rw [hfailed] at hfails
          cases hfails
  | controls ht h => cases h
  | stays hrests h => exact absurd rfl (h.2 w)

/-! ## What a step does to the memory -/

section Memory

variable {m : Control ι n} {ψ ψ' : Phase n}

theorem Plain.isPausedFlag (h : Plain p o) :
    (written t m o).flag .isPausedFlag = m.flag .isPausedFlag := by
  cases o with
  | store x =>
      cases x with
      | flag f b =>
          refine written_flag_of_ne ?_
          rintro rfl
          exact h
      | addingCount | nestedPauseCounter | newWorker => rfl
  | _ => rfl

theorem Plain.counter (h : Plain p o) :
    (written t m o).nestedPauseCounter = m.nestedPauseCounter := by
  cases o with
  | store x =>
      cases x with
      | nestedPauseCounter d => cases h
      | flag f b => cases f <;> rfl
      | addingCount | newWorker => rfl
  | _ => rfl

/-- How `isPausedFlag` of the processor changes. -/
theorem Turn.isPausedFlag (h : Turn ψ o r ψ') :
    (written t m o).flag .isPausedFlag = m.flag .isPausedFlag ∧
        (ψ.place = lifting → ψ'.place = lifting) ∨
      ψ.place = settling [] ∧ (written t m o).flag .isPausedFlag = true ∨
      ψ.place = lifting ∧ (written t m o).flag .isPausedFlag = false := by
  cases h with
  | moves h =>
      generalize ψ.place = p at h
      cases h with
      | settled => exact .inr (.inl ⟨rfl, written_flag⟩)
      | lift => exact .inr (.inr ⟨rfl, written_flag⟩)
      | mark => exact .inl ⟨written_flag_of_ne (by simp), (by simp)⟩
      | stays h => exact .inl ⟨h.isPausedFlag, id⟩
      | _ => exact .inl ⟨rfl, (by simp)⟩
  | count hφ | uncount hφ | resize _ hφ => exact .inl ⟨rfl, by simp [hφ]⟩

/-- How the counter changes. -/
theorem Turn.counter (h : Turn ψ o r ψ') :
    (written t m o).nestedPauseCounter = m.nestedPauseCounter ∧ ψ'.owed = ψ.owed ∨
      (ψ.place = nested ∧ o = .store (.nestedPauseCounter 1)) ∧
        (written t m o).nestedPauseCounter = m.nestedPauseCounter + 1 ∧ ψ'.owed = ψ.owed + 1 ∨
      ψ.place = lowering ∧
        (written t m o).nestedPauseCounter = m.nestedPauseCounter - 1 ∧ ψ'.owed = ψ.owed - 1 := by
  cases h with
  | moves h =>
      refine .inl ⟨?_, rfl⟩
      generalize ψ.place = p at h
      cases h with
      | stays h => exact h.counter
      | _ => rfl
  | count hφ => exact .inr (.inl ⟨⟨hφ, rfl⟩, rfl, rfl⟩)
  | uncount hφ => exact .inr (.inr ⟨hφ, (UInt32.sub_eq_add_neg _ 1).symm, rfl⟩)
  | resize => exact .inl ⟨rfl, rfl⟩

omit [DecidableEq ι] in
/-- Workers are resumed by one who lifts the pause. -/
theorem Turn.free (h : Turn ψ o r ψ') (hψ : ψ.place ≠ lifting) (w : Fin n) :
    o ≠ .store (.flag (.worker w .isPausedFlag) false) := by
  rintro rfl
  cases h with
  | moves h =>
      generalize ψ.place = p at h hψ
      cases h with
      | stays h => exact hψ (h.2 rfl)

/-- No consumer throws. -/
theorem Turn.failed (h : Turn ψ o r ψ') (hm : m.flag (.worker w .isTerminatedFlag) = false) :
    (written t m o).flag (.worker w .isTerminatedFlag) = false := by
  cases o with
  | store x =>
      cases x with
      | flag f b =>
          rw [written_flag_of_ne, hm]
          rintro rfl
          cases h with
          | moves h =>
              generalize ψ.place = p at h
              cases h with
              | stays h => exact h
      | addingCount | nestedPauseCounter => exact hm
      | newWorker v =>
          by_cases hwv : w = v
          · simp [written, Control.store, hwv]
          · simpa [written, Control.store, hwv] using hm
  | _ => exact hm

/-- Nothing of this is done without `startLock`. -/
theorem Turn.spares (h : Turn ψ o r ψ') (hψ : ψ.place.holds = false) :
    (∀ w, o ≠ .store (.flag (.worker w .isPausedFlag) false)) ∧
      (written t m o).flag .isPausedFlag = m.flag .isPausedFlag ∧
      (written t m o).nestedPauseCounter = m.nestedPauseCounter := by
  refine ⟨h.free ?_, ?_, ?_⟩
  · rintro hlifting
    rw [hlifting] at hψ
    cases hψ
  · rcases h.isPausedFlag (t := t) (m := m) with hsame | ⟨hplace, -⟩ | ⟨hplace, -⟩
    · exact hsame.1
    · rw [hplace] at hψ
      cases hψ
    · rw [hplace] at hψ
      cases hψ
  · rcases h.counter (t := t) (m := m) with hsame | ⟨⟨hplace, -⟩, -⟩ | ⟨hplace, -⟩
    · exact hsame.1
    · rw [hplace] at hψ
      cases hψ
    · rw [hplace] at hψ
      cases hψ

end Memory

end ResizePause

end HPQueue
