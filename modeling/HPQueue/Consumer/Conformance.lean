import HPQueue.Library.Protocol
import HPQueue.Consumer.QueueProducerInterface
import Mathlib.Data.Fintype.Basic

/-!
# Rules for the programs of a processor

What every protocol of the processor's threads uses: the rules for a loop over the
vector `workers`, and for the calls of clients.
-/

namespace HPQueue

open Library.Threads

variable {ι : Type} {n : Nat} {E Φ : Type}

instance decidableAllThreads [Fintype ι] (P : Thread ι n → Prop) [DecidablePred P] :
    Decidable (∀ t, P t) :=
  decidable_of_iff ((∀ i, P (.client i)) ∧ ∀ w, P (.worker w)) (by
    constructor
    · rintro ⟨hi, hw⟩ (i | w)
      · exact hi i
      · exact hw w
    · exact fun h => ⟨fun i => h _, fun w => h _⟩)

instance decidableMem (w : Fin n) (ws : List (Fin n)) : Decidable (w ∈ ws) :=
  inferInstance

/-- A list of workers names all of them. -/
instance decidableAllMem (ws : List (Fin n)) : Decidable (∀ w, w ∈ ws) :=
  inferInstanceAs (Decidable (∀ w : Fin n, w ∈ ws))

@[simp] theorem store_flag [DecidableEq ι] (t : Thread ι n) (m : Control ι n) (f : Flag n)
    (b : Bool) : (m.store t (.flag f b)).flag = Function.update m.flag f b := by
  cases f <;> rfl

@[simp] theorem store_flag_nestedPauseCounter [DecidableEq ι] (t : Thread ι n) (m : Control ι n)
    (f : Flag n) (b : Bool) :
    (m.store t (.flag f b)).nestedPauseCounter = m.nestedPauseCounter := by
  cases f <;> rfl

theorem only_forWorkers {P : Op (names ι n E) → Prop} {f : Fin n → Code ι n E Unit}
    (hcleared : P (.load (.flag .cleared))) (hf : ∀ w, (f w).Only P) :
    (QueueProcessor.forWorkers f).Only P := by
  constructor
  · exact hcleared
  · intro cleared
    cases cleared with
    | true => trivial
    | false => exact Prog.Only.forEach hf

/-- The rule for a loop over the workers: the invariant speaks of those left, and
`J` is what holds if there is no vector. -/
theorem conforms_forWorkers {A : Protocol (names ι n E) Φ} {t : Thread ι n}
    {f : Fin n → Code ι n E Unit} {φ : Φ} {I : List (Fin n) → Φ → Prop} {J : Φ → Prop}
    (hcleared : ∃ ψ, A.trans t φ (.load (.flag .cleared)) true = some ψ ∧ J ψ)
    (hthere : ∃ ψ, A.trans t φ (.load (.flag .cleared)) false = some ψ ∧ I (List.finRange n) ψ)
    (hf : ∀ w ws ψ, I (w :: ws) ψ → Conforms A t ψ (f w) fun _ => I ws) :
    Conforms A t φ (QueueProcessor.forWorkers f) fun _ ψ => I [] ψ ∨ J ψ := by
  intro cleared
  cases cleared with
  | true =>
      obtain ⟨ψ, hψ, hJ⟩ := hcleared
      exact ⟨ψ, hψ, .inr hJ⟩
  | false =>
      obtain ⟨ψ, hψ, hI⟩ := hthere
      exact ⟨ψ, hψ, (Conforms.forEach hf hI).mono fun _ _ h => .inl h⟩

/-! ## Producers -/

/-- What a producer does itself: everything but to pause and resume the processor. -/
def Producing : Op (names ι n E) → Prop
  | .acquire l | .release l => l = .resizeQueuesLock
  | .wait c l => c = .isResizingCond ∧ l = .resizeQueuesLock
  | .broadcast c => c = .isResizingCond
  | .load x => x = .flag .resizing ∨ x = .addingCount
  | .store x => (∃ b, x = .flag .resizing b) ∨ ∃ d, x = .addingCount d
  | .ask (.add _) | .ask .isMaxSize | .ask .resize => True
  | .call .whileResizing | .call .whileAdding | .call (.whileFull _) => True
  | _ => False

/-- What it does but for the resize. -/
def Offering : Op (names ι n E) → Prop
  | .ask .resize => False
  | o => Producing o

theorem Offering.producing {o : Op (names ι n E)} (h : Offering o) : Producing o := by
  cases o with
  | ask q =>
      cases q with
      | resize => cases h
      | add entry | isMaxSize | started w | init w | finalize w | remove w | handle w | isWork w =>
          exact h
  | acquire l | release l | wait c l | resume c l | signal c | broadcast c | load x | store x
  | call p | spawn u => exact h

section Producers

attribute [local simp] Offering Producing Prog.Only.ite_iff

theorem offering_checkResizable (entry : E) (index : Int) :
    (QueueProducerInterface.checkResizable entry index : Code ι n E Int).Only Offering := by
  simp [QueueProducerInterface.checkResizable]

theorem offering_checkFull (index : Int) :
    (ResizeControls.checkFull index : Code ι n E Bool).Only Offering := by
  simp [ResizeControls.checkFull]

theorem offering_checkFullForResize (index : Int) :
    (ResizeControls.checkFullForResize index : Code ι n E Bool).Only Offering := by
  simp [ResizeControls.checkFullForResize]

theorem offering_pauseAdders :
    (ResizeControls.pauseAdders : Code ι n E Unit).Only Offering := by
  simp [ResizeControls.pauseAdders]

theorem offering_resumeAdders :
    (ResizeControls.resumeAdders : Code ι n E Unit).Only Offering := by
  simp [ResizeControls.resumeAdders]

theorem offering_waitForResize :
    (ResizeControls.waitForResize : Code ι n E Unit).Only Offering := by
  simp [ResizeControls.waitForResize]

end Producers

variable {A : Protocol (names ι n E) Φ} {t : Thread ι n} {φ : Φ} {N : Φ → Prop}

/-- The loop of `addToQueue` may be called in the phase `φ`, and leaves it or leads to `N`. -/
def Loops (A : Protocol (names ι n E) Φ) (t : Thread ι n) (N : Φ → Prop) (φ : Φ) : Prop :=
  ∀ entry index, A.pre t (.addLoop entry index) φ ∧
    ∀ a ψ, A.post t (.addLoop entry index) φ a ψ → N ψ ∨ ψ = φ

theorem conforms_of_offering (hkeeps : ∀ o, Offering o → A.Keeps t φ o) {α : Type}
    {p : Code ι n E α} (hp : p.Only Offering) : Conforms A t φ p fun _ ψ => N ψ ∨ ψ = φ :=
  (Conforms.of_keeps (hp.mono hkeeps)).mono fun _ _ h => .inr h

/-- An `add`, and the call of the loop. -/
theorem conforms_offer (hN : A.Absorbs N) (hkeeps : ∀ o, Offering o → A.Keeps t φ o)
    (hloops : Loops A t N φ) (entry : E) :
    Conforms A t φ
      ((Prog.ask (.add entry) : Code ι n E Int).bind fun index => Prog.call (.addLoop entry index))
      fun _ ψ => N ψ ∨ ψ = φ := by
  have hadd : (Prog.ask (.add entry) : Code ι n E Int).Only Offering := by simp [Offering, Producing]
  apply hN.bind (conforms_of_offering hkeeps hadd)
  rintro index _ rfl
  exact hloops entry index

/-- The rule for the loop of `addToQueue`, if the resize leads through other phases. -/
theorem conforms_addLoop_through {φ₁ φ₂ : Φ} (hN : A.Absorbs N)
    (hkeeps : ∀ o, Offering o → A.Keeps t φ o) (hloops : Loops A t N φ)
    (hpause : Conforms A t φ (QueueProcessor.pause true) fun _ ψ => N ψ ∨ ψ = φ₁)
    (hresize : ∀ a, A.trans t φ₁ (.ask .resize) a = some φ₂)
    (hresume : Conforms A t φ₂ QueueProcessor.resume fun _ ψ => N ψ ∨ ψ = φ)
    (entry : E) (index : Int) :
    Conforms A t φ (QueueProducerInterface.addLoop entry index) fun _ ψ => N ψ ∨ ψ = φ := by
  have hask : Conforms A t φ₁ (Prog.ask .resize : Code ι n E Int) fun _ ψ => N ψ ∨ ψ = φ₂ :=
    fun a => ⟨φ₂, hresize a, .inr rfl⟩
  apply hN.bind (conforms_of_offering hkeeps (offering_checkResizable entry index))
  rintro index _ rfl
  apply hN.bind (conforms_of_offering hkeeps (offering_checkFull index))
  rintro (_ | _) _ rfl
  · exact .inr rfl
  have hadd : (Prog.ask (.add entry) : Code ι n E Int).Only Offering := by simp [Offering, Producing]
  apply hN.bind (conforms_of_offering hkeeps hadd)
  rintro index _ rfl
  apply hN.bind (conforms_of_offering hkeeps (offering_checkFullForResize index))
  rintro (_ | _) _ rfl
  · exact .inr rfl
  apply hN.bind
  · apply hN.bind (conforms_of_offering hkeeps offering_pauseAdders)
    rintro _ _ rfl
    exact hpause
  rintro _ _ rfl
  apply hN.bind hask
  rintro _ _ rfl
  apply hN.bind
  · apply hN.bind hresume
    rintro _ _ rfl
    exact conforms_of_offering hkeeps offering_resumeAdders
  rintro _ _ rfl
  exact conforms_offer hN hkeeps hloops entry

/-- The rule for the loop of `addToQueue`. -/
theorem conforms_addLoop_of (hN : A.Absorbs N) (hkeeps : ∀ o, Producing o → A.Keeps t φ o)
    (hloops : Loops A t N φ)
    (hpause : Conforms A t φ (QueueProcessor.pause true) fun _ ψ => N ψ ∨ ψ = φ)
    (hresume : Conforms A t φ QueueProcessor.resume fun _ ψ => N ψ ∨ ψ = φ)
    (entry : E) (index : Int) :
    Conforms A t φ (QueueProducerInterface.addLoop entry index) fun _ ψ => N ψ ∨ ψ = φ :=
  conforms_addLoop_through hN (fun o ho => hkeeps o ho.producing) hloops hpause
    (hkeeps (.ask .resize) trivial) hresume entry index

/-- The rule for `add`. -/
theorem conforms_add_through (hN : A.Absorbs N) (hkeeps : ∀ o, Offering o → A.Keeps t φ o)
    (hloops : Loops A t N φ)
    (hterminated : ∀ b, ∃ ψ, A.trans t φ (.load (.flag .isTerminatedFlag)) b = some ψ ∧
      (N ψ ∨ ψ = φ))
    (hbroadcast : Conforms A t φ QueueProcessor.broadcast fun _ ψ => N ψ ∨ ψ = φ) (entry : E) :
    Conforms A t φ (QueueProducerInterface.add entry) fun _ ψ => N ψ ∨ ψ = φ := by
  have haddToQueue : Conforms A t φ (QueueProducerInterface.addToQueue entry)
      fun _ ψ => N ψ ∨ ψ = φ := by
    intro terminated
    obtain ⟨ψ, hψ, h⟩ := hterminated terminated
    refine ⟨ψ, hψ, ?_⟩
    rcases h with h | rfl
    · exact (hN.conforms h _).mono fun _ _ h => .inl h
    · cases terminated with
      | true => exact .inr rfl
      | false =>
          apply hN.bind (conforms_of_offering hkeeps offering_waitForResize)
          rintro _ _ rfl
          exact conforms_offer hN hkeeps hloops entry
  apply hN.bind haddToQueue
  rintro index _ rfl
  split
  · exact hbroadcast
  · exact .inr rfl

/-- If it does not matter whether the processor is terminated. -/
theorem conforms_add_of (hN : A.Absorbs N) (hkeeps : ∀ o, Producing o → A.Keeps t φ o)
    (hloops : Loops A t N φ)
    (hterminated : A.Keeps t φ (.load (.flag .isTerminatedFlag)))
    (hbroadcast : Conforms A t φ QueueProcessor.broadcast fun _ ψ => N ψ ∨ ψ = φ) (entry : E) :
    Conforms A t φ (QueueProducerInterface.add entry) fun _ ψ => N ψ ∨ ψ = φ :=
  conforms_add_through hN (fun o ho => hkeeps o ho.producing) hloops
    (fun b => ⟨φ, hterminated b, .inr rfl⟩) hbroadcast entry

variable [DecidableEq ι]

/-- A call of a client is a method, and leaves the memory as it is. -/
theorem entry_eq_some {t : Thread ι n} {c : ClientCall E} {m m' : Control ι n}
    {p : Code ι n E Unit} (h : (processor ι n E).entry t c m = some (m', p)) :
    ∃ i, t = .client i ∧ m' = m ∧ p = method c := by
  cases t with
  | client i =>
      obtain ⟨rfl, rfl⟩ : m = m' ∧ method c = p := by simpa [processor, threadCall] using h
      exact ⟨i, rfl, rfl, rfl⟩
  | worker w => simp [processor, threadCall] at h

end HPQueue
