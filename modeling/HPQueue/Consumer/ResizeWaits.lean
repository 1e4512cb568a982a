import HPQueue.Consumer.Conformance
import HPQueue.Consumer.Resizing

/-!
# Waiting for the end of a resize

Producers wait on `isResizingCond` while `resizing` is set.  They look at the flag and
fall asleep under `resizeQueuesLock`, and whoever clears the flag does so under the same
lock, and wakes them before it lets go of it.

## Main results

* `obeyed` — the positions of all methods relative to such a wait.
* `no_lost_resize_wakeup` — whoever waits will be woken by another, that does not wait.
-/

namespace HPQueue

open Library.Threads Library.Transition

variable {ι : Type} {n : Nat} {E : Type}

namespace ResizeWaits

/-- Where a thread stands relative to `resizing`. -/
inductive Phase
  | out
  /-- With the lock, and having found the flag set, or not. -/
  | checking
  | noticed
  | clear
  | asleep
  /-- With the lock, and having cleared the flag. -/
  | closing
  deriving DecidableEq

namespace Phase

def holds : Phase → Bool
  | checking | noticed | clear | closing => true
  | out | asleep => false

def acquired : Phase → Option Phase
  | out => some checking
  | _ => none

def released : Phase → Option Phase
  | checking | clear => some out
  | _ => none

/-- After `resizing` was found to have this value. -/
def sees (b : Bool) : Phase → Phase
  | checking => if b then noticed else clear
  | φ => φ

/-- After it was set to this value. -/
def sets : Bool → Phase → Option Phase
  | true, clear => some checking
  | false, clear => some clear
  | false, checking => some closing
  | _, _ => none

end Phase

open Phase

/-- The thread is about to wake the others, or to be woken. -/
def Bound (φ : Phase) : Prop := φ = closing ∨ φ = asleep

instance (φ : Phase) : Decidable (Bound φ) := inferInstanceAs (Decidable (_ ∨ _))

/-- The operations that matter; every other leaves the phase. -/
def step (φ : Phase) : (o : Op (names ι n E)) → o.Result → Option Phase
  | .broadcast .isResizingCond, _ =>
      if φ = closing then some checking else if φ = asleep then none else some φ
  | .acquire .resizeQueuesLock, _ => φ.acquired
  | .release .resizeQueuesLock, _ => φ.released
  | .wait _ .resizeQueuesLock, _ => if φ = noticed then some asleep else none
  | .resume _ .resizeQueuesLock, _ => if φ = asleep then some checking else none
  | .load (.flag .resizing), b => if Bound φ then none else some (φ.sees b)
  | .store (.flag .resizing b), _ => φ.sets b
  | _, _ => if Bound φ then none else some φ

def protocol (ι : Type) (n : Nat) (E : Type) : Protocol (names ι n E) Phase where
  trans _ φ o r := step φ o r
  pre _ p φ :=
    match p with
    | .whileResizing => φ = checking
    | _ => φ = out
  post _ p _ _ φ :=
    match p with
    | .whileResizing => φ = clear
    | _ => φ = out
  final _ φ := φ = out

variable {α : Type} {t : Thread ι n}

theorem conforms_of_quiet {b : Bool} {p : Code ι n E α} (hp : p.Only (Resizing.Quiet b)) :
    Conforms (protocol ι n E) t out p fun _ ψ => ψ = out := by
  apply Conforms.of_only hp
  · intro o r ho
    show step out o r = some out
    unfold step
    split <;> simp_all [Bound, Resizing.Quiet, Resizing.quiet]
  · intro c l ho
    show step out (.resume c l : Op (names ι n E)) () = some out
    unfold step
    split <;> simp_all [Bound, Resizing.Quiet, Resizing.quiet]
  · intro q hq
    cases q <;> simp_all [Resizing.Quiet, Resizing.quiet, protocol]

/-! ## The methods -/

section Methods

attribute [local simp] Conforms protocol step acquired released sees sets Bound Prog.ite_bind

theorem conforms_whileResizing :
    Conforms (protocol ι n E) t checking ResizeControls.whileResizing fun _ φ => φ = clear := by
  simp [ResizeControls.whileResizing]

theorem conforms_waitForResize :
    Conforms (protocol ι n E) t out ResizeControls.waitForResize fun _ φ => φ = out := by
  simp [ResizeControls.waitForResize]

theorem conforms_checkFull (index : Int) :
    Conforms (protocol ι n E) t out (ResizeControls.checkFull index)
      fun full φ => φ = if full then clear else out := by
  by_cases h : index = QueueConstants.IS_FULL <;> simp [ResizeControls.checkFull, h]

theorem conforms_checkFullForResize (index : Int) :
    Conforms (protocol ι n E) t clear (ResizeControls.checkFullForResize index)
      fun _ φ => φ = out := by
  by_cases h : index = QueueConstants.IS_FULL <;> simp [ResizeControls.checkFullForResize, h]

theorem conforms_pauseThreadsForResize :
    Conforms (protocol ι n E) t out QueueProducerInterface.pauseThreadsForResize
      fun _ φ => φ = out := by
  simp [QueueProducerInterface.pauseThreadsForResize, ResizeControls.pauseAdders]
  exact conforms_of_quiet (Resizing.processor_pause_quiet (b := false) true)

theorem conforms_resumeThreadsForResize :
    Conforms (protocol ι n E) t out QueueProducerInterface.resumeThreadsForResize
      fun _ φ => φ = out := by
  apply (conforms_of_quiet (Resizing.processor_resume_quiet (b := false))).bind
  rintro _ _ rfl
  simp [ResizeControls.resumeAdders]

theorem conforms_whileFull (entry : E) :
    Conforms (protocol ι n E) t out (QueueProducerInterface.whileFull entry)
      fun _ φ => φ = out := by
  simp [QueueProducerInterface.whileFull]
  intro index
  split <;> simp

theorem conforms_checkResizable (entry : E) (index : Int) :
    Conforms (protocol ι n E) t out (QueueProducerInterface.checkResizable entry index)
      fun _ φ => φ = out := by
  unfold QueueProducerInterface.checkResizable
  split
  · simp
    intro maxSize
    split <;> simp
  · simp

theorem conforms_addLoop (entry : E) (index : Int) :
    Conforms (protocol ι n E) t out (QueueProducerInterface.addLoop entry index)
      fun _ φ => φ = out := by
  apply (conforms_checkResizable entry index).bind
  rintro index _ rfl
  apply (conforms_checkFull index).bind
  rintro (_ | _) _ rfl
  · simp
  · simp
    intro index
    apply (conforms_checkFullForResize index).bind
    rintro (_ | _) _ rfl
    · simp
    · apply conforms_pauseThreadsForResize.bind
      rintro _ _ rfl
      simp
      apply conforms_resumeThreadsForResize.bind
      rintro _ _ rfl
      simp

theorem conforms_add (entry : E) :
    Conforms (protocol ι n E) t out (QueueProducerInterface.add entry) fun _ φ => φ = out := by
  have haddToQueue : Conforms (protocol ι n E) t out (QueueProducerInterface.addToQueue entry)
      fun _ φ => φ = out := by
    intro terminated
    cases terminated with
    | true => simp
    | false =>
        simp
        apply conforms_waitForResize.bind
        rintro _ _ rfl
        simp
  apply haddToQueue.bind
  rintro index _ rfl
  split
  · exact conforms_of_quiet (Resizing.broadcast_quiet (b := false))
  · simp

theorem obeyed [DecidableEq ι] : (protocol ι n E).Obeyed (processor ι n E) where
  body := by
    intro t p φ hpre
    cases p with
    | whileResizing => obtain rfl := hpre; exact conforms_whileResizing
    | whileAdding =>
        obtain rfl := hpre
        show Conforms (protocol ι n E) t out ResizeControls.whileAdding fun _ φ => φ = out
        simp [ResizeControls.whileAdding]
    | whileFull entry => obtain rfl := hpre; exact conforms_whileFull entry
    | addLoop entry index => obtain rfl := hpre; exact conforms_addLoop entry index
    | runLoop w => obtain rfl := hpre; exact conforms_of_quiet (Resizing.runLoop_quiet w)
    | whileAlive w => obtain rfl := hpre; exact conforms_of_quiet (Resizing.whileAlive_quiet w)
  main := by
    rintro (i | w) φ rfl
    · exact rfl
    · exact conforms_of_quiet (Resizing.run_quiet w)
  entry := by
    rintro t c m m' p φ hentry rfl
    obtain ⟨i, rfl, -, rfl⟩ := entry_eq_some hentry
    cases c with
    | add entry => exact conforms_add entry
    | start => exact conforms_of_quiet (Resizing.processor_start_quiet (b := false))
    | stop => exact conforms_of_quiet Resizing.processor_stop_quiet
    | pause block => exact conforms_of_quiet (Resizing.processor_pause_quiet (b := false) block)
    | resume => exact conforms_of_quiet (Resizing.processor_resume_quiet (b := false))
    | terminate => exact conforms_of_quiet Resizing.terminate_quiet

end Methods

/-! ## The invariant -/

variable [DecidableEq ι]

/-- The flag is as it was found, and whoever sleeps is not forgotten. -/
structure Inv (φ : Thread ι n → Phase) (s : Shared (names ι n E) (Control ι n)) : Prop where
  holds : ∀ t, (φ t).holds = true → s.held .resizeQueuesLock = some t
  noticed : ∀ t, φ t = noticed → s.memory.flag .resizing = true
  clear : ∀ t, φ t = clear → s.memory.flag .resizing = false
  asleep : ∀ t ∈ s.asleep .isResizingCond, φ t = Phase.asleep →
    s.memory.flag .resizing = true ∨ ∃ u, φ u = closing

namespace Inv

variable {φ : Thread ι n → Phase} {s s' : Shared (names ι n E) (Control ι n)} {ψ : Phase}

theorem new : Inv (fun _ => out) (newProcessor ι n E).shared where
  holds := fun _ ht => by cases ht
  noticed := fun _ ht => by cases ht
  clear := fun _ ht => by cases ht
  asleep := fun _ ht => by cases ht

omit [DecidableEq ι] in
/-- What concerns neither the mutex nor the flag may wake threads. -/
theorem congr (h : Inv φ s) (hheld : s'.held .resizeQueuesLock = s.held .resizeQueuesLock)
    (hflag : s'.memory.flag .resizing = s.memory.flag .resizing)
    (hasleep : s'.asleep .isResizingCond ⊆ s.asleep .isResizingCond) : Inv φ s' where
  holds t ht := by rw [hheld]; exact h.holds t ht
  noticed t ht := by rw [hflag]; exact h.noticed t ht
  clear t ht := by rw [hflag]; exact h.clear t ht
  asleep t ht := by
    rw [hflag]
    exact h.asleep t (hasleep ht)

/-- The thread with the lock, or that acquires it, changes its phase. -/
theorem move (hothers : ∀ u, u ≠ t → (φ u).holds = false)
    (hheld : ψ.holds = true → s'.held .resizeQueuesLock = some t)
    (hnoticed : ψ = Phase.noticed → s'.memory.flag .resizing = true)
    (hclear : ψ = Phase.clear → s'.memory.flag .resizing = false)
    (hasleep : ∀ u ∈ s'.asleep .isResizingCond, Function.update φ t ψ u = Phase.asleep →
      s'.memory.flag .resizing = true ∨ ψ = closing) :
    Inv (Function.update φ t ψ) s' := by
  have hne : ∀ u χ, u ≠ t → χ.holds = true → Function.update φ t ψ u = χ → False := by
    intro u χ hut hχ hu
    rw [Function.update_of_ne hut] at hu
    have hfalse := hothers u hut
    rw [hu, hχ] at hfalse
    cases hfalse
  constructor
  · intro u hu
    by_cases hut : u = t
    · subst hut
      rw [Function.update_self] at hu
      exact hheld hu
    · exact (hne u _ hut hu rfl).elim
  · intro u hu
    by_cases hut : u = t
    · subst hut
      exact hnoticed (by simpa using hu)
    · exact (hne u _ hut rfl hu).elim
  · intro u hu
    by_cases hut : u = t
    · subst hut
      exact hclear (by simpa using hu)
    · exact (hne u _ hut rfl hu).elim
  · intro u hu hφ
    rcases hasleep u hu hφ with hflag | hψ
    · exact .inl hflag
    · exact .inr ⟨t, by rw [Function.update_self, hψ]⟩

omit [DecidableEq ι] in
/-- One thread at most holds the lock. -/
theorem others (h : Inv φ s) (ht : s.held .resizeQueuesLock = some t) (u : Thread ι n)
    (hut : u ≠ t) : (φ u).holds = false := by
  by_contra hu
  have hu := h.holds u (by simpa using hu)
  exact hut (Option.some.inj (hu.symm.trans ht))

omit [DecidableEq ι] in
theorem free (h : Inv φ s) (hfree : s.held .resizeQueuesLock = none) (u : Thread ι n) :
    (φ u).holds = false := by
  by_contra hu
  have hu := h.holds u (by simpa using hu)
  rw [hfree] at hu
  cases hu

/-- Nobody is closing: whoever sleeps does so while the flag is set. -/
theorem resizing (h : Inv φ s) (hclosing : ∀ u, φ u ≠ closing) (hψ : ψ ≠ Phase.asleep)
    {u : Thread ι n} (hu : u ∈ s.asleep .isResizingCond)
    (hφ : Function.update φ t ψ u = Phase.asleep) : s.memory.flag .resizing = true := by
  have hut : u ≠ t := by
    rintro rfl
    rw [Function.update_self] at hφ
    exact hψ hφ
  rw [Function.update_of_ne hut] at hφ
  exact (h.asleep u hu hφ).resolve_right fun ⟨v, hv⟩ => hclosing v hv

omit [DecidableEq ι] in
theorem ne_closing (hothers : ∀ u, u ≠ t → (φ u).holds = false) (ht : φ t ≠ closing)
    (u : Thread ι n) : φ u ≠ closing := by
  intro hu
  by_cases hut : u = t
  · subst hut
    exact ht hu
  · have hfalse := hothers u hut
    rw [hu] at hfalse
    cases hfalse

omit [DecidableEq ι] in
theorem others_of_holds (h : Inv φ s) (ht : (φ t).holds = true) (u : Thread ι n) (hut : u ≠ t) :
    (φ u).holds = false := h.others (h.holds t ht) u hut

/-- The thread that holds the lock finds or sets the flag, or wakes threads. -/
theorem look (h : Inv φ s) (ht : (φ t).holds = true)
    (hheld : s'.held .resizeQueuesLock = s.held .resizeQueuesLock)
    (hnoticed : ψ = Phase.noticed → s'.memory.flag .resizing = true)
    (hclear : ψ = Phase.clear → s'.memory.flag .resizing = false)
    (hasleep : ∀ u ∈ s'.asleep .isResizingCond, Function.update φ t ψ u = Phase.asleep →
      s'.memory.flag .resizing = true ∨ ψ = closing) :
    Inv (Function.update φ t ψ) s' :=
  move (h.others_of_holds ht) (fun _ => by rw [hheld, h.holds t ht]) hnoticed hclear hasleep

end Inv

theorem sets_eq_some {φ ψ : Phase} {b : Bool} (h : φ.sets b = some ψ) :
    φ = clear ∧ ψ = (if b then checking else clear) ∨ φ = checking ∧ b = false ∧ ψ = closing := by
  cases φ <;> cases b <;> simp_all [sets]

theorem flag_of_store (m : Control ι n) (x : Store n) (hx : ∀ b, x ≠ .flag .resizing b) :
    (m.store t x).flag .resizing = m.flag .resizing := by
  cases x with
  | flag f b =>
      have hf : Flag.resizing ≠ f := by
        rintro rfl
        exact hx b rfl
      simp [hf]
  | addingCount d | nestedPauseCounter d | newWorker w => rfl

attribute [local simp] step acquired released

/-- What one operation preserves. -/
theorem inv_of_effect {φ : Thread ι n → Phase} {s s' : Shared (names ι n E) (Control ι n)}
    {ψ : Phase} {o : Op (names ι n E)} {r : o.Result} (h : Inv φ s)
    (heffect : (processor ι n E).Effect s t o r s') (hψ : step (φ t) o r = some ψ) :
    Inv (Function.update φ t ψ) s' := by
  have hsame : ψ = φ t → Function.update φ t ψ = φ := by
    rintro rfl
    exact Function.update_eq_self t φ
  cases heffect with
  | @acquire l hfree =>
      by_cases hl : l = .resizeQueuesLock
      · subst hl
        obtain ⟨hφ, rfl⟩ : φ t = out ∧ checking = ψ := by
          generalize φ t = χ at hψ
          cases χ <;> simp at hψ ⊢
          exact hψ
        have hclosing := Inv.ne_closing (fun u _ => h.free hfree u) (t := t) (by simp [hφ])
        exact Inv.move (fun u _ => h.free hfree u) (fun _ => by simp [Shared.lock]) (by simp)
          (by simp) fun u hu hφ' => .inl (h.resizing hclosing (by simp) hu hφ')
      · obtain ⟨hbound, hφ⟩ : ¬ Bound (φ t) ∧ φ t = ψ := by simpa [hl] using hψ
        rw [hsame hφ.symm]
        exact h.congr (by simp [Shared.lock, Ne.symm hl]) rfl (Finset.Subset.refl _)
  | @release l hheld =>
      by_cases hl : l = .resizeQueuesLock
      · subst hl
        obtain ⟨hφ, rfl⟩ : φ t ≠ closing ∧ out = ψ := by
          generalize φ t = χ at hψ
          cases χ <;> simp at hψ ⊢
          all_goals exact hψ
        have hclosing := Inv.ne_closing (h.others hheld) hφ
        exact Inv.move (h.others hheld) (by simp [Phase.holds]) (by simp) (by simp)
          fun u hu hφ' => .inl (h.resizing hclosing (by simp) hu hφ')
      · obtain ⟨hbound, hφ⟩ : ¬ Bound (φ t) ∧ φ t = ψ := by simpa [hl] using hψ
        rw [hsame hφ.symm]
        exact h.congr (by simp [Shared.lock, Ne.symm hl]) rfl (Finset.Subset.refl _)
  | @wait c l hheld =>
      by_cases hl : l = .resizeQueuesLock
      · subst hl
        obtain ⟨hφ, rfl⟩ : φ t = noticed ∧ asleep = ψ := by simpa using hψ
        exact Inv.move (h.others hheld) (by simp [Phase.holds]) (by simp) (by simp)
          fun _ _ _ => .inl (h.noticed t hφ)
      · obtain ⟨hbound, hφ⟩ : ¬ Bound (φ t) ∧ φ t = ψ := by simpa [hl] using hψ
        rw [hsame hφ.symm]
        have hasleep : ∀ u ∈ insert t (s.asleep c), φ u = asleep → u ∈ s.asleep c := by
          intro u hu hu'
          apply (Finset.mem_insert.mp hu).resolve_left
          rintro rfl
          exact hbound (.inr hu')
        refine ⟨?_, h.noticed, h.clear, ?_⟩
        · simpa [Shared.lock, Shared.sleep, Ne.symm hl] using h.holds
        · intro u hu hφ
          apply h.asleep u ?_ hφ
          by_cases hc : c = .isResizingCond
          · subst hc
            exact hasleep u (by simpa [Shared.lock, Shared.sleep] using hu) hφ
          · simpa [Shared.lock, Shared.sleep, Ne.symm hc] using hu
  | @resume c l hawake hfree =>
      by_cases hl : l = .resizeQueuesLock
      · subst hl
        obtain ⟨hφ, rfl⟩ : φ t = asleep ∧ checking = ψ := by simpa using hψ
        have hclosing := Inv.ne_closing (fun u _ => h.free hfree u) (t := t) (by simp [hφ])
        exact Inv.move (fun u _ => h.free hfree u) (fun _ => by simp [Shared.lock]) (by simp)
          (by simp) fun u hu hφ' => .inl (h.resizing hclosing (by simp) hu hφ')
      · obtain ⟨hbound, hφ⟩ : ¬ Bound (φ t) ∧ φ t = ψ := by simpa [hl] using hψ
        rw [hsame hφ.symm]
        exact h.congr (by simp [Shared.lock, Ne.symm hl]) rfl (Finset.Subset.refl _)
  | unheard hnone =>
      obtain ⟨hbound, hφ⟩ : ¬ Bound (φ t) ∧ φ t = ψ := by simpa using hψ
      rwa [hsame hφ.symm]
  | @signal c u hasleep =>
      obtain ⟨hbound, hφ⟩ : ¬ Bound (φ t) ∧ φ t = ψ := by simpa using hψ
      rw [hsame hφ.symm]
      refine h.congr rfl rfl ?_
      by_cases hc : c = .isResizingCond
      · subst hc
        simpa [Shared.sleep] using Finset.erase_subset _ _
      · simp [Shared.sleep, Ne.symm hc]
  | @broadcast c =>
      by_cases hc : c = .isResizingCond
      · subst hc
        by_cases hφ : φ t = closing
        · obtain rfl : checking = ψ := by simpa [hφ] using hψ
          exact h.look (by simp [hφ, Phase.holds]) rfl (by simp) (by simp) (by simp [Shared.sleep])
        · obtain ⟨-, rfl⟩ : φ t ≠ asleep ∧ φ t = ψ := by simpa [hφ] using hψ
          rw [hsame rfl]
          exact h.congr rfl rfl (by simp [Shared.sleep])
      · obtain ⟨hbound, hφ⟩ : ¬ Bound (φ t) ∧ φ t = ψ := by simpa [hc] using hψ
        rw [hsame hφ.symm]
        exact h.congr rfl rfl (by simp [Shared.sleep, Ne.symm hc])
  | @load x =>
      by_cases hx : x = .flag .resizing
      · subst hx
        obtain ⟨hbound, rfl⟩ : ¬ Bound (φ t) ∧
            (φ t).sees (s.memory.flag .resizing) = ψ := by
          simpa [processor, Control.load] using hψ
        by_cases hchecking : φ t = checking
        · have hholds : (φ t).holds = true := by rw [hchecking]; rfl
          have hclosing := Inv.ne_closing (h.others_of_holds hholds) (by simp [hchecking])
          rw [hchecking]
          refine h.look hholds rfl ?_ ?_ ?_
          · cases hflag : s.memory.flag .resizing <;> simp [sees]
          · cases hflag : s.memory.flag .resizing <;> simp [sees]
          · exact fun u hu hφ' => .inl (h.resizing hclosing (by simp [sees]; split <;> simp) hu hφ')
        · have hsees : (φ t).sees (s.memory.flag .resizing) = φ t := by
            generalize φ t = χ at hchecking
            cases χ <;> first | rfl | exact absurd rfl hchecking
          rwa [hsame hsees]
      · obtain ⟨hbound, hφ⟩ : ¬ Bound (φ t) ∧ φ t = ψ := by simpa [hx] using hψ
        rwa [hsame hφ.symm]
  | @store x =>
      by_cases hx : ∃ b, x = .flag .resizing b
      · obtain ⟨b, rfl⟩ := hx
        have hstore : ((processor ι n E).store t (.flag .resizing b) s.memory).flag .resizing = b := by
          simp [processor]
        rcases sets_eq_some hψ with ⟨hφ, rfl⟩ | ⟨hφ, rfl, rfl⟩
        · have hholds : (φ t).holds = true := by rw [hφ]; rfl
          have hclosing := Inv.ne_closing (h.others_of_holds hholds) (by simp [hφ])
          refine h.look hholds rfl (by split <;> simp) ?_ ?_
          · cases b <;> simp [hstore]
          · intro u hu hφ'
            have hflag := h.resizing hclosing (by split <;> simp) hu hφ'
            rw [h.clear t hφ] at hflag
            cases hflag
        · have hholds : (φ t).holds = true := by rw [hφ]; rfl
          exact h.look hholds rfl (by simp) (by simp) fun _ _ _ => .inr rfl
      · have hother : ∀ b, x ≠ .flag .resizing b := fun b hb => hx ⟨b, hb⟩
        obtain ⟨hbound, hφ⟩ : ¬ Bound (φ t) ∧ φ t = ψ := by simpa [hother] using hψ
        rw [hsame hφ.symm]
        exact h.congr rfl (flag_of_store s.memory x hother) (Finset.Subset.refl _)
  | @ask q a m hreply =>
      obtain rfl : s.memory = m := by simpa [processor] using hreply
      obtain ⟨hbound, hφ⟩ : ¬ Bound (φ t) ∧ φ t = ψ := by simpa using hψ
      rwa [hsame hφ.symm]
  | spawn =>
      obtain ⟨hbound, hφ⟩ : ¬ Bound (φ t) ∧ φ t = ψ := by simpa using hψ
      rwa [hsame hφ.symm]

theorem inv_of_reachable {s : State (names ι n E) (Control ι n)}
    (h : ((processor ι n E).system (newProcessor ι n E)).Reachable s) :
    ∃ φ, (protocol ι n E).Obeys φ s ∧ Inv φ s.shared := by
  have hobeys : (protocol ι n E).Obeys (fun _ => out) (newProcessor ι n E) := fun _ => rfl
  apply Protocol.invariant obeyed hobeys Inv.new _ h.restrict_true
  intro φ s l φ' shared _ hinv _ hmoves
  cases hmoves with
  | act _ hexec htrans _ =>
      rw [Protocol.births_eq fun _ _ => rfl]
      exact inv_of_effect hinv (Machine.effect_of_exec hexec) htrans
  | silent => exact hinv
  | @spurious t c l ψ hhead hasleep htrans =>
      refine hinv.congr rfl rfl ?_
      by_cases hc : c = .isResizingCond
      · subst hc
        simpa [Shared.sleep] using Finset.erase_subset _ _
      · simp [Shared.sleep, Ne.symm hc]
  | @enter t c m p _ _ hentry =>
      obtain ⟨i, rfl, rfl, -⟩ := entry_eq_some hentry
      rw [show (protocol ι n E).enter (.client i) c (φ (.client i)) = φ (.client i) from rfl,
        Function.update_eq_self]
      exact hinv

omit [DecidableEq ι] in
theorem broadcast_of_step {ψ : Phase} {o : Op (names ι n E)} {r : o.Result}
    (h : step closing o r = some ψ) : o = .broadcast .isResizingCond := by
  unfold step at h
  split at h <;> simp_all [Bound, sets]

omit [DecidableEq ι] in
/-- Who has cleared the flag does nothing before it wakes the others. -/
theorem head_of_closing {s : State (names ι n E) (Control ι n)} {φ : Thread ι n → Phase}
    (hobeys : (protocol ι n E).Obeys φ s) (hφ : φ t = closing) :
    (s.prog t).head = some (.broadcast .isResizingCond) := by
  have ht := hobeys t
  rw [hφ] at ht
  cases hprog : s.prog t with
  | done a =>
      rw [hprog] at ht
      cases ht
  | op o k =>
      rw [hprog] at ht
      by_cases hcall : ∃ q, o = .call q
      · obtain ⟨q, rfl⟩ := hcall
        obtain ⟨hpre, -⟩ := ht
        cases q <;> cases hpre
      · have hhead : (Prog.op o k).head = some o := rfl
        have hresult : Nonempty o.Result := by cases o <;> exact ⟨default⟩
        obtain ⟨ψ, hψ⟩ := ht.trans_of_head hhead (fun q hq => hcall ⟨q, hq⟩) hresult.some
        rw [hhead, broadcast_of_step hψ]

end ResizeWaits

open ResizeWaits

variable [DecidableEq ι]

/-- A producer that waits for the end of a resize. -/
def WaitsForResize (s : State (names ι n E) (Control ι n)) (t : Thread ι n) : Prop :=
  (s.prog t).head = some (.resume .isResizingCond .resizeQueuesLock) ∧
    t ∈ s.shared.asleep .isResizingCond

instance (s : State (names ι n E) (Control ι n)) (t : Thread ι n) :
    Decidable (WaitsForResize s t) := inferInstanceAs (Decidable (_ ∧ _))

namespace ResizeWaits

variable {s : State (names ι n E) (Control ι n)}

/-- Whoever waits does so while the flag is set, or is about to be woken. -/
theorem resizing_of_waits (h : ((processor ι n E).system (newProcessor ι n E)).Reachable s)
    (ht : WaitsForResize s t) :
    s.shared.memory.flag .resizing = true ∨
      ∃ u, (s.prog u).head = some (.broadcast .isResizingCond) := by
  obtain ⟨φ, hobeys, hinv⟩ := inv_of_reachable h
  obtain ⟨hhead, hasleep⟩ := ht
  have hφ : φ t = .asleep := by
    obtain ⟨ψ, hψ⟩ := (hobeys t).trans_of_head hhead (by simp) ()
    by_contra hφ
    simp [protocol, step, hφ] at hψ
  exact (hinv.asleep t hasleep hφ).imp id fun ⟨u, hu⟩ => ⟨u, head_of_closing hobeys hu⟩

/-- Whoever has set the flag does not wait. -/
theorem resizer_of_resizing [Fintype ι]
    (h : ((processor ι n E).system (newProcessor ι n E)).Reachable s)
    (hflag : s.shared.memory.flag .resizing = true) :
    ∃ u, s.shared.memory.resizes u = true ∧ (s.prog u).head ≠ none ∧ ¬ WaitsForResize s u := by
  obtain ⟨χ, hobeys, hresizing⟩ := Resizing.inv_of_reachable h
  obtain ⟨u, hu⟩ := hresizing.flag.mp hflag
  refine ⟨u, by rw [hresizing.resizes, hu], ?_, ?_⟩
  · intro hdone
    obtain ⟨-, hout⟩ := (hobeys u).post_of_head hdone
    rw [show χ u = .out from hout] at hu
    cases hu
  · rintro ⟨hhead, -⟩
    obtain ⟨ψ, hψ⟩ := (hobeys u).trans_of_head hhead (by simp) ()
    have hsleeps : χ u = .asleep := by
      by_contra hχ
      simp [Resizing.protocol, Resizing.step, hχ] at hψ
    rw [hsleeps] at hu
    cases hu

end ResizeWaits

/-- No wake-up is lost: while somebody waits for the end of a resize, another thread has set
`resizing`, and is in a call and does not wait itself, or one is about to wake everybody. -/
theorem no_lost_resize_wakeup [Fintype ι] {s : State (names ι n E) (Control ι n)}
    (h : ((processor ι n E).system (newProcessor ι n E)).Reachable s) {t : Thread ι n}
    (ht : WaitsForResize s t) :
    (∃ u, s.shared.memory.resizes u = true ∧ (s.prog u).head ≠ none ∧ ¬ WaitsForResize s u) ∨
      ∃ u, (s.prog u).head = some (.broadcast .isResizingCond) :=
  (resizing_of_waits h ht).imp (resizer_of_resizing h) id

theorem no_lost_resize_wakeup_one_waits :
    ∃ s : State (names (Fin 2) 1 Unit) (Control (Fin 2) 1), WaitsForResize s (.client 1) ∧
      ((∃ u, s.shared.memory.resizes u = true ∧ (s.prog u).head ≠ none ∧ ¬ WaitsForResize s u) ∨
        ∃ u, (s.prog u).head = some (.broadcast .isResizingCond)) := by
  let go (i : Fin 2) : Label (names (Fin 2) 1 Unit) := .step (.client i) .go
  let full : Label (names (Fin 2) 1 Unit) := .step (.client 0) (.answer QueueConstants.IS_FULL)
  let notMax : Label (names (Fin 2) 1 Unit) := .step (.client 0) (.answer 0)
  obtain ⟨s, hs, hwaits⟩ := (processor (Fin 2) 1 Unit).exists_of_follow
    (newProcessor (Fin 2) 1 Unit) (fun _ _ => True) (fun s => WaitsForResize s (.client 1))
    ([.enter (.client 0) (.add ()), .enter (.client 1) (.add ())] ++ List.replicate 6 (go 0) ++
      [full, go 0, notMax] ++ List.replicate 4 (go 0) ++ [full] ++ List.replicate 11 (go 0) ++
      List.replicate 5 (go 1)) (by decide)
  exact ⟨s, hwaits, no_lost_resize_wakeup hs.of_restrict hwaits⟩

end HPQueue
