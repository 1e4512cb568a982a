import HPQueue.Library.LockOrder

/-!
# A machine that another covers

Two machines that run the same programs, where the memory of the one is part of the
memory of the other: what is left out answers the queries, which the smaller machine
leaves open.  Each step of the larger machine is a step of the smaller one, so what holds
of the runs of the smaller machine holds of the larger one's.

## Main results

* `Covers.reachable` — the runs.
* `Covers.enabled` — who can take a step.
-/

namespace HPQueue.Library.Threads

open Library.Transition

variable {σ : Signature} {μ ν : Type}

/-- The memory, seen through `f`. -/
def Shared.view (f : ν → μ) (s : Shared σ ν) : Shared σ μ where
  held := s.held
  asleep := s.asleep
  memory := f s.memory

def State.view (f : ν → μ) (s : State σ ν) : State σ μ where
  prog := s.prog
  shared := s.shared.view f

/-- `N` runs the programs of `M`, and does to what `f` shows of its memory what `M` does. -/
structure Machine.Covers (N : Machine σ ν) (f : ν → μ) (M : Machine σ μ) : Prop where
  body : N.body = M.body
  main : N.main = M.main
  entry : ∀ t c m m' p, N.entry t c m = some (m', p) → M.entry t c (f m) = some (f m', p)
  load : ∀ x m, N.load x m = M.load x (f m)
  store : ∀ t x m, f (N.store t x m) = M.store t x (f m)
  reply : ∀ t q a m m', N.reply t q a m = some m' → M.reply t q a (f m) = some (f m')

namespace Machine.Covers

/-- The machines with their records of the calls. -/
theorem recording {N : Machine σ ν} {f : ν → μ} {M : Machine σ μ} [DecidableEq σ.Thread]
    (h : N.Covers f M) : N.recording.Covers (Prod.map f id) M.recording where
  body := h.body
  main := h.main
  entry := by
    intro t c m m' p hentry
    obtain ⟨⟨m₁, p₁⟩, hentry₁, hm⟩ := Option.map_eq_some_iff.mp hentry
    obtain ⟨rfl, rfl⟩ := Prod.mk.inj hm
    exact Option.map_eq_some_iff.mpr ⟨_, h.entry t c m.1 m₁ p₁ hentry₁, rfl⟩
  load := fun x m => h.load x m.1
  store := by
    intro t x m
    exact Prod.ext (h.store t x m.1) rfl
  reply := by
    intro t q a m m' hreply
    obtain ⟨m₁, hreply₁, rfl⟩ := Option.map_eq_some_iff.mp hreply
    exact Option.map_eq_some_iff.mpr ⟨_, h.reply t q a m.1 m₁ hreply₁, rfl⟩

variable [DecidableEq σ.Thread] [DecidableEq σ.Lock] [DecidableEq σ.Cond] {N : Machine σ ν}
  {f : ν → μ} {M : Machine σ μ} {s s' : State σ ν} {t : σ.Thread}

/-- An operation. -/
theorem exec (h : N.Covers f M) {s s' : Shared σ ν} {o : Op σ} {c : Choice σ} {r : o.Result}
    (hexec : N.exec s t o c = some (r, s')) :
    M.exec (s.view f) t o c = some (r, s'.view f) := by
  cases o with
  | acquire l | release l | wait c' l | resume c' l =>
      cases c <;> simp [Machine.exec] at hexec ⊢
      obtain ⟨hguard, rfl⟩ := hexec
      exact ⟨hguard, rfl⟩
  | signal c' =>
      cases c <;> simp [Machine.exec] at hexec ⊢
      all_goals
        obtain ⟨hguard, rfl⟩ := hexec
        exact ⟨hguard, rfl⟩
  | broadcast c' | spawn u =>
      cases c <;> simp [Machine.exec] at hexec ⊢
      obtain rfl := hexec
      rfl
  | load x =>
      cases c <;> simp [Machine.exec] at hexec ⊢
      obtain ⟨rfl, rfl⟩ := hexec
      exact ⟨(h.load x s.memory).symm, rfl⟩
  | store x =>
      cases c <;> simp [Machine.exec] at hexec ⊢
      obtain rfl := hexec
      simp [Shared.view, h.store]
  | ask q =>
      cases c <;> simp [Machine.exec] at hexec ⊢
      obtain ⟨m, hreply, rfl, rfl⟩ := hexec
      exact ⟨_, h.reply _ _ _ _ _ hreply, rfl, rfl⟩
  | call p => cases c <;> simp [Machine.exec] at hexec

/-- A step. -/
theorem next (h : N.Covers f M) {l : Label σ} (hnext : N.next s l = some s') :
    M.next (s.view f) l = some (s'.view f) := by
  cases l with
  | step t c =>
      cases hprog : s.prog t with
      | done a => simp [Machine.next, hprog] at hnext
      | op o k =>
          have hview : (s.view f).prog t = .op o k := hprog
          cases o with
          | call p =>
              cases c with
              | go =>
                  obtain rfl : _ = s' := by simpa [Machine.next, hprog] using hnext
                  simp [Machine.next, hview, ← h.body]
                  rfl
              | answer a => simp [Machine.next, hprog] at hnext
              | wake u => simp [Machine.next, hprog] at hnext
          | spawn u =>
              simp only [Machine.next, hprog] at hnext
              split at hnext
              · rename_i a hdone
                obtain ⟨⟨r, shared⟩, hexec, rfl⟩ := Option.map_eq_some_iff.mp hnext
                have hdone' : (s.view f).prog u = .done a := hdone
                simp only [Machine.next, hview, hdone']
                exact Option.map_eq_some_iff.mpr ⟨_, h.exec hexec, by rw [← h.main]; rfl⟩
              · cases hnext
          | acquire l | release l | wait c' l | resume c' l | signal c' | broadcast c' | load x
          | store x | ask q =>
              simp only [Machine.next, hprog] at hnext
              obtain ⟨⟨r, shared⟩, hexec, rfl⟩ := Option.map_eq_some_iff.mp hnext
              simp only [Machine.next, hview]
              exact Option.map_eq_some_iff.mpr ⟨_, h.exec hexec, rfl⟩
  | spurious t =>
      simp only [Machine.next] at hnext
      split at hnext
      · rename_i c l k hprog
        obtain ⟨hasleep, hs'⟩ := Option.ite_none_right_eq_some.mp hnext
        obtain rfl := Option.some.inj hs'
        have hview : (s.view f).prog t = .op (.resume c l) k := hprog
        simp only [Machine.next, hview]
        exact if_pos hasleep
      · cases hnext
  | enter t c =>
      simp only [Machine.next] at hnext
      split at hnext
      · rename_i u hprog
        obtain ⟨⟨m, p⟩, hentry, rfl⟩ := Option.map_eq_some_iff.mp hnext
        have hview : (s.view f).prog t = .done u := hprog
        simp only [Machine.next, hview]
        exact Option.map_eq_some_iff.mpr ⟨_, h.entry _ _ _ _ _ hentry, rfl⟩
      · cases hnext

/-- The runs of the larger machine are runs of the smaller one. -/
theorem reachable (h : N.Covers f M) {s₀ : State σ ν} {C : State σ ν → Label σ → Prop}
    {D : State σ μ → Label σ → Prop} (hCD : ∀ s l, C s l → D (s.view f) l)
    (hs : ((N.system s₀).restrict C).Reachable s) :
    ((M.system (s₀.view f)).restrict D).Reachable (s.view f) := by
  apply hs.invariant (I := fun s => ((M.system (s₀.view f)).restrict D).Reachable (s.view f))
  · rintro s rfl
    exact .start rfl
  · intro s l s' hs hstep
    exact hs.step ⟨h.next hstep.1, hCD s l hstep.2⟩

/-- An operation that is possible in the smaller machine is so in the larger one. -/
theorem exists_exec {s : Shared σ ν} {o : Op σ} {c : Choice σ} {x : o.Result × Shared σ μ}
    (hask : ∀ q, o ≠ .ask q) (hexec : M.exec (s.view f) t o c = some x) :
    ∃ y, N.exec s t o c = some y := by
  cases o with
  | ask q => exact absurd rfl (hask q)
  | call p => cases c <;> cases hexec
  | acquire l | release l | wait c' l | resume c' l | signal c' =>
      cases c <;> simp [Machine.exec, Shared.view] at hexec ⊢
      all_goals exact (Option.ite_none_right_eq_some.mp hexec).1
  | broadcast c' | load x | store x | spawn u => cases c <;> simp [Machine.exec] at hexec ⊢

/-- Who can take a step in the smaller machine can do so in the larger one, unless its query
has no answer there. -/
theorem enabled (henabled : M.Enabled (s.view f) t)
    (hanswers : ∀ q, (s.prog t).head = some (.ask q) →
      ∃ a m, N.reply t q a s.shared.memory = some m) :
    N.Enabled s t := by
  obtain ⟨c, s', hnext⟩ := henabled
  cases hprog : s.prog t with
  | done a =>
      have hview : (s.view f).prog t = .done a := hprog
      simp [Machine.next, hview] at hnext
  | op o k =>
      have hview : (s.view f).prog t = .op o k := hprog
      have hsome : ∀ {o' : Op σ} {g : o'.Result × Shared σ μ → State σ μ},
          (M.exec (s.view f).shared t o' c).map g = some s' → (∀ q, o' ≠ .ask q) →
          ∃ x, N.exec s.shared t o' c = some x := by
        intro o' g hmap hask
        obtain ⟨x, hx, -⟩ := Option.map_eq_some_iff.mp hmap
        exact exists_exec hask hx
      cases o with
      | call p =>
          cases c with
          | go => exact ⟨.go, _, by simp only [Machine.next, hprog]; rfl⟩
          | answer a => simp [Machine.next, hview] at hnext
          | wake u => simp [Machine.next, hview] at hnext
      | ask q =>
          obtain ⟨a, m, hm⟩ := hanswers q (by rw [hprog]; rfl)
          exact ⟨.answer a, _, by simp [Machine.next, hprog, Machine.exec, hm]; rfl⟩
      | spawn u =>
          simp only [Machine.next, hview] at hnext
          split at hnext
          · rename_i a hdone
            have hdone : s.prog u = .done a := hdone
            obtain ⟨x, hx⟩ := hsome hnext (by simp)
            exact ⟨c, _, by simp only [Machine.next, hprog, hdone, hx]; rfl⟩
          · cases hnext
      | acquire l | release l | wait c' l | resume c' l | signal c' | broadcast c' | load x
      | store x =>
          simp only [Machine.next, hview] at hnext
          obtain ⟨x, hx⟩ := hsome hnext (by simp)
          exact ⟨c, _, by simp only [Machine.next, hprog, hx]; rfl⟩

end Machine.Covers

end HPQueue.Library.Threads
