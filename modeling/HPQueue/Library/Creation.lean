import HPQueue.Library.Protocol

/-!
# Threads that cannot be created

The operating system may refuse to create a thread.  `pthread_create` reports that in
its result; a thread that does not look at the result goes on as if the other had been
created.  The runs of a machine are taken up here with these steps among them, and
with a count of the creations that succeeded and of those that failed.

## Main results

* `obeys_of_create`, `obeys_of_fail` — the two outcomes of a creation, to a protocol.
* `Protocol.countedInvariant` — the invariant rule.
-/

namespace HPQueue.Library.Threads

open Library.Transition

variable {σ : Signature} {μ Φ : Type}

/-- How often each thread was created, and how often its creation failed. -/
structure Census (σ : Signature) where
  created : σ.Thread → Nat
  failed : σ.Thread → Nat

structure CountedState (σ : Signature) (μ : Type) extends State σ μ, Census σ

inductive CountedLabel (σ : Signature)
  | label (l : Label σ)
  /-- The thread goes on, and the one it was to create is not created. -/
  | fail (t : σ.Thread)

variable [DecidableEq σ.Thread]

namespace Census

def none (σ : Signature) : Census σ where
  created := fun _ => 0
  failed := fun _ => 0

def create (k : Census σ) (u : σ.Thread) : Census σ :=
  { k with created := Function.update k.created u (k.created u + 1) }

def fail (k : Census σ) (u : σ.Thread) : Census σ :=
  { k with failed := Function.update k.failed u (k.failed u + 1) }

/-- All creations of a thread. -/
def attempts (k : Census σ) (u : σ.Thread) : Nat := k.created u + k.failed u

omit [DecidableEq σ.Thread] in
@[simp] theorem attempts_none (u : σ.Thread) : (none σ).attempts u = 0 := rfl

theorem attempts_create (k : Census σ) (u v : σ.Thread) :
    (k.create u).attempts v = k.attempts v + if v = u then 1 else 0 := by
  by_cases h : v = u
  · subst h
    simp [create, attempts]
    omega
  · simp [create, attempts, h]

theorem attempts_fail (k : Census σ) (u v : σ.Thread) :
    (k.fail u).attempts v = k.attempts v + if v = u then 1 else 0 := by
  by_cases h : v = u
  · subst h
    simp [fail, attempts]
    omega
  · simp [fail, attempts, h]

end Census

omit [DecidableEq σ.Thread] in
/-- No thread was created so far. -/
def State.counted (s : State σ μ) : CountedState σ μ := ⟨s, .none σ⟩

omit [DecidableEq σ.Thread] in
/-- The thread that a step creates. -/
def State.creates (s : State σ μ) : Label σ → Option σ.Thread
  | .step t _ =>
      match s.prog t with
      | .op (.spawn u) _ => some u
      | _ => none
  | .spurious _ | .enter _ _ => none

omit [DecidableEq σ.Thread] in
theorem creates_of_head {s : State σ μ} {t u : σ.Thread}
    (h : (s.prog t).head = some (.spawn u)) (c : Choice σ) : s.creates (.step t c) = some u := by
  cases hprog : s.prog t with
  | done a => simp [hprog, Prog.head] at h
  | op o k =>
      obtain rfl : o = .spawn u := by simpa [hprog, Prog.head] using h
      simp [State.creates, hprog]

omit [DecidableEq σ.Thread] in
theorem exists_of_creates {s : State σ μ} {l : Label σ} {u : σ.Thread}
    (h : s.creates l = some u) : ∃ t c k, l = .step t c ∧ s.prog t = .op (.spawn u) k := by
  cases l with
  | step t c =>
      simp only [State.creates] at h
      split at h
      · rename_i v k hprog
        obtain rfl := Option.some.inj h
        exact ⟨t, c, k, rfl, hprog⟩
      · cases h
  | spurious t | enter t c => cases h

variable [DecidableEq σ.Lock] [DecidableEq σ.Cond]

namespace Machine

variable (M : Machine σ μ)

/-- One step, counted. -/
def nextCounted (s : CountedState σ μ) : CountedLabel σ → Option (CountedState σ μ)
  | .label l =>
      (M.next s.toState l).map fun s' =>
        { toState := s'
          toCensus := (s.creates l).elim s.toCensus s.toCensus.create }
  | .fail t =>
      match s.prog t with
      | .op (.spawn u) k =>
          some
            { toState := { s.toState with prog := Function.update s.prog t (k ()) }
              toCensus := s.toCensus.fail u }
      | _ => none

/-- The counted runs of a machine from one state. -/
def countedSystem (s₀ : CountedState σ μ) : System (CountedState σ μ) (CountedLabel σ) :=
  .ofFunction (· = s₀) M.nextCounted

/-- The labels lead to a state with the property. -/
theorem exists_of_followCounted (s₀ : CountedState σ μ)
    (C : CountedState σ μ → CountedLabel σ → Prop) [∀ s l, Decidable (C s l)]
    (P : CountedState σ μ → Prop) [DecidablePred P] (ls : List (CountedLabel σ))
    (h : (System.follow M.nextCounted C s₀ ls).any (fun s => decide (P s)) = true) :
    ∃ s, ((M.countedSystem s₀).restrict C).Reachable s ∧ P s :=
  System.exists_of_follow ls rfl h

end Machine

/-! ## The invariant rule -/

variable {A : Protocol σ Φ} {M : Machine σ μ}

/-- A thread that was created begins with its main program. -/
theorem obeys_of_create (hA : A.Obeyed M) {φ : σ.Thread → Φ} {s s' : State σ μ}
    {t u : σ.Thread} {c : Choice σ} {k : Unit → Prog σ Unit} (hs : A.Obeys φ s)
    (hprog : s.prog t = .op (.spawn u) k) (hstep : M.next s (.step t c) = some s') :
    ∃ ψ, A.trans t (φ t) (.spawn u) () = some ψ ∧ A.final u (φ u) ∧ s'.shared = s.shared ∧
      A.Obeys (Function.update (Function.update φ u (A.born u (φ u))) t ψ) s' := by
  have ht := hs t
  rw [hprog] at ht
  obtain ⟨ψ, hψ, ht⟩ := ht
  have hu := hs u
  cases hdone : s.prog u with
  | op o k' => simp [Machine.next, hprog, hdone] at hstep
  | done a =>
      rw [hdone] at hu
      have hexec : c = .go := by
        cases c <;> simp [Machine.next, hprog, hdone, Machine.exec] at hstep
        rfl
      subst hexec
      obtain rfl : _ = s' := by simpa [Machine.next, hprog, hdone, Machine.exec] using hstep
      refine ⟨ψ, hψ, hu, rfl, ?_⟩
      intro v
      by_cases hvt : v = t
      · subst hvt
        simpa using ht
      · by_cases hvu : v = u
        · subst hvu
          simpa [hvt] using hA.main v (φ v) hu
        · simpa [hvt, hvu] using hs v

omit [DecidableEq σ.Lock] [DecidableEq σ.Cond] in
/-- A thread whose creation of another has failed goes on the same way. -/
theorem obeys_of_fail {φ : σ.Thread → Φ} {s : State σ μ} {t u : σ.Thread}
    {k : Unit → Prog σ Unit} (hs : A.Obeys φ s) (hprog : s.prog t = .op (.spawn u) k) :
    ∃ ψ, A.trans t (φ t) (.spawn u) () = some ψ ∧
      A.Obeys (Function.update φ t ψ) { s with prog := Function.update s.prog t (k ()) } := by
  have ht := hs t
  rw [hprog] at ht
  obtain ⟨ψ, hψ, ht⟩ := ht
  refine ⟨ψ, hψ, ?_⟩
  intro v
  by_cases hvt : v = t
  · subst hvt
    simpa using ht
  · simpa [hvt] using hs v

/-- The invariant rule: what an operation preserves, a thread that wakes, a call, and the
two outcomes of a creation, all runs preserve. -/
theorem Protocol.countedInvariant (hA : A.Obeyed M)
    {J : (σ.Thread → Φ) → Shared σ μ → Census σ → Prop} {s₀ : CountedState σ μ}
    {C : CountedState σ μ → CountedLabel σ → Prop} {φ₀ : σ.Thread → Φ}
    (hs₀ : A.Obeys φ₀ s₀.toState) (hJ₀ : J φ₀ s₀.shared s₀.toCensus)
    (hact : ∀ φ (s : CountedState σ μ) t c o r shared ψ, J φ s.shared s.toCensus →
      C s (.label (.step t c)) → (∀ u, o ≠ .spawn u) → M.Effect s.shared t o r shared →
      A.trans t (φ t) o r = some ψ → J (Function.update φ t ψ) shared s.toCensus)
    (hwake : ∀ φ (s : CountedState σ μ) t c, J φ s.shared s.toCensus →
      C s (.label (.spurious t)) →
      J φ (s.shared.sleep c ((s.shared.asleep c).erase t)) s.toCensus)
    (henter : ∀ φ (s : CountedState σ μ) t c m p, J φ s.shared s.toCensus →
      C s (.label (.enter t c)) → M.entry t c s.shared.memory = some (m, p) → A.final t (φ t) →
      J (Function.update φ t (A.enter t c (φ t))) { s.shared with memory := m } s.toCensus)
    (hcreate : ∀ φ shared k t u ψ, J φ shared k → A.trans t (φ t) (.spawn u) () = some ψ →
      A.final u (φ u) →
      J (Function.update (Function.update φ u (A.born u (φ u))) t ψ) shared (k.create u))
    (hfail : ∀ φ shared k t u ψ, J φ shared k → A.trans t (φ t) (.spawn u) () = some ψ →
      J (Function.update φ t ψ) shared (k.fail u))
    {s : CountedState σ μ} (h : ((M.countedSystem s₀).restrict C).Reachable s) :
    ∃ φ, A.Obeys φ s.toState ∧ J φ s.shared s.toCensus := by
  refine h.invariant (I := fun s => ∃ φ, A.Obeys φ s.toState ∧ J φ s.shared s.toCensus) ?_ ?_
  · rintro s rfl
    exact ⟨φ₀, hs₀, hJ₀⟩
  rintro s l s' ⟨φ, hs, hJ⟩ ⟨hstep, hC⟩
  cases l with
  | fail t =>
      change M.nextCounted s (.fail t) = some s' at hstep
      unfold Machine.nextCounted at hstep
      simp only at hstep
      split at hstep
      · rename_i u k hprog
        obtain rfl := Option.some.inj hstep
        obtain ⟨ψ, hψ, hs'⟩ := obeys_of_fail hs hprog
        exact ⟨_, hs', hfail φ s.shared s.toCensus t u ψ hJ hψ⟩
      · cases hstep
  | label l =>
      obtain ⟨s₁, hs₁, rfl⟩ := Option.map_eq_some_iff.mp hstep
      cases hcreates : s.creates l with
      | none =>
          obtain ⟨φ', hmoves, hs'⟩ := moves_of_next hA hs hs₁
          refine ⟨φ', hs', ?_⟩
          generalize s₁.shared = shared at hmoves
          cases hmoves with
          | @act t c o r _ ψ hhead hexec htrans hspawn =>
              have hne : ∀ u, o ≠ .spawn u := by
                rintro u rfl
                rw [creates_of_head hhead] at hcreates
                cases hcreates
              rw [Protocol.births_of_ne hne]
              exact hact φ s t c o r shared ψ hJ hC hne (Machine.effect_of_exec hexec) htrans
          | silent => exact hJ
          | spurious => exact hwake φ s _ _ hJ hC
          | @enter t c m p u hdone hentry hfinal => exact henter φ s t c m p hJ hC hentry hfinal
      | some u =>
          obtain ⟨t, c, k, rfl, hprog⟩ := exists_of_creates hcreates
          obtain ⟨ψ, hψ, hfinal, hshared, hs'⟩ := obeys_of_create hA hs hprog hs₁
          refine ⟨_, hs', ?_⟩
          rw [hshared]
          exact hcreate φ s.shared s.toCensus t u ψ hJ hψ hfinal

end HPQueue.Library.Threads
