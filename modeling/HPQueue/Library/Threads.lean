import HPQueue.Library.Transition
import Mathlib.Data.Finset.Basic
import Mathlib.Logic.Function.Basic

/-!
# Programs of threads

Threads that share mutexes, condition variables and a memory, in the manner of
POSIX.  A program is a tree: an operation, and a program for each of its results,
so that a thread's state is the program it has left.  One operation is one step.
A `wait` takes two: the thread releases the mutex and falls asleep in one, and
acquires the mutex again in the other, once it was signalled (or woke by itself).

Programs are written with `do`.  A loop is a procedure that calls itself.  What
the program calls but does not contain is a `Query`; its answer comes from the
environment, as far as the machine allows it.
-/

namespace HPQueue.Library.Threads

open Library.Transition

/-- The names that programs use. -/
structure Signature where
  Thread : Type
  Lock : Type
  Cond : Type
  /-- The tests a program may make of the memory. -/
  Load : Type
  Store : Type
  Query : Type
  Proc : Type
  /-- The calls a thread may be given from outside. -/
  Call : Type

inductive Op (σ : Signature)
  | acquire (l : σ.Lock)
  | release (l : σ.Lock)
  | wait (c : σ.Cond) (l : σ.Lock)
  /-- The rest of a `wait`. -/
  | resume (c : σ.Cond) (l : σ.Lock)
  | signal (c : σ.Cond)
  | broadcast (c : σ.Cond)
  | load (x : σ.Load)
  | store (x : σ.Store)
  | ask (q : σ.Query)
  | call (p : σ.Proc)
  /-- A thread is created. -/
  | spawn (t : σ.Thread)

variable {σ : Signature}

/-- The type of an operation's result. -/
@[reducible] def Op.Result : Op σ → Type
  | .load _ => Bool
  | .ask _ => Int
  | .call _ => Int
  | .acquire _ => Unit
  | .release _ => Unit
  | .wait _ _ => Unit
  | .resume _ _ => Unit
  | .signal _ => Unit
  | .broadcast _ => Unit
  | .store _ => Unit
  | .spawn _ => Unit

inductive Prog (σ : Signature) (α : Type)
  | done (a : α)
  | op (o : Op σ) (k : o.Result → Prog σ α)

namespace Prog

variable {α β : Type}

/-- One program after the other. -/
def bind : Prog σ α → (α → Prog σ β) → Prog σ β
  | done a, f => f a
  | op o k, f => op o fun r => (k r).bind f

instance : Monad (Prog σ) where
  pure := done
  bind := bind

@[simp] theorem pure_eq (a : α) : (pure a : Prog σ α) = done a := rfl

@[simp] theorem bind_eq (p : Prog σ α) (f : α → Prog σ β) : p >>= f = p.bind f := rfl

@[simp] theorem done_bind (a : α) (f : α → Prog σ β) : (done a).bind f = f a := rfl

@[simp] theorem op_bind (o : Op σ) (k : o.Result → Prog σ α) (f : α → Prog σ β) :
    (op o k).bind f = op o fun r => (k r).bind f := rfl

theorem ite_bind {c : Prop} [Decidable c] (p q : Prog σ α) (f : α → Prog σ β) :
    (if c then p else q).bind f = if c then p.bind f else q.bind f := by
  split <;> rfl

/-- The operation a program is about to perform. -/
def head : Prog σ α → Option (Op σ)
  | done _ => none
  | op o _ => some o

@[simp] def acquire (l : σ.Lock) : Prog σ Unit := op (.acquire l) done
@[simp] def release (l : σ.Lock) : Prog σ Unit := op (.release l) done
@[simp] def wait (c : σ.Cond) (l : σ.Lock) : Prog σ Unit := op (.wait c l) done
@[simp] def signal (c : σ.Cond) : Prog σ Unit := op (.signal c) done
@[simp] def broadcast (c : σ.Cond) : Prog σ Unit := op (.broadcast c) done
@[simp] def load (x : σ.Load) : Prog σ Bool := op (.load x) done
@[simp] def store (x : σ.Store) : Prog σ Unit := op (.store x) done
@[simp] def ask (q : σ.Query) : Prog σ Int := op (.ask q) done
@[simp] def call (p : σ.Proc) : Prog σ Int := op (.call p) done
@[simp] def spawn (t : σ.Thread) : Prog σ Unit := op (.spawn t) done

/-- The program for each element in turn. -/
def forEach : List α → (α → Prog σ Unit) → Prog σ Unit
  | [], _ => done ()
  | a :: as, f => (f a).bind fun _ => forEach as f

end Prog

/-- What all threads share. -/
structure Shared (σ : Signature) (μ : Type) where
  /-- Who holds a mutex. -/
  held : σ.Lock → Option σ.Thread
  /-- Who waits for a condition and was not signalled. -/
  asleep : σ.Cond → Finset σ.Thread
  memory : μ

/-- A memory, and the programs that work on it. -/
structure Machine (σ : Signature) (μ : Type) where
  body : σ.Proc → Prog σ Int
  /-- What a thread does once it is created. -/
  main : σ.Thread → Prog σ Unit
  /-- What a thread does once it is given a call. -/
  entry : σ.Thread → σ.Call → μ → Option (μ × Prog σ Unit)
  load : σ.Load → μ → Bool
  store : σ.Thread → σ.Store → μ → μ
  /-- The answers a query may have, and what it does. -/
  reply : σ.Thread → σ.Query → Int → μ → Option μ

structure State (σ : Signature) (μ : Type) where
  prog : σ.Thread → Prog σ Unit
  shared : Shared σ μ

/-- What an operation leaves open. -/
inductive Choice (σ : Signature)
  | go
  | answer (a : Int)
  /-- The thread that a signal wakes. -/
  | wake (t : σ.Thread)

inductive Label (σ : Signature)
  | step (t : σ.Thread) (c : Choice σ)
  /-- A thread wakes that was not signalled. -/
  | spurious (t : σ.Thread)
  | enter (t : σ.Thread) (c : σ.Call)

variable {μ : Type} [DecidableEq σ.Thread] [DecidableEq σ.Lock] [DecidableEq σ.Cond]

namespace Shared

def lock (s : Shared σ μ) (l : σ.Lock) (t : Option σ.Thread) : Shared σ μ :=
  { s with held := Function.update s.held l t }

def sleep (s : Shared σ μ) (c : σ.Cond) (ts : Finset σ.Thread) : Shared σ μ :=
  { s with asleep := Function.update s.asleep c ts }

omit [DecidableEq σ.Thread] [DecidableEq σ.Lock] [DecidableEq σ.Cond] in
/-- Without what was written down beside the memory. -/
def forget {κ : Type} (s : Shared σ (μ × κ)) : Shared σ μ where
  held := s.held
  asleep := s.asleep
  memory := s.memory.1

end Shared

namespace Machine

variable (M : Machine σ μ)

/-- The effect of one operation on what is shared, and its result. -/
def exec (s : Shared σ μ) (t : σ.Thread) : (o : Op σ) → Choice σ → Option (o.Result × Shared σ μ)
  | .acquire l, .go => if s.held l = none then some ((), s.lock l (some t)) else none
  | .release l, .go => if s.held l = some t then some ((), s.lock l none) else none
  | .wait c l, .go =>
      if s.held l = some t then some ((), (s.lock l none).sleep c (insert t (s.asleep c)))
      else none
  | .resume c l, .go =>
      if t ∉ s.asleep c ∧ s.held l = none then some ((), s.lock l (some t)) else none
  | .signal c, .go => if s.asleep c = ∅ then some ((), s) else none
  | .signal c, .wake u =>
      if u ∈ s.asleep c then some ((), s.sleep c ((s.asleep c).erase u)) else none
  | .broadcast c, .go => some ((), s.sleep c ∅)
  | .load x, .go => some (M.load x s.memory, s)
  | .store x, .go => some ((), { s with memory := M.store t x s.memory })
  | .ask q, .answer a => (M.reply t q a s.memory).map fun m => (a, { s with memory := m })
  | .spawn _, .go => some ((), s)
  | _, _ => none

/-- What an operation can do: one case for each kind. -/
inductive Effect (s : Shared σ μ) (t : σ.Thread) : (o : Op σ) → o.Result → Shared σ μ → Prop
  | acquire {l : σ.Lock} (hfree : s.held l = none) :
      Effect s t (.acquire l) () (s.lock l (some t))
  | release {l : σ.Lock} (hheld : s.held l = some t) :
      Effect s t (.release l) () (s.lock l none)
  | wait {c : σ.Cond} {l : σ.Lock} (hheld : s.held l = some t) :
      Effect s t (.wait c l) () ((s.lock l none).sleep c (insert t (s.asleep c)))
  | resume {c : σ.Cond} {l : σ.Lock} (hawake : t ∉ s.asleep c) (hfree : s.held l = none) :
      Effect s t (.resume c l) () (s.lock l (some t))
  | unheard {c : σ.Cond} (hnone : s.asleep c = ∅) : Effect s t (.signal c) () s
  | signal {c : σ.Cond} {u : σ.Thread} (hasleep : u ∈ s.asleep c) :
      Effect s t (.signal c) () (s.sleep c ((s.asleep c).erase u))
  | broadcast {c : σ.Cond} : Effect s t (.broadcast c) () (s.sleep c ∅)
  | load {x : σ.Load} : Effect s t (.load x) (M.load x s.memory) s
  | store {x : σ.Store} : Effect s t (.store x) () { s with memory := M.store t x s.memory }
  | ask {q : σ.Query} {a : Int} {m : μ} (hreply : M.reply t q a s.memory = some m) :
      Effect s t (.ask q) a { s with memory := m }
  | spawn {u : σ.Thread} : Effect s t (.spawn u) () s

variable {M} in
theorem effect_of_exec {s s' : Shared σ μ} {t : σ.Thread} {o : Op σ} {c : Choice σ}
    {r : o.Result} (h : M.exec s t o c = some (r, s')) : M.Effect s t o r s' := by
  cases o with
  | acquire l =>
      cases c <;> simp [exec] at h
      obtain ⟨hfree, rfl⟩ := h
      exact .acquire hfree
  | release l =>
      cases c <;> simp [exec] at h
      obtain ⟨hheld, rfl⟩ := h
      exact .release hheld
  | wait c' l =>
      cases c <;> simp [exec] at h
      obtain ⟨hheld, rfl⟩ := h
      exact .wait hheld
  | resume c' l =>
      cases c <;> simp [exec] at h
      obtain ⟨⟨hawake, hfree⟩, rfl⟩ := h
      exact .resume hawake hfree
  | signal c' =>
      cases c <;> simp [exec] at h
      · obtain ⟨hnone, rfl⟩ := h
        exact .unheard hnone
      · obtain ⟨hasleep, rfl⟩ := h
        exact .signal hasleep
  | broadcast c' =>
      cases c <;> simp [exec] at h
      obtain rfl := h
      exact .broadcast
  | load x =>
      cases c <;> simp [exec] at h
      obtain ⟨rfl, rfl⟩ := h
      exact .load
  | store x =>
      cases c <;> simp [exec] at h
      obtain rfl := h
      exact .store
  | ask q =>
      cases c <;> simp [exec] at h
      obtain ⟨m, hreply, rfl, rfl⟩ := h
      exact .ask hreply
  | call p => cases c <;> simp [exec] at h
  | spawn u =>
      cases c <;> simp [exec] at h
      obtain rfl := h
      exact .spawn

variable {M} in
/-- A thread keeps a mutex until it releases it. -/
theorem Effect.held_of_ne {s s' : Shared σ μ} {t u : σ.Thread} {o : Op σ} {r : o.Result}
    (h : M.Effect s t o r s') {l : σ.Lock} (hut : u ≠ t) (hl : s.held l = some u) :
    s'.held l = some u := by
  cases h with
  | @acquire l' hfree | @resume c l' hawake hfree =>
      have hne : l ≠ l' := by
        rintro rfl
        simp [hfree] at hl
      simpa [Shared.lock, hne] using hl
  | @release l' hheld | @wait c l' hheld =>
      have hne : l ≠ l' := by
        rintro rfl
        exact hut (Option.some.inj (hl.symm.trans hheld))
      simpa [Shared.lock, Shared.sleep, hne] using hl
  | unheard | signal | broadcast | load | store | ask | spawn => exact hl

variable {M} in
theorem Effect.held_self {s s' : Shared σ μ} {t : σ.Thread} {o : Op σ} {r : o.Result}
    (h : M.Effect s t o r s') {l : σ.Lock}
    (hl : (o = .acquire l ∨ ∃ c, o = .resume c l) ∨
      s.held l = some t ∧ o ≠ .release l ∧ ∀ c, o ≠ .wait c l) :
    s'.held l = some t := by
  cases h with
  | @acquire l' hfree | @resume c l' hawake hfree =>
      by_cases hne : l = l'
      · simp [Shared.lock, hne]
      · simpa [Shared.lock, hne, Ne.symm hne] using hl
  | @release l' hheld | @wait c l' hheld =>
      obtain ⟨hheld', hne⟩ : s.held l = some t ∧ l ≠ l' := by
        simp at hl
        exact ⟨hl.1, Ne.symm hl.2⟩
      simpa [Shared.lock, Shared.sleep, hne] using hheld'
  | unheard | signal | broadcast | load | store | ask | spawn =>
      simp at hl
      exact hl

variable {M} in
/-- Only a `wait` puts a thread to sleep. -/
theorem Effect.asleep {s s' : Shared σ μ} {t u : σ.Thread} {o : Op σ} {r : o.Result}
    (h : M.Effect s t o r s') {c : σ.Cond} (hu : u ∈ s'.asleep c) :
    u ∈ s.asleep c ∨ u = t ∧ ∃ l, o = .wait c l := by
  cases h with
  | @wait c' l hheld =>
      by_cases hc : c = c'
      · subst hc
        rcases Finset.mem_insert.mp (by simpa [Shared.sleep, Shared.lock] using hu) with rfl | hu
        · exact .inr ⟨rfl, l, rfl⟩
        · exact .inl hu
      · exact .inl (by simpa [Shared.sleep, Shared.lock, hc] using hu)
  | @signal c' v hasleep =>
      by_cases hc : c = c'
      · subst hc
        exact .inl (Finset.mem_of_mem_erase (by simpa [Shared.sleep] using hu))
      · exact .inl (by simpa [Shared.sleep, hc] using hu)
  | @broadcast c' =>
      by_cases hc : c = c'
      · subst hc
        simp [Shared.sleep] at hu
      · exact .inl (by simpa [Shared.sleep, hc] using hu)
  | acquire | release | resume | unheard | load | store | ask | spawn => exact .inl hu

variable {M} in
/-- Only who is signalled wakes. -/
theorem Effect.asleep_of_ne {s s' : Shared σ μ} {t u : σ.Thread} {o : Op σ} {r : o.Result}
    (h : M.Effect s t o r s') {c : σ.Cond} (hu : u ∈ s.asleep c) (hsignal : o ≠ .signal c)
    (hbroadcast : o ≠ .broadcast c) : u ∈ s'.asleep c := by
  cases h with
  | @wait c' l hheld =>
      by_cases hc : c = c'
      · subst hc
        simp [Shared.sleep, hu]
      · simpa [Shared.sleep, Shared.lock, hc] using hu
  | @signal c' v hasleep =>
      have hc : c ≠ c' := fun hc => hsignal (by rw [hc])
      simpa [Shared.sleep, hc] using hu
  | @broadcast c' =>
      have hc : c ≠ c' := fun hc => hbroadcast (by rw [hc])
      simpa [Shared.sleep, hc] using hu
  | acquire | release | resume | unheard | load | store | ask | spawn => exact hu

variable {M} in
/-- A signal wakes the one thread that waits. -/
theorem Effect.awake_of_signal {s s' : Shared σ μ} {t u : σ.Thread} {c : σ.Cond}
    (h : M.Effect s t (.signal c) () s') (honly : ∀ v ∈ s.asleep c, v = u) :
    u ∉ s'.asleep c := by
  cases h with
  | unheard hnone => simp [hnone]
  | @signal _ v hasleep =>
      obtain rfl := honly v hasleep
      simp [Shared.sleep]

/-- One step. -/
def next (s : State σ μ) : Label σ → Option (State σ μ)
  | .step t c =>
      match s.prog t with
      | .done _ => none
      | .op (.call p) k =>
          match c with
          | .go => some { s with prog := Function.update s.prog t ((M.body p).bind k) }
          | _ => none
      | .op (.wait c' l) k =>
          (M.exec s.shared t (.wait c' l) c).map fun (_, shared) =>
            ⟨Function.update s.prog t (.op (.resume c' l) k), shared⟩
      | .op (.spawn u) k =>
          match s.prog u with
          | .done _ =>
              (M.exec s.shared t (.spawn u) c).map fun (_, shared) =>
                ⟨Function.update (Function.update s.prog u (M.main u)) t (k ()), shared⟩
          | .op _ _ => none
      | .op o k =>
          (M.exec s.shared t o c).map fun (r, shared) =>
            ⟨Function.update s.prog t (k r), shared⟩
  | .spurious t =>
      match s.prog t with
      | .op (.resume c _) _ =>
          if t ∈ s.shared.asleep c then
            some { s with shared := s.shared.sleep c ((s.shared.asleep c).erase t) }
          else none
      | _ => none
  | .enter t c =>
      match s.prog t with
      | .done _ =>
          (M.entry t c s.shared.memory).map fun (m, p) =>
            ⟨Function.update s.prog t p, { s.shared with memory := m }⟩
      | .op _ _ => none

/-! ## Threads that cannot go on -/

instance {α : Type} (l : σ.Lock) :
    (p : Prog σ α) → Decidable (p.head = some (.acquire l))
  | .op (.acquire l') _ => decidable_of_iff (l' = l) (by simp [Prog.head])
  | .done _ | .op (.release _) _ | .op (.wait _ _) _ | .op (.resume _ _) _ | .op (.signal _) _
  | .op (.broadcast _) _ | .op (.load _) _ | .op (.store _) _ | .op (.ask _) _ | .op (.call _) _
  | .op (.spawn _) _ => .isFalse (by simp [Prog.head])

instance {α : Type} (c : σ.Cond) (l : σ.Lock) :
    (p : Prog σ α) → Decidable (p.head = some (.resume c l))
  | .op (.resume c' l') _ => decidable_of_iff (c' = c ∧ l' = l) (by simp [Prog.head])
  | .done _ | .op (.acquire _) _ | .op (.release _) _ | .op (.wait _ _) _ | .op (.signal _) _
  | .op (.broadcast _) _ | .op (.load _) _ | .op (.store _) _ | .op (.ask _) _ | .op (.call _) _
  | .op (.spawn _) _ => .isFalse (by simp [Prog.head])

instance {α : Type} (l : σ.Lock) :
    (p : Prog σ α) → Decidable (p.head = some (.release l))
  | .op (.release l') _ => decidable_of_iff (l' = l) (by simp [Prog.head])
  | .done _ | .op (.acquire _) _ | .op (.wait _ _) _ | .op (.resume _ _) _ | .op (.signal _) _
  | .op (.broadcast _) _ | .op (.load _) _ | .op (.store _) _ | .op (.ask _) _ | .op (.call _) _
  | .op (.spawn _) _ => .isFalse (by simp [Prog.head])

instance {α : Type} [DecidableEq σ.Load] (x : σ.Load) :
    (p : Prog σ α) → Decidable (p.head = some (.load x))
  | .op (.load x') _ => decidable_of_iff (x' = x) (by simp [Prog.head])
  | .done _ | .op (.acquire _) _ | .op (.release _) _ | .op (.wait _ _) _ | .op (.resume _ _) _
  | .op (.signal _) _ | .op (.broadcast _) _ | .op (.store _) _ | .op (.ask _) _ | .op (.call _) _
  | .op (.spawn _) _ => .isFalse (by simp [Prog.head])

instance {α : Type} [DecidableEq σ.Store] (x : σ.Store) :
    (p : Prog σ α) → Decidable (p.head = some (.store x))
  | .op (.store x') _ => decidable_of_iff (x' = x) (by simp [Prog.head])
  | .done _ | .op (.acquire _) _ | .op (.release _) _ | .op (.wait _ _) _ | .op (.resume _ _) _
  | .op (.signal _) _ | .op (.broadcast _) _ | .op (.load _) _ | .op (.ask _) _ | .op (.call _) _
  | .op (.spawn _) _ => .isFalse (by simp [Prog.head])

instance {α : Type} : (p : Prog σ α) → Decidable (p.head = none)
  | .done _ => .isTrue rfl
  | .op _ _ => .isFalse (by simp [Prog.head])

variable {M} in
/-- A thread that was not woken cannot go on. -/
theorem next_of_asleep {s : State σ μ} {t : σ.Thread} {c : σ.Cond} {l : σ.Lock}
    (hhead : (s.prog t).head = some (.resume c l)) (hasleep : t ∈ s.shared.asleep c)
    (choice : Choice σ) : M.next s (.step t choice) = none := by
  cases hprog : s.prog t with
  | done a => simp [hprog, Prog.head] at hhead
  | op o k =>
      obtain rfl : o = .resume c l := by simpa [hprog, Prog.head] using hhead
      cases choice <;> simp [next, hprog, exec, hasleep]

variable {M} in
/-- A thread cannot acquire a mutex that is held. -/
theorem next_of_held {s : State σ μ} {t u : σ.Thread} {l : σ.Lock}
    (hhead : (s.prog t).head = some (.acquire l)) (hheld : s.shared.held l = some u)
    (choice : Choice σ) : M.next s (.step t choice) = none := by
  cases hprog : s.prog t with
  | done a => simp [hprog, Prog.head] at hhead
  | op o k =>
      obtain rfl : o = .acquire l := by simpa [hprog, Prog.head] using hhead
      cases choice <;> simp [next, hprog, exec, hheld]

/-- The machine with a record of the calls each thread was given, the latest first. -/
def recording : Machine σ (μ × (σ.Thread → List σ.Call)) where
  body := M.body
  main := M.main
  entry t c m := (M.entry t c m.1).map fun (m', p) =>
    ((m', Function.update m.2 t (c :: m.2 t)), p)
  load x m := M.load x m.1
  store t x m := (M.store t x m.1, m.2)
  reply t q a m := (M.reply t q a m.1).map fun m' => (m', m.2)

variable {M} in
/-- A step of the recording machine is one of the machine, and records no call. -/
theorem Effect.forget {s s' : Shared σ (μ × (σ.Thread → List σ.Call))} {t : σ.Thread}
    {o : Op σ} {r : o.Result} (h : M.recording.Effect s t o r s') :
    M.Effect s.forget t o r s'.forget ∧ s'.memory.2 = s.memory.2 := by
  cases h with
  | acquire hfree => exact ⟨.acquire hfree, rfl⟩
  | release hheld => exact ⟨.release hheld, rfl⟩
  | wait hheld => exact ⟨.wait hheld, rfl⟩
  | resume hawake hfree => exact ⟨.resume hawake hfree, rfl⟩
  | unheard hnone => exact ⟨.unheard hnone, rfl⟩
  | signal hasleep => exact ⟨.signal hasleep, rfl⟩
  | broadcast => exact ⟨.broadcast, rfl⟩
  | load => exact ⟨.load, rfl⟩
  | store => exact ⟨.store, rfl⟩
  | ask hreply =>
      obtain ⟨m, hm, rfl⟩ := Option.map_eq_some_iff.mp hreply
      exact ⟨.ask hm, rfl⟩
  | spawn => exact ⟨.spawn, rfl⟩

/-- The runs of a machine from one state. -/
def system (s₀ : State σ μ) : System (State σ μ) (Label σ) := .ofFunction (· = s₀) M.next

/-- Labels that can be taken in order. -/
def follow (s : State σ μ) (ls : List (Label σ)) : Option (State σ μ) :=
  System.follow M.next (fun _ _ => True) s ls

/-- The labels lead to a state with the property. -/
theorem exists_of_follow (s₀ : State σ μ) (C : State σ μ → Label σ → Prop)
    [∀ s l, Decidable (C s l)] (P : State σ μ → Prop) [DecidablePred P] (ls : List (Label σ))
    (h : (System.follow M.next C s₀ ls).any (fun s => decide (P s)) = true) :
    ∃ s, ((M.system s₀).restrict C).Reachable s ∧ P s :=
  System.exists_of_follow ls rfl h

theorem reachable_of_follow (s₀ : State σ μ) {s : State σ μ} (ls : List (Label σ))
    (h : M.follow s₀ ls = some s) : (M.system s₀).Reachable s :=
  .of_restrict (System.reachable_follow ls (.start rfl) h)

end Machine

namespace State

variable {s : State σ (μ × (σ.Thread → List σ.Call))}

/-- A state in which no call was made. -/
def recorded (s : State σ μ) : State σ (μ × (σ.Thread → List σ.Call)) where
  prog := s.prog
  shared :=
    { held := s.shared.held
      asleep := s.shared.asleep
      memory := (s.shared.memory, fun _ => []) }

/-- Without the record of the calls. -/
def forget (s : State σ (μ × (σ.Thread → List σ.Call))) : State σ μ where
  prog := s.prog
  shared := s.shared.forget

/-- The calls a thread was given, the latest first. -/
def calls (s : State σ (μ × (σ.Thread → List σ.Call))) (t : σ.Thread) : List σ.Call :=
  s.shared.memory.2 t

/-- The thread was given this call, and it has returned. -/
def Returned (s : State σ (μ × (σ.Thread → List σ.Call))) (t : σ.Thread) (c : σ.Call) : Prop :=
  c ∈ (s.calls t).tail ∨ c ∈ s.calls t ∧ (s.prog t).head = none

instance [DecidableEq σ.Call] (t : σ.Thread) (c : σ.Call) : Decidable (s.Returned t c) :=
  inferInstanceAs (Decidable (_ ∨ _ ∧ _))

end State

namespace Machine

variable {M : Machine σ μ}

/-- The recording machine does what the machine does. -/
theorem exec_forget (s : Shared σ (μ × (σ.Thread → List σ.Call))) (t : σ.Thread) (o : Op σ)
    (c : Choice σ) :
    M.exec s.forget t o c = (M.recording.exec s t o c).map fun x => (x.1, x.2.forget) := by
  cases o with
  | ask q =>
      cases c with
      | go | wake u => rfl
      | answer a =>
          show Option.map _ _ = Option.map _ (Option.map _ (Option.map _ _))
          rw [Option.map_map, Option.map_map]
          rfl
  | acquire l | release l | wait d l =>
      cases c with
      | go =>
          rw [exec, exec, apply_ite (Option.map _)]
          rfl
      | answer a | wake u => rfl
  | resume d l =>
      cases c with
      | go =>
          rw [exec, exec, apply_ite (Option.map _)]
          rfl
      | answer a | wake u => rfl
  | signal d =>
      cases c with
      | go | wake u =>
          rw [exec, exec, apply_ite (Option.map _)]
          rfl
      | answer a => rfl
  | broadcast d | load x | store x | spawn u | call p => cases c <;> rfl

theorem next_forget {s s' : State σ (μ × (σ.Thread → List σ.Call))} {l : Label σ}
    (h : M.recording.next s l = some s') : M.next s.forget l = some s'.forget := by
  cases l with
  | step t c =>
      simp only [next, State.forget] at h ⊢
      split at h
      · cases h
      · cases c <;> cases h
        rfl
      · rw [exec_forget]
        obtain ⟨x, hx, rfl⟩ := Option.map_eq_some_iff.mp h
        rw [hx]
        rfl
      · split at h
        · rw [exec_forget]
          obtain ⟨x, hx, rfl⟩ := Option.map_eq_some_iff.mp h
          rw [hx]
          rfl
        · cases h
      · rw [exec_forget]
        obtain ⟨x, hx, rfl⟩ := Option.map_eq_some_iff.mp h
        rw [hx]
        rfl
  | spurious t =>
      simp only [next, State.forget] at h ⊢
      split at h
      · split at h
        · cases h
          rename_i hasleep
          exact if_pos hasleep
        · cases h
      · cases h
  | enter t c =>
      simp only [next, State.forget] at h ⊢
      split at h
      · obtain ⟨x, hx, rfl⟩ := Option.map_eq_some_iff.mp h
        obtain ⟨y, hy, rfl⟩ := Option.map_eq_some_iff.mp hx
        exact Option.map_eq_some_iff.mpr ⟨y, hy, rfl⟩
      · cases h

/-- So its runs are runs of the machine. -/
theorem reachable_forget {s₀ : State σ μ} {s : State σ (μ × (σ.Thread → List σ.Call))}
    (h : (M.recording.system s₀.recorded).Reachable s) : (M.system s₀).Reachable s.forget := by
  apply h.invariant (I := fun s => (M.system s₀).Reachable s.forget)
  · rintro s rfl
    exact .start rfl
  · intro s l s' hs hstep
    exact hs.step (next_forget hstep)

end Machine

end HPQueue.Library.Threads
