import HPQueue.Library.Threads

/-!
# Protocols that programs obey

What a group of threads guarantees together seldom depends on every step of their
programs.  A `Protocol` names the phases a thread goes through, and says which
operations are allowed in a phase and to which phase they lead.  That a program
keeps to the protocol (`Conforms`) is a fact about its text, and evaluates like a
precondition: each operation is looked up in the protocol, and each procedure is
used by its specification.

The protocol then stands for the programs: whatever the threads do, their phases
move as it says (`Moves`), and an invariant of phases and shared state that every
move preserves holds of every run.

## Main results

* `Conforms.bind`, `Conforms.mono`, `Conforms.forEach` — the rules for programs.
* `moves_of_next` — a step of the machine is a move of the protocol.
* `Protocol.invariant` — the invariant rule.
-/

namespace HPQueue.Library.Threads

open Library.Transition

/-- The phases of threads, and the operations that lead from one to another. -/
structure Protocol (σ : Signature) (Φ : Type) where
  /-- The phase after an operation with this result; none if it is not allowed. -/
  trans : σ.Thread → Φ → (o : Op σ) → o.Result → Option Φ
  /-- The phases in which a procedure may be called. -/
  pre : σ.Thread → σ.Proc → Φ → Prop
  /-- The results and the phases in which it may return. -/
  post : σ.Thread → σ.Proc → Φ → Int → Φ → Prop
  /-- The phases in which a thread may have nothing left to do. -/
  final : σ.Thread → Φ → Prop
  /-- The phase in which a thread begins a call. -/
  enter : σ.Thread → σ.Call → Φ → Φ := fun _ _ φ => φ
  /-- The phase in which a thread begins once it is created. -/
  born : σ.Thread → Φ → Φ := fun _ φ => φ

variable {σ : Signature} {Φ α β : Type}

/-- From phase `φ`, the program of thread `t` performs what the protocol allows,
and if it comes to an end, then with a result and in a phase that meet `Q`. -/
def Conforms (A : Protocol σ Φ) (t : σ.Thread) :
    Φ → Prog σ α → (α → Φ → Prop) → Prop
  | φ, .done a, Q => Q a φ
  | φ, .op (.wait c l) k, Q =>
      ∃ φ₁, A.trans t φ (.wait c l) () = some φ₁ ∧
        ∃ φ₂, A.trans t φ₁ (.resume c l) () = some φ₂ ∧ Conforms A t φ₂ (k ()) Q
  | φ, .op (.call p) k, Q =>
      A.pre t p φ ∧ ∀ a φ', A.post t p φ a φ' → Conforms A t φ' (k a) Q
  | φ, .op (.acquire l) k, Q =>
      ∃ φ', A.trans t φ (.acquire l) () = some φ' ∧ Conforms A t φ' (k ()) Q
  | φ, .op (.release l) k, Q =>
      ∃ φ', A.trans t φ (.release l) () = some φ' ∧ Conforms A t φ' (k ()) Q
  | φ, .op (.resume c l) k, Q =>
      ∃ φ', A.trans t φ (.resume c l) () = some φ' ∧ Conforms A t φ' (k ()) Q
  | φ, .op (.signal c) k, Q =>
      ∃ φ', A.trans t φ (.signal c) () = some φ' ∧ Conforms A t φ' (k ()) Q
  | φ, .op (.broadcast c) k, Q =>
      ∃ φ', A.trans t φ (.broadcast c) () = some φ' ∧ Conforms A t φ' (k ()) Q
  | φ, .op (.load x) k, Q =>
      ∀ b, ∃ φ', A.trans t φ (.load x) b = some φ' ∧ Conforms A t φ' (k b) Q
  | φ, .op (.store x) k, Q =>
      ∃ φ', A.trans t φ (.store x) () = some φ' ∧ Conforms A t φ' (k ()) Q
  | φ, .op (.ask q) k, Q =>
      ∀ a, ∃ φ', A.trans t φ (.ask q) a = some φ' ∧ Conforms A t φ' (k a) Q
  | φ, .op (.spawn u) k, Q =>
      ∃ φ', A.trans t φ (.spawn u) () = some φ' ∧ Conforms A t φ' (k ()) Q

namespace Conforms

variable {A : Protocol σ Φ} {t : σ.Thread}

/-- The rule of consequence. -/
theorem mono {φ : Φ} {p : Prog σ α} {Q Q' : α → Φ → Prop} (h : Conforms A t φ p Q)
    (hQ : ∀ a φ, Q a φ → Q' a φ) : Conforms A t φ p Q' := by
  induction p generalizing φ with
  | done a => exact hQ a φ h
  | op o k ih =>
      cases o with
      | wait c l =>
          obtain ⟨φ₁, h₁, φ₂, h₂, h⟩ := h
          exact ⟨φ₁, h₁, φ₂, h₂, ih _ h⟩
      | call p => exact ⟨h.1, fun a φ' ha => ih a (h.2 a φ' ha)⟩
      | load x =>
          intro b
          obtain ⟨φ', hφ, h⟩ := h b
          exact ⟨φ', hφ, ih b h⟩
      | ask q =>
          intro a
          obtain ⟨φ', hφ, h⟩ := h a
          exact ⟨φ', hφ, ih a h⟩
      | acquire l | release l | resume c l | signal c | broadcast c | store x | spawn u =>
          obtain ⟨φ', hφ, h⟩ := h
          exact ⟨φ', hφ, ih () h⟩

/-- The rule of sequence. -/
theorem bind {φ : Φ} {p : Prog σ α} {f : α → Prog σ β} {Q : α → Φ → Prop} {R : β → Φ → Prop}
    (h : Conforms A t φ p Q) (hf : ∀ a φ, Q a φ → Conforms A t φ (f a) R) :
    Conforms A t φ (p.bind f) R := by
  induction p generalizing φ with
  | done a => exact hf a φ h
  | op o k ih =>
      cases o with
      | wait c l =>
          obtain ⟨φ₁, h₁, φ₂, h₂, h⟩ := h
          exact ⟨φ₁, h₁, φ₂, h₂, ih _ h⟩
      | call p => exact ⟨h.1, fun a φ' ha => ih a (h.2 a φ' ha)⟩
      | load x =>
          intro b
          obtain ⟨φ', hφ, h⟩ := h b
          exact ⟨φ', hφ, ih b h⟩
      | ask q =>
          intro a
          obtain ⟨φ', hφ, h⟩ := h a
          exact ⟨φ', hφ, ih a h⟩
      | acquire l | release l | resume c l | signal c | broadcast c | store x | spawn u =>
          obtain ⟨φ', hφ, h⟩ := h
          exact ⟨φ', hφ, ih () h⟩

theorem ite_iff {c : Prop} [Decidable c] {φ : Φ} {p q : Prog σ α} {Q : α → Φ → Prop} :
    Conforms A t φ (if c then p else q) Q ↔
      (c → Conforms A t φ p Q) ∧ (¬ c → Conforms A t φ q Q) := by
  split <;> simp_all

/-- The rule for a loop over a list: the invariant speaks of the elements left. -/
theorem forEach {f : α → Prog σ Unit} {I : List α → Φ → Prop}
    (hf : ∀ a as φ, I (a :: as) φ → Conforms A t φ (f a) fun _ => I as) {as : List α} {φ : Φ}
    (h : I as φ) : Conforms A t φ (Prog.forEach as f) fun _ => I [] := by
  induction as generalizing φ with
  | nil => exact h
  | cons a as ih => exact (hf a as φ h).bind fun _ φ' h' => ih h'

/-- A program with nothing left to do has met its postcondition. -/
theorem post_of_head {φ : Φ} {p : Prog σ α} {Q : α → Φ → Prop} (h : Conforms A t φ p Q)
    (hhead : p.head = none) : ∃ a, Q a φ := by
  cases p with
  | done a => exact ⟨a, h⟩
  | op o k => cases hhead

/-- The protocol allows the operation a program is about to perform. -/
theorem trans_of_head {φ : Φ} {p : Prog σ α} {Q : α → Φ → Prop} (h : Conforms A t φ p Q)
    {o : Op σ} (hhead : p.head = some o) (hcall : ∀ q, o ≠ .call q) (r : o.Result) :
    ∃ ψ, A.trans t φ o r = some ψ := by
  cases p with
  | done b => cases hhead
  | op o' k =>
      obtain rfl : o' = o := Option.some.inj hhead
      cases o' with
      | wait c l =>
          obtain ⟨ψ, hψ, -⟩ := h
          exact ⟨ψ, hψ⟩
      | call q => exact absurd rfl (hcall q)
      | load x | ask q =>
          obtain ⟨ψ, hψ, -⟩ := h r
          exact ⟨ψ, hψ⟩
      | acquire l | release l | resume c l | signal c | broadcast c | store x | spawn u =>
          obtain ⟨ψ, hψ, -⟩ := h
          exact ⟨ψ, hψ⟩

/-- It allows the call that a program is about to make. -/
theorem pre_of_head {φ : Φ} {p : Prog σ α} {Q : α → Φ → Prop} (h : Conforms A t φ p Q)
    {q : σ.Proc} (hhead : p.head = some (.call q)) : A.pre t q φ := by
  cases p with
  | done b => cases hhead
  | op o k =>
      obtain rfl : o = .call q := Option.some.inj hhead
      exact h.1

end Conforms

/-! ## Programs a phase does not notice -/

/-- Every operation the program may perform meets `P`. -/
@[simp] def Prog.Only (P : Op σ → Prop) : Prog σ α → Prop
  | .done _ => True
  | .op o k => P o ∧ ∀ r, (k r).Only P

namespace Prog.Only

variable {P : Op σ → Prop}

theorem bind {p : Prog σ α} {f : α → Prog σ β} (h : p.Only P) (hf : ∀ a, (f a).Only P) :
    (p.bind f).Only P := by
  induction p with
  | done a => exact hf a
  | op o k ih => exact ⟨h.1, fun r => ih r (h.2 r)⟩

theorem forEach {f : α → Prog σ Unit} {as : List α} (hf : ∀ a, (f a).Only P) :
    (Prog.forEach as f).Only P := by
  induction as with
  | nil => trivial
  | cons a as ih => exact (hf a).bind fun _ => ih

theorem mono {P' : Op σ → Prop} {p : Prog σ α} (h : p.Only P) (hP : ∀ o, P o → P' o) :
    p.Only P' := by
  induction p with
  | done a => trivial
  | op o k ih => exact ⟨hP o h.1, fun r => ih r (h.2 r)⟩

theorem ite_iff {c : Prop} [Decidable c] {p q : Prog σ α} :
    (if c then p else q).Only P ↔ (c → p.Only P) ∧ (¬ c → q.Only P) := by
  split <;> simp_all

end Prog.Only

/-- A program whose operations leave the phase as it is conforms, and leaves it. -/
theorem Conforms.of_only {A : Protocol σ Φ} {t : σ.Thread} {φ : Φ} {P : Op σ → Prop}
    {p : Prog σ α} (hp : p.Only P) (hop : ∀ o r, P o → A.trans t φ o r = some φ)
    (hresume : ∀ c l, P (.wait c l) → A.trans t φ (.resume c l) () = some φ)
    (hcall : ∀ q, P (.call q) → A.pre t q φ ∧ ∀ a ψ, A.post t q φ a ψ → ψ = φ) :
    Conforms A t φ p fun _ ψ => ψ = φ := by
  induction p with
  | done a => exact rfl
  | op o k ih =>
      obtain ⟨ho, hk⟩ := hp
      cases o with
      | wait c l => exact ⟨φ, hop _ _ ho, φ, hresume c l ho, ih () (hk ())⟩
      | call q =>
          obtain ⟨hpre, hpost⟩ := hcall q ho
          refine ⟨hpre, ?_⟩
          intro a ψ hψ
          obtain rfl := hpost a ψ hψ
          exact ih a (hk a)
      | load x => exact fun b => ⟨φ, hop _ _ ho, ih b (hk b)⟩
      | ask q => exact fun a => ⟨φ, hop _ _ ho, ih a (hk a)⟩
      | acquire l | release l | resume c l | signal c | broadcast c | store x | spawn u =>
          exact ⟨φ, hop _ _ ho, ih () (hk ())⟩

/-- The operation leaves the phase `φ` as it is. -/
def Protocol.Keeps (A : Protocol σ Φ) (t : σ.Thread) (φ : Φ) : Op σ → Prop
  | .wait c l => A.trans t φ (.wait c l) () = some φ ∧ A.trans t φ (.resume c l) () = some φ
  | .call p => A.pre t p φ ∧ ∀ a ψ, A.post t p φ a ψ → ψ = φ
  | o => ∀ r, A.trans t φ o r = some φ

theorem Conforms.of_keeps {A : Protocol σ Φ} {t : σ.Thread} {φ : Φ} {p : Prog σ α}
    (hp : p.Only (A.Keeps t φ)) : Conforms A t φ p fun _ ψ => ψ = φ := by
  induction p with
  | done a => exact rfl
  | op o k ih =>
      obtain ⟨ho, hk⟩ := hp
      cases o with
      | wait c l => exact ⟨φ, ho.1, φ, ho.2, ih () (hk ())⟩
      | call q =>
          refine ⟨ho.1, ?_⟩
          intro a ψ hψ
          obtain rfl := ho.2 a ψ hψ
          exact ih a (hk a)
      | load x => exact fun b => ⟨φ, ho b, ih b (hk b)⟩
      | ask q => exact fun a => ⟨φ, ho a, ih a (hk a)⟩
      | acquire l | release l | resume c l | signal c | broadcast c | store x | spawn u =>
          exact ⟨φ, ho (), ih () (hk ())⟩

/-- A program conforms to two protocols that agree on what it does, if the second asks no more
of the calls and promises no less. -/
theorem Conforms.congr {A B : Protocol σ Φ} {t : σ.Thread} {P : Op σ → Prop} {p : Prog σ α}
    {φ : Φ} {Q : α → Φ → Prop} (h : Conforms A t φ p Q) (hp : p.Only P)
    (htrans : ∀ φ o r, P o → B.trans t φ o r = A.trans t φ o r)
    (hresume : ∀ φ c l, B.trans t φ (.resume c l) () = A.trans t φ (.resume c l) ())
    (hpre : ∀ q φ, A.pre t q φ → B.pre t q φ)
    (hpost : ∀ q φ a ψ, B.post t q φ a ψ → A.post t q φ a ψ) : Conforms B t φ p Q := by
  induction p generalizing φ with
  | done a => exact h
  | op o k ih =>
      obtain ⟨ho, hk⟩ := hp
      cases o with
      | wait c l =>
          obtain ⟨φ₁, h₁, φ₂, h₂, h⟩ := h
          exact ⟨φ₁, (htrans _ _ _ ho).trans h₁, φ₂, (hresume _ _ _).trans h₂, ih () h (hk ())⟩
      | call q => exact ⟨hpre q φ h.1, fun a ψ hψ => ih a (h.2 a ψ (hpost q φ a ψ hψ)) (hk a)⟩
      | load x | ask q =>
          intro r
          obtain ⟨ψ, hψ, h⟩ := h r
          exact ⟨ψ, (htrans _ _ _ ho).trans hψ, ih r h (hk r)⟩
      | acquire l | release l | resume c l | signal c | broadcast c | store x | spawn u =>
          obtain ⟨ψ, hψ, h⟩ := h
          exact ⟨ψ, (htrans _ _ _ ho).trans hψ, ih () h (hk ())⟩

/-! ## Phases that nobody is in -/

/-- In the phases `N` anything may be done, and nothing leads out of them. -/
structure Protocol.Absorbs (A : Protocol σ Φ) (N : Φ → Prop) : Prop where
  trans : ∀ t φ o r, N φ → ∃ ψ, A.trans t φ o r = some ψ ∧ N ψ
  pre : ∀ t p φ, N φ → A.pre t p φ
  post : ∀ t p φ a ψ, N φ → A.post t p φ a ψ → N ψ

namespace Protocol.Absorbs

variable {A : Protocol σ Φ} {N : Φ → Prop} {t : σ.Thread} {φ : Φ}

/-- There may be no such phase. -/
theorem nowhere (A : Protocol σ Φ) : A.Absorbs fun _ => False where
  trans := fun _ _ _ _ h => h.elim
  pre := fun _ _ _ h => h.elim
  post := fun _ _ _ _ _ h => h.elim

theorem conforms (hA : A.Absorbs N) (h : N φ) (p : Prog σ α) :
    Conforms A t φ p fun _ => N := by
  induction p generalizing φ with
  | done a => exact h
  | op o k ih =>
      cases o with
      | wait c l =>
          obtain ⟨φ₁, h₁, hN₁⟩ := hA.trans t φ (.wait c l) () h
          obtain ⟨φ₂, h₂, hN₂⟩ := hA.trans t φ₁ (.resume c l) () hN₁
          exact ⟨φ₁, h₁, φ₂, h₂, ih () hN₂⟩
      | call p => exact ⟨hA.pre t p φ h, fun a ψ hψ => ih a (hA.post t p φ a ψ h hψ)⟩
      | load x | ask q =>
          intro r
          exact (hA.trans t φ _ r h).imp fun ψ hψ => ⟨hψ.1, ih r hψ.2⟩
      | acquire l | release l | resume c l | signal c | broadcast c | store x | spawn u =>
          exact (hA.trans t φ _ _ h).imp fun ψ hψ => ⟨hψ.1, ih () hψ.2⟩

/-- The rule of sequence, where the first part may end in `N`. -/
theorem bind (hA : A.Absorbs N) {p : Prog σ α} {q : α → Prog σ β} {Q : α → Φ → Prop}
    {R : β → Φ → Prop} (hp : Conforms A t φ p fun a ψ => N ψ ∨ Q a ψ)
    (hq : ∀ a ψ, Q a ψ → Conforms A t ψ (q a) fun b χ => N χ ∨ R b χ) :
    Conforms A t φ (p.bind q) fun b χ => N χ ∨ R b χ := by
  apply hp.bind
  rintro a ψ (hψ | hψ)
  · exact (hA.conforms hψ (q a)).mono fun _ _ h => .inl h
  · exact hq a ψ hψ

end Protocol.Absorbs

/-! ## From programs to phases -/

variable {μ : Type} [DecidableEq σ.Thread] [DecidableEq σ.Lock] [DecidableEq σ.Cond]

/-- The programs of a machine keep to the protocol. -/
structure Protocol.Obeyed (A : Protocol σ Φ) (M : Machine σ μ) : Prop where
  body : ∀ t p φ, A.pre t p φ → Conforms A t φ (M.body p) (A.post t p φ)
  main : ∀ t φ, A.final t φ → Conforms A t (A.born t φ) (M.main t) fun _ => A.final t
  entry : ∀ t c m m' p φ, M.entry t c m = some (m', p) → A.final t φ →
    Conforms A t (A.enter t c φ) p fun _ => A.final t

omit [DecidableEq σ.Lock] [DecidableEq σ.Cond] in
theorem Protocol.Obeyed.recording {A : Protocol σ Φ} {M : Machine σ μ} (hA : A.Obeyed M) :
    A.Obeyed M.recording where
  body := hA.body
  main := hA.main
  entry := by
    intro t c m m' p φ hentry hφ
    obtain ⟨⟨m₁, p₁⟩, hentry₁, hp⟩ := Option.map_eq_some_iff.mp hentry
    obtain rfl : p₁ = p := (Prod.ext_iff.mp hp).2
    exact hA.entry t c m.1 m₁ p₁ φ hentry₁ hφ

/-- What threads have left to do keeps to the protocol. -/
def Protocol.Obeys (A : Protocol σ Φ) (φ : σ.Thread → Φ) (s : State σ μ) : Prop :=
  ∀ t, Conforms A t (φ t) (s.prog t) fun _ => A.final t

omit [DecidableEq σ.Lock] [DecidableEq σ.Cond] in
/-- The phases of threads that the operation creates. -/
def Protocol.births (A : Protocol σ Φ) (φ : σ.Thread → Φ) : Op σ → σ.Thread → Φ
  | .spawn u => Function.update φ u (A.born u (φ u))
  | _ => φ

omit [DecidableEq σ.Lock] [DecidableEq σ.Cond] in
/-- A protocol that does not tell a thread that was created from one that was not. -/
theorem Protocol.births_eq {A : Protocol σ Φ} (hborn : ∀ t φ, A.born t φ = φ) {φ : σ.Thread → Φ}
    {o : Op σ} : A.births φ o = φ := by
  cases o <;> simp [births, hborn]

omit [DecidableEq σ.Lock] [DecidableEq σ.Cond] in
theorem Protocol.births_of_ne {A : Protocol σ Φ} {φ : σ.Thread → Φ} {o : Op σ}
    (h : ∀ u, o ≠ .spawn u) : A.births φ o = φ := by
  cases o with
  | spawn u => exact absurd rfl (h u)
  | acquire l | release l | wait c l | resume c l | signal c | broadcast c | load x | store x
  | ask q | call p => rfl

/-- What a step is to the protocol: one thread performs one operation; or what is
shared stays as it is; or a thread wakes, or is given a call. -/
inductive Moves (A : Protocol σ Φ) (M : Machine σ μ) (φ : σ.Thread → Φ) (s : State σ μ) :
    Label σ → (σ.Thread → Φ) → Shared σ μ → Prop
  | act {t : σ.Thread} {c : Choice σ} {o : Op σ} {r : o.Result} {shared : Shared σ μ} {ψ : Φ}
      (hhead : (s.prog t).head = some o) (hexec : M.exec s.shared t o c = some (r, shared))
      (htrans : A.trans t (φ t) o r = some ψ)
      (hspawn : ∀ u, o = .spawn u → A.final u (φ u)) :
      Moves A M φ s (.step t c) (Function.update (A.births φ o) t ψ) shared
  | silent {t : σ.Thread} : Moves A M φ s (.step t .go) φ s.shared
  | spurious {t : σ.Thread} {c : σ.Cond} {l : σ.Lock} {ψ : Φ}
      (hhead : (s.prog t).head = some (.resume c l)) (hasleep : t ∈ s.shared.asleep c)
      (htrans : A.trans t (φ t) (.resume c l) () = some ψ) :
      Moves A M φ s (.spurious t) φ (s.shared.sleep c ((s.shared.asleep c).erase t))
  | enter {t : σ.Thread} {c : σ.Call} {m : μ} {p : Prog σ Unit} {u : Unit}
      (hdone : s.prog t = .done u) (hentry : M.entry t c s.shared.memory = some (m, p))
      (hfinal : A.final t (φ t)) :
      Moves A M φ s (.enter t c) (Function.update φ t (A.enter t c (φ t)))
        { s.shared with memory := m }

/-- A step of the machine is a move of the protocol. -/
theorem moves_of_next {A : Protocol σ Φ} {M : Machine σ μ} (hA : A.Obeyed M)
    {φ : σ.Thread → Φ} {s s' : State σ μ} {l : Label σ} (hs : A.Obeys φ s)
    (hstep : M.next s l = some s') :
    ∃ φ', Moves A M φ s l φ' s'.shared ∧ A.Obeys φ' s' := by
  have hothers : ∀ {t : σ.Thread} {ψ : Φ} {p : Prog σ Unit} {shared : Shared σ μ},
      Conforms A t ψ p (fun _ => A.final t) →
      A.Obeys (Function.update φ t ψ) ⟨Function.update s.prog t p, shared⟩ := by
    intro t ψ p shared hp u
    by_cases hut : u = t
    · subst hut
      simpa using hp
    · simpa [hut] using hs u
  have hsame : ∀ {t : σ.Thread} {p : Prog σ Unit} {shared : Shared σ μ},
      Conforms A t (φ t) p (fun _ => A.final t) →
      A.Obeys φ ⟨Function.update s.prog t p, shared⟩ := by
    intro t p shared hp
    simpa using hothers (ψ := φ t) hp
  cases l with
  | step t c =>
      have ht := hs t
      unfold Machine.next at hstep
      cases hprog : s.prog t with
      | done a => simp [hprog] at hstep
      | op o k =>
          have hhead : (s.prog t).head = some o := by rw [hprog]; rfl
          rw [hprog] at ht
          cases o with
          | call p =>
              cases c with
              | go =>
                  obtain rfl : _ = s' := by simpa [hprog] using hstep
                  obtain ⟨hpre, hpost⟩ := ht
                  exact ⟨φ, .silent, hsame ((hA.body t p (φ t) hpre).bind hpost)⟩
              | answer a => simp [hprog] at hstep
              | wake u => simp [hprog] at hstep
          | wait c' l =>
              simp only [hprog] at hstep
              obtain ⟨⟨r, shared⟩, hexec, rfl⟩ := Option.map_eq_some_iff.mp hstep
              obtain ⟨φ₁, h₁, φ₂, h₂, ht⟩ := ht
              exact ⟨_, .act hhead hexec h₁ (by simp), hothers ⟨φ₂, h₂, ht⟩⟩
          | spawn u =>
              simp only [hprog] at hstep
              split at hstep
              · rename_i a hdone
                obtain ⟨⟨r, shared⟩, hexec, rfl⟩ := Option.map_eq_some_iff.mp hstep
                obtain ⟨ψ, hψ, ht⟩ := ht
                have hfinal : A.final u (φ u) := by
                  have hu := hs u
                  rwa [hdone] at hu
                refine ⟨_, .act hhead hexec hψ (by simpa using hfinal), ?_⟩
                intro v
                by_cases hvt : v = t
                · subst hvt
                  simpa using ht
                · by_cases hvu : v = u
                  · subst hvu
                    simpa [hvt, Protocol.births] using hA.main v (φ v) hfinal
                  · simpa [hvt, hvu, Protocol.births] using hs v
              · cases hstep
          | load x =>
              simp only [hprog] at hstep
              obtain ⟨⟨r, shared⟩, hexec, rfl⟩ := Option.map_eq_some_iff.mp hstep
              obtain ⟨ψ, hψ, ht⟩ := ht r
              exact ⟨_, .act hhead hexec hψ (by simp), hothers ht⟩
          | ask q =>
              simp only [hprog] at hstep
              obtain ⟨⟨r, shared⟩, hexec, rfl⟩ := Option.map_eq_some_iff.mp hstep
              obtain ⟨ψ, hψ, ht⟩ := ht r
              exact ⟨_, .act hhead hexec hψ (by simp), hothers ht⟩
          | acquire l | release l | resume c' l | signal c' | broadcast c' | store x =>
              simp only [hprog] at hstep
              obtain ⟨⟨r, shared⟩, hexec, rfl⟩ := Option.map_eq_some_iff.mp hstep
              obtain ⟨ψ, hψ, ht⟩ := ht
              exact ⟨_, .act hhead hexec hψ (by simp), hothers ht⟩
  | spurious t =>
      have ht := hs t
      unfold Machine.next at hstep
      simp only at hstep
      split at hstep
      · rename_i c l k hprog
        split at hstep
        · rename_i hasleep
          obtain rfl := Option.some.inj hstep
          rw [hprog] at ht
          obtain ⟨ψ, hψ, -⟩ := ht
          exact ⟨φ, .spurious (by rw [hprog]; rfl) hasleep hψ, hs⟩
        · cases hstep
      · cases hstep
  | enter t c =>
      have ht := hs t
      unfold Machine.next at hstep
      simp only at hstep
      split at hstep
      · rename_i u hprog
        obtain ⟨⟨m, p⟩, hentry, rfl⟩ := Option.map_eq_some_iff.mp hstep
        rw [hprog] at ht
        exact ⟨_, .enter hprog hentry ht, hothers (hA.entry t c _ m p (φ t) hentry ht)⟩
      · cases hstep

/-- The invariant rule: an invariant of phases and shared state that every move
preserves, as long as its step meets `C`, holds in every state reached. -/
theorem Protocol.invariant {A : Protocol σ Φ} {M : Machine σ μ} (hA : A.Obeyed M)
    {J : (σ.Thread → Φ) → Shared σ μ → Prop} {s₀ : State σ μ} {φ₀ : σ.Thread → Φ}
    (hs₀ : A.Obeys φ₀ s₀) (hJ₀ : J φ₀ s₀.shared) {C : State σ μ → Label σ → Prop}
    (hstep : ∀ φ s l φ' shared, A.Obeys φ s → J φ s.shared → C s l →
      Moves A M φ s l φ' shared → J φ' shared)
    {s : State σ μ} (h : ((M.system s₀).restrict C).Reachable s) :
    ∃ φ, A.Obeys φ s ∧ J φ s.shared := by
  refine h.invariant (I := fun s => ∃ φ, A.Obeys φ s ∧ J φ s.shared) ?_ ?_
  · rintro s rfl
    exact ⟨φ₀, hs₀, hJ₀⟩
  · rintro s l s' ⟨φ, hs, hJ⟩ ⟨hnext, hC⟩
    obtain ⟨φ', hmoves, hs'⟩ := moves_of_next hA hs hnext
    exact ⟨φ', hs', hstep φ s l φ' s'.shared hs hJ hC hmoves⟩

/-- The invariant rule, with a case for each kind of step: an operation, a creation, a
thread that wakes, and a call. -/
theorem Protocol.invariant_of_effects {A : Protocol σ Φ} {M : Machine σ μ} (hA : A.Obeyed M)
    {J : (σ.Thread → Φ) → Shared σ μ → Prop} {s₀ : State σ μ} {φ₀ : σ.Thread → Φ}
    (hs₀ : A.Obeys φ₀ s₀) (hJ₀ : J φ₀ s₀.shared) {C : State σ μ → Label σ → Prop}
    (hact : ∀ φ s t c o r shared ψ, J φ s.shared → C s (.step t c) → (∀ u, o ≠ .spawn u) →
      M.Effect s.shared t o r shared → A.trans t (φ t) o r = some ψ →
      J (Function.update φ t ψ) shared)
    (hspawn : ∀ φ shared t u ψ, J φ shared → A.trans t (φ t) (.spawn u) () = some ψ →
      A.final u (φ u) →
      J (Function.update (Function.update φ u (A.born u (φ u))) t ψ) shared)
    (hwake : ∀ φ s t c l ψ, J φ s.shared → C s (.spurious t) →
      A.trans t (φ t) (.resume c l) () = some ψ →
      J φ (s.shared.sleep c ((s.shared.asleep c).erase t)))
    (henter : ∀ φ s t c m p, J φ s.shared → C s (.enter t c) →
      M.entry t c s.shared.memory = some (m, p) → A.final t (φ t) →
      J (Function.update φ t (A.enter t c (φ t))) { s.shared with memory := m })
    {s : State σ μ} (h : ((M.system s₀).restrict C).Reachable s) :
    ∃ φ, A.Obeys φ s ∧ J φ s.shared := by
  refine Protocol.invariant hA hs₀ hJ₀ (C := C) ?_ h
  intro φ s l φ' shared hs hJ hC hmoves
  cases hmoves with
  | @act t c o r _ ψ hhead hexec htrans hcreates =>
      cases o with
      | spawn u =>
          obtain rfl : shared = s.shared := by
            cases Machine.effect_of_exec hexec
            rfl
          exact hspawn φ s.shared t u ψ hJ htrans (hcreates u rfl)
      | acquire l | release l | wait c' l | resume c' l | signal c' | broadcast c' | load x
      | store x | ask q | call p =>
          exact hact φ s t c _ r shared ψ hJ hC (by simp) (Machine.effect_of_exec hexec) htrans
  | silent => exact hJ
  | @spurious t c l ψ hhead hasleep htrans => exact hwake φ s t c l ψ hJ hC htrans
  | @enter t c m p u hdone hentry hfinal => exact henter φ s t c m p hJ hC hentry hfinal

end HPQueue.Library.Threads
