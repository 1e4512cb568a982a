import HPQueue.Library.Protocol

/-!
# Programs in a larger setting

The programs of one component are reused where the threads are given other calls, and
where they write down what the component itself never stores, such as the result of a
call.  The operations of a program stay the same; its stores are found among others.
-/

namespace HPQueue.Library.Threads

variable {σ : Signature} {α β : Type}

/-- The names, for threads that are given the calls `κ` and take the notes `ν`. -/
abbrev Signature.extend (σ : Signature) (κ ν : Type) : Signature where
  Thread := σ.Thread
  Lock := σ.Lock
  Cond := σ.Cond
  Load := σ.Load
  Store := σ.Store ⊕ ν
  Query := σ.Query
  Proc := σ.Proc
  Call := κ

/-- The same operation. -/
@[simp] def Op.extend (κ ν : Type) : Op σ → Op (σ.extend κ ν)
  | .acquire l => .acquire l
  | .release l => .release l
  | .wait c l => .wait c l
  | .resume c l => .resume c l
  | .signal c => .signal c
  | .broadcast c => .broadcast c
  | .load x => .load x
  | .store x => .store (.inl x)
  | .ask q => .ask q
  | .call p => .call p
  | .spawn u => .spawn u

namespace Prog

variable {κ ν : Type}

/-- The same program. -/
@[simp] def extend (κ ν : Type) : Prog σ α → Prog (σ.extend κ ν) α
  | done a => done a
  | op (.acquire l) k => op (.acquire l) fun r => (k r).extend κ ν
  | op (.release l) k => op (.release l) fun r => (k r).extend κ ν
  | op (.wait c l) k => op (.wait c l) fun r => (k r).extend κ ν
  | op (.resume c l) k => op (.resume c l) fun r => (k r).extend κ ν
  | op (.signal c) k => op (.signal c) fun r => (k r).extend κ ν
  | op (.broadcast c) k => op (.broadcast c) fun r => (k r).extend κ ν
  | op (.load x) k => op (.load x) fun r => (k r).extend κ ν
  | op (.store x) k => op (.store (.inl x)) fun r => (k r).extend κ ν
  | op (.ask q) k => op (.ask q) fun r => (k r).extend κ ν
  | op (.call p) k => op (.call p) fun r => (k r).extend κ ν
  | op (.spawn u) k => op (.spawn u) fun r => (k r).extend κ ν

/-- A note. -/
def note (x : ν) : Prog (σ.extend κ ν) Unit := store (.inr x)

@[simp] theorem extend_bind (p : Prog σ α) (f : α → Prog σ β) :
    (p.bind f).extend κ ν = (p.extend κ ν).bind fun a => (f a).extend κ ν := by
  induction p with
  | done a => rfl
  | op o k ih => cases o <;> simp [ih]

@[simp] theorem extend_ite {c : Prop} [Decidable c] (p q : Prog σ α) :
    (if c then p else q).extend κ ν = if c then p.extend κ ν else q.extend κ ν := by
  split <;> rfl

theorem Only.extend {P : Op (σ.extend κ ν) → Prop} {p : Prog σ α}
    (h : p.Only fun o => P (o.extend κ ν)) : (p.extend κ ν).Only P := by
  induction p with
  | done a => trivial
  | op o k ih =>
      obtain ⟨ho, hk⟩ := h
      cases o <;> exact ⟨ho, fun r => ih r (hk r)⟩

end Prog

/-- The machine, for threads that are given other calls and take notes. -/
def Machine.extend {μ κ ν : Type} (M : Machine σ μ)
    (entry : σ.Thread → κ → μ → Option (μ × Prog (σ.extend κ ν) Unit))
    (note : σ.Thread → ν → μ → μ) : Machine (σ.extend κ ν) μ where
  body p := (M.body p).extend κ ν
  main t := (M.main t).extend κ ν
  entry := entry
  load := M.load
  store t x m := x.elim (fun x => M.store t x m) (fun x => note t x m)
  reply := M.reply

end HPQueue.Library.Threads
