import HPQueue.Library.Protocol
import Mathlib.Logic.Relation

/-!
# Mutexes acquired in order

Threads that acquire mutexes in the order of their ranks, and release what they
hold: the phase of a thread is the list of the mutexes it holds, the latest first.
If the programs of a machine keep to such a `Discipline`, threads never wait for each
other in a circle, and whoever waits for a mutex waits, from holder to holder, for a
thread that waits for none.

## Main results

* `Discipline.holds_of_reachable` — the phases are what the threads hold.
* `Discipline.not_waits_self` — nobody waits for itself, directly or not.
* `Discipline.exists_last` — who the others wait for.
-/

namespace HPQueue.Library.Threads

open Library.Transition Relation

variable {σ : Signature} {μ : Type} [DecidableEq σ.Thread] [DecidableEq σ.Lock]
  [DecidableEq σ.Cond]

/-! ## Waiting for mutexes -/

namespace State

/-- The mutex a program is about to acquire. -/
def wanted (s : State σ μ) (t : σ.Thread) : Option σ.Lock :=
  match (s.prog t).head with
  | some (.acquire l) => some l
  | some (.resume c l) => if t ∈ s.shared.asleep c then none else some l
  | _ => none

/-- The thread is about to acquire a mutex that `u` holds. -/
def WaitsFor (s : State σ μ) (t u : σ.Thread) : Prop :=
  ∃ l, s.wanted t = some l ∧ s.shared.held l = some u

/-- The thread waits for a condition, and was not signalled. -/
def Asleep (s : State σ μ) (t : σ.Thread) : Prop :=
  ∃ c l, (s.prog t).head = some (.resume c l) ∧ t ∈ s.shared.asleep c

/-- The thread is about to create another, whose program has not ended yet. -/
def Creates (s : State σ μ) (t : σ.Thread) : Prop :=
  ∃ u, (s.prog t).head = some (.spawn u) ∧ (s.prog u).head ≠ none

end State

namespace Machine

variable (M : Machine σ μ)

/-- The thread can take a step. -/
def Enabled (s : State σ μ) (t : σ.Thread) : Prop := ∃ c s', M.next s (.step t c) = some s'

/-- Every query has an answer. -/
def Answers : Prop := ∀ t q m, ∃ a m', M.reply t q a m = some m'

variable {M}

/-- What may keep a thread from going on. -/
theorem enabled_or (hanswers : M.Answers) {s : State σ μ} {t : σ.Thread} {o : Op σ}
    (hhead : (s.prog t).head = some o)
    (hheld : ∀ l, o = .release l ∨ (∃ c, o = .wait c l) → s.shared.held l = some t) :
    M.Enabled s t ∨ s.Asleep t ∨ s.Creates t ∨ ∃ u, s.WaitsFor t u := by
  have hwaits : ∀ l, s.wanted t = some l → s.shared.held l ≠ none → ∃ u, s.WaitsFor t u := by
    intro l hl hne
    obtain ⟨u, hu⟩ := Option.ne_none_iff_exists'.mp hne
    exact ⟨u, l, hl, hu⟩
  cases hprog : s.prog t with
  | done a => simp [hprog, Prog.head] at hhead
  | op o' k =>
      obtain rfl : o' = o := by simpa [hprog, Prog.head] using hhead
      cases o' with
      | acquire l =>
          by_cases hfree : s.shared.held l = none
          · exact .inl ⟨.go, _, by simp [next, hprog, exec, hfree]; rfl⟩
          · exact .inr (.inr (.inr (hwaits l (by simp [State.wanted, hhead]) hfree)))
      | release l =>
          exact .inl ⟨.go, _, by simp [next, hprog, exec, hheld l (.inl rfl)]; rfl⟩
      | wait c l =>
          exact .inl ⟨.go, _, by simp [next, hprog, exec, hheld l (.inr ⟨c, rfl⟩)]; rfl⟩
      | resume c l =>
          by_cases hasleep : t ∈ s.shared.asleep c
          · exact .inr (.inl ⟨c, l, hhead, hasleep⟩)
          · by_cases hfree : s.shared.held l = none
            · exact .inl ⟨.go, _, by simp [next, hprog, exec, hasleep, hfree]; rfl⟩
            · refine .inr (.inr (.inr (hwaits l ?_ hfree)))
              simp [State.wanted, hhead, hasleep]
      | signal c =>
          by_cases hnone : s.shared.asleep c = ∅
          · exact .inl ⟨.go, _, by simp [next, hprog, exec, hnone]; rfl⟩
          · obtain ⟨u, hu⟩ := Finset.nonempty_iff_ne_empty.mpr hnone
            exact .inl ⟨.wake u, _, by simp [next, hprog, exec, hu]; rfl⟩
      | broadcast c => exact .inl ⟨.go, _, by simp [next, hprog, exec]; rfl⟩
      | load x => exact .inl ⟨.go, _, by simp [next, hprog, exec]; rfl⟩
      | store x => exact .inl ⟨.go, _, by simp [next, hprog, exec]; rfl⟩
      | ask q =>
          obtain ⟨a, m, hm⟩ := hanswers t q s.shared.memory
          exact .inl ⟨.answer a, _, by simp [next, hprog, exec, hm]; rfl⟩
      | call p => exact .inl ⟨.go, _, by simp [next, hprog]; rfl⟩
      | spawn u =>
          cases hu : s.prog u with
          | done b => exact .inl ⟨.go, _, by simp [next, hprog, hu, exec]; rfl⟩
          | op o' k' => exact .inr (.inr (.inl ⟨u, hhead, by simp [hu, Prog.head]⟩))

end Machine

/-! ## Disciplines -/

/-- The order of the mutexes, and which of them may be held where. -/
structure Discipline (σ : Signature) where
  rank : σ.Lock → Nat
  /-- The mutexes that a thread may hold while it sleeps. -/
  sleeps : σ.Thread → List σ.Lock → Bool
  /-- The mutexes that are held when a procedure is called, and when it returns; none if
  the thread does not call it. -/
  around : σ.Thread → σ.Proc → Option (List σ.Lock)

namespace Discipline

variable (D : Discipline σ)

/-- All mutexes of the list come before this one. -/
def Before (ls : List σ.Lock) (l : σ.Lock) : Prop := ∀ k ∈ ls, D.rank k < D.rank l

instance (ls : List σ.Lock) (l : σ.Lock) : Decidable (D.Before ls l) :=
  inferInstanceAs (Decidable (∀ k ∈ ls, _))

/-- A thread in the phase `ls` holds these mutexes. -/
def protocol : Protocol σ (List σ.Lock) where
  trans t ls o _ :=
    match o with
    | .acquire l => if D.Before ls l then some (l :: ls) else none
    | .release l => if l ∈ ls then some (ls.erase l) else none
    | .wait _ l => if l ∈ ls then some (ls.erase l) else none
    | .resume _ l => if D.Before ls l ∧ D.sleeps t ls then some (l :: ls) else none
    | .signal _ | .broadcast _ | .load _ | .store _ | .ask _ | .call _ | .spawn _ => some ls
  pre t p ls := D.around t p = some ls
  post _ _ ls _ ls' := ls' = ls
  final _ ls := ls = []

section Evaluation

variable {D} {t : σ.Thread} {ls ls' : List σ.Lock} {l : σ.Lock} {c : σ.Cond}

omit [DecidableEq σ.Thread] [DecidableEq σ.Cond]

theorem trans_acquire :
    D.protocol.trans t ls (.acquire l) () = some ls' ↔ D.Before ls l ∧ l :: ls = ls' := by
  simp [protocol]

theorem trans_release :
    D.protocol.trans t ls (.release l) () = some ls' ↔ l ∈ ls ∧ ls.erase l = ls' := by
  simp [protocol]

theorem trans_wait :
    D.protocol.trans t ls (.wait c l) () = some ls' ↔ l ∈ ls ∧ ls.erase l = ls' := by
  simp [protocol]

theorem trans_resume :
    D.protocol.trans t ls (.resume c l) () = some ls' ↔
      (D.Before ls l ∧ D.sleeps t ls = true) ∧ l :: ls = ls' := by
  simp [protocol]

end Evaluation

/-- The phases are what the threads hold. -/
structure Holds (φ : σ.Thread → List σ.Lock) (s : Shared σ μ) : Prop where
  iff : ∀ t l, l ∈ φ t ↔ s.held l = some t
  nodup : ∀ t, (φ t).Nodup

variable {D} {M : Machine σ μ} {φ : σ.Thread → List σ.Lock} {s s' : Shared σ μ} {t : σ.Thread}
  {l : σ.Lock}

namespace Holds

omit [DecidableEq σ.Cond] in
/-- A thread acquires a mutex that is free. -/
theorem acquire (h : Holds φ s) (hfree : s.held l = none) :
    Holds (Function.update φ t (l :: φ t)) (s.lock l (some t)) where
  iff := by
    intro u k
    by_cases hut : u = t
    · subst hut
      by_cases hkl : k = l
      · simp [hkl, Shared.lock]
      · simp [hkl, Shared.lock, h.iff]
    · by_cases hkl : k = l
      · subst hkl
        have hk : k ∉ φ u := by
          rw [h.iff, hfree]
          simp
        simp [hut, Ne.symm hut, Shared.lock, hk]
      · simp [hut, hkl, Shared.lock, h.iff]
  nodup := by
    intro u
    by_cases hut : u = t
    · subst hut
      rw [Function.update_self, List.nodup_cons, h.iff, hfree]
      exact ⟨by simp, h.nodup u⟩
    · rw [Function.update_of_ne hut]
      exact h.nodup u

omit [DecidableEq σ.Cond] in
/-- A thread releases a mutex that it holds. -/
theorem release (h : Holds φ s) (hheld : s.held l = some t) :
    Holds (Function.update φ t ((φ t).erase l)) (s.lock l none) where
  iff := by
    intro u k
    by_cases hut : u = t
    · subst hut
      rw [Function.update_self, (h.nodup u).mem_erase_iff, h.iff]
      by_cases hkl : k = l
      · simp [hkl, Shared.lock]
      · simp [hkl, Shared.lock]
    · rw [Function.update_of_ne hut, h.iff]
      by_cases hkl : k = l
      · subst hkl
        simp [hheld, Shared.lock, Ne.symm hut]
      · simp [hkl, Shared.lock]
  nodup := by
    intro u
    by_cases hut : u = t
    · subst hut
      rw [Function.update_self]
      exact (h.nodup u).erase l
    · rw [Function.update_of_ne hut]
      exact h.nodup u

omit [DecidableEq σ.Thread] [DecidableEq σ.Lock] [DecidableEq σ.Cond] in
/-- What does not concern mutexes. -/
theorem congr (h : Holds φ s) (hheld : s'.held = s.held) : Holds φ s' where
  iff := by rw [hheld]; exact h.iff
  nodup := h.nodup

/-- What one operation preserves. -/
theorem effect (h : Holds φ s) {o : Op σ} {r : o.Result} {ls : List σ.Lock}
    (heffect : M.Effect s t o r s') (htrans : D.protocol.trans t (φ t) o r = some ls) :
    Holds (Function.update φ t ls) s' := by
  cases heffect with
  | @acquire l hfree =>
      obtain ⟨-, rfl⟩ := trans_acquire.mp htrans
      exact h.acquire hfree
  | @release l hheld =>
      obtain ⟨-, rfl⟩ := trans_release.mp htrans
      exact h.release hheld
  | @wait c l hheld =>
      obtain ⟨-, rfl⟩ := trans_wait.mp htrans
      exact (h.release hheld).congr rfl
  | @resume c l hawake hfree =>
      obtain ⟨-, rfl⟩ := trans_resume.mp htrans
      exact h.acquire hfree
  | unheard | signal | broadcast | load | store | ask | spawn =>
      obtain rfl := Option.some.inj htrans
      rw [Function.update_eq_self]
      exact h.congr rfl

end Holds

/-- In every run the phases are what the threads hold. -/
theorem holds_of_reachable (hD : D.protocol.Obeyed M) {s₀ : State σ μ}
    (hdone : ∀ t, (s₀.prog t).head = none) (hfree : ∀ l, s₀.shared.held l = none)
    {s : State σ μ} (h : (M.system s₀).Reachable s) :
    ∃ φ, D.protocol.Obeys φ s ∧ Holds φ s.shared := by
  have hobeys : D.protocol.Obeys (fun _ => []) s₀ := by
    intro t
    cases hprog : s₀.prog t with
    | done a => exact rfl
    | op o k => simpa [hprog, Prog.head] using hdone t
  have hholds : Holds (fun _ => []) s₀.shared := ⟨by simp [hfree], fun _ => List.nodup_nil⟩
  apply Protocol.invariant_of_effects hD (J := Holds) (C := fun _ _ => True) hobeys hholds
    ?_ ?_ ?_ ?_ h.restrict_true
  · exact fun φ s t c o r shared ls hJ _ _ heffect htrans => hJ.effect heffect htrans
  · intro φ shared t u ls hJ htrans hfinal
    obtain rfl := Option.some.inj htrans
    by_cases hut : t = u
    · subst hut
      simpa [protocol] using hJ
    · simpa [protocol, Function.update_comm (Ne.symm hut)] using hJ
  · exact fun φ s t c l ls hJ _ _ => hJ.congr rfl
  · intro φ s t c m p hJ _ _ hfinal
    rw [show D.protocol.enter t c (φ t) = φ t from rfl, Function.update_eq_self]
    exact hJ.congr rfl

variable {S : State σ μ}

omit [DecidableEq σ.Cond] in
/-- A thread in the discipline waits for a mutex after all those it holds. -/
theorem before_of_wanted (hobeys : D.protocol.Obeys φ S) (hl : S.wanted t = some l) :
    D.Before (φ t) l := by
  unfold State.wanted at hl
  split at hl
  · rename_i k hhead
    obtain rfl := Option.some.inj hl
    obtain ⟨ls, htrans⟩ := (hobeys t).trans_of_head hhead (by simp) ()
    exact (trans_acquire.mp htrans).1
  · rename_i c k hhead
    obtain ⟨-, hl⟩ := Option.ite_none_left_eq_some.mp hl
    obtain rfl := Option.some.inj hl
    obtain ⟨ls, htrans⟩ := (hobeys t).trans_of_head hhead (by simp) ()
    exact (trans_resume.mp htrans).1.1
  · cases hl

omit [DecidableEq σ.Thread] [DecidableEq σ.Cond] in
/-- What is released, or waited with, is held. -/
theorem held_of_head (hobeys : D.protocol.Obeys φ S) (hholds : Holds φ S.shared) {o : Op σ}
    (hhead : (S.prog t).head = some o) (ho : o = .release l ∨ ∃ c, o = .wait c l) :
    S.shared.held l = some t := by
  rcases ho with rfl | ⟨c, rfl⟩
  · obtain ⟨ls, htrans⟩ := (hobeys t).trans_of_head hhead (by simp) ()
    exact (hholds.iff t l).mp (trans_release.mp htrans).1
  · obtain ⟨ls, htrans⟩ := (hobeys t).trans_of_head hhead (by simp) ()
    exact (hholds.iff t l).mp (trans_wait.mp htrans).1

omit [DecidableEq σ.Thread] [DecidableEq σ.Cond] in
/-- Who has nothing left to do holds nothing. -/
theorem held_of_done (hobeys : D.protocol.Obeys φ S) (hholds : Holds φ S.shared)
    (hhead : (S.prog t).head = none) : S.shared.held l ≠ some t := by
  obtain ⟨-, hfinal⟩ := (hobeys t).post_of_head hhead
  intro hheld
  have hmem := (hholds.iff t l).mpr hheld
  rw [show φ t = [] from hfinal] at hmem
  cases hmem

omit [DecidableEq σ.Thread] [DecidableEq σ.Cond] in
/-- Who sleeps holds what it may. -/
theorem sleeps_of_asleep (hobeys : D.protocol.Obeys φ S) (hasleep : S.Asleep t) :
    D.sleeps t (φ t) = true := by
  obtain ⟨c, l, hhead, -⟩ := hasleep
  obtain ⟨ls, htrans⟩ := (hobeys t).trans_of_head hhead (by simp) ()
  exact (trans_resume.mp htrans).1.2

/-! ## Nobody waits in a circle -/

omit [DecidableEq σ.Cond] in
/-- Who waits for another wants a mutex that comes before what the other wants. -/
theorem rank_lt (hobeys : D.protocol.Obeys φ S) (hholds : Holds φ S.shared) {u : σ.Thread}
    {k : σ.Lock} (h : TransGen S.WaitsFor t u) (hk : S.wanted u = some k) :
    ∃ l, S.wanted t = some l ∧ D.rank l < D.rank k := by
  induction h generalizing k with
  | single h =>
      obtain ⟨l, hl, hheld⟩ := h
      exact ⟨l, hl, before_of_wanted hobeys hk l ((hholds.iff _ l).mpr hheld)⟩
  | tail _ h ih =>
      obtain ⟨j, hj, hheld⟩ := h
      obtain ⟨l, hl, hlt⟩ := ih hj
      exact ⟨l, hl, hlt.trans (before_of_wanted hobeys hk j ((hholds.iff _ j).mpr hheld))⟩

omit [DecidableEq σ.Cond] in
/-- Nobody waits for itself, directly or through others. -/
theorem not_waits_self (hobeys : D.protocol.Obeys φ S) (hholds : Holds φ S.shared)
    (t : σ.Thread) : ¬ TransGen S.WaitsFor t t := by
  intro h
  obtain ⟨u, hu, -⟩ := TransGen.head'_iff.mp h
  obtain ⟨l, hl, -⟩ := hu
  obtain ⟨k, hk, hlt⟩ := rank_lt hobeys hholds h hl
  obtain rfl := Option.some.inj (hk.symm.trans hl)
  exact lt_irrefl _ hlt

omit [DecidableEq σ.Cond] in
/-- Where the ranks are bounded, everybody waits for somebody who does not wait: every
thread on the way wants a mutex of a higher rank. -/
theorem exists_last_of_rank (hobeys : D.protocol.Obeys φ S) (hholds : Holds φ S.shared) {B : Nat}
    (hB : ∀ l, D.rank l ≤ B) (d : Nat) (t : σ.Thread)
    (ht : ∀ l, S.wanted t = some l → B < D.rank l + d) :
    ∃ u, ReflTransGen S.WaitsFor t u ∧ ∀ v, ¬ S.WaitsFor u v := by
  induction d generalizing t with
  | zero =>
      refine ⟨t, .refl, ?_⟩
      rintro v ⟨l, hl, -⟩
      exact absurd (ht l hl) (by simpa using hB l)
  | succ d ih =>
      by_cases hlast : ∀ v, ¬ S.WaitsFor t v
      · exact ⟨t, .refl, hlast⟩
      · obtain ⟨u, hu⟩ := not_forall_not.mp hlast
        obtain ⟨l, hl, hheld⟩ := id hu
        have hrank : ∀ k, S.wanted u = some k → B < D.rank k + d := by
          intro k hk
          have hlt := before_of_wanted hobeys hk l ((hholds.iff u l).mpr hheld)
          have hd := ht l hl
          omega
        obtain ⟨v, hv, hlast⟩ := ih u hrank
        exact ⟨v, .head hu hv, hlast⟩

omit [DecidableEq σ.Cond] in
theorem exists_last (hobeys : D.protocol.Obeys φ S) (hholds : Holds φ S.shared) {B : Nat}
    (hB : ∀ l, D.rank l ≤ B) (t : σ.Thread) :
    ∃ u, ReflTransGen S.WaitsFor t u ∧ ∀ v, ¬ S.WaitsFor u v :=
  exists_last_of_rank hobeys hholds hB (B + 1) t fun _ _ => by omega

/-- Whoever has something left to do waits, from holder to holder, for a thread that can
take a step, or that waits for something else than a mutex. -/
theorem exists_enabled (hanswers : M.Answers) (hobeys : D.protocol.Obeys φ S)
    (hholds : Holds φ S.shared) {B : Nat} (hB : ∀ l, D.rank l ≤ B)
    (ht : (S.prog t).head ≠ none) :
    ∃ u, ReflTransGen S.WaitsFor t u ∧ (M.Enabled S u ∨ S.Asleep u ∨ S.Creates u) := by
  obtain ⟨u, hu, hlast⟩ := exists_last hobeys hholds hB t
  have hhead : (S.prog u).head ≠ none := by
    rcases ReflTransGen.cases_tail hu with rfl | ⟨v, -, l, -, hheld⟩
    · exact ht
    · exact fun hdone => held_of_done hobeys hholds hdone hheld
  obtain ⟨o, ho⟩ := Option.ne_none_iff_exists'.mp hhead
  refine ⟨u, hu, ?_⟩
  rcases Machine.enabled_or hanswers ho fun l => held_of_head hobeys hholds ho with
    henabled | hasleep | hcreates | ⟨v, hv⟩
  · exact .inl henabled
  · exact .inr (.inl hasleep)
  · exact .inr (.inr hcreates)
  · exact absurd hv (hlast v)

end Discipline

end HPQueue.Library.Threads
