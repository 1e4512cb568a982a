import HPQueue.Library.Protocol
import Mathlib.Data.Option.NAry

/-!
# Two protocols at once

Programs that keep to two protocols keep to both at once: a thread is in a phase of the
one and in a phase of the other, and every operation leads from such a pair to the next.
What needs the phases of both is then an invariant of runs like what needs those of one.

## Main results

* `Conforms.both`, `Protocol.Obeyed.both` — programs that keep to two protocols.
* `Protocol.invariant_of_both` — the invariant rule.
-/

namespace HPQueue.Library.Threads

open Library.Transition

variable {σ : Signature} {Φ Ψ α μ : Type} {A : Protocol σ Φ} {B : Protocol σ Ψ}

/-- Both protocols: what each of them allows. -/
def Protocol.both (A : Protocol σ Φ) (B : Protocol σ Ψ) : Protocol σ (Φ × Ψ) where
  trans t φ o r := Option.map₂ Prod.mk (A.trans t φ.1 o r) (B.trans t φ.2 o r)
  pre t p φ := A.pre t p φ.1 ∧ B.pre t p φ.2
  post t p φ a ψ := A.post t p φ.1 a ψ.1 ∧ B.post t p φ.2 a ψ.2
  final t φ := A.final t φ.1 ∧ B.final t φ.2
  enter t c φ := (A.enter t c φ.1, B.enter t c φ.2)
  born t φ := (A.born t φ.1, B.born t φ.2)

theorem Protocol.both_trans {t : σ.Thread} {φ ψ : Φ × Ψ} {o : Op σ} {r : o.Result} :
    (A.both B).trans t φ o r = some ψ ↔
      A.trans t φ.1 o r = some ψ.1 ∧ B.trans t φ.2 o r = some ψ.2 := by
  show Option.map₂ Prod.mk _ _ = _ ↔ _
  cases A.trans t φ.1 o r with
  | none => simp
  | some a =>
      cases B.trans t φ.2 o r with
      | none => simp
      | some b => simp [Prod.ext_iff]

/-- A program that keeps to each keeps to both. -/
theorem Conforms.both {t : σ.Thread} {φ : Φ × Ψ} {p : Prog σ α} {Q : α → Φ → Prop}
    {R : α → Ψ → Prop} (hA : Conforms A t φ.1 p Q) (hB : Conforms B t φ.2 p R) :
    Conforms (A.both B) t φ p fun a ψ => Q a ψ.1 ∧ R a ψ.2 := by
  induction p generalizing φ with
  | done a => exact ⟨hA, hB⟩
  | op o k ih =>
      cases o with
      | wait c l =>
          obtain ⟨φ₁, hφ₁, φ₂, hφ₂, hA⟩ := hA
          obtain ⟨ψ₁, hψ₁, ψ₂, hψ₂, hB⟩ := hB
          exact ⟨(φ₁, ψ₁), Protocol.both_trans.mpr ⟨hφ₁, hψ₁⟩, (φ₂, ψ₂),
            Protocol.both_trans.mpr ⟨hφ₂, hψ₂⟩, ih () hA hB⟩
      | call q =>
          refine ⟨⟨hA.1, hB.1⟩, ?_⟩
          intro a ψ hψ
          exact ih a (hA.2 a ψ.1 hψ.1) (hB.2 a ψ.2 hψ.2)
      | load x | ask q =>
          intro r
          obtain ⟨φ', hφ, hA⟩ := hA r
          obtain ⟨ψ', hψ, hB⟩ := hB r
          exact ⟨(φ', ψ'), Protocol.both_trans.mpr ⟨hφ, hψ⟩, ih r hA hB⟩
      | acquire l | release l | resume c l | signal c | broadcast c | store x | spawn u =>
          obtain ⟨φ', hφ, hA⟩ := hA
          obtain ⟨ψ', hψ, hB⟩ := hB
          exact ⟨(φ', ψ'), Protocol.both_trans.mpr ⟨hφ, hψ⟩, ih () hA hB⟩

variable [DecidableEq σ.Thread] [DecidableEq σ.Lock] [DecidableEq σ.Cond] {M : Machine σ μ}

omit [DecidableEq σ.Thread] [DecidableEq σ.Lock] [DecidableEq σ.Cond] in
theorem Protocol.Obeyed.both (hA : A.Obeyed M) (hB : B.Obeyed M) : (A.both B).Obeyed M where
  body t p φ h := (hA.body t p φ.1 h.1).both (hB.body t p φ.2 h.2)
  main t φ h := (hA.main t φ.1 h.1).both (hB.main t φ.2 h.2)
  entry t c m m' p φ hp h := (hA.entry t c m m' p φ.1 hp h.1).both (hB.entry t c m m' p φ.2 hp h.2)

/-- The invariant rule, with a case for each kind of step. -/
theorem Protocol.invariant_of_both (hA : A.Obeyed M) (hB : B.Obeyed M)
    {J : (σ.Thread → Φ) → (σ.Thread → Ψ) → Shared σ μ → Prop} {s₀ : State σ μ}
    {φ₀ : σ.Thread → Φ} {ψ₀ : σ.Thread → Ψ} (hφ₀ : A.Obeys φ₀ s₀) (hψ₀ : B.Obeys ψ₀ s₀)
    (hJ₀ : J φ₀ ψ₀ s₀.shared) {C : State σ μ → Label σ → Prop}
    (hact : ∀ φ ψ s t c o r shared φ' ψ', J φ ψ s.shared → C s (.step t c) →
      (∀ u, o ≠ .spawn u) → (s.prog t).head = some o →
      M.exec s.shared t o c = some (r, shared) → A.trans t (φ t) o r = some φ' →
      B.trans t (ψ t) o r = some ψ' →
      J (Function.update φ t φ') (Function.update ψ t ψ') shared)
    (hspawn : ∀ φ ψ s t c u φ' ψ', J φ ψ s.shared → C s (.step t c) →
      (s.prog t).head = some (.spawn u) → A.trans t (φ t) (.spawn u) () = some φ' →
      B.trans t (ψ t) (.spawn u) () = some ψ' →
      J (Function.update (Function.update φ u (A.born u (φ u))) t φ')
        (Function.update (Function.update ψ u (B.born u (ψ u))) t ψ') s.shared)
    (hwake : ∀ φ ψ s t c l, J φ ψ s.shared → C s (.spurious t) → t ∈ s.shared.asleep c →
      (s.prog t).head = some (.resume c l) →
      J φ ψ (s.shared.sleep c ((s.shared.asleep c).erase t)))
    (henter : ∀ φ ψ s t c m p, J φ ψ s.shared → C s (.enter t c) →
      M.entry t c s.shared.memory = some (m, p) → A.final t (φ t) → B.final t (ψ t) →
      J (Function.update φ t (A.enter t c (φ t))) (Function.update ψ t (B.enter t c (ψ t)))
        { s.shared with memory := m })
    {s : State σ μ} (h : ((M.system s₀).restrict C).Reachable s) :
    ∃ φ : σ.Thread → Φ × Ψ, (A.both B).Obeys φ s ∧
      J (fun t => (φ t).1) (fun t => (φ t).2) s.shared := by
  have hfst : ∀ (φ : σ.Thread → Φ × Ψ) t x, (fun u => (Function.update φ t x u).1) =
      Function.update (fun u => (φ u).1) t x.1 := fun φ t x =>
    Function.comp_update Prod.fst φ t x
  have hsnd : ∀ (φ : σ.Thread → Φ × Ψ) t x, (fun u => (Function.update φ t x u).2) =
      Function.update (fun u => (φ u).2) t x.2 := fun φ t x =>
    Function.comp_update Prod.snd φ t x
  have hobeys : (A.both B).Obeys (fun t => (φ₀ t, ψ₀ t)) s₀ := fun t => (hφ₀ t).both (hψ₀ t)
  refine Protocol.invariant (hA.both hB) hobeys hJ₀ (C := C) ?_ h
  · intro φ s l φ' shared hs hJ hC hmoves
    cases hmoves with
    | @act t c o r _ χ hhead hexec htrans hcreates =>
        obtain ⟨hφ, hψ⟩ := Protocol.both_trans.mp htrans
        rw [hfst, hsnd]
        cases o with
        | spawn u =>
            obtain rfl : shared = s.shared := by
              cases Machine.effect_of_exec hexec
              rfl
            have hborn := hspawn _ _ s t c u χ.1 χ.2 hJ hC hhead hφ hψ
            simp only [Protocol.births, hfst, hsnd]
            exact hborn
        | acquire l | release l | wait c' l | resume c' l | signal c' | broadcast c' | load x
        | store x | ask q | call p =>
            exact hact _ _ s t c _ r shared χ.1 χ.2 hJ hC (by simp) hhead hexec hφ hψ
    | silent => exact hJ
    | @spurious t c l χ hhead hasleep htrans => exact hwake _ _ s t c l hJ hC hasleep hhead
    | @enter t c m p u hdone hentry hfinal =>
        rw [hfst, hsnd]
        exact henter _ _ s t c m p hJ hC hentry hfinal.1 hfinal.2

end HPQueue.Library.Threads
