import Mathlib.Init

/-!
# Labelled transition systems

Runs of a system, the states they reach, and the two rules every safety proof of
this development ends with: an inductive invariant holds in every reachable
state, and a property of an abstract system holds of every system it simulates.
-/

namespace HPQueue.Library.Transition

/-- A labelled transition system. -/
structure System (σ ι : Type) where
  init : σ → Prop
  step : σ → ι → σ → Prop

namespace System

variable {σ ι : Type} (S : System σ ι)

/-- `S.Run s ls t`: from `s`, the labels `ls` lead to `t`. -/
inductive Run : σ → List ι → σ → Prop
  | nil (s : σ) : Run s [] s
  | snoc {s t u : σ} {ls : List ι} {l : ι} :
      Run s ls t → S.step t l u → Run s (ls ++ [l]) u

/-- The states a run from an initial state ends in. -/
def Reachable (t : σ) : Prop := ∃ s ls, S.init s ∧ S.Run s ls t

/-- The runs all of whose steps meet the condition `C`. -/
def restrict (C : σ → ι → Prop) : System σ ι where
  init := S.init
  step s l t := S.step s l t ∧ C s l

variable {S}

theorem Reachable.start {s : σ} (h : S.init s) : S.Reachable s :=
  ⟨s, [], h, .nil s⟩

theorem Reachable.step {s t : σ} {l : ι} (h : S.Reachable s) (hst : S.step s l t) :
    S.Reachable t := by
  obtain ⟨s₀, ls, h₀, hrun⟩ := h
  exact ⟨s₀, ls ++ [l], h₀, .snoc hrun hst⟩

/-- The run rule: what one step preserves, a run preserves. -/
theorem Run.preserves {I : σ → Prop} (hstep : ∀ {s l t}, I s → S.step s l t → I t)
    {s t : σ} {ls : List ι} (hrun : S.Run s ls t) (hs : I s) : I t := by
  induction hrun with
  | nil => exact hs
  | snoc _ hst ih => exact hstep ih hst

/-- The invariant rule. -/
theorem Reachable.invariant {I : σ → Prop} (hinit : ∀ {s}, S.init s → I s)
    (hstep : ∀ {s l t}, I s → S.step s l t → I t) {t : σ} (h : S.Reachable t) : I t := by
  obtain ⟨s, ls, hs, hrun⟩ := h
  exact hrun.preserves hstep (hinit hs)

/-- The states of a restricted system are states of the system. -/
theorem Reachable.of_restrict {C : σ → ι → Prop} {t : σ}
    (h : (S.restrict C).Reachable t) : S.Reachable t :=
  Reachable.invariant (fun hs => .start hs) (fun hs hst => hs.step hst.1) h

/-- A condition that always holds restricts nothing. -/
theorem Reachable.restrict_true {t : σ} (h : S.Reachable t) :
    (S.restrict fun _ _ => True).Reachable t :=
  Reachable.invariant (fun hs => .start hs) (fun hs hst => hs.step ⟨hst, trivial⟩) h

/-- The system of a step function; a label that is not enabled has no step. -/
def ofFunction (init : σ → Prop) (next : σ → ι → Option σ) : System σ ι where
  init := init
  step s l t := next s l = some t

/-- Takes the steps in order, as long as each is enabled and meets `C`. -/
def follow (next : σ → ι → Option σ) (C : σ → ι → Prop) [∀ s l, Decidable (C s l)] :
    σ → List ι → Option σ
  | s, [] => some s
  | s, l :: ls => if C s l then (next s l).bind fun t => follow next C t ls else none

/-- Steps that the function computes lead from a reachable state to another. -/
theorem Reachable.of_follow {next : σ → ι → Option σ} {C : σ → ι → Prop}
    [∀ s l, Decidable (C s l)] (hnext : ∀ {s l t}, C s l → next s l = some t → S.step s l t)
    (ls : List ι) {s t : σ} (hs : S.Reachable s) (ht : follow next C s ls = some t) :
    S.Reachable t := by
  induction ls generalizing s with
  | nil =>
      obtain rfl : s = t := by simpa [follow] using ht
      exact hs
  | cons l ls ih =>
      unfold follow at ht
      split at ht
      · rename_i hC
        obtain ⟨u, hu, ht⟩ := Option.bind_eq_some_iff.mp ht
        exact ih (hs.step (hnext hC hu)) ht
      · cases ht

/-- So for the system of the function. -/
theorem reachable_follow {init : σ → Prop} {next : σ → ι → Option σ} {C : σ → ι → Prop}
    [∀ s l, Decidable (C s l)] (ls : List ι) {s t : σ}
    (h : ((ofFunction init next).restrict C).Reachable s) (ht : follow next C s ls = some t) :
    ((ofFunction init next).restrict C).Reachable t :=
  Reachable.of_follow (S := (ofFunction init next).restrict C) (fun hC hu => ⟨hu, hC⟩) ls h ht

/-- So for a property of the state they lead to. -/
theorem exists_of_follow {init : σ → Prop} {next : σ → ι → Option σ} {C : σ → ι → Prop}
    [∀ s l, Decidable (C s l)] {P : σ → Prop} [DecidablePred P] (ls : List ι) {s : σ}
    (hs : init s) (h : (follow next C s ls).any (fun t => decide (P t)) = true) :
    ∃ t, ((ofFunction init next).restrict C).Reachable t ∧ P t := by
  obtain ⟨t, ht, hP⟩ := (Option.any_eq_true _ _).mp h
  exact ⟨t, reachable_follow ls (.start hs) ht, of_decide_eq_true hP⟩

end System

end HPQueue.Library.Transition
