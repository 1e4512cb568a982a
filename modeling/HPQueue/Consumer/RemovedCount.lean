import HPQueue.Consumer.Conformance
import Mathlib.Algebra.BigOperators.Group.Finset.Piecewise

/-!
# The count of removed entries

Every worker counts the entries it removes in a field of its own, which it increments
without synchronization.  `QueueAccess::updateStats` moves that count to the statistics
of the queue: it swaps a zero for it, releases the "lock" the swap stands for, which
stores another zero, and adds what it swapped out.  A statistics writer calls it for
each worker, and a worker once it is finished.

An increment that lands between the swap and the release is lost, unless another
`updateStats` has swapped it out in the meantime.  So the release must find the zero
that the swap has left.

`workerLock`, which keeps statistics writers apart, is not here: the calls may be
interleaved in any way.
-/

namespace HPQueue

open Library.Transition

/-- How far a thread is in `updateStats`. -/
inductive Update (n : Nat)
  | idle
  /-- The count was swapped out. -/
  | swapped (w : Fin n) (removed : UInt32)
  /-- And the lock released. -/
  | released (removed : UInt32)
  deriving DecidableEq

/-- What was swapped out and not yet added. -/
def Update.pending {n : Nat} : Update n → UInt32
  | .idle => 0
  | .swapped _ removed => removed
  | .released removed => removed

@[simp] theorem pending_idle {n : Nat} : (Update.idle : Update n).pending = 0 := rfl

@[simp] theorem pending_swapped {n : Nat} (w : Fin n) (removed : UInt32) :
    (Update.swapped w removed).pending = removed := rfl

@[simp] theorem pending_released {n : Nat} (removed : UInt32) :
    (Update.released removed : Update n).pending = removed := rfl

structure RemovedCounts (ι : Type) (n : Nat) where
  /-- `QueueAccess::removedCount`. -/
  removedCount : Fin n → UInt32
  /-- `QueueStats::removedCount`. -/
  stats : UInt32
  update : Thread ι n → Update n
  /-- The entries removed so far. -/
  removed : Nat

/-- The atomic steps. -/
inductive CountStep (ι : Type) (n : Nat)
  /-- `incrementRemovedCount`. -/
  | increment (w : Fin n)
  /-- `__sync_lock_test_and_set(ptr, 0)`. -/
  | swap (t : Thread ι n) (w : Fin n)
  /-- `__sync_lock_release(ptr)`. -/
  | release (t : Thread ι n)
  /-- `__sync_fetch_and_add`. -/
  | add (t : Thread ι n)

namespace RemovedCounts

variable {ι : Type} {n : Nat}

def new (ι : Type) (n : Nat) : RemovedCounts ι n where
  removedCount := fun _ => 0
  stats := 0
  update := fun _ => .idle
  removed := 0

variable [DecidableEq ι]

/-- One step.  A worker does not remove entries while it updates the statistics, and
updates them with its own count. -/
def next (s : RemovedCounts ι n) : CountStep ι n → Option (RemovedCounts ι n)
  | .increment w =>
      if s.update (.worker w) = .idle then
        some { s with
          removedCount := Function.update s.removedCount w (s.removedCount w + 1)
          removed := s.removed + 1 }
      else none
  | .swap t w =>
      if s.update t = .idle ∧ ∀ v, t = .worker v → v = w then
        some { s with
          removedCount := Function.update s.removedCount w 0
          update := Function.update s.update t (.swapped w (s.removedCount w)) }
      else none
  | .release t =>
      match s.update t with
      | .swapped w removed =>
          some { s with
            removedCount := Function.update s.removedCount w 0
            update := Function.update s.update t (.released removed) }
      | .idle | .released _ => none
  | .add t =>
      match s.update t with
      | .released removed =>
          some { s with
            stats := s.stats + removed
            update := Function.update s.update t .idle }
      | .idle | .swapped _ _ => none

/-- The runs of a processor that was just constructed. -/
def system (ι : Type) [DecidableEq ι] (n : Nat) : System (RemovedCounts ι n) (CountStep ι n) :=
  .ofFunction (· = new ι n) next

/-- The release, if it is one, finds the zero that the swap has left. -/
def FindsZero (s : RemovedCounts ι n) : CountStep ι n → Prop
  | .release t => ∀ w removed, s.update t = .swapped w removed → s.removedCount w = 0
  | .increment _ | .swap _ _ | .add _ => True

end RemovedCounts

/-- A sum after one of its terms has changed. -/
theorem sum_update {α β : Type} [Fintype α] [DecidableEq α] (g : β → Nat) (f : α → β) (a : α)
    (b : β) : ∑ x, g (Function.update f a b x) + g (f a) = ∑ x, g (f x) + g b := by
  have hcomp : (fun x => g (Function.update f a b x)) =
      Function.update (fun x => g (f x)) a (g b) := by
    funext x
    by_cases hx : x = a
    · subst hx
      simp
    · simp [hx]
  have hold := Finset.sum_erase_add Finset.univ (fun x => g (f x)) (Finset.mem_univ a)
  rw [hcomp, Finset.sum_update_of_mem (Finset.mem_univ a), Finset.sdiff_singleton_eq_erase]
  omega

namespace RemovedCounts

variable {ι : Type} {n : Nat} [Fintype ι]

/-- All that was counted: in the statistics, in the workers, and on the way. -/
def total (s : RemovedCounts ι n) : Nat :=
  s.stats.toNat + ∑ w, (s.removedCount w).toNat + ∑ t, (s.update t).pending.toNat

/-- No removal is lost: the counts add up to the entries removed, modulo 2^32. -/
def Conserved (s : RemovedCounts ι n) : Prop := s.total % 2 ^ 32 = s.removed % 2 ^ 32

variable [DecidableEq ι]

/-- An increment is counted. -/
theorem total_increment {s s' : RemovedCounts ι n} {w : Fin n}
    (h : s.next (.increment w) = some s') :
    s'.total % 2 ^ 32 = (s.total + 1) % 2 ^ 32 ∧ s'.removed = s.removed + 1 := by
  obtain ⟨-, hs'⟩ := Option.ite_none_right_eq_some.mp h
  obtain rfl := Option.some.inj hs'
  have hsum := sum_update UInt32.toNat s.removedCount w (s.removedCount w + 1)
  have hsucc : (s.removedCount w + 1).toNat = ((s.removedCount w).toNat + 1) % 2 ^ 32 :=
    UInt32.toNat_add _ _
  refine ⟨?_, rfl⟩
  show (s.stats.toNat + ∑ v, (Function.update s.removedCount w (s.removedCount w + 1) v).toNat +
    ∑ t, (s.update t).pending.toNat) % 2 ^ 32 = _
  unfold total
  omega

/-- A swap takes what it leaves. -/
theorem total_swap {s s' : RemovedCounts ι n} {t : Thread ι n} {w : Fin n}
    (h : s.next (.swap t w) = some s') : s'.total = s.total ∧ s'.removed = s.removed := by
  obtain ⟨⟨hidle, -⟩, hs'⟩ := Option.ite_none_right_eq_some.mp h
  obtain rfl := Option.some.inj hs'
  have hsum := sum_update UInt32.toNat s.removedCount w 0
  have hpending := sum_update (fun u : Update n => u.pending.toNat) s.update t
    (.swapped w (s.removedCount w))
  rw [hidle] at hpending
  have hzero : (0 : UInt32).toNat = 0 := rfl
  simp only [pending_idle, pending_swapped, hzero] at hsum hpending
  refine ⟨?_, rfl⟩
  show s.stats.toNat + ∑ v, (Function.update s.removedCount w 0 v).toNat +
    ∑ x, (Function.update s.update t (.swapped w (s.removedCount w)) x).pending.toNat = _
  unfold total
  omega

/-- A release loses what it finds. -/
theorem total_release {s s' : RemovedCounts ι n} {t : Thread ι n}
    (h : s.next (.release t) = some s') :
    ∃ w removed, s.update t = .swapped w removed ∧
      s'.total + (s.removedCount w).toNat = s.total ∧ s'.removed = s.removed := by
  unfold next at h
  dsimp only at h
  split at h
  · rename_i w removed hswapped
    obtain rfl := Option.some.inj h
    have hsum := sum_update UInt32.toNat s.removedCount w 0
    have hpending := sum_update (fun u : Update n => u.pending.toNat) s.update t
      (.released removed)
    rw [hswapped] at hpending
    have hzero : (0 : UInt32).toNat = 0 := rfl
    simp only [pending_swapped, pending_released, hzero] at hsum hpending
    refine ⟨w, removed, hswapped, ?_, rfl⟩
    show s.stats.toNat + ∑ v, (Function.update s.removedCount w 0 v).toNat +
      ∑ x, (Function.update s.update t (.released removed) x).pending.toNat + _ = _
    unfold total
    omega
  · cases h
  · cases h

/-- What was swapped out is added. -/
theorem total_add {s s' : RemovedCounts ι n} {t : Thread ι n} (h : s.next (.add t) = some s') :
    s'.total % 2 ^ 32 = s.total % 2 ^ 32 ∧ s'.removed = s.removed := by
  unfold next at h
  dsimp only at h
  split at h
  · rename_i removed hreleased
    obtain rfl := Option.some.inj h
    have hpending := sum_update (fun u : Update n => u.pending.toNat) s.update t .idle
    rw [hreleased] at hpending
    have hzero : (0 : UInt32).toNat = 0 := rfl
    simp only [pending_idle, pending_released, hzero] at hpending
    have hstats : (s.stats + removed).toNat = (s.stats.toNat + removed.toNat) % 2 ^ 32 :=
      UInt32.toNat_add _ _
    refine ⟨?_, rfl⟩
    show ((s.stats + removed).toNat + ∑ v, (s.removedCount v).toNat +
      ∑ x, (Function.update s.update t .idle x).pending.toNat) % 2 ^ 32 = _
    unfold total
    omega
  · cases h
  · cases h

/-- The step lemma: a release is all that can break conservation. -/
theorem conserved_next_iff {s s' : RemovedCounts ι n} {l : CountStep ι n} (hs : s.Conserved)
    (h : s.next l = some s') : s'.Conserved ↔ s.FindsZero l := by
  unfold Conserved at hs ⊢
  cases l with
  | increment w =>
      obtain ⟨htotal, hremoved⟩ := total_increment h
      exact iff_of_true (by omega) trivial
  | swap t w =>
      obtain ⟨htotal, hremoved⟩ := total_swap h
      exact iff_of_true (by omega) trivial
  | release t =>
      obtain ⟨w, removed, hswapped, htotal, hremoved⟩ := total_release h
      have hlt := (s.removedCount w).toNat_lt
      have hzero : s.removedCount w = 0 ↔ (s.removedCount w).toNat = 0 :=
        UInt32.toNat_inj.symm
      have hfinds : s.FindsZero (.release t) ↔ s.removedCount w = 0 := by
        constructor
        · exact fun hfinds => hfinds w removed hswapped
        · intro hw v r hv
          obtain ⟨rfl, -⟩ : w = v ∧ removed = r := by simpa [hswapped] using hv
          exact hw
      rw [hfinds, hzero]
      omega
  | add t =>
      obtain ⟨htotal, hremoved⟩ := total_add h
      exact iff_of_true (by omega) trivial

instance (s : RemovedCounts ι n) : Decidable s.Conserved := inferInstanceAs (Decidable (_ = _))

omit [DecidableEq ι] in
theorem conserved_new : (new ι n).Conserved := by
  simp [Conserved, total, new]

/-- As long as every release finds the zero its swap has left, no removal is lost; and
the first that does not loses some. -/
theorem conserved_of_findsZero (ι : Type) [Fintype ι] [DecidableEq ι] (n : Nat) :
    (∀ s, ((system ι n).restrict FindsZero).Reachable s → s.Conserved) ∧
      ∀ s l s', ((system ι n).restrict FindsZero).Reachable s → (system ι n).step s l s' →
        (s'.Conserved ↔ s.FindsZero l) := by
  have hreachable : ∀ s, ((system ι n).restrict FindsZero).Reachable s → s.Conserved := by
    intro s hs
    refine hs.invariant ?_ ?_
    · rintro s rfl
      exact conserved_new
    · rintro s l s' hs ⟨hstep, hfinds⟩
      exact (conserved_next_iff hs hstep).mpr hfinds
  refine ⟨hreachable, ?_⟩
  intro s l s' hs hstep
  exact conserved_next_iff (hreachable s hs) hstep

/-- One worker, and a client that writes the statistics while an entry is removed. -/
theorem not_conserved_of_increment :
    ∃ s, (system Unit 1).Reachable s ∧ ¬ s.Conserved := by
  have hrun : ∃ s, ((system Unit 1).restrict fun _ _ => True).Reachable s ∧ ¬ s.Conserved :=
    System.exists_of_follow [.swap (.client ()) 0, .increment 0, .release (.client ())] rfl
      (by decide)
  exact hrun.imp fun s hs => ⟨hs.1.of_restrict, hs.2⟩

end RemovedCounts

end HPQueue
