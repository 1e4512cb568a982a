import HPQueue.Queue.Fifo
import HPQueue.Queue.ListShape

/-!
# The number of elements

`getNumElements` is the difference of the two indices of a ring.  Between two calls it
is the number of pending entries as long as these lie in one piece.  Once they run past
the end of the array and go on at its start, it falls short by the size of the array,
which the comparisons of the other methods add.

## Main results

* `HoldsFifo.getNumElements` — what `getNumElements` returns.
* `getNumElements_iff` — when that is the number of pending entries.
-/

namespace HPQueue

open Library.Ring Library.Transition QueueConstants

variable {E : Type}

/-- A ring, how many entries it has accepted, and how many were taken. -/
structure CountedRing (E : Type) where
  queue : ReaderWriterQueue E
  accepted : Nat
  taken : Nat

namespace CountedRing

def new (queueSize : Nat) (dataEntries : ProcessingQueueDataArray E) : CountedRing E where
  queue := .new queueSize dataEntries
  accepted := 0
  taken := 0

/-- One call, counted. -/
def callStep (s : CountedRing E) : RingCall E → CountedRing E → Prop
  | .add entry, s' =>
      s' = { s with
        queue := (s.queue.add entry).1
        accepted := if 0 ≤ (s.queue.add entry).2 then s.accepted + 1 else s.accepted }
  | .remove, s' =>
      ∃ queue result, s.queue.remove = .ok (queue, result) ∧
        s' = { s with
          queue := queue
          taken := if result.isSome then s.taken + 1 else s.taken }
  | .resize newSize, s' =>
      ∃ queue, (∃ F, ∀ fuel ≥ F, s.queue.resize fuel newSize = .ok queue) ∧
        s' = { s with queue := queue }

/-- The runs of a ring of the given initial size. -/
def system (queueSize : Nat) (dataEntries : ProcessingQueueDataArray E) :
    System (CountedRing E) (RingCall E) where
  init s := s = .new queueSize dataEntries
  step := callStep

/-- `getNumElements` is the number of entries accepted and not yet taken. -/
def Exact (s : CountedRing E) : Prop :=
  s.queue.getNumElements = (s.accepted : Int) - s.taken

instance (s : CountedRing E) : Decidable s.Exact := inferInstanceAs (Decidable (_ = _))

/-- No entry is accepted into the last slot of the array. -/
def BelowLast (s : CountedRing E) : RingCall E → Prop
  | .add entry => (s.queue.add entry).2 + 1 < s.queue.currentSize
  | .remove => True
  | .resize _ => True

end CountedRing

/-! ## What the indices say -/

namespace HoldsFifo

variable {n : Nat} {off : Int} {q : ReaderWriterQueue E} {first : Nat} {entries : List E}

/-- Compared with `readIndex` as the base, the indices are as far apart as entries are
pending. -/
theorem adjusted (h : HoldsFifo n off q first entries) :
    q.adjustIndexForComparison q.writeIndex = q.readIndex + entries.length := by
  have hwithin := h.within
  have hunwrap := unwrap_slot off (show 0 < n by omega) (Nat.le_add_right first entries.length)
    (by omega)
  rw [← h.readIndex, ← h.writeIndex] at hunwrap
  rw [ReaderWriterQueue.adjustIndexForComparison, h.size]
  refine Eq.trans hunwrap ?_
  push_cast
  omega

theorem getNumElements (h : HoldsFifo n off q first entries) :
    q.getNumElements = if q.readIndex ≤ q.writeIndex then (entries.length : Int)
      else entries.length - n := by
  have hadjusted := h.adjusted
  rw [ReaderWriterQueue.adjustIndexForComparison, HPQueue.adjustIndexForComparison,
    h.size] at hadjusted
  rw [ReaderWriterQueue.getNumElements]
  split at hadjusted
  · rw [if_neg (by omega)]
    omega
  · rw [if_pos (by omega)]
    omega

end HoldsFifo

/-! ## What a call does to the counts -/

namespace CountedRing

/-- The entries that are pending were accepted and not taken.  An array without a slot
holds none. -/
inductive Counted (s : CountedRing E) : Prop
  | none (hsize : s.queue.currentSize = 0) (hread : s.queue.readIndex = 0)
      (hwrite : s.queue.writeIndex = 0) (hcount : s.accepted = s.taken)
  | holds {n : Nat} {off : Int} {first : Nat} {entries : List E}
      (h : HoldsFifo n off s.queue first entries) (hcount : s.accepted = s.taken + entries.length)

variable {s s' : CountedRing E}

theorem Counted.new (queueSize : Nat) (dataEntries : ProcessingQueueDataArray E) :
    (CountedRing.new queueSize dataEntries).Counted := by
  rcases Nat.eq_zero_or_pos queueSize with rfl | hpos
  · exact .none rfl rfl rfl rfl
  · exact .holds (.new hpos dataEntries) rfl

theorem Counted.exact_iff (h : s.Counted) :
    s.Exact ↔ s.queue.readIndex ≤ s.queue.writeIndex := by
  cases h with
  | none hsize hread hwrite hcount =>
      simp [Exact, ReaderWriterQueue.getNumElements, hread, hwrite, hcount]
  | holds h hcount =>
      have hwithin := h.within
      rw [Exact, h.getNumElements, hcount]
      split
      · rename_i hle
        simp [hle]
      · rename_i hle
        simp only [hle, iff_false]
        omega

/-- An array without a slot accepts nothing. -/
theorem add_of_none (hsize : s.queue.currentSize = 0) (hread : s.queue.readIndex = 0)
    (hwrite : s.queue.writeIndex = 0) (e : E) : s.queue.add e = (s.queue, CANNOT_ADD) := by
  have hfull : s.queue.isFull = 1 := by
    simp [ReaderWriterQueue.isFull, ReaderWriterQueue.nextIndex, nextIndex, hsize, hread, hwrite]
  have hinsert : s.queue.insert e = (s.queue, false) := by
    simp [ReaderWriterQueue.insert, ProcessingQueueDataArray.getQueueEntry, hsize, hwrite]
  simp [ReaderWriterQueue.add, ReaderWriterQueue.tryInsert, hfull, hinsert, IS_FULL, CANNOT_ADD]

theorem remove_of_none (hread : s.queue.readIndex = 0) (hwrite : s.queue.writeIndex = 0) :
    s.queue.remove = .ok (s.queue, none) := by
  have hempty : s.queue.isEmpty = true := by
    simp [ReaderWriterQueue.isEmpty, hread, hwrite]
  rw [ReaderWriterQueue.remove, if_pos hempty]

/-- The first slots of an array that had none. -/
theorem resize_of_none {q q' : ReaderWriterQueue E} (hsize : q.currentSize = 0)
    (hread : q.readIndex = 0) (hwrite : q.writeIndex = 0) {fuel m : Nat} (hm : 0 < m)
    (h : q.resize fuel m = .ok q') : HoldsFifo m 0 q' 0 [] := by
  obtain ⟨hsize', hwrite', hread'⟩ := ReaderWriterQueue.indices_of_resize (by omega) h
  rw [hread, hwrite, if_neg (by decide)] at hread'
  exact
    { size := hsize'
      readIndex := by simp [hread']
      writeIndex := by simp [hwrite', hwrite]
      within := hm
      stored := by simp
      canStore := by simp }

theorem Counted.add (h : s.Counted) (e : E) :
    Counted { s with
      queue := (s.queue.add e).1
      accepted := if 0 ≤ (s.queue.add e).2 then s.accepted + 1 else s.accepted } := by
  cases h with
  | none hsize hread hwrite hcount =>
      rw [add_of_none hsize hread hwrite]
      exact .none hsize hread hwrite hcount
  | @holds n off first entries h hcount =>
      have hwithin := h.within
      by_cases he : s.queue.dataEntries.CanStore e
      · by_cases hfull : entries.length + 1 = n
        · rw [h.add_of_full hfull]
          exact .holds h hcount
        · obtain ⟨q, hadd, hq, -⟩ := h.add_of_room (by omega) he
          rw [hadd, if_pos h.write_nonneg]
          refine .holds hq ?_
          rw [List.length_append, List.length_singleton, hcount]
          rfl
      · obtain ⟨i, hi, hadd⟩ := h.add_of_not_canStore he
        rw [hadd, if_neg (by omega)]
        exact .holds h hcount

theorem Counted.remove (h : s.Counted) {q : ReaderWriterQueue E} {result : Option E}
    (hrun : s.queue.remove = .ok (q, result)) :
    Counted { s with
      queue := q
      taken := if result.isSome then s.taken + 1 else s.taken } := by
  cases h with
  | none hsize hread hwrite hcount =>
      rw [remove_of_none hread hwrite] at hrun
      obtain ⟨rfl, rfl⟩ := Prod.mk.inj (Except.ok.inj hrun)
      exact .none hsize hread hwrite hcount
  | @holds n off first entries h hcount =>
      cases entries with
      | nil =>
          rw [h.remove_nil] at hrun
          obtain ⟨rfl, rfl⟩ := Prod.mk.inj (Except.ok.inj hrun)
          exact .holds h hcount
      | cons e rest =>
          obtain ⟨q', hrun', hq', -⟩ := h.remove_cons
          obtain ⟨rfl, rfl⟩ := Prod.mk.inj (Except.ok.inj (hrun'.symm.trans hrun))
          refine .holds hq' ?_
          rw [hcount, List.length_cons]
          show s.taken + (rest.length + 1) = s.taken + 1 + rest.length
          omega

theorem Counted.resize (h : s.Counted) {q : ReaderWriterQueue E} {m F : Nat}
    (hrun : ∀ fuel ≥ F, s.queue.resize fuel m = .ok q) : Counted { s with queue := q } := by
  cases h with
  | none hsize hread hwrite hcount =>
      rcases Nat.eq_zero_or_pos m with rfl | hm
      · have hsame := hrun F (Nat.le_refl F)
        rw [ReaderWriterQueue.resize, if_pos (Nat.zero_le _)] at hsame
        rw [← Except.ok.inj hsame]
        exact .none hsize hread hwrite hcount
      · exact .holds (resize_of_none hsize hread hwrite hm (hrun F (Nat.le_refl F))) hcount
  | @holds n off first entries h hcount =>
      by_cases hmn : m ≤ n
      · rw [← Except.ok.inj ((h.resize_of_le hmn F).symm.trans (hrun F (Nat.le_refl F)))]
        exact .holds h hcount
      · obtain ⟨q', hrun', hq', -⟩ := h.resize_of_lt (Nat.lt_of_not_le hmn)
        have hsame := (hrun' (max F (n + 1)) (by omega)).symm.trans (hrun _ (Nat.le_max_left _ _))
        rw [← Except.ok.inj hsame]
        exact .holds hq' hcount

/-- What one call preserves. -/
theorem Counted.step {c : RingCall E} (h : s.Counted) (hstep : s.callStep c s') : s'.Counted := by
  cases c with
  | add e =>
      obtain rfl := hstep
      exact h.add e
  | remove =>
      obtain ⟨q, result, hrun, rfl⟩ := hstep
      exact h.remove hrun
  | resize m =>
      obtain ⟨q, ⟨F, hrun⟩, rfl⟩ := hstep
      exact h.resize hrun

theorem counted_of_reachable {queueSize : Nat} {dataEntries : ProcessingQueueDataArray E}
    (h : (system queueSize dataEntries).Reachable s) : s.Counted := by
  apply h.invariant
  · rintro s rfl
    exact .new queueSize dataEntries
  · exact fun hs hstep => hs.step hstep

/-- The indices stay in order until an entry is written to the last slot. -/
theorem Counted.ordered {c : RingCall E} (h : s.Counted)
    (hle : s.queue.readIndex ≤ s.queue.writeIndex) (hc : s.BelowLast c)
    (hstep : s.callStep c s') : s'.queue.readIndex ≤ s'.queue.writeIndex := by
  cases c with
  | add e =>
      obtain rfl := hstep
      cases h with
      | none hsize hread hwrite hcount =>
          rw [add_of_none hsize hread hwrite]
          exact hle
      | @holds n off first entries h hcount =>
          have hwithin := h.within
          have hwrite0 := h.write_nonneg
          by_cases he : s.queue.dataEntries.CanStore e
          · by_cases hfull : entries.length + 1 = n
            · rw [h.add_of_full hfull]
              exact hle
            · obtain ⟨q, hadd, hq, -⟩ := h.add_of_room (by omega) he
              replace hc : s.queue.writeIndex + 1 < n := by
                have hlast : (s.queue.add e).2 + 1 < s.queue.currentSize := hc
                rwa [hadd, h.size] at hlast
              have hnext : q.writeIndex = s.queue.writeIndex + 1 := by
                rw [h.writeIndex] at hc ⊢
                rw [hq.writeIndex, List.length_append, List.length_singleton, ← Nat.add_assoc]
                exact slot_succ_of_lt off (by omega) hc
              rw [hadd]
              show q.readIndex ≤ q.writeIndex
              rw [hq.readIndex, ← h.readIndex, hnext]
              omega
          · obtain ⟨i, hi, hadd⟩ := h.add_of_not_canStore he
            rw [hadd]
            exact hle
  | remove =>
      obtain ⟨q, result, hrun, rfl⟩ := hstep
      cases h with
      | none hsize hread hwrite hcount =>
          rw [remove_of_none hread hwrite] at hrun
          obtain ⟨rfl, rfl⟩ := Prod.mk.inj (Except.ok.inj hrun)
          exact hle
      | @holds n off first entries h hcount =>
          cases entries with
          | nil =>
              rw [h.remove_nil] at hrun
              obtain ⟨rfl, rfl⟩ := Prod.mk.inj (Except.ok.inj hrun)
              exact hle
          | cons e rest =>
              obtain ⟨q', hrun', -, hread⟩ := h.remove_cons
              obtain ⟨rfl, rfl⟩ := Prod.mk.inj (Except.ok.inj (hrun'.symm.trans hrun))
              have hcount := h.getNumElements
              rw [if_pos hle, ReaderWriterQueue.getNumElements, List.length_cons] at hcount
              have hwithin := h.within
              have hwrite := h.write_lt
              have hbelow : slot n off first + 1 < n := by
                rw [← h.readIndex]
                omega
              rw [slot_succ_of_lt off (by omega) hbelow, ← h.readIndex] at hread
              rw [hread]
              show s.queue.readIndex + 1 ≤ s.queue.writeIndex
              omega
  | resize m =>
      obtain ⟨q, ⟨F, hrun⟩, rfl⟩ := hstep
      have hsame := hrun F (Nat.le_refl F)
      by_cases hge : s.queue.currentSize ≥ m
      · rw [ReaderWriterQueue.resize, if_pos hge] at hsame
        rw [← Except.ok.inj hsame]
        exact hle
      · obtain ⟨-, hwrite, hread⟩ := ReaderWriterQueue.indices_of_resize (by omega) hsame
        rw [if_neg (by omega)] at hread
        show q.readIndex ≤ q.writeIndex
        rw [hread, hwrite]
        exact hle

/-- In a run that never writes to the last slot, the indices are in order. -/
theorem ordered_of_reachable {queueSize : Nat} {dataEntries : ProcessingQueueDataArray E}
    (h : ((system queueSize dataEntries).restrict BelowLast).Reachable s) :
    s.Counted ∧ s.queue.readIndex ≤ s.queue.writeIndex := by
  apply h.invariant (I := fun s => s.Counted ∧ s.queue.readIndex ≤ s.queue.writeIndex)
  · rintro s rfl
    exact ⟨.new queueSize dataEntries, Int.le_refl 0⟩
  · rintro s c s' ⟨hs, hle⟩ ⟨hstep, hc⟩
    exact ⟨hs.step hstep, hs.ordered hle hc hstep⟩

end CountedRing

open CountedRing

/-- Between two calls, `getNumElements` is the number of pending entries exactly if these
do not run past the end of the array; and so they never do in a run that does not write to
the last slot. -/
theorem getNumElements_iff (queueSize : Nat) (dataEntries : ProcessingQueueDataArray E) :
    (∀ s, (system queueSize dataEntries).Reachable s →
      (s.Exact ↔ s.queue.readIndex ≤ s.queue.writeIndex)) ∧
    ∀ s, ((system queueSize dataEntries).restrict BelowLast).Reachable s → s.Exact := by
  constructor
  · exact fun s h => (counted_of_reachable h).exact_iff
  · intro s h
    obtain ⟨hcounted, hle⟩ := ordered_of_reachable h
    exact hcounted.exact_iff.mpr hle

/-- Three slots, three entries, the first of which is taken: the third goes into the last
slot, and two are pending. -/
theorem not_exact_of_lastSlot : ∃ s : CountedRing Nat,
    (system 3 (.uniform Nat 8)).Reachable s ∧ s.accepted = 3 ∧ s.taken = 1 ∧
      s.queue.getNumElements = -1 ∧ ¬ s.Exact := by
  have hadd : ∀ {s : CountedRing Nat} (e : Nat), (system 3 (.uniform Nat 8)).Reachable s →
      (system 3 (.uniform Nat 8)).Reachable
        { s with
          queue := (s.queue.add e).1
          accepted := if 0 ≤ (s.queue.add e).2 then s.accepted + 1 else s.accepted } :=
    fun e h => h.step (l := .add e) rfl
  have hremoved := (hadd 11 (hadd 10 (.start rfl))).step (l := RingCall.remove)
    ⟨_, some 10, rfl, rfl⟩
  exact ⟨_, hadd 12 hremoved, by decide, by decide, by decide, by decide⟩

end HPQueue
