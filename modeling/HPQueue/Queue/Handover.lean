import HPQueue.Library.Ring
import HPQueue.Library.Transition
import HPQueue.Queue.ReaderWriterQueue
import Mathlib.Data.List.TakeDrop

/-!
# One writer and one reader, without a lock

A `ReaderWriterQueue` is shared by a writer that calls `add` and a reader that
calls `remove`; neither takes a lock.  `Handover` takes the two calls apart into
the loads and stores they share, so that the steps of one run between the steps
of the other.  While an entry is copied, its cell holds neither the old entry nor
the new one: it is `torn`.

The reader keeps using the slot it was given after `remove` has returned, when
`readIndex` is already one past it.  It is the slot that a full ring leaves unused.

## Main results

* `fifo` — the entries returned are the first entries accepted, in order, each of
  them whole, and the slot returned last stays as it is until the next `remove`.
* `add_uninterrupted`, `remove_uninterrupted` — undisturbed, the steps of a call
  are the call.
-/

namespace HPQueue

open Library.Ring Library.Transition QueueConstants

/-- Where the writer is in `add`. -/
inductive Writer (E : Type)
  | idle
  /-- `isFull` returned this index. -/
  | room (entry : E) (nextIndex : Int)
  | copying (entry : E) (nextIndex : Int)
  | copied (entry : E) (nextIndex : Int)
  deriving DecidableEq, Repr

/-- Where the reader is in `remove`. -/
inductive Reader
  | idle
  /-- The queue was not empty. -/
  | found
  /-- The slot at this index is the result. -/
  | taken (index : Int)
  deriving DecidableEq, Repr

/-- A queue between one writer and one reader. -/
structure Handover (E : Type) where
  queue : ReaderWriterQueue E
  /-- The cell that an entry is being copied into. -/
  torn : Option Int
  writer : Writer E
  reader : Reader
  /-- The entries published so far. -/
  accepted : List E
  /-- What the slots returned so far held; `none` if it was no whole entry. -/
  returned : List (Option E)
  /-- The slot returned last, until the next `remove`. -/
  borrowed : Option Int

/-- The steps of the writer and of the reader. -/
inductive HandoverStep (E : Type)
  /-- `isFull` loads `readIndex`. -/
  | add (entry : E)
  | beginCopy
  | endCopy
  /-- `writeIndex` is stored. -/
  | publish
  /-- `isEmpty` loads `writeIndex`. -/
  | remove
  | take
  /-- `readIndex` is stored, and the slot returned. -/
  | advance

namespace Handover

variable {E : Type}

def new (queueSize : Nat) (dataEntries : ProcessingQueueDataArray E) : Handover E where
  queue := .new queueSize dataEntries
  torn := none
  writer := .idle
  reader := .idle
  accepted := []
  returned := []
  borrowed := none

/-- The entry in the cell at `index`, if there is a whole one. -/
def read (h : Handover E) (index : Int) : Option E :=
  if h.torn = some index then none
  else
    match h.queue.queueData index with
    | .entry e => some e
    | _ => none

/-- A cell that is whole before and after, and holds the same. -/
theorem read_congr {h h' : Handover E} {i : Int}
    (hdata : h'.queue.queueData i = h.queue.queueData i) (htorn : h.torn ≠ some i)
    (htorn' : h'.torn ≠ some i) : h'.read i = h.read i := by
  unfold read
  rw [if_neg htorn, if_neg htorn', hdata]

/-- One step of `add`. -/
def write (h : Handover E) : HandoverStep E → Option (Handover E)
  | .add entry =>
      match h.writer with
      | .idle =>
          let nextIndex := h.queue.isFull
          some (if nextIndex = IS_FULL then h else { h with writer := .room entry nextIndex })
      | _ => none
  | .beginCopy =>
      match h.writer with
      | .room entry nextIndex =>
          if h.queue.dataEntries.isCompatibleEntry entry &&
              h.queue.dataEntries.getQueueEntry h.queue.currentSize h.queue.writeIndex entry then
            some { h with torn := some h.queue.writeIndex, writer := .copying entry nextIndex }
          else some { h with writer := .idle }
      | _ => none
  | .endCopy =>
      match h.writer with
      | .copying entry nextIndex =>
          some { h with
            queue := h.queue.copyTo entry h.queue.writeIndex
            torn := none
            writer := .copied entry nextIndex }
      | _ => none
  | .publish =>
      match h.writer with
      | .copied entry nextIndex =>
          some { h with
            queue := { h.queue with
              writeIndex := nextIndex
              stats := h.queue.stats.incrementAddedCount }
            writer := .idle
            accepted := h.accepted ++ [entry] }
      | _ => none
  | _ => none

/-- One step of the system. -/
def next (h : Handover E) : HandoverStep E → Option (Handover E)
  | .remove =>
      match h.reader with
      | .idle => some { h with
          reader := if h.queue.isEmpty then .idle else .found
          borrowed := none }
      | _ => none
  | .take =>
      match h.reader with
      | .found => some { h with reader := .taken h.queue.readIndex }
      | _ => none
  | .advance =>
      match h.reader with
      | .taken index =>
          some { h with
            queue := { h.queue with readIndex := h.queue.nextIndex h.queue.readIndex }
            reader := .idle
            returned := h.returned ++ [h.read index]
            borrowed := some index }
      | _ => none
  | step => h.write step

/-- The schedules of a queue of the given size. -/
def system (queueSize : Nat) (dataEntries : ProcessingQueueDataArray E) :
    System (Handover E) (HandoverStep E) :=
  .ofFunction (· = .new queueSize dataEntries) next

/-- Undisturbed, the steps of an `add` that finds room are the call. -/
theorem add_uninterrupted {h : Handover E} {entry : E} (hsize : 0 < h.queue.currentSize)
    (hwriter : h.writer = .idle) (hwhole : h.torn = none) (hroom : h.queue.isFull ≠ IS_FULL)
    (hfits : (h.queue.insert entry).2 = true) :
    System.follow next (fun _ _ => True) h [.add entry, .beginCopy, .endCopy, .publish] =
      some { h with queue := (h.queue.add entry).1, accepted := h.accepted ++ [entry] } := by
  obtain ⟨q, torn, writer, reader, accepted, returned, borrowed⟩ := h
  obtain rfl : writer = .idle := hwriter
  obtain rfl : torn = none := hwhole
  have hroom : q.isFull ≠ IS_FULL := hroom
  have hsize : (q.currentSize : Int) ≠ 0 := Int.natCast_ne_zero.mpr (Nat.ne_of_gt hsize)
  have hindex : ¬ q.isFull < 0 := by
    have hmod : 0 ≤ q.nextIndex q.writeIndex := Int.emod_nonneg _ hsize
    by_cases hfull : q.nextIndex q.writeIndex = q.readIndex
    · exact absurd (if_pos hfull) hroom
    · rw [ReaderWriterQueue.isFull, if_neg hfull]
      exact Int.not_lt.mpr hmod
  have hplace : q.dataEntries.isCompatibleEntry entry = true ∧
      q.dataEntries.getQueueEntry q.currentSize q.writeIndex entry = true := by
    have hfits : (q.insert entry).2 = true := hfits
    unfold ReaderWriterQueue.insert at hfits
    split at hfits
    · rename_i hcompatible
      split at hfits
      · rename_i hcell
        exact ⟨hcompatible, hcell⟩
      · cases hfits
    · cases hfits
  have hadd : (q.add entry).1 = { q.copyTo entry q.writeIndex with
      writeIndex := q.isFull
      stats := q.stats.incrementAddedCount } := by
    simp [ReaderWriterQueue.add, ReaderWriterQueue.tryInsert, ReaderWriterQueue.insert, hroom,
      hplace, hindex, ReaderWriterQueue.copyTo]
  rw [hadd]
  simp [System.follow, next, write, hroom, hplace, ReaderWriterQueue.copyTo]

/-- Undisturbed, the steps of a `remove` that finds an entry are the call. -/
theorem remove_uninterrupted {h : Handover E} {q : ReaderWriterQueue E} {entry : E}
    (hreader : h.reader = .idle) (hwhole : h.torn = none)
    (hremove : h.queue.remove = .ok (q, some entry)) :
    System.follow next (fun _ _ => True) h [.remove, .take, .advance] =
      some { h with
        queue := q
        returned := h.returned ++ [some entry]
        borrowed := some h.queue.readIndex } := by
  unfold ReaderWriterQueue.remove at hremove
  split at hremove
  · cases hremove
  · rename_i hempty
    split at hremove
    · cases hremove
    · cases hremove
    · rename_i e hcell
      obtain ⟨rfl, rfl⟩ : _ = q ∧ e = entry := by simpa using hremove
      simp [System.follow, next, hreader, hempty, read, hwhole, hcell]

/-! ## The invariant -/

/-- `add` found room for the entry of the next number. -/
def HasRoom (n : Nat) (h : Handover E) (nextIndex : Int) : Prop :=
  nextIndex = slot n 0 (h.accepted.length + 1) ∧ h.accepted.length + 1 < h.returned.length + n

/-- The indices are the slots of the numbers of entries written and read, and the
cells in use hold the entries of their numbers. -/
structure Ordered (n : Nat) (h : Handover E) : Prop where
  size : h.queue.currentSize = n
  readIndex : h.queue.readIndex = slot n 0 h.returned.length
  writeIndex : h.queue.writeIndex = slot n 0 h.accepted.length
  low : h.returned.length ≤ h.accepted.length
  high : h.accepted.length < h.returned.length + n
  stored : ∀ k, h.returned.length ≤ k → k < h.accepted.length →
    h.queue.queueData (slot n 0 k) = (h.accepted[k]?).elim .unset .entry
  order : h.returned = (h.accepted.take h.returned.length).map some
  torn : ∀ i, h.torn = some i → i = slot n 0 h.accepted.length ∧
    h.accepted.length + 1 < h.returned.length + n
  writer : match h.writer with
    | .idle => h.torn = none
    | .room _ nextIndex => h.torn = none ∧ h.HasRoom n nextIndex
    | .copying _ nextIndex => h.HasRoom n nextIndex
    | .copied entry nextIndex => h.torn = none ∧ h.HasRoom n nextIndex ∧
        h.queue.queueData (slot n 0 h.accepted.length) = .entry entry
  reader : match h.reader with
    | .idle => True
    | .found => h.returned.length < h.accepted.length
    | .taken index => h.returned.length < h.accepted.length ∧
        index = slot n 0 h.returned.length
  borrowed : ∀ i, h.borrowed = some i → 0 < h.returned.length ∧
    i = slot n 0 (h.returned.length - 1) ∧ h.returned.getLast? = some (h.read i)

namespace Ordered

variable {n : Nat} {h h' : Handover E}

theorem new (hn : 0 < n) (dataEntries : ProcessingQueueDataArray E) :
    Ordered n (.new n dataEntries) where
  size := rfl
  readIndex := by simp [Handover.new, ReaderWriterQueue.new]
  writeIndex := by simp [Handover.new, ReaderWriterQueue.new]
  low := Nat.le_refl _
  high := by simpa [Handover.new] using hn
  stored := by simp [Handover.new]
  order := by simp [Handover.new]
  torn := by simp [Handover.new]
  writer := rfl
  reader := trivial
  borrowed := by simp [Handover.new]

theorem pos (hI : Ordered n h) : 0 < n := by
  have hlow := hI.low
  have hhigh := hI.high
  omega

/-- The cell of the next entry is not one of those still to be read. -/
theorem slot_ne (hI : Ordered n h) {k : Nat} (hlow : h.returned.length ≤ k)
    (hhigh : k < h.accepted.length) : slot n 0 k ≠ slot n 0 h.accepted.length := by
  have hwithin := hI.high
  intro heq
  rw [slot_inj 0 hI.pos hlow (by omega) hI.low hwithin] at heq
  omega

/-- The cell of the next entry, if there is room for it, is not the borrowed one. -/
theorem ne_borrowed (hI : Ordered n h) {i : Int} (hi : h.borrowed = some i)
    (hroom : h.accepted.length + 1 < h.returned.length + n) :
    i ≠ slot n 0 h.accepted.length := by
  obtain ⟨hpos, rfl, -⟩ := hI.borrowed i hi
  have hlow := hI.low
  intro heq
  rw [slot_inj 0 hI.pos (Nat.le_refl _) (by omega) (show h.returned.length - 1 ≤ _ by omega)
    (by omega)] at heq
  omega

/-- A slot still to be read holds the entry of its number, and holds it whole. -/
theorem read_eq (hI : Ordered n h) {k : Nat} (hlow : h.returned.length ≤ k)
    (hhigh : k < h.accepted.length) : h.read (slot n 0 k) = h.accepted[k]? := by
  have hstored := hI.stored k hlow hhigh
  have hsome : h.accepted[k]? = some h.accepted[k] := List.getElem?_eq_getElem hhigh
  have hwhole : h.torn ≠ some (slot n 0 k) := fun htorn =>
    hI.slot_ne hlow hhigh (hI.torn _ htorn).1
  rw [read, if_neg hwhole, hstored, hsome]
  rfl

/-- `isFull` finds room exactly when the entries are not a lap ahead. -/
theorem isFull_eq (hI : Ordered n h) :
    h.queue.isFull = if h.accepted.length + 1 = h.returned.length + n then IS_FULL
      else slot n 0 (h.accepted.length + 1) := by
  have hlow := hI.low
  have hhigh := hI.high
  have hiff : slot n 0 (h.accepted.length + 1) = slot n 0 h.returned.length ↔
      h.accepted.length + 1 = h.returned.length + n := by
    rw [← slot_succ, slot_succ_eq_iff 0 hI.pos hlow hhigh (Nat.le_refl _) (by omega)]
    omega
  simp only [ReaderWriterQueue.isFull, ReaderWriterQueue.nextIndex, HPQueue.nextIndex, hI.size,
    hI.writeIndex, hI.readIndex, slot_succ, hiff]

theorem isEmpty_eq (hI : Ordered n h) :
    h.queue.isEmpty = decide (h.returned.length = h.accepted.length) := by
  have hlow := hI.low
  have hhigh := hI.high
  have hiff := slot_inj 0 hI.pos (Nat.le_refl h.returned.length) (by omega) hlow hhigh
  rw [ReaderWriterQueue.isEmpty, hI.readIndex, hI.writeIndex]
  exact decide_eq_decide.mpr hiff

theorem add (hI : Ordered n h) {entry : E} (hstep : h.next (.add entry) = some h') :
    Ordered n h' := by
  simp only [next, write] at hstep
  split at hstep
  · rename_i hw
    obtain rfl := Option.some.inj hstep
    have hwriter := hI.writer
    rw [hw] at hwriter
    split
    · exact hI
    · rename_i hnot
      have hhigh := hI.high
      have hne : h.accepted.length + 1 ≠ h.returned.length + n := by
        intro heq
        exact hnot (by rw [hI.isFull_eq, if_pos heq])
      have hroom : h.HasRoom n h.queue.isFull :=
        ⟨by rw [hI.isFull_eq, if_neg hne], by omega⟩
      exact { hI with writer := ⟨hwriter, hroom⟩ }
  · cases hstep

theorem beginCopy (hI : Ordered n h) (hstep : h.next .beginCopy = some h') : Ordered n h' := by
  simp only [next, write] at hstep
  split at hstep
  · rename_i entry nextIndex hw
    have hwriter := hI.writer
    rw [hw] at hwriter
    obtain ⟨hwhole, hroom⟩ := hwriter
    split at hstep
    · obtain rfl := Option.some.inj hstep
      refine { hI with torn := ?_, writer := hroom, borrowed := ?_ }
      · intro i hi
        obtain rfl := Option.some.inj hi
        exact ⟨hI.writeIndex, hroom.2⟩
      · intro i hi
        obtain ⟨hpos, hslot, hlast⟩ := hI.borrowed i hi
        have hne := hI.ne_borrowed hi hroom.2
        refine ⟨hpos, hslot, hlast.trans (congrArg some ?_)⟩
        symm
        apply read_congr
        · rfl
        · simp [hwhole]
        · intro htorn
          exact hne ((Option.some.inj htorn).symm.trans hI.writeIndex)
    · obtain rfl := Option.some.inj hstep
      exact { hI with writer := hwhole }
  · cases hstep

theorem endCopy (hI : Ordered n h) (hstep : h.next .endCopy = some h') : Ordered n h' := by
  simp only [next, write] at hstep
  split at hstep
  · rename_i entry nextIndex hw
    obtain rfl := Option.some.inj hstep
    have hroom := hI.writer
    rw [hw] at hroom
    refine { hI with stored := ?_, torn := ?_, writer := ⟨rfl, hroom, ?_⟩, borrowed := ?_ }
    · intro k hlow hhigh
      show Function.update h.queue.queueData h.queue.writeIndex _ _ = _
      rw [hI.writeIndex, Function.update_of_ne (hI.slot_ne hlow hhigh)]
      exact hI.stored k hlow hhigh
    · intro i hi
      cases hi
    · show Function.update h.queue.queueData h.queue.writeIndex _ _ = _
      rw [hI.writeIndex, Function.update_self]
    · intro i hi
      obtain ⟨hpos, hslot, hlast⟩ := hI.borrowed i hi
      have hne := hI.ne_borrowed hi hroom.2
      refine ⟨hpos, hslot, hlast.trans (congrArg some ?_)⟩
      symm
      apply read_congr
      · show Function.update h.queue.queueData h.queue.writeIndex _ _ = _
        rw [hI.writeIndex, Function.update_of_ne hne]
      · intro htorn
        exact hne (hI.torn i htorn).1
      · simp
  · cases hstep

theorem publish (hI : Ordered n h) (hstep : h.next .publish = some h') : Ordered n h' := by
  simp only [next, write] at hstep
  split at hstep
  · rename_i entry nextIndex hw
    obtain rfl := Option.some.inj hstep
    have hwriter := hI.writer
    rw [hw] at hwriter
    obtain ⟨hwhole, ⟨hnext, hroom⟩, hcell⟩ := hwriter
    have hlow := hI.low
    have hreader := hI.reader
    refine
      { hI with
        writeIndex := by simpa using hnext
        low := by simpa using Nat.le_succ_of_le hlow
        high := by simpa using hroom
        stored := ?_
        order := ?_
        torn := by simp [hwhole]
        writer := hwhole
        reader := ?_ }
    · intro k hk hkw
      have hkw : k < h.accepted.length + 1 := by simpa using hkw
      show h.queue.queueData (slot n 0 k) = _
      by_cases hlast : k = h.accepted.length
      · rw [hlast, hcell]
        simp
      · rw [hI.stored k hk (by omega), List.getElem?_append_left (by omega)]
    · show h.returned = ((h.accepted ++ [entry]).take h.returned.length).map some
      rw [List.take_append_of_le_length hlow]
      exact hI.order
    · cases hr : h.reader with
      | idle => trivial
      | found =>
          rw [hr] at hreader
          simpa using Nat.lt_succ_of_lt hreader
      | taken index =>
          rw [hr] at hreader
          exact ⟨by simpa using Nat.lt_succ_of_lt hreader.1, hreader.2⟩
  · cases hstep

theorem remove (hI : Ordered n h) (hstep : h.next .remove = some h') : Ordered n h' := by
  simp only [next] at hstep
  split at hstep
  · obtain rfl := Option.some.inj hstep
    refine { hI with reader := ?_, borrowed := by simp }
    rw [hI.isEmpty_eq]
    by_cases hempty : h.returned.length = h.accepted.length
    · simp [hempty]
    · simpa [hempty] using Nat.lt_of_le_of_ne hI.low hempty
  · cases hstep

theorem take (hI : Ordered n h) (hstep : h.next .take = some h') : Ordered n h' := by
  simp only [next] at hstep
  split at hstep
  · rename_i hr
    obtain rfl := Option.some.inj hstep
    have hreader := hI.reader
    rw [hr] at hreader
    exact { hI with reader := ⟨hreader, hI.readIndex⟩ }
  · cases hstep

theorem advance (hI : Ordered n h) (hstep : h.next .advance = some h') : Ordered n h' := by
  simp only [next] at hstep
  split at hstep
  · rename_i index hr
    obtain rfl := Option.some.inj hstep
    have hreader := hI.reader
    rw [hr] at hreader
    obtain ⟨hlt, rfl⟩ := hreader
    have hhigh := hI.high
    have hread := hI.read_eq (Nat.le_refl _) hlt
    have hwriter := hI.writer
    have hmore : ∀ {nextIndex}, h.HasRoom n nextIndex → nextIndex =
        slot n 0 (h.accepted.length + 1) ∧ h.accepted.length + 1 < h.returned.length + 1 + n :=
      fun hroom => ⟨hroom.1, by have := hroom.2; omega⟩
    refine
      { hI with
        readIndex := ?_
        low := by
          rw [List.length_append, List.length_singleton]
          exact hlt
        high := by
          rw [List.length_append, List.length_singleton]
          exact Nat.lt_of_lt_of_le hhigh (by omega)
        stored := ?_
        order := ?_
        torn := ?_
        writer := ?_
        reader := trivial
        borrowed := ?_ }
    · show HPQueue.nextIndex h.queue.readIndex h.queue.currentSize = _
      rw [HPQueue.nextIndex, hI.readIndex, hI.size, slot_succ, List.length_append,
        List.length_singleton]
    · intro k hk hkw
      rw [List.length_append, List.length_singleton] at hk
      exact hI.stored k (by omega) hkw
    · rw [List.length_append, List.length_singleton, List.take_add_one, List.map_append,
        ← hI.order, hread, List.getElem?_eq_getElem hlt]
      rfl
    · intro i hi
      obtain ⟨hslot, hroom⟩ := hI.torn i hi
      refine ⟨hslot, ?_⟩
      rw [List.length_append, List.length_singleton]
      exact Nat.lt_of_lt_of_le hroom (by omega)
    · cases hw : h.writer with
      | idle =>
          rw [hw] at hwriter
          exact hwriter
      | room entry nextIndex =>
          rw [hw] at hwriter
          exact ⟨hwriter.1, by simpa [HasRoom] using hmore hwriter.2⟩
      | copying entry nextIndex =>
          rw [hw] at hwriter
          simpa [HasRoom] using hmore hwriter
      | copied entry nextIndex =>
          rw [hw] at hwriter
          exact ⟨hwriter.1, by simpa [HasRoom] using hmore hwriter.2.1, hwriter.2.2⟩
    · intro i hi
      obtain rfl := Option.some.inj hi
      exact ⟨by simp, by simp, by simp [read]⟩
  · cases hstep

/-- Every step of either side keeps the order. -/
theorem step (hI : Ordered n h) {l : HandoverStep E} (hstep : h.next l = some h') :
    Ordered n h' := by
  cases l with
  | add entry => exact hI.add hstep
  | beginCopy => exact hI.beginCopy hstep
  | endCopy => exact hI.endCopy hstep
  | publish => exact hI.publish hstep
  | remove => exact hI.remove hstep
  | take => exact hI.take hstep
  | advance => exact hI.advance hstep

end Ordered

/-- First in, first out: the entries returned are the first that were accepted, in
order and whole; and the cell of the entry returned last is neither written nor
being written until the next `remove`. -/
theorem fifo {n : Nat} (hn : 2 ≤ n) (dataEntries : ProcessingQueueDataArray E) {h : Handover E}
    (hreachable : (system n dataEntries).Reachable h) :
    h.returned = (h.accepted.take h.returned.length).map some ∧
      ∀ i, h.borrowed = some i → h.torn ≠ some i ∧
        ∃ e, h.returned.getLast? = some (some e) ∧ h.queue.queueData i = .entry e := by
  have hI : Ordered n h := by
    refine hreachable.invariant (I := Ordered n) ?_ ?_
    · rintro s rfl
      exact .new (by omega) dataEntries
    · intro s l t hs hstep
      exact hs.step hstep
  refine ⟨hI.order, ?_⟩
  intro i hi
  obtain ⟨hpos, -, hlast⟩ := hI.borrowed i hi
  obtain ⟨e, he⟩ : ∃ e, h.read i = some e := by
    have hmem : h.read i ∈ h.returned := List.mem_of_getLast? hlast
    rw [hI.order] at hmem
    obtain ⟨e, -, he⟩ := List.mem_map.mp hmem
    exact ⟨e, he.symm⟩
  rw [he] at hlast
  unfold read at he
  split at he
  · cases he
  · rename_i hwhole
    refine ⟨hwhole, e, hlast, ?_⟩
    split at he
    · rename_i e' hcell
      rw [hcell, Option.some.inj he]
    · cases he

/-- The writer fills a ring of two slots and fails to lap the reader, which still
uses the first slot. -/
theorem fifo_of_borrow :
    ∃ h : Handover Nat, h.accepted = [10, 11] ∧ h.returned = [some 10] ∧
      h.borrowed = some 0 ∧ h.queue.queueData 0 = .entry 10 := by
  let steps : List (HandoverStep Nat) :=
    [.add 10, .beginCopy, .endCopy, .publish, .remove, .take, .add 11, .advance, .add 11,
      .beginCopy, .endCopy, .publish, .add 12]
  have hend : (System.follow next (fun _ _ => True) (.new 2 (.uniform Nat 8)) steps).map
      (fun h => (h.accepted, h.borrowed, h.returned.length)) =
      some ([10, 11], some 0, 1) := by decide
  obtain ⟨h, hfollow, hh⟩ := Option.map_eq_some_iff.mp hend
  simp only [Prod.mk.injEq] at hh
  obtain ⟨haccepted, hborrowed, hlength⟩ := hh
  have hreachable : ((system 2 (.uniform Nat 8)).restrict fun _ _ => True).Reachable h :=
    System.reachable_follow steps (System.Reachable.start rfl) hfollow
  obtain ⟨horder, hkept⟩ := fifo (by decide) _ hreachable.of_restrict
  obtain ⟨-, e, hlast, hcell⟩ := hkept 0 hborrowed
  have hreturned : h.returned = [some 10] := by
    rw [horder, haccepted, hlength]
    rfl
  refine ⟨h, haccepted, hreturned, hborrowed, ?_⟩
  rw [hreturned] at hlast
  obtain rfl : 10 = e := by simpa using hlast
  exact hcell

end Handover

end HPQueue
