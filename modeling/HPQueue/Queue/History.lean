import HPQueue.Queue.Ledger
import HPQueue.Queue.Refinement

/-!
# The history of a queue is the history of its line

`Follows` ties a `Ledger` to the line of tickets its queue stands for: the
numbers of the ledger are the numbers of the line.  Each call but `endAccess`
keeps the tie, whatever the state, and never faults.

## Main results

* `Follows.add`, `Follows.startAccess`, `Follows.remove` — one call of the queue
  is one operation of the line.
-/

namespace HPQueue

open Library.Ring

variable {ρ E : Type} [DecidableEq ρ]

namespace Ledger

/-- The ledger's queue stands for the line `T`, and its numbers are those of `T`. -/
structure Follows (n : Nat) (t : Ledger ρ E) (T : Tickets ρ E) : Prop where
  sound : T.Sound n
  represents : Represents n 0 t.queue T
  accepted : t.accepted = T.accepted.mapIdx fun k e => (e, slot n 0 k)
  occupant : ∀ k, T.base ≤ k → k < T.written → t.occupant (slot n 0 k) = k
  numbers : t.numbers = T.returned

namespace Follows

variable {n : Nat} {t : Ledger ρ E} {T : Tickets ρ E}

omit [DecidableEq ρ] in
theorem length (h : Follows n t T) : t.accepted.length = T.written := by
  simp [h.accepted, Tickets.written]

omit [DecidableEq ρ] in
theorem getElem?_accepted (h : Follows n t T) (k : Nat) :
    t.accepted[k]? = T.accepted[k]?.map fun e => (e, slot n 0 k) := by
  simp [h.accepted, List.getElem?_mapIdx]

theorem new (hn : 0 < n) (dataEntries : ProcessingQueueDataArray E) :
    Follows n (.new ρ n dataEntries) (.new ρ E) where
  sound := .new hn
  represents := .new dataEntries
  accepted := rfl
  occupant := by simp [Tickets.new, Tickets.written]
  numbers := rfl

omit [DecidableEq ρ] in
/-- `add` numbers the entry it accepts, and refuses one without a trace. -/
theorem add (h : Follows n t T) (e : E) :
    (t.queue.dataEntries.CanStore e ∧ T.written + 1 < T.base + n ∧
      Follows n (t.add e) (T.write e) ∧
      (t.add e).accepted = t.accepted ++ [(e, slot n 0 T.written)] ∧
      (t.add e).occupant = Function.update t.occupant (slot n 0 T.written) T.written ∧
      (t.add e).assigned = t.assigned ∧ (t.add e).held = t.held ∧
      (t.add e).returned = t.returned ∧ (t.add e).borrowed = t.borrowed) ∨
    t.add e = t := by
  have hn : 0 < n := by
    have hlow := h.sound.base_le_written
    have hwithin := h.sound.within
    omega
  by_cases hfit : t.queue.dataEntries.CanStore e ∧ T.written + 1 < T.base + n
  · left
    obtain ⟨he, hroom⟩ := hfit
    obtain ⟨s', hrun, hs'⟩ := h.represents.add h.sound he hroom
    have hadd : t.add e = { t with
        queue := s'
        accepted := t.accepted ++ [(e, slot n 0 T.written)]
        occupant := Function.update t.occupant (slot n 0 T.written) T.written } := by
      simp only [Ledger.add, hrun, if_neg (Int.not_lt.mpr (slot_nonneg 0 hn T.written)),
        h.length]
    refine ⟨he, hroom, ?_, by rw [hadd], by rw [hadd], by rw [hadd], by rw [hadd],
      by rw [hadd], by rw [hadd]⟩
    rw [hadd]
    refine
      { sound := h.sound.write e hroom
        represents := hs'
        accepted := ?_
        occupant := ?_
        numbers := h.numbers }
    · simp [Tickets.write, h.accepted, List.mapIdx_concat, Tickets.written]
    · intro k hk hkw
      change Function.update t.occupant (slot n 0 T.written) T.written (slot n 0 k) = k
      have hk : T.base ≤ k := hk
      rw [Tickets.written_write] at hkw
      by_cases hkT : k = T.written
      · rw [hkT, Function.update_self]
      · have hne : slot n 0 k ≠ slot n 0 T.written := by
          rw [Ne, slot_inj 0 hn hk (by omega) h.sound.base_le_written h.sound.within]
          exact hkT
        rw [Function.update_of_ne hne]
        exact h.occupant k hk (by omega)
  · right
    obtain ⟨i, hi, hrun, -⟩ := h.represents.add_refused h.sound hfit
    simp [Ledger.add, hrun, hi]

omit [DecidableEq ρ] in
/-- The history is kept by any operation of the line that accepts nothing. -/
theorem of_step (h : Follows n t T) {t' : Ledger ρ E} {T' : Tickets ρ E}
    (hsound : T'.Sound n) (hrepresents : Represents n 0 t'.queue T')
    (haccepted : T'.accepted = T.accepted) (hbase : T.base ≤ T'.base)
    (hentries : t'.accepted = t.accepted) (hoccupant : t'.occupant = t.occupant)
    (hnumbers : t'.numbers = T'.returned) : Follows n t' T' where
  sound := hsound
  represents := hrepresents
  accepted := by rw [hentries, h.accepted, haccepted]
  occupant k hk hkw := by
    rw [hoccupant]
    exact h.occupant k (by omega) (by simpa [Tickets.written, haccepted] using hkw)
  numbers := hnumbers

/-- `startAccess` assigns the next slot unless the line spans the ring. -/
theorem startAccess (h : Follows n t T) (hn : 2 ≤ n) {r : ρ}
    (hr : (t.queue.readers r).inQueue = false) (hlevel : T.Level n r) :
    ∃ t', t.startAccess r = .ok t' ∧ Follows n t' (T.join n r) ∧
      t'.assigned = (if T.Spans n then t.assigned else t.assigned ++ [(r, slot n 0 T.next)]) ∧
      t'.held = (if T.Spans n then t.held
        else Function.update t.held r (some t.assigned.length)) ∧
      t'.returned = t.returned ∧ t'.borrowed = t.borrowed := by
  obtain ⟨s', hrun, hs'⟩ := h.represents.startAccess h.sound hn hr
  have hrl : r ∉ T.line := fun hm => by simp [h.represents.mem_iff.mpr hm] at hr
  have hjoin := h.sound.join hn hrl hlevel
  have hmem : r ∈ (T.join n r).line := by
    unfold Tickets.join
    split <;> simp [Tickets.share, Tickets.draw]
  have hflag : (s'.readers r).isDone = decide (T.Spans n) := by
    rw [hs'.isDone r hmem, Tickets.join_isDone]
  by_cases hspans : T.Spans n
  · refine ⟨{ t with queue := s' }, ?_, ?_, by simp [hspans], by simp [hspans], rfl, rfl⟩
    · simp [Ledger.startAccess, hrun, hflag, hspans]
    · exact h.of_step hjoin hs' (by simp) (h.sound.base_le_join hn) rfl rfl
        (by simpa [Ledger.numbers] using h.numbers)
  · have hindex : (s'.readers r).index = slot n 0 T.next := by
      rw [hs'.index r hmem]
      simp [Tickets.join, hspans, Tickets.draw]
    refine ⟨({ t with queue := s' } : Ledger ρ E).assign r, ?_, ?_, ?_, ?_, rfl, rfl⟩
    · simp [Ledger.startAccess, hrun, hflag, hspans]
    · exact h.of_step hjoin hs' (by simp) (h.sound.base_le_join hn) rfl rfl
        (by simpa [Ledger.numbers, Ledger.assign] using h.numbers)
    · simp [Ledger.assign, hindex, hspans]
    · simp [Ledger.assign, hspans]

/-- `remove` is assigned a slot when `moveToFront` gives it one. -/
theorem movesToFront_eq (h : Follows n t T) (hn : 2 ≤ n) {r : ρ} (hr : r ∈ T.line) :
    t.movesToFront r = (T.isDone r && !decide (T.Spans n)) := by
  have hflag := h.represents.isDone r hr
  cases hdone : T.isDone r with
  | false => simp [Ledger.movesToFront, hflag, hdone]
  | true =>
      by_cases hspans : T.Spans n
      · obtain ⟨s', hrun, -⟩ := h.represents.moveToFront_stays h.sound hn hr hdone hspans
        simp [Ledger.movesToFront, hflag, hdone, hrun, hspans]
      · obtain ⟨s', hrun, -⟩ := h.represents.moveToFront_draws h.sound hn hr hspans
        simp [Ledger.movesToFront, hflag, hdone, hrun, hspans]

/-- `remove` asks the line: a slot is assigned when the reader draws, and the
entry returned is the one whose number is the reader's ticket. -/
theorem remove (h : Follows n t T) (hn : 2 ≤ n) {r : ρ} (hr : r ∈ T.line)
    (hlevel : T.isDone r = true → T.Level n r) :
    ∃ t', t.remove r = .ok t' ∧ Follows n t' (T.ask n r) ∧
      t'.assigned = (if T.isDone r = true ∧ ¬ T.Spans n
        then t.assigned ++ [(r, slot n 0 T.next)] else t.assigned) ∧
      t'.held = (if T.isDone r = true ∧ ¬ T.Spans n
        then Function.update t.held r (some t.assigned.length) else t.held) ∧
      t'.returned = (if (T.answer n r).isSome
        then t.returned ++ [(r, (T.ask n r).ticket r)] else t.returned) ∧
      t'.borrowed = Function.update t.borrowed r
        (if (T.answer n r).isSome then some ((T.ask n r).ticket r) else none) := by
  obtain ⟨s', hrun, hs'⟩ := h.represents.remove h.sound hn hr hlevel
  have hask := h.sound.ask hn hr hlevel
  have hbase := h.sound.base_le_ask hn (r := r)
  have hmoved := h.movesToFront_eq hn hr
  have hindex := hs'.index r ((h.sound.mem_ask hr).mpr hr)
  have hmoved : t.movesToFront r = decide (T.isDone r = true ∧ ¬ T.Spans n) := by
    rw [h.movesToFront_eq hn hr]
    by_cases hspans : T.Spans n <;> simp [hspans]
  have hdrawn : T.isDone r = true ∧ ¬ T.Spans n → (T.ask n r).ticket r = T.next := fun hm =>
    Tickets.ask_ticket_of_drawing T r hm.1 hm.2
  -- the number the ledger reads off the slot is the reader's ticket
  have hnumber : ∀ e, T.answer n r = some e →
      t.occupant (s'.readers r).index = (T.ask n r).ticket r := by
    intro e he
    have hlow := hask.base_le ((h.sound.mem_ask hr).mpr hr)
    rw [hindex, h.occupant _ (by omega) (Tickets.ask_of_some he).2.1]
  have hlink : ∀ t' : Ledger ρ E, t'.queue = s' → t'.accepted = t.accepted →
      t'.occupant = t.occupant →
      t'.returned = (if (T.answer n r).isSome
        then t.returned ++ [(r, (T.ask n r).ticket r)] else t.returned) →
      Follows n t' (T.ask n r) := by
    intro t' hq ha ho hret
    refine h.of_step hask (hq ▸ hs') (by simp) hbase ha ho ?_
    have hnumbers := h.numbers
    unfold Ledger.numbers at hnumbers
    cases hanswer : T.answer n r with
    | none => simp [Ledger.numbers, hret, hanswer, hnumbers, Tickets.ask_of_none hanswer]
    | some e =>
        simp [Ledger.numbers, hret, hanswer, hnumbers, (Tickets.ask_of_some hanswer).1]
  have hsettle : ∀ u : Ledger ρ E, u.queue = s' → u.accepted = t.accepted →
      u.occupant = t.occupant → u.returned = t.returned → u.borrowed = t.borrowed →
      Follows n (u.settle r (T.answer n r)) (T.ask n r) ∧
      (u.settle r (T.answer n r)).assigned = u.assigned ∧
      (u.settle r (T.answer n r)).held = u.held ∧
      (u.settle r (T.answer n r)).returned = (if (T.answer n r).isSome
        then t.returned ++ [(r, (T.ask n r).ticket r)] else t.returned) ∧
      (u.settle r (T.answer n r)).borrowed = Function.update t.borrowed r
        (if (T.answer n r).isSome then some ((T.ask n r).ticket r) else none) := by
    intro u hq ha ho hret hb
    cases hanswer : T.answer n r with
    | none =>
        refine ⟨hlink _ hq ha ho ?_, rfl, rfl, ?_, ?_⟩ <;>
          simp [Ledger.settle, hret, hb, hanswer]
    | some e =>
        have hno : u.occupant (u.queue.readers r).index = (T.ask n r).ticket r := by
          rw [hq, ho, hnumber e hanswer]
        refine ⟨hlink _ hq ha ho ?_, rfl, rfl, ?_, ?_⟩ <;>
          simp [Ledger.settle, hret, hb, hanswer, hno]
  by_cases hm : T.isDone r = true ∧ ¬ T.Spans n
  · have hu := hsettle (({ t with queue := s' } : Ledger ρ E).assign r) rfl rfl rfl rfl rfl
    refine ⟨_, by simp [Ledger.remove, hrun, hmoved, hm], hu.1, ?_, ?_, hu.2.2.2⟩
    · rw [hu.2.1]
      simp [Ledger.assign, hm, hindex, hdrawn hm]
    · rw [hu.2.2.1]
      simp [Ledger.assign, hm]
  · have hu := hsettle { t with queue := s' } rfl rfl rfl rfl rfl
    refine ⟨_, by simp [Ledger.remove, hrun, hmoved, hm], hu.1, ?_, ?_, hu.2.2.2⟩
    · rw [hu.2.1, if_neg hm]
    · rw [hu.2.2.1, if_neg hm]

end Follows

end Ledger

end HPQueue
