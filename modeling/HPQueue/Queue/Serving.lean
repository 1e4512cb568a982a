import HPQueue.Queue.TicketOrder

/-!
# The queue as its workers use it

What the workers of a processor rely on, whatever the size of the ring: the slot of
a reader becomes populated by an `add` and by nothing another reader does, and an
entry is given away once.  A ring of two slots or more serves by tickets; a ring of
one slot accepts nothing, and the one slot is everybody's.

## Main results

* `Serving.add`, `Serving.startAccess`, `Serving.remove`, `Serving.isEmpty` — one call.
* `Serving.slotIsEmpty` — the emptiness test.
* `Serving.mem_numbers` — what all tickets have passed was given away.
-/

namespace HPQueue

open Library.Ring

variable {ρ E : Type}

theorem bind_eq_ok {α β : Type} {x : Except Fault α} {f : α → Except Fault β} {b : β} :
    (x >>= f) = .ok b ↔ ∃ a, x = .ok a ∧ f a = .ok b := by
  cases x with
  | error e => simp [bind, Except.bind]
  | ok a => simp

theorem deref_eq_ok {s : SyncQueue ρ E} {p : Option ρ} {r : ρ} :
    deref s p = .ok r ↔ p = some r ∧ (s.readers r).inQueue = true := by
  cases p with
  | none => simp [deref]
  | some x =>
      by_cases hx : (s.readers x).inQueue = true
      · simp only [deref_some hx, Except.ok.injEq, Option.some.injEq]
        constructor
        · rintro rfl
          exact ⟨rfl, hx⟩
        · exact fun h => h.1
      · simp only [deref, hx, Option.some.injEq]
        constructor
        · intro h
          cases h
        · rintro ⟨rfl, h⟩
          exact absurd h hx

/-! ## A ring of one slot -/

namespace SyncQueue

/-- Every index is that of the one slot. -/
structure Single (s : SyncQueue ρ E) : Prop where
  size : s.currentSize = 1
  readIndex : s.readIndex = 0
  writeIndex : s.writeIndex = 0
  index : ∀ r, (s.readers r).inQueue = true → (s.readers r).index = 0

namespace Single

variable {s s' : SyncQueue ρ E} {r : ρ}

theorem nextIndex (h : s.Single) (i : Int) : s.nextIndex i = 0 := by
  rw [ReaderWriterQueue.nextIndex, HPQueue.nextIndex, h.size]
  omega

theorem slotIsEmpty (h : s.Single) (hr : (s.readers r).inQueue = true) :
    s.slotIsEmpty r = true := by
  simp [SyncQueue.slotIsEmpty, h.writeIndex, h.index r hr]

/-- An operation on the pointers, and on the indices of readers not in the list. -/
theorem congr (h : s.Single) (hring : s'.toReaderWriterQueue = s.toReaderWriterQueue)
    (hin : ∀ x, (s'.readers x).inQueue = (s.readers x).inQueue)
    (hindex : ∀ x, (s'.readers x).index = (s.readers x).index ∨ (s'.readers x).index = 0) :
    s'.Single where
  size := by rw [hring, h.size]
  readIndex := by rw [hring, h.readIndex]
  writeIndex := by rw [hring, h.writeIndex]
  index x hx := by
    rcases hindex x with he | he
    · rw [he]
      exact h.index x (by rwa [hin] at hx)
    · exact he

theorem add (h : s.Single) (e : E) : s.add e = (s, QueueConstants.IS_FULL) := by
  have hfull : s.isFull = QueueConstants.IS_FULL := by
    simp [ReaderWriterQueue.isFull, h.nextIndex, h.readIndex]
  simp [SyncQueue.add, ReaderWriterQueue.add, ReaderWriterQueue.tryInsert, hfull,
    QueueConstants.IS_FULL]

variable [DecidableEq ρ]

/-- The index of a reader that leads to another is never looked at. -/
theorem squeeze (h : s.Single) (hrun : SyncReaderList.squeeze s r = .ok s') :
    s'.Single ∧ ∀ x, (s'.readers x).inQueue = (s.readers x).inQueue := by
  have hlast : ∀ {s₁ : SyncQueue ρ E},
      (∃ b, (s₁.back = some b ∧ (s₁.readers b).inQueue = true) ∧
        { s₁ with readIndex := (s₁.readers b).index } = s') →
      s₁.Single → (∀ x, (s₁.readers x).inQueue = (s.readers x).inQueue) →
      s'.Single ∧ ∀ x, (s'.readers x).inQueue = (s.readers x).inQueue := by
    rintro s₁ ⟨b, hb, rfl⟩ hs₁ hin
    exact ⟨⟨hs₁.size, hs₁.index b hb.2, hs₁.writeIndex, hs₁.index⟩, hin⟩
  unfold SyncReaderList.squeeze at hrun
  dsimp only at hrun
  split at hrun
  all_goals simp only [bind_eq_ok, deref_eq_ok, pure_eq_ok, Except.ok.injEq] at hrun
  · obtain ⟨b, hb, c, hc, f, hf, g, hg, p, hp, s₁, rfl, hrun⟩ := hrun
    have hp0 := h.index p (by simpa using hp.2)
    refine hlast hrun (h.congr rfl (by simp) ?_) (by simp)
    intro x
    by_cases hx : x = r
    · simp [hx, hp0]
    · simp [hx]
  · obtain ⟨s₁, rfl, hrun⟩ := hrun
    exact hlast hrun h fun _ => rfl

/-- The list always spans the ring, and nobody is assigned another slot. -/
theorem moveToFront (h : s.Single) {moved : Bool}
    (hrun : SyncReaderList.moveToFront s r = .ok (s', moved)) :
    moved = false ∧ s'.Single ∧ ∀ x, (s'.readers x).inQueue = (s.readers x).inQueue := by
  unfold SyncReaderList.moveToFront at hrun
  dsimp only at hrun
  split at hrun
  · cases hrun
  · obtain ⟨f, hf, hrun⟩ := bind_eq_ok.mp hrun
    obtain ⟨b, hb, hrun⟩ := bind_eq_ok.mp hrun
    rw [if_neg (by simp [h.nextIndex, h.index b (deref_eq_ok.mp hb).2])] at hrun
    split at hrun
    · obtain ⟨s₁, hs₁, hrun⟩ := bind_eq_ok.mp hrun
      obtain ⟨rfl, rfl⟩ := Prod.mk.inj (Except.ok.inj hrun)
      exact ⟨rfl, h.squeeze hs₁⟩
    · obtain ⟨rfl, rfl⟩ := Prod.mk.inj (Except.ok.inj hrun)
      exact ⟨rfl, h, fun _ => rfl⟩

theorem remove (h : s.Single) (hr : (s.readers r).inQueue = true) {result : Option E}
    (hrun : s.remove r = .ok (s', result)) :
    result = none ∧ s'.Single ∧ ∀ x, (s'.readers x).inQueue = (s.readers x).inQueue := by
  unfold SyncQueue.remove at hrun
  split at hrun
  · rw [SyncQueue.removeSlot, SyncQueue.isEmpty, h.slotIsEmpty hr] at hrun
    obtain ⟨rfl, rfl⟩ := Prod.mk.inj (Except.ok.inj hrun)
    exact ⟨rfl, h.congr rfl (by simp) (by simp), by simp⟩
  · obtain ⟨⟨s₁, moved⟩, hs₁, hrun⟩ := bind_eq_ok.mp hrun
    obtain ⟨rfl, hsingle, hin⟩ := h.moveToFront hs₁
    obtain ⟨rfl, rfl⟩ := Prod.mk.inj (Except.ok.inj hrun)
    exact ⟨rfl, hsingle, hin⟩

theorem startAccess (h : s.Single) (hrun : s.startAccess r = .ok s') :
    s'.Single ∧ ∀ x, (s'.readers x).inQueue = true ↔ x = r ∨ (s.readers x).inQueue = true := by
  unfold SyncQueue.startAccess SyncReaderList.add at hrun
  dsimp only at hrun
  split at hrun
  · cases hrun
  · have hjoined : ∀ {s₁ : SyncQueue ρ E}, (s₁.setIsEmpty r true).setInQueue r true = s' →
        s₁.Single → (s₁.readers r).index = 0 →
        (∀ x, (s₁.readers x).inQueue = (s.readers x).inQueue) →
        s'.Single ∧ ∀ x, (s'.readers x).inQueue = true ↔
          x = r ∨ (s.readers x).inQueue = true := by
      rintro s₁ rfl hs₁ hindex hin
      refine ⟨⟨hs₁.size, hs₁.readIndex, hs₁.writeIndex, ?_⟩, ?_⟩
      · intro x hx
        by_cases hxr : x = r
        · simpa [hxr] using hindex
        · simpa [hxr] using hs₁.index x (by simpa [hxr] using hx)
      · intro x
        by_cases hxr : x = r
        · simp [hxr]
        · simp [hxr, hin]
    split at hrun
    · simp only [pure_eq_ok, ok_bind, Except.ok.injEq] at hrun
      refine hjoined hrun (h.congr rfl (by simp) ?_) ?_ (by simp)
      · intro x
        by_cases hxr : x = r
        · simp [hxr, h.readIndex]
        · simp [hxr]
      · simp [h.readIndex]
    · rename_i f hf
      obtain ⟨b, hb, hrun⟩ := bind_eq_ok.mp hrun
      rw [if_neg (by simp [h.nextIndex, h.index b (deref_eq_ok.mp hb).2])] at hrun
      simp only [bind_eq_ok, deref_eq_ok, pure_eq_ok, Except.ok.injEq] at hrun
      obtain ⟨p, hp, s₁, rfl, hrun⟩ := hrun
      have hp0 := h.index p (by simpa using hp.2)
      refine hjoined hrun (h.congr rfl (by simp) ?_) ?_ (by simp)
      · intro x
        by_cases hxr : x = r
        · simp [hxr, hp0]
        · simp [hxr]
      · simp [hp0]

end Single

end SyncQueue

namespace Ledger

variable [DecidableEq ρ]

/-- The ledger of a queue whose readers stay. -/
inductive Serving (n : Nat) (t : Ledger ρ E) (T : Tickets ρ E) : Prop
  | tickets (hn : 2 ≤ n) (h : Dispensed n t T)
  | single (h : t.queue.Single) (haccepted : t.accepted = []) (hreturned : t.returned = [])
      (hborrowed : ∀ r, t.borrowed r = none) (hT : T = .new ρ E)

/-- What an `add` leaves as it is. -/
structure Fed (t t' : Ledger ρ E) (T T' : Tickets ρ E) : Prop where
  accepted : t.accepted <+: t'.accepted
  ticket : T'.ticket = T.ticket
  readers : t'.queue.readers = t.queue.readers
  returned : t'.returned = t.returned
  borrowed : t'.borrowed = t.borrowed

/-- What a call of `r` leaves as it is. -/
structure Besides (r : ρ) (t t' : Ledger ρ E) (T T' : Tickets ρ E) : Prop where
  accepted : t'.accepted = t.accepted
  written : T'.written = T.written
  ticket : ∀ x, x ≠ r → T'.ticket x = T.ticket x
  inQueue : ∀ x, (t'.queue.readers x).inQueue = true ↔
    x = r ∨ (t.queue.readers x).inQueue = true
  borrowed : ∀ x, x ≠ r → t'.borrowed x = t.borrowed x

omit [DecidableEq ρ] in
/-- A call that leaves the tickets as they are. -/
theorem Besides.of_readers {r : ρ} {t t' : Ledger ρ E} {T : Tickets ρ E}
    (hr : (t.queue.readers r).inQueue = true) (haccepted : t'.accepted = t.accepted)
    (hin : ∀ x, (t'.queue.readers x).inQueue = (t.queue.readers x).inQueue)
    (hborrowed : t'.borrowed = t.borrowed) : Besides r t t' T T where
  accepted := haccepted
  written := rfl
  ticket := fun _ _ => rfl
  inQueue := by
    intro x
    rw [hin]
    constructor
    · exact .inr
    · rintro (rfl | hx)
      · exact hr
      · exact hx
  borrowed := fun x _ => by rw [hborrowed]

namespace Serving

variable {n : Nat} {t t' : Ledger ρ E} {T : Tickets ρ E} {r : ρ}

theorem new (hn : 0 < n) (dataEntries : ProcessingQueueDataArray E) :
    Serving n (.new ρ n dataEntries) (.new ρ E) := by
  rcases Nat.lt_or_ge n 2 with hlt | hge
  · obtain rfl : n = 1 := by omega
    refine .single ⟨rfl, rfl, rfl, ?_⟩ rfl rfl (fun _ => rfl) rfl
    simp [Ledger.new, SyncQueue.new, ReaderIndex.new]
  · exact .tickets hge (.new (by omega) dataEntries)

theorem length (h : Serving n t T) : t.accepted.length = T.written := by
  cases h with
  | tickets hn h => exact h.follows.length
  | single h haccepted hreturned hborrowed hT => simp [haccepted, hT, Tickets.new, Tickets.written]

/-- A slot is populated once its number was accepted. -/
theorem slotIsEmpty (h : Serving n t T) (hr : (t.queue.readers r).inQueue = true) :
    t.queue.slotIsEmpty r = decide (T.written ≤ T.ticket r) := by
  cases h with
  | tickets hn h =>
      exact h.follows.represents.slotIsEmpty_eq h.follows.sound (h.follows.represents.mem_iff.mp hr)
  | single h haccepted hreturned hborrowed hT =>
      simp [h.slotIsEmpty hr, hT, Tickets.new, Tickets.written]

theorem once (h : Serving n t T) : t.numbers.Nodup := by
  cases h with
  | tickets hn h => exact h.ticketOrder.once
  | single h haccepted hreturned hborrowed hT => simp [Ledger.numbers, hreturned]

/-- The reader still finds the entry it was given. -/
theorem entry (h : Serving n t T) {k : Nat} (hk : t.borrowed r = some k) :
    ∃ e i, t.accepted[k]? = some (e, i) ∧
      t.queue.queueData (t.queue.readers r).index = .entry e := by
  cases h with
  | tickets hn h =>
      obtain ⟨e, i, haccepted, hindex, -, hentry⟩ := h.ticketOrder.borrowed r k hk
      exact ⟨e, i, haccepted, by rw [hindex, hentry]⟩
  | single h haccepted hreturned hborrowed hT => simp [hborrowed] at hk

/-- Every number below all tickets was given away. -/
theorem mem_numbers (h : Serving n t T) {k : Nat} (hr : (t.queue.readers r).inQueue = true)
    (hk : k < T.written) (hticket : ∀ x, (t.queue.readers x).inQueue = true → k < T.ticket x) :
    k ∈ t.numbers := by
  cases h with
  | tickets hn h =>
      have hmem := fun x => h.follows.represents.mem_iff (r := x)
      have hnext := h.follows.sound.lt_next ((hmem r).mp hr)
      rcases h.follows.sound.held k (by have := hticket r hr; omega) with hret | ⟨x, hx, htx, -⟩
      · rwa [h.follows.numbers]
      · have hlt := hticket x ((hmem x).mpr hx)
        omega
  | single h haccepted hreturned hborrowed hT => simp [hT, Tickets.new, Tickets.written] at hk

omit [DecidableEq ρ] in
theorem accepted_of_neg {e : E} (hneg : (t.queue.add e).2 < 0) :
    (t.add e).accepted = t.accepted := by
  unfold Ledger.add
  dsimp only
  rw [if_pos hneg]

omit [DecidableEq ρ] in
theorem add_readers (t : Ledger ρ E) (e : E) :
    (t.add e).queue.readers = t.queue.readers := by
  unfold Ledger.add
  dsimp only
  split <;> rfl

/-- An entry that is refused leaves no trace. -/
theorem add (h : Serving n t T) (e : E) :
    ∃ T', Serving n (t.add e) T' ∧ Fed t (t.add e) T T' ∧
      ((t.queue.add e).2 < 0 → T' = T) := by
  have hrefused : t.add e = t → ∃ T', Serving n (t.add e) T' ∧ Fed t (t.add e) T T' ∧
      ((t.queue.add e).2 < 0 → T' = T) := by
    intro hsame
    rw [hsame]
    exact ⟨T, h, ⟨List.prefix_refl _, rfl, rfl, rfl, rfl⟩, fun _ => rfl⟩
  cases h with
  | tickets hn h =>
      rcases h.add e with ⟨hadd, haccepted, hreturned, hborrowed⟩ | hsame
      · refine ⟨T.write e, .tickets hn hadd, ?_, ?_⟩
        · refine ⟨?_, rfl, add_readers t e, hreturned, hborrowed⟩
          rw [haccepted]
          exact List.prefix_append _ _
        · intro hneg
          rw [accepted_of_neg hneg] at haccepted
          simp at haccepted
      · exact hrefused hsame
  | single h => exact hrefused (by simp [Ledger.add, h.add, QueueConstants.IS_FULL])

theorem inQueue_of_startAccess (hrun : t.startAccess r = .ok t') :
    (t.queue.readers r).inQueue = false := by
  obtain ⟨s, hs, -⟩ := bind_eq_ok.mp hrun
  unfold SyncQueue.startAccess SyncReaderList.add at hs
  dsimp only at hs
  split at hs
  · cases hs
  · rename_i hin
    simpa using hin

theorem startAccess (h : Serving n t T) (hrun : t.startAccess r = .ok t') :
    ∃ T', Serving n t' T' ∧ Besides r t t' T T' ∧ t'.returned = t.returned := by
  cases h with
  | tickets hn h =>
      have hr := inQueue_of_startAccess hrun
      obtain ⟨u, hrun', hu⟩ := h.startAccess hn hr
      obtain ⟨v, hrun'', -, -, -, hreturned, hborrowed⟩ :=
        h.follows.startAccess hn hr (h.tight.level n r)
      obtain rfl := Except.ok.inj (hrun.symm.trans hrun')
      obtain rfl := Except.ok.inj (hrun.symm.trans hrun'')
      refine ⟨T.join n r, .tickets hn hu, ?_, hreturned⟩
      refine ⟨?_, ?_, fun x hx => Tickets.join_ticket_of_ne hx, ?_, fun x _ => by rw [hborrowed]⟩
      · rw [hu.follows.accepted, h.follows.accepted, Tickets.join_accepted]
      · simp [Tickets.written]
      · intro x
        rw [hu.follows.represents.mem_iff, h.follows.represents.mem_iff, h.follows.sound.mem_join]
  | single h haccepted hreturned hborrowed hT =>
      obtain ⟨s, hs, hrun⟩ := bind_eq_ok.mp hrun
      obtain ⟨hsingle, hin⟩ := h.startAccess hs
      dsimp only at hrun
      split at hrun
      all_goals
        obtain rfl := Except.ok.inj hrun
        exact ⟨T, .single hsingle haccepted hreturned hborrowed hT,
          ⟨rfl, rfl, fun _ _ => rfl, hin, fun _ _ => rfl⟩, rfl⟩

/-- What a `remove` returns, if anything, is the next number of its reader. -/
theorem remove (h : Serving n t T) (hr : (t.queue.readers r).inQueue = true)
    (hrun : t.remove r = .ok t') :
    ∃ T', Serving n t' T' ∧ Besides r t t' T T' ∧
      (t'.borrowed r = none ∧ t'.returned = t.returned ∨
        ∃ k, t'.borrowed r = some k ∧ t'.returned = t.returned ++ [(r, k)]) := by
  cases h with
  | tickets hn h =>
      have hrl := h.follows.represents.mem_iff.mp hr
      obtain ⟨u, hrun', hu⟩ := h.remove hn hrl
      obtain ⟨v, hrun'', -, -, -, hreturned, hborrowed⟩ :=
        h.follows.remove hn hrl fun _ => h.tight.level n r
      obtain rfl := Except.ok.inj (hrun.symm.trans hrun')
      obtain rfl := Except.ok.inj (hrun.symm.trans hrun'')
      refine ⟨T.ask n r, .tickets hn hu, ?_, ?_⟩
      · refine ⟨?_, ?_, fun x hx => Tickets.ask_ticket_of_ne hx, ?_, ?_⟩
        · rw [hu.follows.accepted, h.follows.accepted, Tickets.ask_accepted]
        · simp [Tickets.written]
        · intro x
          rw [hu.follows.represents.mem_iff, h.follows.represents.mem_iff,
            h.follows.sound.mem_ask hrl]
          constructor
          · exact .inr
          · rintro (rfl | hx)
            · exact hrl
            · exact hx
        · intro x hx
          rw [hborrowed, Function.update_of_ne hx]
      · cases hanswer : T.answer n r with
        | none => exact .inl ⟨by simp [hborrowed, hanswer], by simp [hreturned, hanswer]⟩
        | some e =>
            refine .inr ⟨(T.ask n r).ticket r, ?_, ?_⟩
            · simp [hborrowed, hanswer]
            · simp [hreturned, hanswer]
  | single h haccepted hreturned hborrowed hT =>
      obtain ⟨⟨s, result⟩, hs, hrun⟩ := bind_eq_ok.mp hrun
      obtain ⟨rfl, hsingle, hin⟩ := h.remove hr hs
      have hmoved : t.movesToFront r = false := by
        unfold Ledger.movesToFront
        cases hmove : SyncReaderList.moveToFront t.queue r with
        | error f => simp
        | ok p =>
            obtain ⟨s₁, moved⟩ := p
            obtain ⟨hfalse, -⟩ := h.moveToFront hmove
            simp [hfalse]
      obtain rfl := Except.ok.inj hrun
      have hnone : ∀ x, Function.update t.borrowed r none x = none := by
        intro x
        by_cases hx : x = r
        · simp [hx]
        · simp [hx, hborrowed]
      refine ⟨T, ?_, ?_, .inl ?_⟩
      · simp only [hmoved]
        exact .single hsingle haccepted hreturned hnone hT
      · simp only [hmoved]
        refine ⟨rfl, rfl, fun _ _ => rfl, ?_, fun x hx => Function.update_of_ne hx _ _⟩
        intro x
        show (s.readers x).inQueue = true ↔ _
        rw [hin]
        constructor
        · exact .inr
        · rintro (rfl | hx)
          · exact hr
          · exact hx
      · simp only [hmoved]
        exact ⟨hnone r, rfl⟩

theorem isEmpty (h : Serving n t T) (r : ρ) : Serving n (t.isEmpty r) T := by
  cases h with
  | tickets hn h =>
      refine .tickets hn { h with follows := { h.follows with represents := ?_ } }
      refine ⟨h.follows.represents.congr rfl rfl rfl ?_ rfl rfl rfl rfl, ?_⟩
      · intro x
        simp [Ledger.isEmpty, SyncQueue.isEmpty]
      · intro x hx
        simpa [Ledger.isEmpty, SyncQueue.isEmpty] using h.follows.represents.isDone x hx
  | single h haccepted hreturned hborrowed hT =>
      refine .single (h.congr rfl ?_ ?_) haccepted hreturned hborrowed hT
      · simp [Ledger.isEmpty, SyncQueue.isEmpty]
      · simp [Ledger.isEmpty, SyncQueue.isEmpty]

end Serving

end Ledger

end HPQueue
