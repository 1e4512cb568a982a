import HPQueue.Queue.History

/-!
# Tickets of a fixed group of readers

While no reader leaves, slots are handed out in the order of the entries: the
`k`-th assignment names the slot of entry number `k`, the reader it went to is
the only one to be returned that entry, and it is returned it before it is
assigned another.  The slot of the entry returned last stays as it is until its
reader asks again.

`Dispensed` carries this along a run: it counts assignments as tickets drawn,
and ties every number in the history to the ticket of the reader it belongs to.

## Main results

* `Dispensed.add`, `Dispensed.startAccess`, `Dispensed.remove` — one call.
* `remove_returns_held` — one `remove` returns the entry whose number is held.
* `ticket_order` — every state of every run.
-/

namespace HPQueue

open Library.Ring Library.Transition

variable {ρ E : Type} [DecidableEq ρ]

namespace Ledger

/-- The calls of a group of readers none of which leaves. -/
def Stays (_ : Ledger ρ E) : Call ρ E → Prop
  | .endAccess _ => False
  | _ => True

instance (t : Ledger ρ E) : (c : Call ρ E) → Decidable (t.Stays c)
  | .endAccess _ => .isFalse id
  | .add _ => .isTrue trivial
  | .startAccess _ => .isTrue trivial
  | .remove _ => .isTrue trivial

/-- The numbers of the entries returned to `r`, in order. -/
def numbersOf (t : Ledger ρ E) (r : ρ) : List Nat :=
  (t.returned.filter fun p => p.1 = r).map Prod.snd

/-- Slots are assigned and entries returned in the order of their numbers. -/
structure TicketOrder (n : Nat) (t : Ledger ρ E) : Prop where
  /-- Entry number `k` was put into slot `k` of the ring. -/
  accepted : ∀ k e i, t.accepted[k]? = some (e, i) → i = ((k % n : Nat) : Int)
  /-- The `k`-th assignment is of the slot of entry number `k`. -/
  assigned : ∀ k r i, t.assigned[k]? = some (r, i) → i = ((k % n : Nat) : Int)
  /-- Only the reader that was assigned number `k` is returned it. -/
  returned : ∀ r k, (r, k) ∈ t.returned → ∃ i, t.assigned[k]? = some (r, i)
  once : t.numbers.Nodup
  increasing : ∀ r, (t.numbersOf r).Pairwise (· < ·)
  /-- The slot of the entry returned last still holds its copy. -/
  borrowed : ∀ r k, t.borrowed r = some k → ∃ e i, t.accepted[k]? = some (e, i) ∧
    (t.queue.readers r).index = i ∧ t.occupant i = k ∧ t.queue.queueData i = .entry e

/-- The assignments of the ledger are the tickets drawn from the line. -/
structure Dispensed (n : Nat) (t : Ledger ρ E) (T : Tickets ρ E) : Prop where
  follows : Follows n t T
  tight : T.Tight
  frontal : T.Frontal
  count : t.assigned.length = T.next
  slots : ∀ k r i, t.assigned[k]? = some (r, i) → i = slot n 0 k
  holds : ∀ r ∈ T.line, T.isDone r = false →
    t.held r = some (T.ticket r) ∧ ∃ i, t.assigned[T.ticket r]? = some (r, i)
  gave : ∀ r k, (r, k) ∈ t.returned → r ∈ T.line ∧ (∃ i, t.assigned[k]? = some (r, i)) ∧
    k ≤ T.ticket r ∧ (T.isDone r = false → k < T.ticket r)
  increasing : ∀ r, (t.numbersOf r).Pairwise (· < ·)
  borrowed : ∀ r k, t.borrowed r = some k → r ∈ T.line ∧ T.ticket r = k ∧ k < T.written

namespace Dispensed

variable {n : Nat} {t : Ledger ρ E} {T : Tickets ρ E}

theorem new (hn : 0 < n) (dataEntries : ProcessingQueueDataArray E) :
    Dispensed n (.new ρ n dataEntries) (.new ρ E) where
  follows := .new hn dataEntries
  tight := rfl
  frontal := by simp [Tickets.Frontal, Tickets.new]
  count := rfl
  slots := by simp [Ledger.new]
  holds := by simp [Tickets.new]
  gave := by simp [Ledger.new]
  increasing := by simp [Ledger.new, numbersOf]
  borrowed := by simp [Ledger.new]

theorem add (h : Dispensed n t T) (e : E) :
    (Dispensed n (t.add e) (T.write e) ∧
      (t.add e).accepted = t.accepted ++ [(e, slot n 0 T.written)] ∧
      (t.add e).returned = t.returned ∧ (t.add e).borrowed = t.borrowed) ∨ t.add e = t := by
  rcases h.follows.add e with
    ⟨-, -, hadd, haccepted, -, hassigned, hheld, hreturned, hborrowed⟩ | hsame
  · refine .inl ⟨?_, haccepted, hreturned, hborrowed⟩
    refine
      { follows := hadd
        tight := h.tight
        frontal := h.frontal
        count := by rw [hassigned, h.count, Tickets.next_write]
        slots := by
          rw [hassigned]
          exact h.slots
        holds := by
          rw [hheld, hassigned]
          exact h.holds
        gave := by
          rw [hreturned, hassigned]
          exact h.gave
        increasing := by
          unfold numbersOf
          rw [hreturned]
          exact h.increasing
        borrowed := ?_ }
    rw [hborrowed]
    intro r k hk
    obtain ⟨hr, htk, hkw⟩ := h.borrowed r k hk
    exact ⟨hr, htk, by rw [Tickets.written_write]; omega⟩
  · exact .inr hsame

/-- A longer list of assignments repeats the old ones. -/
theorem getElem?_of_append {α : Type} {l l' : List α} {k : Nat} {a : α}
    (h : l[k]? = some a) (hl : l' = l ∨ ∃ b, l' = l ++ [b]) : l'[k]? = some a := by
  rcases hl with rfl | ⟨b, rfl⟩
  · exact h
  · rw [List.getElem?_append_left (List.getElem?_eq_some_iff.mp h).1, h]

/-- The one new assignment of a longer list comes last. -/
theorem getElem?_append_singleton {α : Type} {l : List α} {k : Nat} {a b : α}
    (h : (l ++ [b])[k]? = some a) : l[k]? = some a ∨ k = l.length ∧ b = a := by
  rcases Nat.lt_or_ge k l.length with hlt | hge
  · exact .inl (by rwa [List.getElem?_append_left hlt] at h)
  · rw [List.getElem?_append_right hge] at h
    have hk : k - l.length = 0 := by
      have hlen := (List.getElem?_eq_some_iff.mp h).1
      simp only [List.length_singleton] at hlen
      omega
    rw [hk] at h
    exact .inr ⟨by omega, by simpa using h⟩

theorem startAccess (h : Dispensed n t T) (hn : 2 ≤ n) {r : ρ}
    (hr : (t.queue.readers r).inQueue = false) :
    ∃ t', t.startAccess r = .ok t' ∧ Dispensed n t' (T.join n r) := by
  have hrl : r ∉ T.line := fun hm => by simp [h.follows.represents.mem_iff.mpr hm] at hr
  obtain ⟨t', hrun, hfollows, hassigned, hheld, hreturned, hborrowed⟩ :=
    h.follows.startAccess hn hr (h.tight.level n r)
  have hgrow : t'.assigned = t.assigned ∨ ∃ b, t'.assigned = t.assigned ++ [b] := by
    rw [hassigned]
    split
    · exact .inl rfl
    · exact .inr ⟨_, rfl⟩
  refine ⟨t', hrun, ?_⟩
  refine
    { follows := hfollows
      tight := h.tight.join hn hrl
      frontal := h.frontal.join h.follows.sound hn hrl
      count := ?_
      slots := ?_
      holds := ?_
      gave := ?_
      increasing := by
        unfold numbersOf
        rw [hreturned]
        exact h.increasing
      borrowed := ?_ }
  · rw [hassigned, h.follows.sound.join_next hn hrl]
    split <;> simp [h.count]
  · intro k x i hk
    rw [hassigned] at hk
    split at hk
    · exact h.slots k x i hk
    · rcases getElem?_append_singleton hk with hk | ⟨rfl, he⟩
      · exact h.slots k x i hk
      · rw [h.count, ← (Prod.mk.inj he).2]
  · intro x hx hxd
    by_cases hxr : x = r
    · subst hxr
      have hspans : ¬ T.Spans n := by simpa [Tickets.join_isDone] using hxd
      rw [hheld, if_neg hspans, hassigned, if_neg hspans, Tickets.join_ticket T x hspans,
        ← h.count]
      simp
    · rw [Tickets.join_isDone_of_ne hxr] at hxd
      have hxl := (h.follows.sound.mem_join.mp hx).resolve_left hxr
      obtain ⟨hheldx, i, hi⟩ := h.holds x hxl hxd
      rw [Tickets.join_ticket_of_ne hxr, hheld]
      refine ⟨?_, i, getElem?_of_append hi hgrow⟩
      split
      · exact hheldx
      · rw [Function.update_of_ne hxr, hheldx]
  · intro x k hk
    rw [hreturned] at hk
    obtain ⟨hxl, ⟨i, hi⟩, hle, hlt⟩ := h.gave x k hk
    have hxr : x ≠ r := fun he => hrl (he ▸ hxl)
    refine ⟨h.follows.sound.mem_join.mpr (.inr hxl), ⟨i, getElem?_of_append hi hgrow⟩, ?_⟩
    rw [Tickets.join_ticket_of_ne hxr, Tickets.join_isDone_of_ne hxr]
    exact ⟨hle, hlt⟩
  · rw [hborrowed]
    intro x k hk
    obtain ⟨hxl, htk, hkw⟩ := h.borrowed x k hk
    have hxr : x ≠ r := fun he => hrl (he ▸ hxl)
    refine ⟨h.follows.sound.mem_join.mpr (.inr hxl), ?_, ?_⟩
    · rw [Tickets.join_ticket_of_ne hxr, htk]
    · simpa [Tickets.written] using hkw

/-- The reader that asks, and what it is given: the number it holds, which is
above every number it was given before. -/
theorem given (h : Dispensed n t T) {r : ρ} (hr : r ∈ T.line) {t' : Ledger ρ E}
    (hassigned : t'.assigned = (if T.isDone r = true ∧ ¬ T.Spans n
      then t.assigned ++ [(r, slot n 0 T.next)] else t.assigned))
    (hheld : t'.held = (if T.isDone r = true ∧ ¬ T.Spans n
      then Function.update t.held r (some t.assigned.length) else t.held))
    (hwaits : T.isDone r = true → ¬ T.Spans n) :
    t'.held r = some ((T.ask n r).ticket r) ∧
      (∃ i, t'.assigned[(T.ask n r).ticket r]? = some (r, i)) ∧
      ∀ k, (r, k) ∈ t.returned → k < (T.ask n r).ticket r := by
  cases hdone : T.isDone r with
  | false =>
      obtain ⟨hheldr, i, hi⟩ := h.holds r hr hdone
      rw [hheld, hassigned, Tickets.ask_ticket_of_waiting T r hdone]
      refine ⟨by simp [hdone, hheldr], ⟨i, by simp [hdone, hi]⟩, ?_⟩
      intro k hk
      exact (h.gave r k hk).2.2.2 hdone
  | true =>
      have hspans := hwaits hdone
      rw [hheld, hassigned, Tickets.ask_ticket_of_drawing T r hdone hspans, ← h.count]
      refine ⟨by simp [hdone, hspans], ⟨slot n 0 T.next, by simp [hdone, hspans, h.count]⟩, ?_⟩
      intro k hk
      have hle := (h.gave r k hk).2.2.1
      have hlt := h.follows.sound.lt_next hr
      rw [h.count]
      omega

theorem remove (h : Dispensed n t T) (hn : 2 ≤ n) {r : ρ} (hr : r ∈ T.line) :
    ∃ t', t.remove r = .ok t' ∧ Dispensed n t' (T.ask n r) := by
  obtain ⟨t', hrun, hfollows, hassigned, hheld, hreturned, hborrowed⟩ :=
    h.follows.remove hn hr (fun _ => h.tight.level n r)
  have hT := h.follows.sound
  have hgrow : t'.assigned = t.assigned ∨ ∃ b, t'.assigned = t.assigned ++ [b] := by
    rw [hassigned]
    split
    · exact .inr ⟨_, rfl⟩
    · exact .inl rfl
  refine ⟨t', hrun, ?_⟩
  have hgiven := h.given hr hassigned hheld
  have hwaits : (T.ask n r).isDone r = false → T.isDone r = true → ¬ T.Spans n := by
    intro hrd hdone
    cases hanswer : T.answer n r with
    | none =>
        rw [Tickets.ask_isDone_of_none hanswer] at hrd
        simpa [hdone] using hrd
    | some e => simp [(Tickets.ask_of_some hanswer).2.2.2] at hrd
  refine
    { follows := hfollows
      tight := h.tight.ask hn
      frontal := h.frontal.ask hT hn
      count := ?_
      slots := ?_
      holds := ?_
      gave := ?_
      increasing := ?_
      borrowed := ?_ }
  · rw [hassigned, hT.ask_next hn]
    split <;> simp [h.count]
  · intro k x i hk
    rw [hassigned] at hk
    split at hk
    · rcases getElem?_append_singleton hk with hk | ⟨rfl, he⟩
      · exact h.slots k x i hk
      · rw [h.count, ← (Prod.mk.inj he).2]
    · exact h.slots k x i hk
  · intro x hx hxd
    have hxl := (hT.mem_ask hr).mp hx
    by_cases hxr : x = r
    · subst hxr
      exact ⟨(hgiven (hwaits hxd)).1, (hgiven (hwaits hxd)).2.1⟩
    · rw [Tickets.ask_isDone_of_ne hxr] at hxd
      obtain ⟨hheldx, i, hi⟩ := h.holds x hxl hxd
      rw [Tickets.ask_ticket_of_ne hxr, hheld]
      refine ⟨?_, i, getElem?_of_append hi hgrow⟩
      split
      · rw [Function.update_of_ne hxr, hheldx]
      · exact hheldx
  · intro x k hk
    have hsplit : (x, k) ∈ t.returned ∨ (∃ e, T.answer n r = some e) ∧ x = r ∧
        k = (T.ask n r).ticket r := by
      rw [hreturned] at hk
      cases hanswer : T.answer n r with
      | none => exact .inl (by simpa [hanswer] using hk)
      | some e => simpa [hanswer] using hk
    rcases hsplit with hk | ⟨⟨e, he⟩, rfl, rfl⟩
    · obtain ⟨hxl, ⟨i, hi⟩, hle, hlt⟩ := h.gave x k hk
      refine ⟨(hT.mem_ask hr).mpr hxl, ⟨i, getElem?_of_append hi hgrow⟩, ?_⟩
      by_cases hxr : x = r
      · subst hxr
        refine ⟨hle.trans (hT.le_ask_ticket hn hr), ?_⟩
        intro hxd
        exact (hgiven (hwaits hxd)).2.2 k hk
      · rw [Tickets.ask_ticket_of_ne hxr, Tickets.ask_isDone_of_ne hxr]
        exact ⟨hle, hlt⟩
    · refine ⟨(hT.mem_ask hr).mpr hr, (hgiven (Tickets.waits_of_some he)).2.1, Nat.le_refl _, ?_⟩
      simp [(Tickets.ask_of_some he).2.2.2]
  · intro x
    unfold numbersOf
    rw [hreturned]
    cases hanswer : T.answer n r with
    | none => simpa [hanswer, numbersOf] using h.increasing x
    | some e =>
        have hlt := (hgiven (Tickets.waits_of_some hanswer)).2.2
        by_cases hxr : x = r
        · subst hxr
          have hincreasing := h.increasing x
          unfold numbersOf at hincreasing
          simp only [Option.isSome_some, if_true, List.filter_append, List.map_append]
          refine List.pairwise_append.mpr ⟨hincreasing, by simp, ?_⟩
          intro k hk j hj
          obtain ⟨p, hp, rfl⟩ := List.mem_map.mp hk
          obtain ⟨hp, hpx⟩ := List.mem_filter.mp hp
          have hj : j = (T.ask n x).ticket x := by simpa using hj
          rw [hj]
          refine hlt p.2 ?_
          rw [← of_decide_eq_true hpx]
          exact hp
        · have hincreasing := h.increasing x
          unfold numbersOf at hincreasing
          simpa [List.filter_append, Ne.symm hxr] using hincreasing
  · intro x k hk
    rw [hborrowed] at hk
    by_cases hxr : x = r
    · subst hxr
      refine ⟨(hT.mem_ask hr).mpr hr, ?_⟩
      cases hanswer : T.answer n x with
      | none => simp [hanswer] at hk
      | some e =>
          have htk : (T.ask n x).ticket x = k := by simpa [hanswer] using hk
          have hlt := (Tickets.ask_of_some hanswer).2.1
          refine ⟨htk, ?_⟩
          simp only [Tickets.written, Tickets.ask_accepted] at hlt ⊢
          omega
    · rw [Function.update_of_ne hxr] at hk
      obtain ⟨hxl, htk, hkw⟩ := h.borrowed x k hk
      refine ⟨(hT.mem_ask hr).mpr hxl, ?_, ?_⟩
      · rw [Tickets.ask_ticket_of_ne hxr, htk]
      · simpa [Tickets.written] using hkw

/-- The state of a dispensed ledger, in the words of the queue. -/
theorem ticketOrder (h : Dispensed n t T) : TicketOrder n t := by
  refine
    { accepted := ?_
      assigned := ?_
      returned := fun r k hk => (h.gave r k hk).2.1
      once := by
        rw [h.follows.numbers]
        exact h.follows.sound.once
      increasing := h.increasing
      borrowed := ?_ }
  · intro k e i hk
    rw [h.follows.getElem?_accepted] at hk
    obtain ⟨e', -, he'⟩ := Option.map_eq_some_iff.mp hk
    rw [← (Prod.mk.inj he').2, slot_zero_offset]
  · intro k r i hk
    rw [h.slots k r i hk, slot_zero_offset]
  · intro r k hk
    obtain ⟨hr, htk, hkw⟩ := h.borrowed r k hk
    have hlow := h.follows.sound.base_le hr
    have hget : T.accepted[k]? = some T.accepted[k] := List.getElem?_eq_getElem hkw
    refine ⟨T.accepted[k], slot n 0 k, ?_, ?_, ?_, ?_⟩
    · simp [h.follows.getElem?_accepted, hget]
    · rw [h.follows.represents.index r hr, htk]
    · exact h.follows.occupant k (by omega) hkw
    · exact h.follows.represents.stored k _ (by omega) hget

/-- No call of a reader that stays is a fault, and what it leads to is dispensed. -/
theorem call (h : Dispensed n t T) (hn : 2 ≤ n) {c : Call ρ E} (hallowed : t.Allowed c)
    (hstays : t.Stays c) : ∃ t' T', t.call c = .ok t' ∧ Dispensed n t' T' := by
  cases c with
  | add e =>
      rcases h.add e with ⟨hadd, -⟩ | hsame
      · exact ⟨_, _, rfl, hadd⟩
      · exact ⟨_, T, rfl, by rwa [hsame]⟩
  | startAccess r =>
      obtain ⟨t', hrun, ht'⟩ := h.startAccess hn hallowed
      exact ⟨t', _, hrun, ht'⟩
  | remove r =>
      obtain ⟨t', hrun, ht'⟩ := h.remove hn (h.follows.represents.mem_iff.mp hallowed)
      exact ⟨t', _, hrun, ht'⟩
  | endAccess r => exact hstays.elim

end Dispensed

/-- Every state of a run in which no reader leaves is dispensed. -/
theorem dispensed {n : Nat} (hn : 2 ≤ n) {dataEntries : ProcessingQueueDataArray E}
    {t : Ledger ρ E} (h : ((system ρ n dataEntries).restrict Stays).Reachable t) :
    ∃ T, Dispensed n t T := by
  refine h.invariant (I := fun t => ∃ T, Dispensed n t T) ?_ ?_
  · rintro s rfl
    exact ⟨.new ρ E, .new (by omega) dataEntries⟩
  · rintro s c u ⟨T, hT⟩ ⟨⟨hallowed, hcall⟩, hstays⟩
    obtain ⟨u', T', hrun, hu'⟩ := hT.call hn hallowed hstays
    rw [hcall] at hrun
    obtain rfl := Except.ok.inj hrun
    exact ⟨T', hu'⟩

/-- A `remove` that returns an entry returns the entry whose number the reader
holds, and that number was never returned before. -/
theorem remove_returns_held {n : Nat} (hn : 2 ≤ n) {t : Ledger ρ E} {T : Tickets ρ E}
    (h : Dispensed n t T) {r : ρ} (hr : (t.queue.readers r).inQueue = true)
    {s' : SyncQueue ρ E} {e : E} (hremove : t.queue.remove r = .ok (s', some e)) :
    ∃ t' k i, t.remove r = .ok t' ∧ t'.held r = some k ∧ t.accepted[k]? = some (e, i) ∧
      k ∉ t.numbers ∧ t'.returned = t.returned ++ [(r, k)] := by
  have hrl := h.follows.represents.mem_iff.mp hr
  obtain ⟨s'', hrun', -⟩ := h.follows.represents.remove h.follows.sound hn hrl
    (fun _ => h.tight.level n r)
  obtain ⟨t', hrun, hfollows, hassigned, hheld, hreturned, -⟩ :=
    h.follows.remove hn hrl (fun _ => h.tight.level n r)
  rw [hremove] at hrun'
  have hanswer : T.answer n r = some e := (Prod.mk.inj (Except.ok.inj hrun')).2.symm
  obtain ⟨hret, hlt, hget, -⟩ := Tickets.ask_of_some hanswer
  refine ⟨t', (T.ask n r).ticket r, slot n 0 ((T.ask n r).ticket r), hrun, ?_, ?_, ?_, ?_⟩
  · exact (h.given hrl hassigned hheld (Tickets.waits_of_some hanswer)).1
  · simp [h.follows.getElem?_accepted, hget]
  · have hnodup := hfollows.sound.once
    rw [hret] at hnodup
    rw [h.follows.numbers]
    exact fun hm => (List.nodup_append.mp hnodup).2.2 _ hm _ (by simp) rfl
  · simp [hreturned, hanswer]

/-- Ticket refinement: while no reader leaves, no call is a fault, slots are
assigned and entries returned in the order of their numbers, and each `remove`
that returns an entry returns the one whose number its reader holds. -/
theorem ticket_order {n : Nat} (hn : 2 ≤ n) (dataEntries : ProcessingQueueDataArray E)
    {t : Ledger ρ E} (h : ((system ρ n dataEntries).restrict Stays).Reachable t) :
    TicketOrder n t ∧
    (∀ c, t.Allowed c → t.Stays c → ∃ u, t.call c = .ok u) ∧
    ∀ r s' e, (t.queue.readers r).inQueue = true → t.queue.remove r = .ok (s', some e) →
      ∃ t' k i, t.remove r = .ok t' ∧ t'.held r = some k ∧ t.accepted[k]? = some (e, i) ∧
        k ∉ t.numbers ∧ t'.returned = t.returned ++ [(r, k)] := by
  obtain ⟨T, hT⟩ := dispensed hn h
  refine ⟨hT.ticketOrder, ?_, ?_⟩
  · intro c hallowed hstays
    obtain ⟨u, -, hu, -⟩ := hT.call hn hallowed hstays
    exact ⟨u, hu⟩
  · intro r s' e hr hremove
    exact remove_returns_held hn hT hr hremove

/-- Two readers and a ring of four slots that wraps. -/
theorem ticket_order_two_readers :
    ∃ t : Ledger (Fin 2) Nat, t.returned = [(1, 1), (0, 0), (1, 2), (0, 3)] ∧
      TicketOrder 4 t := by
  let calls : List (Call (Fin 2) Nat) :=
    [.startAccess 0, .startAccess 1, .add 10, .add 11, .remove 1, .remove 0, .remove 1,
      .add 12, .remove 1, .remove 0, .add 13, .remove 0]
  have hreturned : ((Ledger.new (Fin 2) 4 (.uniform Nat 8)).callAll Stays calls).map
      Ledger.returned = some [(1, 1), (0, 0), (1, 2), (0, 3)] := by decide
  obtain ⟨t, hcalls, hreturned⟩ := Option.map_eq_some_iff.mp hreturned
  exact ⟨t, hreturned, (ticket_order (by decide) _
    (reachable_callAll calls (System.Reachable.start rfl) hcalls)).1⟩

end Ledger

end HPQueue
