import HPQueue.Queue.TicketOrder

/-!
# When a full ring can still be drained

A back reader that cannot move to the front "can (and must) free up at least one
slot" by moving before the front.  It takes the slot of the second to front
there, so it frees a slot only if that one lies further ahead.  When every
reader but the front shares the back's slot, and the front waits for the very
slot the full ring cannot fill, no reader's `remove` changes anything again.

`Wedged` is that state.  It is the only one: from any other state in which all
accepted entries have been returned, some `remove` calls make room.

## Main results

* `Tickets.exists_room` — a line that is not stuck can make room.
* `Tickets.Stuck.ask` — a stuck line stays stuck.
* `room_iff_not_wedged` — the two, for every reachable state of a queue.
* `wedge_of_two_readers` — two readers and one entry wedge a ring of two slots.
-/

namespace HPQueue

open Library.Ring Library.Transition QueueConstants

variable {ρ E : Type} [DecidableEq ρ]

namespace Tickets

variable {n : Nat} {T : Tickets ρ E}

/-- The ring has no room for another entry. -/
def Full (T : Tickets ρ E) (n : Nat) : Prop := T.written + 1 = T.base + n

/-- Every entry accepted has been returned. -/
def Drained (T : Tickets ρ E) : Prop := ∀ k < T.written, k ∈ T.returned

/-- A full ring whose front waits for the next entry while all others share the
slot at the back. -/
structure Stuck (n : Nat) (T : Tickets ρ E) : Prop where
  full : T.Full n
  waits : ∃ f ∈ T.line.getLast?, T.ticket f = T.written ∧
    ∀ r ∈ T.line, r ≠ f → T.ticket r = T.base

@[simp] theorem ask_written (r : ρ) : (T.ask n r).written = T.written := by simp [written]

theorem Drained.ask (hT : T.Drained) (r : ρ) : (T.ask n r).Drained := by
  intro k hk
  rw [ask_written] at hk
  cases hanswer : T.answer n r with
  | none => simpa [ask_of_none hanswer] using hT k hk
  | some e => simp [(ask_of_some hanswer).1, hT k hk]

omit [DecidableEq ρ] in
/-- Once everything is returned, a reader has read its slot exactly if the slot
has been written. -/
theorem Drained.isDone_of_lt (hT : T.Drained) (h : T.Sound n) {r : ρ} (hr : r ∈ T.line)
    (hlt : T.ticket r < T.written) : T.isDone r = true := by
  by_contra hdone
  exact h.fresh r hr (by simpa using hdone) (hT _ hlt)

/-- The readers ask one after the other. -/
def asks (T : Tickets ρ E) (n : Nat) : List ρ → Tickets ρ E
  | [] => T
  | r :: rs => (T.ask n r).asks n rs

/-- The back of a line that spans the ring asks, and moves before the front. -/
theorem ask_back (hdone : T.isDone r = true) (hspans : T.Spans n)
    (hback : T.line.head? = some r) : T.ask n r = T.share r := by
  simp [ask, hdone, hspans, hback]

omit [DecidableEq ρ] in
/-- The second to front is ahead of all but the front. -/
theorem Sound.le_second (h : T.Sound n) {m : List ρ} {g f x : ρ}
    (hl : T.line = m ++ [g, f]) (hx : x ∈ T.line) (hxf : x ≠ f) : T.ticket x ≤ T.ticket g := by
  have hsorted := h.sorted
  have hsplit : T.line = (m ++ [g]) ++ [f] := by simp [hl]
  rw [hsplit] at hsorted hx
  have hx : x ∈ m ++ [g] := (List.mem_append.mp hx).resolve_right (by simpa using hxf)
  rcases List.mem_append.mp hx with hx | hx
  · exact (List.pairwise_append.mp (List.pairwise_append.mp hsorted).1).2.2 x hx g (by simp)
  · rw [List.mem_singleton.mp hx]

/-- The readers that share the slot at the back. -/
def shares (T : Tickets ρ E) : Nat := T.line.countP fun x => T.ticket x = T.base

/-- When the back moves before the front without raising the base, one reader
fewer shares the slot at the back. -/
theorem shares_share (h : T.Sound n) (htight : T.Tight) {m : List ρ} {b g f : ρ}
    (hl : T.line = b :: (m ++ [g, f])) (hgb : T.base < T.ticket g)
    (hrise : (T.share b).base = T.base) : T.shares = (T.share b).shares + 1 := by
  have hothers : T.line.erase b = m ++ [g, f] := by simp [hl]
  have hbase := htight.back_eq (b := b) (by simp [hl])
  have hbm : b ∉ m ++ [g, f] := by
    have hnd := h.nodup
    rw [hl] at hnd
    exact (List.nodup_cons.mp hnd).1
  have hm : m.countP (fun x => (T.share b).ticket x = T.base) =
      m.countP (fun x => T.ticket x = T.base) := by
    refine List.countP_congr ?_
    intro y hy
    have hyb : y ≠ b := fun he => hbm (by simp [← he, hy])
    rw [share_ticket_of_ne hyb]
  have hgne : g ≠ b := fun he => hbm (by simp [he])
  have hfne : f ≠ b := fun he => hbm (by simp [he])
  have hbt : (T.share b).ticket b = T.ticket g := by
    rw [share_eq hothers, place_ticket, Function.update_self]
  have hgbase : T.ticket g ≠ T.base := by omega
  have hline : (T.share b).line = m ++ [g, b, f] := by rw [share_eq hothers, place_line]
  unfold shares
  rw [hline, hrise, hl]
  simp only [List.countP_append, List.countP_cons, List.countP_nil, hbt, hm,
    share_ticket_of_ne hgne, share_ticket_of_ne hfne, hbase, decide_eq_true_eq, hgbase,
    if_false, if_true]

/-- While a reader but the front is ahead of the back, the back readers can move
up one after the other, until the base rises. -/
theorem exists_room_of_spans (hn : 2 ≤ n) (c : Nat) :
    ∀ T : Tickets ρ E, T.Sound n → T.Drained → T.Spans n → T.Full n → T.shares = c →
      (∃ f ∈ T.line.getLast?, ∃ g ∈ T.line, g ≠ f ∧ T.base < T.ticket g) →
      ∃ rs : List ρ, (∀ r ∈ rs, r ∈ T.line) ∧ ¬ (T.asks n rs).Full n := by
  induction c with
  | zero =>
      intro T h _ hspans _ hcount _
      have htight := h.tight_of_spans hspans
      obtain ⟨m, g, f, hl⟩ := hspans.split hn
      obtain ⟨b, hb⟩ : ∃ b, T.line.head? = some b :=
        Option.ne_none_iff_exists'.mp (by simp [hl])
      have hzero := List.countP_eq_zero.mp hcount b (List.mem_of_mem_head? hb)
      simp [htight.back_eq hb] at hzero
  | succ c ih =>
      intro T h hdrained hspans hfull hcount hahead
      have htight := h.tight_of_spans hspans
      obtain ⟨f₀, hf₀, x, hx, hxf, hxb⟩ := hahead
      obtain ⟨m, g, f, hl⟩ := hspans.split hn
      obtain rfl : f = f₀ := by simpa [hl] using hf₀
      have hxg := h.le_second hl hx hxf
      have hgb : T.base < T.ticket g := by omega
      rcases m with _ | ⟨b, m⟩
      · -- the back would be the only reader but the front
        have hg := htight.back_eq (b := g) (by simp [hl])
        omega
      · have hl : T.line = b :: (m ++ [g, f]) := by simpa using hl
        have hback : T.line.head? = some b := by simp [hl]
        have hbl := List.mem_of_mem_head? hback
        have hbase := htight.back_eq hback
        have hdone : T.isDone b = true := by
          refine hdrained.isDone_of_lt h hbl ?_
          unfold Full at hfull
          omega
        have hask := ask_back hdone hspans hback
        have hwritten : (T.share b).written = T.written := by simp [share, written]
        by_cases hrise : (T.share b).base = T.base
        · have hahead' : ∃ f ∈ (T.share b).line.getLast?, ∃ g ∈ (T.share b).line,
              g ≠ f ∧ (T.share b).base < (T.share b).ticket g := by
            have hnd := h.nodup
            rw [hl] at hnd
            have hgf : g ≠ f := by
              simpa using (List.nodup_append.mp (List.nodup_cons.mp hnd).2).2.1
            have hgne : g ≠ b := fun he => (List.nodup_cons.mp hnd).1 (by simp [he])
            have hline : (T.share b).line = m ++ [g, b, f] := by
              rw [share_eq (m := m) (g := g) (f := f) (by simp [hl]), place_line]
            refine ⟨f, by simp [hline], g, by simp [hline], hgf, ?_⟩
            rw [hrise, share_ticket_of_ne hgne]
            exact hgb
          have hcount' := shares_share h htight hl hgb hrise
          obtain ⟨rs, hrs, hroom⟩ := ih (T.share b)
            (h.share_back hn hback hdone hspans)
            (by rw [← hask]; exact hdrained.ask b)
            (by
              have htight' := htight.share hn hspans (fun _ => hback)
              unfold Spans
              rw [h.share_next hn hspans (fun _ => hback), h.next_of_spans hspans, htight', hrise])
            (by
              unfold Full at hfull ⊢
              rw [hrise, hwritten]
              exact hfull)
            (by omega) hahead'
          refine ⟨b :: rs, ?_, by simpa [asks, hask] using hroom⟩
          intro r hr
          rcases List.mem_cons.mp hr with rfl | hr
          · exact hbl
          · rcases h.mem_share.mp (hrs r hr) with rfl | hr
            · exact hbl
            · exact hr
        · refine ⟨[b], by simpa using hbl, ?_⟩
          have hmono := h.base_le_share hn (r := b) hspans
          unfold Full at hfull ⊢
          simp only [asks, hask, hwritten]
          omega

/-- A full ring whose line does not span it makes room, or comes to span it with
a reader ahead of the back. -/
theorem exists_room_of_not_spans (hn : 2 ≤ n) (h : T.Sound n) (htight : T.Tight)
    (hfrontal : T.Frontal) (hdrained : T.Drained) (hfull : T.Full n) (hspans : ¬ T.Spans n)
    (hl : T.line ≠ []) :
    ∃ rs : List ρ, (∀ r ∈ rs, r ∈ T.line) ∧ ¬ (T.asks n rs).Full n := by
  obtain ⟨b, hb⟩ : ∃ b, T.line.head? = some b := Option.ne_none_iff_exists'.mp (by simpa using hl)
  obtain ⟨f, hf⟩ : ∃ f, T.line.getLast? = some f :=
    Option.ne_none_iff_exists'.mp (by simpa using hl)
  have hbl := List.mem_of_mem_head? hb
  have hfl := List.mem_of_getLast? hf
  have hbase := htight.back_eq hb
  have hnext : T.next = T.written := by
    have hle := h.next_le
    have hge : T.written ≤ T.next := by
      by_contra hlt
      have hlt := (h.taken _ (hdrained T.next (by omega))).2
      omega
    unfold Full at hfull
    unfold Spans at hspans
    unfold Tight at htight
    omega
  have hdone : T.isDone b = true := by
    refine hdrained.isDone_of_lt h hbl ?_
    unfold Full at hfull
    omega
  have hask : T.ask n b = (T.draw b).take b := by simp [ask, hdone, hspans]
  have htake : (T.draw b).take b = T.draw b := by
    have hnot : ¬ (T.draw b).ticket b < (T.draw b).written := by
      simp [draw, hnext]
    rw [take, if_neg hnot]
  by_cases hrise : (T.draw b).base = T.base
  · have hfull' : (T.draw b).Full n := by
      unfold Full at hfull ⊢
      rw [hrise]
      simpa [draw, written] using hfull
    have hspans' : (T.draw b).Spans n := by
      have htight' : (T.draw b).Tight := htight.draw
      unfold Spans
      unfold Full at hfull
      rw [Sound.draw_next, htight', hrise, hnext]
      omega
    have hfb : f ≠ b := by
      rintro rfl
      have halone : T.line.erase f = [] := by
        refine List.eq_nil_iff_forall_not_mem.mpr fun x hx => ?_
        obtain ⟨hxf, hxl⟩ := h.mem_erase_iff.mp hx
        have hlt := hfrontal f hf x hxl hxf
        have hlow := h.base_le hxl
        omega
      have hraised : (T.draw f).base = T.next := by
        rw [draw, halone, place_base_of_back hb (b := f) rfl, Function.update_self]
      have htf := h.lt_next hbl
      omega
    have hahead : ∃ f ∈ (T.draw b).line.getLast?, ∃ g ∈ (T.draw b).line,
        g ≠ f ∧ (T.draw b).base < (T.draw b).ticket g := by
      refine ⟨b, by simp [draw], f, h.mem_draw.mpr (.inr hfl), hfb, ?_⟩
      have hlt := hfrontal f hf b hbl hfb.symm
      rw [hrise, draw_ticket_of_ne hfb]
      omega
    have hdrained' : (T.draw b).Drained := by
      rw [← htake, ← hask]
      exact hdrained.ask b
    obtain ⟨rs, hrs, hroom⟩ := exists_room_of_spans hn _ (T.draw b)
      (h.draw (fun _ => hdone) hspans (htight.level n b)) hdrained' hspans' hfull' rfl hahead
    refine ⟨b :: rs, ?_, by simpa [asks, hask, htake] using hroom⟩
    intro r hr
    rcases List.mem_cons.mp hr with rfl | hr
    · exact hbl
    · rcases h.mem_draw.mp (hrs r hr) with rfl | hr
      · exact hbl
      · exact hr
  · refine ⟨[b], by simpa using hbl, ?_⟩
    have hmono := h.base_le_draw (r := b)
    have hwritten : (T.draw b).written = T.written := by simp [draw, written]
    unfold Full at hfull ⊢
    simp only [asks, hask, htake, hwritten]
    omega

/-- A line that is not stuck can make room. -/
theorem exists_room (hn : 2 ≤ n) (h : T.Sound n) (htight : T.Tight) (hfrontal : T.Frontal)
    (hdrained : T.Drained) (hl : T.line ≠ []) (hfree : ¬ T.Stuck n) :
    ∃ rs : List ρ, (∀ r ∈ rs, r ∈ T.line) ∧ ¬ (T.asks n rs).Full n := by
  by_cases hfull : T.Full n
  · by_cases hspans : T.Spans n
    · obtain ⟨f, hf⟩ : ∃ f, T.line.getLast? = some f :=
        Option.ne_none_iff_exists'.mp (by simpa using hl)
      refine exists_room_of_spans hn _ T h hdrained hspans hfull rfl ⟨f, hf, ?_⟩
      by_contra hbehind
      refine hfree ⟨hfull, f, hf, ?_, ?_⟩
      · have hnext := next_eq hf
        have hspan := h.next_of_spans hspans
        unfold Full at hfull
        omega
      · intro r hr hrf
        have hlow := h.base_le hr
        by_contra hne
        exact hbehind ⟨r, hr, hrf, by omega⟩
    · exact exists_room_of_not_spans hn h htight hfrontal hdrained hfull hspans hl
  · exact ⟨[], by simp, hfull⟩

/-- A stuck line stays stuck, whoever asks. -/
theorem Stuck.ask (hT : T.Stuck n) (hn : 2 ≤ n) (h : T.Sound n) (htight : T.Tight)
    (hdrained : T.Drained) {r : ρ} (hr : r ∈ T.line) : (T.ask n r).Stuck n := by
  obtain ⟨f, hf, htf, hothers⟩ := hT.waits
  have hfull := hT.full
  unfold Full at hfull
  have hspans : T.Spans n := by
    unfold Spans
    rw [next_eq hf, htight]
    omega
  by_cases hrf : r = f
  · subst hrf
    have hdone : T.isDone r = false := by
      rcases h.held T.written (by rw [next_eq hf]; omega) with hret | ⟨x, hx, htx, hxd⟩
      · exact absurd (h.taken _ hret).1 (by omega)
      · by_cases hxr : x = r
        · rwa [← hxr]
        · have hxb := hothers x hx hxr
          omega
    have hsame : T.ask n r = T := by simp [Tickets.ask, hdone, take, htf]
    rw [hsame]
    exact hT
  · have htr := hothers r hr hrf
    have hdone : T.isDone r = true := hdrained.isDone_of_lt h hr (by omega)
    by_cases hback : T.line.head? = some r
    · obtain ⟨m, g, f', hl⟩ := hspans.split hn
      obtain rfl : f' = f := by simpa [hl] using hf
      have hgf : g ≠ f' := by
        have hnd := h.nodup
        rw [hl] at hnd
        simpa using (List.nodup_append.mp hnd).2.1
      have hshared : (T.share r).ticket r = T.base := by
        rcases m with _ | ⟨b, m⟩
        · obtain rfl : g = r := by simpa [hl] using hback
          simp [share_pair hl, htr]
        · obtain rfl : b = r := by simpa [hl] using hback
          rw [share_eq (m := m) (g := g) (f := f') (by simp [hl]), place_ticket,
            Function.update_self]
          exact hothers g (by simp [hl]) hgf
      have hlast : (T.share r).line.getLast? = some f' := by
        have hperm : T.line.erase r = (m ++ [g]).erase r ++ [f'] := by
          have hrm : r ∈ m ++ [g] := by
            have hr := hr
            rw [hl] at hr
            simp only [List.mem_append, List.mem_cons, List.not_mem_nil, or_false] at hr ⊢
            tauto
          rw [hl, show m ++ [g, f'] = (m ++ [g]) ++ [f'] by simp, List.erase_append_left _ hrm]
        simp [share, hperm]
      have hsound := h.share_back hn hback hdone hspans
      have hbase : (T.share r).base = T.base := by
        have hlow := hsound.base_le (h.mem_share.mpr (.inl rfl) : r ∈ (T.share r).line)
        have hmono := h.base_le_share hn (r := r) hspans
        omega
      have hwritten : (T.share r).written = T.written := by simp [share, written]
      rw [ask_back hdone hspans hback]
      refine ⟨by unfold Full; rw [hbase, hwritten]; exact hT.full, f', hlast, ?_, ?_⟩
      · rw [share_ticket_of_ne (Ne.symm hrf), hwritten, htf]
      · intro x hx hxf
        by_cases hxr : x = r
        · rw [hxr, hshared, hbase]
        · rw [share_ticket_of_ne hxr, hbase]
          exact hothers x ((h.mem_share.mp hx).resolve_left hxr) hxf
    · have hsame : T.ask n r = T := by simp [Tickets.ask, hdone, hspans, hback]
      rw [hsame]
      exact hT

end Tickets

/-- The ring is full, its front waits for the slot the ring cannot fill, and
every other reader shares the slot at the back. -/
def SyncQueue.Wedged (s : SyncQueue ρ E) : Prop :=
  s.isFull = IS_FULL ∧ ∃ f, s.front = some f ∧ (s.readers f).index = s.writeIndex ∧
    ∀ r, (s.readers r).inQueue = true → r ≠ f → (s.readers r).index = s.readIndex

namespace Represents

variable {n : Nat} {off : Int} {s : SyncQueue ρ E} {T : Tickets ρ E}

omit [DecidableEq ρ] in
theorem isFull_iff (h : Represents n off s T) (hT : T.Sound n) :
    s.isFull = IS_FULL ↔ T.Full n := by
  have hlow := hT.base_le_written
  have hhigh := hT.within
  have hnext := slot_nonneg off (show 0 < n by omega) (T.written + 1)
  rw [h.isFull_eq hT, Tickets.Full]
  split
  · rename_i hfull
    simp [hfull]
  · rename_i hfull
    have hne : slot n off (T.written + 1) ≠ IS_FULL := by
      unfold IS_FULL
      omega
    simp [hfull, hne]

omit [DecidableEq ρ] in
/-- `add` answers `IS_FULL` to every entry or to none. -/
theorem add_isFull_iff (h : Represents n off s T) (hT : T.Sound n) (e : E) :
    (s.add e).2 = IS_FULL ↔ T.Full n := by
  have hlow := hT.base_le_written
  have hhigh := hT.within
  have hw := slot_nonneg off (show 0 < n by omega) T.written
  unfold Tickets.Full
  by_cases hfit : s.dataEntries.CanStore e ∧ T.written + 1 < T.base + n
  · obtain ⟨s', hrun, -⟩ := h.add hT hfit.1 hfit.2
    rw [hrun, IS_FULL]
    omega
  · obtain ⟨i, -, hrun, hi⟩ := h.add_refused hT hfit
    rw [hrun, hi]

omit [DecidableEq ρ] in
/-- A queue is wedged when its line is stuck. -/
theorem wedged_iff (h : Represents n off s T) (hT : T.Sound n) :
    s.Wedged ↔ T.Stuck n := by
  have hlow := hT.base_le_written
  have hhigh := hT.within
  have hn : 0 < n := by omega
  have hticket : ∀ r ∈ T.line, ∀ k, T.base ≤ k → k < T.base + n →
      ((s.readers r).index = slot n off k ↔ T.ticket r = k) := by
    intro r hr k hk hkn
    rw [h.index r hr, slot_inj off hn (hT.base_le hr) (hT.lap r hr) hk hkn]
  constructor
  · rintro ⟨hfull, f, hf, hwaits, hothers⟩
    have hf : T.line.getLast? = some f := by rw [← h.chained.front, hf]
    have hfl := List.mem_of_getLast? hf
    refine ⟨(h.isFull_iff hT).mp hfull, f, hf, ?_, ?_⟩
    · rw [h.writeIndex] at hwaits
      exact (hticket f hfl _ hlow hhigh).mp hwaits
    · intro r hr hrf
      have hread := hothers r (h.mem_iff.mpr hr) hrf
      rw [h.readIndex] at hread
      exact (hticket r hr _ (Nat.le_refl _) (by omega)).mp hread
  · rintro ⟨hfull, f, hf, hwaits, hothers⟩
    have hfl := List.mem_of_getLast? hf
    refine ⟨(h.isFull_iff hT).mpr hfull, f, by rw [h.chained.front, hf], ?_, ?_⟩
    · rw [h.writeIndex]
      exact (hticket f hfl _ hlow hhigh).mpr hwaits
    · intro r hr hrf
      have hrl := h.mem_iff.mp hr
      rw [h.readIndex]
      exact (hticket r hrl _ (Nat.le_refl _) (by omega)).mpr (hothers r hrl hrf)

end Represents

namespace Ledger

variable {n : Nat} {t : Ledger ρ E} {T : Tickets ρ E}

/-- Some `remove` calls of registered readers make `add` stop answering `IS_FULL`. -/
def MakesRoom (t : Ledger ρ E) : Prop :=
  ∃ (rs : List ρ) (u : Ledger ρ E), t.callAll Stays (rs.map Call.remove) = some u ∧
    ∀ e, (u.queue.add e).2 ≠ IS_FULL

/-- Readers of the line may call `remove` in any order. -/
theorem Dispensed.callAll_remove (h : Dispensed n t T) (hn : 2 ≤ n) (rs : List ρ)
    (hrs : ∀ r ∈ rs, r ∈ T.line) :
    ∃ u, t.callAll Stays (rs.map Call.remove) = some u ∧ Dispensed n u (T.asks n rs) := by
  induction rs generalizing t T with
  | nil => exact ⟨t, rfl, h⟩
  | cons r rs ih =>
      have hr := hrs r (by simp)
      obtain ⟨t', hrun, ht'⟩ := h.remove hn hr
      have hline : ∀ x ∈ rs, x ∈ (T.ask n r).line := fun x hx =>
        (h.follows.sound.mem_ask hr).mpr (hrs x (by simp [hx]))
      obtain ⟨u, hcalls, hu⟩ := ih ht' hline
      refine ⟨u, ?_, hu⟩
      have hallowed : t.Allowed (.remove r) := h.follows.represents.mem_iff.mpr hr
      have hstays : t.Stays (.remove r) := trivial
      simp [callAll, hallowed, hstays, Ledger.call, hrun, hcalls]

/-- A list of `remove` calls that can be made is made by readers of the line. -/
theorem Dispensed.asks_of_callAll (h : Dispensed n t T) (hn : 2 ≤ n) (rs : List ρ)
    {u : Ledger ρ E} (hu : t.callAll Stays (rs.map Call.remove) = some u) :
    ∀ r ∈ rs, r ∈ T.line := by
  induction rs generalizing t T with
  | nil => simp
  | cons r rs ih =>
      simp only [List.map_cons, callAll] at hu
      split at hu
      · rename_i hallowed
        have hr := h.follows.represents.mem_iff.mp hallowed.1
        obtain ⟨t', hrun, ht'⟩ := h.remove hn hr
        simp only [Ledger.call, hrun] at hu
        intro x hx
        rcases List.mem_cons.mp hx with rfl | hx
        · exact hr
        · exact (h.follows.sound.mem_ask hr).mp (ih ht' hu x hx)
      · cases hu

theorem asks_stuck (hn : 2 ≤ n) (rs : List ρ) :
    ∀ T : Tickets ρ E, T.Sound n → T.Tight → T.Drained → T.Stuck n →
      (∀ r ∈ rs, r ∈ T.line) → (T.asks n rs).Stuck n := by
  induction rs with
  | nil => exact fun T _ _ _ hstuck _ => hstuck
  | cons r rs ih =>
      intro T h htight hdrained hstuck hrs
      have hr := hrs r (by simp)
      refine ih (T.ask n r) (h.ask hn hr (fun _ => htight.level n r)) (htight.ask hn)
        (hdrained.ask r) (hstuck.ask hn h htight hdrained hr) ?_
      exact fun x hx => (h.mem_ask hr).mpr (hrs x (by simp [hx]))

/-- The line of a reachable state in which every accepted entry was returned. -/
theorem drained_line (hn : 2 ≤ n) {dataEntries : ProcessingQueueDataArray E}
    (h : ((system ρ n dataEntries).restrict Stays).Reachable t)
    (hreturned : ∀ k < t.accepted.length, k ∈ t.numbers) :
    ∃ T, Dispensed n t T ∧ T.Drained := by
  obtain ⟨T, hT⟩ := dispensed hn h
  refine ⟨T, hT, fun k hk => ?_⟩
  rw [← hT.follows.numbers]
  exact hreturned k (by rw [hT.follows.length]; exact hk)

/-- No `remove` makes room in a wedged queue. -/
theorem not_makesRoom_of_wedged (hn : 2 ≤ n) {dataEntries : ProcessingQueueDataArray E}
    (h : ((system ρ n dataEntries).restrict Stays).Reachable t)
    (hreturned : ∀ k < t.accepted.length, k ∈ t.numbers) (hwedged : t.queue.Wedged) :
    ¬ t.MakesRoom := by
  obtain ⟨T, hT, hdrained⟩ := drained_line hn h hreturned
  have hstuck := (hT.follows.represents.wedged_iff hT.follows.sound).mp hwedged
  rintro ⟨rs, u, hcalls, hroom⟩
  have hrs := hT.asks_of_callAll hn rs hcalls
  obtain ⟨u', hcalls', hu⟩ := hT.callAll_remove hn rs hrs
  obtain rfl := Option.some.inj (hcalls.symm.trans hcalls')
  have hfull := (asks_stuck hn rs T hT.follows.sound hT.tight hdrained hstuck hrs).full
  -- a full ring of two or more slots holds an entry
  have hwritten : 0 < (T.asks n rs).written := by
    unfold Tickets.Full at hfull
    omega
  exact hroom (T.asks n rs).accepted[0]
    ((hu.follows.represents.add_isFull_iff hu.follows.sound _).mpr hfull)

/-- The readers of any other queue can make room. -/
theorem makesRoom_of_not_wedged (hn : 2 ≤ n) {dataEntries : ProcessingQueueDataArray E}
    (h : ((system ρ n dataEntries).restrict Stays).Reachable t)
    (hreader : ∃ r, (t.queue.readers r).inQueue = true)
    (hreturned : ∀ k < t.accepted.length, k ∈ t.numbers) (hfree : ¬ t.queue.Wedged) :
    t.MakesRoom := by
  obtain ⟨T, hT, hdrained⟩ := drained_line hn h hreturned
  rw [hT.follows.represents.wedged_iff hT.follows.sound] at hfree
  obtain ⟨r, hr⟩ := hreader
  have hline := List.ne_nil_of_mem (hT.follows.represents.mem_iff.mp hr)
  obtain ⟨rs, hrs, hroom⟩ :=
    Tickets.exists_room hn hT.follows.sound hT.tight hT.frontal hdrained hline hfree
  obtain ⟨u, hcalls, hu⟩ := hT.callAll_remove hn rs hrs
  refine ⟨rs, u, hcalls, fun e he => hroom ?_⟩
  exact (hu.follows.represents.add_isFull_iff hu.follows.sound e).mp he

/-- With all accepted entries returned, the registered readers can make room for
another one exactly when the queue is not wedged. -/
theorem room_iff_not_wedged (hn : 2 ≤ n) (dataEntries : ProcessingQueueDataArray E)
    (h : ((system ρ n dataEntries).restrict Stays).Reachable t)
    (hreader : ∃ r, (t.queue.readers r).inQueue = true)
    (hreturned : ∀ k < t.accepted.length, k ∈ t.numbers) :
    t.MakesRoom ↔ ¬ t.queue.Wedged :=
  ⟨fun hroom hwedged => not_makesRoom_of_wedged hn h hreturned hwedged hroom,
    makesRoom_of_not_wedged hn h hreader hreturned⟩

/-- A single reader of a ring of two slots, which is full. -/
theorem room_of_one_reader :
    ∃ t : Ledger (Fin 1) Nat, t.queue.isFull = IS_FULL ∧ t.numbers = [0] ∧
      (t.MakesRoom ↔ ¬ t.queue.Wedged) := by
  let calls : List (Call (Fin 1) Nat) := [.startAccess 0, .add 10, .remove 0]
  have hcalls : ((Ledger.new (Fin 1) 2 (.uniform Nat 8)).callAll Stays calls).map
      (fun t => (t.queue.isFull, t.numbers, t.accepted.length, (t.queue.readers 0).inQueue)) =
      some (IS_FULL, [0], 1, true) := by decide
  obtain ⟨t, hcalls, ht⟩ := Option.map_eq_some_iff.mp hcalls
  simp only [Prod.mk.injEq] at ht
  obtain ⟨hfull, hnumbers, hlength, hin⟩ := ht
  refine ⟨t, hfull, hnumbers, room_iff_not_wedged (by decide) _
    (reachable_callAll calls (System.Reachable.start rfl) hcalls) ⟨0, hin⟩ ?_⟩
  intro k hk
  rw [hlength] at hk
  simp [hnumbers, show k = 0 by omega]

/-- Two readers and one entry wedge a ring of two slots: the only entry accepted
has been returned, and yet `add` answers `IS_FULL` for ever. -/
theorem wedge_of_two_readers :
    ∃ t : Ledger (Fin 2) Nat,
      ((system (Fin 2) 2 (.uniform Nat 8)).restrict Stays).Reachable t ∧
      (∀ r, (t.queue.readers r).inQueue = true) ∧
      (∀ k < t.accepted.length, k ∈ t.numbers) ∧ ¬ t.MakesRoom := by
  let calls : List (Call (Fin 2) Nat) := [.startAccess 0, .startAccess 1, .add 10, .remove 0]
  have hcalls : ((Ledger.new (Fin 2) 2 (.uniform Nat 8)).callAll Stays calls).map
      (fun t => (t.numbers, t.accepted.length, t.queue.isFull, t.queue.front,
        t.queue.writeIndex, t.queue.readIndex, t.queue.readers 0, t.queue.readers 1)) =
      some ([0], 1, IS_FULL, some 1, 1, 0,
        { index := 0, isEmpty := false, isDone := true, inQueue := true,
          previous := some 0, next := some 1 },
        { index := 1, isEmpty := true, isDone := false, inQueue := true,
          previous := some 0, next := none }) := rfl
  obtain ⟨t, hcalls, ht⟩ := Option.map_eq_some_iff.mp hcalls
  simp only [Prod.mk.injEq] at ht
  obtain ⟨hnumbers, hlength, hfull, hfront, hwrite, hread, h0, h1⟩ := ht
  have hreachable := reachable_callAll calls (System.Reachable.start rfl) hcalls
  have hreturned : ∀ k < t.accepted.length, k ∈ t.numbers := by
    intro k hk
    rw [hlength] at hk
    simp [hnumbers, show k = 0 by omega]
  refine ⟨t, hreachable, ?_, hreturned,
    not_makesRoom_of_wedged (by decide) hreachable hreturned ⟨hfull, 1, hfront, ?_, ?_⟩⟩
  · exact Fin.forall_fin_two.mpr ⟨by rw [h0], by rw [h1]⟩
  · rw [hwrite, h1]
  · intro r _ hr
    obtain rfl : r = 0 := by omega
    rw [hread, h0]

end Ledger

end HPQueue
