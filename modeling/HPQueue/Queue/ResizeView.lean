import HPQueue.Queue.TicketOrder

/-!
# What a reader sees of a resize

A growing ring is cut at `writeIndex`: the slots above it move to the end of the
larger ring, and `SyncReaderList::adjust` renumbers the readers behind.  A reader
whose slot is written follows its entry.  A reader that waits for a slot below
`writeIndex` waits for one the writers reach after they wrap, and it is moved by
as much as the written slots are: the growth of the ring, where it should be the
old size.  The two agree when the ring doubles.

`KeepsView` says what a reader may expect of a resize, and `Doubles` is the
condition.  Everything is stated for the states that resizes under the condition
leave behind.

## Main results

* `copyLoop_spec`, `adjustLoop_spec` — the two loops of a resize.
* `Represents.resize` — what a resize does to a queue that stands for a line.
* `resize_keepsView_iff` — a resize keeps every reader's view exactly if it doubles the
  ring or no reader waits below `writeIndex`.
* `capped_resize_moves_waiter` — a ring of four slots that may grow to six only.
-/

namespace HPQueue

open Library.Ring Library.LinkedChain Library.Transition

variable {ρ E : Type}

namespace ReaderWriterQueue

/-- The copy loop, from the slot of number `k` on: the slots of the larger ring
hold what those of the smaller one held. -/
theorem copyLoop_spec {n m : Nat} {off : Int} {r w : Nat} (hn : 0 < n) (hnm : n < m)
    (hrw : r ≤ w) (hwn : w < r + n) (old : Int → Cell E) (d : Nat) :
    ∀ (k fuel : Nat) (q : ReaderWriterQueue E), r ≤ k → k + d = w → d < fuel →
      q.currentSize = m → q.readIndex = slot n off r → q.writeIndex = slot n off w →
      (∀ j, k ≤ j → j < w → ∃ e, old (slot n off j) = .entry e ∧
        q.dataEntries.cellHolds e = true) →
      ∃ data, copyLoop old n ((m : Int) - n) fuel (slot n off k) q =
          .ok { q with queueData := data } ∧
        (∀ j, k ≤ j → j < w → data (slot m (regrow n off w) j) = old (slot n off j)) ∧
        (∀ j, r ≤ j → j < k →
          data (slot m (regrow n off w) j) = q.queueData (slot m (regrow n off w) j)) := by
  have hcompare : ∀ (q : ReaderWriterQueue E) k, r ≤ k → k ≤ w → q.currentSize = m →
      q.readIndex = slot n off r → q.writeIndex = slot n off w →
      (q.adjustIndexForComparison (slot n off k) < q.adjustIndexForComparison q.writeIndex ↔
        k < w) := by
    intro q k hrk hkw hsize hread hwrite
    simp only [adjustIndexForComparison, adjustIndexForComparison_eq_unwrap, hsize, hread, hwrite]
    exact unwrap_slot_lt_iff off hn (by omega) hrk (by omega) hrw hwn
  induction d with
  | zero =>
      intro k fuel q hrk hkw hfuel hsize hread hwrite _
      obtain ⟨fuel, rfl⟩ : ∃ f, fuel = f + 1 := ⟨fuel - 1, by omega⟩
      refine ⟨q.queueData, ?_, fun j hkj hjw => by omega, fun _ _ _ => rfl⟩
      rw [copyLoop, if_neg]
      rw [hcompare q k hrk (by omega) hsize hread hwrite]
      omega
  | succ d ih =>
      intro k fuel q hrk hkw hfuel hsize hread hwrite hold
      obtain ⟨fuel, rfl⟩ : ∃ f, fuel = f + 1 := ⟨fuel - 1, by omega⟩
      obtain ⟨e, he, hcell⟩ := hold k (Nat.le_refl _) (by omega)
      have hnew := slot_regrow_of_lt (m := m) off hn (by omega) (show k < w by omega) (by omega)
      have h0 := slot_nonneg (regrow n off w) (show 0 < m by omega) k
      have hlt := slot_lt (regrow n off w) (show 0 < m by omega) k
      have hplace :
          q.dataEntries.getQueueEntry q.currentSize (slot m (regrow n off w) k) e = true := by
        simp [ProcessingQueueDataArray.getQueueEntry, hsize, h0, hlt, hcell]
      have hstep : copyLoop old n ((m : Int) - n) (fuel + 1) (slot n off k) q =
          copyLoop old n ((m : Int) - n) fuel (slot n off (k + 1))
            (q.copyTo e (slot m (regrow n off w) k)) := by
        have hindex : (if slot n off k > q.writeIndex then slot n off k + ((m : Int) - n)
            else slot n off k) = slot m (regrow n off w) k := by rw [hwrite, hnew]
        rw [copyLoop, if_pos ((hcompare q k hrk (by omega) hsize hread hwrite).mpr (by omega))]
        simp only [he, hindex, hplace, if_true, HPQueue.nextIndex, slot_succ]
      obtain ⟨data, hrun, hmoved, hkept⟩ := ih (k + 1) fuel (q.copyTo e (slot m (regrow n off w) k))
        (by omega) (by omega) (by omega) hsize hread hwrite (fun j hj => hold j (by omega))
      refine ⟨data, hstep.trans hrun, ?_, ?_⟩
      · intro j hkj hjw
        by_cases hjk : j = k
        · subst hjk
          rw [hkept j hrk (by omega), he]
          simp [copyTo]
        · exact hmoved j (by omega) hjw
      · intro j hrj hjk
        rw [hkept j hrj (by omega)]
        have hne : slot m (regrow n off w) j ≠ slot m (regrow n off w) k := by
          rw [Ne, slot_inj (regrow n off w) (show 0 < m by omega) hrj (by omega) hrk (by omega)]
          omega
        simp [copyTo, hne]

/-- More fuel than enough changes nothing. -/
theorem copyLoop_mono (old : Int → Cell E) (oldSize : Nat) (adjustment : Int) (fuel : Nat) :
    ∀ (i : Int) (q q' : ReaderWriterQueue E),
      copyLoop old oldSize adjustment fuel i q = .ok q' →
      ∀ fuel' ≥ fuel, copyLoop old oldSize adjustment fuel' i q = .ok q' := by
  induction fuel with
  | zero =>
      intro i q q' h
      cases h
  | succ fuel ih =>
      intro i q q' h fuel' hfuel
      obtain ⟨fuel', rfl⟩ : ∃ f, fuel' = f + 1 := ⟨fuel' - 1, by omega⟩
      rw [copyLoop] at h ⊢
      split at h
      · rename_i hmore
        rw [if_pos hmore]
        cases hcell : old i with
        | unset => simp [hcell] at h
        | nullEntry =>
            simp only [hcell] at h ⊢
            exact ih _ _ _ h fuel' (by omega)
        | entry e =>
            simp only [hcell] at h ⊢
            exact ih _ _ _ h fuel' (by omega)
      · rename_i hdone
        rw [if_neg hdone]
        exact h

end ReaderWriterQueue

variable [DecidableEq ρ]

omit [DecidableEq ρ] in
/-- The loop that only computes indices ends. -/
theorem indexLoop_spec {n m : Nat} {off : Int} {r w : Nat} (hn : 0 < n) (hnm : n < m)
    (hrw : r ≤ w) (hwn : w < r + n) (d : Nat) :
    ∀ k fuel, r ≤ k → k + d = w → d < fuel →
      SyncQueue.indexLoop m n (slot n off r) (slot n off w) fuel (slot n off k) = .ok () := by
  induction d with
  | zero =>
      intro k fuel hrk hkw hfuel
      obtain ⟨fuel, rfl⟩ : ∃ f, fuel = f + 1 := ⟨fuel - 1, by omega⟩
      rw [SyncQueue.indexLoop, if_neg]
      simp only [adjustIndexForComparison_eq_unwrap,
        unwrap_slot_lt_iff off hn (by omega : n ≤ m) hrk (by omega) hrw hwn]
      omega
  | succ d ih =>
      intro k fuel hrk hkw hfuel
      obtain ⟨fuel, rfl⟩ : ∃ f, fuel = f + 1 := ⟨fuel - 1, by omega⟩
      rw [SyncQueue.indexLoop, if_pos, HPQueue.nextIndex, slot_succ]
      · exact ih (k + 1) fuel (by omega) (by omega) (by omega)
      · simp only [adjustIndexForComparison_eq_unwrap,
          unwrap_slot_lt_iff off hn (by omega : n ≤ m) hrk (by omega) hrw hwn]
        omega

namespace SyncReaderList

/-- Where `adjust` moves a reader with the given index. -/
def adjusted (s : SyncQueue ρ E) (adjustment queueReadIndex index : Int) : Int :=
  if (if adjustIndexForComparison s.currentSize index queueReadIndex <
        adjustIndexForComparison s.currentSize s.writeIndex queueReadIndex then
      index > s.writeIndex else index < s.writeIndex) then index + adjustment
  else index

/-- The readers of `q` have been adjusted. -/
def adjustAll (s : SyncQueue ρ E) (adjustment queueReadIndex : Int) (q : List ρ) :
    SyncQueue ρ E :=
  { s with
    readers := fun x =>
      if x ∈ q then
        { s.readers x with index := adjusted s adjustment queueReadIndex (s.readers x).index }
      else s.readers x }

/-- One round of the loop of `adjust`. -/
theorem adjustLoop_succ (adjustment queueReadIndex : Int) (fuel : Nat) {s : SyncQueue ρ E} {r : ρ}
    (hr : (s.readers r).inQueue = true) :
    adjustLoop adjustment queueReadIndex (fuel + 1) (some r) s =
      if (s.readers r).next = s.back then
        .ok (s.setIndex r (adjusted s adjustment queueReadIndex (s.readers r).index))
      else adjustLoop adjustment queueReadIndex fuel (s.readers r).next
        (s.setIndex r (adjusted s adjustment queueReadIndex (s.readers r).index)) := by
  obtain ⟨s₁, hs₁⟩ : ∃ s₁ : SyncQueue ρ E,
      s₁ = s.setIndex r (adjusted s adjustment queueReadIndex (s.readers r).index) := ⟨_, rfl⟩
  have hset : s₁ = if (if adjustIndexForComparison s.currentSize (s.readers r).index
        queueReadIndex < adjustIndexForComparison s.currentSize s.writeIndex queueReadIndex
      then (s.readers r).index > s.writeIndex else (s.readers r).index < s.writeIndex) then
      s.setIndex r ((s.readers r).index + adjustment) else s := by
    have hsame : s.setIndex r (s.readers r).index = s := by simp [SyncQueue.setIndex]
    rw [hs₁, adjusted, apply_ite (s.setIndex r), hsame]
  have hnext : (s₁.readers r).next = (s.readers r).next := by rw [hs₁]; simp
  have hback : s₁.back = s.back := by rw [hs₁]; rfl
  rw [← hs₁, ← hnext, ← hback, hset]
  simp only [adjustLoop, deref_some hr, ok_bind, pure_eq_ok, decide_eq_true_eq]

/-- The loop of `adjust`, from the reader at the head of `q` on: each reader of `q`
is adjusted once. -/
theorem adjustLoop_spec (adjustment queueReadIndex : Int) (q : List ρ) :
    ∀ (s : SyncQueue ρ E) (fuel : Nat), q.length < fuel → q.Nodup →
      (∀ x ∈ q, (s.readers x).inQueue = true) →
      Linked (fun a => (s.readers a).next) (fun a => (s.readers a).previous) q →
      (∀ x ∈ q.tail, s.back ≠ some x) →
      (∀ f ∈ q.getLast?, (s.readers f).next = none ∨ (s.readers f).next = s.back) →
      adjustLoop adjustment queueReadIndex fuel q.head? s =
        .ok (adjustAll s adjustment queueReadIndex q) := by
  induction q with
  | nil =>
      intro s fuel hfuel _ _ _ _ _
      obtain ⟨fuel, rfl⟩ : ∃ f, fuel = f + 1 := ⟨fuel - 1, by omega⟩
      simp [adjustLoop, adjustAll]
  | cons r q ih =>
      intro s fuel hfuel hnd hreg hlinked htail hlast
      obtain ⟨fuel, rfl⟩ : ∃ f, fuel = f + 1 := ⟨fuel - 1, by omega⟩
      have hr := (List.nodup_cons.mp hnd).1
      have hrin := hreg r (by simp)
      obtain ⟨s₁, hs₁⟩ : ∃ s₁ : SyncQueue ρ E,
          s₁ = s.setIndex r (adjusted s adjustment queueReadIndex (s.readers r).index) := ⟨_, rfl⟩
      have hrest : adjustAll s₁ adjustment queueReadIndex q =
          adjustAll s adjustment queueReadIndex (r :: q) := by
        rw [hs₁]
        simp only [adjustAll, adjusted, SyncQueue.setIndex_readers, SyncQueue.setIndex_ring,
          SyncQueue.setIndex_front, SyncQueue.setIndex_back]
        congr 1
        funext x
        by_cases hx : x = r
        · subst hx
          simp [hr]
        · simp [hx]
      rw [List.head?_cons, adjustLoop_succ _ _ _ hrin, ← hs₁]
      rcases q with _ | ⟨c, q⟩
      · -- the front points nowhere, or at itself when it is alone
        have hnil : adjustAll s₁ adjustment queueReadIndex [] = s₁ := by simp [adjustAll]
        rw [← hrest, hnil]
        rcases hlast r (by simp) with hnone | hself
        · split
          · rfl
          · simp only [List.length_singleton] at hfuel
            obtain ⟨fuel, rfl⟩ : ∃ f, fuel = f + 1 := ⟨fuel - 1, by omega⟩
            rw [hnone, adjustLoop]
        · rw [if_pos hself]
      · have hrc : (s.readers r).next = some c := hlinked.adjacent_cons.1
        have hback : s₁.back = s.back := by rw [hs₁]; rfl
        have hptr : ∀ x, (s₁.readers x).next = (s.readers x).next ∧
            (s₁.readers x).previous = (s.readers x).previous := by
          intro x
          rw [hs₁]
          simp
        rw [if_neg (by rw [hrc]; exact (htail c (by simp)).symm), hrc, ← hrest]
        refine ih s₁ fuel (by simpa using hfuel) (List.nodup_cons.mp hnd).2 ?_ ?_ ?_ ?_
        · intro x hx
          rw [hs₁]
          simpa using hreg x (List.mem_cons_of_mem r hx)
        · exact hlinked.right_cons.congr (fun x _ => (hptr x).1) (fun x _ => (hptr x).2)
        · intro x hx
          rw [hback]
          exact htail x (by simpa using Or.inr hx)
        · intro f hf
          rw [(hptr f).1, hback]
          exact hlast f (by simpa [List.getLast?_cons_cons] using hf)

/-- `adjust` ends, and adjusts the registered readers. -/
theorem adjust_spec {s : SyncQueue ρ E} {l : List ρ} (h : Chained s l)
    (adjustment queueReadIndex : Int) {fuel : Nat} (hfuel : l.length < fuel) :
    adjust fuel s adjustment queueReadIndex = .ok (adjustAll s adjustment queueReadIndex l) := by
  rw [adjust, h.back]
  refine adjustLoop_spec _ _ l s fuel hfuel h.nodup (fun x hx => h.registered hx) h.linked ?_ ?_
  · intro x hx hb
    rw [h.back] at hb
    exact ne_head_of_mem_tail h.nodup hb hx rfl
  · intro f hf
    rcases h.last f hf with hnone | ⟨hone, hself⟩
    · exact .inl hnone
    · exact .inr (by rw [hself, h.back, hone]; rfl)

theorem chained_adjustAll {s : SyncQueue ρ E} {l : List ρ} (h : Chained s l)
    (adjustment queueReadIndex : Int) (q : List ρ) :
    Chained (adjustAll s adjustment queueReadIndex q) l := by
  refine h.congr rfl rfl ?_ ?_ ?_ <;>
  · intro x
    simp only [adjustAll]
    split <;> rfl

end SyncReaderList

omit [DecidableEq ρ] in
/-- The accepted adds after which the slot a reader waits for is written. -/
def SyncQueue.waitsFor (s : SyncQueue ρ E) (r : ρ) : Int :=
  ((s.readers r).index - s.writeIndex) % s.currentSize + 1

/-- What every registered reader may expect of a resize. -/
structure KeepsView (s s' : SyncQueue ρ E) : Prop where
  /-- A reader whose slot is written finds the same entry. -/
  populated : ∀ r, (s.readers r).inQueue = true → s.slotIsEmpty r = false →
    s'.slotIsEmpty r = false ∧ ∃ e, s.queueData (s.readers r).index = .entry e ∧
      s'.queueData (s'.readers r).index = .entry e
  /-- A reader that waits goes on waiting, for as many entries. -/
  waiting : ∀ r, (s.readers r).inQueue = true → s.slotIsEmpty r = true →
    s'.slotIsEmpty r = true ∧ s'.waitsFor r = s.waitsFor r
  /-- Readers that wait for different slots do not come to share one. -/
  apart : ∀ r x, (s.readers r).inQueue = true → (s.readers x).inQueue = true →
    s.slotIsEmpty r = true → s.slotIsEmpty x = true →
    (s.readers r).index ≠ (s.readers x).index → (s'.readers r).index ≠ (s'.readers x).index

/-- The ring doubles, or no registered reader waits for a slot below `writeIndex`. -/
def SyncQueue.GrowsCleanly (s : SyncQueue ρ E) (newSize : Nat) : Prop :=
  newSize = 2 * s.currentSize ∨ ∀ r, (s.readers r).inQueue = true → s.slotIsEmpty r = true →
    s.writeIndex ≤ (s.readers r).index

/-- A queue after a resize to `m` slots: it stands for the same line, but for the
slots of the readers that wait below `writeIndex`. -/
structure Regrown (n m : Nat) (off : Int) (s s' : SyncQueue ρ E) (T : Tickets ρ E) : Prop where
  chained : Chained s' T.line
  size : s'.currentSize = m
  readIndex : s'.readIndex = slot m (regrow n off T.written) T.base
  writeIndex : s'.writeIndex = slot m (regrow n off T.written) T.written
  written : ∀ r ∈ T.line, T.ticket r < T.written →
    (s'.readers r).index = slot m (regrow n off T.written) (T.ticket r)
  waiting : ∀ r ∈ T.line, T.written ≤ T.ticket r → (s'.readers r).index =
    if (s.readers r).index < s.writeIndex then (s.readers r).index + (m - n)
    else (s.readers r).index
  isDone : ∀ r ∈ T.line, (s'.readers r).isDone = T.isDone r
  stored : ∀ k e, T.base ≤ k → T.accepted[k]? = some e →
    s'.queueData (slot m (regrow n off T.written) k) = .entry e
  canStore : ∀ e ∈ T.accepted, s'.dataEntries.CanStore e

namespace Represents

variable {n m : Nat} {off : Int} {s : SyncQueue ρ E} {T : Tickets ρ E}

omit [DecidableEq ρ] in
/-- The ring after a resize. -/
theorem resize_ring (h : Represents n off s T) (hT : T.Sound n) (hnm : n < m) :
    ∃ data, (∀ fuel > n, s.toReaderWriterQueue.resize fuel m = .ok { s.toReaderWriterQueue with
        queueData := data
        currentSize := m
        readIndex := slot m (regrow n off T.written) T.base
        stats := s.stats.setSize m }) ∧
      ∀ k e, T.base ≤ k → T.accepted[k]? = some e →
        data (slot m (regrow n off T.written) k) = .entry e := by
  have hlow := hT.base_le_written
  have hhigh := hT.within
  have hn : 0 < n := by omega
  have hcell : ∀ j, T.base ≤ j → j < T.written → ∃ e, s.queueData (slot n off j) = .entry e ∧
      s.dataEntries.cellHolds e = true := by
    intro j hj hjw
    have hget : T.accepted[j]? = some T.accepted[j] := List.getElem?_eq_getElem hjw
    exact ⟨_, h.stored j _ hj hget, (h.canStore _ (List.getElem_mem hjw)).2⟩
  obtain ⟨data, hrun, hmoved, -⟩ := ReaderWriterQueue.copyLoop_spec hn hnm hlow hhigh s.queueData
    (T.written - T.base) T.base (n + 1)
    { s.toReaderWriterQueue with queueData := fun _ => .unset, currentSize := m }
    (Nat.le_refl _) (by omega) (by omega) rfl h.readIndex h.writeIndex hcell
  have hread : (if slot n off T.base ≥ slot n off T.written + 1
      then slot n off T.base + ((m : Int) - n) else slot n off T.base) =
      slot m (regrow n off T.written) T.base := by
    rcases Nat.lt_or_eq_of_le hlow with hlt | heq
    · rw [slot_regrow_of_lt off hn (Nat.le_of_lt hnm) hlt hhigh]
      rfl
    · rw [heq, slot_regrow_self off hn (Nat.le_of_lt hnm), if_neg (by omega)]
  refine ⟨data, ?_, ?_⟩
  · intro fuel hfuel
    have hrun := ReaderWriterQueue.copyLoop_mono _ _ _ _ _ _ _ hrun fuel hfuel
    have hsize : ¬ s.currentSize ≥ m := by
      rw [h.size]
      omega
    have hrun : ReaderWriterQueue.copyLoop s.queueData s.currentSize
        ((m : Int) - s.currentSize) fuel s.readIndex
        { s.toReaderWriterQueue with queueData := fun _ => .unset, currentSize := m } =
        .ok { s.toReaderWriterQueue with queueData := data, currentSize := m } := by
      rw [h.size, h.readIndex]
      exact hrun
    have hread : (if s.readIndex ≥ s.writeIndex + 1
        then s.readIndex + ((m : Int) - s.currentSize) else s.readIndex) =
        slot m (regrow n off T.written) T.base := by
      rw [h.size, h.readIndex, h.writeIndex, hread]
    rw [ReaderWriterQueue.resize, if_neg hsize]
    simp only [hrun, ok_bind, pure_eq_ok]
    rw [← hread]
    split <;> rfl
  · intro k e hk he
    have hkw : k < T.written := (List.getElem?_eq_some_iff.mp he).1
    rw [hmoved k hk hkw]
    exact h.stored k e hk he

/-- A resize with enough fuel ends, and regrows the queue. -/
theorem resize (h : Represents n off s T) (hT : T.Sound n) (hnm : n < m) :
    ∃ F s', (∀ fuel ≥ F, s.resize fuel m = .ok s') ∧ Regrown n m off s s' T := by
  have hlow := hT.base_le_written
  have hhigh := hT.within
  have hn : 0 < n := by omega
  obtain ⟨data, hring, hdata⟩ := h.resize_ring hT hnm
  obtain ⟨s₁, hs₁⟩ : ∃ s₁ : SyncQueue ρ E, s₁ = { s with
      toReaderWriterQueue := { s.toReaderWriterQueue with
        queueData := data
        currentSize := m
        readIndex := slot m (regrow n off T.written) T.base
        stats := s.stats.setSize m } } := ⟨_, rfl⟩
  have hchained : Chained s₁ T.line := by
    rw [hs₁]
    exact h.chained.congr rfl rfl (fun _ => rfl) (fun _ => rfl) (fun _ => rfl)
  have hadjust : ∀ fuel > T.line.length, SyncReaderList.adjust fuel s₁ ((m : Int) - n)
      (slot n off T.base) =
      .ok (SyncReaderList.adjustAll s₁ ((m : Int) - n) (slot n off T.base) T.line) :=
    fun _ hfuel => SyncReaderList.adjust_spec hchained _ _ hfuel
  have hpopulated : ∀ r ∈ T.line,
      (adjustIndexForComparison s₁.currentSize (s₁.readers r).index (slot n off T.base) <
        adjustIndexForComparison s₁.currentSize s₁.writeIndex (slot n off T.base)) ↔
      T.ticket r < T.written := by
    intro r hr
    rw [hs₁]
    simp only [adjustIndexForComparison_eq_unwrap, h.index r hr, h.writeIndex]
    exact unwrap_slot_lt_iff off hn (Nat.le_of_lt hnm) (hT.base_le hr) (hT.lap r hr) hlow hhigh
  have hreader : ∀ r ∈ T.line, ((SyncReaderList.adjustAll s₁ ((m : Int) - n)
      (slot n off T.base) T.line).readers r).index =
      if (if T.ticket r < T.written then (s.readers r).index > s.writeIndex
        else (s.readers r).index < s.writeIndex) then (s.readers r).index + ((m : Int) - n)
      else (s.readers r).index := by
    intro r hr
    have hindex : (s₁.readers r).index = (s.readers r).index := by rw [hs₁]
    have hwrite : s₁.writeIndex = s.writeIndex := by rw [hs₁]
    have hp := hpopulated r hr
    rw [hindex, hwrite] at hp
    simp only [SyncReaderList.adjustAll, SyncReaderList.adjusted, if_pos hr, hindex, hwrite, hp]
  refine ⟨n + T.line.length + 1,
    SyncReaderList.adjustAll s₁ ((m : Int) - n) (slot n off T.base) T.line, ?_, ?_⟩
  · intro fuel hfuel
    have hindices := @indexLoop_spec n m off _ _ hn hnm hlow hhigh (T.written - T.base) T.base fuel
      (Nat.le_refl _) (by omega) (by omega)
    rw [SyncQueue.resize, hring fuel (by omega)]
    simp only [ok_bind, h.size, h.readIndex, h.writeIndex, hindices]
    rw [← hadjust fuel (by omega), hs₁, ← h.writeIndex]
  · refine
      { chained := SyncReaderList.chained_adjustAll hchained _ _ _
        size := by rw [hs₁]; rfl
        readIndex := by rw [hs₁]; rfl
        writeIndex := ?_
        written := ?_
        waiting := ?_
        isDone := ?_
        stored := ?_
        canStore := ?_ }
    · rw [slot_regrow_self off hn (Nat.le_of_lt hnm), ← h.writeIndex, hs₁]
      rfl
    · intro r hr hlt
      have hwn : T.written < T.ticket r + n := by
        have hrb := hT.base_le hr
        omega
      rw [hreader r hr, if_congr (Iff.of_eq (if_pos hlt)) rfl rfl, h.index r hr, h.writeIndex,
        slot_regrow_of_lt off hn (Nat.le_of_lt hnm) hlt hwn]
    · intro r hr hge
      rw [hreader r hr, if_congr (Iff.of_eq (if_neg (Nat.not_lt.mpr hge))) rfl rfl]
    · intro r hr
      rw [← h.isDone r hr, hs₁]
      simp only [SyncReaderList.adjustAll]
      split <;> rfl
    · rw [hs₁]
      exact hdata
    · rw [hs₁]
      exact h.canStore

end Represents

omit [DecidableEq ρ] in
/-- A line that is sound for a ring is sound for a larger one. -/
theorem Tickets.Sound.mono {n m : Nat} {T : Tickets ρ E} (h : T.Sound n) (hnm : n ≤ m) :
    T.Sound m where
  nodup := h.nodup
  sorted := h.sorted
  head := h.head
  lap r hr := Nat.lt_of_lt_of_le (h.lap r hr) (by omega)
  within := Nat.lt_of_lt_of_le h.within (by omega)
  held := h.held
  taken := h.taken
  fresh := h.fresh
  unshared := h.unshared
  once := h.once

namespace Represents

variable {n m : Nat} {off : Int} {s s' : SyncQueue ρ E} {T : Tickets ρ E}

omit [DecidableEq ρ] in
/-- A reader waits for the entries up to the one its ticket names. -/
theorem waitsFor_eq (h : Represents n off s T) (hT : T.Sound n) {r : ρ} (hr : r ∈ T.line)
    (hwaits : T.written ≤ T.ticket r) : s.waitsFor r = (T.ticket r : Int) - T.written + 1 := by
  have hlow := hT.base_le_written
  have hlap := hT.lap r hr
  rw [SyncQueue.waitsFor, h.size, h.writeIndex, h.index r hr,
    slot_sub_emod off hwaits (by omega)]

omit [DecidableEq ρ] in
/-- Each accepted entry shortens the wait by one, and the last one ends it. -/
theorem waitsFor_add (h : Represents n off s T) (hT : T.Sound n) {e : E}
    (he : s.dataEntries.CanStore e) (hroom : T.written + 1 < T.base + n) {r : ρ}
    (hr : r ∈ T.line) (hwaits : s.slotIsEmpty r = true) :
    if s.waitsFor r = 1 then (s.add e).1.slotIsEmpty r = false
    else (s.add e).1.slotIsEmpty r = true ∧ (s.add e).1.waitsFor r = s.waitsFor r - 1 := by
  have hle : T.written ≤ T.ticket r := by simpa [h.slotIsEmpty_eq hT hr] using hwaits
  obtain ⟨s', hrun, hs'⟩ := h.add hT he hroom
  have hT' := hT.write e hroom
  have hr' : r ∈ (T.write e).line := hr
  have hwait := h.waitsFor_eq hT hr hle
  rw [hrun, hs'.slotIsEmpty_eq hT' hr', Tickets.written_write]
  change if s.waitsFor r = 1 then decide (T.written + 1 ≤ T.ticket r) = false
    else decide (T.written + 1 ≤ T.ticket r) = true ∧ s'.waitsFor r = s.waitsFor r - 1
  split
  · simp only [decide_eq_false_iff_not]
    omega
  · have hle' : (T.write e).written ≤ (T.write e).ticket r := by
      rw [Tickets.written_write]
      change T.written + 1 ≤ T.ticket r
      omega
    have hwait' := hs'.waitsFor_eq hT' hr' hle'
    rw [Tickets.written_write] at hwait'
    refine ⟨?_, ?_⟩
    · simp only [decide_eq_true_eq]
      omega
    · rw [hwait', hwait]
      change (T.ticket r : Int) - ((T.written + 1 : Nat) : Int) + 1 = _
      push_cast
      omega

omit [DecidableEq ρ] in
/-- Two queues that stand for the same line give its readers the same view. -/
theorem keepsView (h : Represents n off s T) (hT : T.Sound n) (hnm : n ≤ m)
    {off' : Int} (h' : Represents m off' s' T) : KeepsView s s' := by
  have hT' := hT.mono hnm
  have hempty : ∀ r, (s.readers r).inQueue = true → s'.slotIsEmpty r = s.slotIsEmpty r := by
    intro r hr
    have hrl := h.mem_iff.mp hr
    rw [h.slotIsEmpty_eq hT hrl, h'.slotIsEmpty_eq hT' hrl]
  refine
    { populated := ?_
      waiting := ?_
      apart := ?_ }
  · intro r hr hno
    have hrl := h.mem_iff.mp hr
    have hlt : T.ticket r < T.written := by simpa [h.slotIsEmpty_eq hT hrl] using hno
    have hget : T.accepted[T.ticket r]? = some T.accepted[T.ticket r] :=
      List.getElem?_eq_getElem hlt
    refine ⟨by rw [hempty r hr, hno], T.accepted[T.ticket r], ?_, ?_⟩
    · rw [h.index r hrl, h.stored _ _ (hT.base_le hrl) hget]
    · rw [h'.index r hrl, h'.stored _ _ (hT.base_le hrl) hget]
  · intro r hr hyes
    have hrl := h.mem_iff.mp hr
    have hle : T.written ≤ T.ticket r := by simpa [h.slotIsEmpty_eq hT hrl] using hyes
    exact ⟨by rw [hempty r hr, hyes],
      by rw [h.waitsFor_eq hT hrl hle, h'.waitsFor_eq hT' hrl hle]⟩
  · intro r x hr hx _ _ hne
    have hrl := h.mem_iff.mp hr
    have hxl := h.mem_iff.mp hx
    have hm : 0 < m := by
      have hlow := hT'.base_le_written
      have hhigh := hT'.within
      omega
    rw [h'.index r hrl, h'.index x hxl, Ne, slot_inj off' hm (hT'.base_le hrl) (hT'.lap r hrl)
      (hT'.base_le hxl) (hT'.lap x hxl)]
    intro heq
    rw [h.index r hrl, h.index x hxl, heq] at hne
    exact hne rfl

end Represents

namespace Regrown

variable {n m : Nat} {off : Int} {s s' : SyncQueue ρ E} {T : Tickets ρ E}

omit [DecidableEq ρ] in
/-- Under the condition the regrown queue stands for the same line. -/
theorem represents (h : Regrown n m off s s' T) (hs : Represents n off s T) (hT : T.Sound n)
    (hnm : n < m) (hclean : s.GrowsCleanly m) :
    Represents m (regrow n off T.written) s' T where
  chained := h.chained
  size := h.size
  readIndex := h.readIndex
  writeIndex := h.writeIndex
  isDone := h.isDone
  stored := h.stored
  canStore := h.canStore
  index := by
    intro r hr
    have hlow := hT.base_le_written
    have hlap := hT.lap r hr
    have hn : 0 < n := by
      have hwithin := hT.within
      omega
    rcases Nat.lt_or_ge (T.ticket r) T.written with hlt | hge
    · exact h.written r hr hlt
    · rw [h.waiting r hr hge, hs.index r hr, hs.writeIndex]
      split
      · -- a wrapped slot: the ring doubles
        rename_i hcut
        have hdouble : m = 2 * n := by
          rcases hclean with hdouble | hnone
          · rw [hdouble, hs.size]
          · have hw := hnone r (hs.mem_iff.mpr hr) (by simpa [hs.slotIsEmpty_eq hT hr] using hge)
            rw [hs.index r hr, hs.writeIndex] at hw
            omega
        have hw0 := slot_nonneg off hn T.written
        have hwn := slot_lt off hn T.written
        rcases slot_eq_or_wrapped off hn hge (by omega) with ⟨heq, -⟩ | ⟨heq, -⟩
        · omega
        · rw [slot_regrow, Int.emod_eq_of_lt (by omega) (by omega)]
          omega
      · rename_i hcut
        exact (slot_regrow_of_le off hn (Nat.le_of_lt hnm) hge (by omega) (by omega)).symm

omit [DecidableEq ρ] in
/-- A reader that waits below the cut of a ring that does not double waits for
another number of entries afterwards. -/
theorem waitsFor_ne (h : Regrown n m off s s' T) (hs : Represents n off s T) (hT : T.Sound n)
    (hnm : n < m) {r : ρ} (hr : r ∈ T.line) (hwaits : T.written ≤ T.ticket r)
    (hcut : (s.readers r).index < s.writeIndex) (hdouble : m ≠ 2 * n) :
    s'.waitsFor r ≠ s.waitsFor r := by
  have hlow := hT.base_le_written
  have hlap := hT.lap r hr
  have hn : 0 < n := by
    have hwithin := hT.within
    omega
  rw [hs.waitsFor_eq hT hr hwaits, SyncQueue.waitsFor, h.size, h.writeIndex,
    slot_regrow_self off hn (Nat.le_of_lt hnm), h.waiting r hr hwaits, if_pos hcut]
  rw [hs.index r hr, hs.writeIndex] at hcut
  rw [hs.index r hr]
  rcases slot_eq_or_wrapped off hn hwaits (by omega) with ⟨heq, -⟩ | ⟨heq, -⟩
  · omega
  · have hdist : slot n off (T.ticket r) + ((m : Int) - n) - slot n off T.written =
        (T.ticket r : Int) - T.written + (m - 2 * n) := by omega
    rw [hdist]
    rcases Int.lt_or_le ((T.ticket r : Int) - T.written + (m - 2 * n)) 0 with hneg | hnonneg
    · rw [← Int.add_emod_right, Int.emod_eq_of_lt (by omega) (by omega)]
      omega
    · rw [Int.emod_eq_of_lt hnonneg (by omega)]
      omega

omit [DecidableEq ρ] in
/-- A resize keeps every reader's view exactly under the condition. -/
theorem keepsView_iff (h : Regrown n m off s s' T) (hs : Represents n off s T) (hT : T.Sound n)
    (hnm : n < m) : KeepsView s s' ↔ s.GrowsCleanly m := by
  constructor
  · intro hview
    by_cases hdouble : m = 2 * n
    · exact .inl (by rw [hs.size, hdouble])
    · refine .inr fun r hr hempty => ?_
      by_contra hcut
      have hrl := hs.mem_iff.mp hr
      have hwaits : T.written ≤ T.ticket r := by simpa [hs.slotIsEmpty_eq hT hrl] using hempty
      exact h.waitsFor_ne hs hT hnm hrl hwaits (by omega) hdouble (hview.waiting r hr hempty).2
  · intro hclean
    exact hs.keepsView hT (Nat.le_of_lt hnm) (h.represents hs hT hnm hclean)

end Regrown

/-- The calls of a group of readers that stays, and resizes. -/
inductive GrowthCall (ρ E : Type)
  | add (entry : E)
  | startAccess (r : ρ)
  | remove (r : ρ)
  | resize (newSize : Nat)

namespace SyncQueue

/-- One call of a queue that may grow. -/
def growthStep (s : SyncQueue ρ E) : GrowthCall ρ E → SyncQueue ρ E → Prop
  | .add entry, s' => s' = (s.add entry).1
  | .startAccess r, s' => (s.readers r).inQueue = false ∧ s.startAccess r = .ok s'
  | .remove r, s' => (s.readers r).inQueue = true ∧ ∃ result, s.remove r = .ok (s', result)
  | .resize newSize, s' =>
      s.currentSize < newSize ∧ ∃ F, ∀ fuel ≥ F, s.resize fuel newSize = .ok s'

/-- The runs of a queue of the given initial size. -/
def growing (ρ : Type) [DecidableEq ρ] (queueSize : Nat)
    (dataEntries : ProcessingQueueDataArray E) : System (SyncQueue ρ E) (GrowthCall ρ E) where
  init s := s = .new ρ queueSize dataEntries
  step := growthStep

/-- Resizes are made under the condition. -/
def CleanGrowth (s : SyncQueue ρ E) : GrowthCall ρ E → Prop
  | .resize newSize => s.GrowsCleanly newSize
  | _ => True

/-- A queue whose resizes were clean stands for a line. -/
theorem growing_represents {queueSize : Nat} (hn : 2 ≤ queueSize)
    {dataEntries : ProcessingQueueDataArray E} {s : SyncQueue ρ E}
    (h : ((growing ρ queueSize dataEntries).restrict CleanGrowth).Reachable s) :
    ∃ n off T, 2 ≤ n ∧ T.Sound n ∧ T.Tight ∧ Represents n off s T := by
  refine h.invariant
    (I := fun s => ∃ n off T, 2 ≤ n ∧ T.Sound n ∧ T.Tight ∧ Represents n off s T) ?_ ?_
  · rintro s rfl
    have hnew : Ledger.Follows queueSize (.new ρ queueSize dataEntries) (.new ρ E) :=
      .new (by omega) dataEntries
    exact ⟨queueSize, 0, _, hn, hnew.sound, rfl, hnew.represents⟩
  · rintro s c s' ⟨n, off, T, hn, hT, htight, hs⟩ ⟨hstep, hclean⟩
    cases c with
    | add e =>
        obtain rfl : s' = (s.add e).1 := hstep
        by_cases hfit : s.dataEntries.CanStore e ∧ T.written + 1 < T.base + n
        · obtain ⟨u, hrun, hu⟩ := hs.add hT hfit.1 hfit.2
          exact ⟨n, off, T.write e, hn, hT.write e hfit.2, htight, by rw [hrun]; exact hu⟩
        · obtain ⟨i, -, hrun, -⟩ := hs.add_refused hT hfit
          exact ⟨n, off, T, hn, hT, htight, by rw [hrun]; exact hs⟩
    | startAccess r =>
        obtain ⟨hr, hrun⟩ := hstep
        have hrl : r ∉ T.line := fun hm => by simp [hs.mem_iff.mpr hm] at hr
        obtain ⟨u, hrun', hu⟩ := hs.startAccess hT hn hr
        obtain rfl := Except.ok.inj (hrun.symm.trans hrun')
        exact ⟨n, off, T.join n r, hn, hT.join hn hrl (htight.level n r), htight.join hn hrl, hu⟩
    | remove r =>
        obtain ⟨hr, result, hrun⟩ := hstep
        have hrl := hs.mem_iff.mp hr
        obtain ⟨u, hrun', hu⟩ := hs.remove hT hn hrl (fun _ => htight.level n r)
        obtain rfl := (Prod.mk.inj (Except.ok.inj (hrun.symm.trans hrun'))).1
        exact ⟨n, off, T.ask n r, hn, hT.ask hn hrl (fun _ => htight.level n r),
          htight.ask hn, hu⟩
    | resize m =>
        obtain ⟨hgrow, F, hrun⟩ := hstep
        rw [hs.size] at hgrow
        obtain ⟨F', u, hrun', hu⟩ := hs.resize hT hgrow
        have hsame := (hrun (max F F') (Nat.le_max_left _ _)).symm.trans
          (hrun' (max F F') (Nat.le_max_right _ _))
        obtain rfl := Except.ok.inj hsame
        exact ⟨m, _, T, by omega, hT.mono (Nat.le_of_lt hgrow), htight,
          hu.represents hs hT hgrow hclean⟩

/-- In every state that earlier clean resizes leave behind, a resize to a larger
size ends, and it keeps every reader's view exactly if it doubles the ring or no
registered reader waits for a slot below `writeIndex`. -/
theorem resize_keepsView_iff {queueSize : Nat} (hn : 2 ≤ queueSize)
    (dataEntries : ProcessingQueueDataArray E) {s : SyncQueue ρ E}
    (h : ((growing ρ queueSize dataEntries).restrict CleanGrowth).Reachable s) {newSize : Nat}
    (hgrow : s.currentSize < newSize) :
    ∃ F s', (∀ fuel ≥ F, s.resize fuel newSize = .ok s') ∧
      (KeepsView s s' ↔ s.GrowsCleanly newSize) := by
  obtain ⟨n, off, T, -, hT, -, hs⟩ := growing_represents hn h
  rw [hs.size] at hgrow
  obtain ⟨F, s', hrun, hs'⟩ := hs.resize hT hgrow
  exact ⟨F, s', hrun, hs'.keepsView_iff hs hT hgrow⟩

/-- A run of calls without a resize is a run of a queue that may grow. -/
theorem growing_of_ledger {queueSize : Nat} {dataEntries : ProcessingQueueDataArray E}
    {t : Ledger ρ E}
    (h : ((Ledger.system ρ queueSize dataEntries).restrict Ledger.Stays).Reachable t) :
    ((growing ρ queueSize dataEntries).restrict CleanGrowth).Reachable t.queue := by
  refine h.invariant (I := fun t =>
    ((growing ρ queueSize dataEntries).restrict CleanGrowth).Reachable t.queue) ?_ ?_
  · rintro t rfl
    exact .start rfl
  · rintro t c u ht ⟨⟨hallowed, hcall⟩, hstays⟩
    cases c with
    | add e =>
        obtain rfl := Except.ok.inj hcall
        refine ht.step (l := .add e) ⟨?_, trivial⟩
        change (t.add e).queue = (t.queue.add e).1
        simp only [Ledger.add]
        split <;> rfl
    | startAccess r =>
        simp only [Ledger.call, Ledger.startAccess] at hcall
        cases hrun : t.queue.startAccess r with
        | error f =>
            rw [hrun] at hcall
            cases hcall
        | ok s =>
            rw [hrun] at hcall
            refine ht.step (l := .startAccess r) ⟨⟨hallowed, ?_⟩, trivial⟩
            rw [hrun, ← Except.ok.inj hcall]
            split <;> rfl
    | remove r =>
        simp only [Ledger.call, Ledger.remove] at hcall
        cases hrun : t.queue.remove r with
        | error f =>
            rw [hrun] at hcall
            cases hcall
        | ok p =>
            rw [hrun] at hcall
            refine ht.step (l := .remove r) ⟨⟨hallowed, p.2, ?_⟩, trivial⟩
            rw [hrun, ← Except.ok.inj hcall]
            unfold Ledger.settle
            split <;> split <;> rfl
    | endAccess r => exact hstays.elim

/-- A ring of four slots doubles while a reader waits below `writeIndex`. -/
theorem keepsView_of_doubling :
    ∃ s s' : SyncQueue (Fin 2) Nat, s.writeIndex = 3 ∧ (s.readers 1).index = 0 ∧
      s.slotIsEmpty 1 = true ∧ (∃ F, ∀ fuel ≥ F, s.resize fuel 8 = .ok s') ∧
      (KeepsView s s' ↔ s.GrowsCleanly 8) := by
  let calls : List (Call (Fin 2) Nat) :=
    [.startAccess 0, .add 10, .add 11, .add 12, .remove 0, .remove 0, .remove 0, .remove 0,
      .startAccess 1]
  have hcalls : ((Ledger.new (Fin 2) 4 (.uniform Nat 8)).callAll Ledger.Stays calls).map
      (fun t => (t.queue.writeIndex, (t.queue.readers 1).index, t.queue.slotIsEmpty 1,
        t.queue.currentSize)) = some (3, 0, true, 4) := by decide
  obtain ⟨t, hcalls, ht⟩ := Option.map_eq_some_iff.mp hcalls
  simp only [Prod.mk.injEq] at ht
  obtain ⟨hwrite, hindex, hempty, hsize⟩ := ht
  have hreachable := growing_of_ledger
    (Ledger.reachable_callAll calls (System.Reachable.start rfl) hcalls)
  have hgrow : t.queue.currentSize < 8 := by
    rw [hsize]
    decide
  obtain ⟨F, s', hrun, hiff⟩ := resize_keepsView_iff (by decide) _ hreachable hgrow
  exact ⟨t.queue, s', hwrite, hindex, hempty, ⟨F, hrun⟩, hiff⟩

/-- A ring of four slots whose entries leave room for six grows by two slots: the
reader that waited for the second next entry waits for the sixth. -/
theorem capped_resize_moves_waiter :
    ∃ s s' : SyncQueue (Fin 2) Nat,
      (growing (Fin 2) 4 (.uniform Nat 80000000)).Reachable s ∧
      s.currentSize < s.getNewQueueSize ∧
      (∃ F, ∀ fuel ≥ F, s.resize fuel s.getNewQueueSize = .ok s') ∧
      ¬ KeepsView s s' := by
  let calls : List (Call (Fin 2) Nat) :=
    [.startAccess 0, .add 10, .add 11, .add 12, .remove 0, .remove 0, .remove 0, .remove 0,
      .startAccess 1]
  have hcalls : ((Ledger.new (Fin 2) 4 (.uniform Nat 80000000)).callAll Ledger.Stays calls).map
      (fun t => (t.queue.writeIndex, (t.queue.readers 1).index, (t.queue.readers 1).inQueue,
        t.queue.slotIsEmpty 1, t.queue.currentSize, t.queue.getNewQueueSize)) =
      some (3, 0, true, true, 4, 6) := by decide
  obtain ⟨t, hcalls, ht⟩ := Option.map_eq_some_iff.mp hcalls
  simp only [Prod.mk.injEq] at ht
  obtain ⟨hwrite, hindex, hr, hempty, hsize, hnew⟩ := ht
  have hreachable := growing_of_ledger
    (Ledger.reachable_callAll calls (System.Reachable.start rfl) hcalls)
  obtain ⟨n, off, T, -, hT, -, hs⟩ := growing_represents (by decide) hreachable
  obtain rfl : n = 4 := hs.size.symm.trans hsize
  obtain ⟨F, s', hrun, hs'⟩ := hs.resize hT (show 4 < 6 by decide)
  refine ⟨t.queue, s', hreachable.of_restrict, by rw [hsize, hnew]; decide,
    ⟨F, by rw [hnew]; exact hrun⟩, ?_⟩
  intro hview
  have hrl := hs.mem_iff.mp hr
  refine hs'.waitsFor_ne hs hT (by decide) hrl ?_ ?_ (by decide) (hview.waiting 1 hr hempty).2
  · simpa [hs.slotIsEmpty_eq hT hrl] using hempty
  · rw [hindex, hwrite]
    decide

end SyncQueue

end HPQueue
