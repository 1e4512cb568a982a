import HPQueue.Queue.Fifo
import HPQueue.Queue.Refinement

/-!
# A queue with one reader

A `SyncQueue` with a single reader and a `ReaderWriterQueue` are used for the same
thing, and keep it differently.  The reader of a `SyncQueue` holds the slot it read
last until its next call, and `readIndex` stays there; a `ReaderWriterQueue` gives
the slot back at once.  The two are run side by side here: the same calls on both,
where leaving and coming back means nothing to the second.

## Main results

* `Agree` — how the two states are related.
* `one_reader_agrees` — as long as the `SyncQueue` takes every entry, both give the
  same outcome to every call.
-/

namespace HPQueue

open Library.Ring QueueConstants

variable {ρ E : Type} [DecidableEq ρ]

/-- A call by the only reader, or by a writer. -/
inductive SoloCall (E : Type)
  | add (entry : E)
  | poll
  | rejoin
  | resize (newSize : Nat)

/-- What a call returns. -/
inductive Outcome (E : Type)
  | added (index : Int)
  | polled (result : Option E)
  | returned
  deriving DecidableEq

namespace SoloCall

/-- The size of the ring after a call. -/
def sizeAfter (n : Nat) : SoloCall E → Nat
  | .resize newSize => newSize
  | _ => n

/-- Every resize grows a ring of `n` slots further. -/
def Growing : Nat → List (SoloCall E) → Prop
  | _, [] => True
  | n, c :: cs => (∀ m, c = .resize m → n < m) ∧ Growing (c.sizeAfter n) cs

theorem le_sizeAfter {n : Nat} {c : SoloCall E} (hgrow : ∀ m, c = .resize m → n < m) :
    n ≤ c.sizeAfter n := by
  cases c with
  | resize m => exact Nat.le_of_lt (hgrow m rfl)
  | _ => exact Nat.le_refl n

end SoloCall

/-- The calls in order, and what each returns. -/
def runCalls {σ : Type} (call : σ → SoloCall E → Except Fault (σ × Outcome E)) :
    σ → List (SoloCall E) → Except Fault (σ × List (Outcome E))
  | s, [] => .ok (s, [])
  | s, c :: cs => do
      let (s, outcome) ← call s c
      let (s, outcomes) ← runCalls call s cs
      return (s, outcome :: outcomes)

/-- A call on a `SyncQueue` whose reader is `r`. -/
def SyncQueue.soloCall (fuel : Nat) (r : ρ) (s : SyncQueue ρ E) :
    SoloCall E → Except Fault (SyncQueue ρ E × Outcome E)
  | .add entry => .ok ((s.add entry).1, .added (s.add entry).2)
  | .poll => do
      let (s, result) ← s.remove r
      return (s, .polled result)
  | .rejoin => do
      let s ← s.endAccess r
      let s ← s.startAccess r
      return (s, .returned)
  | .resize newSize => do
      let s ← s.resize fuel newSize
      return (s, .returned)

/-- The same call on a `ReaderWriterQueue`. -/
def ReaderWriterQueue.soloCall (fuel : Nat) (q : ReaderWriterQueue E) :
    SoloCall E → Except Fault (ReaderWriterQueue E × Outcome E)
  | .add entry => .ok ((q.add entry).1, .added (q.add entry).2)
  | .poll => do
      let (q, result) ← q.remove
      return (q, .polled result)
  | .rejoin => .ok (q, .returned)
  | .resize newSize => do
      let q ← q.resize fuel newSize
      return (q, .returned)

/-- A queue whose only reader is `r`, at the entry of number `k`: `held` is the entry
it took last, and `entries` are those it has not taken. -/
structure Solo (n : Nat) (off : Int) (s : SyncQueue ρ E) (r : ρ) (k : Nat) (held : Option E)
    (entries : List E) : Prop where
  chained : Chained s [r]
  ring : HoldsFifo n off s.toReaderWriterQueue k (held.toList ++ entries)
  index : (s.readers r).index = s.readIndex
  isDone : (s.readers r).isDone = held.isSome

namespace Solo

variable {n : Nat} {off : Int} {s : SyncQueue ρ E} {r : ρ} {k : Nat} {held : Option E}
  {entries : List E}

/-- A new queue and its reader. -/
theorem start (hn : 1 ≤ n) (dataEntries : ProcessingQueueDataArray E) (r : ρ) :
    ∃ s, (SyncQueue.new ρ n dataEntries).startAccess r = .ok s ∧
      s.dataEntries = dataEntries ∧ Solo n 0 s r 0 (none : Option E) [] := by
  have hchained : Chained (SyncQueue.new ρ n dataEntries) [] :=
    (Represents.new (n := n) dataEntries).chained
  obtain ⟨s, hrun, hs⟩ := SyncReaderList.add_first hchained (r := r) rfl
  refine ⟨s, hrun, by rw [hs.ring]; rfl, ?_⟩
  constructor
  · exact hs.chained
  · rw [hs.ring]
    exact .new hn dataEntries
  · rw [hs.index, if_pos rfl, hs.ring]
  · rw [hs.isDone, if_pos rfl]
    rfl

omit [DecidableEq ρ] in
/-- An entry is taken, or nothing changes. -/
theorem add (h : Solo n off s r k held entries) (e : E) :
    (∃ s', s.add e = (s', s.writeIndex) ∧ s'.dataEntries = s.dataEntries ∧
      (held.toList ++ entries).length + 1 < n ∧ s.dataEntries.CanStore e ∧
      Solo n off s' r k held (entries ++ [e])) ∨
    ∃ i < 0, s.add e = (s, i) := by
  have hwithin := h.ring.within
  by_cases he : s.dataEntries.CanStore e
  · by_cases hfull : (held.toList ++ entries).length + 1 = n
    · refine .inr ⟨IS_FULL, by decide, ?_⟩
      rw [SyncQueue.add, h.ring.add_of_full hfull]
    · obtain ⟨q, hadd, hq, hdata⟩ := h.ring.add_of_room (by omega) he
      refine .inl ⟨{ s with toReaderWriterQueue := q }, by rw [SyncQueue.add, hadd], hdata,
        by omega, he, ?_⟩
      constructor
      · exact h.chained.congr rfl rfl (fun _ => rfl) (fun _ => rfl) (fun _ => rfl)
      · rw [← List.append_assoc]
        exact hq
      · show (s.readers r).index = q.readIndex
        rw [h.index, h.ring.readIndex, hq.readIndex]
      · exact h.isDone
  · obtain ⟨i, hi, hadd⟩ := h.ring.add_of_not_canStore he
    refine .inr ⟨i, hi, ?_⟩
    rw [SyncQueue.add, hadd]

omit [DecidableEq ρ] in
/-- The reader's slot is empty if no entry is pending. -/
theorem slotIsEmpty_eq {es : List E} (hring : HoldsFifo n off s.toReaderWriterQueue k es)
    (hindex : (s.readers r).index = s.readIndex) : s.slotIsEmpty r = decide (es = []) := by
  have hwithin := hring.within
  have hle : k + es.length ≤ k ↔ es = [] := by
    rw [← List.length_eq_zero_iff]
    omega
  rw [SyncQueue.slotIsEmpty]
  simp only [ReaderWriterQueue.adjustIndexForComparison, adjustIndexForComparison_eq_unwrap,
    hindex, hring.size, hring.writeIndex, hring.readIndex,
    unwrap_slot_le_iff off (show 0 < n by omega) (Nat.le_add_right k es.length)
      (show k + es.length < k + n by omega) (Nat.le_refl k) (show k < k + n by omega), hle]

/-- `removeSlot` takes the first pending entry. -/
theorem removeSlot {es : List E} (hchained : Chained s [r])
    (hring : HoldsFifo n off s.toReaderWriterQueue k es)
    (hindex : (s.readers r).index = s.readIndex) :
    ∃ s', s.removeSlot r = .ok (s', es.head?) ∧ s'.dataEntries = s.dataEntries ∧
      Solo n off s' r k es.head? es.tail := by
  have hempty := slotIsEmpty_eq hring hindex
  refine ⟨(s.setIsEmpty r (s.slotIsEmpty r)).setIsDone r (!s.slotIsEmpty r), ?_, rfl, ?_⟩
  · cases es with
    | nil => simp [SyncQueue.removeSlot, SyncQueue.isEmpty, hempty]
    | cons e rest =>
        have hcell : s.queueData s.readIndex = .entry e := by
          rw [hring.readIndex]
          exact hring.stored 0 e rfl
        simp [SyncQueue.removeSlot, SyncQueue.isEmpty, hempty, hindex, hcell]
  · constructor
    · exact hchained.congr rfl rfl (fun x => by simp) (fun x => by simp) (fun x => by simp)
    · cases es with
      | nil => exact hring
      | cons e rest => exact hring
    · simpa using hindex
    · cases es <;> simp [hempty]

/-- Polling gives the held slot back, and takes the next entry. -/
theorem poll (h : Solo n off s r k held entries) (hn : 2 ≤ n) :
    ∃ s', s.remove r = .ok (s', entries.head?) ∧ s'.dataEntries = s.dataEntries ∧
      Solo n off s' r (k + held.toList.length) entries.head? entries.tail := by
  cases held with
  | none =>
      have hdone : (s.readers r).isDone = false := h.isDone
      obtain ⟨s', hrun, hdata, hs'⟩ := removeSlot h.chained h.ring h.index
      refine ⟨s', ?_, hdata, hs'⟩
      rw [SyncQueue.remove, hdone]
      exact hrun
  | some e =>
      have hdone : (s.readers r).isDone = true := h.isDone
      have hnext : s.nextIndex (s.readers r).index = slot n off (k + 1) := by
        rw [h.index, h.ring.readIndex, ReaderWriterQueue.nextIndex, HPQueue.nextIndex, h.ring.size,
          slot_succ]
      have hne : s.nextIndex (s.readers r).index ≠ (s.readers r).index := by
        rw [hnext, h.index, h.ring.readIndex, Ne, slot_inj off (r := k) (show 0 < n by omega)
          (by omega) (by omega) (by omega) (by omega)]
        omega
      obtain ⟨s₁, c, hmove, hc, hs₁⟩ := SyncReaderList.moveToFront_advance h.chained
        (r := r) (f := r) (b := r) (by simp) rfl rfl hne
      simp only [List.erase_cons_head, List.nil_append, List.head?_cons, Option.some.injEq]
        at hc hs₁
      subst hc
      have hring := hs₁.ring
      simp only [if_true, hnext] at hring
      obtain ⟨q, -, hq, hread⟩ := h.ring.remove_cons
      rw [hread, ← hring] at hq
      have hindex : (s₁.readers r).index = s₁.readIndex := by
        rw [hs₁.index, if_pos rfl, hnext, hring]
      obtain ⟨s', hrun, hdata, hs'⟩ := removeSlot hs₁.chained hq hindex
      refine ⟨s', ?_, hdata.trans (by rw [hring]), hs'⟩
      rw [SyncQueue.remove, hdone, hmove]
      exact hrun

/-- Leaving gives the held slot back, and the reader comes back to the slot after it. -/
theorem rejoin (h : Solo n off s r k held entries) :
    ∃ u s', s.endAccess r = .ok u ∧ u.startAccess r = .ok s' ∧ s'.dataEntries = s.dataEntries ∧
      Solo n off s' r (k + held.toList.length) none entries := by
  obtain ⟨u, hleave, hu⟩ := SyncReaderList.remove_lone h.chained
  have hring : HoldsFifo n off u.toReaderWriterQueue (k + held.toList.length) entries := by
    rw [hu.ring, h.isDone, slotIsEmpty_eq h.ring h.index]
    cases held with
    | none => simpa using h.ring
    | some e =>
        have hnext : s.nextIndex (s.readers r).index = slot n off (k + 1) := by
          rw [h.index, h.ring.readIndex, ReaderWriterQueue.nextIndex, HPQueue.nextIndex,
            h.ring.size, slot_succ]
        obtain ⟨q, -, hq, hread⟩ := h.ring.remove_cons
        rw [hread] at hq
        simpa [hnext] using hq
  have hin : (u.readers r).inQueue = false := by
    have hiff := hu.chained.inQueue r
    simpa using hiff
  obtain ⟨s', hjoin, hs'⟩ := SyncReaderList.add_first hu.chained hin
  refine ⟨u, s', hleave, hjoin, by rw [hs'.ring, hu.ring], ?_⟩
  constructor
  · exact hs'.chained
  · rw [hs'.ring]
    exact hring
  · rw [hs'.index, if_pos rfl, hs'.ring]
  · rw [hs'.isDone, if_pos rfl]
    rfl

/-- A larger ring, in which the reader follows the slot it holds or waits for. -/
theorem resize (h : Solo n off s r k held entries) {m : Nat} (hnm : n < m) :
    ∃ s', (∀ fuel > n + 1, s.resize fuel m = .ok s') ∧ s'.dataEntries = s.dataEntries ∧
      Solo m (regrow n off (k + (held.toList ++ entries).length)) s' r k held entries := by
  obtain ⟨w, hw⟩ : ∃ w, w = k + (held.toList ++ entries).length := ⟨_, rfl⟩
  have hwithin := h.ring.within
  have hn : 0 < n := by omega
  obtain ⟨q, hring, hq, hqwrite, hqdata⟩ := h.ring.resize_of_lt hnm
  have hwrite := h.ring.writeIndex
  rw [← hw] at hwrite hq ⊢
  obtain ⟨s₁, hs₁⟩ : ∃ s₁ : SyncQueue ρ E, s₁ = { s with toReaderWriterQueue := q } := ⟨_, rfl⟩
  have hchained : Chained s₁ [r] := by
    rw [hs₁]
    exact h.chained.congr rfl rfl (fun _ => rfl) (fun _ => rfl) (fun _ => rfl)
  obtain ⟨s', hs'⟩ : ∃ s', s' =
      SyncReaderList.adjustAll s₁ ((m : Int) - n) (slot n off k) [r] := ⟨_, rfl⟩
  have hindex : (s'.readers r).index = q.readIndex := by
    have hwrite₁ : s₁.writeIndex = slot n off w := by
      rw [hs₁]
      exact hqwrite.trans hwrite
    have hr₁ : (s₁.readers r).index = slot n off k := by
      rw [hs₁, ← h.ring.readIndex]
      exact h.index
    have hsize : s₁.currentSize = m := by
      rw [hs₁]
      exact hq.size
    have hpopulated := unwrap_slot_lt_iff off hn (Nat.le_of_lt hnm) (Nat.le_refl k)
      (show k < k + n by omega) (show k ≤ w by omega) (show w < k + n by omega)
    rw [hs', hq.readIndex]
    simp only [SyncReaderList.adjustAll, SyncReaderList.adjusted, List.mem_singleton, if_true, hr₁,
      hwrite₁, hsize, adjustIndexForComparison_eq_unwrap, hpopulated]
    rcases Nat.lt_or_eq_of_le (show k ≤ w by omega) with hlt | heq
    · rw [slot_regrow_of_lt off hn (Nat.le_of_lt hnm) hlt (by omega)]
      simp only [hlt, if_true, gt_iff_lt]
    · rw [heq, slot_regrow_self off hn (Nat.le_of_lt hnm)]
      simp
  refine ⟨s', ?_, ?_, ?_⟩
  · intro fuel hfuel
    have hindices := @indexLoop_spec n m off k w hn hnm (by omega) (by omega) (w - k) k fuel
      (Nat.le_refl _) (by omega) (by omega)
    have hlength : [r].length < fuel := by
      simp only [List.length_singleton]
      omega
    have hadjust := SyncReaderList.adjust_spec hchained ((m : Int) - n) (slot n off k) hlength
    rw [SyncQueue.resize, hring fuel (by omega)]
    simp only [ok_bind, h.ring.size, h.ring.readIndex, hq.size, hqwrite, hwrite, hindices]
    rw [hs', ← hadjust, hs₁]
  · rw [hs', hs₁]
    exact hqdata
  · constructor
    · rw [hs']
      exact SyncReaderList.chained_adjustAll hchained _ _ _
    · rw [hs', hs₁]
      exact hq
    · rw [hindex, hs', hs₁]
      rfl
    · rw [← h.isDone, hs', hs₁]
      simp [SyncReaderList.adjustAll]

end Solo

/-- The same calls have been made on both queues.  The `SyncQueue` still holds the
entry its reader took last. -/
structure Agree (n : Nat) (off : Int) (s : SyncQueue ρ E) (q : ReaderWriterQueue E) (r : ρ)
    (k : Nat) (held : Option E) (entries : List E) : Prop where
  solo : Solo n off s r k held entries
  fifo : HoldsFifo n off q (k + held.toList.length) entries
  dataEntries : q.dataEntries = s.dataEntries

/-- The call was not an add that was refused. -/
def Outcome.Accepted : Outcome E → Prop
  | .added index => 0 ≤ index
  | _ => True

/-- What one call does to a queue with one reader. -/
theorem Solo.step {n : Nat} {off : Int} {s : SyncQueue ρ E} {r : ρ} {k : Nat} {held : Option E}
    {entries : List E} (h : Solo n off s r k held entries) (hn : 2 ≤ n) (c : SoloCall E)
    (hgrow : ∀ m, c = .resize m → n < m) :
    ∃ F s' o off' k' held' entries', (∀ fuel ≥ F, s.soloCall fuel r c = .ok (s', o)) ∧
      Solo (c.sizeAfter n) off' s' r k' held' entries' := by
  cases c with
  | add e =>
      rcases h.add e with ⟨s', hrun, -, -, -, hs'⟩ | ⟨i, -, hrun⟩
      · exact ⟨0, s', _, off, k, held, _, fun _ _ => by rw [SyncQueue.soloCall, hrun], hs'⟩
      · exact ⟨0, s, _, off, k, held, entries, fun _ _ => by rw [SyncQueue.soloCall, hrun], h⟩
  | poll =>
      obtain ⟨s', hrun, -, hs'⟩ := h.poll hn
      exact ⟨0, s', _, off, _, _, _, fun _ _ => by rw [SyncQueue.soloCall, hrun]; rfl, hs'⟩
  | rejoin =>
      obtain ⟨u, s', hleave, hjoin, -, hs'⟩ := h.rejoin
      refine ⟨0, s', .returned, off, _, _, _, fun _ _ => ?_, hs'⟩
      rw [SyncQueue.soloCall, hleave, ok_bind, hjoin]
      rfl
  | resize m =>
      obtain ⟨s', hrun, -, hs'⟩ := h.resize (hgrow m rfl)
      refine ⟨n + 2, s', .returned, _, _, _, _, fun fuel hfuel => ?_, hs'⟩
      rw [SyncQueue.soloCall, hrun fuel hfuel]
      rfl

/-- A call that is accepted has the same outcome on both queues. -/
theorem Agree.step {n : Nat} {off : Int} {s : SyncQueue ρ E} {q : ReaderWriterQueue E} {r : ρ}
    {k : Nat} {held : Option E} {entries : List E} (h : Agree n off s q r k held entries)
    (hn : 2 ≤ n) (c : SoloCall E) (hgrow : ∀ m, c = .resize m → n < m) :
    ∃ F s' o, (∀ fuel ≥ F, s.soloCall fuel r c = .ok (s', o)) ∧
      (o.Accepted → ∃ q' off' k' held' entries',
        (∀ fuel ≥ F, q.soloCall fuel c = .ok (q', o)) ∧
        Agree (c.sizeAfter n) off' s' q' r k' held' entries') := by
  cases c with
  | add e =>
      rcases h.solo.add e with ⟨s', hrun, hdata, hroom, he, hs'⟩ | ⟨i, hi, hrun⟩
      · refine ⟨0, s', .added s.writeIndex, fun _ _ => by rw [SyncQueue.soloCall, hrun],
          fun _ => ?_⟩
        rw [List.length_append] at hroom
        obtain ⟨q', hadd, hq', hqdata⟩ := h.fifo.add_of_room (e := e) (by omega)
          (h.dataEntries ▸ he)
        have hwrite : q.writeIndex = s.writeIndex := by
          rw [h.fifo.writeIndex, h.solo.ring.writeIndex, List.length_append, Nat.add_assoc]
        refine ⟨q', off, k, held, _, fun _ _ => ?_, hs', hq', ?_⟩
        · rw [ReaderWriterQueue.soloCall, hadd, hwrite]
        · rw [hqdata, hdata, h.dataEntries]
      · refine ⟨0, s, .added i, fun _ _ => by rw [SyncQueue.soloCall, hrun], fun haccept => ?_⟩
        exact absurd hi (Int.not_lt.mpr haccept)
  | poll =>
      obtain ⟨s', hrun, hdata, hs'⟩ := h.solo.poll hn
      refine ⟨0, s', .polled entries.head?, fun _ _ => by rw [SyncQueue.soloCall, hrun]; rfl,
        fun _ => ?_⟩
      cases entries with
      | nil =>
          refine ⟨q, off, _, _, _, fun _ _ => ?_, hs', h.fifo, h.dataEntries.trans hdata.symm⟩
          rw [ReaderWriterQueue.soloCall, h.fifo.remove_nil]
          rfl
      | cons e rest =>
          obtain ⟨q', htake, hq', hread⟩ := h.fifo.remove_cons
          refine ⟨q', off, _, _, _, fun _ _ => ?_, hs', hq', ?_⟩
          · rw [ReaderWriterQueue.soloCall, htake]
            rfl
          · rw [hread, hdata]
            exact h.dataEntries
  | rejoin =>
      obtain ⟨u, s', hleave, hjoin, hdata, hs'⟩ := h.solo.rejoin
      refine ⟨0, s', .returned, fun _ _ => ?_, fun _ => ⟨q, off, _, _, _, fun _ _ => rfl, hs',
        h.fifo, h.dataEntries.trans hdata.symm⟩⟩
      rw [SyncQueue.soloCall, hleave, ok_bind, hjoin]
      rfl
  | resize m =>
      have hnm := hgrow m rfl
      obtain ⟨s', hrun, hdata, hs'⟩ := h.solo.resize hnm
      obtain ⟨q', hring, hq', -, hqdata⟩ := h.fifo.resize_of_lt hnm
      refine ⟨n + 2, s', .returned, fun fuel hfuel => ?_, fun _ =>
        ⟨q', _, _, _, _, fun fuel hfuel => ?_, hs', ?_, ?_⟩⟩
      · rw [SyncQueue.soloCall, hrun fuel hfuel]
        rfl
      · rw [ReaderWriterQueue.soloCall, hring fuel (by omega)]
        rfl
      · rw [List.length_append, ← Nat.add_assoc]
        exact hq'
      · rw [hqdata, hdata]
        exact h.dataEntries

/-- The calls on a queue with one reader end. -/
theorem Solo.run (cs : List (SoloCall E)) :
    ∀ {n : Nat} {off : Int} {s : SyncQueue ρ E} {r : ρ} {k : Nat} {held : Option E}
      {entries : List E}, Solo n off s r k held entries → 2 ≤ n → SoloCall.Growing n cs →
      ∃ F s' outcomes,
        ∀ fuel ≥ F, runCalls (SyncQueue.soloCall fuel r) s cs = .ok (s', outcomes) := by
  induction cs with
  | nil => exact fun {_ _ s _ _ _ _} _ _ _ => ⟨0, s, [], fun _ _ => rfl⟩
  | cons c cs ih =>
      intro n off s r k held entries h hn hgrow
      obtain ⟨F, s₁, o, off', k', held', entries', hcall, hs₁⟩ := h.step hn c hgrow.1
      obtain ⟨F', s', outcomes, hrest⟩ := ih hs₁
        (Nat.le_trans hn (SoloCall.le_sizeAfter hgrow.1)) hgrow.2
      refine ⟨max F F', s', o :: outcomes, fun fuel hfuel => ?_⟩
      rw [runCalls, hcall fuel (by omega), ok_bind]
      simp only [hrest fuel (by omega), ok_bind, pure_eq_ok]

/-- Calls that are all accepted have the same outcomes on both queues. -/
theorem Agree.run (cs : List (SoloCall E)) :
    ∀ {n : Nat} {off : Int} {s : SyncQueue ρ E} {q : ReaderWriterQueue E} {r : ρ} {k : Nat}
      {held : Option E} {entries : List E}, Agree n off s q r k held entries → 2 ≤ n →
      SoloCall.Growing n cs →
      ∃ F s' outcomes,
        (∀ fuel ≥ F, runCalls (SyncQueue.soloCall fuel r) s cs = .ok (s', outcomes)) ∧
        ((∀ o ∈ outcomes, o.Accepted) → ∃ q',
          ∀ fuel ≥ F, runCalls (ReaderWriterQueue.soloCall fuel) q cs = .ok (q', outcomes)) := by
  induction cs with
  | nil =>
      intro n off s q r k held entries _ _ _
      exact ⟨0, s, [], fun _ _ => rfl, fun _ => ⟨q, fun _ _ => rfl⟩⟩
  | cons c cs ih =>
      intro n off s q r k held entries h hn hgrow
      have hn' := Nat.le_trans hn (SoloCall.le_sizeAfter hgrow.1)
      obtain ⟨F, s₁, o, hcall, hagree⟩ := h.step hn c hgrow.1
      by_cases haccept : o.Accepted
      · obtain ⟨q₁, off', k', held', entries', hcall', h₁⟩ := hagree haccept
        obtain ⟨F', s', outcomes, hrest, hsame⟩ := ih h₁ hn' hgrow.2
        refine ⟨max F F', s', o :: outcomes, fun fuel hfuel => ?_, fun hall => ?_⟩
        · rw [runCalls, hcall fuel (by omega), ok_bind]
          simp only [hrest fuel (by omega), ok_bind, pure_eq_ok]
        · obtain ⟨q', hrest'⟩ := hsame fun x hx => hall x (List.mem_cons_of_mem o hx)
          refine ⟨q', fun fuel hfuel => ?_⟩
          rw [runCalls, hcall' fuel (by omega), ok_bind]
          simp only [hrest' fuel (by omega), ok_bind, pure_eq_ok]
      · obtain ⟨G, s₂, o₂, off', k', held', entries', hcall₂, hs₂⟩ := h.solo.step hn c hgrow.1
        obtain ⟨rfl, rfl⟩ : s₁ = s₂ ∧ o = o₂ := by
          have heq := (hcall (max F G) (by omega)).symm.trans (hcall₂ (max F G) (by omega))
          exact Prod.mk.inj (Except.ok.inj heq)
        obtain ⟨F', s', outcomes, hrest⟩ := Solo.run cs hs₂ hn' hgrow.2
        refine ⟨max F F', s', o :: outcomes, fun fuel hfuel => ?_, fun hall => ?_⟩
        · rw [runCalls, hcall fuel (by omega), ok_bind]
          simp only [hrest fuel (by omega), ok_bind, pure_eq_ok]
        · exact absurd (hall o (by simp)) haccept

/-- A `SyncQueue` with one reader and a `ReaderWriterQueue` of the same size: as long as
the first accepts every entry, the second does, and each poll returns the same on both. -/
theorem one_reader_agrees {n : Nat} (hn : 2 ≤ n) (dataEntries : ProcessingQueueDataArray E)
    (r : ρ) (cs : List (SoloCall E)) (hgrow : SoloCall.Growing n cs) :
    ∃ F s₀ s outcomes, (SyncQueue.new ρ n dataEntries).startAccess r = .ok s₀ ∧
      (∀ fuel ≥ F, runCalls (SyncQueue.soloCall fuel r) s₀ cs = .ok (s, outcomes)) ∧
      ((∀ o ∈ outcomes, o.Accepted) → ∃ q, ∀ fuel ≥ F,
        runCalls (ReaderWriterQueue.soloCall fuel) (.new n dataEntries) cs =
          .ok (q, outcomes)) := by
  obtain ⟨s₀, hstart, hdata, hs₀⟩ := Solo.start (show 1 ≤ n by omega) dataEntries r
  have h : Agree n 0 s₀ (.new n dataEntries) r 0 (none : Option E) [] :=
    ⟨hs₀, .new (by omega) dataEntries, hdata.symm⟩
  obtain ⟨F, s, outcomes, hrun, hsame⟩ := Agree.run cs h hn hgrow
  exact ⟨F, s₀, s, outcomes, hstart, hrun, hsame⟩

/-- A ring of two slots that grows while its reader holds one of them. -/
theorem one_reader_agrees_of_growth :
    ∃ F s₀ s outcomes, (SyncQueue.new Unit 2 (.uniform Nat 8)).startAccess () = .ok s₀ ∧
      (∀ fuel ≥ F, runCalls (SyncQueue.soloCall fuel ()) s₀
        [.add 10, .poll, .resize 3, .add 11, .rejoin, .poll, .poll] = .ok (s, outcomes)) ∧
      ((∀ o ∈ outcomes, o.Accepted) → ∃ q, ∀ fuel ≥ F,
        runCalls (ReaderWriterQueue.soloCall fuel) (.new 2 (.uniform Nat 8))
          [.add 10, .poll, .resize 3, .add 11, .rejoin, .poll, .poll] = .ok (q, outcomes)) :=
  one_reader_agrees (by decide) _ () _ (by simp [SoloCall.Growing, SoloCall.sizeAfter])

example : (runCalls (ReaderWriterQueue.soloCall 5) (.new 2 (.uniform Nat 8))
    [.add 10, .poll, .resize 3, .add 11, .rejoin, .poll, .poll]).toOption.map Prod.snd =
    some [.added 0, .polled (some 10), .returned, .added 1, .returned, .polled (some 11),
      .polled none] := by decide

end HPQueue
