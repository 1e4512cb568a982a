import HPQueue.Queue.ListShape

/-!
# A resize that does not grow

`ReaderWriterQueue::resize` returns at once when the new size is not larger, and
the caller is not told.  `SyncQueue::resize` goes on as if the ring had grown by
the difference, which is negative, and renumbers the readers it takes for moved:
those whose slot is written and above `writeIndex`, or unwritten and below it.

## Main results

* `refused_resize_iff` — such a resize changes nothing exactly if the size is the
  present one or no reader it visits has a slot of that kind.
* `refused_resize_moves_reader` — a wrapped ring whose reader loses its slot.
-/

namespace HPQueue

open Library.Transition

variable {ρ E : Type} [DecidableEq ρ]

namespace SyncQueue

omit [DecidableEq ρ] in
/-- The loop over the written slots ends when it meets `writeIndex`. -/
theorem indexLoop_ends {n : Nat} {readIndex writeIndex : Int} (d : Nat) :
    ∀ (i : Int) (fuel : Nat), 0 ≤ i → i < n → (i + d) % n = writeIndex → d < fuel →
      indexLoop n n readIndex writeIndex fuel i = .ok () := by
  induction d with
  | zero =>
      intro i fuel hi0 hin hmeet hfuel
      obtain ⟨fuel, rfl⟩ : ∃ f, fuel = f + 1 := ⟨fuel - 1, by omega⟩
      have hi : i = writeIndex := by
        rw [Nat.cast_zero, Int.add_zero, Int.emod_eq_of_lt hi0 hin] at hmeet
        exact hmeet
      rw [indexLoop, hi, if_neg (Int.lt_irrefl _)]
  | succ d ih =>
      intro i fuel hi0 hin hmeet hfuel
      obtain ⟨fuel, rfl⟩ : ∃ f, fuel = f + 1 := ⟨fuel - 1, by omega⟩
      rw [indexLoop]
      split
      · apply ih
        · exact Int.emod_nonneg _ (by omega)
        · exact Int.emod_lt_of_pos _ (by omega)
        · rw [← hmeet, nextIndex, Int.emod_add_emod]
          congr 1
          push_cast
          ring
        · omega
      · rfl

omit [DecidableEq ρ] in
/-- The loop over the written slots ends, wherever it starts. -/
theorem indexLoop_ok {n : Nat} {readIndex writeIndex : Int} (hw0 : 0 ≤ writeIndex)
    (hwn : writeIndex < n) (i : Int) {fuel : Nat} (hfuel : n + 1 < fuel) :
    indexLoop n n readIndex writeIndex fuel i = .ok () := by
  obtain ⟨fuel, rfl⟩ : ∃ f, fuel = f + 1 := ⟨fuel - 1, by omega⟩
  have hnext0 : 0 ≤ nextIndex i n := Int.emod_nonneg _ (by omega)
  have hnextn : nextIndex i n < n := Int.emod_lt_of_pos _ (by omega)
  have hd0 : 0 ≤ (writeIndex - nextIndex i n) % n := Int.emod_nonneg _ (by omega)
  have hdn : (writeIndex - nextIndex i n) % n < n := Int.emod_lt_of_pos _ (by omega)
  rw [indexLoop]
  split
  · apply indexLoop_ends ((writeIndex - nextIndex i n) % n).toNat _ _ hnext0 hnextn
    · rw [Int.toNat_of_nonneg hd0, Int.add_emod_emod, add_sub_cancel,
        Int.emod_eq_of_lt hw0 hwn]
    · omega
  · rfl

/-- A reader that `adjust` renumbers: its slot is written and above `writeIndex`, or
unwritten and below it. -/
def Renumbers (s : SyncQueue ρ E) (r : ρ) : Prop :=
  if s.slotIsEmpty r = true then (s.readers r).index < s.writeIndex
  else s.writeIndex < (s.readers r).index

instance (s : SyncQueue ρ E) (r : ρ) : Decidable (s.Renumbers r) :=
  inferInstanceAs (Decidable (ite (s.slotIsEmpty r = true) _ _))

omit [DecidableEq ρ] in
theorem slotIsEmpty_ne_true_iff (s : SyncQueue ρ E) (r : ρ) : s.slotIsEmpty r ≠ true ↔
    HPQueue.adjustIndexForComparison s.currentSize (s.readers r).index s.readIndex <
      HPQueue.adjustIndexForComparison s.currentSize s.writeIndex s.readIndex := by
  unfold slotIsEmpty
  rw [ne_eq, decide_eq_true_iff, Int.not_le]
  rfl

/-- A refused size reaches the readers all the same. -/
theorem resize_refused {s : SyncQueue ρ E} {newSize : Nat} (hsize : newSize ≤ s.currentSize)
    (fuel : Nat) : s.resize fuel newSize = (do
      indexLoop s.currentSize s.currentSize s.readIndex s.writeIndex fuel s.readIndex
      SyncReaderList.adjust fuel s ((newSize : Int) - s.currentSize) s.readIndex) := by
  have hring : s.toReaderWriterQueue.resize fuel newSize = .ok s.toReaderWriterQueue := by
    rw [ReaderWriterQueue.resize, if_pos hsize]
  rw [resize, hring]
  rfl

end SyncQueue

namespace SyncReaderList

omit [DecidableEq ρ] in
theorem adjusted_le (s : SyncQueue ρ E) {adjustment : Int} (hneg : adjustment ≤ 0)
    (queueReadIndex index : Int) : adjusted s adjustment queueReadIndex index ≤ index := by
  unfold adjusted
  split <;> omega

omit [DecidableEq ρ] in
/-- A negative adjustment changes the index of the readers it takes for moved. -/
theorem adjusted_lt_iff (s : SyncQueue ρ E) {adjustment : Int} (hneg : adjustment ≤ 0) (r : ρ) :
    adjusted s adjustment s.readIndex (s.readers r).index < (s.readers r).index ↔
      adjustment ≠ 0 ∧ s.Renumbers r := by
  have hempty := s.slotIsEmpty_ne_true_iff r
  unfold adjusted SyncQueue.Renumbers
  by_cases hslot : s.slotIsEmpty r = true
  · have hpopulated := (not_congr hempty).mp (not_not.mpr hslot)
    simp only [hslot, hpopulated, if_true, if_false]
    split <;> omega
  · have hpopulated := hempty.mp hslot
    simp only [hslot, hpopulated, if_true, Bool.false_eq_true, if_false]
    split <;> omega

/-- The loops follow pointers that `adjust` leaves alone. -/
theorem printLoop_setIndex (s : SyncQueue ρ E) (r : ρ) (i : Int) (fuel : Nat) :
    ∀ p : Option ρ, printLoop fuel p (s.setIndex r i) = printLoop fuel p s := by
  induction fuel with
  | zero => intro p; rfl
  | succ fuel ih =>
      intro p
      cases p with
      | none => rfl
      | some x => simp [printLoop, deref, ih]

/-- A negative adjustment never raises an index. -/
theorem adjustLoop_le {adjustment queueReadIndex : Int} (hneg : adjustment ≤ 0) (fuel : Nat) :
    ∀ (p : Option ρ) {s s' : SyncQueue ρ E},
      adjustLoop adjustment queueReadIndex fuel p s = .ok s' →
        ∀ x, (s'.readers x).index ≤ (s.readers x).index := by
  induction fuel with
  | zero =>
      intro p s s' hrun
      cases hrun
  | succ fuel ih =>
      intro p s s' hrun x
      cases p with
      | none =>
          obtain rfl := Except.ok.inj hrun
          exact Int.le_refl _
      | some r =>
          by_cases hr : (s.readers r).inQueue = true
          · have hset : ((s.setIndex r (adjusted s adjustment queueReadIndex
                (s.readers r).index)).readers x).index ≤ (s.readers x).index := by
              by_cases hx : x = r
              · subst hx
                simpa using adjusted_le s hneg queueReadIndex _
              · simp [hx]
            rw [adjustLoop_succ _ _ _ hr] at hrun
            split at hrun
            · obtain rfl := Except.ok.inj hrun
              exact hset
            · exact Int.le_trans (ih _ hrun x) hset
          · simp [adjustLoop, deref, hr] at hrun
            cases hrun

/-- A loop that ends has visited the readers that `operator<<` prints, and has changed
none exactly if it takes none of them for moved. -/
theorem adjustLoop_eq_iff {adjustment : Int} (hneg : adjustment ≤ 0) (fuel : Nat) :
    ∀ (p : Option ρ) {s s' : SyncQueue ρ E},
      adjustLoop adjustment s.readIndex fuel p s = .ok s' →
        ∃ l, printLoop fuel p s = .ok l ∧
          (s' = s ↔ adjustment = 0 ∨ ∀ r ∈ l, ¬ s.Renumbers r) := by
  induction fuel with
  | zero =>
      intro p s s' hrun
      cases hrun
  | succ fuel ih =>
      intro p s s' hrun
      cases p with
      | none =>
          obtain rfl := Except.ok.inj hrun
          exact ⟨[], rfl, by simp⟩
      | some r =>
          by_cases hr : (s.readers r).inQueue = true
          · obtain ⟨s₁, hs₁⟩ : ∃ s₁ : SyncQueue ρ E, s₁ = s.setIndex r
                (adjusted s adjustment s.readIndex (s.readers r).index) := ⟨_, rfl⟩
            have hread : s.readIndex = s₁.readIndex := by rw [hs₁]; rfl
            have hindex : (s₁.readers r).index =
                adjusted s adjustment s.readIndex (s.readers r).index := by
              simp [hs₁]
            rw [adjustLoop_succ _ _ _ hr, ← hs₁] at hrun
            rw [printLoop, deref_some hr, ok_bind]
            obtain ⟨l, hprint, hle, heq⟩ : ∃ l : List ρ,
                (if (s.readers r).next = s.back then (.ok [r] : Except Fault (List ρ)) else do
                  return r :: (← printLoop fuel (s.readers r).next s)) = .ok (r :: l) ∧
                (s'.readers r).index ≤ (s₁.readers r).index ∧
                (s₁ = s → (s' = s ↔ adjustment = 0 ∨ ∀ x ∈ l, ¬ s.Renumbers x)) := by
              split at hrun
              · rename_i hback
                obtain rfl := Except.ok.inj hrun
                exact ⟨[], if_pos hback, Int.le_refl _, fun h => by simp [h]⟩
              · rename_i hback
                obtain ⟨l, hprint, heq⟩ := ih _ (hread ▸ hrun)
                rw [hs₁, printLoop_setIndex] at hprint
                refine ⟨l, by rw [if_neg hback, hprint]; rfl,
                  adjustLoop_le hneg _ _ hrun r, fun h => ?_⟩
                rwa [h] at heq
            refine ⟨r :: l, hprint, ?_⟩
            have hmoves := adjusted_lt_iff s hneg r
            rw [← hindex] at hmoves
            by_cases hmove : adjustment ≠ 0 ∧ s.Renumbers r
            · -- an index that is lowered here is not raised again
              have hlt := hmoves.mpr hmove
              constructor
              · rintro rfl
                omega
              · intro h
                exact absurd hmove.2 (h.resolve_left hmove.1 r (by simp))
            · have hsame : s₁ = s := by
                have hle := adjusted_le s hneg s.readIndex (s.readers r).index
                have hnlt := (not_congr hmoves).mpr hmove
                rw [hs₁, show adjusted s adjustment s.readIndex (s.readers r).index =
                  (s.readers r).index by omega]
                simp [SyncQueue.setIndex]
              have hhead : adjustment = 0 ∨ ¬ s.Renumbers r := by
                by_cases hzero : adjustment = 0
                · exact .inl hzero
                · exact .inr fun h => hmove ⟨hzero, h⟩
              rw [heq hsame]
              constructor
              · rintro (hzero | hrest)
                · exact .inl hzero
                · refine hhead.imp_right fun hr x hx => ?_
                  rcases List.mem_cons.mp hx with rfl | hx
                  · exact hr
                  · exact hrest x hx
              · exact fun h => h.imp_right fun hall x hx => hall x (List.mem_cons_of_mem r hx)
          · simp [adjustLoop, deref, hr] at hrun
            cases hrun

end SyncReaderList

/-- In every reachable state, a resize to a size that is not larger visits the readers
that `operator<<` prints, and leaves the queue as it is exactly if the size is the
present one, or none of them has a written slot above `writeIndex` or an unwritten one
below it.  From two slots on it ends, and the readers it visits are the registered ones. -/
theorem refused_resize_iff {queueSize : Nat} (dataEntries : ProcessingQueueDataArray E)
    {s : SyncQueue ρ E} (h : (SyncQueue.system ρ queueSize dataEntries).Reachable s)
    {newSize : Nat} (hsize : newSize ≤ s.currentSize) :
    (∀ fuel s', s.resize fuel newSize = .ok s' → ∃ l, SyncReaderList.print fuel s = .ok l ∧
      (s' = s ↔ newSize = s.currentSize ∨ ∀ r ∈ l, ¬ s.Renumbers r)) ∧
    (2 ≤ queueSize → ∃ l, (∀ r, (s.readers r).inQueue = true ↔ r ∈ l) ∧
      ∃ F s', ∀ fuel ≥ F, s.resize fuel newSize = .ok s' ∧
        SyncReaderList.print fuel s = .ok l) := by
  constructor
  · intro fuel s' hrun
    rw [s.resize_refused hsize] at hrun
    cases hloop : SyncQueue.indexLoop s.currentSize s.currentSize s.readIndex s.writeIndex fuel
      s.readIndex with
    | error f =>
        rw [hloop] at hrun
        cases hrun
    | ok u =>
        rw [hloop, ok_bind, SyncReaderList.adjust] at hrun
        have hzero : (newSize : Int) - s.currentSize = 0 ↔ newSize = s.currentSize := by omega
        rw [← hzero]
        exact SyncReaderList.adjustLoop_eq_iff (by omega) fuel s.back hrun
  · intro hn
    obtain ⟨l, hl⟩ := SyncQueue.listed_of_reachable hn h
    refine ⟨l, hl.chained.inQueue, s.currentSize + l.length + 2,
      SyncReaderList.adjustAll s ((newSize : Int) - s.currentSize) s.readIndex l,
      fun fuel hfuel => ⟨?_, SyncReaderList.print_spec hl.chained (by omega)⟩⟩
    rw [s.resize_refused hsize,
      SyncQueue.indexLoop_ok hl.write_nonneg hl.write_lt _ (by omega), ok_bind]
    exact SyncReaderList.adjust_spec hl.chained _ _ (by omega)

/-- A reader waits above `writeIndex`, and stays where it is. -/
theorem refused_resize_of_waiter :
    ∃ s : SyncQueue (Fin 2) Nat, s.writeIndex = 1 ∧ (s.readers 1).index = 2 ∧
      s.slotIsEmpty 1 = true ∧
      (∀ fuel s', s.resize fuel 2 = .ok s' → ∃ l, SyncReaderList.print fuel s = .ok l ∧
        (s' = s ↔ 2 = s.currentSize ∨ ∀ r ∈ l, ¬ s.Renumbers r)) ∧
      (2 ≤ 4 → ∃ l, (∀ r, (s.readers r).inQueue = true ↔ r ∈ l) ∧
        ∃ F s', ∀ fuel ≥ F, s.resize fuel 2 = .ok s' ∧ SyncReaderList.print fuel s = .ok l) := by
  have hcalls : ((SyncQueue.new (Fin 2) 4 (.uniform Nat 8)).callAll 9
      [.startAccess 0, .add 10, .remove 0, .remove 0, .startAccess 1]).map
      (fun s => (s.writeIndex, (s.readers 1).index, s.slotIsEmpty 1, decide (2 ≤ s.currentSize))) =
      some (1, 2, true, true) := by decide
  obtain ⟨s, hcalls, hs⟩ := Option.map_eq_some_iff.mp hcalls
  simp only [Prod.mk.injEq, decide_eq_true_eq] at hs
  obtain ⟨hwrite, hindex, hempty, hsize⟩ := hs
  exact ⟨s, hwrite, hindex, hempty, refused_resize_iff _
    (SyncQueue.reachable_callAll 9 _ (.start rfl) hcalls) hsize⟩

/-- A ring of four slots has wrapped, and its reader works from the slot above
`writeIndex`: a resize to two slots, which is refused, takes it to slot 0. -/
theorem refused_resize_moves_reader :
    ∃ s s' : SyncQueue (Fin 1) Nat,
      (SyncQueue.system (Fin 1) 4 (.uniform Nat 8)).Reachable s ∧ 2 ≤ s.currentSize ∧
      (∃ F, ∀ fuel ≥ F, s.resize fuel 2 = .ok s') ∧ (s.readers 0).index = 2 ∧
      (s'.readers 0).index = 0 ∧ s' ≠ s := by
  have hcalls : ((SyncQueue.new (Fin 1) 4 (.uniform Nat 8)).callAll 9
      [.startAccess 0, .add 10, .add 11, .add 12, .remove 0, .remove 0, .remove 0, .add 13,
        .add 14]).map
      (fun s => (decide (2 ≤ s.currentSize), (s.readers 0).index,
        (s.resize 9 2).toOption.map fun s' => (s'.readers 0).index)) =
      some (true, 2, some 0) := by decide
  obtain ⟨s, hcalls, hs⟩ := Option.map_eq_some_iff.mp hcalls
  simp only [Prod.mk.injEq, decide_eq_true_eq] at hs
  obtain ⟨hsize, hindex, hmoved⟩ := hs
  obtain ⟨s', hrun, hmoved⟩ := Option.map_eq_some_iff.mp hmoved
  have hrun : s.resize 9 2 = .ok s' := by
    cases hr : s.resize 9 2 with
    | error f => simp [hr, Except.toOption] at hrun
    | ok u =>
        rw [hr] at hrun
        exact congrArg _ (Option.some.inj hrun)
  refine ⟨s, s', SyncQueue.reachable_callAll 9 _ (.start rfl) hcalls, hsize,
    ⟨9, SyncQueue.resize_mono hrun⟩, hindex, hmoved, ?_⟩
  intro heq
  rw [heq, hindex] at hmoved
  exact absurd hmoved (by decide)

end HPQueue
