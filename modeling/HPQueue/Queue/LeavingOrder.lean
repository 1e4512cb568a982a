import HPQueue.Queue.BackReader
import HPQueue.Queue.TicketOrder

/-!
# The order in which readers leave

When a processor stops, all of its readers leave, in any order, and the last to leave
decides `readIndex`: the slot after its own if it is done with that, and otherwise
what `readIndex` was.  The readers of the next start go on from there, so it should be
the slot of the oldest entry that was not returned.

It is, in every order, when there is one reader only, or none of them has read its
slot, or no entry is left.  In any other state there is an order for which it is not:
a reader that was not the furthest behind leaves last, or the front, done with its
slot, takes over the slot of a waiting reader.

## Main results

* `Departing` — readers that leave one after the other.
* `Departing.leaveAll` — where the last reader leaves `readIndex`.
* `leaving_order_iff` — the states in which the order does not matter.
* `leaving_order_matters` — two readers that have read an entry each.
-/

namespace HPQueue

open Library.Ring Library.Transition

variable {ρ E : Type} [DecidableEq ρ]

namespace SyncQueue

/-- The readers leave, in the given order. -/
def endAccessAll (s : SyncQueue ρ E) : List ρ → Except Fault (SyncQueue ρ E)
  | [] => .ok s
  | r :: rs => do
      let s ← s.endAccess r
      s.endAccessAll rs

omit [DecidableEq ρ] in
/-- One reader only, none that is done with its slot, or no entries. -/
def LeavesInAnyOrder (s : SyncQueue ρ E) : Prop :=
  s.readIndex = s.writeIndex ∨
    (∀ r, (s.readers r).inQueue = true → (s.readers r).isDone = false) ∨
    ∀ r x, (s.readers r).inQueue = true → (s.readers x).inQueue = true → r = x

end SyncQueue

/-- The slot of the oldest accepted entry that was not returned, or `writeIndex`. -/
def Ledger.oldestUnreturned (t : Ledger ρ E) : Int :=
  match ((List.range t.accepted.length).find? fun k => decide (k ∉ t.numbers)).bind
    fun k => t.accepted[k]? with
  | some (_, i) => i
  | none => t.queue.writeIndex

namespace Tickets

variable {T : Tickets ρ E} {n : Nat}

/-- The least number that was not taken, if there is an entry with it. -/
def oldest (T : Tickets ρ E) : Nat :=
  ((List.range T.written).find? fun k => decide (k ∉ T.returned)).getD T.written

omit [DecidableEq ρ] in
theorem oldest_le_written : T.oldest ≤ T.written := by
  unfold oldest
  cases hfind : (List.range T.written).find? fun k => decide (k ∉ T.returned) with
  | none => exact Nat.le_refl _
  | some k => exact Nat.le_of_lt (List.mem_range.mp (List.mem_of_find?_eq_some hfind))

omit [DecidableEq ρ] in
theorem returned_of_lt_oldest {k : Nat} (hk : k < T.oldest) : k ∈ T.returned := by
  by_contra hnot
  have hkw : k < T.written := Nat.lt_of_lt_of_le hk oldest_le_written
  unfold oldest at hk
  cases hfind : (List.range T.written).find? fun k => decide (k ∉ T.returned) with
  | none =>
      have hall := List.find?_eq_none.mp hfind k (List.mem_range.mpr hkw)
      exact hall (by simpa using hnot)
  | some j =>
      rw [hfind, Option.getD_some] at hk
      have hall := (List.find?_range_eq_some.mp hfind).2.2 k hk
      simp [hnot] at hall

omit [DecidableEq ρ] in
theorem oldest_le {k : Nat} (hk : k ∉ T.returned) : T.oldest ≤ k := by
  by_contra hlt
  exact hk (returned_of_lt_oldest (Nat.lt_of_not_le hlt))

omit [DecidableEq ρ] in
theorem le_oldest {k : Nat} (hall : ∀ j < k, j ∈ T.returned) (hkw : k ≤ T.written) :
    k ≤ T.oldest := by
  by_contra hlt
  have hold := hall T.oldest (Nat.lt_of_not_le hlt)
  unfold oldest at hold hlt
  cases hfind : (List.range T.written).find? fun k => decide (k ∉ T.returned) with
  | none =>
      rw [hfind, Option.getD_none] at hlt
      exact hlt hkw
  | some j =>
      rw [hfind, Option.getD_some] at hold
      have hj := List.find?_some hfind
      simp [hold] at hj

end Tickets

/-- Readers that leave a queue in which `written` is the number of `writeIndex`. -/
structure Departing (n : Nat) (s : SyncQueue ρ E) (l : List ρ) (t : ρ → Nat) (base written : Nat) :
    Prop extends Ordered n s l t base where
  writeIndex : s.writeIndex = slot n 0 written
  base_le : base ≤ written
  within : written < base + n

namespace Departing

variable {n base written : Nat} {s s' : SyncQueue ρ E} {l l' : List ρ} {t t' : ρ → Nat} {r : ρ}

omit [DecidableEq ρ] in
theorem slotIsEmpty_eq (h : Departing n s l t base written) (hr : r ∈ l) :
    s.slotIsEmpty r = decide (written ≤ t r) := by
  have hlow := h.base_le
  have hhigh := h.within
  rw [SyncQueue.slotIsEmpty]
  simp only [ReaderWriterQueue.adjustIndexForComparison, adjustIndexForComparison_eq_unwrap,
    h.size, h.writeIndex, h.readIndex, h.index r hr,
    unwrap_slot_le_iff 0 (show 0 < n by omega) hlow hhigh (h.low r hr) (h.lap r hr)]

omit [DecidableEq ρ] in
theorem of_relisted (h : Departing n s l t base written) (hordered : Ordered n s' l' t' base)
    {index : ρ → Int} {isDone : ρ → Bool} (hs' : Relisted s s' l' index isDone s.readIndex) :
    Departing n s' l' t' base written where
  toOrdered := hordered
  writeIndex := by
    rw [hs'.ring]
    exact h.writeIndex
  base_le := h.base_le
  within := h.within

/-- The last reader leaves. -/
theorem leaveLast (h : Departing n s [r] t base written) :
    ∃ s', s.endAccess r = .ok s' ∧ s'.readIndex =
      slot n 0 (if (s.readers r).isDone = true ∧ t r < written then t r + 1 else base) := by
  obtain ⟨s', hrun, hs'⟩ := SyncReaderList.remove_lone h.chained
  refine ⟨s', hrun, ?_⟩
  have hnext : s.nextIndex (s.readers r).index = slot n 0 (t r + 1) := by
    rw [h.index r (by simp), ReaderWriterQueue.nextIndex, HPQueue.nextIndex, h.size, slot_succ]
  have hempty := h.slotIsEmpty_eq (r := r) (by simp)
  rw [hs'.ring]
  show (if (s.readers r).isDone && !s.slotIsEmpty r then s.nextIndex (s.readers r).index
    else s.readIndex) = _
  rw [hempty, hnext, h.readIndex]
  by_cases hdone : (s.readers r).isDone = true ∧ t r < written
  · rw [if_pos hdone, if_pos (by simp [hdone])]
  · rw [if_neg hdone, if_neg (by simpa using hdone)]

/-- The front leaves, and the reader before it becomes the front. -/
theorem leaveFront {m : List ρ} {g : ρ} (h : Departing n s (m ++ [g, r]) t base written) :
    ∃ s', s.endAccess r = .ok s' ∧ Departing n s' (m ++ [g]) t base written ∧
      ∀ x, x ≠ r → (s'.readers x).isDone = (s.readers x).isDone := by
  obtain ⟨s', hrun, hs'⟩ := SyncReaderList.remove_front h.chained
  exact ⟨s', hrun, h.of_relisted (h.toOrdered.drop (by simp) hs') hs',
    fun x hx => by rw [hs'.isDone, if_neg hx]⟩

/-- A waiting reader behind the front leaves. -/
theorem leaveWaiting {p m : List ρ} {f : ρ}
    (h : Departing n s (p ++ r :: (m ++ [f])) t base written)
    (hdone : (s.readers r).isDone = false) :
    ∃ s', s.endAccess r = .ok s' ∧
      Departing n s' (p ++ f :: m) (Function.update t f (t r)) base written ∧
      ∀ x, x ≠ r → (s'.readers x).isDone = (s.readers x).isDone := by
  obtain ⟨s', hrun, hs'⟩ := h.chained.endAccess_waiting hdone
  exact ⟨s', hrun, h.of_relisted (h.toOrdered.takesOver hs') hs',
    fun x hx => by rw [hs'.isDone, if_neg hx]⟩

/-- Any reader but the last leaves: numbers may only fall, and stay if it is done. -/
theorem leave (h : Departing n s l t base written) (hr : r ∈ l) (hl : l ≠ [r]) :
    ∃ s' l' t', s.endAccess r = .ok s' ∧ Departing n s' l' t' base written ∧
      (∀ x, x ∈ l' ↔ x ∈ l ∧ x ≠ r) ∧
      (∀ x, x ≠ r → (s'.readers x).isDone = (s.readers x).isDone) ∧
      (∀ x, t' x ≤ t x) ∧ ((s.readers r).isDone = true → t' = t) := by
  rcases Tickets.position hr with rfl | ⟨m, g, rfl⟩ | ⟨p, m, f, rfl⟩
  · exact absurd rfl hl
  · obtain ⟨s', hrun, hs', hflags⟩ := h.leaveFront
    refine ⟨s', m ++ [g], t, hrun, hs', ?_, hflags, fun _ => Nat.le_refl _, fun _ => rfl⟩
    have hsplit : m ++ [g, r] = (m ++ [g]) ++ [r] := by simp
    have hnd := h.chained.nodup
    rw [hsplit] at hnd ⊢
    intro x
    constructor
    · intro hx
      exact ⟨List.mem_append_left _ hx, (List.nodup_append.mp hnd).2.2 x hx r (by simp)⟩
    · rintro ⟨hx, hxr⟩
      exact (List.mem_append.mp hx).resolve_right (by simpa using hxr)
  · obtain ⟨hfr, hf, hr'⟩ := ne_of_position h.chained.nodup
    cases hdone : (s.readers r).isDone with
    | true =>
        obtain ⟨c, q, hq⟩ : ∃ c q, m ++ [f] = c :: q := by cases m <;> simp
        have hmem : ∀ x, x ∈ p ++ c :: q ↔ x ∈ p ++ r :: (m ++ [f]) ∧ x ≠ r := by
          intro x
          rw [← hq]
          simp only [List.mem_append, List.mem_cons, List.not_mem_nil, or_false] at hr' ⊢
          by_cases hx : x = r
          · subst hx
            tauto
          · tauto
        rw [hq] at h
        obtain ⟨s', hrun, hs'⟩ := SyncReaderList.remove_done h.chained hdone
        exact ⟨s', p ++ c :: q, t, hrun, h.of_relisted (h.toOrdered.drop (by simp) hs') hs', hmem,
          fun x hx => by rw [hs'.isDone, if_neg hx], fun _ => Nat.le_refl _, fun _ => rfl⟩
    | false =>
        obtain ⟨s', hrun, hs', hflags⟩ := h.leaveWaiting hdone
        refine ⟨s', p ++ f :: m, _, hrun, hs', ?_, hflags, ?_, fun hd => by cases hd⟩
        · intro x
          simp only [List.mem_append, List.mem_cons, List.not_mem_nil, or_false] at hr' ⊢
          by_cases hx : x = r
          · subst hx
            tauto
          · tauto
        · intro x
          by_cases hx : x = f
          · rw [hx, Function.update_self]
            exact h.le_front (by simp [List.getLast?_cons]) (by simp)
          · rw [Function.update_of_ne hx]

/-- All readers leave, `x` last: `readIndex` stays, or goes to the slot after the one
that `x` is left with. -/
theorem leaveAll (o : List ρ) :
    ∀ {s : SyncQueue ρ E} {l : List ρ} {t : ρ → Nat} {x : ρ}, Departing n s l t base written →
      (o ++ [x]).Nodup → (∀ y, y ∈ o ++ [x] ↔ y ∈ l) →
      ∃ s' k, s.endAccessAll (o ++ [x]) = .ok s' ∧
        s'.readIndex =
          slot n 0 (if (s.readers x).isDone = true ∧ k < written then k + 1 else base) ∧
        base ≤ k ∧ k ≤ t x ∧ ((∀ y ∈ o, (s.readers y).isDone = true) → k = t x) := by
  induction o with
  | nil =>
      intro s l t x h hnd hmem
      have hl : l = [x] := by
        refine (List.perm_singleton.mp ((List.perm_ext_iff_of_nodup h.chained.nodup
          (List.nodup_singleton x)).mpr fun y => ?_))
        exact (hmem y).symm
      subst hl
      obtain ⟨s', hrun, hread⟩ := h.leaveLast
      refine ⟨s', t x, ?_, hread, h.low x (by simp), Nat.le_refl _, fun _ => rfl⟩
      rw [List.nil_append, SyncQueue.endAccessAll, hrun]
      rfl
  | cons r o ih =>
      intro s l t x h hnd hmem
      have hxr : x ≠ r := by
        rintro rfl
        simp at hnd
      have hl : l ≠ [r] := by
        rintro rfl
        exact hxr (by simpa using (hmem x).mp (by simp))
      obtain ⟨s₁, l₁, t₁, hrun, h₁, hmem₁, hflags, hle, hkeep⟩ :=
        h.leave ((hmem r).mp (by simp)) hl
      have hro : r ∉ o ++ [x] := (List.nodup_cons.mp hnd).1
      obtain ⟨s', k, hrest, hread, hlow, hhigh, hdone⟩ := ih h₁ (List.nodup_cons.mp hnd).2
        (fun y => by
          rw [hmem₁, ← hmem, List.cons_append, List.mem_cons]
          by_cases hy : y = r
          · subst hy
            simp [hro]
          · simp [hy])
      refine ⟨s', k, ?_, by rw [hread, hflags x hxr], hlow, Nat.le_trans hhigh (hle x), ?_⟩
      · rw [List.cons_append, SyncQueue.endAccessAll, hrun]
        exact hrest
      · intro hall
        rw [← hkeep (hall r (by simp))]
        refine hdone fun y hy => ?_
        have hyr : y ≠ r := fun he => hro (by simp [← he, hy])
        rw [hflags y hyr]
        exact hall y (by simp [hy])

/-- The readers in front of `x` leave, from the front down. -/
theorem leaveFronts (q : List ρ) :
    ∀ {s : SyncQueue ρ E} {p : List ρ} {x : ρ}, Departing n s (p ++ x :: q) t base written →
      ∃ s', (∀ rest, s.endAccessAll (q.reverse ++ rest) = s'.endAccessAll rest) ∧
        Departing n s' (p ++ [x]) t base written ∧
        ∀ y ∈ p ++ [x], (s'.readers y).isDone = (s.readers y).isDone := by
  induction q using List.reverseRecOn with
  | nil =>
      intro s p x h
      exact ⟨s, fun _ => rfl, h, fun _ _ => rfl⟩
  | append_singleton q f ih =>
      intro s p x h
      obtain ⟨m, g, hsplit⟩ : ∃ m g, p ++ x :: q = m ++ [g] := by
        rcases List.eq_nil_or_concat' q with rfl | ⟨q, g, rfl⟩
        · exact ⟨p, x, rfl⟩
        · exact ⟨p ++ x :: q, g, by simp⟩
      have hl : p ++ x :: (q ++ [f]) = m ++ [g, f] := by
        rw [← List.cons_append, ← List.append_assoc, hsplit]
        simp
      have hnd := h.chained.nodup
      rw [hl] at h
      obtain ⟨s₁, hrun, h₁, hflags⟩ := h.leaveFront
      rw [← hsplit] at h₁
      obtain ⟨s', hrest, hs', hkeep⟩ := ih h₁
      refine ⟨s', fun rest => ?_, hs', fun y hy => ?_⟩
      · rw [List.reverse_append, List.reverse_singleton, List.singleton_append, List.cons_append,
          SyncQueue.endAccessAll, hrun]
        exact hrest rest
      · have hyf : y ≠ f := by
          rintro rfl
          rw [← List.cons_append, ← List.append_assoc] at hnd
          refine (List.nodup_append.mp hnd).2.2 y ?_ y (by simp) rfl
          simp only [List.mem_append, List.mem_cons, List.not_mem_nil, or_false] at hy ⊢
          tauto
        rw [hkeep y hy, hflags y hyf]

end Departing

namespace Ledger.Dispensed

variable {n : Nat} {t : Ledger ρ E} {T : Tickets ρ E}

omit [DecidableEq ρ] in
theorem oldestUnreturned_eq [DecidableEq ρ] (h : Dispensed n t T) :
    t.oldestUnreturned = slot n 0 T.oldest := by
  have hF := h.follows
  unfold Ledger.oldestUnreturned Tickets.oldest
  rw [hF.length, hF.numbers]
  cases hfind : (List.range T.written).find? fun k => decide (k ∉ T.returned) with
  | none =>
      rw [Option.bind_none, Option.getD_none]
      exact hF.represents.writeIndex
  | some k =>
      have hk := List.mem_range.mp (List.mem_of_find?_eq_some hfind)
      have hget : T.accepted[k]? = some T.accepted[k] := List.getElem?_eq_getElem hk
      rw [Option.bind_some, hF.getElem?_accepted, hget, Option.getD_some]
      rfl

theorem departing (h : Dispensed n t T) :
    Departing n t.queue T.line T.ticket T.base T.written where
  chained := h.follows.represents.chained
  size := h.follows.represents.size
  readIndex := h.follows.represents.readIndex
  index := h.follows.represents.index
  sorted := h.follows.sound.sorted
  low _ hr := h.follows.sound.base_le hr
  lap := h.follows.sound.lap
  writeIndex := h.follows.represents.writeIndex
  base_le := h.follows.sound.base_le_written
  within := h.follows.sound.within

theorem base_le_oldest (h : Dispensed n t T) : T.base ≤ T.oldest :=
  Tickets.le_oldest (fun _ hk => h.follows.sound.returned_of_lt_base hk)
    h.follows.sound.base_le_written

/-- While the back waits, nothing after the base was returned. -/
theorem oldest_eq_base (h : Dispensed n t T) (hfresh : T.base ∉ T.returned) : T.oldest = T.base :=
  Nat.le_antisymm (Tickets.oldest_le hfresh) h.base_le_oldest

theorem oldest_lt (h : Dispensed n t T) : T.oldest < T.base + n :=
  Nat.lt_of_le_of_lt Tickets.oldest_le_written h.follows.sound.within

/-- In a state in which the order does not matter, `readIndex` ends at the oldest entry. -/
theorem leavesInAnyOrder (h : Dispensed n t T) (hany : t.queue.LeavesInAnyOrder) (order : List ρ)
    (hnd : order.Nodup) (hmem : ∀ r, r ∈ order ↔ (t.queue.readers r).inQueue = true) :
    ∃ s', t.queue.endAccessAll order = .ok s' ∧ s'.readIndex = t.oldestUnreturned := by
  have hT := h.follows.sound
  have hR := h.follows.represents
  have hmem : ∀ r, r ∈ order ↔ r ∈ T.line := fun r => (hmem r).trans hR.mem_iff
  rw [h.oldestUnreturned_eq]
  rcases List.eq_nil_or_concat' order with rfl | ⟨o, x, rfl⟩
  · have hl : T.line = [] := List.eq_nil_iff_forall_not_mem.mpr fun r hr => by
      simpa using (hmem r).mpr hr
    refine ⟨t.queue, rfl, ?_⟩
    rw [hR.readIndex, h.oldest_eq_base]
    intro hret
    have hlt := (hT.taken _ hret).2
    rw [Tickets.next_nil hl] at hlt
    omega
  · have hx : x ∈ T.line := (hmem x).mp (by simp)
    obtain ⟨s', k, hrun, hread, hlow, -, hdone⟩ := h.departing.leaveAll o hnd hmem
    refine ⟨s', hrun, ?_⟩
    obtain ⟨b, hb⟩ : ∃ b, T.line.head? = some b :=
      Option.ne_none_iff_exists'.mp (by simpa using List.ne_nil_of_mem hx)
    have hbl := List.mem_of_mem_head? hb
    have htb := h.tight.back_eq hb
    -- a back that waits was not returned its entry
    have hfresh : (t.queue.readers b).isDone = false → T.base ∉ T.returned := by
      intro hbd
      rw [← htb]
      exact hT.fresh b hbl (by rw [← hR.isDone b hbl, hbd])
    rcases hany with hempty | hwait | hlone
    · have hwithin := hT.within
      have hle := hT.base_le_written
      have hbw : T.base = T.written := by
        rw [hR.readIndex, hR.writeIndex, slot_inj 0 (show 0 < n by omega) (Nat.le_refl T.base)
          (show T.base < T.base + n by omega) hle hwithin] at hempty
        exact hempty
      have hle := Tickets.oldest_le_written (T := T)
      have hge := h.base_le_oldest
      rw [hread, if_neg (by omega), show T.oldest = T.base by omega]
    · have hxd := hwait x (hR.mem_iff.mpr hx)
      rw [hread, if_neg (by simp [hxd]),
        h.oldest_eq_base (hfresh (hwait b (hR.mem_iff.mpr hbl)))]
    · obtain rfl : x = b := hlone x b (hR.mem_iff.mpr hx) (hR.mem_iff.mpr hbl)
      cases hxd : (t.queue.readers x).isDone with
      | false =>
          rw [hread, if_neg (by simp [hxd]), h.oldest_eq_base (hfresh hxd)]
      | true =>
          have ho : o = [] := by
            refine List.eq_nil_iff_forall_not_mem.mpr fun y hy => ?_
            have hyl := (hmem y).mp (by simp [hy])
            obtain rfl := hlone y x (hR.mem_iff.mpr hyl) (hR.mem_iff.mpr hx)
            exact (List.nodup_append.mp hnd).2.2 y hy y (by simp) rfl
          have hk : k = T.base := by
            rw [hdone (by simp [ho]), htb]
          have hl : T.line = [x] := by
            subst ho
            exact List.perm_singleton.mp ((List.perm_ext_iff_of_nodup hT.nodup
              (List.nodup_singleton x)).mpr fun y => (hmem y).symm)
          have hnext : T.next = T.base + 1 := by
            rw [Tickets.next_eq (f := x) (by simp [hl]), htb]
          have hret : T.base ∈ T.returned := by
            rcases hT.held T.base (by omega) with hret | ⟨y, hy, -, hyd⟩
            · exact hret
            · obtain rfl : y = x := by simpa [hl] using hy
              rw [← hR.isDone y hy, hxd] at hyd
              cases hyd
          have hbw := (hT.taken _ hret).1
          have hold : T.oldest = T.base + 1 := by
            refine Nat.le_antisymm (Tickets.oldest_le fun hnot => ?_)
              (Tickets.le_oldest (fun j hj => ?_) hbw)
            · have hlt := (hT.taken _ hnot).2
              omega
            · rcases Nat.lt_or_eq_of_le (Nat.le_of_lt_succ hj) with hlt | rfl
              · exact hT.returned_of_lt_base hlt
              · exact hret
          rw [hk] at hread
          rw [hread, if_pos ⟨hxd, hbw⟩, hold]

/-- If every order ends at the oldest entry, each reader that leaves last does. -/
theorem last_eq_oldest (h : Dispensed n t T)
    (hall : ∀ order : List ρ, order.Nodup →
      (∀ r, r ∈ order ↔ (t.queue.readers r).inQueue = true) →
      ∃ s', t.queue.endAccessAll order = .ok s' ∧ s'.readIndex = t.oldestUnreturned)
    {x : ρ} (hx : x ∈ T.line) :
    ∃ k, (if (t.queue.readers x).isDone = true ∧ k < T.written then k + 1 else T.base) = T.oldest ∧
      T.base ≤ k ∧ k ≤ T.ticket x ∧
      ((∀ y ∈ T.line, (t.queue.readers y).isDone = true) → k = T.ticket x) := by
  have hT := h.follows.sound
  have hnd : (T.line.erase x ++ [x]).Nodup :=
    (List.perm_append_singleton x _).nodup_iff.mpr
      (List.nodup_cons.mpr ⟨hT.nodup.not_mem_erase, hT.nodup.erase x⟩)
  have hmem : ∀ r, r ∈ T.line.erase x ++ [x] ↔ r ∈ T.line := by
    intro r
    rw [List.mem_append, List.mem_singleton, hT.mem_erase_iff]
    by_cases hr : r = x
    · subst hr
      simp [hx]
    · simp [hr]
  obtain ⟨s', k, hrun, hread, hlow, hhigh, hdone⟩ := h.departing.leaveAll _ hnd hmem
  obtain ⟨s'', hrun', hread'⟩ := hall _ hnd fun r =>
    (hmem r).trans h.follows.represents.mem_iff.symm
  obtain rfl := Except.ok.inj (hrun.symm.trans hrun')
  have hwithin := hT.within
  have hbw := hT.base_le_written
  have hold := h.oldest_lt
  rw [hread, h.oldestUnreturned_eq, slot_inj 0 (r := T.base) (by omega) (by split <;> omega)
    (by split <;> omega) h.base_le_oldest hold] at hread'
  exact ⟨k, hread', hlow, hhigh, fun hd => hdone fun y hy => hd y (List.mem_of_mem_erase hy)⟩

/-- If every reader is done, all but the front leave last with an entry behind them
that was returned. -/
theorem not_all_done (h : Dispensed n t T)
    (hall : ∀ order : List ρ, order.Nodup →
      (∀ r, r ∈ order ↔ (t.queue.readers r).inQueue = true) →
      ∃ s', t.queue.endAccessAll order = .ok s' ∧ s'.readIndex = t.oldestUnreturned)
    (hdone : ∀ y ∈ T.line, (t.queue.readers y).isDone = true)
    {r₁ r₂ : ρ} (hr₁ : r₁ ∈ T.line) (hr₂ : r₂ ∈ T.line) (hne : r₁ ≠ r₂) : False := by
  have hT := h.follows.sound
  have hR := h.follows.represents
  obtain ⟨f, hf⟩ : ∃ f, T.line.getLast? = some f :=
    Option.ne_none_iff_exists'.mp (by simpa using List.ne_nil_of_mem hr₁)
  have hfl := List.mem_of_getLast? hf
  -- a reader other than the front
  obtain ⟨y, hy, hyf⟩ : ∃ y ∈ T.line, y ≠ f := by
    by_cases h₁ : r₁ = f
    · exact ⟨r₂, hr₂, fun h₂ => hne (h₁.trans h₂.symm)⟩
    · exact ⟨r₁, hr₁, h₁⟩
  have hlt := h.frontal f hf y hy hyf
  have hreturned : ∀ k < T.next, k ∈ T.returned := by
    intro k hk
    rcases hT.held k hk with hret | ⟨w, hw, -, hwd⟩
    · exact hret
    · rw [← hR.isDone w hw, hdone w hw] at hwd
      cases hwd
  have hnext := Tickets.next_eq hf
  have hwritten := (hT.taken (T.ticket f) (hreturned _ (by omega))).1
  have hold : T.next ≤ T.oldest := Tickets.le_oldest hreturned (by omega)
  obtain ⟨k, hk, -, -, hkt⟩ := h.last_eq_oldest hall hy
  rw [hkt hdone, if_pos ⟨hdone y hy, by omega⟩] at hk
  omega

/-- If a reader waits at the base and another is done, there is an order in which the
done one is left with the base and takes it for read. -/
theorem exists_order_past_base (h : Dispensed n t T) (hfresh : T.base ∉ T.returned)
    (hbw : T.base < T.written) {x : ρ} (hx : x ∈ T.line)
    (hxd : (t.queue.readers x).isDone = true) (hwritten : T.written ≤ T.ticket x) :
    ∃ order s', order.Nodup ∧ (∀ r : ρ, r ∈ order ↔ r ∈ T.line) ∧
      t.queue.endAccessAll order = .ok s' ∧ s'.readIndex = slot n 0 (T.base + 1) := by
  have hT := h.follows.sound
  have hR := h.follows.represents
  have hxnext := hT.lt_next hx
  obtain ⟨w, hw, hwt, hwd⟩ := (hT.held T.base (by omega)).resolve_left hfresh
  have hwd : (t.queue.readers w).isDone = false := by rw [hR.isDone w hw, hwd]
  have hwx : w ≠ x := by
    rintro rfl
    omega
  obtain ⟨p, q, hsplit⟩ := List.append_of_mem hx
  have hsorted := hT.sorted
  rw [hsplit] at hw hsorted
  -- the readers are in order of their numbers, so `w` is behind `x`
  have hwp : w ∈ p := by
    rcases List.mem_append.mp hw with hwp | hwq
    · exact hwp
    · have hle := (List.pairwise_cons.mp (List.pairwise_append.mp hsorted).2.1).1 w
        ((List.mem_cons.mp hwq).resolve_left hwx)
      omega
  obtain ⟨p₁, p₂, rfl⟩ := List.append_of_mem hwp
  have hnd := hT.nodup
  rw [hsplit] at hnd
  have hdeparting := h.departing
  rw [hsplit] at hdeparting
  obtain ⟨s₁, hfronts, h₁, hflags₁⟩ := hdeparting.leaveFronts
  rw [List.append_assoc, List.cons_append] at h₁
  obtain ⟨s₂, hrun₂, h₂, hflags₂⟩ := h₁.leaveWaiting (by
    rw [hflags₁ w (by simp)]
    exact hwd)
  have hnd₂ : (p₁ ++ p₂ ++ [x]).Nodup := by
    have hsub : (p₁ ++ p₂ ++ [x]).Sublist (p₁ ++ w :: p₂ ++ x :: q) := by
      apply List.Sublist.append
      · exact List.Sublist.append (List.Sublist.refl _) (List.sublist_cons_self _ _)
      · simp
    exact hnd.sublist hsub
  obtain ⟨s', k, hrun', hread, hlow, hhigh, -⟩ := h₂.leaveAll (p₁ ++ p₂) hnd₂ (fun y => by
    simp only [List.mem_append, List.mem_cons, List.not_mem_nil, or_false]
    tauto)
  rw [Function.update_self, hwt] at hhigh
  obtain rfl : k = T.base := by omega
  have hxd₂ : (s₂.readers x).isDone = true := by
    rw [hflags₂ x hwx.symm, hflags₁ x (by simp)]
    exact hxd
  rw [if_pos ⟨hxd₂, hbw⟩] at hread
  refine ⟨q.reverse ++ w :: (p₁ ++ p₂ ++ [x]), s', ?_, ?_, ?_, hread⟩
  · refine (List.Perm.nodup_iff ?_).mp hnd
    calc p₁ ++ w :: p₂ ++ x :: q
        = p₁ ++ w :: (p₂ ++ [x]) ++ q := by simp
      List.Perm _ (q ++ (p₁ ++ w :: (p₂ ++ [x]))) := List.perm_append_comm
      List.Perm _ (q.reverse ++ w :: (p₁ ++ (p₂ ++ [x]))) :=
        (List.reverse_perm q).symm.append List.perm_middle
      _ = q.reverse ++ w :: (p₁ ++ p₂ ++ [x]) := by simp
  · intro r
    rw [hsplit]
    simp only [List.mem_append, List.mem_cons, List.mem_reverse, List.not_mem_nil, or_false]
    tauto
  · rw [hfronts, SyncQueue.endAccessAll, hrun₂]
    exact hrun'

/-- In any other state there is an order that ends elsewhere. -/
theorem exists_bad_order (h : Dispensed n t T) (hany : ¬ t.queue.LeavesInAnyOrder) :
    ¬ ∀ order : List ρ, order.Nodup →
      (∀ r, r ∈ order ↔ (t.queue.readers r).inQueue = true) →
      ∃ s', t.queue.endAccessAll order = .ok s' ∧ s'.readIndex = t.oldestUnreturned := by
  intro hall
  have hT := h.follows.sound
  have hR := h.follows.represents
  have hlast := fun {x} (hx : x ∈ T.line) => h.last_eq_oldest hall hx
  simp only [SyncQueue.LeavesInAnyOrder, not_or, not_forall, Bool.not_eq_false] at hany
  obtain ⟨hempty, ⟨x, hx, hxd⟩, r₁, r₂, hr₁, hr₂, hne⟩ := hany
  have hx := hR.mem_iff.mp hx
  have hbw : T.base < T.written := by
    refine Nat.lt_of_le_of_ne hT.base_le_written fun heq => hempty ?_
    rw [hR.readIndex, hR.writeIndex, heq]
  by_cases hret : T.base ∈ T.returned
  · have hold : T.base < T.oldest := by
      refine Tickets.le_oldest (fun j hj => ?_) hbw
      rcases Nat.lt_or_eq_of_le (Nat.le_of_lt_succ hj) with hlt | rfl
      · exact hT.returned_of_lt_base hlt
      · exact hret
    by_cases hwait : ∃ y ∈ T.line, (t.queue.readers y).isDone = false
    · -- a waiting reader that leaves last moves nothing
      obtain ⟨y, hy, hyd⟩ := hwait
      obtain ⟨k, hk, -⟩ := hlast hy
      rw [if_neg (by simp [hyd])] at hk
      omega
    · simp only [not_exists, not_and, Bool.not_eq_false] at hwait
      exact h.not_all_done hall hwait (hR.mem_iff.mp hr₁) (hR.mem_iff.mp hr₂) hne
  · have hold := h.oldest_eq_base hret
    by_cases hxw : T.ticket x < T.written
    · obtain ⟨k, hk, hlow, hhigh, -⟩ := hlast hx
      rw [if_pos ⟨hxd, by omega⟩] at hk
      omega
    · obtain ⟨order, s', hnd, hmem, hrun, hread⟩ :=
        h.exists_order_past_base hret hbw hx hxd (by omega)
      obtain ⟨s'', hrun', hread'⟩ := hall order hnd fun r => (hmem r).trans hR.mem_iff.symm
      obtain rfl := Except.ok.inj (hrun.symm.trans hrun')
      have hwithin := hT.within
      rw [hread, h.oldestUnreturned_eq, hold, slot_inj 0 (show 0 < n by omega)
        (show T.base ≤ T.base + 1 by omega) (by omega) (Nat.le_refl T.base)
        (show T.base < T.base + n by omega)] at hread'
      omega

end Ledger.Dispensed

/-- After adds, joins and removes, all orders in which the registered readers leave end
with `readIndex` at the oldest entry that was not returned, exactly in these states. -/
theorem leaving_order_iff {n : Nat} (hn : 2 ≤ n) (dataEntries : ProcessingQueueDataArray E)
    {t : Ledger ρ E}
    (h : ((Ledger.system ρ n dataEntries).restrict Ledger.Stays).Reachable t) :
    (∀ order : List ρ, order.Nodup →
      (∀ r, r ∈ order ↔ (t.queue.readers r).inQueue = true) →
      ∃ s', t.queue.endAccessAll order = .ok s' ∧ s'.readIndex = t.oldestUnreturned) ↔
    t.queue.LeavesInAnyOrder := by
  obtain ⟨T, hT⟩ := Ledger.dispensed hn h
  constructor
  · intro hall
    by_contra hany
    exact hT.exists_bad_order hany hall
  · exact hT.leavesInAnyOrder

/-- Two readers that wait, and one entry that neither has read. -/
theorem leaving_order_iff_of_waiting :
    ∃ t : Ledger (Fin 2) Nat, t.queue.readIndex = 1 ∧ t.queue.writeIndex = 2 ∧
      t.queue.LeavesInAnyOrder ∧
      ((∀ order : List (Fin 2), order.Nodup →
        (∀ r, r ∈ order ↔ (t.queue.readers r).inQueue = true) →
        ∃ s', t.queue.endAccessAll order = .ok s' ∧ s'.readIndex = t.oldestUnreturned) ↔
      t.queue.LeavesInAnyOrder) := by
  have hcalls : ((Ledger.new (Fin 2) 4 (.uniform Nat 8)).callAll Ledger.Stays
      [.startAccess 0, .startAccess 1, .add 10, .remove 0, .remove 0, .add 11]).map
      (fun t => (t.queue.readIndex, t.queue.writeIndex, (t.queue.readers 0).isDone,
        (t.queue.readers 1).isDone)) = some (1, 2, false, false) := by decide
  obtain ⟨t, hcalls, ht⟩ := Option.map_eq_some_iff.mp hcalls
  simp only [Prod.mk.injEq] at ht
  refine ⟨t, ht.1, ht.2.1, .inr (.inl fun r _ => ?_), leaving_order_iff (by decide) _
    (Ledger.reachable_callAll _ (.start rfl) hcalls)⟩
  rcases Fin.exists_fin_two.mp ⟨r, rfl⟩ with rfl | rfl
  · exact ht.2.2.1
  · exact ht.2.2.2

/-- Two readers that have read an entry each: if the front leaves last, `readIndex` goes
past both entries, and if the back leaves last, only past its own. -/
theorem leaving_order_matters :
    ∃ t : Ledger (Fin 2) Nat,
      ((Ledger.system (Fin 2) 4 (.uniform Nat 8)).restrict Ledger.Stays).Reachable t ∧
      t.oldestUnreturned = 2 ∧
      (t.queue.endAccessAll [0, 1]).map (·.readIndex) = .ok 2 ∧
      (t.queue.endAccessAll [1, 0]).map (·.readIndex) = .ok 1 := by
  have hcalls : ((Ledger.new (Fin 2) 4 (.uniform Nat 8)).callAll Ledger.Stays
      [.startAccess 0, .startAccess 1, .add 10, .add 11, .remove 0, .remove 1]).map
      (fun t => (t.oldestUnreturned, ((t.queue.endAccessAll [0, 1]).map (·.readIndex)).toOption,
        ((t.queue.endAccessAll [1, 0]).map (·.readIndex)).toOption)) =
      some (2, some 2, some 1) := by decide
  obtain ⟨t, hcalls, ht⟩ := Option.map_eq_some_iff.mp hcalls
  simp only [Prod.mk.injEq] at ht
  have hok : ∀ {x : Except Fault Int} {i : Int}, x.toOption = some i → x = .ok i := by
    intro x i hx
    cases x with
    | error f => cases hx
    | ok j => exact congrArg _ (Option.some.inj hx)
  exact ⟨t, Ledger.reachable_callAll _ (.start rfl) hcalls, ht.1, hok ht.2.1, hok ht.2.2⟩

end HPQueue
