import HPQueue.Queue.ListShape

/-!
# The reader at the back

The full test and the emptiness test take `readIndex` for the index of the reader
furthest behind, and count from it.  Every operation of the list that moves the back
makes `readIndex` follow, but one: a reader that is done with its slot and leaves from
the back does not, where `moveOut`, which unlinks a reader in the same way, does.

`Numbered` says that the readers stand in order: their indices are the slots of
numbers that rise along the list, by less than a lap, from that of `readIndex`.

## Main results

* `Numbered` and its lemmas — each operation of the list but that one keeps the order.
* `tracksBack_iff` — in a run without such a departure `readIndex` tracks the back, and
  it goes on to exactly if the next call is no such departure.
* `back_leaves_done` — two readers, the first of which leaves.
-/

namespace HPQueue

open Library.Ring Library.Transition

variable {ρ E : Type} [DecidableEq ρ]

omit [DecidableEq ρ] in
/-- A list in order stays so when an element is put in its place. -/
theorem pairwise_insert {R : ρ → ρ → Prop} {p q : List ρ} {r : ρ} (h : (p ++ q).Pairwise R)
    (hp : ∀ x ∈ p, R x r) (hq : ∀ x ∈ q, R r x) : (p ++ r :: q).Pairwise R := by
  have hpq := List.pairwise_append.mp h
  refine List.pairwise_append.mpr ⟨hpq.1, List.pairwise_cons.mpr ⟨hq, hpq.2.1⟩, ?_⟩
  intro x hx y hy
  rcases List.mem_cons.mp hy with rfl | hy
  · exact hp x hx
  · exact hpq.2.2 x hx y hy

omit [DecidableEq ρ] in
/-- The places in a list of a reader behind the front, and of the front. -/
theorem ne_of_position {p m : List ρ} {r f : ρ} (hnd : (p ++ r :: (m ++ [f])).Nodup) :
    f ≠ r ∧ f ∉ p ++ m ∧ r ∉ p ++ m := by
  have hr := (List.nodup_cons.mp (List.nodup_middle.mp hnd)).1
  have hf : f ∉ p ++ r :: m := by
    rw [← List.cons_append, ← List.append_assoc] at hnd
    exact fun hm => (List.nodup_append.mp hnd).2.2 f hm f (by simp) rfl
  simp only [List.mem_append, List.mem_cons, not_or] at hr hf ⊢
  tauto

/-- A waiting reader behind the front leaves, and the front is put in its place. -/
theorem Chained.endAccess_waiting {s : SyncQueue ρ E} {p m : List ρ} {r f : ρ}
    (h : Chained s (p ++ r :: (m ++ [f]))) (hdone : (s.readers r).isDone = false) :
    ∃ s', s.endAccess r = .ok s' ∧ Relisted s s' (p ++ f :: m)
      (fun x => if x = f then (s.readers r).index else (s.readers x).index)
      (fun x => if x = r then false else (s.readers x).isDone) s.readIndex := by
  rcases List.eq_nil_or_concat' m with rfl | ⟨m, g, rfl⟩
  · exact SyncReaderList.remove_waiting_below h hdone
  · rw [List.append_assoc] at h
    exact SyncReaderList.remove_waiting_far h hdone

/-- The readers of `l` stand at the slots of the numbers `t`, in order, none of them
before the number `base` of `readIndex` or a lap after it. -/
structure Ordered (n : Nat) (s : SyncQueue ρ E) (l : List ρ) (t : ρ → Nat) (base : Nat) : Prop where
  chained : Chained s l
  size : s.currentSize = n
  readIndex : s.readIndex = slot n 0 base
  index : ∀ r ∈ l, (s.readers r).index = slot n 0 (t r)
  sorted : l.Pairwise fun a b => t a ≤ t b
  low : ∀ r ∈ l, base ≤ t r
  lap : ∀ r ∈ l, t r < base + n

/-- The number of `readIndex` is that of the back. -/
structure Numbered (n : Nat) (s : SyncQueue ρ E) (l : List ρ) (t : ρ → Nat) (base : Nat) : Prop
    extends Ordered n s l t base where
  head : ∀ b ∈ l.head?, t b = base

namespace Ordered

variable {n base base' k : Nat} {s s' : SyncQueue ρ E} {l p q : List ρ} {t : ρ → Nat} {r : ρ}
  {i readIndex : Int} {isDone : ρ → Bool}

omit [DecidableEq ρ] in
theorem le_front (h : Ordered n s l t base) {f : ρ} (hf : l.getLast? = some f) (hr : r ∈ l) :
    t r ≤ t f := by
  obtain ⟨m, rfl⟩ := List.getLast?_eq_some_iff.mp hf
  rcases List.mem_append.mp hr with hr | hr
  · exact (List.pairwise_append.mp h.sorted).2.2 r hr f (by simp)
  · rw [List.mem_singleton.mp hr]

omit [DecidableEq ρ] in
/-- The flags of the readers, and what is written, say nothing about the order. -/
theorem congr (h : Ordered n s l t base) (hsize : s'.currentSize = s.currentSize)
    (hread : s'.readIndex = s.readIndex) (hfront : s'.front = s.front) (hback : s'.back = s.back)
    (hreaders : ∀ x, s'.readers x = { s.readers x with
      isEmpty := (s'.readers x).isEmpty, isDone := (s'.readers x).isDone }) :
    Ordered n s' l t base where
  chained := h.chained.congr hback hfront (fun x => by rw [hreaders x])
    (fun x => by rw [hreaders x]) (fun x => by rw [hreaders x])
  size := hsize.trans h.size
  readIndex := hread.trans h.readIndex
  index x hx := by
    rw [hreaders x]
    exact h.index x hx
  sorted := h.sorted
  low := h.low
  lap := h.lap

/-- A reader is put into the list, between the readers with lower and with higher numbers. -/
theorem put (h : Ordered n s l t base) (hsub : (p ++ q).Sublist l) (hr : r ∉ p ++ q)
    (hs' : Relisted s s' (p ++ r :: q) (fun x => if x = r then i else (s.readers x).index)
      isDone readIndex)
    (hi : i = slot n 0 k) (hlow : ∀ x ∈ p, t x ≤ k) (hhigh : ∀ x ∈ q, k ≤ t x)
    (hread : readIndex = slot n 0 base') (hbase : base ≤ base') (hk : base' ≤ k)
    (hbelow : ∀ x ∈ p ++ q, base' ≤ t x) (hlap : k < base' + n) :
    Ordered n s' (p ++ r :: q) (Function.update t r k) base' := by
  have hne : ∀ x ∈ p ++ q, x ≠ r := fun x hx he => hr (he ▸ hx)
  have hkeep : ∀ x ∈ p ++ q, Function.update t r k x = t x :=
    fun x hx => Function.update_of_ne (hne x hx) _ _
  have hmem : ∀ x ∈ p ++ r :: q, x ≠ r → x ∈ p ++ q := by
    intro x hx hxr
    simpa [hxr] using hx
  refine
    { chained := hs'.chained
      size := by rw [hs'.ring]; exact h.size
      readIndex := by rw [hs'.ring]; exact hread
      index := ?_
      sorted := ?_
      low := ?_
      lap := ?_ }
  · intro x hx
    rw [hs'.index]
    by_cases hxr : x = r
    · rw [if_pos hxr, hi, hxr, Function.update_self]
    · rw [if_neg hxr, hkeep x (hmem x hx hxr)]
      exact h.index x (hsub.subset (hmem x hx hxr))
  · apply pairwise_insert
    · refine (h.sorted.sublist hsub).imp_of_mem fun {x y} hx hy hxy => ?_
      rwa [hkeep x hx, hkeep y hy]
    · intro x hx
      rw [Function.update_self, hkeep x (by simp [hx])]
      exact hlow x hx
    · intro x hx
      rw [Function.update_self, hkeep x (by simp [hx])]
      exact hhigh x hx
  · intro x hx
    by_cases hxr : x = r
    · rwa [hxr, Function.update_self]
    · rw [hkeep x (hmem x hx hxr)]
      exact hbelow x (hmem x hx hxr)
  · intro x hx
    by_cases hxr : x = r
    · rwa [hxr, Function.update_self]
    · have hlapx := h.lap x (hsub.subset (hmem x hx hxr))
      rw [hkeep x (hmem x hx hxr)]
      omega

omit [DecidableEq ρ] in
/-- A reader is taken out of the list. -/
theorem drop (h : Ordered n s l t base) (hsub : p.Sublist l)
    (hs' : Relisted s s' p (fun x => (s.readers x).index) isDone s.readIndex) :
    Ordered n s' p t base where
  chained := hs'.chained
  size := by rw [hs'.ring]; exact h.size
  readIndex := by rw [hs'.ring]; exact h.readIndex
  index x hx := by
    rw [hs'.index]
    exact h.index x (hsub.subset hx)
  sorted := h.sorted.sublist hsub
  low x hx := h.low x (hsub.subset hx)
  lap x hx := h.lap x (hsub.subset hx)

/-- A waiting reader leaves: the front takes its place and its slot. -/
theorem takesOver {m : List ρ} {f : ρ} (h : Ordered n s (p ++ r :: (m ++ [f])) t base)
    (hs' : Relisted s s' (p ++ f :: m)
      (fun x => if x = f then (s.readers r).index else (s.readers x).index) isDone s.readIndex) :
    Ordered n s' (p ++ f :: m) (Function.update t f (t r)) base := by
  have hsub : (p ++ m).Sublist (p ++ r :: (m ++ [f])) :=
    (List.Sublist.refl p).append ((List.sublist_append_left m [f]).cons r)
  have hsorted := List.pairwise_append.mp h.sorted
  have hr : r ∈ p ++ r :: (m ++ [f]) := by simp
  apply h.put hsub (ne_of_position h.chained.nodup).2.1 hs' (h.index r hr)
    (fun x hx => hsorted.2.2 x hx r (by simp)) ?_ h.readIndex (Nat.le_refl _) (h.low r hr)
    (fun x hx => h.low x (hsub.subset hx)) (h.lap r hr)
  exact fun x hx => (List.pairwise_cons.mp hsorted.2.1).1 x (by simp [hx])

end Ordered

namespace Numbered

variable {n base base' k : Nat} {s s' : SyncQueue ρ E} {l p q : List ρ} {t : ρ → Nat} {r : ρ}
  {i readIndex : Int} {isDone : ρ → Bool}

omit [DecidableEq ρ] in
/-- The spanning check compares the number after the front's with the back's. -/
theorem spans_iff (h : Numbered n s l t base) (hn : 2 ≤ n) {f b : ρ} (hf : l.getLast? = some f)
    (hb : l.head? = some b) :
    s.nextIndex (s.readers f).index = (s.readers b).index ↔ t f + 1 = base + n := by
  have hfl := List.mem_of_getLast? hf
  have hlow := h.low f hfl
  have hlap := h.lap f hfl
  rw [h.index f hfl, h.index b (List.mem_of_mem_head? hb), h.head b hb, ReaderWriterQueue.nextIndex,
    HPQueue.nextIndex, h.size, slot_succ_eq_iff 0 (show 0 < n by omega) hlow hlap (Nat.le_refl _)
      (show base < base + n by omega)]
  omega

omit [DecidableEq ρ] in
theorem nextIndex_front (h : Numbered n s l t base) {f : ρ} (hf : l.getLast? = some f) :
    s.nextIndex (s.readers f).index = slot n 0 (t f + 1) := by
  rw [h.index f (List.mem_of_getLast? hf), ReaderWriterQueue.nextIndex, HPQueue.nextIndex, h.size,
    slot_succ]

omit [DecidableEq ρ] in
theorem congr (h : Numbered n s l t base) (hsize : s'.currentSize = s.currentSize)
    (hread : s'.readIndex = s.readIndex) (hfront : s'.front = s.front) (hback : s'.back = s.back)
    (hreaders : ∀ x, s'.readers x = { s.readers x with
      isEmpty := (s'.readers x).isEmpty, isDone := (s'.readers x).isDone }) :
    Numbered n s' l t base :=
  ⟨h.toOrdered.congr hsize hread hfront hback hreaders, h.head⟩

/-- A reader is put into the list, and the base is the number at its back. -/
theorem put (h : Numbered n s l t base) (hsub : (p ++ q).Sublist l) (hr : r ∉ p ++ q)
    (hs' : Relisted s s' (p ++ r :: q) (fun x => if x = r then i else (s.readers x).index)
      isDone readIndex)
    (hi : i = slot n 0 k) (hlow : ∀ x ∈ p, t x ≤ k) (hhigh : ∀ x ∈ q, k ≤ t x)
    (hread : readIndex = slot n 0 base') (hbase : base ≤ base') (hlap : k < base' + n)
    (hhead : ∀ b ∈ (p ++ r :: q).head?, Function.update t r k b = base') :
    Numbered n s' (p ++ r :: q) (Function.update t r k) base' := by
  have hsorted := List.pairwise_append.mp (h.sorted.sublist hsub)
  have hne : ∀ x ∈ p ++ q, x ≠ r := fun x hx he => hr (he ▸ hx)
  refine ⟨h.toOrdered.put hsub hr hs' hi hlow hhigh hread hbase ?_ ?_ hlap, hhead⟩
  all_goals
    rcases p with _ | ⟨c, p⟩
  · have hk := hhead r rfl
    rw [Function.update_self] at hk
    omega
  · have hc := hhead c rfl
    rw [Function.update_of_ne (hne c (by simp))] at hc
    rw [← hc]
    exact hlow c (by simp)
  · have hk := hhead r rfl
    rw [Function.update_self] at hk
    intro x hx
    rw [← hk]
    exact hhigh x hx
  · have hc := hhead c rfl
    rw [Function.update_of_ne (hne c (by simp))] at hc
    intro x hx
    rw [← hc]
    rcases List.mem_cons.mp hx with rfl | hx
    · exact Nat.le_refl _
    · exact (List.pairwise_cons.mp (h.sorted.sublist hsub)).1 x hx

omit [DecidableEq ρ] in
/-- A reader is taken out of the list. -/
theorem drop (h : Numbered n s l t base) (hsub : p.Sublist l)
    (hs' : Relisted s s' p (fun x => (s.readers x).index) isDone s.readIndex)
    (hhead : ∀ b ∈ p.head?, t b = base) : Numbered n s' p t base :=
  ⟨h.toOrdered.drop hsub hs', hhead⟩

/-- The number at the back, when a reader is put into the list. -/
theorem head_put (h : Numbered n s l t base) (hl : p <+: l) (hr : r ∉ p) (hk : p = [] → k = base) :
    ∀ b ∈ (p ++ r :: q).head?, Function.update t r k b = base := by
  intro b hb
  obtain ⟨m, rfl⟩ := hl
  rcases p with _ | ⟨c, p⟩
  · obtain rfl : r = b := by simpa using hb
    rw [Function.update_self, hk rfl]
  · obtain rfl : c = b := by simpa using hb
    have hcr : c ≠ r := fun he => hr (by simp [he])
    rw [Function.update_of_ne hcr]
    exact h.head c (by simp)

/-- The first reader joins. -/
theorem alone (h : Numbered n s [] t base) (hn : 2 ≤ n)
    (hs' : Relisted s s' [r] (fun x => if x = r then s.readIndex else (s.readers x).index) isDone
      s.readIndex) : Numbered n s' [r] (Function.update t r base) base := by
  apply h.put (p := []) (q := []) (List.Sublist.refl _) (by simp) hs' h.readIndex (by simp)
    (by simp) h.readIndex (Nat.le_refl _) (by omega)
  simp

/-- A reader joins at the front. -/
theorem joinFront (h : Numbered n s l t base) (hn : 2 ≤ n) {f b : ρ} (hf : l.getLast? = some f)
    (hb : l.head? = some b) (hr : r ∉ l)
    (hne : s.nextIndex (s.readers f).index ≠ (s.readers b).index)
    (hs' : Relisted s s' (l ++ [r])
      (fun x => if x = r then s.nextIndex (s.readers f).index else (s.readers x).index) isDone
      s.readIndex) : Numbered n s' (l ++ [r]) (Function.update t r (t f + 1)) base := by
  have hspans := (not_congr (h.spans_iff hn hf hb)).mp hne
  have hlap := h.lap f (List.mem_of_getLast? hf)
  apply h.put (p := l) (q := []) (by simp) (by simpa using hr) hs' (h.nextIndex_front hf)
    (fun x hx => Nat.le_succ_of_le (h.le_front hf hx)) (by simp) h.readIndex (Nat.le_refl _)
    (by omega)
  apply h.head_put (List.prefix_refl _) hr
  rintro rfl
  simp at hb

/-- A reader joins a list that spans the ring. -/
theorem joinShared {m : List ρ} {g f : ρ} (h : Numbered n s (m ++ [g, f]) t base)
    (hr : r ∉ m ++ [g, f])
    (hs' : Relisted s s' (m ++ [g, r, f])
      (fun x => if x = r then (s.readers g).index else (s.readers x).index) isDone s.readIndex) :
    Numbered n s' (m ++ [g, r, f]) (Function.update t r (t g)) base := by
  have hsplit : m ++ [g, r, f] = (m ++ [g]) ++ r :: [f] := by simp
  have hlow : ∀ x ∈ m ++ [g], t x ≤ t g := by
    intro x hx
    rcases List.mem_append.mp hx with hx | hx
    · exact (List.pairwise_append.mp h.sorted).2.2 x hx g (by simp)
    · rw [List.mem_singleton.mp hx]
  rw [hsplit] at hs' ⊢
  apply h.put (p := m ++ [g]) (q := [f]) (by simp) (by simpa using hr) hs' (h.index g (by simp))
    hlow ?_ h.readIndex (Nat.le_refl _) (h.lap g (by simp))
  · apply h.head_put ⟨[f], by simp⟩ (fun hm => hr (by simp at hm ⊢; tauto))
    simp
  · intro x hx
    rw [List.mem_singleton.mp hx]
    exact h.le_front (by simp) (by simp)

/-- A reader moves to the front. -/
theorem advance (h : Numbered n s l t base) (hn : 2 ≤ n) {f b c : ρ} (hrl : r ∈ l)
    (hf : l.getLast? = some f) (hb : l.head? = some b)
    (hne : s.nextIndex (s.readers f).index ≠ (s.readers b).index)
    (hc : (l.erase r ++ [r]).head? = some c)
    (hs' : Relisted s s' (l.erase r ++ [r])
      (fun x => if x = r then s.nextIndex (s.readers f).index else (s.readers x).index) isDone
      (if b = r then if c = r then s.nextIndex (s.readers f).index else (s.readers c).index
        else s.readIndex)) :
    Numbered n s' (l.erase r ++ [r]) (Function.update t r (t f + 1))
      (Function.update t r (t f + 1) c) := by
  have hspans := (not_congr (h.spans_iff hn hf hb)).mp hne
  have hlap := h.lap f (List.mem_of_getLast? hf)
  have hmem : ∀ x ∈ l.erase r, x ≠ r ∧ x ∈ l := fun x hx => h.chained.nodup.mem_erase_iff.mp hx
  have hcl : c ≠ r → c ∈ l := by
    intro hcr
    have hcm := List.mem_of_mem_head? hc
    simp only [List.mem_append, List.mem_singleton] at hcm
    exact (hmem c (hcm.resolve_right hcr)).2
  have hfr : base ≤ t f := h.low f (List.mem_of_getLast? hf)
  have hbase : base ≤ Function.update t r (t f + 1) c := by
    by_cases hcr : c = r
    · rw [hcr, Function.update_self]
      omega
    · rw [Function.update_of_ne hcr]
      exact h.low _ (hcl hcr)
  apply h.put (p := l.erase r) (q := []) (by simpa using List.erase_sublist)
    (by simpa using h.chained.nodup.not_mem_erase) hs' (h.nextIndex_front hf) ?_ (by simp) ?_ hbase
    (by omega)
  · intro d hd
    rw [hc] at hd
    rw [Option.mem_some.mp hd]
  · exact fun x hx => Nat.le_succ_of_le (h.le_front hf (hmem x hx).2)
  · by_cases hcr : c = r
    · -- the mover is alone
      have hbr : b = r := by
        by_contra hbr
        have hbl : (l.erase r ++ [r]).head? = some b := by
          cases l with
          | nil => simp at hb
          | cons d m =>
              obtain rfl : d = b := by simpa using hb
              rw [List.erase_cons_tail (by simpa using hbr)]
              rfl
        rw [hc] at hbl
        exact hbr ((Option.some.inj hbl).symm.trans hcr)
      rw [if_pos hbr, if_pos hcr, hcr, Function.update_self]
      exact h.nextIndex_front hf
    · rw [Function.update_of_ne hcr, if_neg hcr]
      split
      · exact h.index c (hcl hcr)
      · rename_i hbr
        have hcb : c = b := by
          cases l with
          | nil => simp at hb
          | cons d m =>
              obtain rfl : d = b := by simpa using hb
              rw [List.erase_cons_tail (by simpa using hbr)] at hc
              simpa using hc.symm
        rw [hcb, h.head b hb]
        exact h.readIndex

/-- The back moves before the front. -/
theorem squeezed {m : List ρ} {g f b : ρ} (h : Numbered n s (r :: (m ++ [g, f])) t base)
    (hb : (m ++ [g]).head? = some b)
    (hs' : Relisted s s' (m ++ [g, r, f])
      (fun x => if x = r then (s.readers g).index else (s.readers x).index) isDone
      (s.readers b).index) :
    Numbered n s' (m ++ [g, r, f]) (Function.update t r (t g)) (t b) := by
  have hnd := List.nodup_cons.mp h.chained.nodup
  have hsplit : m ++ [g, r, f] = (m ++ [g]) ++ r :: [f] := by simp
  have hbm := List.mem_of_mem_head? hb
  have hbl : b ∈ r :: (m ++ [g, f]) := by
    simp only [List.mem_append, List.mem_cons] at hbm ⊢
    tauto
  have hbr : b ≠ r := by
    rintro rfl
    refine hnd.1 ?_
    simp only [List.mem_append, List.mem_cons] at hbm ⊢
    tauto
  have hlow : ∀ x ∈ m ++ [g], t x ≤ t g := by
    intro x hx
    have hsorted := (List.pairwise_cons.mp h.sorted).2
    rcases List.mem_append.mp hx with hx | hx
    · exact (List.pairwise_append.mp hsorted).2.2 x hx g (by simp)
    · rw [List.mem_singleton.mp hx]
  rw [hsplit] at hs' ⊢
  have hbase := h.low b hbl
  have hlap := h.lap g (by simp)
  apply h.put (p := m ++ [g]) (q := [f]) ?_ ?_ hs' (h.index g (by simp)) hlow ?_
    (h.index b hbl) hbase (by omega)
  · intro d hd
    have hd' : ((m ++ [g]) ++ r :: [f]).head? = some b := by
      cases m <;> simpa using hb
    rw [hd'] at hd
    rw [← Option.mem_some.mp hd, Function.update_of_ne hbr]
  · simp
  · simpa using hnd.1
  · intro x hx
    rw [List.mem_singleton.mp hx]
    exact h.le_front (by simp [List.getLast?_cons]) (by simp)

/-- A waiting reader leaves: the front takes its place and its slot. -/
theorem takesOver {m : List ρ} {f : ρ} (h : Numbered n s (p ++ r :: (m ++ [f])) t base)
    (hs' : Relisted s s' (p ++ f :: m)
      (fun x => if x = f then (s.readers r).index else (s.readers x).index) isDone s.readIndex) :
    Numbered n s' (p ++ f :: m) (Function.update t f (t r)) base := by
  have hf := (ne_of_position h.chained.nodup).2.1
  refine ⟨h.toOrdered.takesOver hs',
    h.head_put ⟨r :: (m ++ [f]), rfl⟩ (fun hm => hf (by simp [hm])) ?_⟩
  rintro rfl
  exact h.head r rfl

omit [DecidableEq ρ] in
/-- Without readers, any number may stand for `readIndex`. -/
theorem nil (hchained : Chained s []) (hsize : s.currentSize = n)
    (hread : s.readIndex = slot n 0 base) (t : ρ → Nat) : Numbered n s [] t base where
  chained := hchained
  size := hsize
  readIndex := hread
  index := by simp
  sorted := List.Pairwise.nil
  low := by simp
  lap := by simp
  head := by simp

end Numbered

namespace SyncQueue

omit [DecidableEq ρ] in
/-- How far the slot of `r` is from that of `readIndex`, round the ring. -/
def distance (s : SyncQueue ρ E) (r : ρ) : Int :=
  ((s.readers r).index - s.readIndex) % s.currentSize

/-- `readIndex` is the index of the back, and the readers met from there stand in order,
less than a lap ahead: the comparisons of the queue measure their distance. -/
def TracksBack (s : SyncQueue ρ E) : Prop :=
  ∀ b, s.back = some b → s.readIndex = (s.readers b).index ∧
    ∃ l, (∀ fuel > l.length, SyncReaderList.print fuel s = .ok l) ∧
      (l.Pairwise fun r x => s.distance r ≤ s.distance x) ∧
      ∀ r ∈ l, s.distance r < s.currentSize ∧
        s.adjustIndexForComparison (s.readers r).index = s.readIndex + s.distance r

/-- The call is no departure, from the back of the list, of a reader that is done with
its slot while the next reader has another. -/
def KeepsBack (s : SyncQueue ρ E) : QueueCall ρ E → Prop
  | .endAccess r => s.back = some r → s.front ≠ some r → (s.readers r).isDone = true →
      ∀ c ∈ (s.readers r).next, (s.readers c).index = (s.readers r).index
  | _ => True

end SyncQueue

instance (s : SyncQueue ρ E) : (c : QueueCall ρ E) → Decidable (s.KeepsBack c)
  | .endAccess r => inferInstanceAs (Decidable (s.back = some r → s.front ≠ some r →
      (s.readers r).isDone = true →
        ∀ c ∈ (s.readers r).next, (s.readers c).index = (s.readers r).index))
  | .add _ | .startAccess _ | .remove _ | .resize _ => .isTrue trivial

/-- The calls of a queue that keeps its size. -/
def QueueCall.KeepsSize : QueueCall ρ E → Prop
  | .resize _ => False
  | _ => True

instance : (c : QueueCall ρ E) → Decidable c.KeepsSize
  | .resize _ => .isFalse id
  | .add _ | .startAccess _ | .remove _ | .endAccess _ => .isTrue trivial

namespace Numbered

variable {n base : Nat} {s s' : SyncQueue ρ E} {l : List ρ} {t : ρ → Nat} {r : ρ}

omit [DecidableEq ρ] in
theorem distance_eq (h : Numbered n s l t base) (hr : r ∈ l) :
    s.distance r = (t r : Int) - base := by
  rw [SyncQueue.distance, h.index r hr, h.readIndex, h.size,
    slot_sub_emod 0 (h.low r hr) (h.lap r hr)]

theorem tracksBack (h : Numbered n s l t base) : s.TracksBack := by
  intro b hb
  have hbl : l.head? = some b := h.chained.back.symm.trans hb
  refine ⟨?_, l, fun fuel hfuel => SyncReaderList.print_spec h.chained hfuel, ?_, ?_⟩
  · rw [h.readIndex, h.index b (List.mem_of_mem_head? hbl), h.head b hbl]
  · refine h.sorted.imp_of_mem fun {x y} hx hy hxy => ?_
    rw [h.distance_eq hx, h.distance_eq hy]
    omega
  · intro r hr
    have hlow := h.low r hr
    have hlap := h.lap r hr
    rw [h.distance_eq hr, h.size, ReaderWriterQueue.adjustIndexForComparison,
      adjustIndexForComparison_eq_unwrap, h.index r hr, h.readIndex, h.size,
      unwrap_slot 0 (show 0 < n by omega) hlow hlap]
    omega

theorem startAccess (h : Numbered n s l t base) (hn : 2 ≤ n) (hr : (s.readers r).inQueue = false)
    (hrun : s.startAccess r = .ok s') : ∃ l' t' base', Numbered n s' l' t' base' := by
  have hrl : r ∉ l := fun hm => by simp [h.chained.registered hm] at hr
  rcases l.eq_nil_or_concat' with rfl | ⟨m, f, hl⟩
  · obtain ⟨u, hrun', hu⟩ := SyncReaderList.add_first h.chained hr
    obtain rfl := Except.ok.inj (hrun.symm.trans hrun')
    exact ⟨_, _, _, h.alone hn hu⟩
  · have hf : l.getLast? = some f := by simp [hl]
    obtain ⟨b, hb⟩ : ∃ b, l.head? = some b := Option.ne_none_iff_exists'.mp (by simp [hl])
    by_cases heq : s.nextIndex (s.readers f).index = (s.readers b).index
    · obtain ⟨m, g, rfl⟩ := Chained.split_of_spans (by rw [h.size]; exact hn) hf hb heq
      obtain ⟨u, hrun', hu⟩ := SyncReaderList.add_spanned h.chained hr hb heq
      obtain rfl := Except.ok.inj (hrun.symm.trans hrun')
      exact ⟨_, _, _, h.joinShared hrl hu⟩
    · obtain ⟨u, hrun', hu⟩ := SyncReaderList.add_front h.chained hr hf hb heq
      obtain rfl := Except.ok.inj (hrun.symm.trans hrun')
      exact ⟨_, _, _, h.joinFront hn hf hb hrl heq hu⟩

theorem moveToFront (h : Numbered n s l t base) (hn : 2 ≤ n) (hr : r ∈ l) :
    ∃ s' moved l' t' base', SyncReaderList.moveToFront s r = .ok (s', moved) ∧
      Numbered n s' l' t' base' := by
  obtain ⟨f, hf⟩ : ∃ f, l.getLast? = some f :=
    Option.ne_none_iff_exists'.mp (by simpa using List.ne_nil_of_mem hr)
  obtain ⟨b, hb⟩ : ∃ b, l.head? = some b :=
    Option.ne_none_iff_exists'.mp (by simpa using List.ne_nil_of_mem hr)
  by_cases heq : s.nextIndex (s.readers f).index = (s.readers b).index
  · by_cases hrb : r = b
    · subst hrb
      obtain ⟨m, g, rfl⟩ := Chained.split_of_spans (by rw [h.size]; exact hn) hf hb heq
      rcases m with _ | ⟨c, m⟩
      · obtain rfl : g = r := by simpa using hb
        have hread : (s.readers g).index = s.readIndex := by
          rw [h.index g hr, h.head g hb, h.readIndex]
        exact ⟨_, _, _, _, _, SyncReaderList.moveToFront_pair h.chained heq,
          h.congr rfl hread rfl rfl (fun _ => rfl)⟩
      · obtain rfl : c = r := by simpa using hb
        obtain ⟨d, hd⟩ : ∃ d, (m ++ [g]).head? = some d :=
          Option.ne_none_iff_exists'.mp (by simp)
        obtain ⟨u, hrun, hu⟩ := SyncReaderList.moveToFront_squeeze h.chained hd heq
        exact ⟨u, _, _, _, _, hrun, h.squeezed hd hu⟩
    · exact ⟨s, _, _, _, _, SyncReaderList.moveToFront_spanned h.chained hr hf hb heq hrb, h⟩
  · obtain ⟨u, c, hrun, hc, hu⟩ := SyncReaderList.moveToFront_advance h.chained hr hf hb heq
    exact ⟨u, _, _, _, _, hrun, h.advance hn hr hf hb heq hc hu⟩

/-- `removeSlot` stores two flags. -/
theorem removeSlot (h : Numbered n s l t base) {result : Option E}
    (hrun : s.removeSlot r = .ok (s', result)) : Numbered n s' l t base := by
  have hflags : ∀ b c, Numbered n ((s.setIsEmpty r b).setIsDone r c) l t base :=
    fun b c => h.congr rfl rfl rfl rfl (fun x => by by_cases hx : x = r <;> simp [hx])
  unfold SyncQueue.removeSlot SyncQueue.isEmpty at hrun
  dsimp only at hrun
  split at hrun
  · obtain ⟨rfl, -⟩ := Prod.mk.inj (Except.ok.inj hrun)
    exact hflags _ _
  · split at hrun
    · cases hrun
    · obtain ⟨rfl, -⟩ := Prod.mk.inj (Except.ok.inj hrun)
      exact hflags _ _
    · obtain ⟨rfl, -⟩ := Prod.mk.inj (Except.ok.inj hrun)
      exact hflags _ _

theorem remove (h : Numbered n s l t base) (hn : 2 ≤ n) (hr : r ∈ l) {result : Option E}
    (hrun : s.remove r = .ok (s', result)) : ∃ l' t' base', Numbered n s' l' t' base' := by
  unfold SyncQueue.remove at hrun
  split at hrun
  · exact ⟨_, _, _, h.removeSlot hrun⟩
  · obtain ⟨u, moved, l', t', base', hmove, hu⟩ := h.moveToFront hn hr
    rw [hmove, ok_bind] at hrun
    cases moved with
    | false =>
        obtain ⟨rfl, -⟩ := Prod.mk.inj (Except.ok.inj hrun)
        exact ⟨_, _, _, hu⟩
    | true => exact ⟨_, _, _, hu.removeSlot hrun⟩

/-- A reader leaves, and the back is kept. -/
theorem endAccess (h : Numbered n s l t base) (hn : 0 < n) (hr : r ∈ l)
    (hkeeps : s.KeepsBack (.endAccess r : QueueCall ρ E)) (hrun : s.endAccess r = .ok s') :
    ∃ l' t' base', Numbered n s' l' t' base' := by
  rcases Tickets.position hr with rfl | ⟨m, g, rfl⟩ | ⟨p, m, f, rfl⟩
  · obtain ⟨u, hrun', hu⟩ := SyncReaderList.remove_lone h.chained
    obtain rfl := Except.ok.inj (hrun.symm.trans hrun')
    obtain ⟨base', hread⟩ : ∃ base', s'.readIndex = slot n 0 base' := by
      rw [hu.ring]
      show ∃ base', (if (s.readers r).isDone && !s.slotIsEmpty r then _ else _) = _
      split
      · exact ⟨t r + 1, h.nextIndex_front rfl⟩
      · exact ⟨base, h.readIndex⟩
    exact ⟨[], t, base', .nil hu.chained (by rw [hu.ring]; exact h.size) hread t⟩
  · obtain ⟨u, hrun', hu⟩ := SyncReaderList.remove_front h.chained
    obtain rfl := Except.ok.inj (hrun.symm.trans hrun')
    refine ⟨m ++ [g], t, base, h.drop (by simp) hu ?_⟩
    intro b hb
    refine h.head b ?_
    cases m <;> simpa using hb
  · cases hdone : (s.readers r).isDone with
    | true =>
        obtain ⟨c, q, hq⟩ : ∃ c q, m ++ [f] = c :: q := by cases m <;> simp
        rw [hq] at h
        obtain ⟨u, hrun', hu⟩ := SyncReaderList.remove_done h.chained hdone
        obtain rfl := Except.ok.inj (hrun.symm.trans hrun')
        refine ⟨p ++ c :: q, t, base, h.drop (by simp) hu ?_⟩
        rcases p with _ | ⟨d, p⟩
        · -- the next reader has the same slot, and the same number
          have hback : s.back = some r := h.chained.back
          have hfront : s.front ≠ some r := by
            intro hfr
            have hlast := h.chained.front.symm.trans hfr
            rw [List.nil_append, List.getLast?_cons_cons] at hlast
            exact (List.nodup_cons.mp h.chained.nodup).1 (List.mem_of_getLast? hlast)
          have hsame := hkeeps hback hfront hdone c h.chained.linked.adjacent_cons.1
          rw [h.index c (by simp), h.index r (by simp), slot_inj 0 (r := base) hn
            (h.low c (by simp)) (h.lap c (by simp)) (h.low r (by simp)) (h.lap r (by simp))]
            at hsame
          intro b hb
          obtain rfl : c = b := by simpa using hb
          rw [hsame]
          exact h.head r rfl
        · intro b hb
          exact h.head b (by simpa using hb)
    | false =>
        obtain ⟨u, hrun', hu⟩ := h.chained.endAccess_waiting hdone
        obtain rfl := Except.ok.inj (hrun.symm.trans hrun')
        exact ⟨_, _, _, h.takesOver hu⟩

/-- A departure that does not keep the back leaves `readIndex` behind. -/
theorem endAccess_loses (h : Numbered n s l t base)
    (hloses : ¬ s.KeepsBack (.endAccess r : QueueCall ρ E)) (hrun : s.endAccess r = .ok s') :
    ¬ s'.TracksBack := by
  simp only [SyncQueue.KeepsBack, not_forall] at hloses
  obtain ⟨hback, hfront, hdone, c, hc, hne⟩ := hloses
  have hbl : l.head? = some r := h.chained.back.symm.trans hback
  rcases l with _ | ⟨b, q⟩
  · cases hbl
  obtain rfl : b = r := by simpa using hbl
  rcases q with _ | ⟨d, q⟩
  · exact absurd h.chained.front hfront
  have hd : (s.readers b).next = some d := h.chained.linked.adjacent_cons.1
  obtain rfl : d = c := Option.some.inj (hd.symm.trans hc)
  obtain ⟨u, hrun', hu⟩ := SyncReaderList.remove_done (p := []) h.chained hdone
  obtain rfl := Except.ok.inj (hrun.symm.trans hrun')
  intro htracks
  have hread := (htracks d hu.chained.back).1
  rw [hu.ring, hu.index] at hread
  refine hne (hread.symm.trans ?_)
  rw [h.index b (by simp), h.head b rfl]
  exact h.readIndex

end Numbered

/-- A queue in which the readers stand in order. -/
def SyncQueue.InOrder (n : Nat) (s : SyncQueue ρ E) : Prop :=
  ∃ l t base, Numbered n s l t base

/-- What one call preserves. -/
theorem SyncQueue.InOrder.step {n : Nat} {s s' : SyncQueue ρ E} {c : QueueCall ρ E}
    (h : s.InOrder n) (hn : 2 ≤ n) (hsize : c.KeepsSize) (hkeeps : s.KeepsBack c)
    (hstep : s.callStep c s') : s'.InOrder n := by
  obtain ⟨l, t, base, h⟩ := h
  cases c with
  | add e =>
      obtain rfl : s' = (s.add e).1 := hstep
      obtain ⟨q, hadd, hq, hread, -⟩ := s.add_ring e
      rw [hadd]
      exact ⟨l, t, base, h.congr hq hread rfl rfl (fun _ => rfl)⟩
  | startAccess r => exact h.startAccess hn hstep.1 hstep.2
  | remove r =>
      obtain ⟨hr, result, hrun⟩ := hstep
      exact h.remove hn ((h.chained.inQueue r).mp hr) hrun
  | endAccess r =>
      cases hr : (s.readers r).inQueue with
      | false =>
          obtain rfl := Except.ok.inj ((SyncReaderList.remove_unregistered hr).symm.trans hstep)
          exact ⟨l, t, base, h⟩
      | true => exact h.endAccess (by omega) ((h.chained.inQueue r).mp hr) hkeeps hstep
  | resize m => exact hsize.elim

/-- In a run none of whose calls is a departure that leaves `readIndex` behind,
`readIndex` tracks the back reader; the next call keeps it so exactly if it is none. -/
theorem tracksBack_iff {n : Nat} (hn : 2 ≤ n) (dataEntries : ProcessingQueueDataArray E)
    {s : SyncQueue ρ E}
    (h : ((SyncQueue.system ρ n dataEntries).restrict fun s c =>
      c.KeepsSize ∧ s.KeepsBack c).Reachable s) :
    s.TracksBack ∧ ∀ c s', c.KeepsSize → s.callStep c s' → (s'.TracksBack ↔ s.KeepsBack c) := by
  have hinv : s.InOrder n := by
    apply h.invariant (I := fun s => s.InOrder n)
    · rintro s rfl
      have hnew := Represents.new (ρ := ρ) (n := n) dataEntries
      exact ⟨[], fun _ => 0, 0, .nil hnew.chained rfl hnew.readIndex _⟩
    · rintro s c s' hs ⟨hstep, hsize, hkeeps⟩
      exact hs.step hn hsize hkeeps hstep
  have htracks : ∀ {u : SyncQueue ρ E}, u.InOrder n → u.TracksBack :=
    fun ⟨_, _, _, hu⟩ => hu.tracksBack
  refine ⟨htracks hinv, fun c s' hsize hstep => ⟨fun hs' => ?_, fun hkeeps =>
    htracks (hinv.step hn hsize hkeeps hstep)⟩⟩
  by_contra hloses
  obtain ⟨l, t, base, hnum⟩ := hinv
  cases c with
  | endAccess r => exact hnum.endAccess_loses hloses hstep hs'
  | _ => exact hloses trivial

/-- The back moves before the front, and the next back leaves without having read. -/
theorem tracksBack_of_leavers :
    ∃ s : SyncQueue (Fin 3) Nat, s.back = some 2 ∧ s.front = some 0 ∧ s.readIndex = 1 ∧
      s.TracksBack ∧ ∀ c s', c.KeepsSize → s.callStep c s' → (s'.TracksBack ↔ s.KeepsBack c) := by
  have hcalls : (System.follow (SyncQueue.call 9) (fun s c => c.KeepsSize ∧ s.KeepsBack c)
      (SyncQueue.new (Fin 3) 3 (.uniform Nat 8))
      [.startAccess 0, .startAccess 1, .startAccess 2, .add 10, .remove 0, .remove 0,
        .endAccess 1]).map
      (fun s => (s.back, s.front, s.readIndex)) = some (some 2, some 0, 1) := by decide
  obtain ⟨s, hcalls, hs⟩ := Option.map_eq_some_iff.mp hcalls
  simp only [Prod.mk.injEq] at hs
  exact ⟨s, hs.1, hs.2.1, hs.2.2, tracksBack_iff (by decide) _
    (SyncQueue.reachable_follow rfl 9 _ (.start rfl) hcalls)⟩

/-- A ring of four slots and two readers: the first reads its entry and leaves. -/
theorem back_leaves_done :
    ∃ s : SyncQueue (Fin 2) Nat,
      ((SyncQueue.system (Fin 2) 4 (.uniform Nat 8)).restrict fun _ c => c.KeepsSize).Reachable s ∧
      s.back = some 1 ∧ (s.readers 1).index = 1 ∧ s.readIndex = 0 ∧ ¬ s.TracksBack := by
  have hcalls : (System.follow (SyncQueue.call 9) (fun _ c => c.KeepsSize)
      (SyncQueue.new (Fin 2) 4 (.uniform Nat 8))
      [.startAccess 0, .startAccess 1, .add 10, .remove 0, .endAccess 0]).map
      (fun s => (s.back, (s.readers 1).index, s.readIndex)) = some (some 1, 1, 0) := by decide
  obtain ⟨s, hcalls, hs⟩ := Option.map_eq_some_iff.mp hcalls
  simp only [Prod.mk.injEq] at hs
  obtain ⟨hback, hindex, hread⟩ := hs
  refine ⟨s, SyncQueue.reachable_follow rfl 9 _ (.start rfl) hcalls, hback, hindex, hread, ?_⟩
  intro htracks
  have heq := (htracks 1 hback).1
  rw [hread, hindex] at heq
  exact absurd heq (by decide)

end HPQueue
