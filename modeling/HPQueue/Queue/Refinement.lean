import HPQueue.Library.Ring
import HPQueue.Queue.ReaderChain
import HPQueue.Queue.Tickets

/-!
# A queue represents a line of tickets

`Represents n off s T` reads a `SyncQueue` as the line of `Tickets` it stands
for: its pointers represent the line, and every index it stores is the slot of a
ticket on a ring of `n` slots.  The offset `off` is zero until the queue grows.

Each call of the queue is then the operation of the same purpose on the line.
Together with the soundness of the line this turns comparisons of circular
indices into comparisons of numbers that never wrap.

## Main results

* `Represents.add` — `add` accepts exactly when the ring has room, and writes.
* `Represents.startAccess` — `startAccess` joins the line.
* `Represents.remove` — `remove` asks the line, and returns the entry taken.
-/

namespace HPQueue

open Library.Ring QueueConstants

variable {ρ E : Type} [DecidableEq ρ]

/-- The list and the ring of the queue `s` stand for the line `T`, whatever its
readers say of being done. -/
structure Standing (n : Nat) (off : Int) (s : SyncQueue ρ E) (T : Tickets ρ E) : Prop where
  chained : Chained s T.line
  size : s.currentSize = n
  readIndex : s.readIndex = slot n off T.base
  writeIndex : s.writeIndex = slot n off T.written
  index : ∀ r ∈ T.line, (s.readers r).index = slot n off (T.ticket r)
  stored : ∀ k e, T.base ≤ k → T.accepted[k]? = some e →
    s.queueData (slot n off k) = .entry e
  canStore : ∀ e ∈ T.accepted, s.dataEntries.CanStore e

/-- The queue `s` stands for the line `T`. -/
structure Represents (n : Nat) (off : Int) (s : SyncQueue ρ E) (T : Tickets ρ E) : Prop
    extends Standing n off s T where
  isDone : ∀ r ∈ T.line, (s.readers r).isDone = T.isDone r

theorem adjustIndexForComparison_eq_unwrap (n : Nat) (index readIndex : Int) :
    adjustIndexForComparison n index readIndex = unwrap n readIndex index := rfl

namespace Standing

variable {n : Nat} {off : Int} {s : SyncQueue ρ E} {T : Tickets ρ E}

omit [DecidableEq ρ] in
theorem mem_iff (h : Standing n off s T) {r : ρ} :
    (s.readers r).inQueue = true ↔ r ∈ T.line := h.chained.inQueue r

omit [DecidableEq ρ] in
theorem nextIndex_slot (h : Standing n off s T) (k : Nat) :
    s.nextIndex (slot n off k) = slot n off (k + 1) := by
  rw [ReaderWriterQueue.nextIndex, HPQueue.nextIndex, h.size, slot_succ]

omit [DecidableEq ρ] in
/-- The ring is full when the entries are one slot short of a lap ahead. -/
theorem isFull_eq (h : Standing n off s T) (hT : T.Sound n) :
    s.isFull = if T.written + 1 = T.base + n then IS_FULL else slot n off (T.written + 1) := by
  have hlow := hT.base_le_written
  have hhigh := hT.within
  have hn : 0 < n := by omega
  have hiff : slot n off (T.written + 1) = slot n off T.base ↔ T.written + 1 = T.base + n := by
    rw [← slot_succ, slot_succ_eq_iff off hn hlow hhigh (Nat.le_refl _) (by omega)]
    omega
  simp only [ReaderWriterQueue.isFull, h.writeIndex, h.readIndex, h.nextIndex_slot, hiff]

omit [DecidableEq ρ] in
/-- The emptiness test compares the reader's ticket with the entries. -/
theorem slotIsEmpty_eq (h : Standing n off s T) (hT : T.Sound n) {r : ρ} (hr : r ∈ T.line) :
    s.slotIsEmpty r = decide (T.written ≤ T.ticket r) := by
  have hlow := hT.base_le_written
  have hhigh := hT.within
  have hn : 0 < n := by omega
  rw [SyncQueue.slotIsEmpty]
  simp only [ReaderWriterQueue.adjustIndexForComparison, adjustIndexForComparison_eq_unwrap,
    h.size, h.writeIndex, h.readIndex, h.index r hr,
    unwrap_slot_le_iff off hn hlow hhigh (hT.base_le hr) (hT.lap r hr)]

omit [DecidableEq ρ] in
/-- The spanning check compares the next ticket with the one at the back. -/
theorem spans_iff (h : Standing n off s T) (hT : T.Sound n) (hn : 2 ≤ n) {f b : ρ}
    (hf : T.line.getLast? = some f) (hb : T.line.head? = some b) :
    s.nextIndex (s.readers f).index = (s.readers b).index ↔ T.Spans n := by
  have hfl := List.mem_of_getLast? hf
  have hbl := List.mem_of_mem_head? hb
  have hbf : T.ticket b ≤ T.ticket f := hT.le_front hf hbl
  have hlow := hT.base_le hbl
  have hlap := hT.lap f hfl
  rw [h.index f hfl, h.index b hbl, ReaderWriterQueue.nextIndex, HPQueue.nextIndex, h.size,
    slot_succ_eq_iff off (by omega) hbf (by omega) (Nat.le_refl _) (by omega), Tickets.Spans,
    Tickets.next_eq hf, Tickets.backTicket_eq hb]
  omega

omit [DecidableEq ρ] in
theorem nextIndex_front (h : Standing n off s T) {f : ρ} (hf : T.line.getLast? = some f) :
    s.nextIndex (s.readers f).index = slot n off T.next := by
  rw [h.index f (List.mem_of_getLast? hf), h.nextIndex_slot, Tickets.next_eq hf]

omit [DecidableEq ρ] in
/-- A list operation of the queue against one of the line. -/
theorem of_relisted (h : Standing n off s T) {s' : SyncQueue ρ E} {T' : Tickets ρ E}
    {index : ρ → Int} {isDone : ρ → Bool} {readIndex : Int}
    (hs' : Relisted s s' T'.line index isDone readIndex)
    (hbase : readIndex = slot n off T'.base) (hmono : T.base ≤ T'.base)
    (haccepted : T'.accepted = T.accepted)
    (hindex : ∀ x ∈ T'.line, index x = slot n off (T'.ticket x)) : Standing n off s' T' where
  chained := hs'.chained
  size := by simpa [hs'.ring] using h.size
  readIndex := by simpa [hs'.ring] using hbase
  writeIndex := by simpa [hs'.ring, Tickets.written, haccepted] using h.writeIndex
  index x hx := by rw [hs'.index, hindex x hx]
  stored k e hk he := by
    rw [haccepted] at he
    simpa [hs'.ring] using h.stored k e (by omega) he
  canStore e he := by
    rw [haccepted] at he
    simpa [hs'.ring] using h.canStore e he

omit [DecidableEq ρ] in
/-- `add` writes the slot of the next number, if the ring has room for it. -/
theorem add (h : Standing n off s T) (hT : T.Sound n) {e : E}
    (he : s.dataEntries.CanStore e) (hroom : T.written + 1 < T.base + n) :
    ∃ s', s.add e = (s', slot n off T.written) ∧ Standing n off s' (T.write e) ∧
      s'.readers = s.readers := by
  have hlow := hT.base_le_written
  have hn : 0 < n := by omega
  have hw0 := slot_nonneg off hn T.written
  have hwn := slot_lt off hn T.written
  have hnext0 := slot_nonneg off hn (T.written + 1)
  have hfull : s.isFull = slot n off (T.written + 1) := by
    rw [h.isFull_eq hT, if_neg (by omega)]
  have hne : slot n off (T.written + 1) ≠ IS_FULL := by
    unfold IS_FULL
    omega
  have hinsert : s.insert e = (s.toReaderWriterQueue.copyTo e (slot n off T.written), true) := by
    simp [ReaderWriterQueue.insert, ProcessingQueueDataArray.getQueueEntry, h.writeIndex,
      h.size, hw0, hwn, he.1, he.2]
  have hrun : s.add e = ({ s with
      queueData := Function.update s.queueData (slot n off T.written) (.entry e)
      writeIndex := slot n off (T.written + 1)
      stats := s.stats.incrementAddedCount }, slot n off T.written) := by
    simp [SyncQueue.add, ReaderWriterQueue.add, ReaderWriterQueue.tryInsert, hfull, hne, hinsert,
      Int.not_lt.mpr hnext0, ReaderWriterQueue.copyTo, h.writeIndex]
  refine ⟨_, hrun, ?_, rfl⟩
  refine
    { chained := h.chained.congr rfl rfl (fun _ => rfl) (fun _ => rfl) (fun _ => rfl)
      size := h.size
      readIndex := h.readIndex
      writeIndex := by rw [Tickets.written_write]
      index := h.index
      stored := ?_
      canStore := ?_ }
  · intro k e' hk he'
    have hk : T.base ≤ k := hk
    change Function.update s.queueData (slot n off T.written) (.entry e) (slot n off k) = _
    by_cases hkw : k = T.written
    · subst hkw
      simp [Tickets.write, Tickets.written] at he'
      simp [he']
    · have hlt : k < T.written := by
        have hlen := (List.getElem?_eq_some_iff.mp he').1
        simp only [Tickets.write, List.length_append, List.length_singleton] at hlen
        simp only [Tickets.written] at hkw ⊢
        omega
      have hslot : slot n off k ≠ slot n off T.written := by
        rw [Ne, slot_inj off hn hk (by omega) hlow hT.within]
        exact hkw
      rw [Function.update_of_ne hslot]
      refine h.stored k e' hk ?_
      rwa [Tickets.write, List.getElem?_append_left hlt] at he'
  · intro e' he'
    rcases List.mem_append.mp he' with he' | he'
    · exact h.canStore e' he'
    · rw [List.mem_singleton.mp he']
      exact he

omit [DecidableEq ρ] in
/-- An `add` that does not fit leaves the queue as it is. -/
theorem add_refused (h : Standing n off s T) (hT : T.Sound n) {e : E}
    (hfit : ¬ (s.dataEntries.CanStore e ∧ T.written + 1 < T.base + n)) :
    ∃ i < 0, s.add e = (s, i) ∧ (i = IS_FULL ↔ T.written + 1 = T.base + n) := by
  have hhigh := hT.within
  have hlow := hT.base_le_written
  by_cases hroom : T.written + 1 = T.base + n
  · refine ⟨IS_FULL, by decide, ?_, by simp [hroom]⟩
    have hfull : s.isFull = IS_FULL := by rw [h.isFull_eq hT, if_pos hroom]
    simp [SyncQueue.add, ReaderWriterQueue.add, ReaderWriterQueue.tryInsert, hfull, IS_FULL]
  · refine ⟨CANNOT_ADD, by decide, ?_, by simp [hroom, CANNOT_ADD, IS_FULL]⟩
    have hn : 0 < n := by omega
    have hnext0 := slot_nonneg off hn (T.written + 1)
    have hfull : s.isFull = slot n off (T.written + 1) := by
      rw [h.isFull_eq hT, if_neg hroom]
    have hne : slot n off (T.written + 1) ≠ IS_FULL := by
      unfold IS_FULL
      omega
    have hinsert : s.insert e = (s.toReaderWriterQueue, false) := by
      unfold ReaderWriterQueue.insert
      split
      · rename_i hcompatible
        split
        · rename_i hplace
          simp only [ProcessingQueueDataArray.getQueueEntry, Bool.and_eq_true] at hplace
          exact absurd ⟨⟨hcompatible, hplace.2⟩, by omega⟩ hfit
        · rfl
      · rfl
    simp [SyncQueue.add, ReaderWriterQueue.add, ReaderWriterQueue.tryInsert, hfull, hne,
      hinsert, CANNOT_ADD]

/-- A new reader is put before the front, or the back is. -/
theorem of_place (h : Standing n off s T) (hT : T.Sound n) {s' : SyncQueue ρ E} {r : ρ}
    {l : List ρ} {t : Nat} {done : Bool} {readIndex : Int} {index : ρ → Int}
    {isDone : ρ → Bool} (hs' : Relisted s s' l index isDone readIndex)
    (hbase : readIndex = slot n off (T.place r l t done).base)
    (hmem : ∀ x ∈ l, x ≠ r → x ∈ T.line) (hr : index r = slot n off t)
    (hindex : ∀ x, x ≠ r → index x = (s.readers x).index) (hlow : T.base ≤ t) :
    Standing n off s' (T.place r l t done) := by
  have hmono : T.base ≤ (T.place r l t done).base := hT.base_le_place hmem hlow
  refine h.of_relisted (by simpa using hs') hbase hmono (by simp) ?_
  intro x hx
  rw [Tickets.place_ticket]
  by_cases hxr : x = r
  · rw [hxr, hr, Function.update_self]
  · rw [hindex x hxr, Function.update_of_ne hxr,
      h.index x (hmem x (by simpa using hx) hxr)]

/-- `startAccess` joins the line; a reader that shares a slot is done with it. -/
theorem startAccess (h : Standing n off s T) (hT : T.Sound n) (hn : 2 ≤ n) {r : ρ}
    (hr : (s.readers r).inQueue = false) :
    ∃ s', s.startAccess r = .ok s' ∧ Standing n off s' (T.join n r) ∧
      ∀ x, (s'.readers x).isDone =
        if x = r then decide (T.Spans n) else (s.readers x).isDone := by
  have hrl : r ∉ T.line := fun hm => by simp [h.mem_iff.mpr hm] at hr
  have herase : T.line.erase r = T.line := List.erase_of_not_mem hrl
  have hlow := hT.base_le_next
  have hbase : ∀ l t done, s.readIndex = slot n off (T.place r l t done).base := by
    intro l t done
    rw [Tickets.place_base_of_ne (fun hb => hrl (List.mem_of_mem_head? hb)), h.readIndex]
  rcases List.eq_nil_or_concat' T.line with hl | ⟨m, f, hl⟩
  · have hnext := Tickets.next_nil hl
    have hback := Tickets.backTicket_nil hl
    have hspans : ¬ T.Spans n := by
      unfold Tickets.Spans
      omega
    have hchained := h.chained
    rw [hl] at hchained
    obtain ⟨s', hrun, hs'⟩ := SyncReaderList.add_first hchained hr
    refine ⟨s', hrun, ?_, fun x => by simp [hs'.isDone, hspans]⟩
    rw [Tickets.join, if_neg hspans, Tickets.draw, herase, hl]
    refine h.of_place hT hs' (hbase _ _ _) (by simp) ?_ ?_ hlow
    · simp [hnext, h.readIndex]
    · intro x hx
      simp [hx]
  · have hf : T.line.getLast? = some f := by simp [hl]
    obtain ⟨b, hb⟩ : ∃ b, T.line.head? = some b :=
      Option.ne_none_iff_exists'.mp (by simp [hl])
    have hspans := h.spans_iff hT hn hf hb
    rw [Tickets.join]
    split
    · rename_i hyes
      obtain ⟨m, g, f', hl'⟩ := hyes.split hn
      obtain rfl : f' = f := by simpa [hl'] using hf
      have hchained := h.chained
      rw [hl'] at hchained hb
      obtain ⟨s', hrun, hs'⟩ :=
        SyncReaderList.add_spanned hchained hr hb (hspans.mpr hyes)
      have hgl : g ∈ T.line := by simp [hl']
      refine ⟨s', hrun, ?_, fun x => by simp [hs'.isDone, hyes]⟩
      rw [Tickets.share_eq (herase.trans hl')]
      refine h.of_place hT hs' (hbase _ _ _) ?_ ?_ ?_ (hT.base_le hgl)
      · intro x hx hxr
        rw [hl']
        simp only [List.mem_append, List.mem_cons] at hx ⊢
        tauto
      · simp [h.index g hgl]
      · intro x hx
        simp [hx]
    · rename_i hno
      obtain ⟨s', hrun, hs'⟩ :=
        SyncReaderList.add_front h.chained hr hf hb (fun he => hno (hspans.mp he))
      refine ⟨s', hrun, ?_, fun x => by simp [hs'.isDone, hno]⟩
      rw [Tickets.draw, herase]
      refine h.of_place hT hs' (hbase _ _ _) ?_ ?_ ?_ hlow
      · intro x hx hxr
        simpa [hxr] using hx
      · simp [h.nextIndex_front hf]
      · intro x hx
        simp [hx]

/-- `moveToFront` draws a ticket, if the line does not span the ring.  Nobody's
`isDone` changes: `removeSlot` stores the mover's afterwards. -/
theorem moveToFront_draws (h : Standing n off s T) (hT : T.Sound n) (hn : 2 ≤ n) {r : ρ}
    (hr : r ∈ T.line) (hspans : ¬ T.Spans n) :
    ∃ s', SyncReaderList.moveToFront s r = .ok (s', true) ∧
      Standing n off s' (T.draw r) ∧ ∀ x, (s'.readers x).isDone = (s.readers x).isDone := by
  obtain ⟨f, hf⟩ : ∃ f, T.line.getLast? = some f :=
    Option.ne_none_iff_exists'.mp (by simpa using List.ne_nil_of_mem hr)
  obtain ⟨b, hb⟩ : ∃ b, T.line.head? = some b :=
    Option.ne_none_iff_exists'.mp (by simpa using List.ne_nil_of_mem hr)
  have hiff := h.spans_iff hT hn hf hb
  obtain ⟨s', c, hrun, hc, hs'⟩ :=
    SyncReaderList.moveToFront_advance h.chained hr hf hb (fun he => hspans (hiff.mp he))
  refine ⟨s', hrun, ?_, hs'.isDone⟩
  have hothers : ∀ x ∈ T.line.erase r, x ≠ r ∧ x ∈ T.line := fun x hx =>
    hT.mem_erase_iff.mp hx
  refine h.of_place hT hs' ?_ ?_ ?_ ?_ hT.base_le_next
  · by_cases hbr : b = r
    · subst hbr
      rw [Tickets.place_base_of_back hb hc]
      by_cases hcb : c = b
      · simp [hcb, h.nextIndex_front hf]
      · have hcl : c ∈ T.line := by
          have hmem := List.mem_of_mem_head? hc
          simp only [List.mem_append, List.mem_singleton] at hmem
          exact (hothers c (hmem.resolve_right hcb)).2
        simp [hcb, h.index c hcl]
    · rw [Tickets.place_base_of_ne (fun he => hbr (Option.some.inj (hb.symm.trans he)))]
      simp [hbr, h.readIndex]
  · intro x hx hxr
    simp only [List.mem_append, List.mem_singleton] at hx
    exact (hothers x (hx.resolve_right hxr)).2
  · simp [h.nextIndex_front hf]
  · intro x hx
    simp [hx]

/-- `moveToFront` on a line that spans the ring: the back moves before the front,
any other reader stays. -/
theorem moveToFront_stays (h : Standing n off s T) (hT : T.Sound n) (hn : 2 ≤ n) {r : ρ}
    (hr : r ∈ T.line) (hspans : T.Spans n) :
    ∃ s', SyncReaderList.moveToFront s r = .ok (s', false) ∧
      Standing n off s' (if T.line.head? = some r then T.share r else T) ∧
      ∀ x, (s'.readers x).isDone = (s.readers x).isDone := by
  obtain ⟨m, g, f, hl⟩ := hspans.split hn
  have hf : T.line.getLast? = some f := by simp [hl]
  obtain ⟨b, hb⟩ : ∃ b, T.line.head? = some b :=
    Option.ne_none_iff_exists'.mp (by simpa using List.ne_nil_of_mem hr)
  have heq := (h.spans_iff hT hn hf hb).mpr hspans
  have hchained := h.chained
  split
  · rename_i hback
    obtain rfl : r = b := by simpa [hback] using hb
    rcases m with _ | ⟨b, m⟩
    · obtain rfl : g = r := by simpa [hl] using hback
      rw [List.nil_append] at hl
      rw [hl] at hchained
      refine ⟨_, SyncReaderList.moveToFront_pair hchained heq, ?_, fun _ => rfl⟩
      have hs' : Relisted s { s with readIndex := (s.readers g).index } [g, f]
          (fun x => (s.readers x).index) (fun x => (s.readers x).isDone)
          (s.readers g).index :=
        { chained := hchained.congr rfl rfl (fun _ => rfl) (fun _ => rfl) (fun _ => rfl)
          ring := rfl
          index := fun _ => rfl
          isDone := fun _ => rfl }
      rw [Tickets.share_pair hl]
      refine h.of_place hT hs' ?_ ?_ (h.index g hr) (fun _ _ => rfl) (hT.base_le hr)
      · rw [Tickets.place_base_of_back (by simp [hl]) (b := g) rfl, Function.update_self,
          h.index g hr]
      · intro x hx _
        rwa [hl]
    · obtain rfl : b = r := by simpa [hl] using hback
      rw [hl] at hchained
      obtain ⟨c, hc⟩ : ∃ c, (m ++ [g]).head? = some c :=
        Option.ne_none_iff_exists'.mp (by simp)
      obtain ⟨s', hrun, hs'⟩ := SyncReaderList.moveToFront_squeeze hchained hc heq
      refine ⟨s', hrun, ?_, hs'.isDone⟩
      have hnd := hT.nodup
      rw [hl] at hnd
      have hcm := List.mem_of_mem_head? hc
      have hcb : c ≠ b := by
        rintro rfl
        rw [List.cons_append] at hnd
        refine (List.nodup_cons.mp hnd).1 ?_
        simp only [List.mem_append, List.mem_cons] at hcm ⊢
        tauto
      have hcl : c ∈ T.line := by
        rw [hl]
        simp only [List.mem_append, List.mem_cons] at hcm ⊢
        tauto
      have hgl : g ∈ T.line := by simp [hl]
      have hothers : T.line.erase b = m ++ [g, f] := by simp [hl]
      rw [Tickets.share_eq hothers]
      refine h.of_place hT hs' ?_ ?_ ?_ ?_ (hT.base_le hgl)
      · have hc' : (m ++ [g, b, f]).head? = some c := by
          cases m <;> simpa using hc
        rw [Tickets.place_base_of_back hback hc', Function.update_of_ne hcb, h.index c hcl]
      · intro x hx hxb
        rw [hl]
        simp only [List.cons_append, List.mem_cons, List.mem_append] at hx ⊢
        tauto
      · simp [h.index g hgl]
      · intro x hx
        simp [hx]
  · rename_i hback
    have hrb : r ≠ b := by
      rintro rfl
      exact hback hb
    exact ⟨s, SyncReaderList.moveToFront_spanned hchained hr hf hb heq hrb, h, fun _ => rfl⟩

omit [DecidableEq ρ] in
/-- The flags of the readers say nothing about the line. -/
theorem congr (h : Standing n off s T) {s' : SyncQueue ρ E} {T' : Tickets ρ E}
    (hring : s'.toReaderWriterQueue = s.toReaderWriterQueue) (hfront : s'.front = s.front)
    (hback : s'.back = s.back) (hreaders : ∀ x, s'.readers x =
      { s.readers x with isEmpty := (s'.readers x).isEmpty, isDone := (s'.readers x).isDone })
    (hline : T'.line = T.line) (hticket : T'.ticket = T.ticket) (hbase : T'.base = T.base)
    (haccepted : T'.accepted = T.accepted) : Standing n off s' T' where
  chained := by
    rw [hline]
    exact h.chained.congr hback hfront (fun x => by rw [hreaders x])
      (fun x => by rw [hreaders x]) (fun x => by rw [hreaders x])
  size := by rw [hring, h.size]
  readIndex := by rw [hring, hbase, h.readIndex]
  writeIndex := by simp only [hring, Tickets.written, haccepted, h.writeIndex]
  index x hx := by
    rw [hline] at hx
    rw [hticket, hreaders x]
    exact h.index x hx
  stored k e hk he := by
    rw [hbase] at hk
    rw [haccepted] at he
    rw [hring]
    exact h.stored k e hk he
  canStore e he := by
    rw [haccepted] at he
    rw [hring]
    exact h.canStore e he

end Standing

namespace Represents

variable {n : Nat} {off : Int} {s : SyncQueue ρ E} {T : Tickets ρ E}

omit [DecidableEq ρ] in
/-- A new queue is an empty line. -/
theorem new (dataEntries : ProcessingQueueDataArray E) :
    Represents n 0 (.new ρ n dataEntries) (.new ρ E) where
  chained :=
    { nodup := List.nodup_nil
      inQueue := by simp [SyncQueue.new, ReaderIndex.new, Tickets.new]
      back := rfl
      front := rfl
      linked := by simp [Tickets.new]
      last := by simp [Tickets.new] }
  size := rfl
  readIndex := by simp [SyncQueue.new, ReaderWriterQueue.new, Tickets.new]
  writeIndex := by simp [SyncQueue.new, ReaderWriterQueue.new, Tickets.new, Tickets.written]
  index := by simp [Tickets.new]
  isDone := by simp [Tickets.new]
  stored := by simp [Tickets.new]
  canStore := by simp [Tickets.new]

omit [DecidableEq ρ] in
/-- A list operation of the queue against one of the line. -/
theorem of_relisted (h : Represents n off s T) {s' : SyncQueue ρ E} {T' : Tickets ρ E}
    {index : ρ → Int} {isDone : ρ → Bool} {readIndex : Int}
    (hs' : Relisted s s' T'.line index isDone readIndex)
    (hbase : readIndex = slot n off T'.base) (hmono : T.base ≤ T'.base)
    (haccepted : T'.accepted = T.accepted)
    (hindex : ∀ x ∈ T'.line, index x = slot n off (T'.ticket x))
    (hisDone : ∀ x ∈ T'.line, isDone x = T'.isDone x) : Represents n off s' T' where
  toStanding := h.toStanding.of_relisted hs' hbase hmono haccepted hindex
  isDone x hx := by rw [hs'.isDone, hisDone x hx]

omit [DecidableEq ρ] in
/-- `add` writes the slot of the next number, if the ring has room for it. -/
theorem add (h : Represents n off s T) (hT : T.Sound n) {e : E}
    (he : s.dataEntries.CanStore e) (hroom : T.written + 1 < T.base + n) :
    ∃ s', s.add e = (s', slot n off T.written) ∧ Represents n off s' (T.write e) := by
  obtain ⟨s', hrun, hs', hreaders⟩ := h.toStanding.add hT he hroom
  refine ⟨s', hrun, hs', ?_⟩
  intro x hx
  rw [hreaders]
  exact h.isDone x hx

/-- `startAccess` joins the line. -/
theorem startAccess (h : Represents n off s T) (hT : T.Sound n) (hn : 2 ≤ n) {r : ρ}
    (hr : (s.readers r).inQueue = false) :
    ∃ s', s.startAccess r = .ok s' ∧ Represents n off s' (T.join n r) := by
  obtain ⟨s', hrun, hs', hflag⟩ := h.toStanding.startAccess hT hn hr
  refine ⟨s', hrun, hs', ?_⟩
  intro x hx
  rw [hflag]
  by_cases hxr : x = r
  · rw [if_pos hxr, hxr, Tickets.join_isDone]
  · rw [if_neg hxr, Tickets.join_isDone_of_ne hxr]
    exact h.isDone x ((hT.mem_join.mp hx).resolve_left hxr)

/-- `moveToFront` draws a ticket, if the line does not span the ring; the flag of
the mover is stored by `removeSlot` afterwards. -/
theorem moveToFront_draws (h : Represents n off s T) (hT : T.Sound n) (hn : 2 ≤ n) {r : ρ}
    (hr : r ∈ T.line) (hspans : ¬ T.Spans n) :
    ∃ s', SyncReaderList.moveToFront s r = .ok (s', true) ∧
      Represents n off (s'.setIsDone r false) (T.draw r) := by
  obtain ⟨s', hrun, hs', hflag⟩ := h.toStanding.moveToFront_draws hT hn hr hspans
  refine ⟨s', hrun, hs'.congr rfl rfl rfl (fun x => by simp) rfl rfl rfl rfl, ?_⟩
  intro x hx
  by_cases hxr : x = r
  · simp [hxr, Tickets.draw]
  · have hxl : x ∈ T.line := (hT.mem_draw.mp hx).resolve_left hxr
    simp [hxr, hflag, h.isDone x hxl, Tickets.draw_isDone_of_ne hxr]

/-- `moveToFront` on a line that spans the ring: the back moves before the front,
any other reader stays. -/
theorem moveToFront_stays (h : Represents n off s T) (hT : T.Sound n) (hn : 2 ≤ n) {r : ρ}
    (hr : r ∈ T.line) (hdone : T.isDone r = true) (hspans : T.Spans n) :
    ∃ s', SyncReaderList.moveToFront s r = .ok (s', false) ∧
      Represents n off s' (if T.line.head? = some r then T.share r else T) := by
  obtain ⟨s', hrun, hs', hflag⟩ := h.toStanding.moveToFront_stays hT hn hr hspans
  refine ⟨s', hrun, hs', ?_⟩
  intro x hx
  rw [hflag]
  split
  · rename_i hback
    rw [if_pos hback] at hx
    by_cases hxr : x = r
    · simp [hxr, Tickets.share, h.isDone r hr, hdone]
    · rw [Tickets.share_isDone_of_ne hxr]
      exact h.isDone x ((hT.mem_share.mp hx).resolve_left hxr)
  · rename_i hback
    rw [if_neg hback] at hx
    exact h.isDone x hx

/-- `removeSlot` overwrites the flag it finds. -/
theorem removeSlot_setIsDone (s : SyncQueue ρ E) (r : ρ) (done : Bool) :
    (s.setIsDone r done).removeSlot r = s.removeSlot r := by
  have hempty : (s.setIsDone r done).slotIsEmpty r = s.slotIsEmpty r := by
    simp [SyncQueue.slotIsEmpty]
  have hstate : ∀ b c, (((s.setIsDone r done).setIsEmpty r b).setIsDone r c) =
      ((s.setIsEmpty r b).setIsDone r c) := by
    intro b c
    simp [SyncQueue.setIsDone, SyncQueue.setIsEmpty]
  simp [SyncQueue.removeSlot, SyncQueue.isEmpty, hempty, hstate]

/-- `removeSlot` takes the entry of the reader's ticket, if it is there. -/
theorem removeSlot (h : Represents n off s T) (hT : T.Sound n) {r : ρ} (hr : r ∈ T.line)
    (hdone : T.isDone r = false) :
    ∃ s', s.removeSlot r = .ok (s', T.accepted[T.ticket r]?) ∧
      Represents n off s' (T.take r) := by
  have hempty := h.slotIsEmpty_eq hT hr
  have hstate : ∀ T' : Tickets ρ E, T'.line = T.line → T'.ticket = T.ticket →
      T'.base = T.base → T'.accepted = T.accepted →
      (∀ x, T'.isDone x = if x = r then !s.slotIsEmpty r else T.isDone x) →
      Represents n off ((s.setIsEmpty r (s.slotIsEmpty r)).setIsDone r (!s.slotIsEmpty r)) T' := by
    intro T' hline hticket hbase haccepted hisDone
    refine ⟨h.congr rfl rfl rfl (fun x => by simp) hline hticket hbase haccepted, ?_⟩
    intro x hx
    rw [hline] at hx
    simp [hisDone, h.isDone x hx]
  by_cases hlt : T.ticket r < T.written
  · have hno : s.slotIsEmpty r = false := by simpa [hempty] using hlt
    obtain ⟨e, he⟩ : ∃ e, T.accepted[T.ticket r]? = some e :=
      ⟨_, List.getElem?_eq_getElem hlt⟩
    have hcell := h.stored _ e (hT.base_le hr) he
    refine ⟨_, by
      simp [SyncQueue.removeSlot, SyncQueue.isEmpty, hno, h.index r hr, hcell, he]; rfl, ?_⟩
    rw [Tickets.take, if_pos hlt]
    have hs' := hstate { T with
      isDone := Function.update T.isDone r true
      returned := T.returned ++ [T.ticket r] } rfl rfl rfl rfl ?_
    · simpa [hno] using hs'
    · intro x
      by_cases hx : x = r <;> simp [hx, hno]
  · have hyes : s.slotIsEmpty r = true := by simpa [hempty] using hlt
    have hnone : T.accepted[T.ticket r]? = none :=
      List.getElem?_eq_none (Nat.not_lt.mp hlt)
    refine ⟨_, by simp [SyncQueue.removeSlot, SyncQueue.isEmpty, hyes, hnone]; rfl, ?_⟩
    rw [Tickets.take, if_neg hlt]
    have hs' := hstate T rfl rfl rfl rfl ?_
    · simpa [hyes] using hs'
    · intro x
      by_cases hx : x = r <;> simp [hx, hyes, hdone]

/-- `remove` asks the line, and returns the entry it gives. -/
theorem remove (h : Represents n off s T) (hT : T.Sound n) (hn : 2 ≤ n) {r : ρ}
    (hr : r ∈ T.line) (hlevel : T.isDone r = true → T.Level n r) :
    ∃ s', s.remove r = .ok (s', T.answer n r) ∧ Represents n off s' (T.ask n r) := by
  have hflag := h.isDone r hr
  cases hdone : T.isDone r with
  | false =>
      obtain ⟨s', hrun, hs'⟩ := h.removeSlot hT hr hdone
      refine ⟨s', ?_, by simpa [Tickets.ask, hdone] using hs'⟩
      simp [SyncQueue.remove, hflag, hdone, hrun, Tickets.answer]
  | true =>
      by_cases hspans : T.Spans n
      · obtain ⟨s', hrun, hs'⟩ := h.moveToFront_stays hT hn hr hdone hspans
        refine ⟨s', ?_, by simpa [Tickets.ask, hdone, hspans] using hs'⟩
        simp [SyncQueue.remove, hflag, hdone, hrun, Tickets.answer, hspans]
      · obtain ⟨s₁, hmove, hs₁⟩ := h.moveToFront_draws hT hn hr hspans
        have hdraw := hT.draw (fun _ => hdone) hspans (hlevel hdone)
        obtain ⟨s', hrun, hs'⟩ := hs₁.removeSlot hdraw (r := r) (by simp [Tickets.draw])
          (by simp [Tickets.draw])
        rw [removeSlot_setIsDone] at hrun
        refine ⟨s', ?_, by simpa [Tickets.ask, hdone, hspans] using hs'⟩
        simpa [SyncQueue.remove, hflag, hdone, hmove, Tickets.answer, hspans, Tickets.draw]
          using hrun

end Represents

end HPQueue
