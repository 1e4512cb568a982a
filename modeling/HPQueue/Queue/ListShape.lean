import HPQueue.Queue.Leaving
import HPQueue.Queue.ResizeView

/-!
# The shape of the reader list

The pointers between the reader indices form a list whatever the indices
themselves say.  The rewirings look at an index for one thing only, whether the
list spans the ring, and a list of a single reader never does; so the shape
outlives every defect of the slot assignment, and a resize of any size.

`ListShape` says what the shape is, in terms of the pointers and of the loop of
`operator<<`.

## Main results

* `list_shape` — every reachable state has the shape, and no call on it follows
  a null pointer or a pointer to a reader that is not registered.
-/

namespace HPQueue

open Library.LinkedChain Library.Transition

variable {ρ E : Type} [DecidableEq ρ]

/-- The calls of a queue. -/
inductive QueueCall (ρ E : Type)
  | add (entry : E)
  | startAccess (r : ρ)
  | remove (r : ρ)
  | endAccess (r : ρ)
  | resize (newSize : Nat)

namespace SyncQueue

/-- One call.  A loop of a resize that does not end, and a slot that was never
set, are no result. -/
def callStep (s : SyncQueue ρ E) : QueueCall ρ E → SyncQueue ρ E → Prop
  | .add entry, s' => s' = (s.add entry).1
  | .startAccess r, s' => (s.readers r).inQueue = false ∧ s.startAccess r = .ok s'
  | .remove r, s' => (s.readers r).inQueue = true ∧ ∃ result, s.remove r = .ok (s', result)
  | .endAccess r, s' => s.endAccess r = .ok s'
  | .resize newSize, s' => ∃ F, ∀ fuel ≥ F, s.resize fuel newSize = .ok s'

/-- The runs of a queue of the given initial size. -/
def system (ρ : Type) [DecidableEq ρ] (queueSize : Nat)
    (dataEntries : ProcessingQueueDataArray E) : System (SyncQueue ρ E) (QueueCall ρ E) where
  init s := s = .new ρ queueSize dataEntries
  step := callStep

end SyncQueue

namespace SyncReaderList

/-- The loop of `operator<<`, at the reader `p`: the readers it prints. -/
def printLoop : Nat → Option ρ → SyncQueue ρ E → Except Fault (List ρ)
  | 0, _, _ => .error .endlessLoop
  | _ + 1, none, _ => .ok []
  | fuel + 1, some r, s => do
      let r ← deref s (some r)
      if (s.readers r).next = s.back then return [r]
      else return r :: (← printLoop fuel (s.readers r).next s)

/-- `operator<<`. -/
def print (fuel : Nat) (s : SyncQueue ρ E) : Except Fault (List ρ) := printLoop fuel s.back s

/-- The loop of `operator<<`, from the reader at the head of `q` on. -/
theorem printLoop_spec {s : SyncQueue ρ E} (q : List ρ) :
    ∀ fuel : Nat, q.length < fuel → (∀ x ∈ q, (s.readers x).inQueue = true) →
      Linked (fun a => (s.readers a).next) (fun a => (s.readers a).previous) q →
      (∀ x ∈ q.tail, s.back ≠ some x) →
      (∀ f ∈ q.getLast?, (s.readers f).next = none ∨ (s.readers f).next = s.back) →
      printLoop fuel q.head? s = .ok q := by
  induction q with
  | nil =>
      intro fuel hfuel _ _ _ _
      obtain ⟨fuel, rfl⟩ : ∃ f, fuel = f + 1 := ⟨fuel - 1, by omega⟩
      rfl
  | cons r q ih =>
      intro fuel hfuel hreg hlinked htail hlast
      obtain ⟨fuel, rfl⟩ : ∃ f, fuel = f + 1 := ⟨fuel - 1, by omega⟩
      have hr := hreg r (by simp)
      rw [List.head?_cons, printLoop, deref_some hr, ok_bind]
      rcases q with _ | ⟨c, q⟩
      · -- the front points nowhere, or at itself when it is alone
        split
        · rfl
        · rename_i hne
          have hnone := (hlast r (by simp)).resolve_right hne
          simp only [List.length_singleton] at hfuel
          obtain ⟨fuel, rfl⟩ : ∃ f, fuel = f + 1 := ⟨fuel - 1, by omega⟩
          rw [hnone, printLoop]
          rfl
      · have hrc : (s.readers r).next = some c := hlinked.adjacent_cons.1
        have hrest : printLoop fuel (some c) s = .ok (c :: q) := by
          apply ih fuel
          · simpa using hfuel
          · exact fun x hx => hreg x (List.mem_cons_of_mem r hx)
          · exact hlinked.right_cons
          · exact fun x hx => htail x (by simpa using Or.inr hx)
          · exact fun f hf => hlast f (by simpa [List.getLast?_cons_cons] using hf)
        rw [if_neg (by rw [hrc]; exact (htail c (by simp)).symm), hrc, hrest]
        rfl

/-- `operator<<` prints the registered readers, from back to front. -/
theorem print_spec {s : SyncQueue ρ E} {l : List ρ} (h : Chained s l) {fuel : Nat}
    (hfuel : l.length < fuel) : print fuel s = .ok l := by
  rw [print, h.back]
  apply printLoop_spec l fuel hfuel (fun x hx => h.registered hx) h.linked
  · intro x hx hb
    rw [h.back] at hb
    exact ne_head_of_mem_tail h.nodup hb hx rfl
  · intro f hf
    rcases h.last f hf with hnone | ⟨hone, hself⟩
    · exact .inl hnone
    · exact .inr (by rw [hself, h.back, hone]; rfl)

end SyncReaderList

omit [DecidableEq ρ] in
/-- No slot of a ring of two is the one after itself. -/
theorem SyncQueue.nextIndex_ne {s : SyncQueue ρ E} (hn : 2 ≤ s.currentSize) (i : Int) :
    s.nextIndex i ≠ i := by
  intro h
  have h0 : 0 ≤ s.nextIndex i := Int.emod_nonneg _ (by omega)
  have hlt : s.nextIndex i < s.currentSize := Int.emod_lt_of_pos _ (by omega)
  rw [h] at h0 hlt
  rw [ReaderWriterQueue.nextIndex, nextIndex] at h
  rcases Int.lt_or_le (i + 1) s.currentSize with hnext | hnext
  · rw [Int.emod_eq_of_lt (by omega) hnext] at h
    omega
  · have hlast : i + 1 = s.currentSize := by omega
    rw [hlast, Int.emod_self] at h
    omega

/-- The rings agree but for `readIndex`. -/
def SyncQueue.SameRing (s s' : SyncQueue ρ E) : Prop :=
  ∃ i, s'.toReaderWriterQueue = { s.toReaderWriterQueue with readIndex := i }

omit [DecidableEq ρ] in
theorem SyncQueue.SameRing.trans {s t u : SyncQueue ρ E} (h : s.SameRing t) (h' : t.SameRing u) :
    s.SameRing u := by
  obtain ⟨i, hi⟩ := h
  obtain ⟨j, hj⟩ := h'
  exact ⟨j, by rw [hj, hi]⟩

namespace Chained

variable {s s' : SyncQueue ρ E} {l : List ρ} {r : ρ}

omit [DecidableEq ρ] in
/-- A list that spans the ring has a front and a reader before it. -/
theorem split_of_spans (hn : 2 ≤ s.currentSize) {f b : ρ} (hf : l.getLast? = some f)
    (hb : l.head? = some b) (heq : s.nextIndex (s.readers f).index = (s.readers b).index) :
    ∃ m g, l = m ++ [g, f] := by
  obtain ⟨m, rfl⟩ := List.getLast?_eq_some_iff.mp hf
  rcases List.eq_nil_or_concat' m with rfl | ⟨m, g, rfl⟩
  · obtain rfl : f = b := by simpa using hb
    exact absurd heq (SyncQueue.nextIndex_ne hn _)
  · exact ⟨m, g, by simp⟩

/-- A reader joins. -/
theorem startAccess (h : Chained s l) (hn : 2 ≤ s.currentSize)
    (hr : (s.readers r).inQueue = false) :
    ∃ s' l', s.startAccess r = .ok s' ∧ Chained s' l' ∧ s.SameRing s' := by
  rcases l.eq_nil_or_concat' with rfl | ⟨m, f, hl⟩
  · obtain ⟨s', hrun, hs'⟩ := SyncReaderList.add_first h hr
    exact ⟨s', _, hrun, hs'.chained, _, hs'.ring⟩
  · have hf : l.getLast? = some f := by simp [hl]
    obtain ⟨b, hb⟩ : ∃ b, l.head? = some b := Option.ne_none_iff_exists'.mp (by simp [hl])
    by_cases heq : s.nextIndex (s.readers f).index = (s.readers b).index
    · obtain ⟨m, g, rfl⟩ := split_of_spans hn hf hb heq
      obtain ⟨s', hrun, hs'⟩ := SyncReaderList.add_spanned h hr hb heq
      exact ⟨s', _, hrun, hs'.chained, _, hs'.ring⟩
    · obtain ⟨s', hrun, hs'⟩ := SyncReaderList.add_front h hr hf hb heq
      exact ⟨s', _, hrun, hs'.chained, _, hs'.ring⟩

/-- A registered reader asks for another slot. -/
theorem moveToFront (h : Chained s l) (hn : 2 ≤ s.currentSize) (hr : r ∈ l) :
    ∃ s' moved l', SyncReaderList.moveToFront s r = .ok (s', moved) ∧ Chained s' l' ∧
      s.SameRing s' := by
  obtain ⟨f, hf⟩ : ∃ f, l.getLast? = some f :=
    Option.ne_none_iff_exists'.mp (by simpa using List.ne_nil_of_mem hr)
  obtain ⟨b, hb⟩ : ∃ b, l.head? = some b :=
    Option.ne_none_iff_exists'.mp (by simpa using List.ne_nil_of_mem hr)
  by_cases heq : s.nextIndex (s.readers f).index = (s.readers b).index
  · by_cases hrb : r = b
    · subst hrb
      obtain ⟨m, g, rfl⟩ := split_of_spans hn hf hb heq
      rcases m with _ | ⟨c, m⟩
      · obtain rfl : g = r := by simpa using hb
        refine ⟨_, _, [g, f], SyncReaderList.moveToFront_pair h heq, ?_, _, rfl⟩
        exact h.congr rfl rfl (fun _ => rfl) (fun _ => rfl) (fun _ => rfl)
      · obtain rfl : c = r := by simpa using hb
        obtain ⟨d, hd⟩ : ∃ d, (m ++ [g]).head? = some d :=
          Option.ne_none_iff_exists'.mp (by simp)
        obtain ⟨s', hrun, hs'⟩ := SyncReaderList.moveToFront_squeeze h hd heq
        exact ⟨s', _, _, hrun, hs'.chained, _, hs'.ring⟩
    · exact ⟨s, _, l, SyncReaderList.moveToFront_spanned h hr hf hb heq hrb, h, _, rfl⟩
  · obtain ⟨s', c, hrun, -, hs'⟩ := SyncReaderList.moveToFront_advance h hr hf hb heq
    exact ⟨s', _, _, hrun, hs'.chained, _, hs'.ring⟩

/-- `removeSlot` stores two flags; the slot it reads may be unset. -/
theorem removeSlot (h : Chained s l) (r : ρ) :
    s.removeSlot r = .error .unsetSlot ∨
      ∃ s' result, s.removeSlot r = .ok (s', result) ∧ Chained s' l ∧
        s.SameRing s' := by
  have hflags : ∀ b c, Chained ((s.setIsEmpty r b).setIsDone r c) l := by
    intro b c
    exact h.congr rfl rfl (by simp) (by simp) (by simp)
  unfold SyncQueue.removeSlot SyncQueue.isEmpty
  dsimp only
  split
  · exact .inr ⟨_, _, rfl, hflags _ _, _, rfl⟩
  · split
    · exact .inl rfl
    · exact .inr ⟨_, _, rfl, hflags _ _, _, rfl⟩
    · exact .inr ⟨_, _, rfl, hflags _ _, _, rfl⟩

/-- A registered reader asks for its next entry. -/
theorem remove (h : Chained s l) (hn : 2 ≤ s.currentSize) (hr : r ∈ l) :
    s.remove r = .error .unsetSlot ∨
      ∃ s' result l', s.remove r = .ok (s', result) ∧ Chained s' l' ∧
        s.SameRing s' := by
  unfold SyncQueue.remove
  split
  · rcases h.removeSlot r with hfault | ⟨s', result, hrun, hs', hring⟩
    · exact .inl hfault
    · exact .inr ⟨s', result, l, hrun, hs', hring⟩
  · obtain ⟨s₁, moved, l₁, hmove, hs₁, hring₁⟩ := h.moveToFront hn hr
    rw [hmove, ok_bind]
    cases moved with
    | false => exact .inr ⟨s₁, none, l₁, rfl, hs₁, hring₁⟩
    | true =>
        rcases hs₁.removeSlot r with hfault | ⟨s', result, hrun, hs', hring⟩
        · exact .inl hfault
        · exact .inr ⟨s', result, l₁, hrun, hs', hring₁.trans hring⟩

/-- A reader leaves. -/
theorem endAccess (h : Chained s l) (r : ρ) :
    ∃ s' l', s.endAccess r = .ok s' ∧ Chained s' l' ∧ s.SameRing s' := by
  cases hin : (s.readers r).inQueue with
  | false => exact ⟨s, l, SyncReaderList.remove_unregistered hin, h, _, rfl⟩
  | true =>
      rcases Tickets.position ((h.inQueue r).mp hin) with rfl | ⟨m, g, rfl⟩ | ⟨p, m, f, rfl⟩
      · obtain ⟨s', hrun, hs'⟩ := SyncReaderList.remove_lone h
        exact ⟨s', _, hrun, hs'.chained, _, hs'.ring⟩
      · obtain ⟨s', hrun, hs'⟩ := SyncReaderList.remove_front h
        exact ⟨s', _, hrun, hs'.chained, _, hs'.ring⟩
      · cases hdone : (s.readers r).isDone with
        | true =>
            obtain ⟨c, q, hq⟩ : ∃ c q, m ++ [f] = c :: q := by cases m <;> simp
            rw [hq] at h
            obtain ⟨s', hrun, hs'⟩ := SyncReaderList.remove_done h hdone
            exact ⟨s', _, hrun, hs'.chained, _, hs'.ring⟩
        | false =>
            rcases List.eq_nil_or_concat' m with rfl | ⟨m, g, rfl⟩
            · obtain ⟨s', hrun, hs'⟩ := SyncReaderList.remove_waiting_below h hdone
              exact ⟨s', _, hrun, hs'.chained, _, hs'.ring⟩
            · rw [List.append_assoc] at h
              obtain ⟨s', hrun, hs'⟩ := SyncReaderList.remove_waiting_far h hdone
              exact ⟨s', _, hrun, hs'.chained, _, hs'.ring⟩

end Chained

namespace ReaderWriterQueue

/-- The copy loop changes nothing but the slots, and fails only on an unset one. -/
theorem copyLoop_cases (old : Int → Cell E) (oldSize : Nat) (adjustment : Int) (fuel : Nat) :
    ∀ (i : Int) (q : ReaderWriterQueue E),
      copyLoop old oldSize adjustment fuel i q = .error .unsetSlot ∨
        copyLoop old oldSize adjustment fuel i q = .error .endlessLoop ∨
          ∃ data, copyLoop old oldSize adjustment fuel i q = .ok { q with queueData := data } := by
  induction fuel with
  | zero => exact fun i q => .inr (.inl rfl)
  | succ fuel ih =>
      intro i q
      rw [copyLoop]
      split
      · cases hcell : old i with
        | unset => exact .inl rfl
        | nullEntry => exact ih _ _
        | entry e =>
            dsimp only
            generalize (if i > q.writeIndex then i + adjustment else i) = j
            obtain ⟨data, hdata⟩ : ∃ data,
                (if q.dataEntries.getQueueEntry q.currentSize j e then q.copyTo e j
                  else { q with queueData := Function.update q.queueData j .nullEntry }) =
                { q with queueData := data } := by
              split <;> exact ⟨_, rfl⟩
            rw [hdata]
            exact ih _ _
      · exact .inr (.inr ⟨q.queueData, rfl⟩)

theorem resize_cases (fuel : Nat) (q : ReaderWriterQueue E) (size : Nat) :
    q.resize fuel size = .error .unsetSlot ∨ q.resize fuel size = .error .endlessLoop ∨
      ∃ q', q.resize fuel size = .ok q' ∧ q.currentSize ≤ q'.currentSize ∧
        q'.writeIndex = q.writeIndex := by
  unfold resize
  split
  · exact .inr (.inr ⟨q, rfl, Nat.le_refl _, rfl⟩)
  · rename_i hsize
    rcases copyLoop_cases q.queueData q.currentSize ((size : Int) - q.currentSize) fuel q.readIndex
      { q with queueData := fun _ => .unset, currentSize := size } with hrun | hrun | ⟨data, hrun⟩
    · exact .inl (by simp only [hrun]; rfl)
    · exact .inr (.inl (by simp only [hrun]; rfl))
    · right
      right
      simp only [hrun, ok_bind, pure_eq_ok]
      refine ⟨_, rfl, ?_⟩
      split <;>
      · constructor
        · show q.currentSize ≤ size
          omega
        · rfl

/-- What a resize that grows the ring does to the indices. -/
theorem indices_of_resize {q q' : ReaderWriterQueue E} {fuel size : Nat}
    (hlt : q.currentSize < size) (h : q.resize fuel size = .ok q') :
    q'.currentSize = size ∧ q'.writeIndex = q.writeIndex ∧
      q'.readIndex = if q.readIndex ≥ q.writeIndex + 1 then
        q.readIndex + ((size : Int) - q.currentSize) else q.readIndex := by
  rw [resize, if_neg (by omega)] at h
  dsimp only at h
  rcases copyLoop_cases q.queueData q.currentSize ((size : Int) - q.currentSize) fuel q.readIndex
    { q with queueData := fun _ => .unset, currentSize := size } with hrun | hrun | ⟨data, hrun⟩
  · rw [hrun] at h
    cases h
  · rw [hrun] at h
    cases h
  · rw [hrun] at h
    rw [← Except.ok.inj h]
    dsimp only
    split <;> exact ⟨rfl, rfl, rfl⟩

end ReaderWriterQueue

omit [DecidableEq ρ] in
theorem SyncQueue.indexLoop_cases (currentSize oldSize : Nat) (readIndex writeIndex : Int)
    (fuel : Nat) : ∀ i : Int,
      indexLoop currentSize oldSize readIndex writeIndex fuel i = .ok () ∨
        indexLoop currentSize oldSize readIndex writeIndex fuel i = .error .endlessLoop := by
  induction fuel with
  | zero => exact fun i => .inr rfl
  | succ fuel ih =>
      intro i
      rw [indexLoop]
      split
      · exact ih _
      · exact .inl rfl

/-- A resize leaves the pointers alone. -/
theorem Chained.resize {s : SyncQueue ρ E} {l : List ρ} (h : Chained s l) {fuel : Nat}
    (hfuel : l.length < fuel) (size : Nat) :
    s.resize fuel size = .error .unsetSlot ∨ s.resize fuel size = .error .endlessLoop ∨
      ∃ s', s.resize fuel size = .ok s' ∧ Chained s' l ∧ s.currentSize ≤ s'.currentSize ∧
        s'.writeIndex = s.writeIndex := by
  unfold SyncQueue.resize
  rcases s.toReaderWriterQueue.resize_cases fuel size with hring | hring | ⟨q, hring, hgrown⟩
  · exact .inl (by rw [hring]; rfl)
  · exact .inr (.inl (by rw [hring]; rfl))
  · simp only [hring, ok_bind]
    rcases SyncQueue.indexLoop_cases q.currentSize s.currentSize s.readIndex q.writeIndex fuel
      s.readIndex with hloop | hloop
    · have hchained : Chained { s with toReaderWriterQueue := q } l :=
        h.congr rfl rfl (fun _ => rfl) (fun _ => rfl) (fun _ => rfl)
      simp only [hloop, ok_bind]
      rw [SyncReaderList.adjust_spec hchained _ _ hfuel]
      exact .inr (.inr ⟨_, rfl, SyncReaderList.chained_adjustAll hchained _ _ _, hgrown⟩)
    · exact .inr (.inl (by simp only [hloop]; rfl))

omit [DecidableEq ρ] in
/-- `add` leaves the readers alone. -/
theorem SyncQueue.add_ring (s : SyncQueue ρ E) (e : E) :
    ∃ q, (s.add e).1 = { s with toReaderWriterQueue := q } ∧ q.currentSize = s.currentSize ∧
      q.readIndex = s.readIndex ∧
      (q.writeIndex = s.writeIndex ∨ q.writeIndex = s.nextIndex s.writeIndex) := by
  refine ⟨(s.toReaderWriterQueue.add e).1, rfl, ?_⟩
  have hinsert : (s.toReaderWriterQueue.insert e).1.currentSize = s.currentSize ∧
      (s.toReaderWriterQueue.insert e).1.readIndex = s.readIndex ∧
      (s.toReaderWriterQueue.insert e).1.writeIndex = s.writeIndex := by
    unfold ReaderWriterQueue.insert
    split
    · split <;> exact ⟨rfl, rfl, rfl⟩
    · exact ⟨rfl, rfl, rfl⟩
  unfold ReaderWriterQueue.add ReaderWriterQueue.tryInsert
  dsimp only
  split
  · exact ⟨rfl, rfl, .inl rfl⟩
  · rename_i hfull
    have hnext : s.toReaderWriterQueue.isFull = s.nextIndex s.writeIndex := by
      unfold ReaderWriterQueue.isFull at hfull ⊢
      dsimp only at hfull ⊢
      split
      · rename_i heq
        exact absurd (if_pos heq) hfull
      · rfl
    split
    · split
      · exact ⟨hinsert.1, hinsert.2.1, .inl hinsert.2.2⟩
      · exact ⟨hinsert.1, hinsert.2.1, .inr hnext⟩
    · split
      · exact ⟨hinsert.1, hinsert.2.1, .inl hinsert.2.2⟩
      · rename_i hneg
        exact absurd (show QueueConstants.CANNOT_ADD < 0 by decide) hneg

/-- What every reachable state keeps. -/
structure SyncQueue.Listed (s : SyncQueue ρ E) (l : List ρ) : Prop where
  size : 2 ≤ s.currentSize
  write_nonneg : 0 ≤ s.writeIndex
  write_lt : s.writeIndex < s.currentSize
  chained : Chained s l

omit [DecidableEq ρ] in
theorem SyncQueue.Listed.of_sameRing {s s' : SyncQueue ρ E} {l l' : List ρ} (h : s.Listed l)
    (hring : s.SameRing s') (hchained : Chained s' l') : s'.Listed l' := by
  obtain ⟨i, hi⟩ := hring
  have hsize : s'.currentSize = s.currentSize := by rw [hi]
  have hwrite : s'.writeIndex = s.writeIndex := by rw [hi]
  constructor
  · rw [hsize]
    exact h.size
  · rw [hwrite]
    exact h.write_nonneg
  · rw [hwrite, hsize]
    exact h.write_lt
  · exact hchained

/-- What one call preserves. -/
theorem SyncQueue.Listed.step {s s' : SyncQueue ρ E} {l : List ρ} {c : QueueCall ρ E}
    (h : s.Listed l) (hstep : s.callStep c s') : ∃ l', s'.Listed l' := by
  have hl := h.chained
  cases c with
  | add e =>
      obtain rfl : s' = (s.add e).1 := hstep
      obtain ⟨q, hadd, hsize, -, hwrite⟩ := s.add_ring e
      have hn := h.size
      have hnext0 : 0 ≤ s.nextIndex s.writeIndex := Int.emod_nonneg _ (by omega)
      have hnextlt : s.nextIndex s.writeIndex < s.currentSize :=
        Int.emod_lt_of_pos _ (by omega)
      have h0 := h.write_nonneg
      have hlt := h.write_lt
      rw [hadd]
      refine ⟨l, ?_, ?_, ?_, ?_⟩
      · show 2 ≤ q.currentSize
        omega
      · show 0 ≤ q.writeIndex
        omega
      · show q.writeIndex < q.currentSize
        omega
      · exact hl.congr rfl rfl (fun _ => rfl) (fun _ => rfl) (fun _ => rfl)
  | startAccess r =>
      obtain ⟨hr, hrun⟩ := hstep
      obtain ⟨u, l', hrun', hu, hring⟩ := hl.startAccess h.size hr
      obtain rfl := Except.ok.inj (hrun.symm.trans hrun')
      exact ⟨l', h.of_sameRing hring hu⟩
  | remove r =>
      obtain ⟨hr, result, hrun⟩ := hstep
      rcases hl.remove h.size ((hl.inQueue r).mp hr) with
        hfault | ⟨u, result', l', hrun', hu, hring⟩
      · rw [hrun] at hfault
        cases hfault
      · obtain ⟨rfl, -⟩ := Prod.mk.inj (Except.ok.inj (hrun.symm.trans hrun'))
        exact ⟨l', h.of_sameRing hring hu⟩
  | endAccess r =>
      obtain ⟨u, l', hrun', hu, hring⟩ := hl.endAccess r
      obtain rfl := Except.ok.inj (Eq.symm hstep |>.trans hrun')
      exact ⟨l', h.of_sameRing hring hu⟩
  | resize size =>
      obtain ⟨F, hrun⟩ := hstep
      have hrun := hrun (max F (l.length + 1)) (Nat.le_max_left _ _)
      have hlength : l.length < max F (l.length + 1) := by omega
      rcases hl.resize hlength size with
        hfault | hfault | ⟨u, hrun', hu, hsize, hwrite⟩
      · rw [hrun] at hfault
        cases hfault
      · rw [hrun] at hfault
        cases hfault
      · obtain rfl := Except.ok.inj (hrun.symm.trans hrun')
        have hn := h.size
        have hlt := h.write_lt
        refine ⟨l, by omega, ?_, by omega, hu⟩
        rw [hwrite]
        exact h.write_nonneg

/-- The pointers of the list, and the loop that follows them. -/
structure ListShape (s : SyncQueue ρ E) (l : List ρ) : Prop where
  null_iff : s.front = none ↔ s.back = none
  /-- Following `next` from `back` visits the readers of `l`. -/
  visits : ∀ fuel > l.length, SyncReaderList.print fuel s = .ok l
  once : l.Nodup
  registered : ∀ r, r ∈ l ↔ (s.readers r).inQueue = true
  ends : l.getLast? = s.front
  last : ∀ f, s.front = some f →
    (s.readers f).next = none ∨ (l = [f] ∧ (s.readers f).next = some f)
  previous : ∀ r, (s.readers r).inQueue = true → s.back ≠ some r →
    ∃ p, (s.readers r).previous = some p ∧ (s.readers p).inQueue = true ∧
      (s.readers p).next = some r

/-- No call follows a null pointer or a pointer to a reader that is not registered. -/
structure FollowsReaders (s : SyncQueue ρ E) (l : List ρ) : Prop where
  startAccess : ∀ r, (s.readers r).inQueue = false → ∃ s', s.startAccess r = .ok s'
  remove : ∀ r, (s.readers r).inQueue = true →
    s.remove r = .error .unsetSlot ∨ ∃ s', s.remove r = .ok s'
  endAccess : ∀ r, ∃ s', s.endAccess r = .ok s'
  adjust : ∀ adjustment readIndex, ∀ fuel > l.length,
    ∃ s', SyncReaderList.adjust fuel s adjustment readIndex = .ok s'
  resize : ∀ size, ∀ fuel > l.length, s.resize fuel size = .error .unsetSlot ∨
    s.resize fuel size = .error .endlessLoop ∨ ∃ s', s.resize fuel size = .ok s'

namespace Chained

variable {s : SyncQueue ρ E} {l : List ρ}

theorem listShape (h : Chained s l) : ListShape s l where
  null_iff := by
    rw [h.front, h.back, List.getLast?_eq_none_iff, List.head?_eq_none_iff]
  visits fuel hfuel := SyncReaderList.print_spec h hfuel
  once := h.nodup
  registered r := (h.inQueue r).symm
  ends := h.front.symm
  last f hf := h.last f (h.front.symm.trans hf)
  previous := by
    intro r hr hback
    obtain ⟨p, q, rfl⟩ := List.append_of_mem ((h.inQueue r).mp hr)
    rcases List.eq_nil_or_concat' p with rfl | ⟨p, a, rfl⟩
    · exact absurd h.back hback
    · have hlinked := h.linked
      rw [List.append_assoc] at hlinked
      exact ⟨a, hlinked.adjacent.2, h.registered (by simp), hlinked.adjacent.1⟩

theorem followsReaders (h : Chained s l) (hn : 2 ≤ s.currentSize) : FollowsReaders s l where
  startAccess := by
    intro r hr
    obtain ⟨s', -, hrun, -⟩ := h.startAccess hn hr
    exact ⟨s', hrun⟩
  remove := by
    intro r hr
    rcases h.remove hn ((h.inQueue r).mp hr) with hfault | ⟨s', result, -, hrun, -⟩
    · exact .inl hfault
    · exact .inr ⟨(s', result), hrun⟩
  endAccess := by
    intro r
    obtain ⟨s', -, hrun, -⟩ := h.endAccess r
    exact ⟨s', hrun⟩
  adjust adjustment readIndex fuel hfuel :=
    ⟨_, SyncReaderList.adjust_spec h adjustment readIndex hfuel⟩
  resize := by
    intro size fuel hfuel
    rcases h.resize hfuel size with hfault | hfault | ⟨s', hrun, -⟩
    · exact .inl hfault
    · exact .inr (.inl hfault)
    · exact .inr (.inr ⟨s', hrun⟩)

end Chained

theorem SyncQueue.listed_of_reachable {queueSize : Nat} (hn : 2 ≤ queueSize)
    {dataEntries : ProcessingQueueDataArray E} {s : SyncQueue ρ E}
    (h : (system ρ queueSize dataEntries).Reachable s) : ∃ l, s.Listed l := by
  apply h.invariant (I := fun s => ∃ l, s.Listed l)
  · rintro s rfl
    refine ⟨[], hn, Int.le_refl 0, ?_, (Represents.new dataEntries).chained⟩
    show (0 : Int) < queueSize
    omega
  · rintro s c s' ⟨l, hl⟩ hstep
    exact hl.step hstep

/-- The registered readers form a list, and no call leaves it. -/
theorem list_shape {queueSize : Nat} (hn : 2 ≤ queueSize)
    (dataEntries : ProcessingQueueDataArray E) {s : SyncQueue ρ E}
    (h : (SyncQueue.system ρ queueSize dataEntries).Reachable s) :
    ∃ l, ListShape s l ∧ FollowsReaders s l := by
  obtain ⟨l, hl⟩ := SyncQueue.listed_of_reachable hn h
  exact ⟨l, hl.chained.listShape, hl.chained.followsReaders hl.size⟩

/-! ## Runs on given calls -/

omit [DecidableEq ρ] in
theorem SyncQueue.indexLoop_mono (currentSize oldSize : Nat) (readIndex writeIndex : Int)
    (fuel : Nat) : ∀ i : Int,
      indexLoop currentSize oldSize readIndex writeIndex fuel i = .ok () →
      ∀ fuel' ≥ fuel, indexLoop currentSize oldSize readIndex writeIndex fuel' i = .ok () := by
  induction fuel with
  | zero =>
      intro i h
      cases h
  | succ fuel ih =>
      intro i h fuel' hfuel
      obtain ⟨fuel', rfl⟩ : ∃ f, fuel' = f + 1 := ⟨fuel' - 1, by omega⟩
      rw [indexLoop] at h ⊢
      split at h
      · rename_i hmore
        rw [if_pos hmore]
        exact ih _ h fuel' (by omega)
      · rename_i hdone
        rw [if_neg hdone]

theorem SyncReaderList.adjustLoop_mono (adjustment readIndex : Int) (fuel : Nat) :
    ∀ (p : Option ρ) (s s' : SyncQueue ρ E),
      adjustLoop adjustment readIndex fuel p s = .ok s' →
      ∀ fuel' ≥ fuel, adjustLoop adjustment readIndex fuel' p s = .ok s' := by
  induction fuel with
  | zero =>
      intro p s s' h
      cases h
  | succ fuel ih =>
      intro p s s' h fuel' hfuel
      obtain ⟨fuel', rfl⟩ : ∃ f, fuel' = f + 1 := ⟨fuel' - 1, by omega⟩
      cases p with
      | none => exact h
      | some r =>
          cases hin : (s.readers r).inQueue with
          | false =>
              rw [adjustLoop, deref, if_neg (by simp [hin])] at h
              cases h
          | true =>
              rw [adjustLoop_succ _ _ _ hin] at h ⊢
              split at h
              · rename_i hlast
                rw [if_pos hlast]
                exact h
              · rename_i hmore
                rw [if_neg hmore]
                exact ih _ _ _ h fuel' (by omega)

namespace SyncQueue

/-- More fuel than enough changes nothing. -/
theorem resize_mono {s s' : SyncQueue ρ E} {fuel size : Nat}
    (h : s.resize fuel size = .ok s') : ∀ fuel' ≥ fuel, s.resize fuel' size = .ok s' := by
  intro fuel' hfuel
  obtain ⟨q, hring⟩ : ∃ q, s.toReaderWriterQueue.resize fuel size = .ok q := by
    rcases s.toReaderWriterQueue.resize_cases fuel size with hq | hq | ⟨q, hq, -⟩
    · rw [resize, hq] at h
      cases h
    · rw [resize, hq] at h
      cases h
    · exact ⟨q, hq⟩
  have hring' : s.toReaderWriterQueue.resize fuel' size = .ok q := by
    unfold ReaderWriterQueue.resize at hring ⊢
    split at hring
    · rename_i hsize
      rw [if_pos hsize]
      exact hring
    · rename_i hsize
      rw [if_neg hsize]
      cases hcopy : ReaderWriterQueue.copyLoop s.queueData s.currentSize
          ((size : Int) - s.currentSize) fuel s.readIndex
          { s.toReaderWriterQueue with queueData := fun _ => .unset, currentSize := size } with
      | error f =>
          simp only [hcopy] at hring
          cases hring
      | ok q₁ =>
          have hcopy' := ReaderWriterQueue.copyLoop_mono _ _ _ _ _ _ _ hcopy fuel' hfuel
          simp only [hcopy, hcopy'] at hring ⊢
          exact hring
  unfold resize at h ⊢
  rw [hring] at h
  rw [hring']
  simp only [ok_bind] at h ⊢
  rcases indexLoop_cases q.currentSize s.currentSize s.readIndex q.writeIndex fuel
    s.readIndex with hloop | hloop
  · rw [hloop] at h
    rw [indexLoop_mono _ _ _ _ _ _ hloop fuel' hfuel]
    exact SyncReaderList.adjustLoop_mono _ _ _ _ _ _ h fuel' hfuel
  · rw [hloop] at h
    cases h

/-- One call, its loops with the given fuel. -/
def call (fuel : Nat) (s : SyncQueue ρ E) : QueueCall ρ E → Option (SyncQueue ρ E)
  | .add entry => some (s.add entry).1
  | .startAccess r =>
      if (s.readers r).inQueue = false then (s.startAccess r).toOption else none
  | .remove r =>
      if (s.readers r).inQueue = true then (s.remove r).toOption.map Prod.fst else none
  | .endAccess r => (s.endAccess r).toOption
  | .resize newSize => (s.resize fuel newSize).toOption

def callAll (fuel : Nat) : SyncQueue ρ E → List (QueueCall ρ E) → Option (SyncQueue ρ E)
  | s, [] => some s
  | s, c :: cs => (s.call fuel c).bind fun s => callAll fuel s cs

theorem callStep_of_call {fuel : Nat} {s s' : SyncQueue ρ E} {c : QueueCall ρ E}
    (h : s.call fuel c = some s') : s.callStep c s' := by
  have hok : ∀ {x : Except Fault (SyncQueue ρ E)}, x.toOption = some s' → x = .ok s' := by
    intro x hx
    cases x with
    | error f => cases hx
    | ok u => exact congrArg _ (Option.some.inj hx)
  cases c with
  | add e => exact (Option.some.inj h).symm
  | startAccess r =>
      simp only [call] at h
      split at h
      · rename_i hr
        exact ⟨hr, hok h⟩
      · cases h
  | remove r =>
      simp only [call] at h
      split at h
      · rename_i hr
        cases hrun : s.remove r with
        | error f =>
            rw [hrun] at h
            cases h
        | ok p =>
            rw [hrun] at h
            obtain rfl : p.1 = s' := Option.some.inj h
            exact ⟨hr, p.2, hrun⟩
      · cases h
  | endAccess r => exact hok h
  | resize size => exact ⟨fuel, resize_mono (hok h)⟩

/-- Calls that can be made in order lead from a reachable state to another. -/
theorem reachable_callAll {queueSize : Nat} {dataEntries : ProcessingQueueDataArray E}
    (fuel : Nat) (cs : List (QueueCall ρ E)) {s s' : SyncQueue ρ E}
    (h : (system ρ queueSize dataEntries).Reachable s) (hs' : s.callAll fuel cs = some s') :
    (system ρ queueSize dataEntries).Reachable s' := by
  induction cs generalizing s with
  | nil =>
      obtain rfl : s = s' := Option.some.inj hs'
      exact h
  | cons c cs ih =>
      obtain ⟨u, hu, hs'⟩ := Option.bind_eq_some_iff.mp hs'
      exact ih (h.step (callStep_of_call hu)) hs'

/-- The same for calls that all meet a condition, from any initial state. -/
theorem reachable_follow {S : System (SyncQueue ρ E) (QueueCall ρ E)} (hS : S.step = callStep)
    {C : SyncQueue ρ E → QueueCall ρ E → Prop} [∀ s c, Decidable (C s c)]
    (fuel : Nat) (cs : List (QueueCall ρ E)) {s s' : SyncQueue ρ E}
    (h : (S.restrict C).Reachable s) (hs' : System.follow (call fuel) C s cs = some s') :
    (S.restrict C).Reachable s' := by
  induction cs generalizing s with
  | nil =>
      obtain rfl : s = s' := Option.some.inj hs'
      exact h
  | cons c cs ih =>
      unfold System.follow at hs'
      split at hs'
      · rename_i hC
        obtain ⟨u, hu, hs'⟩ := Option.bind_eq_some_iff.mp hs'
        have hstep := callStep_of_call hu
        rw [← hS] at hstep
        exact ih (h.step ⟨hstep, hC⟩) hs'
      · cases hs'

end SyncQueue

/-- A list that spanned the ring, lost its front, and grew. -/
theorem list_shape_of_leavers :
    ∃ s : SyncQueue (Fin 4) Nat, s.front = some 2 ∧ s.back = some 1 ∧ s.currentSize = 5 ∧
      ∃ l, ListShape s l ∧ FollowsReaders s l := by
  have hcalls : ((SyncQueue.new (Fin 4) 3 (.uniform Nat 8)).callAll 9
      [.startAccess 0, .startAccess 1, .startAccess 2, .startAccess 3, .add 10, .remove 0,
        .remove 0, .endAccess 2, .startAccess 2, .endAccess 0, .resize 5]).map
      (fun s => (s.front, s.back, s.currentSize)) = some (some 2, some 1, 5) := by decide
  obtain ⟨s, hcalls, hs⟩ := Option.map_eq_some_iff.mp hcalls
  simp only [Prod.mk.injEq] at hs
  exact ⟨s, hs.1, hs.2.1, hs.2.2,
    list_shape (by decide) _ (SyncQueue.reachable_callAll 9 _ (.start rfl) hcalls)⟩

end HPQueue
