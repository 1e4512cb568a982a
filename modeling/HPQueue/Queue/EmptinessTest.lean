import HPQueue.Library.Transition
import HPQueue.Queue.Refinement

/-!
# The emptiness test without a lock

`isEmpty` compares `writeIndex` with the reader's own index, each adjusted by its
own call of `adjustIndexForComparison`, and each of the two calls loads
`readIndex` for itself.  No lock is held, so writers and the locked sections of
other readers run between the loads.  `ProbedQueue` is a queue whose readers may
all be in the middle of such a test: every load is a step of its own, everything
else is as atomic as its lock makes it.

A probe writes down the true answer at each moment of its call.  The value that
the comparison comes to is one of these answers exactly when the loads are
`Consistent`: `readIndex` does not come round the end of the ring between its two
loads, nor pass the loaded `writeIndex` before it is compared with it.

## Main results

* `outcome_iff` — in every state of every schedule, the outcome of a probe is a
  true answer exactly when its loads are consistent.
* `unwritten_slot_reported` — a schedule whose outcome never was true.
-/

namespace HPQueue

open Library.Ring Library.Transition

/-- A call of `isEmpty` under way. -/
structure Probe where
  /-- Whether `removeSlot` made the call, and stores the answer in `isDone`. -/
  removes : Bool
  /-- `writeIndex`, once loaded. -/
  writeIndex : Option Int
  /-- `readIndex`, once loaded to adjust `writeIndex`. -/
  writeBase : Option Int
  /-- `readIndex`, once loaded to adjust the reader's index. -/
  readerBase : Option Int
  /-- What `readIndex` was when `writeIndex` was loaded. -/
  baseAtWrite : Int
  /-- `readIndex` was loaded for the reader's index first. -/
  readerFirst : Bool
  /-- Whether the slot was unwritten, at each moment of the call. -/
  answers : List Bool

namespace Probe

/-- A call that begins when the slot is unwritten, or not. -/
def new (removes empty : Bool) : Probe where
  removes := removes
  writeIndex := none
  writeBase := none
  readerBase := none
  baseAtWrite := 0
  readerFirst := false
  answers := [empty]

/-- `readIndex` passed the loaded `writeIndex` before it was loaded for it. -/
def Passed (currentSize : Nat) (p : Probe) (writeIndex writeBase : Int) : Prop :=
  adjustIndexForComparison currentSize writeIndex p.baseAtWrite <
    adjustIndexForComparison currentSize writeBase p.baseAtWrite

instance (currentSize : Nat) (p : Probe) (writeIndex writeBase : Int) :
    Decidable (p.Passed currentSize writeIndex writeBase) :=
  inferInstanceAs (Decidable (_ < _))

/-- The condition on the loads.  For a slot written before the call: `readIndex`
did not come round between its load for the reader and its load for
`writeIndex`.  For a slot still unwritten: it did not come round the other way,
and it did not pass the loaded `writeIndex`, unless it came round as well. -/
def Consistent (currentSize : Nat) (p : Probe) (writeIndex writeBase readerBase : Int) : Prop :=
  (p.answers.head? = some false → ¬ (p.readerFirst = true ∧ writeBase < readerBase)) ∧
  (p.answers.getLast? = some true →
    if p.Passed currentSize writeIndex writeBase then
      p.readerFirst = true ∧ writeBase < readerBase
    else ¬ (p.readerFirst = false ∧ readerBase < writeBase))

instance (currentSize : Nat) (p : Probe) (writeIndex writeBase readerBase : Int) :
    Decidable (p.Consistent currentSize writeIndex writeBase readerBase) :=
  inferInstanceAs (Decidable (_ ∧ _))

end Probe

/-- A queue and the probes of its readers. -/
structure ProbedQueue (ρ E : Type) where
  queue : SyncQueue ρ E
  probe : ρ → Option Probe

/-- The atomic steps: the calls of clients, the locked sections of readers, and
the loads of `isEmpty`. -/
inductive ProbeStep (ρ E : Type)
  | add (entry : E)
  | startAccess (r : ρ)
  /-- `remove` of a reader that is done with its slot. -/
  | moveToFront (r : ρ)
  /-- `remove` of a reader that is not, and checks its slot again. -/
  | removeSlot (r : ρ)
  /-- A call of `isEmpty` from outside, as `isWork` makes it. -/
  | isEmpty (r : ρ)
  | loadWriteIndex (r : ρ)
  | loadWriteBase (r : ρ)
  | loadReaderBase (r : ρ)
  /-- The comparison, and what is stored of it. -/
  | compare (r : ρ)

namespace ProbedQueue

variable {ρ E : Type} [DecidableEq ρ]

def new (ρ : Type) (queueSize : Nat) (dataEntries : ProcessingQueueDataArray E) :
    ProbedQueue ρ E where
  queue := .new ρ queueSize dataEntries
  probe := fun _ => none

def setProbe (σ : ProbedQueue ρ E) (r : ρ) (p : Option Probe) : ProbedQueue ρ E :=
  { σ with probe := Function.update σ.probe r p }

/-- What the comparison of `r` comes to, once everything is loaded. -/
def outcome (σ : ProbedQueue ρ E) (r : ρ) : Option Bool := do
  let p ← σ.probe r
  let writeIndex ← p.writeIndex
  let writeBase ← p.writeBase
  let readerBase ← p.readerBase
  return decide (adjustIndexForComparison σ.queue.currentSize writeIndex writeBase ≤
    adjustIndexForComparison σ.queue.currentSize (σ.queue.readers r).index readerBase)

/-- The true answer of every probe at this moment is written down. -/
def observe (σ : ProbedQueue ρ E) : ProbedQueue ρ E :=
  { σ with
    probe := fun r => (σ.probe r).map fun p =>
      { p with answers := p.answers ++ [σ.queue.slotIsEmpty r] } }

/-- Begins a call of `isEmpty`. -/
def begin (σ : ProbedQueue ρ E) (r : ρ) (removes : Bool) : ProbedQueue ρ E :=
  σ.setProbe r (some (.new removes (σ.queue.slotIsEmpty r)))

/-- The end of `isEmpty`, and the store of `removeSlot` after it. -/
def finish (σ : ProbedQueue ρ E) (r : ρ) (removes empty : Bool) : ProbedQueue ρ E :=
  let queue := σ.queue.setIsEmpty r empty
  let queue := if removes then queue.setIsDone r (!empty) else queue
  ({ σ with queue := queue } : ProbedQueue ρ E).setProbe r none

/-- One step, if it is enabled.  A reader makes one call at a time, and reads only
while it is in the list. -/
def act (σ : ProbedQueue ρ E) : ProbeStep ρ E → Option (ProbedQueue ρ E)
  | .add entry => some { σ with queue := (σ.queue.add entry).1 }
  | .startAccess r =>
      if (σ.queue.readers r).inQueue = false then
        match σ.queue.startAccess r with
        | .ok queue => some { σ with queue := queue }
        | .error _ => none
      else none
  | .moveToFront r =>
      if (σ.queue.readers r).inQueue = true ∧ (σ.queue.readers r).isDone = true ∧
          (σ.probe r).isNone then
        match SyncReaderList.moveToFront σ.queue r with
        | .ok (queue, moved) =>
            let σ : ProbedQueue ρ E := { σ with queue := queue }
            some (if moved then σ.begin r true else σ)
        | .error _ => none
      else none
  | .removeSlot r =>
      if (σ.queue.readers r).inQueue = true ∧ (σ.queue.readers r).isDone = false ∧
          (σ.probe r).isNone then
        some (σ.begin r true)
      else none
  | .isEmpty r =>
      if (σ.queue.readers r).inQueue = true ∧ (σ.probe r).isNone then some (σ.begin r false)
      else none
  | .loadWriteIndex r => do
      let p ← σ.probe r
      if p.writeIndex.isNone then
        σ.setProbe r (some { p with
          writeIndex := some σ.queue.writeIndex
          baseAtWrite := σ.queue.readIndex })
      else none
  | .loadWriteBase r => do
      let p ← σ.probe r
      if p.writeIndex.isSome ∧ p.writeBase.isNone then
        σ.setProbe r (some { p with
          writeBase := some σ.queue.readIndex
          readerFirst := p.readerBase.isSome })
      else none
  | .loadReaderBase r => do
      let p ← σ.probe r
      if p.readerBase.isNone then
        σ.setProbe r (some { p with readerBase := some σ.queue.readIndex })
      else none
  | .compare r => do
      let p ← σ.probe r
      let empty ← σ.outcome r
      σ.finish r p.removes empty

/-- A step, and the true answers after it. -/
def next (σ : ProbedQueue ρ E) (a : ProbeStep ρ E) : Option (ProbedQueue ρ E) :=
  (σ.act a).map observe

/-- The schedules of a queue of the given size. -/
def system (ρ : Type) [DecidableEq ρ] (queueSize : Nat)
    (dataEntries : ProcessingQueueDataArray E) : System (ProbedQueue ρ E) (ProbeStep ρ E) :=
  .ofFunction (· = .new ρ queueSize dataEntries) next

/-- The loads of `r`, once all are made, are consistent. -/
def Consistent (σ : ProbedQueue ρ E) (r : ρ) : Prop :=
  ∀ p ∈ σ.probe r, ∀ writeIndex ∈ p.writeIndex, ∀ writeBase ∈ p.writeBase,
    ∀ readerBase ∈ p.readerBase,
      p.Consistent σ.queue.currentSize writeIndex writeBase readerBase

instance (σ : ProbedQueue ρ E) (r : ρ) : Decidable (σ.Consistent r) :=
  inferInstanceAs (Decidable (∀ p ∈ σ.probe r, ∀ writeIndex ∈ p.writeIndex,
    ∀ writeBase ∈ p.writeBase, ∀ readerBase ∈ p.readerBase,
      p.Consistent σ.queue.currentSize writeIndex writeBase readerBase))

/-- A probe ends with consistent loads. -/
def EndsConsistent (σ : ProbedQueue ρ E) : ProbeStep ρ E → Prop
  | .compare r => σ.Consistent r
  | _ => True

instance (σ : ProbedQueue ρ E) : (a : ProbeStep ρ E) → Decidable (σ.EndsConsistent a)
  | .add _ => .isTrue trivial
  | .startAccess _ => .isTrue trivial
  | .moveToFront _ => .isTrue trivial
  | .removeSlot _ => .isTrue trivial
  | .isEmpty _ => .isTrue trivial
  | .loadWriteIndex _ => .isTrue trivial
  | .loadWriteBase _ => .isTrue trivial
  | .loadReaderBase _ => .isTrue trivial
  | .compare r => inferInstanceAs (Decidable (σ.Consistent r))

end ProbedQueue

/-! ## What the loads amount to -/

section Loads

variable {n : Nat} (off : Int)

/-- The comparison of `isEmpty`, in numbers: `w` is the number `writeIndex` stood
for, `b` the base when it was loaded, `b₁` and `b₂` the bases loaded for it and for
the reader of number `t`. -/
theorem unwrap_le_unwrap_iff (hn : 0 < n) {w t b b₁ b₂ : Nat} (hbw : b ≤ w) (hwb : w < b + n)
    (hb₁ : b ≤ b₁) (h₁ : b₁ ≤ t) (h₂ : b₂ ≤ t) (htb : t < b + n) (ht₂ : t < b₂ + n) :
    unwrap n (slot n off b₁) (slot n off w) ≤ unwrap n (slot n off b₂) (slot n off t) ↔
      if w < b₁ then b₂ < b₁ ∧ slot n off b₁ < slot n off b₂
      else if b₁ ≤ b₂ then w ≤ t ∧ ¬ slot n off b₂ < slot n off b₁
      else w ≤ t ∨ slot n off b₁ < slot n off b₂ := by
  have hreader := unwrap_slot off hn h₂ ht₂
  have hlt₁ := slot_lt off hn b₁
  have hlt₂ := slot_lt off hn b₂
  have hpos₁ := slot_nonneg off hn b₁
  have hpos₂ := slot_nonneg off hn b₂
  have hwrite : unwrap n (slot n off b₁) (slot n off w) =
      if w < b₁ then slot n off b₁ + (w + n - b₁) else slot n off b₁ + (w - b₁) := by
    split
    · rename_i hpassed
      have hlap := unwrap_slot off hn (r := b₁) (t := w + n) (by omega) (by omega)
      rw [slot_add_lap] at hlap
      push_cast at hlap
      exact hlap
    · rename_i hbehind
      exact unwrap_slot off hn (by omega) (by omega)
  rw [hreader, hwrite]
  rcases Nat.le_total b₁ b₂ with hle | hle
  · rcases slot_eq_or_wrapped off hn hle (by omega) with ⟨heq, -⟩ | ⟨heq, -⟩ <;>
      split_ifs <;> omega
  · rcases slot_eq_or_wrapped off hn hle (by omega) with ⟨heq, -⟩ | ⟨heq, -⟩ <;>
      split_ifs <;> omega

end Loads

/-- The numbers behind what a probe has loaded. -/
structure Moments where
  /-- How many entries were written when the call began. -/
  began : Nat
  /-- How many were written when `writeIndex` was loaded, and the base then. -/
  written : Nat
  base : Nat
  /-- The base when `readIndex` was loaded for `writeIndex`, and for the reader. -/
  writeBase : Nat
  readerBase : Nat

namespace Probe

variable {ρ E : Type} {n : Nat} {T T' : Tickets ρ E} {r : ρ} {p : Probe} {m : Moments}

/-- The probe of `r` has loaded the slots of the numbers `m`, in this order, while
the line came to be `T`. -/
structure Matches (n : Nat) (T : Tickets ρ E) (r : ρ) (p : Probe) (m : Moments) : Prop where
  began : m.began ≤ T.written
  head : p.answers.head? = some (decide (m.began ≤ T.ticket r))
  unwritten : true ∈ p.answers → m.began ≤ T.ticket r
  written : false ∈ p.answers → T.ticket r < T.written
  writeIndex : ∀ i ∈ p.writeIndex, i = slot n 0 m.written ∧ p.baseAtWrite = slot n 0 m.base ∧
    m.began ≤ m.written ∧ m.written ≤ T.written ∧ m.base ≤ m.written ∧
    m.written < m.base + n ∧ m.base ≤ T.base ∧ T.ticket r < m.base + n
  writeBase : ∀ i ∈ p.writeBase, i = slot n 0 m.writeBase ∧ p.writeIndex.isSome ∧
    m.base ≤ m.writeBase ∧ m.writeBase ≤ T.base
  readerBase : ∀ i ∈ p.readerBase, i = slot n 0 m.readerBase ∧ m.readerBase ≤ T.base ∧
    T.ticket r < m.readerBase + n
  first : p.writeBase.isSome → p.readerFirst = true →
    p.readerBase.isSome ∧ m.readerBase ≤ m.writeBase
  second : p.writeBase.isSome → p.readerFirst = false → p.readerBase.isSome →
    m.writeBase ≤ m.readerBase

namespace Matches

/-- Steps of others keep a probe in order: entries and base only grow. -/
theorem advance (h : p.Matches n T r m) (hwritten : T.written ≤ T'.written)
    (hbase : T.base ≤ T'.base) (hticket : T'.ticket r = T.ticket r) : p.Matches n T' r m where
  began := by
    have hbegan := h.began
    omega
  head := by rw [hticket, h.head]
  unwritten := by
    rw [hticket]
    exact h.unwritten
  written hfalse := by
    have hlt := h.written hfalse
    omega
  writeIndex i hi := by
    obtain ⟨hslot, hbefore, hrest⟩ := h.writeIndex i hi
    exact ⟨hslot, hbefore, by omega⟩
  writeBase i hi := by
    obtain ⟨hslot, hloaded, hrest⟩ := h.writeBase i hi
    exact ⟨hslot, hloaded, by omega⟩
  readerBase i hi := by
    obtain ⟨hslot, hrest⟩ := h.readerBase i hi
    exact ⟨hslot, by omega⟩
  first := h.first
  second := h.second

/-- The true answer of the moment is written down. -/
theorem observe (h : p.Matches n T r m) {empty : Bool}
    (hempty : empty = decide (T.written ≤ T.ticket r)) :
    ({ p with answers := p.answers ++ [empty] } : Probe).Matches n T r m where
  began := h.began
  head := by simp [List.head?_append, h.head]
  unwritten hmem := by
    rcases List.mem_append.mp hmem with hmem | hmem
    · exact h.unwritten hmem
    · have hle : T.written ≤ T.ticket r := by simpa [hempty] using hmem
      exact h.began.trans hle
  written hmem := by
    rcases List.mem_append.mp hmem with hmem | hmem
    · exact h.written hmem
    · simpa [hempty] using hmem
  writeIndex := h.writeIndex
  writeBase := h.writeBase
  readerBase := h.readerBase
  first := h.first
  second := h.second

/-- A call that begins has loaded nothing. -/
theorem new (removes : Bool) {empty : Bool} (hempty : empty = decide (T.written ≤ T.ticket r)) :
    (Probe.new removes empty).Matches n T r ⟨T.written, 0, 0, 0, 0⟩ where
  began := Nat.le_refl _
  head := by simp [Probe.new, hempty]
  unwritten := by simp [Probe.new, hempty]
  written := by simp [Probe.new, hempty]
  writeIndex := by simp [Probe.new]
  writeBase := by simp [Probe.new]
  readerBase := by simp [Probe.new]
  first := by simp [Probe.new]
  second := by simp [Probe.new]

theorem loadWriteIndex (h : p.Matches n T r m) (hT : T.Sound n) (hr : r ∈ T.line)
    (hnone : p.writeIndex.isNone) :
    ({ p with
        writeIndex := some (slot n 0 T.written)
        baseAtWrite := slot n 0 T.base } : Probe).Matches n T r
      { m with written := T.written, base := T.base } where
  began := h.began
  head := h.head
  unwritten := h.unwritten
  written := h.written
  writeIndex i hi := by
    obtain rfl := Option.some.inj hi
    exact ⟨rfl, rfl, h.began, Nat.le_refl _, hT.base_le_written, hT.within, Nat.le_refl _,
      hT.lap r hr⟩
  writeBase i hi := by
    have hsome := (h.writeBase i hi).2.1
    simp [Option.isNone_iff_eq_none.mp hnone] at hsome
  readerBase := h.readerBase
  first := h.first
  second := h.second

theorem loadWriteBase (h : p.Matches n T r m) (hsome : p.writeIndex.isSome) :
    ({ p with
        writeBase := some (slot n 0 T.base)
        readerFirst := p.readerBase.isSome } : Probe).Matches n T r
      { m with writeBase := T.base } where
  began := h.began
  head := h.head
  unwritten := h.unwritten
  written := h.written
  writeIndex := h.writeIndex
  writeBase i hi := by
    obtain rfl := Option.some.inj hi
    obtain ⟨w, hw⟩ := Option.isSome_iff_exists.mp hsome
    exact ⟨rfl, hsome, (h.writeIndex w hw).2.2.2.2.2.2.1, Nat.le_refl _⟩
  readerBase := h.readerBase
  first := by
    intro _ hfirst
    obtain ⟨i, hi⟩ := Option.isSome_iff_exists.mp hfirst
    exact ⟨hfirst, (h.readerBase i hi).2.1⟩
  second := by
    intro _ hfirst hsome
    simp [hsome] at hfirst

theorem loadReaderBase (h : p.Matches n T r m) (hT : T.Sound n) (hr : r ∈ T.line)
    (hnone : p.readerBase.isNone) :
    ({ p with readerBase := some (slot n 0 T.base) } : Probe).Matches n T r
      { m with readerBase := T.base } where
  began := h.began
  head := h.head
  unwritten := h.unwritten
  written := h.written
  writeIndex := h.writeIndex
  writeBase := h.writeBase
  readerBase i hi := by
    obtain rfl := Option.some.inj hi
    exact ⟨rfl, Nat.le_refl _, hT.lap r hr⟩
  first := by
    intro hsome hfirst
    have hloaded := (h.first hsome hfirst).1
    simp [Option.isNone_iff_eq_none.mp hnone] at hloaded
  second := by
    intro hsome _ _
    obtain ⟨i, hi⟩ := Option.isSome_iff_exists.mp hsome
    exact (h.writeBase i hi).2.2.2

/-- The comparison comes to one of the true answers exactly when the loads are
consistent. -/
theorem outcome_iff (h : p.Matches n T r m) (hT : T.Sound n) (hr : r ∈ T.line)
    (hlast : p.answers.getLast? = some (decide (T.written ≤ T.ticket r)))
    {writeIndex writeBase readerBase : Int} (hw : p.writeIndex = some writeIndex)
    (hb₁ : p.writeBase = some writeBase) (hb₂ : p.readerBase = some readerBase) :
    decide (adjustIndexForComparison n writeIndex writeBase ≤
        adjustIndexForComparison n (slot n 0 (T.ticket r)) readerBase) ∈ p.answers ↔
      p.Consistent n writeIndex writeBase readerBase := by
  obtain ⟨rfl, hbefore, hbegan, hwW, hbw, hwb, -, htb⟩ := h.writeIndex _ hw
  obtain ⟨rfl, -, hbb₁, hb₁T⟩ := h.writeBase _ hb₁
  obtain ⟨rfl, hb₂T, ht₂⟩ := h.readerBase _ hb₂
  have hlow := hT.base_le hr
  have hn : 0 < n := by omega
  have hcompare := unwrap_le_unwrap_iff 0 hn hbw hwb hbb₁ (hb₁T.trans hlow)
    (hb₂T.trans hlow) htb ht₂
  rw [← adjustIndexForComparison_eq_unwrap, ← adjustIndexForComparison_eq_unwrap] at hcompare
  have hpassed : p.Passed n (slot n 0 m.written) (slot n 0 m.writeBase) ↔
      m.written < m.writeBase := by
    unfold Passed
    rw [hbefore]
    exact unwrap_slot_lt_iff 0 hn (Nat.le_refl n) hbw hwb hbb₁ (by omega)
  have htrue : true ∈ p.answers ↔ m.began ≤ T.ticket r := by
    refine ⟨h.unwritten, fun hle => List.mem_of_mem_head? ?_⟩
    simp [h.head, hle]
  have hfalse : false ∈ p.answers ↔ T.ticket r < T.written := by
    refine ⟨h.written, fun hlt => List.mem_of_getLast? ?_⟩
    simp [hlast, hlt]
  have hfirst := h.first (by simp [hb₁])
  have hsecond := fun hno => h.second (by simp [hb₁]) hno (by simp [hb₂])
  have hsame : m.writeBase = m.readerBase →
      slot n 0 m.writeBase = slot n 0 m.readerBase := fun heq => by rw [heq]
  have hmem : ∀ P : Prop, [Decidable P] → (decide P ∈ p.answers ↔
      if P then m.began ≤ T.ticket r else T.ticket r < T.written) := by
    intro P _
    by_cases hP : P <;> simp [hP, htrue, hfalse]
  refine (hmem _).trans ?_
  rw [if_congr hcompare rfl rfl]
  unfold Consistent
  rw [h.head, hlast, if_congr hpassed rfl rfl]
  simp only [Option.some.injEq, decide_eq_false_iff_not, decide_eq_true_eq]
  generalize slot n 0 m.writeBase = i₁ at hsame ⊢
  generalize slot n 0 m.readerBase = i₂ at hsame ⊢
  cases hrf : p.readerFirst with
  | false =>
      have hle := hsecond hrf
      simp only [Bool.false_eq_true, false_and, true_and, not_false_eq_true, imp_iff_not_or,
        if_pos hle, or_true]
      by_cases hp : m.written < m.writeBase
      · simp only [if_pos hp, or_false]
        split_ifs <;> omega
      · simp only [if_neg hp]
        split_ifs <;> omega
  | true =>
      have hle := (hfirst hrf).2
      simp only [Bool.true_eq_false, false_and, true_and, not_false_eq_true, imp_iff_not_or]
      by_cases hp : m.written < m.writeBase
      · simp only [if_pos hp]
        split_ifs <;> omega
      · simp only [if_neg hp, or_true, and_true]
        by_cases heq : m.writeBase ≤ m.readerBase
        · have hsame := hsame (Nat.le_antisymm heq hle)
          simp only [if_pos heq]
          split_ifs <;> omega
        · simp only [if_neg heq]
          split_ifs <;> omega

end Matches

end Probe

/-! ## The queue with its probes -/

namespace ProbedQueue

variable {ρ E : Type}

/-- `removeSlot` of `r` is under way, and has not stored its answer. -/
def removing (σ : ProbedQueue ρ E) (r : ρ) : Bool := (σ.probe r).any Probe.removes

/-- The queue stands for the line `T`, in which a reader that `removeSlot` is
busy with is not done, and its probes have loaded what the line came through. -/
structure Watched [DecidableEq ρ] (n : Nat) (σ : ProbedQueue ρ E) (T : Tickets ρ E) : Prop where
  sound : T.Sound n
  tight : T.Tight
  standing : Standing n 0 σ.queue T
  isDone : ∀ r ∈ T.line, T.isDone r = ((σ.queue.readers r).isDone && !σ.removing r)
  registered : ∀ r p, σ.probe r = some p → r ∈ T.line
  loaded : ∀ r p, σ.probe r = some p → ∃ m, p.Matches n T r m
  last : ∀ r p, σ.probe r = some p → p.answers.getLast? = some (σ.queue.slotIsEmpty r)

variable [DecidableEq ρ] {n : Nat} {σ σ' : ProbedQueue ρ E} {T T' : Tickets ρ E}

/-- The line that a step leads to. -/
def lineAfter (σ : ProbedQueue ρ E) (n : Nat) (T : Tickets ρ E) : ProbeStep ρ E → Tickets ρ E
  | .add e =>
      if σ.queue.dataEntries.CanStore e ∧ T.written + 1 < T.base + n then T.write e else T
  | .startAccess r => T.join n r
  | .moveToFront r =>
      if T.Spans n then if T.line.head? = some r then T.share r else T else T.draw r
  | .compare r => if σ.removing r && σ.outcome r == some false then T.take r else T
  | _ => T

@[simp] theorem setProbe_probe (σ : ProbedQueue ρ E) (r x : ρ) (p : Option Probe) :
    (σ.setProbe r p).probe x = if x = r then p else σ.probe x := by
  by_cases h : x = r <;> simp [setProbe, h]

@[simp] theorem setProbe_queue (σ : ProbedQueue ρ E) (r : ρ) (p : Option Probe) :
    (σ.setProbe r p).queue = σ.queue := rfl

omit [DecidableEq ρ] in
@[simp] theorem removing_observe (σ : ProbedQueue ρ E) (r : ρ) :
    σ.observe.removing r = σ.removing r := by
  cases h : σ.probe r <;> simp [removing, observe, h]

namespace Watched

/-- A step of the line, with the probes it leaves, and the answers of the moment. -/
theorem observe (hsound : T'.Sound n) (htight : T'.Tight)
    (hstanding : Standing n 0 σ'.queue T')
    (hdone : ∀ r ∈ T'.line, T'.isDone r = ((σ'.queue.readers r).isDone && !σ'.removing r))
    (hprobes : ∀ r p, σ'.probe r = some p → r ∈ T'.line ∧ ∃ m, p.Matches n T' r m) :
    Watched n σ'.observe T' where
  sound := hsound
  tight := htight
  standing := hstanding
  isDone r hr := by rw [removing_observe, hdone r hr]; rfl
  registered r p hp := by
    obtain ⟨q, hq, -⟩ := Option.map_eq_some_iff.mp hp
    exact (hprobes r q hq).1
  loaded r p hp := by
    obtain ⟨q, hq, rfl⟩ := Option.map_eq_some_iff.mp hp
    obtain ⟨hr, m, hm⟩ := hprobes r q hq
    exact ⟨m, hm.observe (hstanding.slotIsEmpty_eq hsound hr)⟩
  last r p hp := by
    obtain ⟨q, hq, rfl⟩ := Option.map_eq_some_iff.mp hp
    simp [ProbedQueue.observe]

/-- The probes that a step of the line leaves alone. -/
theorem probes (h : Watched n σ T) (hwritten : T.written ≤ T'.written)
    (hbase : T.base ≤ T'.base) {r : ρ} {p : Probe} (hp : σ.probe r = some p)
    (hr : r ∈ T.line → r ∈ T'.line ∧ T'.ticket r = T.ticket r) :
    r ∈ T'.line ∧ ∃ m, p.Matches n T' r m := by
  obtain ⟨m, hm⟩ := h.loaded r p hp
  obtain ⟨hr', hticket⟩ := hr (h.registered r p hp)
  exact ⟨hr', m, hm.advance hwritten hbase hticket⟩

/-- `add` writes the line, or leaves it as it is. -/
theorem add (h : Watched n σ T) (e : E) :
    Watched n ({ σ with queue := (σ.queue.add e).1 } : ProbedQueue ρ E).observe
      (σ.lineAfter n T (.add e)) := by
  by_cases hfit : σ.queue.dataEntries.CanStore e ∧ T.written + 1 < T.base + n
  · obtain ⟨s', hrun, hs', hreaders⟩ := h.standing.add h.sound hfit.1 hfit.2
    rw [lineAfter, if_pos hfit]
    refine .observe (h.sound.write e hfit.2) h.tight ?_ ?_ ?_
    · rw [hrun]
      exact hs'
    · intro r hr
      show T.isDone r = (((σ.queue.add e).1.readers r).isDone && !σ.removing r)
      rw [hrun, hreaders]
      exact h.isDone r hr
    · intro r p hp
      have hwritten : T.written ≤ (T.write e).written := by simp
      exact h.probes hwritten (Nat.le_refl _) hp fun hr => ⟨hr, rfl⟩
  · obtain ⟨i, -, hrun, -⟩ := h.standing.add_refused h.sound hfit
    rw [lineAfter, if_neg hfit]
    refine .observe h.sound h.tight ?_ ?_ ?_
    · rw [hrun]
      exact h.standing
    · rw [hrun]
      exact h.isDone
    · intro r p hp
      exact h.probes (Nat.le_refl _) (Nat.le_refl _) hp fun hr => ⟨hr, rfl⟩

theorem startAccess (h : Watched n σ T) (hn : 2 ≤ n) {r : ρ} {s' : SyncQueue ρ E}
    (hr : (σ.queue.readers r).inQueue = false) (hrun : σ.queue.startAccess r = .ok s') :
    Watched n ({ σ with queue := s' } : ProbedQueue ρ E).observe (T.join n r) := by
  have hrl : r ∉ T.line := fun hm => by simp [h.standing.mem_iff.mpr hm] at hr
  have hnone : σ.probe r = none := by
    by_contra hsome
    obtain ⟨p, hp⟩ := Option.ne_none_iff_exists'.mp hsome
    exact hrl (h.registered r p hp)
  obtain ⟨s'', hrun', hs', hflag⟩ := h.standing.startAccess h.sound hn hr
  obtain rfl := Except.ok.inj (hrun.symm.trans hrun')
  refine .observe (h.sound.join hn hrl (h.tight.level n r)) (h.tight.join hn hrl) hs' ?_ ?_
  · intro x hx
    show (T.join n r).isDone x = ((s'.readers x).isDone && !σ.removing x)
    rw [hflag]
    by_cases hxr : x = r
    · subst hxr
      simp [Tickets.join_isDone, removing, hnone]
    · rw [if_neg hxr, Tickets.join_isDone_of_ne hxr]
      exact h.isDone x ((h.sound.mem_join.mp hx).resolve_left hxr)
  · intro x p hp
    refine h.probes (by simp [Tickets.written]) (h.sound.base_le_join hn) hp ?_
    intro hx
    have hxr : x ≠ r := by
      rintro rfl
      exact hrl hx
    exact ⟨h.sound.mem_join.mpr (.inr hx), Tickets.join_ticket_of_ne hxr⟩

/-- A locked move that assigns no slot: the back of a line that spans the ring
moves before the front, and any other reader stays. -/
theorem stay (h : Watched n σ T) (hn : 2 ≤ n) {r : ρ} {s' : SyncQueue ρ E} (hr : r ∈ T.line)
    (hprobe : σ.probe r = none) (hdone : T.isDone r = true) (hspans : T.Spans n)
    (hs' : Standing n 0 s' (if T.line.head? = some r then T.share r else T))
    (hflag : ∀ x, (s'.readers x).isDone = (σ.queue.readers x).isDone) :
    Watched n ({ σ with queue := s' } : ProbedQueue ρ E).observe
      (if T.line.head? = some r then T.share r else T) := by
  by_cases hback : T.line.head? = some r
  · rw [if_pos hback] at hs' ⊢
    refine .observe (h.sound.share_back hn hback hdone hspans)
      (h.tight.share hn hspans fun _ => hback) hs' ?_ ?_
    · intro x hx
      show (T.share r).isDone x = ((s'.readers x).isDone && !σ.removing x)
      rw [hflag]
      by_cases hxr : x = r
      · rw [hxr, ← h.isDone r hr, hdone]
        simp [Tickets.share]
      · rw [Tickets.share_isDone_of_ne hxr]
        exact h.isDone x ((h.sound.mem_share.mp hx).resolve_left hxr)
    · intro x p hp
      refine h.probes (by simp [Tickets.written, Tickets.share]) (h.sound.base_le_share hn hspans)
        hp ?_
      intro hx
      have hxr : x ≠ r := by
        rintro rfl
        rw [hprobe] at hp
        cases hp
      exact ⟨h.sound.mem_share.mpr (.inr hx), Tickets.share_ticket_of_ne hxr⟩
  · rw [if_neg hback] at hs' ⊢
    refine .observe h.sound h.tight hs' ?_ ?_
    · intro x hx
      show T.isDone x = ((s'.readers x).isDone && !σ.removing x)
      rw [hflag, h.isDone x hx]
    · intro x p hp
      exact h.probes (Nat.le_refl _) (Nat.le_refl _) hp fun hx => ⟨hx, rfl⟩

/-- A locked move that assigns the next slot, and the call of `isEmpty` it leads to. -/
theorem draw (h : Watched n σ T) {r : ρ} {s' : SyncQueue ρ E} (hdone : T.isDone r = true)
    (hspans : ¬ T.Spans n) (hs' : Standing n 0 s' (T.draw r))
    (hflag : ∀ x, (s'.readers x).isDone = (σ.queue.readers x).isDone) :
    Watched n (({ σ with queue := s' } : ProbedQueue ρ E).begin r true).observe (T.draw r) := by
  have hsound := h.sound.draw (fun _ => hdone) hspans (h.tight.level n r)
  have hr : r ∈ (T.draw r).line := h.sound.mem_draw.mpr (.inl rfl)
  refine .observe hsound h.tight.draw hs' ?_ ?_
  · intro x hx
    by_cases hxr : x = r
    · simp [hxr, Tickets.draw, removing, begin, Probe.new]
    · have hxl := (h.sound.mem_draw.mp hx).resolve_left hxr
      rw [Tickets.draw_isDone_of_ne hxr, h.isDone x hxl, ← hflag x]
      simp [removing, begin, hxr]
  · intro x p hp
    by_cases hxr : x = r
    · obtain rfl : p = .new true (s'.slotIsEmpty r) := by simpa [begin, hxr] using hp.symm
      rw [hxr]
      exact ⟨hr, _, .new true (hs'.slotIsEmpty_eq hsound hr)⟩
    · have hp : σ.probe x = some p := by simpa [begin, hxr] using hp
      refine h.probes (by simp [Tickets.written, Tickets.draw]) h.sound.base_le_draw hp ?_
      intro hx
      exact ⟨h.sound.mem_draw.mpr (.inr hx), Tickets.draw_ticket_of_ne hxr⟩

/-- Steps that change one probe and nothing else. -/
theorem setProbe (h : Watched n σ T) {r : ρ} {p : Probe} (hr : r ∈ T.line)
    (hremoves : T.isDone r = ((σ.queue.readers r).isDone && !p.removes))
    (hm : ∃ m, p.Matches n T r m) : Watched n (σ.setProbe r (some p)).observe T := by
  refine .observe h.sound h.tight h.standing ?_ ?_
  · intro x hx
    by_cases hxr : x = r
    · subst hxr
      simpa [removing] using hremoves
    · simpa [removing, hxr] using h.isDone x hx
  · intro x q hq
    by_cases hxr : x = r
    · obtain rfl : p = q := by simpa [hxr] using hq
      rw [hxr]
      exact ⟨hr, hm⟩
    · have hq : σ.probe x = some q := by simpa [hxr] using hq
      exact h.probes (Nat.le_refl _) (Nat.le_refl _) hq fun hx => ⟨hx, rfl⟩

theorem begin (h : Watched n σ T) {r : ρ} {removes : Bool}
    (hin : (σ.queue.readers r).inQueue = true) (hprobe : σ.probe r = none)
    (hremoves : removes = true → (σ.queue.readers r).isDone = false) :
    Watched n (σ.begin r removes).observe T := by
  have hr := h.standing.mem_iff.mp hin
  refine h.setProbe hr ?_ ⟨_, .new removes (h.standing.slotIsEmpty_eq h.sound hr)⟩
  rw [h.isDone r hr]
  cases removes with
  | false => simp [removing, hprobe, Probe.new]
  | true => simp [hremoves rfl]

/-- A load: what the probe is called for does not change. -/
theorem load (h : Watched n σ T) {r : ρ} {p q : Probe} (hp : σ.probe r = some p)
    (hremoves : q.removes = p.removes) (hm : ∃ m, q.Matches n T r m) :
    Watched n (σ.setProbe r (some q)).observe T := by
  have hr := h.registered r p hp
  refine h.setProbe hr ?_ hm
  rw [h.isDone r hr]
  simp [removing, hp, hremoves]

/-- A comparison comes to one of the true answers exactly when its loads are consistent. -/
theorem outcome_iff (h : Watched n σ T) {r : ρ} {p : Probe} {empty : Bool}
    (hp : σ.probe r = some p) (hempty : σ.outcome r = some empty) :
    empty ∈ p.answers ↔ σ.Consistent r := by
  obtain ⟨m, hm⟩ := h.loaded r p hp
  have hr := h.registered r p hp
  obtain ⟨writeIndex, hw, writeBase, hb₁, readerBase, hb₂, hvalue⟩ :
      ∃ writeIndex, p.writeIndex = some writeIndex ∧ ∃ writeBase, p.writeBase = some writeBase ∧
        ∃ readerBase, p.readerBase = some readerBase ∧
          decide (adjustIndexForComparison σ.queue.currentSize writeIndex writeBase ≤
            adjustIndexForComparison σ.queue.currentSize (σ.queue.readers r).index
              readerBase) = empty := by
    simpa [outcome, hp, Option.bind_eq_some_iff] using hempty
  have hlast := h.last r p hp
  rw [h.standing.slotIsEmpty_eq h.sound hr] at hlast
  rw [← hvalue, h.standing.size, h.standing.index r hr,
    hm.outcome_iff h.sound hr hlast hw hb₁ hb₂]
  simp [Consistent, hp, hw, hb₁, hb₂, h.standing.size]

/-- What a probe answered is stored.  A reader that is told its slot is written
has the entry taken: at the latest now it is. -/
theorem finish (h : Watched n σ T) {r : ρ} {p : Probe} {empty : Bool}
    (hp : σ.probe r = some p) (htrue : empty ∈ p.answers) :
    Watched n (σ.finish r p.removes empty).observe
      (if p.removes && !empty then T.take r else T) := by
  have hr := h.registered r p hp
  obtain ⟨m, hm⟩ := h.loaded r p hp
  have hothers : ∀ (b : Bool) {T' : Tickets ρ E}, T'.line = T.line → T'.ticket = T.ticket →
      T'.base = T.base → T'.accepted = T.accepted → ∀ x q,
      (σ.finish r p.removes b).probe x = some q → x ∈ T'.line ∧ ∃ m, q.Matches n T' x m := by
    intro b T' hline hticket hbase haccepted x q hq
    have hxr : x ≠ r := by
      rintro rfl
      simp [ProbedQueue.finish] at hq
    have hq : σ.probe x = some q := by simpa [ProbedQueue.finish, hxr] using hq
    refine h.probes (by simp [Tickets.written, haccepted]) (by rw [hbase]) hq ?_
    intro hx
    exact ⟨hline ▸ hx, by rw [hticket]⟩
  have hstanding : ∀ (b : Bool) {T' : Tickets ρ E}, T'.line = T.line → T'.ticket = T.ticket →
      T'.base = T.base → T'.accepted = T.accepted →
      Standing n 0 (σ.finish r p.removes b).queue T' := by
    intro b T' hline hticket hbase haccepted
    cases hremoves : p.removes with
    | false =>
        show Standing n 0 (σ.queue.setIsEmpty r b) T'
        exact h.standing.congr rfl rfl rfl (fun x => by simp) hline hticket hbase haccepted
    | true =>
        show Standing n 0 ((σ.queue.setIsEmpty r b).setIsDone r !b) T'
        exact h.standing.congr rfl rfl rfl (fun x => by simp) hline hticket hbase haccepted
  have hflags : ∀ (b : Bool) x, x ≠ r →
      (((σ.finish r p.removes b).queue.readers x).isDone = (σ.queue.readers x).isDone ∧
        (σ.finish r p.removes b).removing x = σ.removing x) := by
    intro b x hxr
    cases hremoves : p.removes <;> simp [ProbedQueue.finish, removing, hxr]
  cases hremoves : p.removes with
  | false =>
      rw [hremoves] at hothers hstanding hflags
      show Watched n _ T
      refine .observe h.sound h.tight (hstanding empty rfl rfl rfl rfl) ?_
        (hothers empty rfl rfl rfl rfl)
      intro x hx
      by_cases hxr : x = r
      · subst hxr
        rw [h.isDone x hx]
        simp [ProbedQueue.finish, removing, hp, hremoves]
      · rw [(hflags empty x hxr).1, (hflags empty x hxr).2, h.isDone x hx]
  | true =>
      rw [hremoves] at hothers hstanding hflags
      have hdone : T.isDone r = false := by
        rw [h.isDone r hr]
        simp [removing, hp, hremoves]
      cases empty with
      | true =>
          show Watched n _ T
          refine .observe h.sound h.tight (hstanding true rfl rfl rfl rfl) ?_
            (hothers true rfl rfl rfl rfl)
          intro x hx
          by_cases hxr : x = r
          · subst hxr
            simp [ProbedQueue.finish, hdone]
          · rw [(hflags true x hxr).1, (hflags true x hxr).2, h.isDone x hx]
      | false =>
          have hlt := hm.written htrue
          show Watched n _ (T.take r)
          refine .observe (h.sound.take hr hdone) h.tight.take
            (hstanding false (by simp) (by simp) (by simp) (by simp)) ?_
            (hothers false (by simp) (by simp) (by simp) (by simp))
          intro x hx
          rw [Tickets.take_line] at hx
          by_cases hxr : x = r
          · subst hxr
            simp [ProbedQueue.finish, removing, Tickets.take, hlt]
          · rw [(hflags false x hxr).1, (hflags false x hxr).2, Tickets.take_isDone_of_ne hxr,
              h.isDone x hx]

/-- A step, its comparison consistent if it is one, keeps the queue watched. -/
theorem step (h : Watched n σ T) (hn : 2 ≤ n) {a : ProbeStep ρ E} (hact : σ.act a = some σ')
    (hends : σ.EndsConsistent a) : Watched n σ'.observe (σ.lineAfter n T a) := by
  cases a with
  | add e =>
      obtain rfl := Option.some.inj hact
      exact h.add e
  | startAccess r =>
      simp only [act] at hact
      split at hact
      · rename_i hin
        split at hact
        · rename_i s' hrun
          obtain rfl := Option.some.inj hact
          exact h.startAccess hn hin hrun
        · cases hact
      · cases hact
  | moveToFront r =>
      simp only [act] at hact
      split at hact
      · rename_i hready
        obtain ⟨hin, hflag, hnone⟩ := hready
        have hr := h.standing.mem_iff.mp hin
        have hprobe := Option.isNone_iff_eq_none.mp hnone
        have hdone : T.isDone r = true := by
          rw [h.isDone r hr]
          simp [hflag, removing, hprobe]
        by_cases hspans : T.Spans n
        · obtain ⟨s', hrun, hs', hflags⟩ := h.standing.moveToFront_stays h.sound hn hr hspans
          rw [hrun] at hact
          obtain rfl := Option.some.inj hact
          rw [lineAfter, if_pos hspans]
          exact h.stay hn hr hprobe hdone hspans hs' hflags
        · obtain ⟨s', hrun, hs', hflags⟩ := h.standing.moveToFront_draws h.sound hn hr hspans
          rw [hrun] at hact
          obtain rfl := Option.some.inj hact
          rw [lineAfter, if_neg hspans]
          exact h.draw hdone hspans hs' hflags
      · cases hact
  | removeSlot r =>
      simp only [act] at hact
      split at hact
      · rename_i hready
        obtain ⟨hin, hflag, hnone⟩ := hready
        obtain rfl := Option.some.inj hact
        exact h.begin hin (Option.isNone_iff_eq_none.mp hnone) fun _ => hflag
      · cases hact
  | isEmpty r =>
      simp only [act] at hact
      split at hact
      · rename_i hready
        obtain ⟨hin, hnone⟩ := hready
        obtain rfl := Option.some.inj hact
        exact h.begin hin (Option.isNone_iff_eq_none.mp hnone) (by simp)
      · cases hact
  | loadWriteIndex r =>
      obtain ⟨p, hp, hact⟩ := Option.bind_eq_some_iff.mp hact
      split at hact
      · rename_i hnone
        obtain rfl := Option.some.inj hact
        obtain ⟨m, hm⟩ := h.loaded r p hp
        rw [h.standing.writeIndex, h.standing.readIndex]
        exact h.load hp rfl ⟨_, hm.loadWriteIndex h.sound (h.registered r p hp) hnone⟩
      · cases hact
  | loadWriteBase r =>
      obtain ⟨p, hp, hact⟩ := Option.bind_eq_some_iff.mp hact
      split at hact
      · rename_i hready
        obtain rfl := Option.some.inj hact
        obtain ⟨m, hm⟩ := h.loaded r p hp
        rw [h.standing.readIndex]
        exact h.load hp rfl ⟨_, hm.loadWriteBase hready.1⟩
      · cases hact
  | loadReaderBase r =>
      obtain ⟨p, hp, hact⟩ := Option.bind_eq_some_iff.mp hact
      split at hact
      · rename_i hnone
        obtain rfl := Option.some.inj hact
        obtain ⟨m, hm⟩ := h.loaded r p hp
        rw [h.standing.readIndex]
        exact h.load hp rfl ⟨_, hm.loadReaderBase h.sound (h.registered r p hp) hnone⟩
      · cases hact
  | compare r =>
      obtain ⟨p, hp, hact⟩ := Option.bind_eq_some_iff.mp hact
      obtain ⟨empty, hempty, hact⟩ := Option.bind_eq_some_iff.mp hact
      obtain rfl := Option.some.inj hact
      have hfound : (σ.removing r && σ.outcome r == some false) = (p.removes && !empty) := by
        rw [removing, hp, hempty, Option.any_some]
        cases empty <;> simp
      rw [lineAfter, hfound]
      exact h.finish hp ((h.outcome_iff hp hempty).mpr hends)

end Watched

/-- Every state of a schedule whose comparisons were consistent is watched. -/
theorem watched {n : Nat} (hn : 2 ≤ n) {dataEntries : ProcessingQueueDataArray E}
    {σ : ProbedQueue ρ E}
    (h : ((system ρ n dataEntries).restrict EndsConsistent).Reachable σ) :
    ∃ T, Watched n σ T := by
  refine h.invariant (I := fun σ => ∃ T, Watched n σ T) ?_ ?_
  · rintro σ rfl
    refine ⟨.new ρ E, ?_⟩
    exact
      { sound := .new (by omega)
        tight := rfl
        standing := (Represents.new dataEntries).toStanding
        isDone := by simp [Tickets.new]
        registered := by simp [ProbedQueue.new]
        loaded := by simp [ProbedQueue.new]
        last := by simp [ProbedQueue.new] }
  · rintro σ a σ' ⟨T, hT⟩ ⟨hstep, hends⟩
    obtain ⟨σ', hact, rfl⟩ := Option.map_eq_some_iff.mp hstep
    exact ⟨_, hT.step hn hact hends⟩

/-- The emptiness test without a lock: whatever the schedule, the outcome of a
call of `isEmpty` is the true answer at some moment of the call exactly when its
loads are consistent. -/
theorem emptiness_test_iff {n : Nat} (hn : 2 ≤ n) (dataEntries : ProcessingQueueDataArray E)
    {σ : ProbedQueue ρ E}
    (h : ((system ρ n dataEntries).restrict EndsConsistent).Reachable σ) {r : ρ} {p : Probe}
    {empty : Bool} (hp : σ.probe r = some p) (hempty : σ.outcome r = some empty) :
    empty ∈ p.answers ↔ σ.Consistent r := by
  obtain ⟨T, hT⟩ := watched hn h
  exact hT.outcome_iff hp hempty

/-- The loads of `isEmpty` and its comparison, with nothing in between. -/
def loads (r : ρ) : List (ProbeStep ρ E) :=
  [.loadWriteIndex r, .loadWriteBase r, .loadReaderBase r, .compare r]

/-- One reader and a ring of four slots: it read three entries, and waits for the
fourth, which is written while it looks. -/
def waiting : List (ProbeStep (Fin 2) Nat) :=
  [.startAccess 0, .add 10, .add 11, .add 12, .removeSlot 0] ++ loads 0 ++
    [.moveToFront 0] ++ loads 0 ++ [.moveToFront 0] ++ loads 0 ++ [.moveToFront 0] ++ loads 0

/-- The fourth entry arrives between the loads: either answer would have been true. -/
theorem emptiness_test_iff_of_arrival :
    ∃ (σ : ProbedQueue (Fin 2) Nat) (p : Probe), σ.probe 0 = some p ∧
      p.answers = [true, true, true, false, false, false] ∧ true ∈ p.answers := by
  let steps := waiting ++
    [.removeSlot 0, .loadWriteIndex 0, .add 13, .loadReaderBase 0, .loadWriteBase 0]
  have hend : (System.follow next EndsConsistent (.new (Fin 2) 4 (.uniform Nat 8)) steps).map
        (fun σ => (σ.probe 0, σ.outcome 0, decide (σ.Consistent 0))) =
      some (some ⟨true, some 3, some 3, some 3, 3, true, [true, true, true, false, false, false]⟩,
        some true, true) := by rfl
  obtain ⟨σ, hfollow, hσ⟩ := Option.map_eq_some_iff.mp hend
  simp only [Prod.mk.injEq, decide_eq_true_eq] at hσ
  obtain ⟨hprobe, houtcome, hconsistent⟩ := hσ
  have hreachable : ((system (Fin 2) 4 (.uniform Nat 8)).restrict EndsConsistent).Reachable σ :=
    System.reachable_follow steps (System.Reachable.start rfl) hfollow
  exact ⟨σ, _, hprobe, rfl,
    (emptiness_test_iff (by decide) _ hreachable hprobe houtcome).mpr hconsistent⟩

/-- Reader 1 waits in slot 0 and loads `readIndex` for `writeIndex`; reader 0, the
back, moves on, so that `readIndex` comes round; reader 1 loads it again, and is
told that its slot is written. -/
theorem unwritten_slot_reported :
    ∃ (σ : ProbedQueue (Fin 2) Nat) (p : Probe),
      (system (Fin 2) 4 (.uniform Nat 8)).Reachable σ ∧ σ.probe 1 = some p ∧
      σ.outcome 1 = some false ∧ p.answers = [true, true, true, true, true, true] := by
  let steps := waiting ++ [.startAccess 1, .add 13, .removeSlot 0] ++ loads 0 ++
    [.removeSlot 1, .loadWriteIndex 1, .loadWriteBase 1, .moveToFront 0, .loadReaderBase 1]
  have hend : (System.follow next EndsConsistent (.new (Fin 2) 4 (.uniform Nat 8)) steps).map
        (fun σ => (σ.probe 1, σ.outcome 1)) =
      some (some ⟨true, some 0, some 3, some 0, 3, false, [true, true, true, true, true, true]⟩,
        some false) := by rfl
  obtain ⟨σ, hfollow, hσ⟩ := Option.map_eq_some_iff.mp hend
  simp only [Prod.mk.injEq] at hσ
  have hreachable : ((system (Fin 2) 4 (.uniform Nat 8)).restrict EndsConsistent).Reachable σ :=
    System.reachable_follow steps (System.Reachable.start rfl) hfollow
  exact ⟨σ, _, System.Reachable.of_restrict hreachable, hσ.1, hσ.2, rfl⟩

end ProbedQueue

end HPQueue
