import HPQueue.Library.Extension
import HPQueue.Consumer.Resizing
import HPQueue.Queue.SyncQueue

/-!
# What `addToQueue` returns

`addToQueue` offers its entry to the queue from four places: at first, again under
`resizeQueuesLock`, again after a resize, and over and over once the queue cannot grow.
It goes on exactly as long as the answer is `IS_FULL`, and an `add` that answers so, or
`CANNOT_ADD`, leaves the queue as it was.

The machine is that of all threads of a processor, with its queue.  Every call of the
queue is one step.  Each thread keeps the list of the `add`s it issues in a call of
`addToQueue`, and when the call returns, what it returns is written down with them.

## Main results

* `ReaderWriterQueue.add_cases` — an `add` stores the entry, or leaves the queue as it was.
* `addToQueue_once` — what each call that has returned did with its entry.
-/

namespace HPQueue

open Library.Threads Library.Transition QueueConstants

variable {ι : Type} {n : Nat} {E : Type}

/-! ## One `add` -/

namespace ReaderWriterQueue

/-- The queue after the entry was stored at `writeIndex`. -/
def stored (q : ReaderWriterQueue E) (entry : E) : ReaderWriterQueue E :=
  { q.copyTo entry q.writeIndex with
    writeIndex := q.nextIndex q.writeIndex
    stats := q.stats.incrementAddedCount }

/-- What counts added entries counts this one. -/
theorem stored_ne (q : ReaderWriterQueue E) (entry : E) : q.stored entry ≠ q := by
  intro h
  have hcount : q.stats.addedCount + 1 = q.stats.addedCount :=
    congrArg (fun q => q.stats.addedCount) h
  simp at hcount

/-- There is room if `isFull` does not say otherwise. -/
theorem isFull_of_ne {q : ReaderWriterQueue E} (h : q.isFull ≠ IS_FULL) :
    q.isFull = q.nextIndex q.writeIndex := by
  by_cases hfull : q.nextIndex q.writeIndex = q.readIndex
  · exact absurd (if_pos hfull) h
  · exact if_neg hfull

/-- The data array has a place for the entry. -/
def HasPlace (q : ReaderWriterQueue E) (entry : E) : Prop :=
  q.dataEntries.isCompatibleEntry entry = true ∧
    q.dataEntries.getQueueEntry q.currentSize q.writeIndex entry = true

theorem nextIndex_nonneg {q : ReaderWriterQueue E} {entry : E} (h : q.HasPlace entry) :
    0 ≤ q.writeIndex ∧ 0 ≤ q.nextIndex q.writeIndex := by
  have hplace := h.2
  simp only [ProcessingQueueDataArray.getQueueEntry, Bool.and_eq_true, decide_eq_true_eq] at hplace
  refine ⟨hplace.1.1, Int.emod_nonneg _ ?_⟩
  omega

theorem tryInsert_of_full {q : ReaderWriterQueue E} (h : q.isFull = IS_FULL) (entry : E) :
    q.tryInsert entry = (q, IS_FULL) := by
  simp [tryInsert, h]

theorem tryInsert_of_place {q : ReaderWriterQueue E} (h : q.isFull ≠ IS_FULL) {entry : E}
    (hplace : q.HasPlace entry) :
    q.tryInsert entry = (q.copyTo entry q.writeIndex, q.nextIndex q.writeIndex) := by
  have hinsert : q.insert entry = (q.copyTo entry q.writeIndex, true) := by
    simp [insert, hplace.1, hplace.2]
  have hnext := isFull_of_ne h
  rw [hnext] at h
  simp [tryInsert, hnext, h, hinsert]

theorem tryInsert_of_no_place {q : ReaderWriterQueue E} (h : q.isFull ≠ IS_FULL) {entry : E}
    (hplace : ¬ q.HasPlace entry) : q.tryInsert entry = (q, CANNOT_ADD) := by
  have hinsert : q.insert entry = (q, false) := by
    unfold insert
    split
    · rename_i hcompatible
      rw [if_neg fun hcell => hplace ⟨hcompatible, hcell⟩]
    · rfl
  simp [tryInsert, h, hinsert]

/-- An `add` stores the entry and answers with its slot, or leaves the queue as it was. -/
theorem add_cases (q : ReaderWriterQueue E) (entry : E) :
    (0 ≤ (q.add entry).2 ∧ (q.add entry).1 = q.stored entry) ∨
    (((q.add entry).2 = IS_FULL ∨ (q.add entry).2 = CANNOT_ADD) ∧ (q.add entry).1 = q) := by
  by_cases hfull : q.isFull = IS_FULL
  · have hadd : q.add entry = (q, IS_FULL) := by
      simp [add, tryInsert_of_full hfull, IS_FULL]
    exact .inr ⟨.inl (by rw [hadd]), by rw [hadd]⟩
  · by_cases hplace : q.HasPlace entry
    · obtain ⟨hwrite, hnext⟩ := nextIndex_nonneg hplace
      have hadd : q.add entry = (q.stored entry, q.writeIndex) := by
        simp [add, tryInsert_of_place hfull hplace, Int.not_lt.mpr hnext]
        exact ⟨rfl, rfl⟩
      exact .inl ⟨by rw [hadd]; exact hwrite, by rw [hadd]⟩
    · have hadd : q.add entry = (q, CANNOT_ADD) := by
        simp [add, tryInsert_of_no_place hfull hplace, CANNOT_ADD]
      exact .inr ⟨.inr (by rw [hadd]), by rw [hadd]⟩

end ReaderWriterQueue

/-! ## The machine -/

/-- One `add` of the queue, and what it did. -/
structure IssuedAdd (n : Nat) (E : Type) where
  entry : E
  before : SyncQueue (Fin n) E
  after : SyncQueue (Fin n) E
  index : Int

/-- The entry was stored: it is in the slot at `writeIndex`, and `writeIndex` has moved on. -/
def IssuedAdd.Stores (a : IssuedAdd n E) (entry : E) : Prop :=
  a.entry = entry ∧
    a.after = { a.before with toReaderWriterQueue := a.before.toReaderWriterQueue.stored entry }

/-- The queue was left as it was. -/
def IssuedAdd.Refused (a : IssuedAdd n E) : Prop := a.after = a.before

/-- An `add` that was refused has not stored anything. -/
theorem IssuedAdd.Refused.not_stores {a : IssuedAdd n E} (h : a.Refused) (entry : E) :
    ¬ a.Stores entry := by
  rintro ⟨-, hafter⟩
  have hring := congrArg (fun s => s.toReaderWriterQueue) (h.symm.trans hafter)
  exact a.before.stored_ne entry hring.symm

/-- A call of `addToQueue` that has returned, with the `add`s it issued, the latest first. -/
structure AddCall (n : Nat) (E : Type) where
  entry : E
  issued : List (IssuedAdd n E)
  result : Int

/-- What the threads share: the memory of the processor, its queue, and the history of
calls of `addToQueue`. -/
structure Depot (ι : Type) (n : Nat) (E : Type) where
  control : Control ι n
  queue : SyncQueue (Fin n) E
  /-- The `add`s of a thread in its latest call, the latest first. -/
  issued : Thread ι n → List (IssuedAdd n E)
  returned : List (AddCall n E)

namespace Depot

variable [DecidableEq ι]

/-- The answers a query may have, and what it does: a fault ends the run.  A consumer may
throw. -/
def reply (fuel : Nat) (t : Thread ι n) (m : Depot ι n E) : Query n E → Int → Option (Depot ι n E)
  | .add entry, index =>
      if index = (m.queue.add entry).2 then
        some { m with
          queue := (m.queue.add entry).1
          issued := Function.update m.issued t
            (⟨entry, m.queue, (m.queue.add entry).1, index⟩ :: m.issued t) }
      else none
  | .isMaxSize, max =>
      if decide (m.queue.currentSize ≥ MAX_QUEUE_SIZE m.queue.getEntrySize) =
          decide (max ≠ 0) then
        some m
      else none
  | .resize, _ =>
      match m.queue.resize fuel m.queue.getNewQueueSize with
      | .ok queue => some { m with queue := queue }
      | .error _ => none
  | .started _, _ => some m
  | .init w, _ =>
      match m.queue.startAccess w with
      | .ok queue => some { m with queue := queue }
      | .error _ => none
  | .finalize w, _ =>
      match m.queue.endAccess w with
      | .ok queue => some { m with queue := queue }
      | .error _ => none
  | .remove w, found =>
      match m.queue.remove w with
      | .ok (queue, entry) =>
          if entry.isSome = decide (found ≠ 0) then some { m with queue := queue } else none
      | .error _ => none
  | .handle _, _ => some m
  | .isWork w, work =>
      if (m.queue.isEmpty w).2 = decide (work = 0) then
        some { m with queue := (m.queue.isEmpty w).1 }
      else none

/-- A thread is given a call. -/
def enter (t : Thread ι n) (m : Depot ι n E) : ClientCall E → Depot ι n E
  | .add _ => { m with issued := Function.update m.issued t [] }
  | _ => m

/-- A call of `addToQueue` has returned. -/
def note (t : Thread ι n) (m : Depot ι n E) (entry : E) (result : Int) : Depot ι n E :=
  { m with returned := ⟨entry, m.issued t, result⟩ :: m.returned }

end Depot

/-- The names of a processor whose threads write down what `addToQueue` returned. -/
abbrev notedNames (ι : Type) (n : Nat) (E : Type) : Signature :=
  (names ι n E).extend (ClientCall E) (E × Int)

/-- The same program, for such threads. -/
abbrev noted {α : Type} (p : Code ι n E α) : Prog (notedNames ι n E) α :=
  p.extend (ClientCall E) (E × Int)

/-- The methods clients call; `add` writes down what `addToQueue` returned. -/
def notedMethod : ClientCall E → Prog (notedNames ι n E) Unit
  | .add entry => do
      let index ← noted (QueueProducerInterface.addToQueue entry)
      Prog.note (entry, index)
      if 0 ≤ index then
        noted QueueProcessor.broadcast
  | c => noted (method c)

/-- The processor with its queue; `fuel` bounds the loops of a resize. -/
def notedProcessor (ι : Type) [DecidableEq ι] (n : Nat) (E : Type) (fuel : Nat) :
    Machine (notedNames ι n E) (Depot ι n E) where
  body p := noted (procedure p)
  main t := noted (threadMain t)
  entry t c m :=
    match t with
    | .client _ => some (m.enter t c, notedMethod c)
    | .worker _ => none
  load x m := m.control.load x
  store t x m :=
    match x with
    | .inl x => { m with control := m.control.store t x }
    | .inr (entry, index) => m.note t entry index
  reply t q a m := m.reply fuel t q a

/-- A processor that was just constructed, with a queue of the given size. -/
def newNotedProcessor (ι : Type) [DecidableEq ι] (n queueSize : Nat)
    (dataEntries : ProcessingQueueDataArray E) : State (notedNames ι n E) (Depot ι n E) where
  prog _ := .done ()
  shared :=
    { held := fun _ => none
      asleep := fun _ => ∅
      memory :=
        { control := .new ι n
          queue := .new (Fin n) queueSize dataEntries
          issued := fun _ => []
          returned := [] } }

/-! ## Where a thread is in `addToQueue` -/

namespace Adding

inductive Phase (E : Type)
  /-- In no call of `addToQueue`. -/
  | out
  /-- In a call for this entry; every `add` so far was answered by `IS_FULL`. -/
  | refused (entry : E)
  /-- The last `add` was answered by this index, which is not `IS_FULL`. -/
  | answered (entry : E) (index : Int)

open Phase

variable [DecidableEq E]

/-- An `add` and the note are the operations that matter; every other leaves the phase. -/
def step (φ : Phase E) (o : Op (notedNames ι n E)) (r : o.Result) : Option (Phase E) :=
  match o, r with
  | .ask (.add entry), index =>
      match φ with
      | refused entry' =>
          if entry = entry' then
            some (if index = IS_FULL then refused entry else answered entry index)
          else none
      | _ => none
  | .store (.inr (entry, index)), _ =>
      match φ with
      | refused entry' => if entry = entry' ∧ index = IS_TERMINATED then some out else none
      | answered entry' index' => if entry = entry' ∧ index = index' then some out else none
      | out => none
  | _, _ => some φ

def enters : ClientCall E → Phase E → Phase E
  | .add entry, _ => refused entry
  | _, φ => φ

/-- After the last of some `add`s was answered by this index. -/
def offered (entry : E) (index : Int) : Phase E :=
  if index = IS_FULL then refused entry else answered entry index

def protocol (ι : Type) (n : Nat) (E : Type) [DecidableEq E] :
    Protocol (notedNames ι n E) (Phase E) where
  trans _ φ o r := step φ o r
  pre _ p φ :=
    match p with
    | .whileFull entry => φ = refused entry
    | .addLoop entry index => φ = offered entry index
    | _ => True
  post _ p φ index ψ :=
    match p with
    | .whileFull entry => index ≠ IS_FULL ∧ ψ = answered entry index
    | .addLoop entry _ => index ≠ IS_FULL ∧ ψ = answered entry index
    | _ => ψ = φ
  final _ φ := φ = out
  enter _ c φ := enters c φ

variable {t : Thread ι n} {φ : Phase E}

/-! ## The methods -/

/-- The operations that leave every phase. -/
def Silent : Op (names ι n E) → Prop
  | .ask (.add _) | .call (.whileFull _) | .call (.addLoop _ _) => False
  | _ => True

omit [DecidableEq E] in
/-- So does what is no part of the resize procedure. -/
theorem silent_of_quiet {o : Op (names ι n E)} (h : Resizing.Quiet true o) : Silent o := by
  cases o with
  | ask q => cases q <;> trivial
  | call p => cases p <;> trivial
  | acquire | release | wait | resume | signal | broadcast | load | store | spawn => trivial

theorem keeps_of_silent {o : Op (names ι n E)} (h : Silent o) :
    (protocol ι n E).Keeps t φ (o.extend _ _) := by
  cases o with
  | ask q => cases q <;> first | exact fun _ => rfl | cases h
  | call p => cases p <;> first | exact ⟨trivial, fun _ _ h => h⟩ | cases h
  | wait c l => exact ⟨rfl, rfl⟩
  | acquire | release | resume | signal | broadcast | load | store | spawn => exact fun _ => rfl

theorem conforms_of_silent {α : Type} {p : Code ι n E α} (hp : p.Only Silent) :
    Conforms (protocol ι n E) t φ (noted p) fun _ ψ => ψ = φ :=
  Conforms.of_keeps (Prog.Only.extend (hp.mono fun _ => keeps_of_silent))

theorem conforms_of_quiet {α : Type} {p : Code ι n E α} (hp : p.Only (Resizing.Quiet true)) :
    Conforms (protocol ι n E) t φ (noted p) fun _ ψ => ψ = φ :=
  conforms_of_silent (hp.mono fun _ => silent_of_quiet)

attribute [local simp] Silent Prog.Only.ite_iff Prog.ite_bind

theorem trans_add (entry : E) (index : Int) :
    (protocol ι n E).trans t (refused entry) (.ask (.add entry)) index =
      some (offered entry index) := if_pos rfl

omit [DecidableEq E] in
theorem offered_of_ne {entry : E} {index : Int} (h : index ≠ IS_FULL) :
    offered entry index = answered entry index := if_neg h

theorem conforms_whileFull (entry : E) :
    Conforms (protocol ι n E) t (refused entry) (noted (QueueProducerInterface.whileFull entry))
      fun index ψ => index ≠ IS_FULL ∧ ψ = answered entry index := by
  intro index
  refine ⟨offered entry index, trans_add entry index, ?_⟩
  by_cases hfull : index = IS_FULL
  · subst hfull
    exact ⟨rfl, fun _ _ h => h⟩
  · simp only [Prog.done_bind, if_neg hfull]
    exact ⟨hfull, offered_of_ne hfull⟩

/-- Afterwards the index is still that of the last `add`. -/
theorem conforms_checkResizable (entry : E) (index : Int) :
    Conforms (protocol ι n E) t (offered entry index)
      (noted (QueueProducerInterface.checkResizable entry index))
      fun index ψ => ψ = offered entry index := by
  by_cases hfull : index = IS_FULL
  · subst hfull
    intro maxSize
    refine ⟨_, rfl, ?_⟩
    by_cases hmax : maxSize = 0
    · subst hmax
      exact rfl
    · simp only [Prog.done_bind, ne_eq, hmax, not_false_eq_true, if_true]
      refine ⟨rfl, ?_⟩
      rintro index ψ ⟨hindex, rfl⟩
      exact (offered_of_ne hindex).symm
  · simp only [QueueProducerInterface.checkResizable, if_neg hfull]
    exact rfl

omit [DecidableEq E] in
theorem silent_pauseThreadsForResize :
    (QueueProducerInterface.pauseThreadsForResize : Code ι n E Unit).Only Silent := by
  have hadders : (ResizeControls.pauseAdders : Code ι n E Unit).Only Silent := by
    simp [ResizeControls.pauseAdders]
  apply hadders.bind
  intro _
  exact (Resizing.processor_pause_quiet true).mono fun _ => silent_of_quiet

omit [DecidableEq E] in
theorem silent_resumeThreadsForResize :
    (QueueProducerInterface.resumeThreadsForResize : Code ι n E Unit).Only Silent := by
  have hresume : (QueueProcessor.resume : Code ι n E Unit).Only Silent :=
    Resizing.processor_resume_quiet.mono fun _ => silent_of_quiet
  apply hresume.bind
  simp [ResizeControls.resumeAdders]

theorem conforms_checkFull (index : Int) :
    Conforms (protocol ι n E) t φ (noted (ResizeControls.checkFull index)) fun full ψ =>
      (full = true ↔ index = IS_FULL) ∧ ψ = φ := by
  by_cases hfull : index = IS_FULL <;>
    simp [ResizeControls.checkFull, hfull, Conforms, protocol, step]

theorem conforms_checkFullForResize (index : Int) :
    Conforms (protocol ι n E) t φ (noted (ResizeControls.checkFullForResize index)) fun full ψ =>
      (full = true ↔ index = IS_FULL) ∧ ψ = φ := by
  simp [ResizeControls.checkFullForResize, Conforms, protocol, step]

theorem conforms_addLoop (entry : E) (index : Int) :
    Conforms (protocol ι n E) t (offered entry index)
      (noted (QueueProducerInterface.addLoop entry index))
      fun index ψ => index ≠ IS_FULL ∧ ψ = answered entry index := by
  simp only [QueueProducerInterface.addLoop, noted, Prog.bind_eq, Prog.extend_bind]
  apply (conforms_checkResizable entry index).bind
  rintro index _ rfl
  apply (conforms_checkFull index).bind
  rintro (_ | _) _ ⟨hfull, rfl⟩
  · have hnot : index ≠ IS_FULL := by simpa using hfull
    exact ⟨hnot, offered_of_ne hnot⟩
  obtain rfl : index = IS_FULL := by simpa using hfull
  intro index
  refine ⟨_, trans_add entry index, ?_⟩
  simp only [Prog.done_bind, Prog.extend_bind]
  apply (conforms_checkFullForResize index).bind
  rintro (_ | _) _ ⟨hagain, rfl⟩
  · have hnot : index ≠ IS_FULL := by simpa using hagain
    exact ⟨hnot, offered_of_ne hnot⟩
  obtain rfl : index = IS_FULL := by simpa using hagain
  simp only [Prog.extend_bind, if_true]
  apply (conforms_of_silent silent_pauseThreadsForResize).bind
  rintro _ _ rfl
  intro resized
  refine ⟨_, rfl, ?_⟩
  apply (conforms_of_silent silent_resumeThreadsForResize).bind
  rintro _ _ rfl
  intro index
  exact ⟨_, trans_add entry index, rfl, fun _ _ h => h⟩

/-- What `addToQueue` returns is the index of its last `add`, or there was none. -/
theorem conforms_addToQueue (entry : E) :
    Conforms (protocol ι n E) t (refused entry) (noted (QueueProducerInterface.addToQueue entry))
      fun index ψ => (index ≠ IS_FULL ∧ ψ = answered entry index) ∨
        index = IS_TERMINATED ∧ ψ = refused entry := by
  intro terminated
  refine ⟨_, rfl, ?_⟩
  cases terminated with
  | true => exact .inr ⟨rfl, rfl⟩
  | false =>
      simp
      apply (conforms_of_silent (p := (ResizeControls.waitForResize : Code ι n E Unit))
        (by simp [ResizeControls.waitForResize])).bind
      rintro _ _ rfl
      intro index
      exact ⟨_, trans_add entry index, rfl, fun _ _ h => .inl h⟩

theorem conforms_method (c : ClientCall E) :
    Conforms (protocol ι n E) t (enters c out) (notedMethod c) fun _ ψ => ψ = out := by
  cases c with
  | add entry =>
      apply (conforms_addToQueue entry).bind
      intro index ψ hψ
      refine ⟨out, ?_, ?_⟩
      · rcases hψ with ⟨-, rfl⟩ | ⟨rfl, rfl⟩
        · exact if_pos ⟨rfl, rfl⟩
        · exact if_pos ⟨rfl, rfl⟩
      · simp only [Prog.done_bind]
        split
        · exact conforms_of_quiet Resizing.broadcast_quiet
        · exact rfl
  | start => exact conforms_of_quiet Resizing.processor_start_quiet
  | stop => exact conforms_of_quiet Resizing.processor_stop_quiet
  | pause block => exact conforms_of_quiet (Resizing.processor_pause_quiet block)
  | resume => exact conforms_of_quiet Resizing.processor_resume_quiet
  | terminate => exact conforms_of_quiet Resizing.terminate_quiet

/-- All methods keep to the protocol. -/
theorem obeyed [DecidableEq ι] (fuel : Nat) :
    (protocol ι n E).Obeyed (notedProcessor ι n E fuel) where
  body := by
    intro t p φ hpre
    cases p with
    | whileResizing =>
        exact conforms_of_silent (p := ResizeControls.whileResizing)
          (by simp [ResizeControls.whileResizing])
    | whileAdding =>
        exact conforms_of_silent (p := ResizeControls.whileAdding)
          (by simp [ResizeControls.whileAdding])
    | whileFull entry =>
        obtain rfl := hpre
        exact conforms_whileFull entry
    | addLoop entry index =>
        obtain rfl := hpre
        exact conforms_addLoop entry index
    | runLoop w => exact conforms_of_quiet (Resizing.runLoop_quiet w)
    | whileAlive w => exact conforms_of_quiet (Resizing.whileAlive_quiet w)
  main := by
    rintro (i | w) φ hφ
    · exact hφ
    · exact (conforms_of_quiet (Resizing.run_quiet w)).mono fun _ _ hψ => hψ.trans hφ
  entry := by
    rintro (i | w) c m m' p φ hentry hφ
    · obtain ⟨-, rfl⟩ : _ ∧ notedMethod c = p := by simpa [notedProcessor] using hentry
      obtain rfl := hφ
      exact conforms_method c
    · simp [notedProcessor] at hentry

/-! ## The invariant -/

/-- One of the `add`s stored the entry, and the others left the queue as it was. -/
def StoredOnce (entry : E) (issued : List (IssuedAdd n E)) : Prop :=
  ∃ later a earlier, issued = later ++ a :: earlier ∧ a.Stores entry ∧
    ∀ b ∈ later ++ earlier, b.Refused

/-- All of them did. -/
def NeverStored (issued : List (IssuedAdd n E)) : Prop := ∀ a ∈ issued, a.Refused

/-- What the `add`s of a call have done, if the last was answered by this index. -/
def Done (entry : E) (issued : List (IssuedAdd n E)) (index : Int) : Prop :=
  0 ≤ index ∧ StoredOnce entry issued ∨
    (index = CANNOT_ADD ∨ index = IS_TERMINATED) ∧ NeverStored issued

/-- What they have done so far. -/
def Trail (issued : List (IssuedAdd n E)) : Phase E → Prop
  | out => True
  | refused _ => NeverStored issued
  | answered entry index => Done entry issued index

structure Sound (φ : Thread ι n → Phase E) (m : Depot ι n E) : Prop where
  trail : ∀ t, Trail (m.issued t) (φ t)
  returned : ∀ c ∈ m.returned, Done c.entry c.issued c.result

namespace Sound

variable [DecidableEq ι] {ψ : Phase E} {s s' : Depot ι n E} {φ : Thread ι n → Phase E}

omit [DecidableEq ι] [DecidableEq E] in
/-- What is no matter of `addToQueue` changes. -/
theorem stay (h : Sound φ s) (hissued : s'.issued = s.issued)
    (hreturned : s'.returned = s.returned) : Sound φ s' := by
  constructor
  · rw [hissued]
    exact h.trail
  · rw [hreturned]
    exact h.returned

omit [DecidableEq E] in
/-- The thread stays where it is. -/
theorem stays {t : Thread ι n} (h : Sound φ s) (hψ : some (φ t) = some ψ)
    (hissued : s'.issued = s.issued) (hreturned : s'.returned = s.returned) :
    Sound (Function.update φ t ψ) s' := by
  obtain rfl := Option.some.inj hψ
  rw [Function.update_eq_self]
  exact h.stay hissued hreturned

omit [DecidableEq E] in
/-- The thread moves, and what it has issued with it. -/
theorem move {t : Thread ι n} {issued : List (IssuedAdd n E)} (h : Sound φ s)
    (hissued : s'.issued = Function.update s.issued t issued) (htrail : Trail issued ψ)
    (hreturned : s'.returned = s.returned) : Sound (Function.update φ t ψ) s' := by
  constructor
  · intro u
    rw [hissued]
    by_cases hut : u = t
    · subst hut
      simpa using htrail
    · simpa [hut] using h.trail u
  · rw [hreturned]
    exact h.returned

omit [DecidableEq ι] [DecidableEq E] in
/-- An `add`, after others that were refused. -/
theorem trail_add {s : SyncQueue (Fin n) E} {issued : List (IssuedAdd n E)} (entry : E)
    (h : NeverStored issued) :
    Trail (⟨entry, s, (s.add entry).1, (s.add entry).2⟩ :: issued)
      (offered entry (s.add entry).2) := by
  have hnever : (s.toReaderWriterQueue.add entry).1 = s.toReaderWriterQueue → ∀ index,
      NeverStored (⟨entry, s, (s.add entry).1, index⟩ :: issued) := by
    intro hsame index
    rintro a (_ | ⟨_, ha⟩)
    · show (s.add entry).1 = s
      simp only [SyncQueue.add, hsame]
    · exact h a ha
  rcases s.toReaderWriterQueue.add_cases entry with ⟨hindex, hstored⟩ | ⟨hindex | hindex, hsame⟩
  · have hindex : 0 ≤ (s.add entry).2 := hindex
    have hnot : (s.add entry).2 ≠ IS_FULL := by
      intro hfull
      rw [hfull] at hindex
      exact absurd hindex (by decide)
    rw [offered_of_ne hnot]
    refine .inl ⟨hindex, [], _, issued, rfl, ⟨rfl, ?_⟩, h⟩
    show (s.add entry).1 = _
    simp only [SyncQueue.add, hstored]
  · have hfull : (s.add entry).2 = IS_FULL := hindex
    rw [hfull]
    exact hnever hsame IS_FULL
  · have hcannot : (s.add entry).2 = CANNOT_ADD := hindex
    rw [hcannot, offered_of_ne (by decide)]
    exact .inr ⟨.inl rfl, hnever hsame CANNOT_ADD⟩

theorem ask (h : Sound φ s) {fuel : Nat} {t : Thread ι n} {q : Query n E} {a : Int}
    (hreply : s.reply fuel t q a = some s')
    (hψ : step (φ t) (.ask q : Op (notedNames ι n E)) a = some ψ) :
    Sound (Function.update φ t ψ) s' := by
  cases q with
  | add entry =>
      simp only [Depot.reply] at hreply
      split at hreply
      · rename_i hindex
        subst hindex
        obtain rfl := Option.some.inj hreply
        have htrail := h.trail t
        cases hφ : φ t with
        | refused entry' =>
            rw [hφ] at htrail
            obtain ⟨rfl, rfl⟩ : entry = entry' ∧ offered entry (s.queue.add entry).2 = ψ := by
              simpa [step, hφ, offered] using hψ
            exact h.move rfl (trail_add entry htrail) rfl
        | out => simp [step, hφ] at hψ
        | answered entry' index => simp [step, hφ] at hψ
      · cases hreply
  | started w | handle w =>
      obtain rfl := Option.some.inj hreply
      exact h.stays hψ rfl rfl
  | isMaxSize | isWork w =>
      simp only [Depot.reply] at hreply
      split at hreply
      · obtain rfl := Option.some.inj hreply
        exact h.stays hψ rfl rfl
      · cases hreply
  | resize | init w | finalize w =>
      simp only [Depot.reply] at hreply
      split at hreply
      · obtain rfl := Option.some.inj hreply
        exact h.stays hψ rfl rfl
      · cases hreply
  | remove w =>
      simp only [Depot.reply] at hreply
      split at hreply
      · split at hreply
        · obtain rfl := Option.some.inj hreply
          exact h.stays hψ rfl rfl
        · cases hreply
      · cases hreply

theorem note (h : Sound φ s) {t : Thread ι n} {entry : E} {index : Int}
    (hψ : step (φ t) (.store (.inr (entry, index)) : Op (notedNames ι n E)) () = some ψ) :
    Sound (Function.update φ t ψ) (s.note t entry index) := by
  have htrail := h.trail t
  obtain ⟨rfl, hdone⟩ : ψ = out ∧ Done entry (s.issued t) index := by
    cases hφ : φ t with
    | out => simp [step, hφ] at hψ
    | refused entry' =>
        rw [hφ] at htrail
        obtain ⟨⟨rfl, rfl⟩, hout⟩ : (entry = entry' ∧ index = IS_TERMINATED) ∧ out = ψ := by
          simpa [step, hφ] using hψ
        exact ⟨hout.symm, .inr ⟨.inr rfl, htrail⟩⟩
    | answered entry' index' =>
        rw [hφ] at htrail
        obtain ⟨⟨rfl, rfl⟩, hout⟩ : (entry = entry' ∧ index = index') ∧ out = ψ := by
          simpa [step, hφ] using hψ
        exact ⟨hout.symm, htrail⟩
  constructor
  · intro u
    by_cases hut : u = t
    · subst hut
      simp [Trail]
    · simpa [hut, Depot.note] using h.trail u
  · rintro c (_ | ⟨_, hc⟩)
    · exact hdone
    · exact h.returned c hc

theorem act {s s' : Shared (notedNames ι n E) (Depot ι n E)} {t : Thread ι n} {fuel : Nat}
    {o : Op (notedNames ι n E)} {r : o.Result} (h : Sound φ s.memory)
    (heffect : (notedProcessor ι n E fuel).Effect s t o r s') (hψ : step (φ t) o r = some ψ) :
    Sound (Function.update φ t ψ) s'.memory := by
  cases heffect with
  | acquire hfree | release hheld | wait hheld | resume hawake hfree | unheard hnone
  | signal hasleep | broadcast | spawn => exact h.stays hψ rfl rfl
  | load => exact h.stays hψ rfl rfl
  | ask hreply => exact h.ask hreply hψ
  | @store x =>
      rcases x with x | ⟨entry, index⟩
      · exact h.stays hψ rfl rfl
      · exact h.note hψ

omit [DecidableEq E] in
/-- A client is given a call. -/
theorem enter (h : Sound φ s) {t : Thread ι n} (c : ClientCall E) :
    Sound (Function.update φ t (enters c (φ t))) (s.enter t c) := by
  cases c with
  | add entry => exact h.move rfl (fun a ha => nomatch ha) rfl
  | start | stop | pause block | resume | terminate => exact h.stays rfl rfl rfl

end Sound

/-- The invariant holds in every state reached. -/
theorem sound_of_reachable [DecidableEq ι] {fuel queueSize : Nat}
    {dataEntries : ProcessingQueueDataArray E} {s : State (notedNames ι n E) (Depot ι n E)}
    (h : ((notedProcessor ι n E fuel).system
      (newNotedProcessor ι n queueSize dataEntries)).Reachable s) :
    ∃ φ, Sound φ s.shared.memory := by
  have hnew : Sound (fun _ => out) (newNotedProcessor ι n queueSize dataEntries).shared.memory :=
    ⟨fun _ => trivial, fun c hc => nomatch hc⟩
  have hbegins : (protocol ι n E).Obeys (fun _ => out)
      (newNotedProcessor ι n queueSize dataEntries) := fun _ => rfl
  have hreached := Protocol.invariant_of_effects (obeyed fuel)
    (J := fun φ s => Sound φ s.memory) hbegins hnew ?_ ?_ ?_ ?_ h.restrict_true
  · obtain ⟨φ, -, hsound⟩ := hreached
    exact ⟨φ, hsound⟩
  · intro φ s t c o r shared ψ hJ _ _ heffect htrans
    exact hJ.act heffect htrans
  · intro φ shared t u ψ hJ htrans _
    have hborn : (protocol ι n E).born u (φ u) = φ u := rfl
    rw [hborn, Function.update_eq_self]
    exact hJ.stays htrans rfl rfl
  · intro φ s t c l ψ hJ _ _
    exact hJ
  · intro φ s t c m p hJ _ hentry _
    rcases t with i | w
    · obtain ⟨rfl, -⟩ : _ = m ∧ _ := by simpa [notedProcessor] using hentry
      exact hJ.enter c
    · simp [notedProcessor] at hentry

end Adding

open Adding in
/-- Whatever the threads do, every call of `addToQueue` that has returned has returned a
value other than `IS_FULL`; if it is an index, one of the `add`s it issued has stored its
entry and no other has, and if it is `CANNOT_ADD` or `IS_TERMINATED`, none has. -/
theorem addToQueue_once [DecidableEq ι] {fuel queueSize : Nat}
    {dataEntries : ProcessingQueueDataArray E} {s : State (notedNames ι n E) (Depot ι n E)}
    (h : ((notedProcessor ι n E fuel).system
      (newNotedProcessor ι n queueSize dataEntries)).Reachable s) :
    ∀ c ∈ s.shared.memory.returned, c.result ≠ IS_FULL ∧
      (0 ≤ c.result → StoredOnce c.entry c.issued) ∧
      (c.result = CANNOT_ADD ∨ c.result = IS_TERMINATED → NeverStored c.issued) := by
  classical
  intro c hc
  obtain ⟨φ, hsound⟩ := sound_of_reachable h
  rcases hsound.returned c hc with ⟨hindex, hstored⟩ | ⟨hresult, hnever⟩
  · refine ⟨?_, fun _ => hstored, ?_⟩
    · intro hfull
      rw [hfull] at hindex
      exact absurd hindex (by decide)
    · rintro (hcannot | hterminated)
      · rw [hcannot] at hindex
        exact absurd hindex (by decide)
      · rw [hterminated] at hindex
        exact absurd hindex (by decide)
  · refine ⟨?_, ?_, fun _ => hnever⟩
    · rcases hresult with hcannot | hterminated
      · rw [hcannot]
        decide
      · rw [hterminated]
        decide
    · intro hindex
      rcases hresult with hcannot | hterminated
      · rw [hcannot] at hindex
        exact absurd hindex (by decide)
      · rw [hterminated] at hindex
        exact absurd hindex (by decide)

open Adding in
/-- A client adds to an empty queue. -/
theorem storedOnce_of_room :
    ∃ c : AddCall 1 Unit, c.result = 0 ∧ StoredOnce c.entry c.issued := by
  obtain ⟨s, hs, hresult⟩ := (notedProcessor Unit 1 Unit 0).exists_of_follow
    (newNotedProcessor Unit 1 2 (.uniform Unit 16)) (fun _ _ => True)
    (fun s => s.shared.memory.returned.head?.map (fun c => c.result) = some 0)
    (.enter (.client ()) (.add ()) :: List.replicate 6 (.step (.client ()) .go) ++
      .step (.client ()) (.answer 0) :: List.replicate 5 (.step (.client ()) .go))
    (by decide +kernel)
  obtain ⟨c, hc, hzero⟩ := Option.map_eq_some_iff.mp hresult
  have hindex : 0 ≤ c.result := by rw [hzero]
  exact ⟨c, hzero, (addToQueue_once hs.of_restrict c (List.mem_of_head? hc)).2.1 hindex⟩

end HPQueue
