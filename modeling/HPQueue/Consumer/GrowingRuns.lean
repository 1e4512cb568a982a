import HPQueue.Consumer.GrowingWork
import HPQueue.Consumer.ResizeAccess

/-!
# Whole runs of a processor whose queue grows

A run is careful when nobody stops the processor, each resize `ResizesCleanly`, and no worker
has an entry in hand meanwhile.  The last need not be asked for where clients do not
take back more pauses than they have made: who resizes the queue has paused the processor
first, and waited for the workers.

## Main results

* `handled_across_resizes` — each worker handles what it is given, in order.
* `rests_across_resizes` — where nobody can go on, everything was handled, once.
* `done_of_considerate` — both, for clients that are considerate.
-/

namespace HPQueue

open Library.Threads Prog Attendance

variable {ι : Type} {n : Nat} {E : Type}

/-- The thread is about to resize the queue. -/
def resizesNext : Code ι n E Unit → Bool
  | .op (.ask .resize) _ => true
  | _ => false

/-- The thread has an entry in hand. -/
def handlesNext : Code ι n E Unit → Bool
  | .op (.ask (.handle _)) _ => true
  | _ => false

theorem resizesNext_of_head {p : Code ι n E Unit} (h : p.head = some (.ask .resize)) :
    resizesNext p = true := by
  cases p with
  | done a => cases h
  | op o k =>
      obtain rfl : o = .ask .resize := Option.some.inj h
      rfl

theorem head_of_resizesNext {p : Code ι n E Unit} (h : resizesNext p = true) :
    p.head = some (.ask .resize) := by
  unfold resizesNext at h
  split at h
  · rfl
  · cases h

theorem head_of_handlesNext {p : Code ι n E Unit} (h : handlesNext p = true) :
    ∃ w, p.head = some (.ask (.handle w)) := by
  unfold handlesNext at h
  split at h
  · exact ⟨_, rfl⟩
  · cases h

variable [DecidableEq ι]

/-- Nobody stops the processor, and who resizes the queue `ResizesCleanly`, while no worker has
an entry in hand. -/
def Careful (s : State (names ι n E) (GrowingPlant ι n E)) : Label (names ι n E) → Prop
  | .enter _ .stop => False
  | .enter _ .terminate => False
  | .step t _ =>
      resizesNext (s.prog t) = true →
        s.shared.memory.queue.ResizesCleanly s.shared.memory.queue.queue.getNewQueueSize ∧
          ∀ w, handlesNext (s.prog (.worker w)) = false
  | _ => True

instance (s : State (names ι n E) (GrowingPlant ι n E)) :
    (l : Label (names ι n E)) → Decidable (Careful s l)
  | .enter _ .stop => .isFalse id
  | .enter _ .terminate => .isFalse id
  | .enter _ (.add _) => .isTrue trivial
  | .enter _ .start => .isTrue trivial
  | .enter _ (.pause _) => .isTrue trivial
  | .enter _ .resume => .isTrue trivial
  | .step _ _ => inferInstanceAs (Decidable (_ → _))
  | .spurious _ => .isTrue trivial

variable {queueSize : Nat}

/-- In every state of a careful run the workers keep to what the queue gives them. -/
theorem grows_of_reachable (hsize : 2 ≤ queueSize) (dataEntries : ProcessingQueueDataArray E)
    {s : State (names ι n E) (GrowingPlant ι n E)}
    (h : (((growingProcessor ι n E).system
      (newGrowingProcessor ι n queueSize dataEntries)).restrict Careful).Reachable s) :
    ∃ φ, (growingProtocol ι n E).Obeys φ s ∧ Grows φ s.shared := by
  have hobeys : (growingProtocol ι n E).Obeys atFirst
      (newGrowingProcessor ι n queueSize dataEntries) := by
    rintro (i | w)
    · exact .inr (.inl rfl)
    · exact .inr (.inl rfl)
  apply Protocol.invariant growing_obeyed (J := Grows) hobeys (.new hsize dataEntries) ?_ h
  intro φ s l φ' shared _ hJ hC hmoves
  cases hmoves with
  | @act t c o r _ ψ hhead hexec htrans hcreates =>
      by_cases hspawn : ∃ u, o = .spawn u
      · obtain ⟨u, rfl⟩ := hspawn
        obtain rfl : shared = s.shared := by
          cases Machine.effect_of_exec hexec
          rfl
        exact hJ.spawn htrans (hcreates u rfl)
      · replace hspawn := not_exists.mp hspawn
        have heffect := Machine.effect_of_exec hexec
        have hbirths : (growingProtocol ι n E).births φ o = φ := by
          cases o with
          | spawn u => exact absurd rfl (hspawn u)
          | acquire l | release l | wait c' l | resume c' l | signal c' | broadcast c' | load x
          | store x | ask q | call p => rfl
        rw [hbirths]
        by_cases ho : o = .ask .resize
        · subst ho
          exact hJ.resize (hC (resizesNext_of_head hhead)).1 heffect htrans
        · exact hJ.act hspawn ho heffect htrans
  | silent => exact hJ
  | @spurious t c l ψ hhead hasleep htrans => exact hJ.wake c t
  | @enter t c m p u hdone hentry hfinal =>
      cases t with
      | worker w => cases hentry
      | client i =>
          obtain ⟨rfl, rfl⟩ : s.shared.memory.enter (.client i) = m ∧ method c = p := by
            simpa [growingProcessor, threadCall] using hentry
          refine hJ.enter ⟨?_, ?_⟩ hfinal
          · rintro rfl
            exact hC
          · rintro rfl
            exact hC

/-- Through all resizes, no entry is handed out twice, each worker is given entries in the order
in which they were accepted, and handles what it is given, in that order, all but the entry it
has in hand, which its slot keeps. -/
theorem handled_across_resizes (hsize : 2 ≤ queueSize) (dataEntries : ProcessingQueueDataArray E)
    {s : State (names ι n E) (GrowingPlant ι n E)}
    (h : (((growingProcessor ι n E).system
      (newGrowingProcessor ι n queueSize dataEntries)).restrict Careful).Reachable s) :
    (∃ given, s.shared.memory.queue.Numbers given) ∧
    (∀ w, ∃ rest : List (Cell E), rest.length ≤ 1 ∧
      (s.shared.memory.handedTo w).map Cell.entry = s.shared.memory.handledBy w ++ rest) ∧
    ∀ w, (s.prog (.worker w)).head = some (.ask (.handle w)) →
      ∃ e, (s.shared.memory.handedTo w).map Cell.entry =
          s.shared.memory.handledBy w ++ [.entry e] ∧
        s.shared.memory.queue.queue.queueData (s.shared.memory.queue.queue.readers w).index =
          .entry e := by
  obtain ⟨φ, hobeys, horderly, k, off, T, given, htracked⟩ := grows_of_reachable hsize dataEntries h
  refine ⟨⟨given, htracked.traces.numbers⟩, fun w => (htracked.kept w).rest, ?_⟩
  intro w hhead
  obtain ⟨ψ, hψ⟩ := (hobeys (.worker w)).trans_of_head hhead (by simp) (0 : Int)
  exact htracked.inHand (taken_of_handle (E := E) (horderly.attends _) hψ)

/-- A worker handles two entries of a queue of four slots, which then is full and wraps around;
it doubles, and the worker takes the next entry. -/
def grownOnce (w : Fin 1) : List (Label (names Unit 1 Nat)) :=
  let client (k : Nat) : List (Label (names Unit 1 Nat)) :=
    List.replicate k (.step (.client ()) .go)
  let worker (k : Nat) : List (Label (names Unit 1 Nat)) :=
    List.replicate k (.step (.worker w) .go)
  let told (a : Int) : List (Label (names Unit 1 Nat)) := [.step (.client ()) (.answer a)]
  let answered (a : Int) : List (Label (names Unit 1 Nat)) := [.step (.worker w) (.answer a)]
  let added (entry : Nat) (index : Int) : List (Label (names Unit 1 Nat)) :=
    [.enter (.client ()) (.add entry)] ++ client 6 ++ told index ++ client 11
  [.enter (.client ()) .start] ++ client 18 ++ answered 0 ++ answered 0 ++
    added 10 0 ++ added 11 1 ++
    worker 2 ++ answered 1 ++ answered 0 ++ worker 3 ++ answered 1 ++ answered 0 ++
    added 12 2 ++ added 13 3 ++
    [.enter (.client ()) (.add 14)] ++ client 6 ++ told QueueConstants.IS_FULL ++ client 1 ++
    told 0 ++ client 4 ++ told QueueConstants.IS_FULL ++ client 27 ++
    worker 7 ++ [.step (.worker w) (.wake (.client ()))] ++ worker 1 ++
    client 6 ++ told 16 ++ client 12 ++ [.step (.client ()) (.wake (.worker w))] ++ client 9 ++
    told 0 ++ client 11 ++ worker 6 ++ answered 1

theorem handled_across_resizes_of_grownOnce :
    ∃ s : State (names Unit 1 Nat) (GrowingPlant Unit 1 Nat),
      s.shared.memory.queue.queue.currentSize = 8 ∧
      s.shared.memory.handledBy 0 = [.entry 10, .entry 11] ∧
      ∃ e, (s.shared.memory.handedTo 0).map Cell.entry = [.entry 10, .entry 11, .entry e] := by
  obtain ⟨s, hs, hsize, hhandled, hnext⟩ := (growingProcessor Unit 1 Nat).exists_of_follow
    (newGrowingProcessor Unit 1 4 (.uniform Nat 8)) Careful
    (fun s => s.shared.memory.queue.queue.currentSize = 8 ∧
      s.shared.memory.handledBy 0 = [.entry 10, .entry 11] ∧
      handlesNext (s.prog (.worker 0)) = true)
    (grownOnce 0) (by decide +kernel)
  obtain ⟨w, hhead⟩ := head_of_handlesNext hnext
  obtain rfl : w = 0 := Subsingleton.elim _ _
  obtain ⟨-, -, hinHand⟩ := handled_across_resizes (by decide) _ hs
  obtain ⟨e, hhanded, -⟩ := hinHand 0 hhead
  exact ⟨s, hsize, hhandled, e, by rw [hhanded, hhandled]; rfl⟩

/-! ## At rest -/

/-- Every query has an answer: a resize ends. -/
theorem exists_growing_reply {φ : Thread ι n → Phase n}
    {s : State (names ι n E) (GrowingPlant ι n E)} {t : Thread ι n}
    (hobeys : (growingProtocol ι n E).Obeys φ s) (hgrows : Grows φ s.shared) {q : Query n E}
    (hhead : (s.prog t).head = some (.ask q)) :
    ∃ a m, (growingProcessor ι n E).reply t q a s.shared.memory = some m := by
  obtain ⟨horderly, k, off, T, given, htracked⟩ := hgrows
  have hattends := horderly.attends t
  have hanswer : ∀ b : Bool, ∃ a : Int, b = decide (a ≠ 0) :=
    fun b => ⟨if b then 1 else 0, by cases b <;> simp⟩
  have hasks : q ≠ .resize → ∃ ψ, asks t (φ t) 0 q = some ψ := by
    intro hq
    obtain ⟨ψ, hψ⟩ := (hobeys t).trans_of_head hhead (by simp) (0 : Int)
    rw [growing_ask hq] at hψ
    have hne : φ t ≠ .never := by
      intro hnever
      rw [hnever] at hattends
      cases t <;> cases hattends
    exact ⟨ψ, by rwa [step, if_neg hne] at hψ⟩
  cases q with
  | add entry => exact ⟨_, _, if_pos rfl⟩
  | isMaxSize =>
      obtain ⟨a, ha⟩ := hanswer (decide (s.shared.memory.queue.queue.currentSize ≥
        MAX_QUEUE_SIZE s.shared.memory.queue.queue.getEntrySize))
      exact ⟨a, _, if_pos ha⟩
  | resize =>
      obtain ⟨F, u, hrun⟩ :=
        htracked.traces.exists_resize s.shared.memory.queue.queue.getNewQueueSize
      exact ⟨(F : Int), { s.shared.memory with queue := u }, by
        simp [growingProcessor, GrowingPlant.reply, hrun F (Nat.le_refl F)]⟩
  | started w => exact ⟨0, _, rfl⟩
  | init w =>
      obtain ⟨ψ, hψ⟩ := hasks (by simp)
      obtain ⟨⟨rfl, hφ⟩, -⟩ := Option.ite_none_right_eq_some.mp hψ
      have hw : w ∉ T.line := by
        rw [htracked.heard.registered w]
        simp [hφ]
      obtain ⟨u, hrun, -⟩ := htracked.traces.startAccess (r := w) (by
        rw [← Bool.not_eq_true, htracked.traces.represents.mem_iff]
        exact hw)
      exact ⟨0, { s.shared.memory with queue := u }, by
        simp [growingProcessor, GrowingPlant.reply, hrun]⟩
  | finalize w =>
      obtain ⟨ψ, hψ⟩ := hasks (by simp)
      obtain ⟨⟨rfl, hφ⟩, -⟩ := Option.ite_none_right_eq_some.mp hψ
      rw [hφ] at hattends
      cases hattends
  | remove w =>
      obtain ⟨ψ, hψ⟩ := hasks (by simp)
      obtain ⟨⟨rfl, hφ⟩, -⟩ := Option.ite_none_right_eq_some.mp hψ
      have hw : w ∈ T.line := (htracked.heard.registered w).mpr (by simp [hφ])
      obtain ⟨u, hrun, -⟩ :=
        htracked.traces.remove (htracked.traces.represents.mem_iff.mpr hw)
      obtain ⟨a, ha⟩ := hanswer (T.answer k w).isSome
      exact ⟨a, { s.shared.memory with queue := u }, by
        simp [growingProcessor, GrowingPlant.reply, hrun, ha]⟩
  | handle w => exact ⟨0, _, rfl⟩
  | isWork w =>
      obtain ⟨a, ha⟩ := hanswer !s.shared.memory.queue.queue.slotIsEmpty w
      refine ⟨a, _, if_pos ?_⟩
      cases hempty : s.shared.memory.queue.queue.slotIsEmpty w <;> simp_all

omit [DecidableEq ι] in
theorem spared_of_careful (s : State (names ι n E) (GrowingPlant ι n E))
    (l : Label (names ι n E)) (h : Careful s l) : Spared (s.view GrowingPlant.control) l := by
  cases l with
  | enter t c => cases c <;> exact h
  | step t c | spurious t => trivial

omit [DecidableEq ι] in
/-- Where each worker has handled what it was given. -/
theorem perm_of_handedTo {m : GrowingPlant ι n E}
    (h : ∀ w, (m.handedTo w).map Cell.entry = m.handledBy w) :
    (m.handled.map Prod.snd).Perm ((m.queue.handed.map Prod.snd).map Cell.entry) := by
  classical
  let given := m.queue.handed.map fun p => (p.1, (Cell.entry p.2 : Cell E))
  have hcount : ∀ (zs : List (Fin n × Cell E)) (w : Fin n) (c : Cell E),
      zs.count (w, c) = ((zs.filter fun p => p.1 = w).map Prod.snd).count c := by
    intro zs w c
    induction zs with
    | nil => rfl
    | cons z zs ih =>
        obtain ⟨v, d⟩ := z
        by_cases hvw : v = w <;> simp [List.count_cons, ih, hvw]
  have hgiven : ∀ w, (given.filter fun p => p.1 = w).map Prod.snd =
      (m.handedTo w).map Cell.entry := by
    intro w
    simp [given, GrowingPlant.handedTo, List.filter_map, Function.comp_def]
  have hperm : m.handled.Perm given := by
    rw [List.perm_iff_count]
    rintro ⟨w, c⟩
    rw [hcount, hcount, hgiven, h w]
    rfl
  have hmap := hperm.map Prod.snd
  simpa [given, Function.comp_def] using hmap

/-- Where nobody can go on, the workers that are not paused have handled everything. -/
theorem done_of_grows [Fintype ι] (hn : 0 < n) {φ : Thread ι n → Phase n}
    {s : State (names ι n E) (GrowingPlant ι n E)} (hobeys : (growingProtocol ι n E).Obeys φ s)
    (hgrows : Grows φ s.shared)
    (hspared : (((processor ι n E).system (newProcessor ι n E)).restrict Spared).Reachable
      (s.view GrowingPlant.control))
    (hrests : ∀ t, ¬ (growingProcessor ι n E).Enabled s t)
    (hcreated : ∀ w, (s.prog (.worker w)).head ≠ none)
    (hpaused : ∀ w, s.shared.memory.control.flag (.worker w .isPausedFlag) = false) :
    (∀ i, (s.prog (.client i)).head = none) ∧
    (s.shared.memory.handled.map Prod.snd).Perm
      (s.shared.memory.queue.accepted.map Cell.entry) := by
  have hstuck : ∀ t, ¬ (processor ι n E).Enabled (s.view GrowingPlant.control) t := by
    intro t henabled
    refine hrests t (Machine.Covers.enabled henabled fun q hhead => ?_)
    exact exists_growing_reply hobeys hgrows hhead
  obtain ⟨hdone, hwaits⟩ := waits_of_stuck hspared hstuck
  obtain ⟨horderly, k, off, T, given, htracked⟩ := hgrows
  have hblocked : ∀ w, φ (.worker w) = .waiting ∧
      .worker w ∈ s.shared.asleep (.isWorkWaiting w) := by
    intro w
    cases hwaits w with
    | never hhead => exact absurd hhead (hcreated w)
    | forResume _ _ hresume => cases hresume.symm.trans (hpaused w)
    | forWork hhead hasleep _ =>
        obtain ⟨ψ, hψ⟩ := (hobeys (.worker w)).trans_of_head hhead (by simp) ()
        exact ⟨waiting_of_resume (E := E) (horderly.attends _) hψ, hasleep⟩
  have hline : ∀ w, w ∈ T.line :=
    fun w => (htracked.heard.registered w).mpr (by simp [(hblocked w).1])
  have hticket : ∀ w, T.written ≤ T.ticket w := by
    intro w
    by_contra hlt
    obtain ⟨t, ht⟩ := htracked.heard.owed w (.inr (.inr (hblocked w))) (Nat.not_le.mp hlt)
    -- a thread that owes a signal is in a call
    cases t with
    | worker v =>
        rw [owes_of_worker (horderly.attends (.worker v))] at ht
        cases ht
    | client i =>
        obtain ⟨-, hfinal⟩ := (hobeys (.client i)).post_of_head (hdone i)
        rw [final_client (E := E) (horderly.attends _) hfinal] at ht
        cases ht
  have hhanded : ∀ w, (s.shared.memory.handedTo w).map Cell.entry =
      s.shared.memory.handledBy w := by
    intro w
    have hkept := htracked.kept w
    rwa [Kept, if_neg (by simp [(hblocked w).1])] at hkept
  refine ⟨hdone, (perm_of_handedTo hhanded).trans (List.Perm.map _ ?_)⟩
  apply htracked.traces.perm
  intro j hj
  refine htracked.traces.sound.returned_of_drawn ?_ (fun w _ _ => hticket w) hj
  exact (hticket ⟨0, hn⟩).trans (Nat.le_of_lt (htracked.traces.sound.lt_next (hline _)))

/-- A processor whose queue grows comes to rest only when its work is done: where no thread can
go on, and every worker was created and is not paused, every call has returned, and what was
handled is what was accepted. -/
theorem rests_across_resizes [Fintype ι] (hn : 0 < n) (hsize : 2 ≤ queueSize)
    (dataEntries : ProcessingQueueDataArray E) {s : State (names ι n E) (GrowingPlant ι n E)}
    (h : (((growingProcessor ι n E).system
      (newGrowingProcessor ι n queueSize dataEntries)).restrict Careful).Reachable s)
    (hrests : ∀ t, ¬ (growingProcessor ι n E).Enabled s t)
    (hcreated : ∀ w, (s.prog (.worker w)).head ≠ none)
    (hpaused : ∀ w, s.shared.memory.control.flag (.worker w .isPausedFlag) = false) :
    (∀ i, (s.prog (.client i)).head = none) ∧
    (s.shared.memory.handled.map Prod.snd).Perm
      (s.shared.memory.queue.accepted.map Cell.entry) := by
  obtain ⟨φ, hobeys, hgrows⟩ := grows_of_reachable hsize dataEntries h
  exact done_of_grows hn hobeys hgrows (growing_covers.reachable spared_of_careful h) hrests
    hcreated hpaused

/-- The worker handles the other entries too, and waits. -/
def grownAndDone (w : Fin 1) : List (Label (names Unit 1 Nat)) :=
  let worker (k : Nat) : List (Label (names Unit 1 Nat)) :=
    List.replicate k (.step (.worker w) .go)
  let answered (a : Int) : List (Label (names Unit 1 Nat)) := [.step (.worker w) (.answer a)]
  grownOnce w ++ answered 0 ++ worker 3 ++ answered 1 ++ answered 0 ++ worker 3 ++ answered 1 ++
    answered 0 ++ worker 3 ++ answered 0 ++ worker 1 ++ answered 0 ++ worker 5

/-- Where the client is through and the worker waits, nobody can go on. -/
theorem rests_of_blocked {s : State (names Unit 1 Nat) (GrowingPlant Unit 1 Nat)}
    (hdone : (s.prog (.client ())).head = none)
    (hhead : (s.prog (.worker 0)).head = some (.resume (.isWorkWaiting 0) (.isWorkLock 0)))
    (hasleep : .worker 0 ∈ s.shared.asleep (.isWorkWaiting 0)) :
    (∀ t, ¬ (growingProcessor Unit 1 Nat).Enabled s t) ∧
      ∀ w, (s.prog (.worker w)).head ≠ none := by
  constructor
  · rintro (i | w) ⟨c, s', hnext⟩
    · cases hprog : s.prog (.client i) with
      | done a => simp [Machine.next, hprog] at hnext
      | op o k => simp [hprog, Prog.head] at hdone
    · obtain rfl : w = 0 := Subsingleton.elim _ _
      rw [Machine.next_of_asleep hhead hasleep] at hnext
      cases hnext
  · intro w hnone
    obtain rfl : w = 0 := Subsingleton.elim _ _
    cases hhead.symm.trans hnone

theorem rests_across_resizes_of_grownOnce :
    ∃ s : State (names Unit 1 Nat) (GrowingPlant Unit 1 Nat),
      s.shared.memory.queue.queue.currentSize = 8 ∧
      s.shared.memory.queue.accepted = [10, 11, 12, 13, 14] ∧
      (s.shared.memory.handled.map Prod.snd).Perm
        ([10, 11, 12, 13, 14].map Cell.entry) := by
  obtain ⟨s, hs, hsize, haccepted, hdone, ⟨hhead, hasleep⟩, hpaused⟩ :=
    (growingProcessor Unit 1 Nat).exists_of_follow
      (newGrowingProcessor Unit 1 4 (.uniform Nat 8)) Careful
      (fun s => s.shared.memory.queue.queue.currentSize = 8 ∧
        s.shared.memory.queue.accepted = [10, 11, 12, 13, 14] ∧
        (s.prog (.client ())).head = none ∧ Blocked (s.view GrowingPlant.plant) 0 ∧
        s.shared.memory.control.flag (.worker 0 .isPausedFlag) = false)
      (grownAndDone 0) (by decide +kernel)
  obtain ⟨hrests, hcreated⟩ := rests_of_blocked hdone hhead hasleep
  obtain ⟨-, hperm⟩ := rests_across_resizes (by decide) (by decide) _ hs hrests hcreated
    fun w => by rw [show w = 0 from Subsingleton.elim _ _, hpaused]
  exact ⟨s, hsize, haccepted, by rwa [haccepted] at hperm⟩

/-! ## Clients that are considerate -/

/-- The states of the processor with its queue, and a record of the calls. -/
abbrev GrowingRecorded (ι : Type) (n : Nat) (E : Type) :=
  State (names ι n E) (GrowingPlant ι n E × (Thread ι n → List (ClientCall E)))

namespace GrowingRecorded

/-- The processor, and the record. -/
def control (s : GrowingRecorded ι n E) : ResizePause.Recorded ι n E :=
  s.view (Prod.map GrowingPlant.control id)

/-- Who resizes the queue `ResizesCleanly`. -/
def Clean (s : GrowingRecorded ι n E) : Label (names ι n E) → Prop
  | .step t _ =>
      resizesNext (s.prog t) = true →
        s.shared.memory.1.queue.ResizesCleanly s.shared.memory.1.queue.queue.getNewQueueSize
  | _ => True

instance (s : GrowingRecorded ι n E) : (l : Label (names ι n E)) → Decidable (s.Clean l)
  | .step _ _ => inferInstanceAs (Decidable (_ → _))
  | .spurious _ => .isTrue trivial
  | .enter _ _ => .isTrue trivial

/-- And the clients are considerate. -/
def Considerate (s : GrowingRecorded ι n E) (l : Label (names ι n E)) : Prop :=
  ResizePause.Considerate s.control l ∧ s.Clean l

instance (s : GrowingRecorded ι n E) (l : Label (names ι n E)) : Decidable (s.Considerate l) :=
  inferInstanceAs (Decidable (_ ∧ _))

variable [Fintype ι]

/-- Then no worker has an entry in hand when the queue is resized. -/
theorem careful_of_considerate {s : GrowingRecorded ι n E} {l : Label (names ι n E)}
    (h : (((processor ι n E).recording.system (newProcessor ι n E).recorded).restrict
      ResizePause.Considerate).Reachable s.control) (hl : s.Considerate l) :
    Careful s.forget l := by
  obtain ⟨hconsiderate, hclean⟩ := hl
  cases l with
  | enter t c => cases c <;> first | cases hconsiderate; done | trivial
  | spurious t => trivial
  | step t c =>
      intro hresizes
      refine ⟨hclean hresizes, fun w => ?_⟩
      rw [← Bool.not_eq_true]
      intro hhandles
      obtain ⟨v, hask⟩ := head_of_handlesNext hhandles
      exact quiet_of_resize h (head_of_resizesNext hresizes) hask trivial

/-- Considerate runs are careful. -/
theorem careful_of_reachable {s : GrowingRecorded ι n E} {dataEntries : ProcessingQueueDataArray E}
    (h : (((growingProcessor ι n E).recording.system
      (newGrowingProcessor ι n queueSize dataEntries).recorded).restrict Considerate).Reachable s) :
    (((processor ι n E).recording.system (newProcessor ι n E).recorded).restrict
      ResizePause.Considerate).Reachable s.control ∧
    (((growingProcessor ι n E).system
      (newGrowingProcessor ι n queueSize dataEntries)).restrict Careful).Reachable s.forget := by
  apply h.invariant (I := fun s : GrowingRecorded ι n E =>
    (((processor ι n E).recording.system (newProcessor ι n E).recorded).restrict
      ResizePause.Considerate).Reachable s.control ∧
    (((growingProcessor ι n E).system
      (newGrowingProcessor ι n queueSize dataEntries)).restrict Careful).Reachable s.forget)
  · rintro s rfl
    exact ⟨.start rfl, .start rfl⟩
  · rintro s l s' ⟨hcontrol, hcareful⟩ ⟨hnext, hl⟩
    constructor
    · exact hcontrol.step ⟨growing_covers.recording.next hnext, hl.1⟩
    · exact hcareful.step ⟨Machine.next_forget hnext, careful_of_considerate hcontrol hl⟩

end GrowingRecorded

/-- Clients that are considerate need not know of resizes: no entry is handed out twice, each
worker handles what it is given, in the order in which it was accepted, and where nobody can go
on, and no worker is missing or paused, everything was handled. -/
theorem done_of_considerate [Fintype ι] (hn : 0 < n) (hsize : 2 ≤ queueSize)
    (dataEntries : ProcessingQueueDataArray E) {s : GrowingRecorded ι n E}
    (h : (((growingProcessor ι n E).recording.system
      (newGrowingProcessor ι n queueSize dataEntries).recorded).restrict
        GrowingRecorded.Considerate).Reachable s) :
    (∃ given, s.shared.memory.1.queue.Numbers given) ∧
    (∀ w, ∃ rest : List (Cell E), rest.length ≤ 1 ∧
      (s.shared.memory.1.handedTo w).map Cell.entry = s.shared.memory.1.handledBy w ++ rest) ∧
    ((∀ t, ¬ (growingProcessor ι n E).Enabled s.forget t) →
      (∀ w, (s.prog (.worker w)).head ≠ none) →
      (∀ w, s.shared.memory.1.control.flag (.worker w .isPausedFlag) = false) →
      (∀ i, (s.prog (.client i)).head = none) ∧
      (s.shared.memory.1.handled.map Prod.snd).Perm
        (s.shared.memory.1.queue.accepted.map Cell.entry)) := by
  obtain ⟨-, hcareful⟩ := GrowingRecorded.careful_of_reachable h
  obtain ⟨φ, hobeys, hgrows⟩ := grows_of_reachable hsize dataEntries hcareful
  obtain ⟨-, k, off, T, given, htracked⟩ := id hgrows
  refine ⟨⟨given, htracked.traces.numbers⟩, fun w => (htracked.kept w).rest, ?_⟩
  intro hrests hcreated hpaused
  exact done_of_grows hn hobeys hgrows (growing_covers.reachable spared_of_careful hcareful)
    hrests hcreated hpaused

/-- The client of that run is considerate. -/
theorem done_of_considerate_of_grownOnce :
    ∃ s : GrowingRecorded Unit 1 Nat,
      s.shared.memory.1.queue.queue.currentSize = 8 ∧
      (s.shared.memory.1.handled.map Prod.snd).Perm
        ([10, 11, 12, 13, 14].map Cell.entry) := by
  obtain ⟨s, hs, hsize, haccepted, hdone, ⟨hhead, hasleep⟩, hpaused⟩ :=
    (growingProcessor Unit 1 Nat).recording.exists_of_follow
      (newGrowingProcessor Unit 1 4 (.uniform Nat 8)).recorded GrowingRecorded.Considerate
      (fun s => s.shared.memory.1.queue.queue.currentSize = 8 ∧
        s.shared.memory.1.queue.accepted = [10, 11, 12, 13, 14] ∧
        (s.prog (.client ())).head = none ∧
        Blocked (s.forget.view GrowingPlant.plant) 0 ∧
        s.shared.memory.1.control.flag (.worker 0 .isPausedFlag) = false)
      (grownAndDone 0) (by decide +kernel)
  obtain ⟨-, -, hatRest⟩ := done_of_considerate (by decide) (by decide) _ hs
  obtain ⟨hrests, hcreated⟩ := rests_of_blocked (s := s.forget) hdone hhead hasleep
  obtain ⟨-, hperm⟩ := hatRest hrests hcreated
    fun w => by rw [show w = 0 from Subsingleton.elim _ _, hpaused]
  exact ⟨s, hsize, by rwa [haccepted] at hperm⟩

end HPQueue
