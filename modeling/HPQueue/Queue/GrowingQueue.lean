import Mathlib.Data.Fintype.Basic
import HPQueue.Queue.RefusedResize
import HPQueue.Queue.Serving

/-!
# What a growing queue hands out

The calls of a fixed group of readers and of writers, with resizes between them,
beside what the queue accepted and what it gave to whom.  Entries are numbered as
they are accepted; the number of an entry does not change when its slot does.

A resize that `GrowsCleanly` leaves a queue that stands for the same line of tickets,
in a larger ring and with other slots.  So what holds of the line goes on across
resizes.

## Main results

* `Traces.call` — one call, a resize among them.
* `Sound.returned_of_silent` — readers that are given nothing have left nothing.
* `numbered_across_resizes` — every state of every run.
-/

namespace HPQueue

open Library.Ring Library.Transition

variable {ρ E : Type} [DecidableEq ρ]

/-! ## Nothing is left behind -/

omit [DecidableEq ρ] in
/-- When all numbers written are drawn, and the readers that wait wait for later ones, all entries
have been taken. -/
theorem Tickets.Sound.returned_of_drawn {capacity : Nat} {T : Tickets ρ E} (h : T.Sound capacity)
    (hdrawn : T.written ≤ T.next)
    (hwaits : ∀ x ∈ T.line, T.isDone x = false → T.written ≤ T.ticket x) {k : Nat}
    (hk : k < T.written) : k ∈ T.returned := by
  rcases h.held k (Nat.lt_of_lt_of_le hk hdrawn) with hmem | ⟨x, hx, htx, hdone⟩
  · exact hmem
  · have hwritten := hwaits x hx hdone
    omega

omit [DecidableEq ρ] in
/-- When a line's readers are given nothing, all entries have been taken: each
number that was drawn is held by a reader it would be given to, and no reader is
kept from drawing but by numbers that are not written yet. -/
theorem Tickets.Sound.returned_of_silent {capacity : Nat} {T : Tickets ρ E}
    (h : T.Sound capacity) {r : ρ} (hr : r ∈ T.line)
    (hsilent : ∀ x ∈ T.line, T.answer capacity x = none) {k : Nat} (hk : k < T.written) :
    k ∈ T.returned := by
  have hwaits : ∀ x ∈ T.line, T.isDone x = false → T.written ≤ T.ticket x := by
    intro x hx hdone
    have hanswer := hsilent x hx
    rw [Tickets.answer, if_pos hdone] at hanswer
    exact List.getElem?_eq_none_iff.mp hanswer
  refine h.returned_of_drawn ?_ hwaits hk
  cases hdone : T.isDone r with
  | false => exact (hwaits r hr hdone).trans (Nat.le_of_lt (h.lt_next hr))
  | true =>
      have hanswer := hsilent r hr
      rw [Tickets.answer, if_neg (by simp [hdone])] at hanswer
      split at hanswer
      · rename_i hspans
        rw [hspans]
        have hwithin := h.within
        have hhead := h.head
        omega
      · exact List.getElem?_eq_none_iff.mp hanswer

/-! ## The queue and its history -/

/-- A queue that may grow, the entries it accepted, and the entries `remove` returned, each
with its reader, in order. -/
structure GrowingQueue (ρ E : Type) where
  queue : SyncQueue ρ E
  accepted : List E
  handed : List (ρ × E)

namespace GrowingQueue

def new (ρ : Type) (queueSize : Nat) (dataEntries : ProcessingQueueDataArray E) :
    GrowingQueue ρ E where
  queue := .new ρ queueSize dataEntries
  accepted := []
  handed := []

def add (t : GrowingQueue ρ E) (entry : E) : GrowingQueue ρ E :=
  let (queue, index) := t.queue.add entry
  { t with
    queue := queue
    accepted := if index < 0 then t.accepted else t.accepted ++ [entry] }

def startAccess (t : GrowingQueue ρ E) (r : ρ) : Except Fault (GrowingQueue ρ E) := do
  return { t with queue := ← t.queue.startAccess r }

def endAccess (t : GrowingQueue ρ E) (r : ρ) : Except Fault (GrowingQueue ρ E) := do
  return { t with queue := ← t.queue.endAccess r }

/-- `remove`, and what it returned. -/
def remove (t : GrowingQueue ρ E) (r : ρ) : Except Fault (GrowingQueue ρ E × Option E) := do
  let (queue, result) ← t.queue.remove r
  return ({ t with
    queue := queue
    handed := t.handed ++ result.toList.map fun entry => (r, entry) }, result)

/-- `isEmpty`, which stores its answer. -/
def isEmpty (t : GrowingQueue ρ E) (r : ρ) : GrowingQueue ρ E :=
  { t with queue := (t.queue.isEmpty r).1 }

/-- `resize`, whose loops go round `fuel` times at most. -/
def resize (fuel : Nat) (t : GrowingQueue ρ E) (newSize : Nat) :
    Except Fault (GrowingQueue ρ E) := do
  return { t with queue := ← t.queue.resize fuel newSize }

def call (fuel : Nat) (t : GrowingQueue ρ E) : GrowthCall ρ E → Except Fault (GrowingQueue ρ E)
  | .add entry => .ok (t.add entry)
  | .startAccess r => t.startAccess r
  | .remove r => (t.remove r).map Prod.fst
  | .resize newSize => t.resize fuel newSize

/-- A reader registers once and asks only while it is registered. -/
def Allowed (t : GrowingQueue ρ E) : GrowthCall ρ E → Prop
  | .add _ => True
  | .startAccess r => (t.queue.readers r).inQueue = false
  | .remove r => (t.queue.readers r).inQueue = true
  | .resize _ => True

instance (t : GrowingQueue ρ E) : (c : GrowthCall ρ E) → Decidable (t.Allowed c)
  | .add _ => .isTrue trivial
  | .startAccess _ => inferInstanceAs (Decidable (_ = _))
  | .remove _ => inferInstanceAs (Decidable (_ = _))
  | .resize _ => .isTrue trivial

/-- A call ends with `u`, however long its loops may be. -/
def Returns (t : GrowingQueue ρ E) (c : GrowthCall ρ E) (u : GrowingQueue ρ E) : Prop :=
  ∃ F, ∀ fuel ≥ F, t.call fuel c = .ok u

/-- The runs of a queue of the given initial size. -/
def system (ρ : Type) [DecidableEq ρ] (queueSize : Nat)
    (dataEntries : ProcessingQueueDataArray E) :
    System (GrowingQueue ρ E) (GrowthCall ρ E) where
  init t := t = .new ρ queueSize dataEntries
  step t c u := t.Allowed c ∧ t.Returns c u

/-- Makes a call that is allowed. -/
def next (fuel : Nat) (t : GrowingQueue ρ E) (c : GrowthCall ρ E) : Option (GrowingQueue ρ E) :=
  if t.Allowed c then (t.call fuel c).toOption else none

/-- The size stays; or the ring doubles, or grows while no registered reader waits for a slot
below `writeIndex`. -/
def ResizesCleanly (t : GrowingQueue ρ E) (newSize : Nat) : Prop :=
  newSize = t.queue.currentSize ∨ t.queue.currentSize < newSize ∧ t.queue.GrowsCleanly newSize

/-- All resizes are such. -/
def Clean (t : GrowingQueue ρ E) : GrowthCall ρ E → Prop
  | .resize newSize => t.ResizesCleanly newSize
  | _ => True

theorem call_mono {fuel fuel' : Nat} {t u : GrowingQueue ρ E} {c : GrowthCall ρ E}
    (h : t.call fuel c = .ok u) (hfuel : fuel ≤ fuel') : t.call fuel' c = .ok u := by
  cases c with
  | resize newSize =>
      obtain ⟨queue, hqueue, hu⟩ := bind_eq_ok.mp h
      exact bind_eq_ok.mpr ⟨queue, SyncQueue.resize_mono hqueue fuel' hfuel, hu⟩
  | add e | startAccess r | remove r => exact h

theorem Returns.of_call {fuel : Nat} {t u : GrowingQueue ρ E} {c : GrowthCall ρ E}
    (h : t.call fuel c = .ok u) : t.Returns c u := ⟨fuel, fun _ => call_mono h⟩

theorem step_of_next {fuel queueSize : Nat} {dataEntries : ProcessingQueueDataArray E}
    {t u : GrowingQueue ρ E} {c : GrowthCall ρ E} (h : t.next fuel c = some u) :
    (system ρ queueSize dataEntries).step t c u := by
  unfold next at h
  split at h
  · rename_i hallowed
    cases hcall : t.call fuel c with
    | error f =>
        rw [hcall] at h
        cases h
    | ok v =>
        rw [hcall] at h
        obtain rfl := Option.some.inj h
        exact ⟨hallowed, .of_call hcall⟩
  · cases h

theorem Returns.unique {t u u' : GrowingQueue ρ E} {c : GrowthCall ρ E} (h : t.Returns c u)
    (h' : t.Returns c u') : u = u' := by
  obtain ⟨F, hF⟩ := h
  obtain ⟨F', hF'⟩ := h'
  have hsame := (hF (max F F') (Nat.le_max_left _ _)).symm.trans
    (hF' (max F F') (Nat.le_max_right _ _))
  exact Except.ok.inj hsame

/-- The numbers of what was handed out: `given` lists each reader with the number of the
entry it was returned, in the order of the returns. -/
structure Numbers (t : GrowingQueue ρ E) (given : List (ρ × Nat)) : Prop where
  entries : t.handed.map (fun p => (p.1, some p.2)) =
    given.map fun p => (p.1, t.accepted[p.2]?)
  once : (given.map Prod.snd).Nodup
  increasing : ∀ r, ((given.filter fun p => p.1 = r).map Prod.snd).Pairwise (· < ·)

/-- The queue stands for a line whose numbers are those of the history. -/
structure Traces (n : Nat) (off : Int) (t : GrowingQueue ρ E) (T : Tickets ρ E)
    (given : List (ρ × Nat)) : Prop where
  two : 2 ≤ n
  represents : Represents n off t.queue T
  sound : T.Sound n
  tight : T.Tight
  accepted : T.accepted = t.accepted
  returned : T.returned = given.map Prod.snd
  entries : t.handed.map (fun p => (p.1, some p.2)) =
    given.map fun p => (p.1, t.accepted[p.2]?)
  gave : ∀ r k, (r, k) ∈ given → r ∈ T.line ∧ k ≤ T.ticket r ∧
    (T.isDone r = false → k < T.ticket r)
  increasing : ∀ r, ((given.filter fun p => p.1 = r).map Prod.snd).Pairwise (· < ·)

namespace Traces

variable {n : Nat} {off : Int} {t : GrowingQueue ρ E} {T : Tickets ρ E} {given : List (ρ × Nat)}

theorem new (hn : 2 ≤ n) (dataEntries : ProcessingQueueDataArray E) :
    Traces n 0 (.new ρ n dataEntries) (.new ρ E) [] := by
  have hnew : Ledger.Follows n (.new ρ n dataEntries) (.new ρ E) := .new (by omega) dataEntries
  exact
    { two := hn
      represents := hnew.represents
      sound := hnew.sound
      tight := rfl
      accepted := rfl
      returned := rfl
      entries := rfl
      gave := by simp
      increasing := by simp }

theorem numbers (h : Traces n off t T given) : t.Numbers given where
  entries := h.entries
  once := by
    rw [← h.returned]
    exact h.sound.once
  increasing := h.increasing

/-- The numbers given are those of entries accepted earlier. -/
theorem entries_append (h : Traces n off t T given) (es : List E) :
    t.handed.map (fun p => (p.1, some p.2)) =
      given.map fun p => (p.1, (t.accepted ++ es)[p.2]?) := by
  rw [h.entries]
  apply List.map_congr_left
  intro p hp
  have hlt : p.2 < t.accepted.length := by
    rw [← h.accepted]
    exact (h.sound.taken p.2 (by rw [h.returned]; exact List.mem_map_of_mem hp)).1
  rw [List.getElem?_append_left hlt]

theorem add (h : Traces n off t T given) (e : E) :
    (0 ≤ (t.queue.add e).2 ∧ (t.queue.add e).1.readers = t.queue.readers ∧
      (t.add e).accepted = t.accepted ++ [e] ∧ Traces n off (t.add e) (T.write e) given) ∨
    (t.queue.add e).2 < 0 ∧ t.add e = t := by
  by_cases hfit : t.queue.dataEntries.CanStore e ∧ T.written + 1 < T.base + n
  · obtain ⟨s, hrun, hs⟩ := h.represents.add h.sound hfit.1 hfit.2
    have hindex : 0 ≤ slot n off T.written := by
      have htwo := h.two
      exact slot_nonneg off (by omega) _
    have hadd : t.add e = { t with queue := s, accepted := t.accepted ++ [e] } := by
      simp [GrowingQueue.add, hrun, Int.not_lt.mpr hindex]
    refine .inl ⟨by rw [hrun]; exact hindex, rfl, by rw [hadd], ?_⟩
    rw [hadd]
    exact
      { two := h.two
        represents := hs
        sound := h.sound.write e hfit.2
        tight := h.tight
        accepted := by rw [← h.accepted]; rfl
        returned := h.returned
        entries := h.entries_append [e]
        gave := h.gave
        increasing := h.increasing }
  · obtain ⟨i, hi, hrun, -⟩ := h.represents.add_refused h.sound hfit
    exact .inr ⟨by rw [hrun]; exact hi, by simp [GrowingQueue.add, hrun, hi]⟩

theorem startAccess (h : Traces n off t T given) {r : ρ}
    (hr : (t.queue.readers r).inQueue = false) :
    ∃ u, t.startAccess r = .ok u ∧ u.accepted = t.accepted ∧ u.handed = t.handed ∧
      Traces n off u (T.join n r) given := by
  have hrl : r ∉ T.line := fun hm => by simp [h.represents.mem_iff.mpr hm] at hr
  obtain ⟨s, hrun, hs⟩ := h.represents.startAccess h.sound h.two hr
  refine ⟨{ t with queue := s }, by simp [GrowingQueue.startAccess, hrun], rfl, rfl, ?_⟩
  refine
    { two := h.two
      represents := hs
      sound := h.sound.join h.two hrl (h.tight.level n r)
      tight := h.tight.join h.two hrl
      accepted := by rw [Tickets.join_accepted, h.accepted]
      returned := by rw [Tickets.join_returned, h.returned]
      entries := h.entries
      gave := ?_
      increasing := h.increasing }
  intro x k hk
  obtain ⟨hxl, hle, hlt⟩ := h.gave x k hk
  have hxr : x ≠ r := fun he => hrl (he ▸ hxl)
  refine ⟨h.sound.mem_join.mpr (.inr hxl), ?_⟩
  rw [Tickets.join_ticket_of_ne hxr, Tickets.join_isDone_of_ne hxr]
  exact ⟨hle, hlt⟩

/-- `isEmpty` changes no reader's place. -/
theorem isEmpty (h : Traces n off t T given) (r : ρ) : Traces n off (t.isEmpty r) T given := by
  refine { h with represents := ?_ }
  refine ⟨h.represents.congr rfl rfl rfl ?_ rfl rfl rfl rfl, ?_⟩
  · intro x
    simp [GrowingQueue.isEmpty, SyncQueue.isEmpty]
  · intro x hx
    simpa [GrowingQueue.isEmpty, SyncQueue.isEmpty] using h.represents.isDone x hx

/-- A reader that is given an entry was only given entries before it. -/
theorem lt_ask (h : Traces n off t T given) {r : ρ}
    (hwaits : T.isDone r = true → ¬ T.Spans n) {k : Nat} (hk : (r, k) ∈ given) :
    k < (T.ask n r).ticket r := by
  obtain ⟨hr, hle, hlt⟩ := h.gave r k hk
  cases hdone : T.isDone r with
  | false =>
      rw [Tickets.ask_ticket_of_waiting T r hdone]
      exact hlt hdone
  | true =>
      rw [Tickets.ask_ticket_of_drawing T r hdone (hwaits hdone)]
      exact Nat.lt_of_le_of_lt hle (h.sound.lt_next hr)

/-- Who was given what, after a call of `remove`. -/
theorem gave_ask (h : Traces n off t T given) {r : ρ} (hr : r ∈ T.line) {x : ρ} {k : Nat}
    (hk : (x, k) ∈ given) :
    x ∈ (T.ask n r).line ∧ k ≤ (T.ask n r).ticket x ∧
      ((T.ask n r).isDone x = false → k < (T.ask n r).ticket x) := by
  obtain ⟨hxl, hle, hlt⟩ := h.gave x k hk
  refine ⟨(h.sound.mem_ask hr).mpr hxl, ?_⟩
  by_cases hxr : x = r
  · subst hxr
    refine ⟨hle.trans (h.sound.le_ask_ticket h.two hr), ?_⟩
    intro hasked
    apply h.lt_ask _ hk
    intro hdone
    cases hanswer : T.answer n x with
    | none =>
        rw [Tickets.ask_isDone_of_none hanswer] at hasked
        simpa [hdone] using hasked
    | some e => exact Tickets.waits_of_some hanswer hdone
  · rw [Tickets.ask_ticket_of_ne hxr, Tickets.ask_isDone_of_ne hxr]
    exact ⟨hle, hlt⟩

theorem remove (h : Traces n off t T given) {r : ρ} (hr : (t.queue.readers r).inQueue = true) :
    ∃ u, t.remove r = .ok (u, T.answer n r) ∧ u.accepted = t.accepted ∧
      u.handed = t.handed ++ (T.answer n r).toList.map (fun e => (r, e)) ∧
      Traces n off u (T.ask n r)
        (given ++ (T.answer n r).toList.map fun _ => (r, (T.ask n r).ticket r)) := by
  have hrl := h.represents.mem_iff.mp hr
  obtain ⟨s, hrun, hs⟩ := h.represents.remove h.sound h.two hrl fun _ => h.tight.level n r
  have hsound := h.sound.ask h.two hrl fun _ => h.tight.level n r
  have haccepted : (T.ask n r).accepted = t.accepted := by
    rw [Tickets.ask_accepted, h.accepted]
  refine ⟨{ t with
    queue := s
    handed := t.handed ++ (T.answer n r).toList.map fun e => (r, e) }, ?_, rfl, rfl, ?_⟩
  · simp [GrowingQueue.remove, hrun]
  cases hanswer : T.answer n r with
  | none =>
      refine
        { two := h.two
          represents := hs
          sound := hsound
          tight := h.tight.ask h.two
          accepted := haccepted
          returned := by simp [Tickets.ask_of_none hanswer, h.returned]
          entries := by simpa using h.entries
          gave := ?_
          increasing := by simpa using h.increasing }
      intro x k hk
      exact h.gave_ask hrl (by simpa using hk)
  | some e =>
      obtain ⟨hreturned, -, hget, hdone⟩ := Tickets.ask_of_some hanswer
      rw [h.accepted] at hget
      refine
        { two := h.two
          represents := hs
          sound := hsound
          tight := h.tight.ask h.two
          accepted := haccepted
          returned := by rw [hreturned, h.returned, List.map_append]; rfl
          entries := ?_
          gave := ?_
          increasing := ?_ }
      · rw [List.map_append, List.map_append, h.entries]
        simp [hget]
      · intro x k hk
        rcases List.mem_append.mp hk with hk | hk
        · exact h.gave_ask hrl hk
        · obtain ⟨rfl, rfl⟩ : x = r ∧ k = (T.ask n r).ticket r := by simpa using hk
          exact ⟨(h.sound.mem_ask hrl).mpr hrl, Nat.le_refl _, by simp [hdone]⟩
      · intro x
        by_cases hxr : r = x
        · subst hxr
          rw [List.filter_append, List.map_append]
          refine List.pairwise_append.mpr ⟨h.increasing r, by simp, ?_⟩
          intro k hk j hj
          obtain ⟨p, hp, rfl⟩ := List.mem_map.mp hk
          obtain ⟨hp, hpr⟩ := List.mem_filter.mp hp
          obtain rfl : j = (T.ask n r).ticket r := by simpa using hj
          apply h.lt_ask (Tickets.waits_of_some hanswer)
          rw [← of_decide_eq_true hpr]
          exact hp
        · simpa [List.filter_append, hxr] using h.increasing x

/-- A size that is not larger is refused by the ring; the readers are adjusted all the
same. -/
theorem resize_refused (h : Traces n off t T given) {m : Nat} (hm : m ≤ n) :
    ∀ fuel ≥ n + T.line.length + 2, t.queue.resize fuel m = .ok
      (SyncReaderList.adjustAll t.queue ((m : Int) - n) t.queue.readIndex T.line) := by
  intro fuel hfuel
  have htwo := h.two
  have hsize := h.represents.size
  have hwrite := h.represents.writeIndex
  rw [t.queue.resize_refused (by rw [hsize]; exact hm), hsize, SyncQueue.indexLoop_ok, ok_bind]
  · exact SyncReaderList.adjust_spec h.represents.chained _ _ (by omega)
  · rw [hwrite]
    exact slot_nonneg off (by omega) _
  · rw [hwrite]
    exact slot_lt off (by omega) _
  · omega

/-- Every resize ends. -/
theorem exists_resize (h : Traces n off t T given) (m : Nat) :
    ∃ F u, ∀ fuel ≥ F, t.resize fuel m = .ok u := by
  rcases Nat.lt_or_ge n m with hgrow | hm
  · obtain ⟨F, s, hrun, -⟩ := h.represents.resize h.sound hgrow
    exact ⟨F, { t with queue := s }, fun fuel hfuel => by simp [GrowingQueue.resize, hrun _ hfuel]⟩
  · refine ⟨n + T.line.length + 2, { t with
      queue := SyncReaderList.adjustAll t.queue ((m : Int) - n) t.queue.readIndex T.line }, ?_⟩
    intro fuel hfuel
    simp [GrowingQueue.resize, h.resize_refused hm _ hfuel]

/-- A resize to the present size changes nothing. -/
theorem resize_same (h : Traces n off t T given) {fuel : Nat} {u : GrowingQueue ρ E}
    (hrun : t.resize fuel n = .ok u) : u = t := by
  obtain ⟨s, hs, hu⟩ := bind_eq_ok.mp hrun
  have hkept : SyncReaderList.adjustAll t.queue ((n : Int) - n) t.queue.readIndex T.line =
      t.queue := by
    have hreaders : (SyncReaderList.adjustAll t.queue ((n : Int) - n) t.queue.readIndex
        T.line).readers = t.queue.readers := by
      funext x
      simp [SyncReaderList.adjustAll, SyncReaderList.adjusted]
    exact congrArg (fun readers => { t.queue with readers := readers }) hreaders
  have hsame := (SyncQueue.resize_mono hs _ (Nat.le_max_left _ _)).symm.trans
    (h.resize_refused (Nat.le_refl n) _ (Nat.le_max_right fuel _))
  rw [← Except.ok.inj hu, Except.ok.inj hsame, hkept]

/-- The line stays. -/
theorem resize (h : Traces n off t T given) {m fuel : Nat} (hclean : t.ResizesCleanly m)
    {u : GrowingQueue ρ E} (hrun : t.resize fuel m = .ok u) :
    u.accepted = t.accepted ∧ u.handed = t.handed ∧ ∃ off', Traces m off' u T given := by
  rw [ResizesCleanly, h.represents.size] at hclean
  rcases hclean with rfl | ⟨hgrow, hclean⟩
  · obtain rfl := h.resize_same hrun
    exact ⟨rfl, rfl, off, h⟩
  · obtain ⟨s, hs, hu⟩ := bind_eq_ok.mp hrun
    obtain rfl := Except.ok.inj hu
    obtain ⟨F, s', hrun', hs'⟩ := h.represents.resize h.sound hgrow
    have hsame := (SyncQueue.resize_mono hs _ (Nat.le_max_left fuel F)).symm.trans
      (hrun' _ (Nat.le_max_right _ _))
    obtain rfl := Except.ok.inj hsame
    exact ⟨rfl, rfl, regrow n off T.written,
      { h with
        two := h.two.trans (Nat.le_of_lt hgrow)
        represents := hs'.represents h.represents h.sound hgrow hclean
        sound := h.sound.mono (Nat.le_of_lt hgrow) }⟩

/-- Every call returns, and the history goes on. -/
theorem call (h : Traces n off t T given) {c : GrowthCall ρ E} (hallowed : t.Allowed c)
    (hclean : t.Clean c) :
    ∃ u, t.Returns c u ∧ ∃ n' off' T' given', Traces n' off' u T' given' := by
  cases c with
  | add e =>
      refine ⟨t.add e, ⟨0, fun _ _ => rfl⟩, ?_⟩
      rcases h.add e with ⟨-, -, -, hadd⟩ | ⟨-, hsame⟩
      · exact ⟨_, _, _, _, hadd⟩
      · rw [hsame]
        exact ⟨_, _, _, _, h⟩
  | startAccess r =>
      obtain ⟨u, hrun, -, -, hu⟩ := h.startAccess hallowed
      exact ⟨u, ⟨0, fun _ _ => hrun⟩, _, _, _, _, hu⟩
  | remove r =>
      obtain ⟨u, hrun, -, -, hu⟩ := h.remove hallowed
      exact ⟨u, ⟨0, fun _ _ => by simp [GrowingQueue.call, hrun, Except.map]⟩, _, _, _, _, hu⟩
  | resize m =>
      obtain ⟨F, u, hrun⟩ := h.exists_resize m
      obtain ⟨-, -, off', hu⟩ := h.resize hclean (hrun F (Nat.le_refl F))
      exact ⟨u, ⟨F, hrun⟩, _, _, _, _, hu⟩

end Traces

/-- The states of a run whose resizes are clean. -/
theorem traces {n : Nat} (hn : 2 ≤ n) {dataEntries : ProcessingQueueDataArray E}
    {t : GrowingQueue ρ E} (h : ((system ρ n dataEntries).restrict Clean).Reachable t) :
    ∃ n' off T given, Traces n' off t T given := by
  refine h.invariant (I := fun t => ∃ n' off T given, Traces n' off t T given) ?_ ?_
  · rintro t rfl
    exact ⟨n, 0, _, _, .new hn dataEntries⟩
  · rintro t c u ⟨n', off, T, given, ht⟩ ⟨⟨hallowed, hreturns⟩, hclean⟩
    obtain ⟨u', hreturns', hu'⟩ := ht.call hallowed hclean
    rw [hreturns.unique hreturns']
    exact hu'

/-- Some reader is registered, and `remove` returns nothing to any that is. -/
def Silent (t : GrowingQueue ρ E) : Prop :=
  (∃ r, (t.queue.readers r).inQueue = true) ∧
    ∀ r, (t.queue.readers r).inQueue = true → ∃ s, t.queue.remove r = .ok (s, none)

/-- What was returned is what was accepted, when all numbers are. -/
theorem Traces.perm {n : Nat} {off : Int} {t : GrowingQueue ρ E} {T : Tickets ρ E}
    {given : List (ρ × Nat)} (h : Traces n off t T given)
    (hreturned : ∀ k < T.written, k ∈ T.returned) : (t.handed.map Prod.snd).Perm t.accepted := by
  have hall : T.returned.Perm (List.range t.accepted.length) := by
    rw [List.perm_ext_iff_of_nodup h.sound.once List.nodup_range]
    intro k
    rw [List.mem_range, ← h.accepted]
    exact ⟨fun hk => (h.sound.taken k hk).1, hreturned k⟩
  have hhanded : t.handed.map (fun p => some p.2) = T.returned.map (t.accepted[·]?) := by
    have hentries := congrArg (List.map Prod.snd) h.entries
    rw [h.returned]
    simpa only [List.map_map, Function.comp_def] using hentries
  have haccepted : (List.range t.accepted.length).map (t.accepted[·]?) =
      t.accepted.map some := by
    apply List.ext_getElem?
    intro k
    by_cases hk : k < t.accepted.length <;> simp [hk]
  have hperm : ((t.handed.map Prod.snd).map some).Perm (t.accepted.map some) := by
    rw [List.map_map, ← haccepted, show some ∘ Prod.snd = fun p : ρ × E => some p.2 from rfl,
      hhanded]
    exact hall.map _
  exact (List.map_perm_map_iff (Option.some_injective E)).mp hperm

theorem Traces.answer_of_silent {n : Nat} {off : Int} {t : GrowingQueue ρ E} {T : Tickets ρ E}
    {given : List (ρ × Nat)} (h : Traces n off t T given) {x : ρ} (hx : x ∈ T.line)
    (hsilent : ∃ s, t.queue.remove x = .ok (s, none)) : T.answer n x = none := by
  obtain ⟨s, hrun⟩ := hsilent
  obtain ⟨s', hrun', -⟩ := h.represents.remove h.sound h.two hx fun _ => h.tight.level n x
  exact (Prod.mk.inj (Except.ok.inj (hrun'.symm.trans hrun))).2

/-- Entries keep their numbers across resizes: no number is returned twice, each reader
is returned the entries of growing numbers, and when every registered reader is
returned nothing, what was returned is what was accepted.  No call is a fault, and
each resize ends. -/
theorem numbered_across_resizes {n : Nat} (hn : 2 ≤ n)
    (dataEntries : ProcessingQueueDataArray E) {t : GrowingQueue ρ E}
    (h : ((system ρ n dataEntries).restrict Clean).Reachable t) :
    (∃ given, t.Numbers given) ∧
    (t.Silent → (t.handed.map Prod.snd).Perm t.accepted) ∧
    ∀ c, t.Allowed c → t.Clean c → ∃ u, t.Returns c u := by
  obtain ⟨n', off, T, given, ht⟩ := traces hn h
  refine ⟨⟨given, ht.numbers⟩, ?_, ?_⟩
  · rintro ⟨⟨r, hr⟩, hnone⟩
    apply ht.perm
    intro k hk
    refine ht.sound.returned_of_silent (ht.represents.mem_iff.mp hr) ?_ hk
    intro x hx
    exact ht.answer_of_silent hx (hnone x (ht.represents.mem_iff.mpr hx))
  · intro c hallowed hclean
    obtain ⟨u, hreturns, -⟩ := ht.call hallowed hclean
    exact ⟨u, hreturns⟩

instance [Fintype ρ] (s : SyncQueue ρ E) (newSize : Nat) : Decidable (s.GrowsCleanly newSize) :=
  inferInstanceAs (Decidable (_ ∨ ∀ _, _ → _ → _))

instance [Fintype ρ] (t : GrowingQueue ρ E) (newSize : Nat) :
    Decidable (t.ResizesCleanly newSize) :=
  inferInstanceAs (Decidable (_ ∨ _ ∧ _))

instance [Fintype ρ] (t : GrowingQueue ρ E) : (c : GrowthCall ρ E) → Decidable (t.Clean c)
  | .resize newSize => inferInstanceAs (Decidable (t.ResizesCleanly newSize))
  | .add _ => .isTrue trivial
  | .startAccess _ => .isTrue trivial
  | .remove _ => .isTrue trivial

/-- A wrapped ring of four slots doubles while a reader waits below `writeIndex`, and grows
by three slots when none does. -/
theorem numbered_across_resizes_twice :
    ∃ t : GrowingQueue (Fin 2) Nat, t.queue.currentSize = 11 ∧
      t.handed = [(0, 10), (0, 11), (0, 12), (1, 14), (0, 13), (0, 15)] ∧
      t.accepted = [10, 11, 12, 13, 14, 15] ∧ (t.handed.map Prod.snd).Perm t.accepted := by
  let calls : List (GrowthCall (Fin 2) Nat) :=
    [.startAccess 0, .add 10, .add 11, .add 12, .remove 0, .remove 0, .remove 0, .remove 0,
      .startAccess 1, .resize 8, .add 13, .add 14, .remove 1, .remove 0, .remove 0, .remove 1,
      .add 15, .resize 11, .remove 1, .remove 0]
  let given (t : GrowingQueue (Fin 2) Nat) (r : Fin 2) : Option (Option Nat) :=
    (t.queue.remove r).toOption.map Prod.snd
  have hcalls : (System.follow (next 16) Clean (.new (Fin 2) 4 (.uniform Nat 8)) calls).any
      (fun t => decide (t.queue.currentSize = 11 ∧
        t.handed = [(0, 10), (0, 11), (0, 12), (1, 14), (0, 13), (0, 15)] ∧
        t.accepted = [10, 11, 12, 13, 14, 15] ∧ (t.queue.readers 0).inQueue = true ∧
        given t 0 = some none ∧ given t 1 = some none)) = true := by
    decide +kernel
  obtain ⟨t, hfollow, hend⟩ := (Option.any_eq_true _ _).mp hcalls
  obtain ⟨hsize, hhanded, haccepted, hregistered, hnone0, hnone1⟩ := of_decide_eq_true hend
  have hreachable : ((system (Fin 2) 4 (.uniform Nat 8)).restrict Clean).Reachable t :=
    System.Reachable.of_follow (S := (system (Fin 2) 4 (.uniform Nat 8)).restrict Clean)
      (fun hclean hnext => ⟨step_of_next hnext, hclean⟩) calls (.start rfl) hfollow
  have hsilent : t.Silent := by
    refine ⟨⟨0, hregistered⟩, ?_⟩
    intro r _
    have hnone : (t.queue.remove r).toOption.map Prod.snd = some none := by
      match r with
      | 0 => exact hnone0
      | 1 => exact hnone1
    cases hrun : t.queue.remove r with
    | error f =>
        rw [hrun] at hnone
        cases hnone
    | ok result =>
        rw [hrun] at hnone
        exact ⟨result.1, by rw [← Option.some.inj hnone]⟩
  obtain ⟨-, hperm, -⟩ := numbered_across_resizes (by decide) _ hreachable
  exact ⟨t, hsize, hhanded, haccepted, hperm hsilent⟩

end GrowingQueue

end HPQueue
