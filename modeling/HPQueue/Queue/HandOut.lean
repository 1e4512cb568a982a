import HPQueue.Queue.ListShape
import HPQueue.Queue.SharedQueue
import HPQueue.Queue.TicketOrder

/-!
# What a shared queue hands out

Any number of writers and readers, each load and store that others may see a step
of its own.  Slots are handed out in the order of the entries, as they are when
every call is atomic: the `k`-th slot assigned is that of entry number `k`, its
reader alone is handed that entry, whole, and finds it unchanged until it asks
again.

Two conditions are needed.  Without `addMutex` there may be one writer only.  And
no emptiness test may be deceived by a `readIndex` that moves between its loads:
each ends with consistent ones.

## Main results

* `handed_out` — the state of every such schedule.
-/

namespace HPQueue

open Library.Ring Library.Transition QueueConstants

/-! ## The ring while an entry is copied -/

namespace Standing

variable {ρ E : Type} {n : Nat} {off : Int} {s : SyncQueue ρ E} {T : Tickets ρ E} {e : E}

/-- The cell of the next entry, if there is room for it, is no reader's. -/
theorem slot_ne (hT : T.Sound n) (hroom : T.written + 1 < T.base + n) {k : Nat}
    (hlow : T.base ≤ k) (hhigh : k < T.written) : slot n off k ≠ slot n off T.written := by
  intro heq
  have hn : 0 < n := by omega
  rw [slot_inj off hn hlow (by omega) hT.base_le_written hT.within] at heq
  omega

theorem copyTo (h : Standing n off s T) (hT : T.Sound n) (hroom : T.written + 1 < T.base + n) :
    Standing n off
      { s with toReaderWriterQueue := s.toReaderWriterQueue.copyTo e s.writeIndex } T where
  chained := h.chained.congr rfl rfl (fun _ => rfl) (fun _ => rfl) (fun _ => rfl)
  size := h.size
  readIndex := h.readIndex
  writeIndex := h.writeIndex
  index := h.index
  stored := by
    intro k x hk hx
    have hkw : k < T.written := (List.getElem?_eq_some_iff.mp hx).1
    show Function.update s.queueData s.writeIndex (.entry e) (slot n off k) = .entry x
    rw [h.writeIndex, Function.update_of_ne (slot_ne hT hroom hk hkw)]
    exact h.stored k x hk hx
  canStore := h.canStore

/-- The entry that was copied is published. -/
theorem publish (h : Standing n off s T) (he : s.dataEntries.CanStore e)
    (hcell : s.queueData (slot n off T.written) = .entry e) (stats : QueueStats) :
    Standing n off
      { s with
        toReaderWriterQueue := { s.toReaderWriterQueue with
          writeIndex := slot n off (T.written + 1)
          stats := stats } } (T.write e) where
  chained := h.chained.congr rfl rfl (fun _ => rfl) (fun _ => rfl) (fun _ => rfl)
  size := h.size
  readIndex := h.readIndex
  writeIndex := by rw [Tickets.written_write]
  index := h.index
  stored := by
    intro k x hk hx
    show s.queueData (slot n off k) = .entry x
    have hx : (T.accepted ++ [e])[k]? = some x := hx
    rcases Nat.lt_or_ge k T.accepted.length with hlt | hge
    · rw [List.getElem?_append_left hlt] at hx
      exact h.stored k x hk hx
    · obtain ⟨hlen, hget⟩ := List.getElem?_eq_some_iff.mp hx
      have hkw : k = T.written := by
        simp only [List.length_append, List.length_singleton] at hlen
        unfold Tickets.written
        omega
      subst hkw
      have hex : e = x := by simpa [Tickets.written] using hget
      rw [hcell, hex]
  canStore := by
    intro x hx
    rcases List.mem_append.mp hx with hx | hx
    · exact h.canStore x hx
    · rw [List.mem_singleton.mp hx]
      exact he

end Standing

namespace ProbedQueue.Watched

variable {ρ E : Type} [DecidableEq ρ] {n : Nat} {σ : ProbedQueue ρ E} {T T' : Tickets ρ E}

/-- A step of a writer: the readers and their probes stay. -/
theorem setRing (h : Watched n σ T) {q : ReaderWriterQueue E} (hsound : T'.Sound n)
    (hstanding : Standing n 0 { σ.queue with toReaderWriterQueue := q } T')
    (hline : T'.line = T.line) (hticket : T'.ticket = T.ticket) (hdone : T'.isDone = T.isDone)
    (hbase : T'.base = T.base) (hwritten : T.written ≤ T'.written) :
    Watched n
      ({ σ with queue := { σ.queue with toReaderWriterQueue := q } } : ProbedQueue ρ E).observe
      T' := by
  have htight : T'.Tight := by
    have htight := h.tight
    unfold Tickets.Tight Tickets.backTicket at htight ⊢
    rw [hline, hticket, hbase, htight]
  refine .observe hsound htight hstanding ?_ ?_
  · intro r hr
    rw [hline] at hr
    rw [hdone]
    exact h.isDone r hr
  · intro r p hp
    refine h.probes hwritten (Nat.le_of_eq hbase.symm) hp fun hr => ⟨?_, by rw [hticket]⟩
    rwa [hline]

end ProbedQueue.Watched

namespace SharedQueue

variable {ω ρ E : Type} {n : Nat} {σ σ' : SharedQueue ω ρ E} {T T' : Tickets ρ E}

/-! ## The writers -/

/-- `isFull` found room for the entry of the next number. -/
def HasRoom (n : Nat) (T : Tickets ρ E) (nextIndex : Int) : Prop :=
  nextIndex = slot n 0 (T.written + 1) ∧ T.written + 1 < T.base + n

theorem HasRoom.advance {i : Int} (h : HasRoom n T i) (haccepted : T'.accepted = T.accepted)
    (hbase : T.base ≤ T'.base) : HasRoom n T' i := by
  have hwritten : T'.written = T.written := by rw [Tickets.written, haccepted, Tickets.written]
  obtain ⟨hslot, hroom⟩ := h
  exact ⟨by rw [hwritten, hslot], by omega⟩

/-- What a writer has found and done so far. -/
def Found (n : Nat) (σ : SharedQueue ω ρ E) (T : Tickets ρ E) : Adder E → Prop
  | .outside => True
  | .entered _ => True
  | .room _ nextIndex => HasRoom n T nextIndex
  | .copying e nextIndex => HasRoom n T nextIndex ∧ σ.ring.dataEntries.CanStore e
  | .copied e nextIndex => HasRoom n T nextIndex ∧ σ.ring.dataEntries.CanStore e ∧
      σ.ring.queueData (slot n 0 T.written) = .entry e
  | .leaving e index => 0 ≤ index → (e, index) ∈ σ.accepted

/-- One writer at a time is in `add`, and has found what it relies on. -/
structure Written (n : Nat) (σ : SharedQueue ω ρ E) (T : Tickets ρ E) : Prop where
  single : σ.syncWriter = true ∨ Subsingleton ω
  alone : ∀ w w', σ.writer w ≠ .outside → σ.writer w' ≠ .outside → w = w'
  mutex : σ.syncWriter = true → ∀ w, σ.writer w ≠ .outside → σ.addMutex = some w
  found : ∀ w, Found n σ T (σ.writer w)
  torn : ∀ i, σ.torn = some i → i = slot n 0 T.written ∧ T.written + 1 < T.base + n ∧
    ∃ w e j, σ.writer w = .copying e j
  accepted : σ.accepted = T.accepted.mapIdx fun k e => (e, slot n 0 k)
  occupant : ∀ k, T.base ≤ k → k < T.written → σ.occupant (slot n 0 k) = k

namespace Written

/-- A step of the writer that is in `add`. -/
theorem turn [DecidableEq ω] (h : Written n σ T) {w : ω} {p : Adder E}
    (hw : σ.writer w ≠ .outside) (hwriter : σ'.writer = Function.update σ.writer w p)
    (hsync : σ'.syncWriter = σ.syncWriter) (hmutex : p ≠ .outside → σ'.addMutex = σ.addMutex)
    (hfound : Found n σ' T' p)
    (htorn : ∀ i, σ'.torn = some i → i = slot n 0 T'.written ∧ T'.written + 1 < T'.base + n ∧
      ∃ e j, p = .copying e j)
    (haccepted : σ'.accepted = T'.accepted.mapIdx fun k e => (e, slot n 0 k))
    (hoccupant : ∀ k, T'.base ≤ k → k < T'.written → σ'.occupant (slot n 0 k) = k) :
    Written n σ' T' := by
  have hothers : ∀ x, x ≠ w → σ'.writer x = .outside := by
    intro x hx
    rw [hwriter, Function.update_of_ne hx]
    by_contra hin
    exact hx (h.alone x w hin hw)
  have hself : σ'.writer w = p := by rw [hwriter, Function.update_self]
  have hin : ∀ x, σ'.writer x ≠ .outside → x = w := by
    intro x hx
    by_contra hne
    exact hx (hothers x hne)
  refine
    { single := hsync ▸ h.single
      alone := fun x y hx hy => (hin x hx).trans (hin y hy).symm
      mutex := ?_
      found := ?_
      torn := ?_
      accepted := haccepted
      occupant := hoccupant }
  · intro hlocks x hx
    obtain rfl := hin x hx
    rw [hmutex (hself ▸ hx)]
    exact h.mutex (hsync ▸ hlocks) x hw
  · intro x
    by_cases hx : x = w
    · rw [hx, hself]
      exact hfound
    · rw [hothers x hx]
      trivial
  · intro i hi
    obtain ⟨hslot, hroom, e, j, hp⟩ := htorn i hi
    exact ⟨hslot, hroom, w, e, j, hself.trans hp⟩

/-- Nothing is torn while the writer in `add` is not copying. -/
theorem whole (h : Written n σ T) {w : ω} (hw : σ.writer w ≠ .outside)
    (hcopying : ∀ e j, σ.writer w ≠ .copying e j) : σ.torn = none := by
  by_contra htorn
  obtain ⟨i, hi⟩ := Option.ne_none_iff_exists'.mp htorn
  obtain ⟨-, -, x, e, j, hx⟩ := h.torn i hi
  obtain rfl := h.alone x w (by simp [hx]) hw
  exact hcopying e j hx

/-- A step of a reader. -/
theorem read (h : Written n σ T) (hring : σ.probed.queue.SameRing σ'.probed.queue)
    (hwriter : σ'.writer = σ.writer) (hsync : σ'.syncWriter = σ.syncWriter)
    (hmutex : σ'.addMutex = σ.addMutex) (htorn : σ'.torn = σ.torn)
    (haccepted : σ'.accepted = σ.accepted) (hoccupant : σ'.occupant = σ.occupant)
    (hentries : T'.accepted = T.accepted) (hbase : T.base ≤ T'.base) : Written n σ' T' := by
  have hwritten : T'.written = T.written := by rw [Tickets.written, hentries, Tickets.written]
  obtain ⟨i, hi⟩ := hring
  have hdata : σ'.ring.queueData = σ.ring.queueData := by rw [ring, hi]; rfl
  have hstore : σ'.ring.dataEntries = σ.ring.dataEntries := by rw [ring, hi]; rfl
  refine
    { single := hsync ▸ h.single
      alone := ?_
      mutex := ?_
      found := ?_
      torn := ?_
      accepted := by rw [haccepted, hentries, h.accepted]
      occupant := ?_ }
  · rw [hwriter]
    exact h.alone
  · rw [hwriter, hsync, hmutex]
    exact h.mutex
  · intro w
    have hfound := h.found w
    rw [hwriter]
    cases hp : σ.writer w with
    | outside => trivial
    | entered e => trivial
    | room e j =>
        rw [hp] at hfound
        exact HasRoom.advance hfound hentries hbase
    | copying e j =>
        rw [hp] at hfound
        exact ⟨hfound.1.advance hentries hbase, by rw [hstore]; exact hfound.2⟩
    | copied e j =>
        rw [hp] at hfound
        refine ⟨hfound.1.advance hentries hbase, by rw [hstore]; exact hfound.2.1, ?_⟩
        rw [hdata, hwritten]
        exact hfound.2.2
    | leaving e j =>
        rw [hp] at hfound
        show 0 ≤ j → (e, j) ∈ σ'.accepted
        rw [haccepted]
        exact hfound
  · intro i hi
    rw [htorn] at hi
    rw [hwritten, hwriter]
    obtain ⟨hslot, hroom, hcopying⟩ := h.torn i hi
    exact ⟨hslot, by omega, hcopying⟩
  · intro k hk hkw
    rw [hoccupant]
    exact h.occupant k (by omega) (by omega)

end Written

/-! ## The readers -/

variable [DecidableEq ρ]

/-- The slots assigned are the tickets drawn, and what was handed out are the
entries of the tickets. -/
structure Dealt (n : Nat) (σ : SharedQueue ω ρ E) (T : Tickets ρ E) : Prop where
  count : σ.assigned.length = T.next
  slots : ∀ k r i, σ.assigned[k]? = some (r, i) → i = slot n 0 k
  holds : ∀ r ∈ T.line, T.isDone r = false → ∃ i, σ.assigned[T.ticket r]? = some (r, i)
  taking : ∀ r, σ.taking r = true → r ∈ T.line ∧ T.ticket r < T.written ∧
    T.isDone r = true ∧ ∃ i, σ.assigned[T.ticket r]? = some (r, i)
  gave : ∀ r k x, (r, k, x) ∈ σ.handed → r ∈ T.line ∧ (∃ i, σ.assigned[k]? = some (r, i)) ∧
    k ≤ T.ticket r ∧ (T.isDone r = false ∨ σ.taking r = true → k < T.ticket r) ∧
    ∃ e, x = some e ∧ T.accepted[k]? = some e
  all : ∀ k ∈ T.returned, k ∈ σ.numbers ∨ ∃ r, σ.taking r = true ∧ T.ticket r = k
  once : σ.numbers.Nodup
  increasing : ∀ r, (σ.numbersOf r).Pairwise (· < ·)
  borrowed : ∀ r k, σ.borrowed r = some k → r ∈ T.line ∧ T.ticket r = k ∧ k < T.written

namespace Dealt

/-- A step that assigns nothing and hands nothing out. -/
theorem congr (h : Dealt n σ T) (hassigned : σ'.assigned = σ.assigned)
    (htaking : σ'.taking = σ.taking) (hhanded : σ'.handed = σ.handed)
    (hborrowed : ∀ r k, σ'.borrowed r = some k → σ.borrowed r = some k)
    (hline : T'.line = T.line) (hticket : T'.ticket = T.ticket) (hdone : T'.isDone = T.isDone)
    (hbase : T'.base = T.base) (hreturned : T'.returned = T.returned)
    (hentries : T.accepted <+: T'.accepted) : Dealt n σ' T' := by
  have hwritten : T.written ≤ T'.written := hentries.length_le
  have hnext : T'.next = T.next := by simp only [Tickets.next, hline, hticket, hbase]
  have hnumbers : σ'.numbers = σ.numbers := by rw [numbers, hhanded, numbers]
  refine
    { count := by rw [hassigned, hnext, h.count]
      slots := hassigned ▸ h.slots
      holds := ?_
      taking := ?_
      gave := ?_
      all := ?_
      once := hnumbers ▸ h.once
      increasing := by
        unfold numbersOf
        rw [hhanded]
        exact h.increasing
      borrowed := ?_ }
  · rw [hline, hticket, hdone, hassigned]
    exact h.holds
  · intro r hr
    rw [htaking] at hr
    rw [hline, hticket, hdone, hassigned]
    obtain ⟨hrl, hlt, hrest⟩ := h.taking r hr
    exact ⟨hrl, by omega, hrest⟩
  · intro r k x hx
    rw [hhanded] at hx
    rw [hline, hticket, hdone, hassigned, htaking]
    obtain ⟨hrl, hi, hle, hlt, e, he, hget⟩ := h.gave r k x hx
    obtain ⟨l, hl⟩ := hentries
    refine ⟨hrl, hi, hle, hlt, e, he, ?_⟩
    rw [← hl, List.getElem?_append_left (List.getElem?_eq_some_iff.mp hget).1, hget]
  · rw [hreturned, hnumbers, htaking, hticket]
    exact h.all
  · intro r k hk
    obtain ⟨hrl, htk, hlt⟩ := h.borrowed r k (hborrowed r k hk)
    rw [hline, hticket]
    exact ⟨hrl, htk, by omega⟩

/-- A step that puts `r` in its place in the line, with the next ticket or with one
that is not its own. -/
theorem place (h : Dealt n σ T) {r : ρ} (hsound : T.Sound n)
    (htaking : σ'.taking = σ.taking) (hhanded : σ'.handed = σ.handed)
    (hborrowed : ∀ x k, σ'.borrowed x = some k → σ.borrowed x = some k ∧ x ≠ r)
    (hidle : σ.taking r = false)
    (hline : ∀ x, x ∈ T'.line ↔ x = r ∨ x ∈ T.line)
    (hticket : ∀ x, x ≠ r → T'.ticket x = T.ticket x)
    (hdone : ∀ x, x ≠ r → T'.isDone x = T.isDone x)
    (hreturned : T'.returned = T.returned) (hentries : T'.accepted = T.accepted)
    (hgrown : (σ'.assigned = σ.assigned ∧ T'.next = T.next ∧ T'.isDone r = true ∧
        (r ∈ T.line → T.ticket r ≤ T'.ticket r)) ∨
      (σ'.assigned = σ.assigned ++ [(r, slot n 0 T.next)] ∧ T'.next = T.next + 1 ∧
        T'.ticket r = T.next)) : Dealt n σ' T' := by
  have hwritten : T'.written = T.written := by rw [Tickets.written, hentries, Tickets.written]
  have hnumbers : σ'.numbers = σ.numbers := by rw [numbers, hhanded, numbers]
  have hgrow : σ'.assigned = σ.assigned ∨ ∃ b, σ'.assigned = σ.assigned ++ [b] := by
    rcases hgrown with hsame | hnew
    · exact .inl hsame.1
    · exact .inr ⟨_, hnew.1⟩
  refine
    { count := ?_
      slots := ?_
      holds := ?_
      taking := ?_
      gave := ?_
      all := ?_
      once := hnumbers ▸ h.once
      increasing := ?_
      borrowed := ?_ }
  · rcases hgrown with ⟨hassigned, hnext, -⟩ | ⟨hassigned, hnext, -⟩
    · rw [hassigned, hnext, h.count]
    · rw [hassigned, hnext, List.length_append, List.length_singleton, h.count]
  · intro k x i hk
    rcases hgrown with ⟨hassigned, -⟩ | ⟨hassigned, -⟩
    · rw [hassigned] at hk
      exact h.slots k x i hk
    · rw [hassigned] at hk
      rcases Ledger.Dispensed.getElem?_append_singleton hk with hk | ⟨rfl, hnew⟩
      · exact h.slots k x i hk
      · rw [h.count, ← (Prod.mk.inj hnew).2]
  · intro x hx hxd
    by_cases hxr : x = r
    · subst hxr
      rcases hgrown with ⟨-, -, htrue, -⟩ | ⟨hassigned, -, hnext⟩
      · rw [htrue] at hxd
        cases hxd
      · rw [hnext, ← h.count, hassigned]
        exact ⟨slot n 0 T.next, by simp⟩
    · rw [hdone x hxr] at hxd
      obtain ⟨i, hi⟩ := h.holds x (((hline x).mp hx).resolve_left hxr) hxd
      rw [hticket x hxr]
      exact ⟨i, Ledger.Dispensed.getElem?_of_append hi hgrow⟩
  · intro x hx
    rw [htaking] at hx
    have hxr : x ≠ r := by
      rintro rfl
      rw [hidle] at hx
      cases hx
    obtain ⟨hxl, hlt, htrue, i, hi⟩ := h.taking x hx
    rw [hticket x hxr, hdone x hxr, hwritten]
    exact ⟨(hline x).mpr (.inr hxl), hlt, htrue, i, Ledger.Dispensed.getElem?_of_append hi hgrow⟩
  · intro x k e hk
    rw [hhanded] at hk
    obtain ⟨hxl, ⟨i, hi⟩, hle, hlt, hwhole⟩ := h.gave x k e hk
    refine ⟨(hline x).mpr (.inr hxl), ⟨i, Ledger.Dispensed.getElem?_of_append hi hgrow⟩, ?_⟩
    rw [hentries, htaking]
    by_cases hxr : x = r
    · subst hxr
      rcases hgrown with ⟨-, -, htrue, hmono⟩ | ⟨-, -, hnext⟩
      · have hmono := hmono hxl
        refine ⟨by omega, ?_, hwhole⟩
        rw [htrue, hidle]
        simp
      · have hbelow := hsound.lt_next hxl
        rw [hnext]
        exact ⟨by omega, fun _ => by omega, hwhole⟩
    · rw [hticket x hxr, hdone x hxr]
      exact ⟨hle, hlt, hwhole⟩
  · intro k hk
    rw [hreturned] at hk
    rw [hnumbers, htaking]
    refine (h.all k hk).imp id ?_
    rintro ⟨x, hx, hxk⟩
    have hxr : x ≠ r := by
      rintro rfl
      rw [hidle] at hx
      cases hx
    exact ⟨x, hx, (hticket x hxr).trans hxk⟩
  · unfold numbersOf
    rw [hhanded]
    exact h.increasing
  · intro x k hk
    obtain ⟨hk, hxr⟩ := hborrowed x k hk
    obtain ⟨hxl, htk, hlt⟩ := h.borrowed x k hk
    rw [hticket x hxr, hwritten]
    exact ⟨(hline x).mpr (.inr hxl), htk, hlt⟩

/-- `removeSlot` found the slot populated. -/
theorem take (h : Dealt n σ T) {r : ρ} (hr : r ∈ T.line) (hdone : T.isDone r = false)
    (hlt : T.ticket r < T.written) (hassigned : σ'.assigned = σ.assigned)
    (htaking : σ'.taking = Function.update σ.taking r true) (hhanded : σ'.handed = σ.handed)
    (hborrowed : σ'.borrowed = σ.borrowed) : Dealt n σ' (T.take r) := by
  have hnumbers : σ'.numbers = σ.numbers := by rw [numbers, hhanded, numbers]
  have hwritten : (T.take r).written = T.written := by simp [Tickets.written]
  refine
    { count := by rw [hassigned, Tickets.Sound.take_next, h.count]
      slots := hassigned ▸ h.slots
      holds := ?_
      taking := ?_
      gave := ?_
      all := ?_
      once := hnumbers ▸ h.once
      increasing := ?_
      borrowed := ?_ }
  · intro x hx hxd
    rw [Tickets.take_line] at hx
    rw [Tickets.take_ticket, hassigned]
    by_cases hxr : x = r
    · subst hxr
      simp [Tickets.take, hlt] at hxd
    · rw [Tickets.take_isDone_of_ne hxr] at hxd
      exact h.holds x hx hxd
  · intro x hx
    rw [htaking] at hx
    rw [Tickets.take_line, Tickets.take_ticket, hassigned, hwritten]
    by_cases hxr : x = r
    · subst hxr
      exact ⟨hr, hlt, by simp [Tickets.take, hlt], h.holds x hr hdone⟩
    · rw [Function.update_of_ne hxr] at hx
      rw [Tickets.take_isDone_of_ne hxr]
      exact h.taking x hx
  · intro x k e hk
    rw [hhanded] at hk
    obtain ⟨hxl, hi, hle, hbelow, hwhole⟩ := h.gave x k e hk
    rw [Tickets.take_line, Tickets.take_ticket, Tickets.take_accepted, hassigned]
    refine ⟨hxl, hi, hle, ?_, hwhole⟩
    intro hmay
    by_cases hxr : x = r
    · subst hxr
      exact hbelow (.inl hdone)
    · rw [Tickets.take_isDone_of_ne hxr, htaking, Function.update_of_ne hxr] at hmay
      exact hbelow hmay
  · intro k hk
    have hk : k ∈ T.returned ∨ k = T.ticket r := by simpa [Tickets.take, hlt] using hk
    rw [hnumbers, Tickets.take_ticket, htaking]
    rcases hk with hk | rfl
    · refine (h.all k hk).imp id ?_
      rintro ⟨x, hx, hxk⟩
      refine ⟨x, ?_, hxk⟩
      by_cases hxr : x = r
      · simp [hxr]
      · rw [Function.update_of_ne hxr, hx]
    · exact .inr ⟨r, by simp, rfl⟩
  · unfold numbersOf
    rw [hhanded]
    exact h.increasing
  · rw [hborrowed, Tickets.take_line, Tickets.take_ticket, hwritten]
    exact h.borrowed

/-- The reader is handed the entry of its ticket. -/
theorem hand (h : Dealt n σ T) {r : ρ} {e : E} (htaken : σ.taking r = true)
    (hget : T.accepted[T.ticket r]? = some e) (hassigned : σ'.assigned = σ.assigned)
    (htaking : σ'.taking = Function.update σ.taking r false)
    (hhanded : σ'.handed = σ.handed ++ [(r, T.ticket r, some e)])
    (hborrowed : σ'.borrowed = Function.update σ.borrowed r (some (T.ticket r))) :
    Dealt n σ' T := by
  obtain ⟨hr, hlt, hdone, i, hi⟩ := h.taking r htaken
  have hnumbers : σ'.numbers = σ.numbers ++ [T.ticket r] := by simp [numbers, hhanded]
  have hfresh : ∀ x e', (x, T.ticket r, e') ∉ σ.handed := by
    intro x e' hx
    obtain ⟨-, ⟨j, hj⟩, -, hbelow, -⟩ := h.gave x _ e' hx
    obtain rfl : x = r := (Prod.mk.inj (Option.some.inj (hj.symm.trans hi))).1
    exact Nat.lt_irrefl _ (hbelow (.inr htaken))
  refine
    { count := by rw [hassigned, h.count]
      slots := hassigned ▸ h.slots
      holds := hassigned ▸ h.holds
      taking := ?_
      gave := ?_
      all := ?_
      once := ?_
      increasing := ?_
      borrowed := ?_ }
  · intro x hx
    rw [htaking] at hx
    have hxr : x ≠ r := by
      rintro rfl
      simp at hx
    rw [Function.update_of_ne hxr] at hx
    rw [hassigned]
    exact h.taking x hx
  · intro x k y hk
    rw [hhanded] at hk
    rw [hassigned]
    rcases List.mem_append.mp hk with hk | hk
    · obtain ⟨hxl, hj, hle, hbelow, hwhole⟩ := h.gave x k y hk
      refine ⟨hxl, hj, hle, ?_, hwhole⟩
      rw [htaking]
      intro hmay
      by_cases hxr : x = r
      · subst hxr
        exact hbelow (.inr htaken)
      · rw [Function.update_of_ne hxr] at hmay
        exact hbelow hmay
    · obtain ⟨rfl, rfl, rfl⟩ : x = r ∧ k = T.ticket r ∧ y = some e := by simpa using hk
      refine ⟨hr, ⟨i, hi⟩, Nat.le_refl _, ?_, e, rfl, hget⟩
      simp [hdone, htaking]
  · intro k hk
    rw [hnumbers, htaking]
    rcases h.all k hk with hk | ⟨x, hx, rfl⟩
    · exact .inl (List.mem_append_left _ hk)
    · by_cases hxr : x = r
      · rw [hxr]
        exact .inl (by simp)
      · exact .inr ⟨x, by rw [Function.update_of_ne hxr, hx], rfl⟩
  · rw [hnumbers]
    refine List.nodup_append.mpr ⟨h.once, by simp, ?_⟩
    intro k hk j hj hkj
    obtain rfl : j = T.ticket r := by simpa using hj
    obtain ⟨⟨x, m, y⟩, hx, hm⟩ := List.mem_map.mp hk
    have hm : m = T.ticket r := hm.trans hkj
    exact hfresh x y (hm ▸ hx)
  · intro x
    have hincreasing := h.increasing x
    unfold numbersOf at hincreasing ⊢
    rw [hhanded, List.filter_append, List.map_append]
    by_cases hxr : x = r
    · subst hxr
      refine List.pairwise_append.mpr ⟨hincreasing, by simp, ?_⟩
      intro k hk j hj
      obtain rfl : j = T.ticket x := by simpa using hj
      obtain ⟨⟨y, m, z⟩, hp, rfl⟩ := List.mem_map.mp hk
      obtain ⟨hgiven, hyx⟩ := List.mem_filter.mp hp
      obtain rfl : y = x := of_decide_eq_true hyx
      exact (h.gave y m z hgiven).2.2.2.1 (.inr htaken)
    · simpa [Ne.symm hxr] using hincreasing
  · intro x k hk
    rw [hborrowed] at hk
    by_cases hxr : x = r
    · subst hxr
      obtain rfl : T.ticket x = k := by simpa using hk
      exact ⟨hr, rfl, hlt⟩
    · rw [Function.update_of_ne hxr] at hk
      exact h.borrowed x k hk

end Dealt

/-! ## The schedules -/

/-- The queue stands for the line `T`, between its writers and its readers. -/
structure InTurn (n : Nat) (σ : SharedQueue ω ρ E) (T : Tickets ρ E) : Prop where
  watched : ProbedQueue.Watched n σ.probed T
  written : Written n σ T
  dealt : Dealt n σ T

namespace InTurn

theorem new (hn : 0 < n) (dataEntries : ProcessingQueueDataArray E) {syncWriter : Bool}
    (hsingle : syncWriter = true ∨ Subsingleton ω) :
    InTurn n (.new ω ρ n dataEntries syncWriter) (.new ρ E) where
  watched :=
    { sound := .new hn
      tight := rfl
      standing := (Represents.new dataEntries).toStanding
      isDone := by simp [Tickets.new]
      registered := by simp [SharedQueue.new, ProbedQueue.new]
      loaded := by simp [SharedQueue.new, ProbedQueue.new]
      last := by simp [SharedQueue.new, ProbedQueue.new] }
  written :=
    { single := hsingle
      alone := by simp [SharedQueue.new]
      mutex := by simp [SharedQueue.new]
      found := fun _ => trivial
      torn := by simp [SharedQueue.new]
      accepted := rfl
      occupant := by simp [Tickets.new, Tickets.written] }
  dealt :=
    { count := rfl
      slots := by simp [SharedQueue.new]
      holds := by simp [Tickets.new]
      taking := by simp [SharedQueue.new]
      gave := by simp [SharedQueue.new]
      all := by simp [Tickets.new]
      once := by simp [SharedQueue.new, numbers]
      increasing := by simp [SharedQueue.new, numbersOf]
      borrowed := by simp [SharedQueue.new] }

/-- The slot of an entry that is still to be read, or being read, holds it whole. -/
theorem cell_eq (h : InTurn n σ T) {k : Nat} (hlow : T.base ≤ k) (hhigh : k < T.written) :
    σ.cell (slot n 0 k) = T.accepted[k]? := by
  have hget : T.accepted[k]? = some T.accepted[k] := List.getElem?_eq_getElem hhigh
  have hwhole : σ.torn ≠ some (slot n 0 k) := by
    intro htorn
    obtain ⟨heq, hroom, -⟩ := h.written.torn _ htorn
    exact Standing.slot_ne h.watched.sound hroom hlow hhigh heq
  have hstored : σ.ring.queueData (slot n 0 k) = .entry T.accepted[k] :=
    h.watched.standing.stored k _ hlow hget
  rw [cell, if_neg hwhole, hstored, hget]

section Writers

variable [DecidableEq ω]

/-- A step of the writer in `add` that leaves the ring as it is. -/
theorem turn (h : InTurn n σ T) {w : ω} {p : Adder E} (hw : σ.writer w ≠ .outside)
    {torn : Option Int} {addMutex : Option ω} (hmutex : p ≠ .outside → addMutex = σ.addMutex)
    (hfound : Found n σ T p)
    (htorn : ∀ i, torn = some i → i = slot n 0 T.written ∧ T.written + 1 < T.base + n ∧
      ∃ e j, p = .copying e j) :
    InTurn n
      (({ σ with torn := torn, addMutex := addMutex } : SharedQueue ω ρ E).setWriter w p).observe
      T where
  watched := h.watched.setRing h.watched.sound h.watched.standing rfl rfl rfl rfl (Nat.le_refl _)
  written := h.written.turn hw rfl rfl hmutex hfound htorn h.written.accepted h.written.occupant
  dealt := h.dealt.congr rfl rfl rfl (fun _ _ hk => hk) rfl rfl rfl rfl rfl (List.prefix_refl _)

/-- A call of `add`. -/
theorem enter (h : InTurn n σ T) {w : ω} {e : E} (hw : σ.writer w = .outside)
    (hfree : (σ.syncWriter && σ.addMutex.isSome) = false) :
    InTurn n
      (({ σ with addMutex := if σ.syncWriter then some w else none } :
        SharedQueue ω ρ E).setWriter w (.entered e)).observe T := by
  have hothers : ∀ x, x ≠ w → σ.writer x = .outside := by
    intro x hx
    by_contra hin
    rcases h.written.single with hsync | hone
    · rw [hsync, h.written.mutex hsync x hin] at hfree
      cases hfree
    · exact hx (Subsingleton.elim x w)
  have hwriter : ∀ x, Function.update σ.writer w (.entered e) x ≠ .outside → x = w := by
    intro x hx
    by_contra hxw
    rw [Function.update_of_ne hxw] at hx
    exact hx (hothers x hxw)
  have htorn : σ.torn = none := by
    by_contra htorn
    obtain ⟨i, hi⟩ := Option.ne_none_iff_exists'.mp htorn
    obtain ⟨-, -, x, e', j, hx⟩ := h.written.torn i hi
    by_cases hxw : x = w
    · rw [hxw, hw] at hx
      cases hx
    · rw [hothers x hxw] at hx
      cases hx
  refine
    { watched := h.watched.setRing h.watched.sound h.watched.standing rfl rfl rfl rfl
        (Nat.le_refl _)
      written :=
        { single := h.written.single
          alone := fun x y hx hy => (hwriter x hx).trans (hwriter y hy).symm
          mutex := ?_
          found := ?_
          torn := ?_
          accepted := h.written.accepted
          occupant := h.written.occupant }
      dealt := h.dealt.congr rfl rfl rfl (fun _ _ hk => hk) rfl rfl rfl rfl rfl
        (List.prefix_refl _) }
  · intro hlocks x hx
    obtain rfl := hwriter x hx
    exact if_pos hlocks
  · intro x
    show Found n _ T (Function.update σ.writer w (.entered e) x)
    by_cases hxw : x = w
    · rw [hxw, Function.update_self]
      trivial
    · rw [Function.update_of_ne hxw, hothers x hxw]
      trivial
  · intro i hi
    have hi : σ.torn = some i := hi
    rw [htorn] at hi
    cases hi

/-- The copy is finished. -/
theorem endCopy (h : InTurn n σ T) {w : ω} {e : E} {i : Int} (hw : σ.writer w = .copying e i) :
    InTurn n
      (({ σ.setRing (σ.ring.copyTo e σ.ring.writeIndex) with torn := none } :
        SharedQueue ω ρ E).setWriter w (.copied e i)).observe T := by
  have hfound := h.written.found w
  rw [hw] at hfound
  obtain ⟨hroom, hstore⟩ := hfound
  have hT := h.watched.sound
  refine
    { watched := h.watched.setRing hT (h.watched.standing.copyTo hT hroom.2) rfl rfl rfl rfl
        (Nat.le_refl _)
      written := ?_
      dealt := h.dealt.congr rfl rfl rfl (fun _ _ hk => hk) rfl rfl rfl rfl rfl
        (List.prefix_refl _) }
  refine h.written.turn (by simp [hw]) rfl rfl (fun _ => rfl) ⟨hroom, hstore, ?_⟩ ?_
    h.written.accepted h.written.occupant
  · have hindex : σ.ring.writeIndex = slot n 0 T.written := h.watched.standing.writeIndex
    show Function.update σ.ring.queueData σ.ring.writeIndex (.entry e) (slot n 0 T.written) = _
    rw [hindex, Function.update_self]
  · intro j hj
    cases hj

/-- The entry is published. -/
theorem publish (h : InTurn n σ T) {w : ω} {e : E} {i : Int} (hw : σ.writer w = .copied e i) :
    InTurn n
      (({ σ.setRing { σ.ring with
            writeIndex := i
            stats := σ.ring.stats.incrementAddedCount } with
          accepted := σ.accepted ++ [(e, σ.ring.writeIndex)]
          occupant := Function.update σ.occupant σ.ring.writeIndex σ.accepted.length } :
        SharedQueue ω ρ E).setWriter w (.leaving e σ.ring.writeIndex)).observe (T.write e) := by
  have hfound := h.written.found w
  rw [hw] at hfound
  obtain ⟨⟨rfl, hroom⟩, hstore, hcell⟩ := hfound
  have hT := h.watched.sound
  have hn : 0 < n := by
    have hlow := hT.base_le_written
    omega
  have hindex : σ.ring.writeIndex = slot n 0 T.written := h.watched.standing.writeIndex
  have hlength : σ.accepted.length = T.written := by
    simp [h.written.accepted, Tickets.written]
  have htorn := h.written.whole (w := w) (by simp [hw]) (by simp [hw])
  refine
    { watched := h.watched.setRing (hT.write e hroom)
        (h.watched.standing.publish hstore hcell _) rfl rfl rfl rfl (by simp)
      written := ?_
      dealt := h.dealt.congr rfl rfl rfl (fun _ _ hk => hk) rfl rfl rfl rfl rfl
        (List.prefix_append _ _) }
  refine h.written.turn (by simp [hw]) rfl rfl (fun _ => rfl) ?_ ?_ ?_ ?_
  · intro _
    exact List.mem_append_right _ (List.mem_singleton.mpr rfl)
  · intro j hj
    have hj : σ.torn = some j := hj
    rw [htorn] at hj
    cases hj
  · show σ.accepted ++ [(e, σ.ring.writeIndex)] = _
    rw [h.written.accepted, hindex]
    simp [Tickets.write, List.mapIdx_concat, Tickets.written]
  · intro k hk hkw
    have hk : T.base ≤ k := hk
    rw [Tickets.written_write] at hkw
    show Function.update σ.occupant σ.ring.writeIndex σ.accepted.length (slot n 0 k) = k
    rw [hindex, hlength]
    by_cases hkT : k = T.written
    · rw [hkT, Function.update_self]
    · rw [Function.update_of_ne (Standing.slot_ne hT hroom hk (by omega))]
      exact h.written.occupant k hk (by omega)

/-- A step of a writer. -/
theorem write (h : InTurn n σ T) {w : ω} {a : SharedStep ω ρ E} (hstep : σ.write w a = some σ') :
    ∃ T', InTurn n σ'.observe T' := by
  have hT := h.watched.sound
  have hfound := h.written.found w
  have hnone : ∀ {w' : ω} {p : Adder E}, σ.writer w' ≠ .outside →
      (∀ e j, σ.writer w' ≠ .copying e j) → ∀ i, σ.torn = some i →
      i = slot n 0 T.written ∧ T.written + 1 < T.base + n ∧ ∃ e j, p = .copying e j := by
    intro w' p hin hcopying i hi
    rw [h.written.whole hin hcopying] at hi
    cases hi
  unfold SharedQueue.write at hstep
  split at hstep
  · -- add
    split at hstep
    · rename_i hw
      split at hstep
      · cases hstep
      · rename_i hfree
        obtain rfl := Option.some.inj hstep
        exact ⟨T, h.enter hw (by simpa using hfree)⟩
    · cases hstep
  · -- isFull
    split at hstep
    · rename_i e hw
      obtain rfl := Option.some.inj hstep
      have hn : 0 < n := by
        have hlow := hT.base_le_written
        have hhigh := hT.within
        omega
      have hfull : σ.ring.isFull =
          if T.written + 1 = T.base + n then IS_FULL else slot n 0 (T.written + 1) :=
        h.watched.standing.isFull_eq hT
      have hin : σ.writer w ≠ .outside := by simp [hw]
      refine ⟨T, h.turn hin (fun _ => rfl) ?_ (hnone hin (by simp [hw]))⟩
      by_cases hlap : T.written + 1 = T.base + n
      · rw [hfull, if_pos hlap, if_pos rfl]
        intro hneg
        cases hneg
      · have hroom : slot n 0 (T.written + 1) ≠ IS_FULL := by
          have hpos := slot_nonneg 0 hn (T.written + 1)
          intro heq
          rw [heq] at hpos
          cases hpos
        rw [hfull, if_neg hlap, if_neg hroom]
        have hwithin := hT.within
        exact ⟨rfl, by omega⟩
    · cases hstep
  · -- beginCopy
    split at hstep
    · rename_i e i hw
      rw [hw] at hfound
      have hin : σ.writer w ≠ .outside := by simp [hw]
      split at hstep
      · rename_i hfits
        obtain rfl := Option.some.inj hstep
        obtain ⟨hcompatible, hcell⟩ := Bool.and_eq_true_iff.mp hfits
        refine ⟨T, h.turn hin (fun _ => rfl) ⟨hfound, hcompatible, ?_⟩ ?_⟩
        · simp only [ProcessingQueueDataArray.getQueueEntry, Bool.and_eq_true] at hcell
          exact hcell.2
        · intro j hj
          rw [← Option.some.inj hj]
          exact ⟨h.watched.standing.writeIndex, hfound.2, e, i, rfl⟩
      · obtain rfl := Option.some.inj hstep
        refine ⟨T, h.turn hin (fun _ => rfl) ?_ (hnone hin (by simp [hw]))⟩
        intro hneg
        cases hneg
    · cases hstep
  · -- endCopy
    split at hstep
    · rename_i e i hw
      obtain rfl := Option.some.inj hstep
      exact ⟨T, h.endCopy hw⟩
    · cases hstep
  · -- publish
    split at hstep
    · rename_i e i hw
      obtain rfl := Option.some.inj hstep
      exact ⟨_, h.publish hw⟩
    · cases hstep
  · -- leave
    split at hstep
    · rename_i e i hw
      obtain rfl := Option.some.inj hstep
      have hin : σ.writer w ≠ .outside := by simp [hw]
      exact ⟨T, h.turn hin (fun hout => absurd rfl hout) trivial (hnone hin (by simp [hw]))⟩
    · cases hstep
  · cases hstep

end Writers

section Readers

/-- A reader joins. -/
theorem startAccess (h : InTurn n σ T) (hn : 2 ≤ n) {r : ρ} {probed : ProbedQueue ρ E}
    (hact : σ.probed.act (.startAccess r) = some probed) :
    InTurn n
      (let joined := ({ σ with probed := probed } : SharedQueue ω ρ E)
        if (probed.queue.readers r).isDone then joined else joined.assign r).observe
      (T.join n r) := by
  have hT := h.watched.sound
  have hwatched := h.watched.step hn hact trivial
  simp only [ProbedQueue.act] at hact
  split at hact
  · rename_i hr
    split at hact
    · rename_i s' hrun
      obtain rfl := Option.some.inj hact
      have hrl : r ∉ T.line := fun hm => by simp [h.watched.standing.mem_iff.mpr hm] at hr
      obtain ⟨s'', hrun', hs', hflag⟩ := h.watched.standing.startAccess hT hn hr
      obtain rfl := Except.ok.inj (hrun.symm.trans hrun')
      obtain ⟨s₁, -, hrun₁, -, hring⟩ := h.watched.standing.chained.startAccess
        (by rw [h.watched.standing.size]; exact hn) hr
      obtain rfl := Except.ok.inj (hrun.symm.trans hrun₁)
      have hidle : σ.taking r = false := by
        cases htaking : σ.taking r with
        | false => rfl
        | true => exact absurd (h.dealt.taking r htaking).1 hrl
      have hborrowed : ∀ x k, σ.borrowed x = some k → σ.borrowed x = some k ∧ x ≠ r := by
        intro x k hk
        refine ⟨hk, ?_⟩
        rintro rfl
        exact hrl (h.dealt.borrowed x k hk).1
      have hflag : (s'.readers r).isDone = decide (T.Spans n) := by rw [hflag, if_pos rfl]
      have hnext := hT.join_next hn hrl
      have hindex := hs'.index r (hT.mem_join.mpr (.inl rfl))
      refine
        { watched := ?_
          written := ?_
          dealt := ?_ }
      · dsimp only
        split <;> exact hwatched
      · dsimp only
        split <;> exact h.written.read hring rfl rfl rfl rfl rfl rfl (by simp)
          (hT.base_le_join hn)
      · dsimp only
        rw [hflag]
        by_cases hspans : T.Spans n
        · rw [if_pos (by simpa using hspans)]
          refine h.dealt.place hT rfl rfl hborrowed hidle (fun x => hT.mem_join)
            (fun x hx => Tickets.join_ticket_of_ne hx) (fun x hx => Tickets.join_isDone_of_ne hx)
            (by simp) (by simp) (.inl ⟨rfl, ?_, ?_, fun hm => absurd hm hrl⟩)
          · rw [hnext, if_pos hspans]
          · simpa [Tickets.join_isDone] using hspans
        · rw [if_neg (by simpa using hspans)]
          refine h.dealt.place hT rfl rfl hborrowed hidle (fun x => hT.mem_join)
            (fun x hx => Tickets.join_ticket_of_ne hx) (fun x hx => Tickets.join_isDone_of_ne hx)
            (by simp) (by simp) (.inr ⟨?_, ?_, T.join_ticket r hspans⟩)
          · show σ.assigned ++ [(r, (s'.readers r).index)] = _
            rw [hindex, T.join_ticket r hspans]
          · rw [hnext, if_neg hspans]
    · cases hact
  · cases hact

/-- The locked move of a reader. -/
theorem moveToFront (h : InTurn n σ T) (hn : 2 ≤ n) {r : ρ} {probed : ProbedQueue ρ E}
    (hidle : σ.taking r = false) (hact : σ.probed.act (.moveToFront r) = some probed) :
    InTurn n
      (let moved := ({ σ with
          probed := probed, borrowed := Function.update σ.borrowed r none } : SharedQueue ω ρ E)
        if (probed.probe r).isSome then moved.assign r else moved).observe
      (σ.probed.lineAfter n T (.moveToFront r)) := by
  have hT := h.watched.sound
  have hwatched := h.watched.step hn hact trivial
  simp only [ProbedQueue.act] at hact
  split at hact
  · rename_i hready
    obtain ⟨hin, hflag, hprobe⟩ := hready
    have hr := h.watched.standing.mem_iff.mp hin
    have hprobe := Option.isNone_iff_eq_none.mp hprobe
    have hdone : T.isDone r = true := by
      rw [h.watched.isDone r hr]
      simp [hflag, ProbedQueue.removing, hprobe]
    have hborrowed : ∀ x k, Function.update σ.borrowed r none x = some k →
        σ.borrowed x = some k ∧ x ≠ r := by
      intro x k hk
      by_cases hxr : x = r
      · simp [hxr] at hk
      · rw [Function.update_of_ne hxr] at hk
        exact ⟨hk, hxr⟩
    obtain ⟨s₁, moved₁, l, hrun₁, -, hring⟩ := h.watched.standing.chained.moveToFront
      (by rw [h.watched.standing.size]; exact hn) hr
    by_cases hspans : T.Spans n
    · obtain ⟨s', hrun, hs', -⟩ := h.watched.standing.moveToFront_stays hT hn hr hspans
      obtain ⟨rfl, -⟩ := Prod.mk.inj (Except.ok.inj (hrun.symm.trans hrun₁))
      rw [hrun] at hact
      obtain rfl := Option.some.inj hact
      simp only [ProbedQueue.lineAfter, if_pos hspans] at hwatched ⊢
      simp only [hprobe, Option.isSome_none, Bool.false_eq_true, if_false]
      by_cases hback : T.line.head? = some r
      · rw [if_pos hback] at hwatched ⊢
        have hnext := hT.share_next hn hspans (fun _ => hback)
        refine
          { watched := hwatched
            written := h.written.read hring rfl rfl rfl rfl rfl rfl (by simp [Tickets.share])
              (hT.base_le_share hn hspans)
            dealt := ?_ }
        refine h.dealt.place hT rfl rfl hborrowed hidle (fun x => hT.mem_share)
          (fun x hx => Tickets.share_ticket_of_ne hx) (fun x hx => Tickets.share_isDone_of_ne hx)
          (by simp [Tickets.share]) (by simp [Tickets.share]) (.inl ⟨rfl, hnext, ?_, ?_⟩)
        · simp [Tickets.share]
        · exact fun _ => hT.le_share_ticket hn hback hspans
      · rw [if_neg hback] at hwatched ⊢
        refine
          { watched := hwatched
            written := h.written.read hring rfl rfl rfl rfl rfl rfl rfl (Nat.le_refl _)
            dealt := ?_ }
        exact h.dealt.congr rfl rfl rfl (fun x k hk => (hborrowed x k hk).1) rfl rfl rfl rfl rfl
          (List.prefix_refl _)
    · obtain ⟨s', hrun, hs', -⟩ := h.watched.standing.moveToFront_draws hT hn hr hspans
      obtain ⟨rfl, -⟩ := Prod.mk.inj (Except.ok.inj (hrun.symm.trans hrun₁))
      rw [hrun] at hact
      obtain rfl := Option.some.inj hact
      have hindex := hs'.index r (hT.mem_draw.mpr (.inl rfl))
      have hticket : (T.draw r).ticket r = T.next := by simp [Tickets.draw]
      simp only [ProbedQueue.lineAfter, if_neg hspans] at hwatched ⊢
      rw [if_pos (by simp [ProbedQueue.begin])]
      refine
        { watched := hwatched
          written := h.written.read hring rfl rfl rfl rfl rfl rfl (by simp [Tickets.draw])
            hT.base_le_draw
          dealt := ?_ }
      refine h.dealt.place hT rfl rfl hborrowed hidle (fun x => hT.mem_draw)
        (fun x hx => Tickets.draw_ticket_of_ne hx) (fun x hx => Tickets.draw_isDone_of_ne hx)
        (by simp [Tickets.draw]) (by simp [Tickets.draw])
        (.inr ⟨?_, Tickets.Sound.draw_next T r, hticket⟩)
      show σ.assigned ++ [(r, (s'.readers r).index)] = _
      rw [hindex, hticket]
  · cases hact

/-- A step of the emptiness test that leaves the line as it is. -/
theorem probe (h : InTurn n σ T) (hwatched : ProbedQueue.Watched n σ'.probed.observe T)
    (hring : σ.probed.queue.SameRing σ'.probed.queue)
    (hrest : σ' = { σ with probed := σ'.probed, borrowed := σ'.borrowed })
    (hborrowed : ∀ r k, σ'.borrowed r = some k → σ.borrowed r = some k) :
    InTurn n σ'.observe T where
  watched := hwatched
  written := by
    rw [hrest]
    exact h.written.read hring rfl rfl rfl rfl rfl rfl rfl (Nat.le_refl _)
  dealt := by
    rw [hrest]
    exact h.dealt.congr rfl rfl rfl hborrowed rfl rfl rfl rfl rfl (List.prefix_refl _)

/-- The comparison of the emptiness test. -/
theorem compare (h : InTurn n σ T) (hn : 2 ≤ n) {r : ρ} {probed : ProbedQueue ρ E}
    (hact : σ.probed.act (.compare r) = some probed) (hends : σ.probed.Consistent r) :
    InTurn n
      ({ σ with
        probed := probed
        taking :=
          if σ.probed.removing r && σ.probed.outcome r == some false then
            Function.update σ.taking r true
          else σ.taking } : SharedQueue ω ρ E).observe
      (σ.probed.lineAfter n T (.compare r)) := by
  have hwatched := h.watched.step hn hact hends
  obtain ⟨p, hp, hact⟩ := Option.bind_eq_some_iff.mp hact
  obtain ⟨empty, hempty, hact⟩ := Option.bind_eq_some_iff.mp hact
  obtain rfl := Option.some.inj hact
  have hr := h.watched.registered r p hp
  have hring : σ.probed.queue.SameRing (σ.probed.finish r p.removes empty).queue := by
    refine ⟨σ.probed.queue.readIndex, ?_⟩
    unfold ProbedQueue.finish
    cases p.removes <;> rfl
  unfold ProbedQueue.lineAfter at hwatched ⊢
  dsimp only at hwatched ⊢
  by_cases hfound : (σ.probed.removing r && σ.probed.outcome r == some false) = true
  · simp only [if_pos hfound] at hwatched ⊢
    obtain ⟨hremoves, houtcome⟩ := Bool.and_eq_true_iff.mp hfound
    have hdone : T.isDone r = false := by
      rw [h.watched.isDone r hr, hremoves]
      simp
    obtain rfl : empty = false := by
      rw [hempty] at houtcome
      simpa using houtcome
    obtain ⟨m, hm⟩ := h.watched.loaded r p hp
    have hlt := hm.written ((h.watched.outcome_iff hp hempty).mpr hends)
    exact
      { watched := hwatched
        written := h.written.read hring rfl rfl rfl rfl rfl rfl (by simp) (by simp)
        dealt := h.dealt.take hr hdone hlt rfl rfl rfl rfl }
  · simp only [if_neg hfound] at hwatched ⊢
    exact h.probe hwatched hring rfl fun _ _ hk => hk

/-- A step of a reader. -/
theorem read (h : InTurn n σ T) (hn : 2 ≤ n) {a : ProbeStep ρ E} (hstep : σ.read a = some σ')
    (hends : σ.probed.EndsConsistent a) : ∃ T', InTurn n σ'.observe T' := by
  have hload : ∀ {a' : ProbeStep ρ E} {probed : ProbedQueue ρ E},
      σ.probed.act a' = some probed → σ.probed.EndsConsistent a' →
      σ.probed.lineAfter n T a' = T → probed.queue = σ.probed.queue →
      InTurn n ({ σ with probed := probed } : SharedQueue ω ρ E).observe T := by
    intro a' probed hact hends hline hqueue
    have hwatched := h.watched.step hn hact hends
    rw [hline] at hwatched
    exact h.probe hwatched ⟨_, by rw [hqueue]⟩ rfl fun _ _ hk => hk
  cases a with
  | add e => cases hstep
  | startAccess r =>
      obtain ⟨probed, hact, hstep⟩ := Option.bind_eq_some_iff.mp hstep
      obtain rfl := Option.some.inj hstep
      exact ⟨_, h.startAccess hn hact⟩
  | moveToFront r =>
      simp only [SharedQueue.read] at hstep
      split at hstep
      · cases hstep
      · rename_i hidle
        obtain ⟨probed, hact, hstep⟩ := Option.bind_eq_some_iff.mp hstep
        obtain rfl := Option.some.inj hstep
        exact ⟨_, h.moveToFront hn (by simpa using hidle) hact⟩
  | removeSlot r =>
      obtain ⟨probed, hact, hstep⟩ := Option.bind_eq_some_iff.mp hstep
      obtain rfl := Option.some.inj hstep
      have hwatched := h.watched.step hn hact trivial
      refine ⟨T, h.probe hwatched ?_ rfl ?_⟩
      · simp only [ProbedQueue.act] at hact
        split at hact
        · obtain rfl := Option.some.inj hact
          exact ⟨_, rfl⟩
        · cases hact
      · intro x k hk
        by_cases hxr : x = r
        · simp [hxr] at hk
        · have hk : Function.update σ.borrowed r none x = some k := hk
          rwa [Function.update_of_ne hxr] at hk
  | isEmpty r =>
      simp only [SharedQueue.read] at hstep
      split at hstep
      · cases hstep
      · obtain ⟨probed, hact, hstep⟩ := Option.bind_eq_some_iff.mp hstep
        obtain rfl := Option.some.inj hstep
        refine ⟨T, hload hact trivial rfl ?_⟩
        simp only [ProbedQueue.act] at hact
        split at hact
        · rw [← Option.some.inj hact]
          rfl
        · cases hact
  | loadWriteIndex r | loadWriteBase r | loadReaderBase r =>
      obtain ⟨probed, hact, hstep⟩ := Option.bind_eq_some_iff.mp hstep
      obtain rfl := Option.some.inj hstep
      refine ⟨T, hload hact trivial rfl ?_⟩
      obtain ⟨p, hp, hact⟩ := Option.bind_eq_some_iff.mp hact
      split at hact
      · rw [← Option.some.inj hact]
        rfl
      · cases hact
  | compare r =>
      obtain ⟨probed, hact, hstep⟩ := Option.bind_eq_some_iff.mp hstep
      obtain rfl := Option.some.inj hstep
      exact ⟨_, h.compare hn hact hends⟩

/-- A reader is handed its entry. -/
theorem take (h : InTurn n σ T) {r : ρ} (htaken : σ.taking r = true) :
    let index := (σ.probed.queue.readers r).index
    InTurn n
      ({ σ with
        taking := Function.update σ.taking r false
        borrowed := Function.update σ.borrowed r (some (σ.occupant index))
        handed := σ.handed ++ [(r, σ.occupant index, σ.cell index)] } :
        SharedQueue ω ρ E).observe T := by
  intro index
  obtain ⟨hr, hlt, -, -⟩ := h.dealt.taking r htaken
  have hlow := h.watched.sound.base_le hr
  have hindex : index = slot n 0 (T.ticket r) := h.watched.standing.index r hr
  have hnumber : σ.occupant index = T.ticket r := by
    rw [hindex]
    exact h.written.occupant _ hlow hlt
  have hget : T.accepted[T.ticket r]? = some T.accepted[T.ticket r] :=
    List.getElem?_eq_getElem hlt
  have hcell : σ.cell index = some T.accepted[T.ticket r] := by
    rw [hindex, h.cell_eq hlow hlt, hget]
  refine
    { watched := h.watched.setRing h.watched.sound h.watched.standing rfl rfl rfl rfl
        (Nat.le_refl _)
      written := h.written.read ⟨_, rfl⟩ rfl rfl rfl rfl rfl rfl rfl (Nat.le_refl _)
      dealt := h.dealt.hand htaken hget rfl rfl ?_ ?_ }
  · show σ.handed ++ [(r, σ.occupant index, σ.cell index)] = _
    rw [hnumber, hcell]
  · show Function.update σ.borrowed r (some (σ.occupant index)) = _
    rw [hnumber]

end Readers

/-- Any step whose emptiness test, if it ends one, had consistent loads. -/
theorem step [DecidableEq ω] (h : InTurn n σ T) (hn : 2 ≤ n) {a : SharedStep ω ρ E}
    (hact : σ.act a = some σ') (hends : σ.EndsConsistent a) : ∃ T', InTurn n σ'.observe T' := by
  cases a with
  | add w e => exact h.write (w := w) (a := .add w e) hact
  | isFull w => exact h.write (w := w) (a := .isFull w) hact
  | beginCopy w => exact h.write (w := w) (a := .beginCopy w) hact
  | endCopy w => exact h.write (w := w) (a := .endCopy w) hact
  | publish w => exact h.write (w := w) (a := .publish w) hact
  | leave w => exact h.write (w := w) (a := .leave w) hact
  | read a => exact h.read hn hact hends
  | take r =>
      simp only [act] at hact
      split at hact
      · rename_i htaken
        obtain rfl := Option.some.inj hact
        exact ⟨T, h.take htaken⟩
      · cases hact

end InTurn

/-- Every state of a schedule is one in turn. -/
theorem inTurn_of_reachable [DecidableEq ω] (hn : 2 ≤ n)
    {dataEntries : ProcessingQueueDataArray E} {syncWriter : Bool}
    (hsingle : syncWriter = true ∨ Subsingleton ω)
    (h : ((system ω ρ n dataEntries syncWriter).restrict EndsConsistent).Reachable σ) :
    ∃ T, InTurn n σ T := by
  refine h.invariant (I := fun σ => ∃ T, InTurn n σ T) ?_ ?_
  · rintro σ rfl
    exact ⟨_, .new (by omega) dataEntries hsingle⟩
  · rintro σ a σ' ⟨T, hT⟩ ⟨hstep, hends⟩
    obtain ⟨σ', hact, rfl⟩ := Option.map_eq_some_iff.mp hstep
    exact hT.step hn hact hends

/-- A reader waits for an entry, and its slot is unwritten. -/
def Waits (σ : SharedQueue ω ρ E) (r : ρ) : Prop :=
  (σ.probed.queue.readers r).isDone = false ∧ σ.probed.queue.slotIsEmpty r = true

/-- Entries are handed out in the order of their numbers, whole, and once. -/
structure HandedOut (n : Nat) (σ : SharedQueue ω ρ E) : Prop where
  /-- One writer at a time is in `add`. -/
  exclusive : ∀ w w', σ.writer w ≠ .outside → σ.writer w' ≠ .outside → w = w'
  /-- An `add` that returns a slot has put its entry there. -/
  returned : ∀ w e i, σ.writer w = .leaving e i → 0 ≤ i → (e, i) ∈ σ.accepted
  /-- Entry number `k` was put into slot `k` of the ring. -/
  accepted : ∀ k e i, σ.accepted[k]? = some (e, i) → i = ((k % n : Nat) : Int)
  /-- The `k`-th assignment is of the slot of entry number `k`. -/
  assigned : ∀ k r i, σ.assigned[k]? = some (r, i) → i = ((k % n : Nat) : Int)
  /-- Only the reader that was assigned number `k` is handed it, and it is whole. -/
  handed : ∀ r k x, (r, k, x) ∈ σ.handed → (∃ i, σ.assigned[k]? = some (r, i)) ∧
    ∃ e i, x = some e ∧ σ.accepted[k]? = some (e, i)
  once : σ.numbers.Nodup
  increasing : ∀ r, (σ.numbersOf r).Pairwise (· < ·)
  /-- The slot of the entry a reader works on still holds it. -/
  borrowed : ∀ r k, σ.borrowed r = some k → ∃ e i, σ.accepted[k]? = some (e, i) ∧
    (σ.probed.queue.readers r).index = i ∧ σ.cell i = some e
  /-- When all readers wait for an entry, every entry was handed out. -/
  rest : (∃ r, (σ.probed.queue.readers r).inQueue = true) →
    (∀ r, (σ.probed.queue.readers r).inQueue = true → σ.Waits r) →
    ∀ k < σ.accepted.length, k ∈ σ.numbers

/-- When all readers wait, all numbers written were handed out. -/
theorem InTurn.rest (h : InTurn n σ T) {r : ρ} (hr : r ∈ T.line)
    (hwaits : ∀ x ∈ T.line, σ.Waits x) {k : Nat} (hk : k < T.written) : k ∈ σ.numbers := by
  have hT := h.watched.sound
  have hdone : ∀ x ∈ T.line, T.isDone x = false := by
    intro x hx
    rw [h.watched.isDone x hx, (hwaits x hx).1, Bool.false_and]
  have hbehind : ∀ x ∈ T.line, T.written ≤ T.ticket x := by
    intro x hx
    have hempty := h.watched.standing.slotIsEmpty_eq hT hx
    rw [(hwaits x hx).2] at hempty
    exact of_decide_eq_true hempty.symm
  have hnext := hT.lt_next hr
  have hfront := hbehind r hr
  rcases hT.held k (by omega) with hreturned | ⟨x, hx, hxk, -⟩
  · rcases h.dealt.all k hreturned with hgiven | ⟨x, htaken, -⟩
    · exact hgiven
    · obtain ⟨hx, -, htrue, -⟩ := h.dealt.taking x htaken
      rw [hdone x hx] at htrue
      cases htrue
  · have hlate := hbehind x hx
    omega

/-- What a shared queue hands out: in any schedule of writers and readers whose
emptiness tests load consistently, entries are handed out in the order of their
numbers, each one whole and to one reader, and when all readers wait none is left. -/
theorem handed_out [DecidableEq ω] (hn : 2 ≤ n) (dataEntries : ProcessingQueueDataArray E)
    {syncWriter : Bool} (hsingle : syncWriter = true ∨ Subsingleton ω)
    (h : ((system ω ρ n dataEntries syncWriter).restrict EndsConsistent).Reachable σ) :
    HandedOut n σ := by
  obtain ⟨T, hT⟩ := inTurn_of_reachable hn hsingle h
  have hget : ∀ {k : Nat} {e : E}, T.accepted[k]? = some e →
      σ.accepted[k]? = some (e, slot n 0 k) := by
    intro k e he
    simp [hT.written.accepted, List.getElem?_mapIdx, he]
  have hmem := fun r => hT.watched.standing.mem_iff (r := r)
  refine
    { exclusive := hT.written.alone
      returned := ?_
      accepted := ?_
      assigned := ?_
      handed := ?_
      once := hT.dealt.once
      increasing := hT.dealt.increasing
      borrowed := ?_
      rest := ?_ }
  · intro w e i hw
    have hfound := hT.written.found w
    rwa [hw] at hfound
  · intro k e i hk
    rw [hT.written.accepted, List.getElem?_mapIdx] at hk
    obtain ⟨e', -, he'⟩ := Option.map_eq_some_iff.mp hk
    rw [← (Prod.mk.inj he').2, slot_zero_offset]
  · intro k r i hk
    rw [hT.dealt.slots k r i hk, slot_zero_offset]
  · intro r k x hx
    obtain ⟨-, hi, -, -, e, he, hk⟩ := hT.dealt.gave r k x hx
    exact ⟨hi, e, _, he, hget hk⟩
  · intro r k hk
    obtain ⟨hr, rfl, hlt⟩ := hT.dealt.borrowed r k hk
    have hk : T.accepted[T.ticket r]? = some T.accepted[T.ticket r] :=
      List.getElem?_eq_getElem hlt
    refine ⟨_, _, hget hk, hT.watched.standing.index r hr, ?_⟩
    rw [hT.cell_eq (hT.watched.sound.base_le hr) hlt, hk]
  · rintro ⟨r, hr⟩ hwaits k hk
    refine hT.rest ((hmem r).mp hr) (fun x hx => hwaits x ((hmem x).mpr hx)) ?_
    simpa [hT.written.accepted, Tickets.written] using hk

/-- Two writers and two readers: reader 0 looks while the first entry is copied, and
again while the second is; reader 1 is handed the second entry before reader 0 the
first. -/
theorem handed_out_two_writers :
    ∃ σ : SharedQueue (Fin 2) (Fin 2) Nat,
      σ.handed = [(1, 1, some 11), (0, 0, some 10)] ∧ HandedOut 4 σ := by
  let steps : List (SharedStep (Fin 2) (Fin 2) Nat) :=
    [.read (.startAccess 0), .add 0 10, .isFull 0, .read (.startAccess 1), .beginCopy 0,
      .read (.removeSlot 0), .endCopy 0, .read (.loadWriteIndex 0), .publish 0,
      .read (.loadWriteBase 0), .leave 0, .read (.loadReaderBase 0), .read (.compare 0),
      .add 1 11, .isFull 1, .beginCopy 1, .read (.removeSlot 0)] ++ loads 0 ++
    [.read (.removeSlot 1), .endCopy 1, .publish 1] ++ loads 1 ++ [.take 1, .take 0, .leave 1]
  have hend : (System.follow next EndsConsistent
      (.new (Fin 2) (Fin 2) 4 (.uniform Nat 8) true) steps).map SharedQueue.handed =
        some [(1, 1, some 11), (0, 0, some 10)] := by rfl
  obtain ⟨σ, hfollow, hhanded⟩ := Option.map_eq_some_iff.mp hend
  exact ⟨σ, hhanded, handed_out (by decide) _ (.inl rfl)
    (System.reachable_follow steps (System.Reachable.start rfl) hfollow)⟩

end SharedQueue

end HPQueue
