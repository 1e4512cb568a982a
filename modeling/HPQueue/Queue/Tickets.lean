import Mathlib.Data.List.Nodup
import Mathlib.Data.List.Basic
import Mathlib.Tactic.Tauto

/-!
# Tickets: what a multiple reader queue is for

The purpose of a `SyncQueue`, without its ring and its pointers.  Entries are
numbered as they are accepted; a reader draws a ticket, the number of the one
entry it may take, and draws again when it has taken it.  The readers stand in a
line, ordered by their tickets.  All numbers below `base` have been taken, and
`capacity` limits how far entries and tickets may run ahead of it; it follows
the back of the line whenever the back moves.

A reader that finds the line as long as the ring may not draw.  It joins, or
moves, to the place before the front, with a ticket that is not its own
(`share`), and counts as done with it.

`Sound` is the invariant of the line.  Its heart is `held`: every number that has
been drawn was taken or is held, unread, by exactly one reader.

## Main results

* `Sound.write`, `Sound.draw`, `Sound.share`, `Sound.take` — the operations keep
  the line sound.
* `Sound.base_le_written` — the line never runs ahead of the entries.
-/

namespace HPQueue

/-- A line of readers with their tickets. -/
structure Tickets (ρ E : Type) where
  /-- The registered readers, from the back to the front. -/
  line : List ρ
  ticket : ρ → Nat
  isDone : ρ → Bool
  base : Nat
  /-- The entries accepted so far. -/
  accepted : List E
  /-- The numbers of the entries taken so far, in order. -/
  returned : List Nat

namespace Tickets

variable {ρ E : Type}

def new (ρ E : Type) : Tickets ρ E where
  line := []
  ticket := fun _ => 0
  isDone := fun _ => false
  base := 0
  accepted := []
  returned := []

/-- The number of the next entry. -/
def written (T : Tickets ρ E) : Nat := T.accepted.length

/-- The next ticket to draw. -/
def next (T : Tickets ρ E) : Nat :=
  match T.line.getLast? with
  | none => T.base
  | some f => T.ticket f + 1

/-- The ticket at the back of the line. -/
def backTicket (T : Tickets ρ E) : Nat :=
  match T.line.head? with
  | none => T.base
  | some b => T.ticket b

/-- The line is as long as the ring: no ticket may be drawn. -/
def Spans (T : Tickets ρ E) (capacity : Nat) : Prop := T.next = T.backTicket + capacity

instance (T : Tickets ρ E) (capacity : Nat) : Decidable (T.Spans capacity) :=
  inferInstanceAs (Decidable (_ = _))

/-- An entry is accepted. -/
def write (T : Tickets ρ E) (entry : E) : Tickets ρ E :=
  { T with accepted := T.accepted ++ [entry] }

variable [DecidableEq ρ]

/-- The reader is put in its place in the line `l`, with the ticket `t`.  The base
follows when the reader was the back. -/
def place (T : Tickets ρ E) (r : ρ) (l : List ρ) (t : Nat) (done : Bool) : Tickets ρ E :=
  { T with
    line := l
    ticket := Function.update T.ticket r t
    isDone := Function.update T.isDone r done
    base :=
      if T.line.head? = some r then
        match l.head? with
        | none => T.base
        | some b => Function.update T.ticket r t b
      else T.base }

/-- The reader goes to the front, with the next ticket. -/
def draw (T : Tickets ρ E) (r : ρ) : Tickets ρ E :=
  T.place r (T.line.erase r ++ [r]) T.next false

/-- The reader goes to the place before the front and shares the ticket of the
reader it finds there. -/
def share (T : Tickets ρ E) (r : ρ) : Tickets ρ E :=
  let others := T.line.erase r
  T.place r (others.dropLast ++ r :: others.getLast?.toList)
    (match others.dropLast.getLast? with
      | none => T.ticket r
      | some g => T.ticket g) true

/-- The reader takes the entry its ticket names, if it is there. -/
def take (T : Tickets ρ E) (r : ρ) : Tickets ρ E :=
  if T.ticket r < T.written then
    { T with
      isDone := Function.update T.isDone r true
      returned := T.returned ++ [T.ticket r] }
  else T

/-- A reader joins the line. -/
def join (T : Tickets ρ E) (capacity : Nat) (r : ρ) : Tickets ρ E :=
  if T.Spans capacity then T.share r else T.draw r

/-- A reader asks for its next entry. -/
def ask (T : Tickets ρ E) (capacity : Nat) (r : ρ) : Tickets ρ E :=
  if T.isDone r = false then T.take r
  else if T.Spans capacity then if T.line.head? = some r then T.share r else T
  else (T.draw r).take r

/-- What a reader that asks is given. -/
def answer (T : Tickets ρ E) (capacity : Nat) (r : ρ) : Option E :=
  if T.isDone r = false then T.accepted[T.ticket r]?
  else if T.Spans capacity then none
  else T.accepted[T.next]?

/-- The base is the ticket at the back. -/
def Tight (T : Tickets ρ E) : Prop := T.backTicket = T.base

/-- A draw of `r` will not come round to the base: either the base follows `r`,
or it is the ticket at the back, which the spanning check looks at. -/
def Level (T : Tickets ρ E) (capacity : Nat) (r : ρ) : Prop :=
  T.line.head? = some r ∨ (T.next = T.base + capacity → T.Tight)

/-- The line is in order, and every number is accounted for. -/
structure Sound (capacity : Nat) (T : Tickets ρ E) : Prop where
  nodup : T.line.Nodup
  sorted : T.line.Pairwise fun a b => T.ticket a ≤ T.ticket b
  head : T.base ≤ T.backTicket
  lap : ∀ r ∈ T.line, T.ticket r < T.base + capacity
  within : T.written < T.base + capacity
  held : ∀ k < T.next, k ∈ T.returned ∨ ∃ r ∈ T.line, T.ticket r = k ∧ T.isDone r = false
  taken : ∀ k ∈ T.returned, k < T.written ∧ k < T.next
  fresh : ∀ r ∈ T.line, T.isDone r = false → T.ticket r ∉ T.returned
  unshared : ∀ r ∈ T.line, ∀ x ∈ T.line, T.isDone r = false → T.isDone x = false →
    T.ticket r = T.ticket x → r = x
  once : T.returned.Nodup

section Reads

variable {ρ E : Type}

@[simp] theorem written_write (T : Tickets ρ E) (entry : E) :
    (T.write entry).written = T.written + 1 := by simp [written, write]

@[simp] theorem next_write (T : Tickets ρ E) (entry : E) :
    (T.write entry).next = T.next := rfl

variable [DecidableEq ρ] (T : Tickets ρ E) (r : ρ) (l : List ρ) (t : Nat) (done : Bool)

@[simp] theorem place_line : (T.place r l t done).line = l := rfl

@[simp] theorem place_ticket :
    (T.place r l t done).ticket = Function.update T.ticket r t := rfl

@[simp] theorem place_isDone :
    (T.place r l t done).isDone = Function.update T.isDone r done := rfl

@[simp] theorem place_accepted : (T.place r l t done).accepted = T.accepted := rfl

@[simp] theorem place_returned : (T.place r l t done).returned = T.returned := rfl

@[simp] theorem place_written : (T.place r l t done).written = T.written := rfl

variable {T r l t done}

theorem place_base_of_back (hback : T.line.head? = some r) {b : ρ} (hb : l.head? = some b) :
    (T.place r l t done).base = Function.update T.ticket r t b := by
  simp [place, hback, hb]

theorem place_base_of_ne (hback : T.line.head? ≠ some r) :
    (T.place r l t done).base = T.base := by
  simp [place, hback]

omit [DecidableEq ρ] in
theorem backTicket_eq {b : ρ} (hb : T.line.head? = some b) : T.backTicket = T.ticket b := by
  simp [backTicket, hb]

omit [DecidableEq ρ] in
theorem backTicket_nil (h : T.line = []) : T.backTicket = T.base := by simp [backTicket, h]

omit [DecidableEq ρ] in
theorem Tight.back_eq (h : T.Tight) {b : ρ} (hb : T.line.head? = some b) :
    T.ticket b = T.base := by rw [← backTicket_eq hb, h]

omit [DecidableEq ρ] in
theorem Tight.level (h : T.Tight) (capacity : Nat) (r : ρ) : T.Level capacity r :=
  .inr fun _ => h

omit [DecidableEq ρ] in
theorem next_eq {T : Tickets ρ E} {f : ρ} (hf : T.line.getLast? = some f) :
    T.next = T.ticket f + 1 := by simp [next, hf]

omit [DecidableEq ρ] in
theorem next_nil {T : Tickets ρ E} (h : T.line = []) : T.next = T.base := by simp [next, h]

end Reads

/-- A line as long as the ring has a front and a reader before it. -/
theorem Spans.split {ρ E : Type} {capacity : Nat} {T : Tickets ρ E}
    (hspans : T.Spans capacity) (hcap : 2 ≤ capacity) : ∃ m g f, T.line = m ++ [g, f] := by
  rcases List.eq_nil_or_concat' T.line with hl | ⟨m, f, hl⟩
  · have hnext := next_nil hl
    have hback := backTicket_nil hl
    unfold Spans at hspans
    omega
  · rcases List.eq_nil_or_concat' m with rfl | ⟨m, g, rfl⟩
    · have hback := backTicket_eq (T := T) (b := f) (by simp [hl])
      have hnext := next_eq (T := T) (f := f) (by simp [hl])
      unfold Spans at hspans
      omega
    · exact ⟨m, g, f, by simp [hl]⟩

namespace Sound

variable {ρ E : Type} {capacity : Nat} {T : Tickets ρ E}

theorem le_front (h : T.Sound capacity) {f x : ρ} (hf : T.line.getLast? = some f)
    (hx : x ∈ T.line) : T.ticket x ≤ T.ticket f := by
  obtain ⟨m, hm⟩ := List.getLast?_eq_some_iff.mp hf
  have hsorted := h.sorted
  rw [hm] at hsorted hx
  rcases List.mem_append.mp hx with hx | hx
  · exact (List.pairwise_append.mp hsorted).2.2 x hx f (by simp)
  · simp [List.mem_singleton.mp hx]

/-- The back's ticket is the least of the line. -/
theorem backTicket_le (h : T.Sound capacity) {x : ρ} (hx : x ∈ T.line) :
    T.backTicket ≤ T.ticket x := by
  cases hl : T.line with
  | nil => simp [hl] at hx
  | cons b m =>
      have hsorted := h.sorted
      rw [backTicket_eq (b := b) (by simp [hl])]
      rw [hl] at hsorted hx
      rcases List.mem_cons.mp hx with rfl | hx
      · exact Nat.le_refl _
      · exact (List.pairwise_cons.mp hsorted).1 x hx

theorem base_le (h : T.Sound capacity) {x : ρ} (hx : x ∈ T.line) : T.base ≤ T.ticket x :=
  Nat.le_trans h.head (h.backTicket_le hx)

theorem lt_next (h : T.Sound capacity) {x : ρ} (hx : x ∈ T.line) :
    T.ticket x < T.next := by
  obtain ⟨f, hf⟩ : ∃ f, T.line.getLast? = some f :=
    Option.ne_none_iff_exists'.mp (by simpa using List.ne_nil_of_mem hx)
  have hxf := h.le_front hf hx
  rw [next_eq hf]
  omega

theorem base_le_next (h : T.Sound capacity) : T.base ≤ T.next := by
  cases hl : T.line with
  | nil => simp [next_nil hl]
  | cons b m =>
      have hb : b ∈ T.line := by simp [hl]
      have hlow := h.base_le hb
      have hlt := h.lt_next hb
      omega

/-- The line never runs ahead of the entries: the number `written`, once drawn,
is held by a reader that has not taken it. -/
theorem base_le_written (h : T.Sound capacity) : T.base ≤ T.written := by
  by_contra hlt
  rw [Nat.not_le] at hlt
  rcases h.held T.written (by have := h.base_le_next; omega) with hret | ⟨x, hx, htx, -⟩
  · exact absurd (h.taken _ hret).1 (by omega)
  · have hbx := h.base_le hx
    omega

/-- A reader that is done with the ticket at the back leaves room behind it. -/
theorem returned_of_lt_base (h : T.Sound capacity) {k : Nat} (hk : k < T.base) :
    k ∈ T.returned := by
  rcases h.held k (by have := h.base_le_next; omega) with hret | ⟨x, hx, htx, -⟩
  · exact hret
  · have hbx := h.base_le hx
    omega

theorem next_le (h : T.Sound capacity) :
    T.next ≤ T.base + capacity := by
  cases hf : T.line.getLast? with
  | none => simp [next_nil (List.getLast?_eq_none_iff.mp hf)]
  | some f =>
      have hlap := h.lap f (List.mem_of_getLast? hf)
      rw [next_eq hf]
      omega

/-- A line as long as the ring reaches back to the base. -/
theorem tight_of_spans (h : T.Sound capacity) (hspans : T.Spans capacity) : T.Tight := by
  have hnext := h.next_le
  have hhead := h.head
  unfold Spans at hspans
  unfold Tight
  omega

theorem next_of_spans (h : T.Sound capacity) (hspans : T.Spans capacity) :
    T.next = T.base + capacity := by
  have htight := h.tight_of_spans hspans
  unfold Spans at hspans
  unfold Tight at htight
  omega

theorem write (h : T.Sound capacity) (entry : E) (hroom : T.written + 1 < T.base + capacity) :
    (T.write entry).Sound capacity where
  nodup := h.nodup
  sorted := h.sorted
  head := h.head
  lap := h.lap
  within := by
    rw [written_write]
    exact hroom
  held := h.held
  taken k hk := by
    have hk' := h.taken k hk
    simp only [written_write, next_write]
    omega
  fresh := h.fresh
  unshared := h.unshared
  once := h.once

theorem take [DecidableEq ρ] (h : T.Sound capacity) {r : ρ} (hr : r ∈ T.line)
    (hdone : T.isDone r = false) : (T.take r).Sound capacity := by
  unfold Tickets.take
  split
  · rename_i hlt
    refine
      { nodup := h.nodup
        sorted := h.sorted
        head := h.head
        lap := h.lap
        within := h.within
        held := ?_
        taken := ?_
        fresh := ?_
        unshared := ?_
        once := ?_ }
    · intro k hk
      rcases h.held k hk with hret | ⟨x, hx, htx, hxd⟩
      · exact .inl (by simp [hret])
      · by_cases hxr : x = r
        · exact .inl (by simp [← htx, hxr])
        · exact .inr ⟨x, hx, htx, by simpa [hxr] using hxd⟩
    · intro k hk
      rcases List.mem_append.mp hk with hk | hk
      · exact h.taken k hk
      · rw [List.mem_singleton.mp hk]
        exact ⟨hlt, h.lt_next hr⟩
    · intro x hx hxd hmem
      have hxr : x ≠ r := by
        rintro rfl
        simp at hxd
      have hxd : T.isDone x = false := by simpa [hxr] using hxd
      rcases List.mem_append.mp hmem with hmem | hmem
      · exact h.fresh x hx hxd hmem
      · exact hxr (h.unshared x hx r hr hxd hdone (List.mem_singleton.mp hmem))
    · intro x hx y hy hxd hyd heq
      have hxr : x ≠ r := by
        rintro rfl
        simp at hxd
      have hyr : y ≠ r := by
        rintro rfl
        simp at hyd
      exact h.unshared x hx y hy (by simpa [hxr] using hxd) (by simpa [hyr] using hyd) heq
    · rw [List.nodup_append]
      refine ⟨h.once, by simp, ?_⟩
      intro k hk j hj he
      rw [List.mem_singleton.mp hj] at he
      exact h.fresh r hr hdone (he ▸ hk)
  · exact h

/-- The base only rises. -/
theorem base_le_place [DecidableEq ρ] (h : T.Sound capacity) {r : ρ} {l : List ρ} {t : Nat}
    {done : Bool} (hmem : ∀ x ∈ l, x ≠ r → x ∈ T.line) (hlow : T.base ≤ t) :
    T.base ≤ (T.place r l t done).base := by
  by_cases hback : T.line.head? = some r
  · cases hb : l.head? with
    | none => simp [Tickets.place, hb]
    | some b =>
        rw [place_base_of_back hback hb]
        by_cases hbr : b = r
        · simpa [hbr] using hlow
        · simpa [hbr] using h.base_le (hmem b (List.mem_of_mem_head? hb) hbr)
  · exact Nat.le_of_eq (place_base_of_ne hback).symm

/-- A reader that holds nothing unread is put elsewhere in the line, with another
ticket: the next one, unread, or one it shares and is done with. -/
theorem place [DecidableEq ρ] (h : T.Sound capacity) {r : ρ} {l : List ρ} {t : Nat}
    {done : Bool} (hr : r ∈ T.line → T.isDone r = true)
    (hperm : l.Perm (r :: T.line.erase r))
    (hsorted : l.Pairwise fun a b =>
      Function.update T.ticket r t a ≤ Function.update T.ticket r t b)
    (hlow : T.base ≤ t) (hlap : t < (T.place r l t done).base + capacity)
    (hfresh : done = false → T.next ≤ t)
    (hnext : T.next ≤ (T.place r l t done).next)
    (hheld : ∀ k, T.next ≤ k → k < (T.place r l t done).next → done = false ∧ t = k) :
    (T.place r l t done).Sound capacity := by
  have hmem : ∀ x, x ∈ l ↔ x = r ∨ x ∈ T.line := by
    intro x
    rw [hperm.mem_iff, List.mem_cons, h.nodup.mem_erase_iff]
    tauto
  have hold : ∀ x ∈ l, Function.update T.isDone r done x = false → x ≠ r →
      x ∈ T.line ∧ T.isDone x = false := by
    intro x hx hd hxr
    exact ⟨((hmem x).mp hx).resolve_left hxr, by simpa [hxr] using hd⟩
  have hmono : T.base ≤ (T.place r l t done).base :=
    h.base_le_place (fun x hx hxr => ((hmem x).mp hx).resolve_left hxr) hlow
  refine
    { nodup := ?_
      sorted := by simpa using hsorted
      head := ?_
      lap := ?_
      within := ?_
      held := ?_
      taken := ?_
      fresh := ?_
      unshared := ?_
      once := by simpa using h.once }
  · rw [place_line]
    exact hperm.nodup_iff.mpr (List.nodup_cons.mpr ⟨h.nodup.not_mem_erase, h.nodup.erase r⟩)
  · obtain ⟨b, hb⟩ : ∃ b, l.head? = some b :=
      Option.ne_none_iff_exists'.mp (by
        simpa using List.ne_nil_of_mem ((hmem r).mpr (.inl rfl)))
    rw [backTicket_eq (b := b) (by simpa using hb), place_ticket]
    by_cases hback : T.line.head? = some r
    · exact Nat.le_of_eq (place_base_of_back hback hb)
    · rw [place_base_of_ne hback]
      by_cases hbr : b = r
      · simpa [hbr] using hlow
      · rw [Function.update_of_ne hbr]
        exact h.base_le (((hmem b).mp (List.mem_of_mem_head? hb)).resolve_left hbr)
  · intro x hx
    rw [place_ticket]
    by_cases hxr : x = r
    · rwa [hxr, Function.update_self]
    · have hxl := ((hmem x).mp (by simpa using hx)).resolve_left hxr
      have hlapx := h.lap x hxl
      rw [Function.update_of_ne hxr]
      omega
  · have hwithin := h.within
    rw [place_written]
    omega
  · intro k hk
    simp only [place_returned, place_line, place_ticket, place_isDone]
    rcases Nat.lt_or_ge k T.next with hlt | hge
    · rcases h.held k hlt with hret | ⟨x, hx, htx, hxd⟩
      · exact .inl hret
      · have hxr : x ≠ r := by
          rintro rfl
          simp [hr hx] at hxd
        exact .inr ⟨x, (hmem x).mpr (.inr hx), by simpa [hxr] using htx,
          by simpa [hxr] using hxd⟩
    · obtain ⟨hd, ht⟩ := hheld k hge hk
      exact .inr ⟨r, (hmem r).mpr (.inl rfl), by simpa using ht, by simpa using hd⟩
  · intro k hk
    have hk' := h.taken k (by simpa using hk)
    rw [place_written]
    omega
  · intro x hx hxd hmemx
    simp only [place_line, place_isDone, place_ticket, place_returned] at hx hxd hmemx
    by_cases hxr : x = r
    · subst hxr
      simp only [Function.update_self] at hxd hmemx
      have htaken := (h.taken t hmemx).2
      have hfresh := hfresh hxd
      omega
    · obtain ⟨hxl, hxd⟩ := hold x hx hxd hxr
      rw [Function.update_of_ne hxr] at hmemx
      exact h.fresh x hxl hxd hmemx
  · -- the next ticket is above every ticket of the line
    have hclash : ∀ y ∈ l, y ≠ r → done = false → Function.update T.isDone r done y = false →
        t ≠ T.ticket y := by
      intro y hy hyr hd hyd
      have hlt := h.lt_next (hold y hy hyd hyr).1
      have hfresh := hfresh hd
      omega
    intro x hx y hy hxd hyd heq
    simp only [place_line, place_isDone, place_ticket] at hx hy hxd hyd heq
    by_cases hxr : x = r
    · by_cases hyr : y = r
      · rw [hxr, hyr]
      · rw [hxr, Function.update_self, Function.update_of_ne hyr] at heq
        exact absurd heq (hclash y hy hyr (by simpa [hxr] using hxd) hyd)
    · by_cases hyr : y = r
      · rw [hyr, Function.update_self, Function.update_of_ne hxr] at heq
        exact absurd heq.symm (hclash x hx hxr (by simpa [hyr] using hyd) hxd)
      · obtain ⟨hxl, hxd⟩ := hold x hx hxd hxr
        obtain ⟨hyl, hyd⟩ := hold y hy hyd hyr
        rw [Function.update_of_ne hxr, Function.update_of_ne hyr] at heq
        exact h.unshared x hxl y hyl hxd hyd heq

theorem mem_erase_iff [DecidableEq ρ] (h : T.Sound capacity) {r x : ρ} :
    x ∈ T.line.erase r ↔ x ≠ r ∧ x ∈ T.line := h.nodup.mem_erase_iff

theorem draw_next [DecidableEq ρ] (T : Tickets ρ E) (r : ρ) :
    (T.draw r).next = T.next + 1 := by
  have hf : (T.draw r).line.getLast? = some r := by simp [Tickets.draw]
  rw [next_eq hf]
  simp [Tickets.draw]

theorem base_le_draw [DecidableEq ρ] (h : T.Sound capacity) {r : ρ} :
    T.base ≤ (T.draw r).base := by
  refine h.base_le_place ?_ h.base_le_next
  intro x hx hxr
  simp only [List.mem_append, List.mem_singleton] at hx
  exact List.mem_of_mem_erase (hx.resolve_right hxr)

/-- A draw does not come round to the base. -/
theorem next_lt_draw [DecidableEq ρ] (h : T.Sound capacity) {r : ρ}
    (hspans : ¬ T.Spans capacity) (hlevel : T.Level capacity r) :
    T.next < (T.draw r).base + capacity := by
  have hhigh := h.next_le
  have hhead := h.head
  unfold Spans at hspans
  by_cases hback : T.line.head? = some r
  · have hbase : T.backTicket ≤ (T.draw r).base := by
      have hrl := List.mem_of_mem_head? hback
      obtain ⟨b, hb⟩ : ∃ b, (T.line.erase r ++ [r]).head? = some b :=
        Option.ne_none_iff_exists'.mp (by simp)
      rw [Tickets.draw, place_base_of_back hback hb]
      by_cases hbr : b = r
      · have hlt := h.lt_next hrl
        rw [backTicket_eq hback, hbr, Function.update_self]
        omega
      · have hbl := List.mem_of_mem_head? hb
        simp only [List.mem_append, List.mem_singleton] at hbl
        rw [Function.update_of_ne hbr]
        exact h.backTicket_le (List.mem_of_mem_erase (hbl.resolve_right hbr))
    omega
  · have hbase : (T.draw r).base = T.base := place_base_of_ne hback
    have htight := hlevel.resolve_left hback
    unfold Tight at htight
    omega

theorem draw [DecidableEq ρ] (h : T.Sound capacity) {r : ρ}
    (hr : r ∈ T.line → T.isDone r = true) (hspans : ¬ T.Spans capacity)
    (hlevel : T.Level capacity r) : (T.draw r).Sound capacity := by
  have hnext := draw_next T r
  refine h.place hr (List.perm_append_singleton r _) ?_ h.base_le_next
    (h.next_lt_draw hspans hlevel) (fun _ => Nat.le_refl _) ?_ ?_
  · have hothers : ∀ x ∈ T.line.erase r, x ≠ r ∧ x ∈ T.line := fun x hx =>
      h.mem_erase_iff.mp hx
    refine List.pairwise_append.mpr ⟨?_, List.pairwise_singleton _ _, ?_⟩
    · refine (h.sorted.sublist List.erase_sublist).imp_of_mem ?_
      intro x y hx hy hxy
      rwa [Function.update_of_ne (hothers x hx).1, Function.update_of_ne (hothers y hy).1]
    · intro x hx y hy
      obtain rfl : y = r := by simpa using hy
      have hlt := h.lt_next (hothers x hx).2
      rw [Function.update_of_ne (hothers x hx).1, Function.update_self]
      omega
  · rw [← Tickets.draw, hnext]
    omega
  · intro k hk hk'
    rw [← Tickets.draw, hnext] at hk'
    exact ⟨rfl, by omega⟩

/-- A reader that is done is put before the front, with a ticket in between. -/
theorem place_before_front [DecidableEq ρ] (h : T.Sound capacity) {m : List ρ} {r f : ρ}
    {t : Nat} (hr : r ∈ T.line → T.isDone r = true) (hothers : T.line.erase r = m ++ [f])
    (hfront : T.line.getLast? = some f) (hbase : T.base ≤ t)
    (hbelow : ∀ x ∈ m, T.ticket x ≤ t) (habove : t ≤ T.ticket f) :
    (T.place r (m ++ [r, f]) t true).Sound capacity := by
  have hmem : ∀ x, x ∈ m ∨ x = f ↔ x ≠ r ∧ x ∈ T.line := by
    intro x
    rw [← h.mem_erase_iff, hothers]
    simp
  have hfl := (hmem f).mp (.inr rfl)
  have hlap := h.lap f hfl.2
  have hmono : T.base ≤ (T.place r (m ++ [r, f]) t true).base := h.base_le_place (by
    intro x hx hxr
    refine ((hmem x).mp ?_).2
    simp only [List.mem_append, List.mem_cons, List.not_mem_nil, or_false] at hx
    tauto) hbase
  have hnext : (T.place r (m ++ [r, f]) t true).next = T.next := by
    rw [next_eq hfront, next_eq (f := f) (by simp), place_ticket, Function.update_of_ne hfl.1]
  refine h.place hr ?_ ?_ hbase (by omega) (by simp) (by omega) ?_
  · rw [hothers]
    exact List.perm_middle
  · have hsorted : (m ++ [f]).Pairwise fun a b => T.ticket a ≤ T.ticket b := by
      rw [← hothers]
      exact h.sorted.sublist List.erase_sublist
    have hm := List.pairwise_append.mp hsorted
    have hne : ∀ x ∈ m, x ≠ r := fun x hx => ((hmem x).mp (.inl hx)).1
    refine List.pairwise_append.mpr ⟨?_, ?_, ?_⟩
    · refine hm.1.imp_of_mem ?_
      intro x y hx hy hxy
      rwa [Function.update_of_ne (hne x hx), Function.update_of_ne (hne y hy)]
    · simpa [hfl.1] using habove
    · intro x hx y hy
      rw [Function.update_of_ne (hne x hx)]
      rcases List.mem_cons.mp hy with rfl | hy
      · rw [Function.update_self]
        exact hbelow x hx
      · obtain rfl : y = f := by simpa using hy
        rw [Function.update_of_ne hfl.1]
        exact hm.2.2 x hx y (by simp)
  · intro k hk hk'
    omega

end Sound

/-- The reader joins a line of at least two, or leaves its back for the place
before the front. -/
theorem share_eq {T : Tickets ρ E} {m : List ρ} {r g f : ρ}
    (hothers : T.line.erase r = m ++ [g, f]) :
    T.share r = T.place r (m ++ [g, r, f]) (T.ticket g) true := by
  have hdrop : (m ++ [g, f]).dropLast = m ++ [g] := by
    rw [show m ++ [g, f] = (m ++ [g]) ++ [f] by simp, List.dropLast_concat]
  simp [share, hothers, hdrop]

/-- The back of a line of two stays where it is. -/
theorem share_pair {T : Tickets ρ E} {r f : ρ} (hl : T.line = [r, f]) :
    T.share r = T.place r [r, f] (T.ticket r) true := by simp [share, hl]

namespace Sound

variable {ρ E : Type} [DecidableEq ρ] {capacity : Nat} {T : Tickets ρ E}

theorem share_of_others (h : T.Sound capacity) {m : List ρ} {r g f : ρ}
    (hr : r ∈ T.line → T.isDone r = true) (hothers : T.line.erase r = m ++ [g, f])
    (hfront : T.line.getLast? = some f) : (T.share r).Sound capacity := by
  have hmem : ∀ x ∈ m ++ [g, f], x ∈ T.line := by
    intro x hx
    rw [← hothers] at hx
    exact (h.mem_erase_iff.mp hx).2
  have hsorted : (m ++ [g, f]).Pairwise fun a b => T.ticket a ≤ T.ticket b := by
    rw [← hothers]
    exact h.sorted.sublist List.erase_sublist
  have hsplit : m ++ [g, f] = (m ++ [g]) ++ [f] := by simp
  rw [share_eq hothers, show m ++ [g, r, f] = (m ++ [g]) ++ [r, f] by simp]
  refine h.place_before_front hr (by rw [hothers, hsplit]) hfront
    (h.base_le (hmem g (by simp))) ?_ (h.le_front hfront (hmem g (by simp)))
  intro x hx
  rcases List.mem_append.mp hx with hx | hx
  · exact (List.pairwise_append.mp hsorted).2.2 x hx g (by simp)
  · simp [List.mem_singleton.mp hx]

/-- Joining a line that spans the ring. -/
theorem share_joining (h : T.Sound capacity) (hcap : 2 ≤ capacity) {r : ρ}
    (hr : r ∉ T.line) (hspans : T.Spans capacity) : (T.share r).Sound capacity := by
  obtain ⟨m, g, f, hl⟩ := hspans.split hcap
  exact h.share_of_others (fun hm => absurd hm hr)
    (by rw [List.erase_of_not_mem hr, hl]) (by simp [hl])

/-- The back moves before the front of a line that spans the ring. -/
theorem share_back (h : T.Sound capacity) (hcap : 2 ≤ capacity) {r : ρ}
    (hback : T.line.head? = some r) (hdone : T.isDone r = true) (hspans : T.Spans capacity) :
    (T.share r).Sound capacity := by
  obtain ⟨m, g, f, hl⟩ := hspans.split hcap
  rcases m with _ | ⟨b, m⟩
  · obtain rfl : g = r := by simpa [hl] using hback
    have hbase := h.base_le (x := g) (by simp [hl])
    have hlast : T.line.getLast? = some f := by simp [hl]
    rw [share_pair hl]
    exact h.place_before_front (m := []) (fun _ => hdone) (by simp [hl]) hlast hbase (by simp)
      (h.le_front hlast (by simp [hl]))
  · obtain rfl : b = r := by simpa [hl] using hback
    exact h.share_of_others (m := m) (g := g) (f := f) (fun _ => hdone) (by simp [hl])
      (by simp [hl, List.getLast?_cons])

theorem join (h : T.Sound capacity) (hcap : 2 ≤ capacity) {r : ρ} (hr : r ∉ T.line)
    (hlevel : T.Level capacity r) : (T.join capacity r).Sound capacity := by
  unfold Tickets.join
  split
  · rename_i hspans
    exact h.share_joining hcap hr hspans
  · rename_i hspans
    exact h.draw (fun hm => absurd hm hr) hspans hlevel

theorem ask (h : T.Sound capacity) (hcap : 2 ≤ capacity) {r : ρ} (hr : r ∈ T.line)
    (hlevel : T.isDone r = true → T.Level capacity r) :
    (T.ask capacity r).Sound capacity := by
  unfold Tickets.ask
  split
  · rename_i hdone
    exact h.take hr hdone
  · rename_i hdone
    have hdone : T.isDone r = true := by simpa using hdone
    split
    · rename_i hspans
      split
      · rename_i hback
        exact h.share_back hcap hback hdone hspans
      · exact h
    · rename_i hspans
      have hdraw := h.draw (fun _ => hdone) hspans (hlevel hdone)
      exact hdraw.take (by simp [Tickets.draw]) (by simp [Tickets.draw])

theorem base_le_share (h : T.Sound capacity) (hcap : 2 ≤ capacity) {r : ρ}
    (hspans : T.Spans capacity) : T.base ≤ (T.share r).base := by
  obtain ⟨m, g, f, hl⟩ := hspans.split hcap
  refine h.base_le_place ?_ ?_
  · intro x hx hxr
    simp only [List.mem_append, List.mem_cons, Option.mem_toList] at hx
    rcases hx with hx | rfl | hx
    · exact List.mem_of_mem_erase (List.dropLast_subset _ hx)
    · exact absurd rfl hxr
    · exact List.mem_of_mem_erase (List.mem_of_getLast? hx)
  · split
    · rename_i hnone
      have hshort : (T.line.erase r).dropLast = [] := List.getLast?_eq_none_iff.mp hnone
      have hrl : r ∈ T.line := by
        by_contra hrl
        rw [List.erase_of_not_mem hrl, hl] at hshort
        simpa using congrArg List.length hshort
      exact h.base_le hrl
    · rename_i g' hg'
      exact h.base_le (List.mem_of_mem_erase (List.dropLast_subset _ (List.mem_of_getLast? hg')))

theorem base_le_join (h : T.Sound capacity) (hcap : 2 ≤ capacity) {r : ρ} :
    T.base ≤ (T.join capacity r).base := by
  unfold Tickets.join
  split
  · rename_i hspans
    exact h.base_le_share hcap hspans
  · exact h.base_le_draw

end Sound

section Ask

variable {ρ E : Type} [DecidableEq ρ] {capacity : Nat} (T : Tickets ρ E) (r x : ρ)

variable {T r x} in
theorem Sound.mem_draw (h : T.Sound capacity) : x ∈ (T.draw r).line ↔ x = r ∨ x ∈ T.line := by
  simp only [Tickets.draw, place_line, List.mem_append, List.mem_singleton, h.mem_erase_iff]
  tauto

variable {T r x} in
theorem Sound.mem_share (h : T.Sound capacity) :
    x ∈ (T.share r).line ↔ x = r ∨ x ∈ T.line := by
  have hothers : ∀ m : List ρ, x ∈ m ↔ x ∈ m.dropLast ∨ x ∈ m.getLast?.toList := by
    intro m
    rcases List.eq_nil_or_concat' m with rfl | ⟨m, f, rfl⟩ <;> simp
  have hothers := hothers (T.line.erase r)
  rw [h.mem_erase_iff] at hothers
  simp only [Tickets.share, place_line, List.mem_append, List.mem_cons]
  tauto

variable {T r x} in
theorem Sound.mem_join (h : T.Sound capacity) :
    x ∈ (T.join capacity r).line ↔ x = r ∨ x ∈ T.line := by
  unfold Tickets.join
  split
  · exact h.mem_share
  · exact h.mem_draw

@[simp] theorem take_line : (T.take r).line = T.line := by
  unfold take
  split <;> rfl

@[simp] theorem take_ticket : (T.take r).ticket = T.ticket := by
  unfold take
  split <;> rfl

@[simp] theorem take_base : (T.take r).base = T.base := by
  unfold take
  split <;> rfl

@[simp] theorem take_accepted : (T.take r).accepted = T.accepted := by
  unfold take
  split <;> rfl

variable {T r x} in
theorem Sound.mem_ask (h : T.Sound capacity) (hr : r ∈ T.line) :
    x ∈ (T.ask capacity r).line ↔ x ∈ T.line := by
  have hx : x = r ∨ x ∈ T.line ↔ x ∈ T.line := by
    constructor
    · rintro (rfl | hx)
      · exact hr
      · exact hx
    · exact .inr
  unfold Tickets.ask
  split
  · simp
  · split
    · split
      · rw [h.mem_share, hx]
      · rfl
    · rw [take_line, h.mem_draw, hx]

@[simp] theorem join_accepted : (T.join capacity r).accepted = T.accepted := by
  unfold join
  split <;> simp [share, draw]

@[simp] theorem join_returned : (T.join capacity r).returned = T.returned := by
  unfold join
  split <;> simp [share, draw]

theorem join_isDone : (T.join capacity r).isDone r = decide (T.Spans capacity) := by
  unfold join
  split <;> simp_all [share, draw]

theorem join_ticket (h : ¬ T.Spans capacity) : (T.join capacity r).ticket r = T.next := by
  simp [join, h, draw]

theorem ask_ticket_of_drawing (hdone : T.isDone r = true) (h : ¬ T.Spans capacity) :
    (T.ask capacity r).ticket r = T.next := by
  simp [ask, hdone, h, draw]

theorem ask_ticket_of_waiting (hdone : T.isDone r = false) :
    (T.ask capacity r).ticket r = T.ticket r := by
  simp [ask, hdone]

@[simp] theorem ask_accepted : (T.ask capacity r).accepted = T.accepted := by
  unfold ask
  split
  · simp
  · split
    · split <;> simp [share]
    · simp [draw]

variable {T r x}

theorem share_ticket_of_ne (hx : x ≠ r) : (T.share r).ticket x = T.ticket x := by
  rw [share, place_ticket, Function.update_of_ne hx]

theorem share_isDone_of_ne (hx : x ≠ r) : (T.share r).isDone x = T.isDone x := by
  rw [share, place_isDone, Function.update_of_ne hx]

theorem draw_ticket_of_ne (hx : x ≠ r) : (T.draw r).ticket x = T.ticket x := by
  rw [draw, place_ticket, Function.update_of_ne hx]

theorem draw_isDone_of_ne (hx : x ≠ r) : (T.draw r).isDone x = T.isDone x := by
  rw [draw, place_isDone, Function.update_of_ne hx]

theorem take_isDone_of_ne (hx : x ≠ r) : (T.take r).isDone x = T.isDone x := by
  unfold take
  split
  · exact Function.update_of_ne hx _ _
  · rfl

theorem join_ticket_of_ne (hx : x ≠ r) : (T.join capacity r).ticket x = T.ticket x := by
  unfold join
  split
  · exact share_ticket_of_ne hx
  · exact draw_ticket_of_ne hx

theorem join_isDone_of_ne (hx : x ≠ r) : (T.join capacity r).isDone x = T.isDone x := by
  unfold join
  split
  · exact share_isDone_of_ne hx
  · exact draw_isDone_of_ne hx

theorem ask_ticket_of_ne (hx : x ≠ r) : (T.ask capacity r).ticket x = T.ticket x := by
  unfold ask
  split
  · simp
  · split
    · split
      · exact share_ticket_of_ne hx
      · rfl
    · rw [take_ticket, draw_ticket_of_ne hx]

theorem ask_isDone_of_ne (hx : x ≠ r) : (T.ask capacity r).isDone x = T.isDone x := by
  unfold ask
  split
  · exact take_isDone_of_ne hx
  · split
    · split
      · exact share_isDone_of_ne hx
      · rfl
    · rw [take_isDone_of_ne hx, draw_isDone_of_ne hx]

/-- A reader that is given an entry is given the entry of its ticket. -/
theorem ask_of_some {e : E} (he : T.answer capacity r = some e) :
    (T.ask capacity r).returned = T.returned ++ [(T.ask capacity r).ticket r] ∧
      (T.ask capacity r).ticket r < T.written ∧
      T.accepted[(T.ask capacity r).ticket r]? = some e ∧
      (T.ask capacity r).isDone r = true := by
  unfold answer at he
  unfold ask
  split at he
  · rename_i hdone
    have hlt : T.ticket r < T.written := (List.getElem?_eq_some_iff.mp he).1
    simp [hdone, take, hlt, he]
  · rename_i hdone
    split at he
    · cases he
    · rename_i hspans
      have hlt : T.next < T.written := (List.getElem?_eq_some_iff.mp he).1
      simp [hdone, hspans, take, draw, hlt, he]

omit [DecidableEq ρ] in
theorem waits_of_some {e : E} (he : T.answer capacity r = some e) :
    T.isDone r = true → ¬ T.Spans capacity := by
  intro hdone hspans
  simp [answer, hdone, hspans] at he

/-- A reader that is given nothing stands done only in a line that spans the ring. -/
theorem ask_isDone_of_none (he : T.answer capacity r = none) :
    (T.ask capacity r).isDone r = (T.isDone r && decide (T.Spans capacity)) := by
  unfold answer at he
  unfold ask
  split at he
  · rename_i hdone
    have hge : ¬ T.ticket r < T.written := Nat.not_lt.mpr (List.getElem?_eq_none_iff.mp he)
    simp [hdone, take, hge]
  · rename_i hdone
    have hdone : T.isDone r = true := by simpa using hdone
    split at he
    · rename_i hspans
      by_cases hback : T.line.head? = some r
      · simp [hdone, hspans, hback, share]
      · simp [hdone, hspans, hback]
    · rename_i hspans
      have hge : ¬ T.next < T.written := Nat.not_lt.mpr (List.getElem?_eq_none_iff.mp he)
      simp [hdone, hspans, take, draw, hge]

theorem ask_of_none (he : T.answer capacity r = none) :
    (T.ask capacity r).returned = T.returned := by
  unfold answer at he
  unfold ask
  split at he
  · rename_i hdone
    have hge : ¬ T.ticket r < T.written := Nat.not_lt.mpr (List.getElem?_eq_none_iff.mp he)
    simp [hdone, take, hge]
  · rename_i hdone
    split at he
    · rename_i hspans
      by_cases hback : T.line.head? = some r
      · simp [hdone, hspans, hback, share]
      · simp [hdone, hspans, hback]
    · rename_i hspans
      have hge : ¬ T.next < T.written := Nat.not_lt.mpr (List.getElem?_eq_none_iff.mp he)
      simp [hdone, hspans, take, draw, hge]

end Ask

namespace Sound

variable {ρ E : Type} [DecidableEq ρ] {capacity : Nat} {T : Tickets ρ E}

theorem base_le_ask (h : T.Sound capacity) (hcap : 2 ≤ capacity) {r : ρ} :
    T.base ≤ (T.ask capacity r).base := by
  unfold Tickets.ask
  split
  · simp
  · split
    · rename_i hspans
      split
      · exact h.base_le_share hcap hspans
      · exact Nat.le_refl _
    · rw [take_base]
      exact h.base_le_draw

/-- A reader that does not draw leaves the next ticket as it is. -/
theorem share_next (h : T.Sound capacity) (hcap : 2 ≤ capacity) {r : ρ}
    (hspans : T.Spans capacity) (hr : r ∈ T.line → T.line.head? = some r) :
    (T.share r).next = T.next := by
  obtain ⟨m, g, f, hl⟩ := hspans.split hcap
  have hnd := h.nodup
  rw [hl, show m ++ [g, f] = (m ++ [g]) ++ [f] by simp] at hnd
  have hfr : f ≠ r := by
    rintro rfl
    have hhead := hr (by simp [hl])
    refine (List.nodup_append.mp hnd).2.2 f (List.mem_of_mem_head? (a := f) ?_) f (by simp) rfl
    rw [hl] at hhead
    cases m <;> simpa using hhead
  obtain ⟨m', hothers⟩ : ∃ m', T.line.erase r = m' ++ [f] := by
    rw [hl, show m ++ [g, f] = (m ++ [g]) ++ [f] by simp, List.erase_append]
    split
    · exact ⟨_, rfl⟩
    · exact ⟨m ++ [g], by rw [List.erase_of_not_mem (by simpa using hfr.symm)]⟩
  have hlast : (T.share r).line.getLast? = some f := by
    simp [Tickets.share, hothers]
  rw [next_eq hlast, next_eq (f := f) (by simp [hl]), share_ticket_of_ne hfr]

theorem join_next (h : T.Sound capacity) (hcap : 2 ≤ capacity) {r : ρ} (hr : r ∉ T.line) :
    (T.join capacity r).next = if T.Spans capacity then T.next else T.next + 1 := by
  unfold Tickets.join
  split
  · rename_i hspans
    exact h.share_next hcap hspans (fun hm => absurd hm hr)
  · exact draw_next T r

theorem take_next (r : ρ) : (T.take r).next = T.next := by
  simp only [Tickets.next, take_line, take_ticket, take_base]

theorem ask_next (h : T.Sound capacity) (hcap : 2 ≤ capacity) {r : ρ} :
    (T.ask capacity r).next =
      if T.isDone r = true ∧ ¬ T.Spans capacity then T.next + 1 else T.next := by
  unfold Tickets.ask
  split
  · rename_i hdone
    simp [hdone, take_next]
  · rename_i hdone
    split
    · rename_i hspans
      split
      · rename_i hback
        simp [hspans, h.share_next hcap hspans (fun _ => hback)]
      · simp [hspans]
    · rename_i hspans
      simp [hspans, hdone, take_next, draw_next]

/-- The back that moves before the front gains on its ticket. -/
theorem le_share_ticket (h : T.Sound capacity) (hcap : 2 ≤ capacity) {r : ρ}
    (hback : T.line.head? = some r) (hspans : T.Spans capacity) :
    T.ticket r ≤ (T.share r).ticket r := by
  obtain ⟨m, g, f, hl⟩ := hspans.split hcap
  rcases m with _ | ⟨b, m⟩
  · obtain rfl : g = r := by simpa [hl] using hback
    simp [share_pair hl]
  · obtain rfl : b = r := by simpa [hl] using hback
    have hg := h.backTicket_le (x := g) (by simp [hl])
    rw [backTicket_eq hback] at hg
    rw [share_eq (m := m) (g := g) (f := f) (by simp [hl]), place_ticket, Function.update_self]
    exact hg

theorem le_ask_ticket (h : T.Sound capacity) (hcap : 2 ≤ capacity) {r : ρ} (hr : r ∈ T.line) :
    T.ticket r ≤ (T.ask capacity r).ticket r := by
  unfold Tickets.ask
  split
  · simp
  · split
    · rename_i hspans
      split
      · rename_i hback
        exact h.le_share_ticket hcap hback hspans
      · exact Nat.le_refl _
    · have hlt := h.lt_next hr
      simp only [take_ticket, Tickets.draw, place_ticket, Function.update_self]
      omega

theorem new {ρ E : Type} [DecidableEq ρ] (hcap : 0 < capacity) :
    (Tickets.new ρ E).Sound capacity := by
  refine ⟨?_, ?_, ?_, ?_, ?_, ?_, ?_, ?_, ?_, ?_⟩ <;>
    simp [Tickets.new, written, Tickets.next, hcap]

end Sound

section Tight

variable {ρ E : Type} [DecidableEq ρ] {n : Nat} {T : Tickets ρ E} {r : ρ}

/-- The base stays tight when the back stays, and when it moves. -/
theorem Tight.place (hT : T.Tight) {l : List ρ} {t : Nat} {done : Bool} {b : ρ}
    (hb : l.head? = some b)
    (hkeep : T.line.head? ≠ some r → Function.update T.ticket r t b = T.backTicket) :
    (T.place r l t done).Tight := by
  unfold Tight at hT ⊢
  rw [backTicket_eq (b := b) (by simpa using hb), place_ticket]
  by_cases hback : T.line.head? = some r
  · rw [place_base_of_back hback hb]
  · rw [place_base_of_ne hback, hkeep hback, hT]

theorem Tight.draw (hT : T.Tight) : (T.draw r).Tight := by
  cases hl : T.line with
  | nil =>
      refine hT.place (b := r) (by simp [hl]) ?_
      intro _
      rw [Function.update_self, next_nil hl, backTicket_nil hl]
  | cons c m =>
      have hc : T.line.head? = some c := by simp [hl]
      obtain ⟨b, hb⟩ : ∃ b, (T.line.erase r ++ [r]).head? = some b :=
        Option.ne_none_iff_exists'.mp (by simp)
      refine hT.place hb ?_
      intro hback
      have hcr : c ≠ r := fun he => hback (by rw [hc, he])
      have hbc : c = b := by
        rw [hl, List.erase_cons_tail (by simpa using hcr)] at hb
        simpa using hb
      rw [← hbc, Function.update_of_ne hcr, backTicket_eq hc]

theorem Tight.share (hT : T.Tight) (hn : 2 ≤ n) (hspans : T.Spans n)
    (hr : r ∈ T.line → T.line.head? = some r) : (T.share r).Tight := by
  obtain ⟨b, hb⟩ : ∃ b,
      ((T.line.erase r).dropLast ++ r :: (T.line.erase r).getLast?.toList).head? = some b :=
    Option.ne_none_iff_exists'.mp (by simp)
  refine hT.place hb ?_
  intro hback
  have hrl : r ∉ T.line := fun hm => hback (hr hm)
  obtain ⟨m, g, f, hl⟩ := hspans.split hn
  have hdrop : (m ++ [g, f]).dropLast = m ++ [g] := by
    rw [show m ++ [g, f] = (m ++ [g]) ++ [f] by simp, List.dropLast_concat]
  have hhead : T.line.head? = some b := by
    rw [List.erase_of_not_mem hrl, hl, hdrop] at hb
    rw [hl]
    cases m <;> simpa using hb
  have hbr : b ≠ r := fun he => hback (by rw [hhead, he])
  rw [Function.update_of_ne hbr, backTicket_eq hhead]

theorem Tight.join (hT : T.Tight) (hn : 2 ≤ n) (hr : r ∉ T.line) :
    (T.join n r).Tight := by
  unfold Tickets.join
  split
  · rename_i hspans
    exact hT.share hn hspans (fun hm => absurd hm hr)
  · exact hT.draw

theorem Tight.take (hT : T.Tight) : (T.take r).Tight := by
  simpa [Tight, backTicket] using hT

theorem Tight.ask (hT : T.Tight) (hn : 2 ≤ n) : (T.ask n r).Tight := by
  unfold Tickets.ask
  split
  · exact hT.take
  · split
    · rename_i hspans
      split
      · rename_i hback
        exact hT.share hn hspans (fun _ => hback)
      · exact hT
    · exact hT.draw.take

end Tight

section Frontal

variable {ρ E : Type} [DecidableEq ρ] {n : Nat} {T : Tickets ρ E}

/-- The front's ticket is no other reader's. -/
def Frontal (T : Tickets ρ E) : Prop :=
  ∀ f ∈ T.line.getLast?, ∀ r ∈ T.line, r ≠ f → T.ticket r < T.ticket f

theorem Frontal.draw (h : T.Sound n) {r : ρ} : (T.draw r).Frontal := by
  intro f hf x hx hxf
  obtain rfl : r = f := by simpa [Tickets.draw] using hf
  have hxl := (h.mem_draw.mp hx).resolve_left hxf
  have hlt := h.lt_next hxl
  rw [draw_ticket_of_ne hxf]
  simpa [Tickets.draw] using hlt

theorem Frontal.share_of_others (h : T.Sound n) (hT : T.Frontal) {m : List ρ} {r g f : ρ}
    (hothers : T.line.erase r = m ++ [g, f]) (hfront : T.line.getLast? = some f) :
    (T.share r).Frontal := by
  have hmem : ∀ x, x ∈ m ∨ x = g ∨ x = f ↔ x ≠ r ∧ x ∈ T.line := by
    intro x
    rw [← h.mem_erase_iff, hothers]
    simp
  have hnd := h.nodup.erase r
  rw [hothers] at hnd
  have hgf : g ≠ f := by
    have hpair := (List.nodup_append.mp hnd).2.1
    simpa using hpair
  have hf := (hmem f).mp (by simp)
  have hg := (hmem g).mp (by simp)
  intro f' hf' x hx hxf
  obtain rfl : f = f' := by simpa [share_eq hothers] using hf'
  rw [share_eq hothers, place_ticket, Function.update_of_ne hf.1]
  by_cases hxr : x = r
  · rw [hxr, Function.update_self]
    exact hT f hfront g hg.2 hgf
  · rw [Function.update_of_ne hxr]
    exact hT f hfront x ((h.mem_share.mp hx).resolve_left hxr) hxf

theorem Frontal.join (h : T.Sound n) (hT : T.Frontal) (hn : 2 ≤ n) {r : ρ}
    (hr : r ∉ T.line) : (T.join n r).Frontal := by
  unfold Tickets.join
  split
  · rename_i hspans
    obtain ⟨m, g, f, hl⟩ := hspans.split hn
    exact hT.share_of_others h (m := m) (g := g) (f := f)
      (by rw [List.erase_of_not_mem hr, hl]) (by simp [hl])
  · exact .draw h

theorem Frontal.share_back (h : T.Sound n) (hT : T.Frontal) (hn : 2 ≤ n) {r : ρ}
    (hback : T.line.head? = some r) (hspans : T.Spans n) : (T.share r).Frontal := by
  obtain ⟨m, g, f, hl⟩ := hspans.split hn
  rcases m with _ | ⟨b, m⟩
  · obtain rfl : g = r := by simpa [hl] using hback
    have hfront : T.line.getLast? = some f := by simp [hl]
    intro f' hf' x hx hxf
    rw [share_pair hl] at hf' hx ⊢
    obtain rfl : f = f' := by simpa using hf'
    have hx' : x ∈ T.line := by
      rw [hl]
      simpa using hx
    simpa using hT f hfront x hx' hxf
  · obtain rfl : b = r := by simpa [hl] using hback
    exact hT.share_of_others h (m := m) (g := g) (f := f) (by simp [hl])
      (by simp [hl, List.getLast?_cons])

theorem Frontal.take (hT : T.Frontal) (r : ρ) : (T.take r).Frontal := by
  simpa [Frontal] using hT

theorem Frontal.ask (h : T.Sound n) (hT : T.Frontal) (hn : 2 ≤ n) {r : ρ} :
    (T.ask n r).Frontal := by
  unfold Tickets.ask
  split
  · exact hT.take r
  · split
    · rename_i hspans
      split
      · rename_i hback
        exact hT.share_back h hn hback hspans
      · exact hT
    · exact (Frontal.draw h).take r

end Frontal

end Tickets

end HPQueue
