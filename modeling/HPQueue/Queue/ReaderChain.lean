import HPQueue.Library.LinkedChain
import HPQueue.Queue.SyncQueue

/-!
# The pointer list represents a list

`Chained s l` says that the pointers of a `SyncQueue` represent the list `l` of
its registered readers, from back to front.  Each operation of `SyncReaderList`
is shown to follow no null pointer on such a state and to represent, afterwards,
the list one expects: the mover appended, the leaver erased, and so on.

Only this module reasons about `next` and `previous`.  Everything above it works
with lists and with the three facts a list operation leaves behind: the new
index of each reader, the new `readIndex`, and that nothing else changed.
-/

namespace HPQueue

open Library.LinkedChain

variable {ρ E : Type} [DecidableEq ρ]

/-- The pointers of `s` represent the list `l` of registered readers. -/
structure Chained (s : SyncQueue ρ E) (l : List ρ) : Prop where
  nodup : l.Nodup
  inQueue : ∀ r, (s.readers r).inQueue = true ↔ r ∈ l
  back : s.back = l.head?
  front : s.front = l.getLast?
  linked : Linked (fun a => (s.readers a).next) (fun a => (s.readers a).previous) l
  last : ∀ f ∈ l.getLast?, (s.readers f).next = none ∨
    (l = [f] ∧ (s.readers f).next = some f)

omit [DecidableEq ρ] in
theorem Chained.registered {s : SyncQueue ρ E} {l : List ρ} {r : ρ} (h : Chained s l)
    (hr : r ∈ l) : (s.readers r).inQueue = true := (h.inQueue r).mpr hr

/-- What a list operation leaves behind: the list `l`, each reader's slot and
whether it is done with it, the `readIndex`, and otherwise the ring of `s`. -/
structure Relisted (s s' : SyncQueue ρ E) (l : List ρ) (index : ρ → Int)
    (isDone : ρ → Bool) (readIndex : Int) : Prop where
  chained : Chained s' l
  ring : s'.toReaderWriterQueue = { s.toReaderWriterQueue with readIndex := readIndex }
  index : ∀ x, (s'.readers x).index = index x
  isDone : ∀ x, (s'.readers x).isDone = isDone x

omit [DecidableEq ρ] in
/-- The representation depends on nothing but the pointers and `inQueue`. -/
theorem Chained.congr {s s' : SyncQueue ρ E} {l : List ρ} (h : Chained s l)
    (hback : s'.back = s.back) (hfront : s'.front = s.front)
    (hnext : ∀ x, (s'.readers x).next = (s.readers x).next)
    (hprevious : ∀ x, (s'.readers x).previous = (s.readers x).previous)
    (hin : ∀ x, (s'.readers x).inQueue = (s.readers x).inQueue) : Chained s' l where
  nodup := h.nodup
  inQueue x := by rw [hin, h.inQueue]
  back := hback.trans h.back
  front := hfront.trans h.front
  linked := h.linked.congr (fun x _ => hnext x) (fun x _ => hprevious x)
  last := by simpa only [hnext] using h.last

/-- The stores that take `r` out from between `p` and `b`. -/
theorem linked_unlink {s s' : SyncQueue ρ E} {p q : List ρ} {r b : ρ}
    (hnd : (p ++ r :: b :: q).Nodup)
    (hl : Linked (fun a => (s.readers a).next) (fun a => (s.readers a).previous)
      (p ++ r :: b :: q))
    (hnext : ∀ x, x ≠ r → (s'.readers x).next =
      if p.getLast? = some x then some b else (s.readers x).next)
    (hprevious : ∀ x, x ≠ r → (s'.readers x).previous =
      if x = b then (s.readers r).previous else (s.readers x).previous) :
    Linked (fun a => (s'.readers a).next) (fun a => (s'.readers a).previous)
      (p ++ b :: q) := by
  have hdis := (List.nodup_append.mp hnd).2.2
  have hrbq := List.nodup_cons.mp (List.nodup_append.mp hnd).2.1
  have hbq : b ∉ q := (List.nodup_cons.mp hrbq.2).1
  have hpr : ∀ x ∈ p, x ≠ r := fun x hx => hdis x hx r (by simp)
  have hqr : ∀ x ∈ b :: q, x ≠ r := fun x hx he => hrbq.1 (he ▸ hx)
  refine hl.unlink ?_ ?_ ?_ ?_ ?_ ?_
  · intro x hx
    have hxp := List.dropLast_subset _ hx
    have hlast : p.getLast? ≠ some x := fun hlast =>
      ne_last_of_mem_dropLast (List.nodup_append.mp hnd).1 hlast hx rfl
    simp [hnext x (hpr x hxp), hlast]
  · intro x hx
    have hxp := List.mem_of_mem_tail hx
    have hxb : x ≠ b := hdis x hxp b (by simp)
    simp [hprevious x (hpr x hxp), hxb]
  · intro x hx
    have hxq := List.dropLast_subset _ hx
    have hlast : p.getLast? ≠ some x := fun hlast =>
      hdis x (List.mem_of_getLast? hlast) x (by simpa using Or.inr hxq) rfl
    simp [hnext x (hqr x hxq), hlast]
  · intro x hx
    have hxb : x ≠ b := fun he => hbq (by simpa [he] using hx)
    have hxq := List.mem_of_mem_tail hx
    simp [hprevious x (hqr x hxq), hxb]
  · intro x hx
    have hxp := List.mem_of_getLast? hx
    have hrb : (s.readers r).next = some b := hl.adjacent.1
    simp only [hnext x (hpr x hxp), hrb, if_pos (Option.mem_def.mp hx)]
  · intro x hx
    obtain rfl : b = x := by simpa using hx
    simp [hprevious b (hqr b (by simp))]

/-- The stores that append `r` behind the front `f`. -/
theorem Chained.append {s s' : SyncQueue ρ E} {m : List ρ} {r f : ρ} (hnd : m.Nodup)
    (hr : r ∉ m) (hf : m.getLast? = some f)
    (hl : Linked (fun a => (s.readers a).next) (fun a => (s.readers a).previous) m)
    (hback : s'.back = m.head?) (hfront : s'.front = some r)
    (hnext : ∀ x, (s'.readers x).next =
      if x = f then some r else if x = r then none else (s.readers x).next)
    (hprevious : ∀ x, (s'.readers x).previous =
      if x = r then some f else (s.readers x).previous)
    (hin : ∀ x, (s'.readers x).inQueue = true ↔ x ∈ m ∨ x = r) :
    Chained s' (m ++ [r]) := by
  have hfr : r ≠ f := fun he => hr (he ▸ List.mem_of_getLast? hf)
  refine
    { nodup := by
        rw [List.nodup_append]
        exact ⟨hnd, List.nodup_singleton r, fun a ha b hb => by
          rw [List.mem_singleton.mp hb]
          exact fun he => hr (he ▸ ha)⟩
      inQueue := by simpa using hin
      back := by
        rw [hback]
        cases m <;> simp at hf ⊢
      front := by simpa using hfront
      linked := ?_
      last := by simp [hnext, hfr] }
  refine hl.snoc ?_ ?_ ?_
  · intro x hx
    have hxf := ne_last_of_mem_dropLast hnd hf hx
    have hxr : x ≠ r := fun he => hr (he ▸ List.dropLast_subset _ hx)
    simp [hnext, hxf, hxr]
  · intro x hx
    have hxr : x ≠ r := fun he => hr (he ▸ List.mem_of_mem_tail hx)
    simp [hprevious, hxr]
  · intro x hx
    obtain rfl : f = x := by simpa [hf] using hx
    simp [hnext, hprevious]

/-- The stores that insert `r` between the front `f` and its predecessor `g`. -/
theorem Chained.insertBeforeFront {s s' : SyncQueue ρ E} {m : List ρ} {r g f : ρ}
    (hnd : (m ++ [g, f]).Nodup) (hr : r ∉ m ++ [g, f])
    (hl : Linked (fun a => (s.readers a).next) (fun a => (s.readers a).previous)
      (m ++ [g, f]))
    (hback : s'.back = (m ++ [g]).head?) (hfront : s'.front = some f)
    (hnext : ∀ x, (s'.readers x).next =
      if x = g then some r else if x = r then some f else (s.readers x).next)
    (hprevious : ∀ x, x ≠ r → x ∉ (m ++ [g]).head? → (s'.readers x).previous =
      if x = f then some r else (s.readers x).previous)
    (hr' : (s'.readers r).previous = some g)
    (hlast : (s.readers f).next = none)
    (hin : ∀ x, (s'.readers x).inQueue = true ↔ x ∈ m ++ [g, f] ∨ x = r) :
    Chained s' (m ++ [g, r, f]) := by
  have hgf : g ∉ m ∧ f ∉ m ∧ g ≠ f := by
    have h := List.nodup_append.mp hnd
    refine ⟨fun hm => h.2.2 g hm g (by simp) rfl, fun hm => h.2.2 f hm f (by simp) rfl, ?_⟩
    simpa using h.2.1
  have hrg : r ≠ g := fun he => hr (by simp [he])
  have hrf : r ≠ f := fun he => hr (by simp [he])
  refine
    { nodup := ?_
      inQueue := by
        intro x
        rw [hin]
        simp only [List.mem_append, List.mem_cons, List.not_mem_nil, or_false]
        tauto
      back := by
        rw [hback]
        cases m <;> simp
      front := by simpa using hfront
      linked := ?_
      last := by
        have hfg : f ≠ g := hgf.2.2.symm
        simp [hnext, hfg, hrf.symm, hlast] }
  · have hperm : (m ++ [g, r, f]).Perm (r :: (m ++ [g, f])) := by
      simpa using (@List.perm_middle _ r (m ++ [g]) [f])
    exact hperm.nodup_iff.mpr (List.nodup_cons.mpr ⟨hr, hnd⟩)
  · have hmg : (m ++ [g]).Nodup := by
      have h : m ++ [g, f] = (m ++ [g]) ++ [f] := by simp
      rw [h] at hnd
      exact (List.nodup_append.mp hnd).1
    refine hl.insert ?_ ?_ (by simp) (by simp) ?_ hr' ?_ ?_
    · intro x hx
      have hxg : x ≠ g := fun he => hgf.1 (he ▸ hx)
      have hxr : x ≠ r := fun he => hr (by simp [← he, hx])
      simp [hnext, hxg, hxr]
    · intro x hx
      have hxm := List.mem_of_mem_tail hx
      have hxr : x ≠ r := fun he => hr (by
        rw [← he]
        simp only [List.mem_append, List.mem_singleton] at hxm
        simp only [List.mem_append, List.mem_cons]
        tauto)
      have hxf : x ≠ f := by
        rintro rfl
        simp only [List.mem_append, List.mem_singleton] at hxm
        exact hxm.elim hgf.2.1 hgf.2.2.symm
      rw [hprevious x hxr ?_, if_neg hxf]
      intro hxh
      exact ne_head_of_mem_tail hmg hxh hx rfl
    · simp [hnext]
    · simp [hnext, hrg]
    · rw [hprevious f hrf.symm ?_, if_pos rfl]
      intro hfh
      have hfm := List.mem_of_mem_head? hfh
      simp only [List.mem_append, List.mem_singleton] at hfm
      exact hfm.elim hgf.2.1 hgf.2.2.symm

namespace SyncReaderList

/-- `moveOut` takes the reader out of the list; if it was the back, `readIndex`
follows the new back. -/
theorem moveOut_spec {s : SyncQueue ρ E} {p q : List ρ} {r b : ρ}
    (hback : s.back = (p ++ [r]).head?) (hnd : (p ++ r :: b :: q).Nodup)
    (hreg : ∀ x ∈ p ++ r :: b :: q, (s.readers x).inQueue = true)
    (hl : Linked (fun a => (s.readers a).next) (fun a => (s.readers a).previous)
      (p ++ r :: b :: q)) :
    ∃ s', moveOut s r = .ok s' ∧
      s'.toReaderWriterQueue = { s.toReaderWriterQueue with
        readIndex := if p = [] then (s.readers b).index else s.readIndex } ∧
      s'.front = s.front ∧ s'.back = (p ++ [b]).head? ∧
      Linked (fun a => (s'.readers a).next) (fun a => (s'.readers a).previous)
        (p ++ b :: q) ∧
      ∀ x, (s'.readers x).index = (s.readers x).index ∧
        (s'.readers x).isDone = (s.readers x).isDone ∧
        (s'.readers x).inQueue = (s.readers x).inQueue := by
  have hrb : (s.readers r).next = some b := hl.adjacent.1
  have hbin : (s.readers b).inQueue = true := hreg b (by simp)
  rcases List.eq_nil_or_concat' p with rfl | ⟨p, a, rfl⟩
  · have hbr : s.back = some r := by simpa using hback
    have hrun : moveOut s r = .ok
        (SyncQueue.setPrevious { s with back := some b, readIndex := (s.readers b).index }
          b (s.readers r).previous) := by
      simp [moveOut, hbr, hrb, hbin]
    refine ⟨_, hrun, by simp, rfl, by simp, ?_, by simp⟩
    exact linked_unlink hnd hl (by simp) (by simp)
  · have hdis := (List.nodup_append.mp hnd).2.2
    have har : (s.readers r).previous = some a := by
      rw [List.append_assoc] at hl
      exact hl.adjacent.2
    have hbr : s.back ≠ some r := by
      rw [hback]
      intro h
      exact hdis r (List.mem_of_mem_head? (by simpa using h)) r (by simp) rfl
    have hain : (s.readers a).inQueue = true := hreg a (by simp)
    have hrun : moveOut s r = .ok ((s.setNext a (some b)).setPrevious b (some a)) := by
      simp [moveOut, hbr, hrb, har, hbin, hain]
    refine ⟨_, hrun, by simp, rfl, by simpa using hback, ?_, by simp⟩
    refine linked_unlink hnd hl ?_ ?_
    · intro x _
      simp [eq_comm]
    · intro x _
      simp [har]

/-- A reader moves to the front: it is the last of the list, with the next slot. -/
theorem moveToFront_advance {s : SyncQueue ρ E} {l : List ρ} {r f b : ρ}
    (h : Chained s l) (hr : r ∈ l) (hf : l.getLast? = some f) (hb : l.head? = some b)
    (hne : s.nextIndex (s.readers f).index ≠ (s.readers b).index) :
    ∃ s' c, moveToFront s r = .ok (s', true) ∧ (l.erase r ++ [r]).head? = some c ∧
      Relisted s s' (l.erase r ++ [r])
        (fun x => if x = r then s.nextIndex (s.readers f).index else (s.readers x).index)
        (fun x => (s.readers x).isDone)
        (if b = r then
          if c = r then s.nextIndex (s.readers f).index else (s.readers c).index
        else s.readIndex) := by
  have hin : (s.readers r).inQueue = true := (h.inQueue r).mpr hr
  have hfront : s.front = some f := h.front.trans hf
  have hback : s.back = some b := h.back.trans hb
  have hfin := h.registered (List.mem_of_getLast? hf)
  have hbin := h.registered (List.mem_of_mem_head? hb)
  obtain ⟨p, q, rfl⟩ := List.append_of_mem hr
  have hrp : r ∉ p := fun hp =>
    (List.nodup_append.mp h.nodup).2.2 r hp r (by simp) rfl
  have herase : (p ++ r :: q).erase r = p ++ q := by
    rw [List.erase_append_right _ hrp, List.erase_cons_head]
  rw [herase]
  rcases q with _ | ⟨c, q⟩
  · -- `r` is the front already
    obtain rfl : r = f := by simpa using hf
    rcases p with _ | ⟨c, p⟩
    · obtain rfl : r = b := by simpa using hb
      refine ⟨{ s.setIndex r (s.nextIndex (s.readers r).index) with
        readIndex := s.nextIndex (s.readers r).index }, r, ?_, rfl, ?_, ?_, ?_, ?_⟩
      · simp [moveToFront, hin, hfront, hback, hne]
      · exact h.congr rfl rfl (by simp) (by simp) (by simp)
      · simp
      · simp
      · simp
    · obtain rfl : c = b := by simpa using hb
      have hcr : c ≠ r := fun hc => hrp (by simp [hc])
      refine ⟨s.setIndex r (s.nextIndex (s.readers r).index), c, ?_, rfl, ?_, ?_, ?_, ?_⟩
      · simp [moveToFront, hin, hbin, hfront, hback, hne, hcr]
      · rw [List.append_nil]
        exact h.congr rfl rfl (by simp) (by simp) (by simp)
      · simp [hcr]
      · simp
      · simp
  · -- `r` is taken out, then appended
    have hnd : (p ++ c :: q).Nodup := by
      have hnd := h.nodup
      rw [List.nodup_middle] at hnd
      exact (List.nodup_cons.mp hnd).2
    have hrl : r ∉ p ++ c :: q := by
      have hnd := h.nodup
      rw [List.nodup_middle] at hnd
      exact (List.nodup_cons.mp hnd).1
    have hlast : (p ++ c :: q).getLast? = some f := by
      simpa [List.getLast?_append, List.getLast?_cons_cons] using hf
    have hfr : f ≠ r := fun he => hrl (he ▸ List.mem_of_getLast? hlast)
    have hcr : c ≠ r := fun he => hrl (by simp [he])
    have hpr : (p ++ [r]).head? = some b := by
      simpa [List.head?_append] using hb
    obtain ⟨s₁, hrun, hring, hfront₁, hback₁, hl₁, hdata⟩ :=
      moveOut_spec (s := s.setIndex r (s.nextIndex (s.readers f).index))
        (by simpa [hback] using hpr.symm) h.nodup
        (fun x hx => by simpa using h.registered hx) (by simpa using h.linked)
    simp only [SyncQueue.setIndex_readers] at hdata
    have hfront' : s₁.front = some f := by simpa [hfront] using hfront₁
    have hfin' : (s₁.readers f).inQueue = true := (hdata f).2.2.trans hfin
    refine ⟨{ ((s₁.setPrevious r (some f)).setNext r none).setNext f (some r) with
      front := some r }, (p ++ [c]).head?.getD c, ?_, ?_, ?_⟩
    · simp [moveToFront, hin, hfin, hbin, hfront, hback, hne, hfr, hrun, hfront', hfin']
    · cases p <;> simp
    · refine ⟨?_, ?_, ?_, ?_⟩
      · refine Chained.append hnd hrl hlast hl₁ ?_ rfl (by simp) (by simp) ?_
        · simpa [List.head?_append] using hback₁
        · intro x
          simp only [SyncQueue.setNext_readers, SyncQueue.setPrevious_readers,
            (hdata x).2.2, h.inQueue]
          simp only [List.mem_append, List.mem_cons]
          tauto
      · rcases p with _ | ⟨d, p⟩
        · obtain rfl : r = b := by simpa using hb
          simp [hring, hcr]
        · obtain rfl : d = b := by simpa using hb
          have hdr : d ≠ r := fun he => hrp (by simp [he])
          simp [hring, hdr]
      · simpa using fun x => (hdata x).1
      · simpa using fun x => (hdata x).2.1

/-- A reader that is not the back of a list that spans the ring stays where it is. -/
theorem moveToFront_spanned {s : SyncQueue ρ E} {l : List ρ} {r f b : ρ}
    (h : Chained s l) (hr : r ∈ l) (hf : l.getLast? = some f) (hb : l.head? = some b)
    (heq : s.nextIndex (s.readers f).index = (s.readers b).index) (hrb : r ≠ b) :
    moveToFront s r = .ok (s, false) := by
  have hin := h.registered hr
  have hfin := h.registered (List.mem_of_getLast? hf)
  have hbin := h.registered (List.mem_of_mem_head? hb)
  simp [moveToFront, hin, hfin, hbin, h.front, h.back, hf, hb, heq, hrb.symm]

/-- The back of a list of two that spans the ring stays where it is. -/
theorem moveToFront_pair {s : SyncQueue ρ E} {r f : ρ} (h : Chained s [r, f])
    (heq : s.nextIndex (s.readers f).index = (s.readers r).index) :
    moveToFront s r = .ok ({ s with readIndex := (s.readers r).index }, false) := by
  have hin := h.registered (r := r) (by simp)
  have hfin := h.registered (r := f) (by simp)
  have hfront : s.front = some f := h.front
  have hback : s.back = some r := h.back
  have hrf : (s.readers r).next = some f := h.linked.adjacent_cons.1
  simp [moveToFront, squeeze, hin, hfin, hfront, hback, heq, hrf]

/-- The squeeze: the back reader shares the slot of the second to front. -/
theorem moveToFront_squeeze {s : SyncQueue ρ E} {m : List ρ} {r g f b : ρ}
    (h : Chained s (r :: (m ++ [g, f]))) (hb : (m ++ [g]).head? = some b)
    (heq : s.nextIndex (s.readers f).index = (s.readers r).index) :
    ∃ s', moveToFront s r = .ok (s', false) ∧
      Relisted s s' (m ++ [g, r, f])
        (fun x => if x = r then (s.readers g).index else (s.readers x).index)
        (fun x => (s.readers x).isDone) (s.readers b).index := by
  have hin := h.registered (r := r) (by simp)
  have hfin := h.registered (r := f) (by simp)
  have hgin := h.registered (r := g) (by simp)
  have hlast : (r :: (m ++ [g, f])).getLast? = some f := by
    simp [List.getLast?_cons, List.getLast?_append]
  have hfront : s.front = some f := h.front.trans hlast
  have hback : s.back = some r := h.back
  have hr : r ∉ m ++ [g, f] := (List.nodup_cons.mp h.nodup).1
  have hnd : (m ++ [g, f]).Nodup := (List.nodup_cons.mp h.nodup).2
  obtain ⟨d, q, hsplit⟩ : ∃ d q, m ++ [g, f] = b :: d :: q := by
    rcases m with _ | ⟨c, m⟩
    · obtain rfl : g = b := by simpa using hb
      exact ⟨f, [], rfl⟩
    · obtain rfl : c = b := by simpa using hb
      cases m <;> simp
  have hl := h.linked
  have hfg : (s.readers f).previous = some g := by
    have hl : Linked _ _ ((r :: m) ++ [g, f]) := hl
    exact hl.adjacent.2
  rw [hsplit] at hl
  have hrb : (s.readers r).next = some b := hl.adjacent_cons.1
  have hbd : (s.readers b).next = some d := hl.right_cons.adjacent_cons.1
  have hdb : (s.readers d).previous = some b := hl.right_cons.adjacent_cons.2
  have hfr : f ≠ r := fun he => hr (by simp [he])
  have hgr : g ≠ r := fun he => hr (by simp [he])
  have hbr : b ≠ r := fun he => hr (by simp [hsplit, he])
  have hbmg : b ∈ m ++ [g] := List.mem_of_mem_head? hb
  have hfb : f ≠ b := by
    rintro rfl
    have hnd' : ((m ++ [g]) ++ [f]).Nodup := by simpa using hnd
    exact (List.nodup_append.mp hnd').2.2 f hbmg f (by simp) rfl
  have hfd : f = d → b = g := by
    rintro rfl
    simpa [hfg] using hdb.symm
  have hbin := h.registered (r := b) (by simp [hsplit])
  have hdin := h.registered (r := d) (by simp [hsplit])
  have hnull : (s.readers f).next = none := by
    rcases h.last f hlast with hn | ⟨hone, -⟩
    · exact hn
    · simp at hone
  have hrun : moveToFront s r = .ok
      ({ ((((((SyncQueue.setPrevious { s with back := some b } b none).setPrevious d
        (some b)).setNext r (some f)).setPrevious r (some g)).setNext g (some r)).setPrevious f
          (some r)).setIndex r (s.readers g).index with
        readIndex := (s.readers b).index }, false) := by
    by_cases hd : f = d
    · obtain rfl := hfd hd
      subst hd
      simp [moveToFront, squeeze, hin, hfin, hbin, hfront, hback, heq, hrb, hbd, hfb, hfb.symm,
        hfr.symm, hgr]
    · simp [moveToFront, squeeze, hin, hfin, hgin, hbin, hdin, hfront, hback, heq, hrb, hbd, hfb,
        hfb.symm, hd, hfr.symm, hbr, hfg]
  refine ⟨_, hrun, ?_, by simp, by simp, by simp⟩
  refine Chained.insertBeforeFront hnd hr (h.linked.right_cons) ?_ ?_ ?_ ?_ ?_ hnull ?_
  · simpa using hb.symm
  · simpa using hfront
  · simp
  · intro x hxr hxb
    have hxb' : x ≠ b := fun he => hxb (by simp [he, hb])
    by_cases hxd : x = d
    · subst hxd
      simp [hxr, hdb]
    · simp [hxr, hxd, hxb']
  · simp [hfr.symm]
  · intro x
    simp only [SyncQueue.setIndex_readers, SyncQueue.setPrevious_readers,
      SyncQueue.setNext_readers, h.inQueue]
    simp only [List.mem_cons]
    tauto

/-- The first reader takes the slot at `readIndex`. -/
theorem add_first {s : SyncQueue ρ E} {r : ρ} (h : Chained s [])
    (hr : (s.readers r).inQueue = false) :
    ∃ s', add s r = .ok s' ∧
      Relisted s s' [r] (fun x => if x = r then s.readIndex else (s.readers x).index)
        (fun x => if x = r then false else (s.readers x).isDone) s.readIndex := by
  have hfront : s.front = none := h.front
  refine ⟨_, by simp [add, hr, hfront]; rfl, ?_, by simp, by simp, by simp⟩
  refine
    { nodup := List.nodup_singleton r
      inQueue := fun x => ?_
      back := rfl
      front := rfl
      linked := linked_singleton r
      last := by simp }
  have hx : (s.readers x).inQueue = false := by simpa using (h.inQueue x)
  simp [hx]

/-- A reader joins at the front, with the next slot. -/
theorem add_front {s : SyncQueue ρ E} {l : List ρ} {r f b : ρ} (h : Chained s l)
    (hr : (s.readers r).inQueue = false) (hf : l.getLast? = some f)
    (hb : l.head? = some b)
    (hne : s.nextIndex (s.readers f).index ≠ (s.readers b).index) :
    ∃ s', add s r = .ok s' ∧
      Relisted s s' (l ++ [r])
        (fun x => if x = r then s.nextIndex (s.readers f).index else (s.readers x).index)
        (fun x => if x = r then false else (s.readers x).isDone) s.readIndex := by
  have hfront : s.front = some f := h.front.trans hf
  have hback : s.back = some b := h.back.trans hb
  have hrl : r ∉ l := fun hm => by simp [(h.inQueue r).mpr hm] at hr
  have hfr : f ≠ r := fun he => hrl (he ▸ List.mem_of_getLast? hf)
  have hbin := h.registered (List.mem_of_mem_head? hb)
  refine ⟨_, by simp [add, hr, hbin, hfront, hback, hne]; rfl, ?_, by simp, by simp, by simp⟩
  refine Chained.append h.nodup hrl hf h.linked ?_ rfl ?_ ?_ ?_
  · simpa [hback] using hb.symm
  · simp
  · intro x
    by_cases hx : x = r <;> simp [hx]
  · intro x
    by_cases hx : x = r <;> simp [hx, h.inQueue]

/-- A reader joins a list that spans the ring: it shares the slot of the second
to front and counts as done with it. -/
theorem add_spanned {s : SyncQueue ρ E} {m : List ρ} {r g f b : ρ}
    (h : Chained s (m ++ [g, f])) (hr : (s.readers r).inQueue = false)
    (hb : (m ++ [g, f]).head? = some b)
    (heq : s.nextIndex (s.readers f).index = (s.readers b).index) :
    ∃ s', add s r = .ok s' ∧
      Relisted s s' (m ++ [g, r, f])
        (fun x => if x = r then (s.readers g).index else (s.readers x).index)
        (fun x => if x = r then true else (s.readers x).isDone) s.readIndex := by
  have hf : (m ++ [g, f]).getLast? = some f := by simp
  have hfront : s.front = some f := h.front.trans hf
  have hback : s.back = some b := h.back.trans hb
  have hfg : (s.readers f).previous = some g := h.linked.adjacent.2
  have hrl : r ∉ m ++ [g, f] := fun hm => by simp [(h.inQueue r).mpr hm] at hr
  have hfr : f ≠ r := fun he => hrl (by simp [he])
  have hgr : g ≠ r := fun he => hrl (by simp [he])
  have hnull : (s.readers f).next = none := by
    rcases h.last f hf with hn | ⟨hone, -⟩
    · exact hn
    · have hlen := congrArg List.length hone
      simp at hlen
  have hbin := h.registered (List.mem_of_mem_head? hb)
  have hgin := h.registered (r := g) (by simp)
  refine ⟨_, by
    simp [add, hr, hbin, hgin, hfront, hback, heq, hfg, hfr, hfr.symm]; rfl,
    ?_, by simp, by simp, by simp⟩
  refine Chained.insertBeforeFront h.nodup hrl h.linked ?_ ?_ ?_ ?_ ?_ hnull ?_
  · cases m <;> simpa [hback] using hb.symm
  · simp [hfront]
  · intro x
    by_cases hx : x = r <;> simp [hx]
  · intro x hxr _
    simp [hxr]
  · simp [hfr.symm]
  · intro x
    by_cases hx : x = r <;> simp [hx, h.inQueue]

/-- A reader that is not registered leaves without effect. -/
theorem remove_unregistered {s : SyncQueue ρ E} {r : ρ}
    (hr : (s.readers r).inQueue = false) : remove s r = .ok s := by
  simp [remove, hr]

/-- The only reader leaves; a slot it is done with is given back to the writers. -/
theorem remove_lone {s : SyncQueue ρ E} {r : ρ} (h : Chained s [r]) :
    ∃ s', remove s r = .ok s' ∧
      Relisted s s' [] (fun x => (s.readers x).index)
        (fun x => if x = r then false else (s.readers x).isDone)
        (if (s.readers r).isDone && !s.slotIsEmpty r then s.nextIndex (s.readers r).index
        else s.readIndex) := by
  have hin : (s.readers r).inQueue = true := (h.inQueue r).mpr (by simp)
  have hfront : s.front = some r := h.front
  have hback : s.back = some r := h.back
  have hother : ∀ x, x ≠ r → (s.readers x).inQueue = false := by
    intro x hx
    have h := h.inQueue x
    simpa [hx] using h
  have hchain : ∀ s' : SyncQueue ρ E, s'.front = none → s'.back = none →
      (∀ x, (s'.readers x).inQueue = if x = r then false else (s.readers x).inQueue) →
      Chained s' [] := by
    intro s' hf hb hq
    refine
      { nodup := List.nodup_nil
        inQueue := fun x => ?_
        back := hb
        front := hf
        linked := linked_nil
        last := by simp }
    by_cases hx : x = r
    · simp [hq, hx]
    · simp [hq, hx, hother x hx]
  cases hd : (s.readers r).isDone with
  | false =>
      refine ⟨_, by simp [remove, hin, hfront, hback, hd]; rfl, ?_, ?_, ?_, ?_⟩
      · exact hchain _ rfl rfl (by simp [clearFlags, clearLinks])
      · simp [clearFlags, clearLinks]
      · simp [clearFlags, clearLinks]
      · simp [clearFlags, clearLinks]
  | true =>
      cases he : s.slotIsEmpty r with
      | true =>
          refine ⟨_, by simp [remove, hin, hfront, hback, hd, SyncQueue.isEmpty, he]; rfl,
            ?_, ?_, ?_, ?_⟩
          · exact hchain _ rfl rfl (by simp [clearFlags, clearLinks])
          · simp [clearFlags, clearLinks]
          · simp [clearFlags, clearLinks]
          · simp [clearFlags, clearLinks]
      | false =>
          refine ⟨_, by simp [remove, hin, hfront, hback, hd, SyncQueue.isEmpty, he]; rfl,
            ?_, ?_, ?_, ?_⟩
          · exact hchain _ rfl rfl (by simp [clearFlags, clearLinks])
          · simp [clearFlags, clearLinks, ReaderWriterQueue.nextIndex]
          · simp [clearFlags, clearLinks]
          · simp [clearFlags, clearLinks]

/-- The last stores of `remove`, once `r` is out of the list. -/
theorem chained_clear {s : SyncQueue ρ E} {l : List ρ} {r : ρ} (hnd : l.Nodup)
    (hr : r ∉ l) (hin : ∀ x, (s.readers x).inQueue = true ↔ x ∈ l ∨ x = r)
    (hback : s.back = l.head?) (hfront : s.front = l.getLast?)
    (hl : Linked (fun a => (s.readers a).next) (fun a => (s.readers a).previous) l)
    (hlast : ∀ f ∈ l.getLast?, (s.readers f).next = none) :
    Chained (clearFlags (clearLinks s r) r) l := by
  have hne : ∀ x ∈ l, x ≠ r := fun x hx he => hr (he ▸ hx)
  refine
    { nodup := hnd
      inQueue := fun x => ?_
      back := hback
      front := hfront
      linked := ?_
      last := ?_ }
  · by_cases hx : x = r
    · simp [clearFlags, clearLinks, hx, hr]
    · simp [clearFlags, clearLinks, hx, hin]
  · refine hl.congr ?_ ?_
    · intro x hx
      simp [clearFlags, clearLinks, hne x (List.dropLast_subset _ hx)]
    · intro x hx
      simp [clearFlags, clearLinks, hne x (List.mem_of_mem_tail hx)]
  · intro f hf
    left
    simp [clearFlags, clearLinks, hlast f hf]

/-- The front leaves: its predecessor becomes the front. -/
theorem remove_front {s : SyncQueue ρ E} {m : List ρ} {r g : ρ}
    (h : Chained s (m ++ [g, r])) :
    ∃ s', remove s r = .ok s' ∧
      Relisted s s' (m ++ [g]) (fun x => (s.readers x).index)
        (fun x => if x = r then false else (s.readers x).isDone) s.readIndex := by
  have hin := h.registered (r := r) (by simp)
  have hgin := h.registered (r := g) (by simp)
  have hfront : s.front = some r := by simpa using h.front
  have hrg : (s.readers r).previous = some g := h.linked.adjacent.2
  have hsplit : m ++ [g, r] = (m ++ [g]) ++ [r] := by simp
  have hnd := h.nodup
  have hl := h.linked
  rw [hsplit] at hnd hl
  have hr : r ∉ m ++ [g] := fun hm => (List.nodup_append.mp hnd).2.2 r hm r (by simp) rfl
  have hback : s.back ≠ some r := by
    rw [h.back]
    intro hb
    refine hr (List.mem_of_mem_head? ?_)
    cases m <;> simpa using hb
  refine ⟨_, by simp [remove, hin, hgin, hfront, hback, hrg]; rfl, ?_, ?_, ?_, ?_⟩
  · refine chained_clear (List.nodup_append.mp hnd).1 hr ?_ ?_ (by simp) ?_ ?_
    · intro x
      simp only [SyncQueue.setNext_readers, h.inQueue, List.mem_append, List.mem_cons]
      tauto
    · have hb := h.back
      cases m <;> simpa using hb
    · refine hl.left.congr ?_ (by simp)
      intro x hx
      have hxg := ne_last_of_mem_dropLast (f := g) (List.nodup_append.mp hnd).1 (by simp) hx
      simp [hxg]
    · intro f hf
      obtain rfl : g = f := by simpa using hf
      simp
  · simp [clearFlags, clearLinks]
  · simp [clearFlags, clearLinks]
  · simp [clearFlags, clearLinks]

/-- A reader that is done with its slot and is not the front leaves; `readIndex`
stays where it was. -/
theorem remove_done {s : SyncQueue ρ E} {p q : List ρ} {r c : ρ}
    (h : Chained s (p ++ r :: c :: q)) (hdone : (s.readers r).isDone = true) :
    ∃ s', remove s r = .ok s' ∧
      Relisted s s' (p ++ c :: q) (fun x => (s.readers x).index)
        (fun x => if x = r then false else (s.readers x).isDone) s.readIndex := by
  have hin := h.registered (r := r) (by simp)
  have hcin := h.registered (r := c) (by simp)
  have hmid : (p ++ r :: c :: q).Nodup := h.nodup
  rw [List.nodup_middle] at hmid
  have hr : r ∉ p ++ c :: q := (List.nodup_cons.mp hmid).1
  have hrc : (s.readers r).next = some c := h.linked.adjacent.1
  have hfront : s.front ≠ some r := by
    rw [h.front]
    intro hf
    refine hr (List.mem_of_getLast? (a := r) ?_)
    simpa [List.getLast?_append, List.getLast?_cons_cons] using hf
  have hlast : ∀ f ∈ (p ++ c :: q).getLast?, (s.readers f).next = none := by
    intro f hf
    have hf' : (p ++ r :: c :: q).getLast? = some f := by
      simpa [List.getLast?_append, List.getLast?_cons_cons] using hf
    rcases h.last f hf' with hn | ⟨hone, -⟩
    · exact hn
    · have hlen := congrArg List.length hone
      simp at hlen
      omega
  have hchain : ∀ s₁ : SyncQueue ρ E, s₁.front = s.front → s₁.back = (p ++ [c]).head? →
      (∀ x, (s₁.readers x).inQueue = (s.readers x).inQueue) →
      (∀ x, x ≠ r → (s₁.readers x).next =
        if p.getLast? = some x then some c else (s.readers x).next) →
      (∀ x, x ≠ r → (s₁.readers x).previous =
        if x = c then (s.readers r).previous else (s.readers x).previous) →
      Chained (clearFlags (clearLinks s₁ r) r) (p ++ c :: q) := by
    intro s₁ hf₁ hb₁ hin₁ hn₁ hp₁
    refine chained_clear (List.nodup_cons.mp hmid).2 hr ?_ ?_ ?_
      (linked_unlink h.nodup h.linked hn₁ hp₁) ?_
    · intro x
      simp only [hin₁, h.inQueue, List.mem_append, List.mem_cons]
      tauto
    · cases p <;> simpa using hb₁
    · rw [hf₁, h.front]
      simp [List.getLast?_append, List.getLast?_cons_cons]
    · intro f hf
      have hfr : f ≠ r := fun he => hr (he ▸ List.mem_of_getLast? hf)
      have hfp : p.getLast? ≠ some f := by
        intro hp
        have hdis := (List.nodup_append.mp (List.nodup_cons.mp hmid).2).2.2
        refine hdis f (List.mem_of_getLast? hp) f (List.mem_of_getLast? ?_) rfl
        simpa [List.getLast?_append, List.getLast?_cons_cons] using hf
      rw [hn₁ f hfr, if_neg hfp]
      exact hlast f hf
  rcases List.eq_nil_or_concat' p with rfl | ⟨p, a, rfl⟩
  · have hback : s.back = some r := h.back
    refine ⟨_, by simp [remove, unlinkDone, hin, hcin, hfront, hdone, hback, hrc]; rfl, ?_, ?_, ?_,
      ?_⟩
    · exact hchain _ rfl rfl (by simp) (by simp) (by simp)
    · simp [clearFlags, clearLinks]
    · simp [clearFlags, clearLinks]
    · simp [clearFlags, clearLinks]
  · have hra : (s.readers r).previous = some a := by
      have hl := h.linked
      rw [List.append_assoc] at hl
      exact hl.adjacent.2
    have hback : s.back ≠ some r := by
      rw [h.back]
      intro hb
      refine hr (List.mem_of_mem_head? (a := r) ?_)
      simpa [List.head?_append] using hb
    have hain := h.registered (r := a) (by simp)
    refine ⟨_, by simp [remove, unlinkDone, hin, hcin, hain, hfront, hdone, hback, hrc, hra]; rfl,
      ?_, ?_, ?_, ?_⟩
    · refine hchain _ rfl ?_ (by simp) (by simp [eq_comm]) (by simp [hra])
      simpa [List.head?_append] using h.back
    · simp [clearFlags, clearLinks]
    · simp [clearFlags, clearLinks]
    · simp [clearFlags, clearLinks]

/-- A reader that waits for the slot just below the front's leaves: the front
stays the front and falls back to the slot given up. -/
theorem remove_waiting_below {s : SyncQueue ρ E} {p : List ρ} {r f : ρ}
    (h : Chained s (p ++ [r, f])) (hdone : (s.readers r).isDone = false) :
    ∃ s', remove s r = .ok s' ∧
      Relisted s s' (p ++ [f])
        (fun x => if x = f then (s.readers r).index else (s.readers x).index)
        (fun x => if x = r then false else (s.readers x).isDone) s.readIndex := by
  have hin := h.registered (r := r) (by simp)
  have hfin := h.registered (r := f) (by simp)
  have hfront : s.front = some f := by simpa using h.front
  have hmid : (p ++ r :: [f]).Nodup := h.nodup
  rw [List.nodup_middle] at hmid
  have hr : r ∉ p ++ [f] := (List.nodup_cons.mp hmid).1
  have hfr : f ≠ r := fun he => hr (by simp [he])
  have hrf : (s.readers r).next = some f := h.linked.adjacent.1
  have hnull : (s.readers f).next = none := by
    rcases h.last f (by simp) with hn | ⟨hone, -⟩
    · exact hn
    · have hlen := congrArg List.length hone
      simp at hlen
  have hchain : ∀ s₁ : SyncQueue ρ E, s₁.front = some f → s₁.back = (p ++ [f]).head? →
      (∀ x, (s₁.readers x).inQueue = (s.readers x).inQueue) →
      (∀ x, (s₁.readers x).next =
        if p.getLast? = some x then some f else (s.readers x).next) →
      (∀ x, (s₁.readers x).previous =
        if x = f then (s.readers r).previous else (s.readers x).previous) →
      Chained (clearFlags (clearLinks s₁ r) r) (p ++ [f]) := by
    intro s₁ hf₁ hb₁ hin₁ hn₁ hp₁
    refine chained_clear (List.nodup_cons.mp hmid).2 hr ?_ hb₁ (by simpa using hf₁)
      (linked_unlink h.nodup h.linked (fun x _ => hn₁ x) (fun x _ => hp₁ x)) ?_
    · intro x
      simp only [hin₁, h.inQueue, List.mem_append, List.mem_cons]
      tauto
    · intro f' hf'
      obtain rfl : f = f' := by simpa using hf'
      have hfp : p.getLast? ≠ some f := fun hp =>
        (List.nodup_append.mp (List.nodup_cons.mp hmid).2).2.2 f
          (List.mem_of_getLast? hp) f (by simp) rfl
      rw [hn₁, if_neg hfp]
      exact hnull
  rcases List.eq_nil_or_concat' p with rfl | ⟨p, a, rfl⟩
  · have hback : s.back = some r := h.back
    refine ⟨_, by
      simp [remove, replaceByFront, hin, hfin, hfront, hfr, hdone, hback, hrf]; rfl, ?_, ?_, ?_, ?_⟩
    · exact hchain _ rfl rfl (by simp) (by simp) (by simp)
    · simp [clearFlags, clearLinks]
    · simp [clearFlags, clearLinks]
    · simp [clearFlags, clearLinks]
  · have hra : (s.readers r).previous = some a := by
      have hl := h.linked
      rw [List.append_assoc] at hl
      exact hl.adjacent.2
    have hback : s.back ≠ some r := by
      rw [h.back]
      intro hb
      refine hr (List.mem_of_mem_head? (a := r) ?_)
      simpa [List.head?_append] using hb
    have hain := h.registered (r := a) (by simp)
    refine ⟨_, by
      simp [remove, replaceByFront, hin, hfin, hain, hfront, hfr, hdone, hback, hrf, hra]; rfl,
      ?_, ?_, ?_, ?_⟩
    · refine hchain _ hfront ?_ (by simp) (by simp [eq_comm]) (by simp [hra])
      simpa [List.head?_append] using h.back
    · simp [clearFlags, clearLinks]
    · simp [clearFlags, clearLinks]
    · simp [clearFlags, clearLinks]

/-- A reader that waits for a slot further back leaves: the front takes its place
and its slot, and the second to front becomes the front. -/
theorem remove_waiting_far {s : SyncQueue ρ E} {p m : List ρ} {r g f : ρ}
    (h : Chained s (p ++ r :: (m ++ [g, f]))) (hdone : (s.readers r).isDone = false) :
    ∃ s', remove s r = .ok s' ∧
      Relisted s s' (p ++ f :: (m ++ [g]))
        (fun x => if x = f then (s.readers r).index else (s.readers x).index)
        (fun x => if x = r then false else (s.readers x).isDone) s.readIndex := by
  have hin := h.registered (r := r) (by simp)
  have hfin := h.registered (r := f) (by simp)
  have hgin := h.registered (r := g) (by simp)
  have hfront : s.front = some f := by
    rw [h.front]
    simp [List.getLast?_append, List.getLast?_cons]
  have hmid : (p ++ r :: (m ++ [g, f])).Nodup := h.nodup
  rw [List.nodup_middle] at hmid
  have hr : r ∉ p ++ (m ++ [g, f]) := (List.nodup_cons.mp hmid).1
  have hnd : (p ++ f :: (m ++ [g])).Nodup := by
    have hperm : (p ++ (m ++ [g, f])).Perm (p ++ f :: (m ++ [g])) := by
      refine List.Perm.append_left p ?_
      simpa using (@List.perm_append_comm _ (m ++ [g]) [f])
    exact hperm.nodup_iff.mp (List.nodup_cons.mp hmid).2
  have hfr : f ≠ r := fun he => hr (by simp [he])
  obtain ⟨c, q, hcq⟩ : ∃ c q, m ++ [g] = c :: q := by
    cases m <;> simp
  have hsplit : p ++ r :: (m ++ [g, f]) = (p ++ r :: (m ++ [g])) ++ [f] := by simp
  have hcin := h.registered (r := c) (by simp [hsplit, hcq])
  have hl := h.linked
  rw [hsplit] at hl
  have hrc : (s.readers r).next = some c := by
    have hl := hl.left
    rw [hcq] at hl
    exact hl.adjacent.1
  have hfg : (s.readers f).previous = some g := by
    have hl : Linked (fun a => (s.readers a).next) (fun a => (s.readers a).previous)
        ((p ++ r :: m) ++ [g, f]) := by simpa using h.linked
    exact hl.adjacent.2
  have hdis := (List.nodup_append.mp hnd).2.2
  have hfmg := List.nodup_cons.mp (List.nodup_append.mp hnd).2.1
  have hfp : f ∉ p := fun hp => hdis f hp f (by simp) rfl
  have hgp : g ∉ p := fun hp => hdis g hp g (by simp) rfl
  have hcp : c ∉ p := fun hp => hdis c hp c (by simp [hcq]) rfl
  have hcf : c ≠ f := fun he => hfmg.1 (by simp [hcq, he])
  have hgf : g ≠ f := fun he => hfmg.1 (by simp [he])
  have hrg : r ≠ g := fun he => hr (by simp [he])
  have hrf : some c ≠ some f := by simpa using hcf
  have hchain : ∀ s₁ : SyncQueue ρ E, s₁.front = some g → s₁.back = (p ++ [f]).head? →
      (∀ x, (s₁.readers x).inQueue = (s.readers x).inQueue) →
      (∀ x, (s₁.readers x).next = if x = f then some c else
        if p.getLast? = some x then some f else if x = g then none else (s.readers x).next) →
      (∀ x, (s₁.readers x).previous = if x = c then some f else
        if x = f then (s.readers r).previous else (s.readers x).previous) →
      Chained (clearFlags (clearLinks s₁ r) r) (p ++ f :: (m ++ [g])) := by
    intro s₁ hf₁ hb₁ hin₁ hn₁ hp₁
    refine chained_clear hnd ?_ ?_ ?_ ?_ ?_ ?_
    · intro hm
      apply hr
      simp only [List.mem_append, List.mem_cons] at hm ⊢
      tauto
    · intro x
      simp only [hin₁, h.inQueue, List.mem_append, List.mem_cons]
      tauto
    · rw [hb₁]
      cases p <;> simp
    · simpa [List.getLast?_append, List.getLast?_cons] using hf₁
    · refine hl.left.replace ?_ ?_ ?_ ?_ ?_ ?_ ?_ ?_
      · intro x hx
        have hxp := List.dropLast_subset _ hx
        have hlast : p.getLast? ≠ some x := fun hlast =>
          ne_last_of_mem_dropLast (List.nodup_append.mp hnd).1 hlast hx rfl
        have hxf : x ≠ f := fun he => hfp (he ▸ hxp)
        have hxg : x ≠ g := fun he => hgp (he ▸ hxp)
        simp [hn₁, hlast, hxf, hxg]
      · intro x hx
        have hxp := List.mem_of_mem_tail hx
        have hxf : x ≠ f := fun he => hfp (he ▸ hxp)
        have hxc : x ≠ c := fun he => hcp (he ▸ hxp)
        simp [hp₁, hxf, hxc]
      · intro x hx
        have hxm := List.dropLast_subset _ hx
        have hlast : p.getLast? ≠ some x := fun hlast =>
          hdis x (List.mem_of_getLast? hlast) x (List.mem_cons_of_mem _ hxm) rfl
        have hxf : x ≠ f := fun he => hfmg.1 (he ▸ hxm)
        have hxg : x ≠ g := ne_last_of_mem_dropLast hfmg.2 (by simp) hx
        simp [hn₁, hlast, hxf, hxg]
      · intro x hx
        have hxm := List.mem_of_mem_tail hx
        have hxf : x ≠ f := fun he => hfmg.1 (he ▸ hxm)
        have hxc : x ≠ c := ne_head_of_mem_tail hfmg.2 (by simp [hcq]) hx
        simp [hp₁, hxf, hxc]
      · intro x hx
        have hxf : x ≠ f := fun he => hfp (he ▸ List.mem_of_getLast? hx)
        simp only [hn₁, if_neg hxf, if_pos (Option.mem_def.mp hx)]
      · intro x hx
        obtain rfl : c = x := by simpa [hcq] using hx
        simp [hp₁]
      · simp [hp₁, hcf.symm]
      · simp [hn₁, hrc]
    · intro f' hf'
      obtain rfl : g = f' := by
        simpa [List.getLast?_append, List.getLast?_cons] using hf'
      have hlast : p.getLast? ≠ some g := fun hp => hgp (List.mem_of_getLast? hp)
      simp [hn₁, hgf, hlast]
  rcases List.eq_nil_or_concat' p with rfl | ⟨p, a, rfl⟩
  · have hback : s.back = some r := h.back
    refine ⟨_, by
      simp [remove, replaceByFront, hin, hfin, hgin, hcin, hfront, hfr, hdone, hback, hrc, hrf, hfg,
        hrg]
      rfl, ?_, ?_, ?_, ?_⟩
    · exact hchain _ rfl rfl (by simp) (by simp) (by simp)
    · simp [clearFlags, clearLinks]
    · simp [clearFlags, clearLinks]
    · simp [clearFlags, clearLinks]
  · have hra : (s.readers r).previous = some a := by
      have hl := h.linked
      rw [List.append_assoc] at hl
      exact hl.adjacent.2
    have hback : s.back ≠ some r := by
      rw [h.back]
      intro hb
      refine hr (List.mem_append_left _ (List.mem_of_mem_head? (a := r) ?_))
      simpa [List.head?_append] using hb
    have hra' : r ≠ a := fun he => hr (by simp [he])
    have hain := h.registered (r := a) (by simp)
    refine ⟨_, by
      simp [remove, replaceByFront, hin, hfin, hgin, hcin, hain, hfront, hfr, hdone, hback, hrc,
        hrf, hfg, hrg, hra, hra']
      rfl, ?_, ?_, ?_, ?_⟩
    · refine hchain _ rfl ?_ (by simp) (by simp [eq_comm]) (by simp [hra])
      simpa [List.head?_append] using h.back
    · simp [clearFlags, clearLinks]
    · simp [clearFlags, clearLinks]
    · simp [clearFlags, clearLinks]

end SyncReaderList

end HPQueue
