import Mathlib.Data.List.Chain
import Mathlib.Data.List.Nodup

/-!
# Doubly linked chains

A doubly linked list lives in memory as two pointer maps, `next` and `previous`.
`Linked next previous l` says that the nodes of `l` point at each other in the
order of `l`.  The pointers at the two ends are left free: what they hold (a
null pointer, a stale one, the node itself) is the business of the list's owner.

Each lemma below is the pointer half of one list operation.  It takes the maps
after the operation as they are, and asks of them only the pointers the
operation must have set and those it must have left alone.

## Main results

* `Linked.unlink` — a node is taken out and its neighbours are joined.
* `Linked.snoc` — a node is appended.
* `Linked.insert` — a node is put between two neighbours.
* `Linked.replace` — a node takes the place of another.
-/

namespace HPQueue.Library.LinkedChain

variable {α : Type}

/-- The nodes of `l` are doubly linked in order. -/
def Linked (next previous : α → Option α) (l : List α) : Prop :=
  l.IsChain fun a b => next a = some b ∧ previous b = some a

variable {next previous next' previous' : α → Option α}

@[simp] theorem linked_nil : Linked next previous [] := List.isChain_nil

@[simp] theorem linked_singleton (a : α) : Linked next previous [a] :=
  List.isChain_singleton a

/-- In a list without repetition the last node occurs nowhere else. -/
theorem ne_last_of_mem_dropLast {l : List α} {f x : α} (hnd : l.Nodup)
    (hf : l.getLast? = some f) (hx : x ∈ l.dropLast) : x ≠ f := by
  obtain ⟨m, rfl⟩ : ∃ m, l = m ++ [f] := List.getLast?_eq_some_iff.mp hf
  rintro rfl
  exact (List.nodup_append.mp hnd).2.2 x (by simpa using hx) x (by simp) rfl

/-- In a list without repetition the first node occurs nowhere else. -/
theorem ne_head_of_mem_tail {l : List α} {b x : α} (hnd : l.Nodup)
    (hb : l.head? = some b) (hx : x ∈ l.tail) : x ≠ b := by
  obtain ⟨m, rfl⟩ : ∃ m, l = b :: m := List.head?_eq_some_iff.mp hb
  rintro rfl
  exact (List.nodup_cons.mp hnd).1 hx

/-- Two chains joined: each is a chain, and the ends that meet are linked. -/
theorem linked_append {l m : List α} :
    Linked next previous (l ++ m) ↔
      Linked next previous l ∧ Linked next previous m ∧
        ∀ a ∈ l.getLast?, ∀ b ∈ m.head?, next a = some b ∧ previous b = some a :=
  List.isChain_append

theorem Linked.left {l m : List α} (h : Linked next previous (l ++ m)) :
    Linked next previous l := (linked_append.mp h).1

theorem Linked.right {l m : List α} (h : Linked next previous (l ++ m)) :
    Linked next previous m := (linked_append.mp h).2.1

/-- Neighbours point at each other. -/
theorem Linked.adjacent {l m : List α} {a b : α}
    (h : Linked next previous (l ++ a :: b :: m)) :
    next a = some b ∧ previous b = some a :=
  (List.isChain_cons_cons.mp h.right).1

theorem Linked.adjacent_cons {m : List α} {a b : α}
    (h : Linked next previous (a :: b :: m)) :
    next a = some b ∧ previous b = some a := (List.isChain_cons_cons.mp h).1

theorem Linked.right_cons {m : List α} {a : α} (h : Linked next previous (a :: m)) :
    Linked next previous m := h.tail

/-- A chain survives any change of the pointers that lead out of its ends. -/
theorem Linked.congr {l : List α} (h : Linked next previous l)
    (hnext : ∀ a ∈ l.dropLast, next' a = next a)
    (hprevious : ∀ b ∈ l.tail, previous' b = previous b) :
    Linked next' previous' l := by
  induction l with
  | nil => exact linked_nil
  | cons a l ih =>
      cases l with
      | nil => exact linked_singleton a
      | cons b l =>
          obtain ⟨hab, htail⟩ := List.isChain_cons_cons.mp h
          refine List.isChain_cons_cons.mpr ⟨?_, ih htail ?_ ?_⟩
          · rw [hnext a (by simp), hprevious b (by simp)]
            exact hab
          · intro c hc
            exact hnext c (by simp [hc])
          · intro c hc
            exact hprevious c (by simpa using Or.inr hc)

/-- Taking out `r` leaves a chain, if its neighbours now point where `r` did. -/
theorem Linked.unlink {p q : List α} {r : α}
    (h : Linked next previous (p ++ r :: q))
    (hnextp : ∀ a ∈ p.dropLast, next' a = next a)
    (hprevp : ∀ b ∈ p.tail, previous' b = previous b)
    (hnextq : ∀ a ∈ q.dropLast, next' a = next a)
    (hprevq : ∀ b ∈ q.tail, previous' b = previous b)
    (hlast : ∀ a ∈ p.getLast?, next' a = next r)
    (hhead : ∀ b ∈ q.head?, previous' b = previous r) :
    Linked next' previous' (p ++ q) := by
  obtain ⟨hp, hrq, hjoin⟩ := linked_append.mp h
  have hq : Linked next previous q := hrq.right_cons
  refine linked_append.mpr ⟨hp.congr hnextp hprevp, hq.congr hnextq hprevq, ?_⟩
  intro a ha b hb
  have har : previous r = some a := (hjoin a ha r rfl).2
  have hrb : next r = some b := by
    cases q with
    | nil => simp at hb
    | cons c q =>
        obtain rfl : c = b := by simpa using hb
        exact (hrq.adjacent_cons).1
  exact ⟨(hlast a ha).trans hrb, (hhead b hb).trans har⟩

/-- Appending `r` to a chain whose last node now points at it. -/
theorem Linked.snoc {l : List α} {r : α} (h : Linked next previous l)
    (hnext : ∀ a ∈ l.dropLast, next' a = next a)
    (hprevious : ∀ b ∈ l.tail, previous' b = previous b)
    (hjoin : ∀ a ∈ l.getLast?, next' a = some r ∧ previous' r = some a) :
    Linked next' previous' (l ++ [r]) := by
  refine linked_append.mpr ⟨h.congr hnext hprevious, linked_singleton r, ?_⟩
  intro a ha b hb
  obtain rfl : r = b := by simpa using hb
  exact hjoin a ha

/-- Putting `r` between the neighbours `g` and `f`. -/
theorem Linked.insert {p q : List α} {g f r : α}
    (h : Linked next previous (p ++ g :: f :: q))
    (hnextp : ∀ a ∈ p, next' a = next a)
    (hprevp : ∀ b ∈ (p ++ [g]).tail, previous' b = previous b)
    (hnextq : ∀ a ∈ (f :: q).dropLast, next' a = next a)
    (hprevq : ∀ b ∈ q, previous' b = previous b)
    (hg : next' g = some r) (hr : previous' r = some g)
    (hr' : next' r = some f) (hf : previous' f = some r) :
    Linked next' previous' (p ++ g :: r :: f :: q) := by
  have hsplit : p ++ g :: f :: q = (p ++ [g]) ++ f :: q := by simp
  rw [hsplit] at h
  obtain ⟨hpg, hfq, -⟩ := linked_append.mp h
  have hleft : Linked next' previous' (p ++ [g]) :=
    hpg.congr (by simpa using hnextp) hprevp
  have hright : Linked next' previous' (f :: q) :=
    hfq.congr hnextq (by simpa using hprevq)
  have hgoal : p ++ g :: r :: f :: q = (p ++ [g]) ++ r :: f :: q := by simp
  rw [hgoal]
  refine linked_append.mpr ⟨hleft, List.isChain_cons_cons.mpr ⟨⟨hr', hf⟩, hright⟩, ?_⟩
  intro a ha b hb
  obtain rfl : g = a := by simpa using ha
  obtain rfl : r = b := by simpa using hb
  exact ⟨hg, hr⟩

/-- The node `f` takes the place of `r`. -/
theorem Linked.replace {p q : List α} {r f : α}
    (h : Linked next previous (p ++ r :: q))
    (hnextp : ∀ a ∈ p.dropLast, next' a = next a)
    (hprevp : ∀ b ∈ p.tail, previous' b = previous b)
    (hnextq : ∀ a ∈ q.dropLast, next' a = next a)
    (hprevq : ∀ b ∈ q.tail, previous' b = previous b)
    (hlast : ∀ a ∈ p.getLast?, next' a = some f)
    (hhead : ∀ b ∈ q.head?, previous' b = some f)
    (hfp : previous' f = previous r) (hfn : next' f = next r) :
    Linked next' previous' (p ++ f :: q) := by
  obtain ⟨hp, hrq, hjoin⟩ := linked_append.mp h
  have hq : Linked next previous q := hrq.right_cons
  have hfq : Linked next' previous' (f :: q) := by
    cases q with
    | nil => exact linked_singleton f
    | cons c q =>
        have hrc : next r = some c := (hrq.adjacent_cons).1
        exact List.isChain_cons_cons.mpr
          ⟨⟨hfn.trans hrc, hhead c rfl⟩, hq.congr hnextq hprevq⟩
  refine linked_append.mpr ⟨hp.congr hnextp hprevp, hfq, ?_⟩
  intro a ha b hb
  obtain rfl : f = b := by simpa using hb
  exact ⟨hlast a ha, hfp.trans (hjoin a ha r rfl).2⟩

end HPQueue.Library.LinkedChain
