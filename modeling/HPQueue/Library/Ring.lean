import Mathlib.Data.Int.ModEq
import Mathlib.Tactic.Ring
import Mathlib.Tactic.Linarith

/-!
# Sequence numbers on a ring of slots

A circular buffer numbers its cells `0, 1, …, n - 1` and reuses them, while its
specification numbers the events `0, 1, 2, …` and never reuses a number.  This
module is the bridge: `slot n off t` is the cell of sequence number `t`, and
every comparison a circular buffer makes is a comparison of sequence numbers as
long as all of them lie within one lap of a common base.

The offset `off` is `0` for a buffer that never changes its size.  A buffer that
grows renumbers its cells, and the offset absorbs the renumbering.

## Main results

* `slot_succ` — stepping to the next cell is stepping to the next number.
* `unwrap_slot` — unwrapping a cell against a base cell recovers the distance
  between their sequence numbers.
* `slot_inj` — within one lap, different numbers occupy different cells.
-/

namespace HPQueue.Library.Ring

/-- The cell of sequence number `t` on a ring of `n` cells. -/
def slot (n : Nat) (off : Int) (t : Nat) : Int := ((t : Int) + off) % n

/-- Unwrapping: a cell below the base belongs to the next lap. -/
def unwrap (n : Nat) (base i : Int) : Int := if i < base then i + n else i

variable {n : Nat} (off : Int)

theorem slot_nonneg (hn : 0 < n) (t : Nat) : 0 ≤ slot n off t :=
  Int.emod_nonneg _ (by omega)

theorem slot_lt (hn : 0 < n) (t : Nat) : slot n off t < n :=
  Int.emod_lt_of_pos _ (by omega)

@[simp] theorem slot_zero_offset (t : Nat) : slot n 0 t = ((t % n : Nat) : Int) := by
  simp [slot]

/-- Stepping to the next cell is stepping to the next sequence number. -/
theorem slot_succ (t : Nat) : (slot n off t + 1) % n = slot n off (t + 1) := by
  unfold slot
  rw [Int.emod_add_emod]
  congr 1
  push_cast
  ring

theorem slot_succ_of_lt (hn : 0 < n) {t : Nat} (h : slot n off t + 1 < n) :
    slot n off (t + 1) = slot n off t + 1 := by
  have h0 := slot_nonneg off hn t
  rw [← slot_succ, Int.emod_eq_of_lt (by omega) h]

/-- One lap later the same cell comes round again. -/
theorem slot_add_lap (t : Nat) : slot n off (t + n) = slot n off t := by
  unfold slot
  have h : ((t + n : Nat) : Int) + off = (t + off) + n := by
    push_cast
    ring
  rw [h, Int.add_emod_right]

/-- Within one lap of `r`, the cell of `t` is either `t - r` cells above the
cell of `r` or has wrapped past the end of the ring. -/
theorem slot_eq_or_wrapped (hn : 0 < n) {r t : Nat} (hrt : r ≤ t) (htn : t < r + n) :
    (slot n off t = slot n off r + (t - r) ∧ slot n off r + (t - r) < n) ∨
      (slot n off t = slot n off r + (t - r) - n ∧
        (n : Int) ≤ slot n off r + (t - r)) := by
  have hr0 := slot_nonneg off hn r
  have hrn := slot_lt off hn r
  have hstep : slot n off t = (slot n off r + (t - r)) % n := by
    unfold slot
    rw [Int.emod_add_emod]
    congr 1
    ring
  rcases Int.lt_or_le (slot n off r + (t - r)) n with hlt | hge
  · left
    refine ⟨?_, hlt⟩
    rw [hstep, Int.emod_eq_of_lt (by omega) hlt]
  · right
    refine ⟨?_, hge⟩
    rw [hstep, ← Int.sub_emod_right, Int.emod_eq_of_lt (by omega) (by omega)]

/-- Unwrapping the cell of `t` against the cell of `r` recovers how far `t` is
ahead of `r`. -/
theorem unwrap_slot (hn : 0 < n) {r t : Nat} (hrt : r ≤ t) (htn : t < r + n) :
    unwrap n (slot n off r) (slot n off t) = slot n off r + (t - r) := by
  have ht0 := slot_nonneg off hn t
  have hrn := slot_lt off hn r
  unfold unwrap
  rcases slot_eq_or_wrapped off hn hrt htn with ⟨heq, _⟩ | ⟨heq, _⟩
  · rw [if_neg (by omega)]
    exact heq
  · rw [if_pos (by omega)]
    omega

/-- Within one lap, different sequence numbers occupy different cells. -/
theorem slot_inj (hn : 0 < n) {r t u : Nat} (hrt : r ≤ t) (htn : t < r + n)
    (hru : r ≤ u) (hun : u < r + n) : slot n off t = slot n off u ↔ t = u := by
  constructor
  · intro h
    have ht := unwrap_slot off hn hrt htn
    have hu := unwrap_slot off hn hru hun
    rw [h, hu] at ht
    omega
  · rintro rfl
    rfl

/-- Comparing unwrapped cells compares sequence numbers. -/
theorem unwrap_slot_le_iff (hn : 0 < n) {r t u : Nat} (hrt : r ≤ t)
    (htn : t < r + n) (hru : r ≤ u) (hun : u < r + n) :
    unwrap n (slot n off r) (slot n off t) ≤ unwrap n (slot n off r) (slot n off u) ↔
      t ≤ u := by
  rw [unwrap_slot off hn hrt htn, unwrap_slot off hn hru hun]
  omega

/-- The comparison comes out the same if the next lap is put further away than it is. -/
theorem unwrap_slot_lt_iff {m : Nat} (hn : 0 < n) (hnm : n ≤ m) {r t u : Nat} (hrt : r ≤ t)
    (htn : t < r + n) (hru : r ≤ u) (hun : u < r + n) :
    unwrap m (slot n off r) (slot n off t) < unwrap m (slot n off r) (slot n off u) ↔
      t < u := by
  have ht0 := slot_nonneg off hn t
  have hu0 := slot_nonneg off hn u
  have htlt := slot_lt off hn t
  have hult := slot_lt off hn u
  have hrlt := slot_lt off hn r
  unfold unwrap
  rcases slot_eq_or_wrapped off hn hrt htn with ⟨ht, -⟩ | ⟨ht, -⟩ <;>
    rcases slot_eq_or_wrapped off hn hru hun with ⟨hu, -⟩ | ⟨hu, -⟩
  · rw [if_neg (by omega), if_neg (by omega)]
    omega
  · rw [if_neg (by omega), if_pos (by omega)]
    omega
  · rw [if_pos (by omega), if_neg (by omega)]
    omega
  · rw [if_pos (by omega), if_pos (by omega)]
    omega

/-- The cell after the cell of `t` is the cell of `u` exactly when `u` is the
next number, or the number one lap below it. -/
theorem slot_succ_eq_iff (hn : 0 < n) {r t u : Nat} (hrt : r ≤ t) (htn : t < r + n)
    (hru : r ≤ u) (hun : u < r + n) :
    (slot n off t + 1) % n = slot n off u ↔ t + 1 = u ∨ t + 1 = u + n := by
  rw [slot_succ]
  constructor
  · intro h
    rcases Nat.lt_or_ge (t + 1) (r + n) with hlt | hge
    · left
      exact (slot_inj off hn (by omega) hlt hru hun).mp h
    · right
      have hlap : t + 1 = r + n := by omega
      rw [hlap, slot_add_lap] at h
      have hur := (slot_inj off hn (Nat.le_refl r) (by omega) hru hun).mp h
      omega
  · rintro (rfl | h)
    · rfl
    · rw [h, slot_add_lap]

/-- How far `t` is ahead of `r`, counted in cells. -/
theorem slot_sub_emod {r t : Nat} (hrt : r ≤ t) (htn : t < r + n) :
    (slot n off t - slot n off r) % n = (t : Int) - r := by
  unfold slot
  rw [Int.emod_sub_emod, Int.sub_emod_emod, Int.emod_eq_of_lt (by omega) (by omega)]
  ring

/-- The offset of a ring of `m` cells that keeps the cell of `w` where it is on a
ring of `n`. -/
def regrow (n : Nat) (off : Int) (w : Nat) : Int := slot n off w - w

variable {m : Nat}

theorem slot_regrow (t w : Nat) :
    slot m (regrow n off w) t = (slot n off w + (t - w)) % m := by
  rw [regrow]
  generalize slot n off w = c
  unfold slot
  congr 1
  ring

theorem slot_regrow_self (hn : 0 < n) (hnm : n ≤ m) (w : Nat) :
    slot m (regrow n off w) w = slot n off w := by
  have h0 := slot_nonneg off hn w
  have hlt := slot_lt off hn w
  rw [slot_regrow, Int.sub_self, Int.add_zero, Int.emod_eq_of_lt h0 (by omega)]

/-- When the ring is cut after the cell of `w`, the cells above it move to the end
of the larger ring and those below it stay. -/
theorem slot_regrow_of_lt (hn : 0 < n) (hnm : n ≤ m) {t w : Nat} (htw : t < w)
    (hwn : w < t + n) : slot m (regrow n off w) t =
      if slot n off w < slot n off t then slot n off t + (m - n) else slot n off t := by
  have hw0 := slot_nonneg off hn w
  have hwlt := slot_lt off hn w
  have ht0 := slot_nonneg off hn t
  have htlt := slot_lt off hn t
  have hlap : slot m (regrow n off w) t = (slot n off w + (t - w) + m) % m := by
    rw [slot_regrow, Int.add_emod_right]
  rcases slot_eq_or_wrapped off hn (Nat.le_of_lt htw) hwn with ⟨heq, -⟩ | ⟨heq, -⟩
  · rw [if_neg (by omega), slot_regrow, Int.emod_eq_of_lt (by omega) (by omega)]
    omega
  · rw [if_pos (by omega), hlap, Int.emod_eq_of_lt (by omega) (by omega)]
    omega

/-- A cell that `w` has yet to reach keeps its number, unless it lies below the cut. -/
theorem slot_regrow_of_le (hn : 0 < n) (hnm : n ≤ m) {t w : Nat} (hwt : w ≤ t)
    (htn : t < w + n) (hcut : slot n off w ≤ slot n off t) :
    slot m (regrow n off w) t = slot n off t := by
  have hw0 := slot_nonneg off hn w
  have htlt := slot_lt off hn t
  rcases slot_eq_or_wrapped off hn hwt htn with ⟨heq, -⟩ | ⟨heq, -⟩
  · rw [slot_regrow, Int.emod_eq_of_lt (by omega) (by omega), heq]
  · omega

end HPQueue.Library.Ring
