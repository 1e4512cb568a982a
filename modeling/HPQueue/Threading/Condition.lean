import Mathlib.Algebra.Order.Ring.Int

/-!
# Waiting with a time limit

The deadline that `Condition::wait(mutex, nsec)` passes to `pthread_cond_timedwait`,
and the one `Worker::run` waits for.  `long`, `unsigned long` and `time_t` have 64
bits, `unsigned int` has 32.

The argument is a number of microseconds, whatever its name: whole seconds are
divided out of it by a million.  What remains is added to the nanoseconds as it is.
-/

namespace HPQueue

/-- The time, as `gettimeofday` tells it. -/
structure TimeVal where
  tv_sec : Int64
  tv_usec : Int64
  usec_nonneg : 0 ≤ tv_usec.toInt
  usec_lt : tv_usec.toInt < 1000000

structure TimeSpec where
  tv_sec : Int64
  tv_nsec : Int64

namespace Condition

/-- The deadline of the timed `wait`. -/
def timeout (now : TimeVal) (nsec : UInt64) : TimeSpec where
  tv_sec := now.tv_sec + (nsec / 1000000).toInt64
  tv_nsec := now.tv_usec * 1000 + (nsec % 1000000).toInt64

end Condition

/-- The deadline of a worker that waits for work, if it has one. -/
def Worker.timeout (now : TimeVal) (timeoutSeconds : UInt32) : Option TimeSpec :=
  if timeoutSeconds ≠ 0 then some (Condition.timeout now (timeoutSeconds * 1000000).toUInt64)
  else none

/-- In nanoseconds. -/
def TimeVal.nanos (now : TimeVal) : Int := now.tv_sec.toInt * 1000000000 + now.tv_usec.toInt * 1000

def TimeSpec.nanos (deadline : TimeSpec) : Int :=
  deadline.tv_sec.toInt * 1000000000 + deadline.tv_nsec.toInt

/-- The deadline is well-formed, and the interval, in microseconds, after `now`. -/
structure IsDeadline (now : TimeVal) (interval : Nat) (deadline : TimeSpec) : Prop where
  nsec_nonneg : 0 ≤ deadline.tv_nsec.toInt
  nsec_lt : deadline.tv_nsec.toInt < 1000000000
  nanos : deadline.nanos = now.nanos + interval * 1000

namespace Condition

theorem toInt_toInt64 {u : UInt64} (hu : u.toNat < 2 ^ 63) : u.toInt64.toInt = u.toNat := by
  have hsmall : 2 * u.toBitVec.toNat < 2 ^ 64 := by
    change u.toBitVec.toNat < 2 ^ 63 at hu
    omega
  exact BitVec.toInt_eq_toNat_of_lt hsmall

/-- The nanoseconds do not wrap; they may be too many. -/
theorem toInt_tv_nsec (now : TimeVal) (nsec : UInt64) :
    (timeout now nsec).tv_nsec.toInt =
      now.tv_usec.toInt * 1000 + ((nsec.toNat % 1000000 : Nat) : Int) := by
  have hlow := now.usec_nonneg
  have hhigh := now.usec_lt
  have hrest : ((nsec % 1000000).toInt64.toInt : Int) = ((nsec.toNat % 1000000 : Nat) : Int) := by
    have hmod : (nsec % 1000000).toNat = nsec.toNat % 1000000 := UInt64.toNat_mod _ _
    rw [toInt_toInt64 (by rw [hmod]; omega), hmod]
  have hproduct : (now.tv_usec * 1000).toInt = now.tv_usec.toInt * 1000 := by
    rw [Int64.toInt_mul]
    exact Int.bmod_eq_of_le (by show _ ≤ now.tv_usec.toInt * 1000; omega)
      (by show now.tv_usec.toInt * 1000 < _; omega)
  show (now.tv_usec * 1000 + (nsec % 1000000).toInt64).toInt = _
  rw [Int64.toInt_add, hproduct, hrest]
  exact Int.bmod_eq_of_le (by omega) (by omega)

/-- The seconds, which wrap where they leave `time_t`. -/
theorem toInt_tv_sec (now : TimeVal) (nsec : UInt64) :
    (timeout now nsec).tv_sec.toInt =
      Int.bmod (now.tv_sec.toInt + ((nsec.toNat / 1000000 : Nat) : Int)) (2 ^ 64) := by
  have hdiv : (nsec / 1000000).toNat = nsec.toNat / 1000000 := UInt64.toNat_div _ _
  have hlt := nsec.toNat_lt
  have hquotient :
      ((nsec / 1000000).toInt64.toInt : Int) = ((nsec.toNat / 1000000 : Nat) : Int) := by
    rw [toInt_toInt64 (by rw [hdiv]; omega), hdiv]
  show (now.tv_sec + (nsec / 1000000).toInt64).toInt = _
  rw [Int64.toInt_add, hquotient]

theorem bmod_sec {x : Int} (hlow : -2 ^ 63 ≤ x) (hhigh : x < 2 ^ 64) :
    Int.bmod x (2 ^ 64) = if x < 2 ^ 63 then x else x - 2 ^ 64 := by
  simp only [Int.bmod]
  split <;> split <;> omega

/-- What it takes for the deadline to be so many microseconds after `now`. -/
theorem isDeadline_timeout_iff (now : TimeVal) (nsec : UInt64) {interval : Nat}
    (hinterval : interval < 2 ^ 64) :
    IsDeadline now interval (timeout now nsec) ↔
      nsec.toNat / 1000000 * 1000000000 + nsec.toNat % 1000000 = interval * 1000 ∧
        now.tv_usec.toInt * 1000 + ((nsec.toNat % 1000000 : Nat) : Int) < 1000000000 ∧
        now.tv_sec.toInt + ((nsec.toNat / 1000000 : Nat) : Int) < 2 ^ 63 := by
  have hnsec := toInt_tv_nsec now nsec
  have hsec := toInt_tv_sec now nsec
  have hlow := now.usec_nonneg
  have hmin := now.tv_sec.le_toInt
  have hmax := now.tv_sec.toInt_lt
  have hlt := nsec.toNat_lt
  rw [bmod_sec (by omega) (by omega)] at hsec
  have hrest : 0 ≤ nsec.toNat % 1000000 ∧ nsec.toNat % 1000000 < 1000000 := by omega
  have hquotient : nsec.toNat / 1000000 < 2 ^ 45 := by omega
  generalize nsec.toNat % 1000000 = rest at *
  generalize nsec.toNat / 1000000 = quotient at *
  constructor
  · rintro ⟨-, hbelow, hnanos⟩
    unfold TimeSpec.nanos TimeVal.nanos at hnanos
    rw [hsec, hnsec] at hnanos
    by_cases hfits : now.tv_sec.toInt + (quotient : Int) < 2 ^ 63
    · rw [if_pos hfits] at hnanos
      omega
    · -- Seconds that wrapped are before `now`.
      rw [if_neg hfits] at hnanos
      omega
  · rintro ⟨hsum, hbelow, hfits⟩
    rw [if_pos hfits] at hsec
    refine ⟨by omega, by omega, ?_⟩
    unfold TimeSpec.nanos TimeVal.nanos
    rw [hsec, hnsec]
    omega

/-- The deadline of the timed `wait` is right exactly for whole seconds. -/
theorem isDeadline_iff (now : TimeVal) (nsec : UInt64) :
    IsDeadline now nsec.toNat (timeout now nsec) ↔
      nsec.toNat % 1000000 = 0 ∧
        now.tv_sec.toInt + ((nsec.toNat / 1000000 : Nat) : Int) < 2 ^ 63 := by
  have hhigh := now.usec_lt
  have hlt := nsec.toNat_lt
  rw [isDeadline_timeout_iff now nsec hlt]
  constructor <;> intro h <;> omega

end Condition

namespace Worker

theorem toNat_micros (timeoutSeconds : UInt32) :
    (timeoutSeconds * 1000000).toUInt64.toNat = timeoutSeconds.toNat * 1000000 % 2 ^ 32 := by
  rw [UInt32.toNat_toUInt64, UInt32.toNat_mul]
  rfl

theorem whole_seconds_iff (t p : Nat) :
    p / 1000000 * 1000000000 + p % 1000000 = t * 1000000 * 1000 ↔ p = t * 1000000 := by
  constructor <;> intro h <;> omega

/-- A product that wrapped is too small. -/
theorem mod_eq_self_iff (t : Nat) : t * 1000000 % 2 ^ 32 = t * 1000000 ↔ t * 1000000 < 2 ^ 32 := by
  constructor
  · intro h
    rw [← h]
    exact Nat.mod_lt _ (Nat.two_pow_pos 32)
  · exact Nat.mod_eq_of_lt

/-- That of a worker is right exactly if its microseconds fit `unsigned int`. -/
theorem isDeadline_iff (now : TimeVal) (timeoutSeconds : UInt32) :
    IsDeadline now (timeoutSeconds.toNat * 1000000)
        (Condition.timeout now (timeoutSeconds * 1000000).toUInt64) ↔
      timeoutSeconds.toNat * 1000000 < 2 ^ 32 ∧
        now.tv_sec.toInt + (timeoutSeconds.toNat : Int) < 2 ^ 63 := by
  have hhigh := now.usec_lt
  have hlt := timeoutSeconds.toNat_lt
  have hmicros := toNat_micros timeoutSeconds
  rw [Condition.isDeadline_timeout_iff now _ (by omega), whole_seconds_iff, hmicros,
    mod_eq_self_iff]
  constructor
  · rintro ⟨hfits, -, hsec⟩
    rw [Nat.mod_eq_of_lt hfits, Nat.mul_div_cancel _ (by decide)] at hsec
    exact ⟨hfits, hsec⟩
  · rintro ⟨hfits, hsec⟩
    rw [Nat.mod_eq_of_lt hfits, Nat.mul_mod_left, Nat.mul_div_cancel _ (by decide)]
    exact ⟨hfits, by omega, hsec⟩

end Worker

/-- The deadlines of workers and of timed waits, and when they are right. -/
theorem deadlines_iff (now : TimeVal) :
    (∀ timeoutSeconds : UInt32, 0 < timeoutSeconds →
      ((∃ deadline, Worker.timeout now timeoutSeconds = some deadline ∧
          IsDeadline now (timeoutSeconds.toNat * 1000000) deadline) ↔
        timeoutSeconds.toNat * 1000000 < 2 ^ 32 ∧
          now.tv_sec.toInt + (timeoutSeconds.toNat : Int) < 2 ^ 63)) ∧
    ∀ nsec : UInt64,
      IsDeadline now nsec.toNat (Condition.timeout now nsec) ↔
        nsec.toNat % 1000000 = 0 ∧
          now.tv_sec.toInt + ((nsec.toNat / 1000000 : Nat) : Int) < 2 ^ 63 := by
  refine ⟨?_, Condition.isDeadline_iff now⟩
  intro timeoutSeconds hpos
  have hne : timeoutSeconds ≠ 0 := by
    rintro rfl
    exact absurd hpos (by decide)
  unfold Worker.timeout
  rw [if_pos hne, ← Worker.isDeadline_iff now]
  simp

/-- At time 0, neither a limit of 4295 seconds nor a wait of one microsecond. -/
theorem not_isDeadline_epoch :
    let epoch : TimeVal := ⟨0, 0, by decide, by decide⟩
    (¬ ∃ deadline, Worker.timeout epoch 4295 = some deadline ∧
        IsDeadline epoch ((4295 : UInt32).toNat * 1000000) deadline) ∧
      ¬ IsDeadline epoch (1 : UInt64).toNat (Condition.timeout epoch 1) := by
  constructor
  · rintro ⟨deadline, hdeadline, hright⟩
    obtain rfl := Option.some.inj hdeadline
    exact absurd hright.nanos (by decide)
  · intro hright
    exact absurd hright.nanos (by decide)

end HPQueue
