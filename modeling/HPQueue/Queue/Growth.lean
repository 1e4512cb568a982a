import HPQueue.Queue.ListShape
import Mathlib.Order.Iterate

/-!
# Growth, in machine arithmetic

The sizes of a queue that is resized again and again, and the index arithmetic at
each of them, in the types of the source: indices are `int`, sizes are `unsigned
int`, and an expression that mixes the two is `unsigned`.  No size exceeds
`MAX_QUEUE_SIZE`, whose 500 MiB are below a quarter of what 32 bits hold; so nothing
wraps, and the indices are those of the other modules.
-/

namespace HPQueue

/-! ## The source's arithmetic -/

/-- `MAX_QUEUE_SIZE`. -/
def MAX_QUEUE_SIZE32 (entrySize : UInt32) : UInt32 := 500 * 1024 * 1024 / entrySize

def nextIndex32 (index : Int32) (currentSize : UInt32) : Int32 :=
  ((index + 1).toUInt32 % currentSize).toInt32

def adjustIndexForComparison32 (currentSize : UInt32) (index readIndex : Int32) : Int32 :=
  (if index < readIndex then index.toUInt32 + currentSize else index.toUInt32).toInt32

/-- The `adjustment` of `resize`. -/
def adjustment32 (size currentSize : UInt32) : Int32 :=
  let oldSize := currentSize.toInt32
  (size - oldSize.toUInt32).toInt32

def getNewQueueSize32 (currentSize entrySize : UInt32) : UInt32 :=
  let newSize := if currentSize ≥ 4294967295 / 2 then 4294967295 else currentSize * 2
  let maxSize := MAX_QUEUE_SIZE32 entrySize
  if newSize > maxSize then maxSize else newSize

/-- `ProcessorQueueAdder::isMaxSize`. -/
def isMaxSize32 (currentSize entrySize : UInt32) : Bool :=
  currentSize ≥ MAX_QUEUE_SIZE32 entrySize

/-- The size after `ProcessorQueueAdder::resize`. -/
def grow (entrySize currentSize : UInt32) : UInt32 :=
  let size := getNewQueueSize32 currentSize entrySize
  if currentSize ≥ size then currentSize else size

/-! ## Nothing wraps -/

/-- The slots of a queue of the given size. -/
def InRange (currentSize : UInt32) (index : Int32) : Prop :=
  0 ≤ index.toInt ∧ index.toInt < currentSize.toNat

/-- In a queue of `oldSize` slots that is resized to `size`, the machine computes what
whole numbers do. -/
structure Exact (oldSize size : UInt32) : Prop where
  doubled : (oldSize * 2).toNat = oldSize.toNat * 2
  next : ∀ {index : Int32}, InRange oldSize index →
    (index + 1).toInt = index.toInt + 1 ∧
      (nextIndex32 index oldSize).toInt = nextIndex index.toInt oldSize.toNat
  compared : ∀ {index readIndex : Int32}, InRange oldSize index → InRange oldSize readIndex →
    (index.toUInt32 + oldSize).toNat = index.toInt + oldSize.toNat ∧
      (adjustIndexForComparison32 oldSize index readIndex).toInt =
        adjustIndexForComparison oldSize.toNat index.toInt readIndex.toInt
  adjustment : (adjustment32 size oldSize).toInt = (size.toNat : Int) - oldSize.toNat
  moved : ∀ {index : Int32}, InRange oldSize index →
    (index + adjustment32 size oldSize).toInt =
        index.toInt + ((size.toNat : Int) - oldSize.toNat) ∧
      InRange size (index + adjustment32 size oldSize)

theorem toNat_MAX_QUEUE_SIZE32 (entrySize : UInt32) :
    (MAX_QUEUE_SIZE32 entrySize).toNat = MAX_QUEUE_SIZE entrySize.toNat := by
  unfold MAX_QUEUE_SIZE32 MAX_QUEUE_SIZE
  rw [UInt32.toNat_div]
  rfl

/-- The largest queue leaves an `int` room for an index of twice its size. -/
theorem toNat_MAX_QUEUE_SIZE32_le (entrySize : UInt32) :
    (MAX_QUEUE_SIZE32 entrySize).toNat ≤ 524288000 := by
  rw [toNat_MAX_QUEUE_SIZE32]
  exact Nat.div_le_self _ _

theorem toInt_toInt32 {u : UInt32} (hu : u.toNat < 2 ^ 31) : u.toInt32.toInt = u.toNat := by
  have hsmall : 2 * u.toBitVec.toNat < 2 ^ 32 := by
    change u.toBitVec.toNat < 2 ^ 31 at hu
    omega
  exact BitVec.toInt_eq_toNat_of_lt hsmall

theorem toNat_toUInt32 {i : Int32} (hi : 0 ≤ i.toInt) : (i.toUInt32.toNat : Int) = i.toInt := by
  change 0 ≤ i.toBitVec.toInt at hi
  show (i.toBitVec.toNat : Int) = i.toBitVec.toInt
  rw [BitVec.toInt_eq_toNat_cond] at hi ⊢
  split at hi <;> split <;> omega

theorem toInt_add {i j : Int32} (hlow : -2 ^ 31 ≤ i.toInt + j.toInt)
    (hhigh : i.toInt + j.toInt < 2 ^ 31) : (i + j).toInt = i.toInt + j.toInt := by
  rw [Int32.toInt_add]
  exact Int.bmod_eq_of_le hlow hhigh

theorem toNat_add {u v : UInt32} (h : u.toNat + v.toNat < 2 ^ 32) :
    (u + v).toNat = u.toNat + v.toNat := by
  rw [UInt32.toNat_add]
  exact Nat.mod_eq_of_lt h

variable {oldSize size : UInt32}

theorem toInt_succ {index : Int32} (hsize : oldSize.toNat ≤ 524288000)
    (hindex : InRange oldSize index) : (index + 1).toInt = index.toInt + 1 := by
  have hone : (1 : Int32).toInt = 1 := rfl
  rw [← hone]
  apply toInt_add <;> rw [hone] <;> have h := hindex <;> unfold InRange at h <;> omega

theorem toInt_nextIndex32 {index : Int32} (hsize : oldSize.toNat ≤ 524288000)
    (hindex : InRange oldSize index) :
    (nextIndex32 index oldSize).toInt = nextIndex index.toInt oldSize.toNat := by
  have hsucc := toInt_succ hsize hindex
  have hnonneg : 0 ≤ (index + 1).toInt := by
    rw [hsucc]
    have h := hindex.1
    omega
  have hmod : (((index + 1).toUInt32 % oldSize).toNat : Int) =
      (index.toInt + 1) % (oldSize.toNat : Int) := by
    rw [UInt32.toNat_mod, Int.natCast_emod, toNat_toUInt32 hnonneg, hsucc]
  have hpos : 0 < oldSize.toNat := by
    have h := hindex
    unfold InRange at h
    omega
  have hlt : ((index + 1).toUInt32 % oldSize).toNat < oldSize.toNat := by
    rw [UInt32.toNat_mod]
    exact Nat.mod_lt _ hpos
  unfold nextIndex32 nextIndex
  rw [toInt_toInt32 (by omega), hmod]

theorem toNat_toUInt32_add {index : Int32} (hsize : oldSize.toNat ≤ 524288000)
    (hindex : InRange oldSize index) :
    ((index.toUInt32 + oldSize).toNat : Int) = index.toInt + oldSize.toNat := by
  have hcast := toNat_toUInt32 hindex.1
  have hlt := hindex.2
  rw [toNat_add (by omega)]
  omega

theorem toInt_adjustIndexForComparison32 {index readIndex : Int32}
    (hsize : oldSize.toNat ≤ 524288000) (hindex : InRange oldSize index) :
    (adjustIndexForComparison32 oldSize index readIndex).toInt =
      adjustIndexForComparison oldSize.toNat index.toInt readIndex.toInt := by
  have hcast := toNat_toUInt32 hindex.1
  have hsum := toNat_toUInt32_add hsize hindex
  have hlt := hindex.2
  unfold adjustIndexForComparison32 adjustIndexForComparison
  by_cases hbehind : index < readIndex
  · rw [if_pos hbehind, if_pos (Int32.lt_iff_toInt_lt.mp hbehind), toInt_toInt32 (by omega)]
    exact hsum
  · rw [if_neg hbehind, if_neg (fun h => hbehind (Int32.lt_iff_toInt_lt.mpr h)),
      toInt_toInt32 (by omega)]
    exact hcast

theorem toInt_adjustment32 (hle : oldSize.toNat ≤ size.toNat) (hsize : size.toNat ≤ 524288000) :
    (adjustment32 size oldSize).toInt = (size.toNat : Int) - oldSize.toNat := by
  have hsub : (size - oldSize).toNat = size.toNat - oldSize.toNat :=
    UInt32.toNat_sub_of_le _ _ (UInt32.le_iff_toNat_le.mpr hle)
  show (size - oldSize.toInt32.toUInt32).toInt32.toInt = _
  rw [UInt32.toUInt32_toInt32, toInt_toInt32 (by omega)]
  omega

/-- The bound all of it rests on. -/
theorem exact_of_le (hle : oldSize.toNat ≤ size.toNat) (hsize : size.toNat ≤ 524288000) :
    Exact oldSize size where
  doubled := by
    rw [UInt32.toNat_mul]
    exact Nat.mod_eq_of_lt (by show oldSize.toNat * 2 < _; omega)
  next := fun hindex =>
    ⟨toInt_succ (by omega) hindex, toInt_nextIndex32 (by omega) hindex⟩
  compared := fun hindex _ =>
    ⟨toNat_toUInt32_add (by omega) hindex, toInt_adjustIndexForComparison32 (by omega) hindex⟩
  adjustment := toInt_adjustment32 hle hsize
  moved := by
    intro index hindex
    have hadjustment := toInt_adjustment32 hle hsize
    have hlow := hindex.1
    have hhigh := hindex.2
    have hsum : (index + adjustment32 size oldSize).toInt =
        index.toInt + ((size.toNat : Int) - oldSize.toNat) := by
      rw [← hadjustment]
      exact toInt_add (by omega) (by omega)
    refine ⟨hsum, ?_, ?_⟩ <;> rw [hsum] <;> omega

/-! ## The sizes -/

/-- A size doubles, up to the largest. -/
theorem toNat_grow {e s : UInt32} (hs : s.toNat ≤ (MAX_QUEUE_SIZE32 e).toNat) :
    (grow e s).toNat = min (s.toNat * 2) (MAX_QUEUE_SIZE32 e).toNat := by
  have hmax := toNat_MAX_QUEUE_SIZE32_le e
  have hdouble : (s * 2).toNat = s.toNat * 2 :=
    (exact_of_le (Nat.le_refl s.toNat) (by omega)).doubled
  have hsmall : ¬ s ≥ 4294967295 / 2 := by
    intro h
    have hle : (4294967295 / 2 : UInt32).toNat ≤ s.toNat := UInt32.le_iff_toNat_le.mp h
    have hvalue : (4294967295 / 2 : UInt32).toNat = 2147483647 := rfl
    omega
  have hnew : (getNewQueueSize32 s e).toNat = min (s.toNat * 2) (MAX_QUEUE_SIZE32 e).toNat := by
    unfold getNewQueueSize32
    rw [if_neg hsmall]
    dsimp only
    split
    · rename_i hgt
      have hlt := UInt32.lt_iff_toNat_lt.mp hgt
      omega
    · rename_i hgt
      have hle : ¬ (MAX_QUEUE_SIZE32 e).toNat < (s * 2).toNat := fun h =>
        hgt (UInt32.lt_iff_toNat_lt.mpr h)
      omega
  unfold grow
  dsimp only
  split
  · rename_i hge
    have hle := UInt32.le_iff_toNat_le.mp hge
    omega
  · exact hnew

/-- The size after `k` resizes. -/
def sizeAfter (entrySize startSize : UInt32) (k : Nat) : UInt32 := (grow entrySize)^[k] startSize

theorem sizeAfter_succ (e s : UInt32) (k : Nat) :
    sizeAfter e s (k + 1) = grow e (sizeAfter e s k) :=
  Function.iterate_succ_apply' _ _ _

theorem toNat_sizeAfter {e s : UInt32} (hs : s.toNat ≤ (MAX_QUEUE_SIZE32 e).toNat) (k : Nat) :
    (sizeAfter e s k).toNat = min (2 ^ k * s.toNat) (MAX_QUEUE_SIZE32 e).toNat := by
  induction k with
  | zero =>
      show s.toNat = _
      omega
  | succ k ih =>
      rw [sizeAfter_succ, toNat_grow (by omega), ih]
      rw [show 2 ^ (k + 1) * s.toNat = 2 ^ k * s.toNat * 2 by
        rw [Nat.pow_succ, Nat.mul_assoc, Nat.mul_comm 2, Nat.mul_assoc]]
      omega

/-- The size a resize of the queue leaves. -/
theorem currentSize_resize {E : Type} {q q' : ReaderWriterQueue E} {fuel size : Nat}
    (h : q.resize fuel size = .ok q') :
    q'.currentSize = if q.currentSize ≥ size then q.currentSize else size := by
  by_cases hge : q.currentSize ≥ size
  · rw [ReaderWriterQueue.resize, if_pos hge] at h
    rw [if_pos hge, ← Except.ok.inj h]
  · rw [if_neg hge]
    exact (ReaderWriterQueue.indices_of_resize (by omega) h).1

theorem toNat_getNewQueueSize32 {E : Type} {q : ReaderWriterQueue E} {e s : UInt32}
    (hsize : q.currentSize = s.toNat) (hentry : q.getEntrySize = e.toNat) :
    (getNewQueueSize32 s e).toNat = q.getNewQueueSize := by
  have hdouble : (if s ≥ 4294967295 / 2 then 4294967295 else s * 2 : UInt32).toNat =
      if s.toNat ≥ UINT_MAX / 2 then UINT_MAX else s.toNat * 2 := by
    have hvalue : (4294967295 / 2 : UInt32).toNat = UINT_MAX / 2 := rfl
    have hiff : s ≥ 4294967295 / 2 ↔ s.toNat ≥ UINT_MAX / 2 := by
      rw [← hvalue]
      exact UInt32.le_iff_toNat_le
    by_cases hlarge : s.toNat ≥ UINT_MAX / 2
    · rw [if_pos hlarge, if_pos (hiff.mpr hlarge)]
      rfl
    · rw [if_neg hlarge, if_neg fun h => hlarge (hiff.mp h), UInt32.toNat_mul]
      unfold UINT_MAX at hlarge
      exact Nat.mod_eq_of_lt (by show s.toNat * 2 < _; omega)
  unfold getNewQueueSize32 ReaderWriterQueue.getNewQueueSize
  rw [hsize, hentry]
  dsimp only
  rw [← hdouble, ← toNat_MAX_QUEUE_SIZE32]
  generalize (if s ≥ 4294967295 / 2 then 4294967295 else s * 2 : UInt32) = newSize
  split
  · rename_i hgt
    rw [if_pos (UInt32.lt_iff_toNat_lt.mp hgt)]
  · rename_i hgt
    rw [if_neg fun h => hgt (UInt32.lt_iff_toNat_lt.mpr h)]

/-- `grow` is what `resize(getNewQueueSize())` does to the size of a queue. -/
theorem currentSize_grow {E : Type} {q q' : ReaderWriterQueue E} {fuel : Nat} {e s : UInt32}
    (hsize : q.currentSize = s.toNat) (hentry : q.getEntrySize = e.toNat)
    (h : q.resize fuel q.getNewQueueSize = .ok q') : q'.currentSize = (grow e s).toNat := by
  rw [currentSize_resize h, hsize, ← toNat_getNewQueueSize32 hsize hentry]
  unfold grow
  dsimp only
  split
  · rename_i hge
    rw [if_pos (UInt32.le_iff_toNat_le.mpr hge)]
  · rename_i hge
    rw [if_neg fun h => hge (UInt32.le_iff_toNat_le.mp h)]

/-- Resized again and again, a queue grows until it has the largest size, and keeps it;
and nothing wraps on the way. -/
theorem growth {E : Type} {e s : UInt32} (hpos : 1 ≤ s)
    (hle : s ≤ MAX_QUEUE_SIZE32 e) :
    (∃ k,
      (∀ i < k, sizeAfter e s i < sizeAfter e s (i + 1) ∧ isMaxSize32 (sizeAfter e s i) e = false) ∧
      ∀ i ≥ k, sizeAfter e s i = MAX_QUEUE_SIZE32 e ∧ isMaxSize32 (sizeAfter e s i) e = true) ∧
    (∀ i, Exact (sizeAfter e s i) (sizeAfter e s (i + 1))) ∧
    ∀ (q q' : ReaderWriterQueue E) (fuel i : Nat), q.getEntrySize = e.toNat →
      q.currentSize = (sizeAfter e s i).toNat → q.resize fuel q.getNewQueueSize = .ok q' →
      q'.currentSize = (sizeAfter e s (i + 1)).toNat := by
  have hpositive : 1 ≤ s.toNat := UInt32.le_iff_toNat_le.mp hpos
  have hbound := UInt32.le_iff_toNat_le.mp hle
  have hlargest := toNat_MAX_QUEUE_SIZE32_le e
  have hsize := toNat_sizeAfter hbound
  have hreaches : ∃ k, (MAX_QUEUE_SIZE32 e).toNat ≤ 2 ^ k * s.toNat := by
    refine ⟨(MAX_QUEUE_SIZE32 e).toNat, ?_⟩
    exact Nat.le_trans (Nat.le_of_lt Nat.lt_two_pow_self) (Nat.le_mul_of_pos_right _ hpositive)
  have hdouble : ∀ i, 2 ^ (i + 1) * s.toNat = 2 ^ i * s.toNat + 2 ^ i * s.toNat := by
    intro i
    rw [Nat.pow_succ, Nat.mul_assoc, Nat.mul_left_comm, Nat.two_mul]
  have hgrows : ∀ i, 1 ≤ 2 ^ i * s.toNat := fun i =>
    Nat.mul_pos (Nat.two_pow_pos i) hpositive
  refine ⟨⟨Nat.find hreaches, ?_, ?_⟩, ?_, ?_⟩
  · intro i hi
    have hbelow := Nat.find_min hreaches hi
    have hi' := hsize i
    have hnext := hsize (i + 1)
    rw [hdouble] at hnext
    have hone := hgrows i
    refine ⟨UInt32.lt_iff_toNat_lt.mpr (by omega), ?_⟩
    exact decide_eq_false fun h => absurd (UInt32.le_iff_toNat_le.mp h) (by omega)
  · intro i hi
    have hfound := Nat.find_spec hreaches
    have hpow : 2 ^ Nat.find hreaches * s.toNat ≤ 2 ^ i * s.toNat :=
      Nat.mul_le_mul_right _ (Nat.pow_le_pow_right (by omega) hi)
    have hi' := hsize i
    have heq : sizeAfter e s i = MAX_QUEUE_SIZE32 e := UInt32.toNat_inj.mp (by omega)
    exact ⟨heq, decide_eq_true (UInt32.le_iff_toNat_le.mpr (by rw [heq]))⟩
  · intro i
    have hi := hsize i
    have hnext := hsize (i + 1)
    rw [hdouble] at hnext
    exact exact_of_le (by omega) (by omega)
  · intro q q' fuel i hentry hcurrent hrun
    rw [sizeAfter_succ]
    exact currentSize_grow hcurrent hentry hrun

/-- Entries of 200 MiB: the queue grows once, from one slot to two. -/
theorem growth_of_large_entries : (∃ k,
    (∀ i < k, sizeAfter 209715200 1 i < sizeAfter 209715200 1 (i + 1) ∧
      isMaxSize32 (sizeAfter 209715200 1 i) 209715200 = false) ∧
    ∀ i ≥ k, sizeAfter 209715200 1 i = MAX_QUEUE_SIZE32 209715200 ∧
      isMaxSize32 (sizeAfter 209715200 1 i) 209715200 = true) ∧
    (∀ i, Exact (sizeAfter 209715200 1 i) (sizeAfter 209715200 1 (i + 1))) ∧
    ∀ (q q' : ReaderWriterQueue Nat) (fuel i : Nat),
      q.getEntrySize = (209715200 : UInt32).toNat →
      q.currentSize = (sizeAfter 209715200 1 i).toNat →
      q.resize fuel q.getNewQueueSize = .ok q' →
      q'.currentSize = (sizeAfter 209715200 1 (i + 1)).toNat :=
  growth (by decide) (by decide)

end HPQueue
