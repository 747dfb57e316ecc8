import Mathlib.Logic.Function.Basic
import Mathlib.Data.Nat.Notation

/-!
# The static element pool

`AtomicStaticPool<T>` owns an array of elements and a cursor.  Every call runs
under the pool's mutex, so a call is one atomic step.  `LOG_CRITICAL` is taken
to return, as it does while logging is off.

An element pointer is modelled by its offset in `_memory`; an offset outside
the array stands for a pointer that `_memoryIndicate` does not know.
-/

namespace DokeviNet

/-- The fields of `AtomicStaticPool<T>`. -/
structure AtomicStaticPool (T : Type*) where
  used : UInt64
  queueSize : UInt64
  memory : ℕ → T

/-- What a call does: its return value, the pool after it and the elements it
ran `Release()` on. -/
structure PoolCall (T R : Type*) where
  result : R
  pool : AtomicStaticPool T
  released : List ℕ

namespace AtomicStaticPool

variable {T : Type*}

/-- `Init`; the new elements hold whatever their constructor left in them. -/
def init (inSize : UInt64) (elements : ℕ → T) : AtomicStaticPool T where
  used := 0
  queueSize := inSize
  memory := elements

/-- Look an element pointer up in `_memoryIndicate`. -/
def findElement (pool : AtomicStaticPool T) (inElement : ℕ) : Option ℕ :=
  if inElement < pool.queueSize.toNat then some inElement else none

variable (release : T → T)

/-- Run `Release()` on one element. -/
def releaseElement (pool : AtomicStaticPool T) (i : ℕ) : AtomicStaticPool T :=
  { pool with
    memory := Function.update pool.memory i (release (pool.memory i)) }

/-- `Alloc`; `none` is the null pointer of a full pool. -/
def alloc (pool : AtomicStaticPool T) : PoolCall T (Option ℕ) :=
  if pool.used = pool.queueSize then
    { result := none, pool := pool, released := [] }
  else
    { result := some pool.used.toNat
      pool :=
        { pool.releaseElement release pool.used.toNat with
          used := pool.used + 1 }
      released := [pool.used.toNat] }

/-- `Free`. -/
def free (pool : AtomicStaticPool T) (inElement : ℕ) : PoolCall T Unit :=
  match pool.findElement inElement with
  | none => { result := (), pool := pool, released := [] }
  | some i =>
    { result := ()
      pool :=
        { pool.releaseElement release i with used := pool.used - 1 }
      released := [i] }

/-! ## What one call can do -/

variable {release}

theorem alloc_full {pool : AtomicStaticPool T}
    (h : pool.used = pool.queueSize) :
    pool.alloc release = { result := none, pool := pool, released := [] } := by
  simp [alloc, h]

theorem alloc_next {pool : AtomicStaticPool T}
    (h : pool.used ≠ pool.queueSize) :
    pool.alloc release =
      { result := some pool.used.toNat
        pool :=
          { pool.releaseElement release pool.used.toNat with
            used := pool.used + 1 }
        released := [pool.used.toNat] } := by
  simp [alloc, h]

theorem free_known {pool : AtomicStaticPool T} {i : ℕ}
    (h : i < pool.queueSize.toNat) :
    pool.free release i =
      { result := ()
        pool :=
          { pool.releaseElement release i with used := pool.used - 1 }
        released := [i] } := by
  simp [free, findElement, h]

theorem free_unknown {pool : AtomicStaticPool T} {i : ℕ}
    (h : ¬i < pool.queueSize.toNat) :
    pool.free release i = { result := (), pool := pool, released := [] } := by
  simp [free, findElement, h]

@[simp] theorem releaseElement_queueSize (pool : AtomicStaticPool T)
    (i : ℕ) : (pool.releaseElement release i).queueSize = pool.queueSize := rfl

/-- The cursor of a pool that is not full can be advanced without wrapping. -/
theorem used_succ_toNat {pool : AtomicStaticPool T}
    (hle : pool.used.toNat ≤ pool.queueSize.toNat)
    (hne : pool.used ≠ pool.queueSize) :
    (pool.used + 1).toNat = pool.used.toNat + 1 ∧
      pool.used.toNat < pool.queueSize.toNat := by
  have hlt : pool.used.toNat < pool.queueSize.toNat := by
    have : pool.used.toNat ≠ pool.queueSize.toNat := fun h =>
      hne (UInt64.toNat_inj.mp h)
    omega
  have hbound : pool.queueSize.toNat < 2 ^ 64 := pool.queueSize.toNat_lt
  refine ⟨?_, hlt⟩
  rw [UInt64.toNat_add, UInt64.toNat_one]
  omega

/-- The cursor of a pool in use can be moved back without wrapping. -/
theorem used_pred_toNat {pool : AtomicStaticPool T}
    (hpos : 0 < pool.used.toNat) :
    (pool.used - 1).toNat = pool.used.toNat - 1 := by
  rw [UInt64.toNat_sub_of_le _ _ (by
    rw [UInt64.le_iff_toNat_le, UInt64.toNat_one]
    omega), UInt64.toNat_one]

end AtomicStaticPool

end DokeviNet
