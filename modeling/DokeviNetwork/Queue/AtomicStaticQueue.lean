import Mathlib.Algebra.Group.Nat.Defs
import Mathlib.Logic.Function.Basic
import Mathlib.Tactic.Common

/-!
# The static queue

`AtomicStaticQueue<T>` keeps its elements in an array of a fixed size.  `_back`
is the ticket of the last element, `_front` that of the first; both are
`ULONG`s that are never set back, and an element lies where its ticket modulo
the size says.  `_used` counts the elements.  `LOG_CRITICAL` is taken to return;
a call says whether it was reached.
-/

namespace DokeviNet

/-- The fields of `AtomicStaticQueue<T>`. -/
structure AtomicStaticQueue (T : Type*) where
  front : UInt32
  back : UInt32
  used : UInt32
  queueSize : UInt32
  memory : ℕ → T

/-- What a call that returns nothing does: the queue after it, and whether it
reported an overflow. -/
structure QueueCall (T : Type*) where
  queue : AtomicStaticQueue T
  reported : Bool

namespace AtomicStaticQueue

variable {T : Type*}

/-- `Init`; the new elements hold whatever their constructor left in them. -/
def init (inSize : UInt32) (elements : ℕ → T) : AtomicStaticQueue T where
  front := 1
  back := 0
  used := 0
  queueSize := inSize
  memory := elements

/-- The first step of `Push`: the next ticket. -/
def takeTicket (q : AtomicStaticQueue T) : AtomicStaticQueue T :=
  { q with back := q.back + 1 }

/-- The second step of `Push`: the element is stored under its ticket. -/
def store (q : AtomicStaticQueue T) (index : UInt32) (element : T) :
    AtomicStaticQueue T :=
  { q with
    memory :=
      Function.update q.memory (index % q.queueSize).toNat element }

/-- The third step of `Push`: the element is counted. -/
def count (q : AtomicStaticQueue T) : QueueCall T where
  queue := { q with used := q.used + 1 }
  reported := decide (q.used + 1 ≥ q.queueSize)

/-- `Push`. -/
def push (q : AtomicStaticQueue T) (element : T) : QueueCall T :=
  let q := q.takeTicket
  (q.store q.back element).count

/-- `Pop`; the comparison is one of `ULONG`s. -/
def pop (q : AtomicStaticQueue T) : QueueCall T where
  queue := { q with used := q.used - 1, front := q.front + 1 }
  reported := decide (q.used - 1 < 0)

/-- What `Front` points to. -/
def frontElement (q : AtomicStaticQueue T) : T :=
  q.memory (q.front % q.queueSize).toNat

def isEmpty (q : AtomicStaticQueue T) : Bool := decide (q.used = 0)

/-- `GetUsedSize` returns `_used` as an `int`. -/
def getUsedSize (q : AtomicStaticQueue T) : Int32 := q.used.toInt32

/-- The queue after `k` calls of `Pop`. -/
def afterPops (q : AtomicStaticQueue T) : ℕ → AtomicStaticQueue T
  | 0 => q
  | k + 1 => (q.afterPops k).pop.queue

section

variable (q : AtomicStaticQueue T)

/-- No number is below 0, so `Pop` never reports. -/
theorem pop_not_reported : q.pop.reported = false := by
  simp [pop]

theorem afterPops_frame (k : ℕ) :
    (q.afterPops k).memory = q.memory ∧
      (q.afterPops k).queueSize = q.queueSize ∧
      (q.afterPops k).front = q.front + UInt32.ofNat k := by
  induction k with
  | zero => simp [afterPops]
  | succ k ih =>
      obtain ⟨hmemory, hsize, hfront⟩ := ih
      refine ⟨hmemory, hsize, ?_⟩
      change (q.afterPops k).front + 1 = _
      rw [hfront, UInt32.ofNat_add, UInt32.add_assoc]
      rfl

theorem frontElement_afterPops (k : ℕ) :
    (q.afterPops k).frontElement =
      q.memory ((q.front.toNat + k) % 2 ^ 32 % q.queueSize.toNat) := by
  obtain ⟨hmemory, hsize, hfront⟩ := q.afterPops_frame k
  rw [frontElement, hmemory, hsize, hfront, UInt32.toNat_mod,
    UInt32.toNat_add, UInt32.toNat_ofNat', Nat.add_mod_mod]

theorem isEmpty_iff : q.isEmpty = true ↔ q.used.toNat = 0 := by
  rw [isEmpty, decide_eq_true_eq, ← UInt32.toNat_inj, UInt32.toNat_zero]

end

end AtomicStaticQueue

end DokeviNet
