import DokeviNetwork.Threads.ThreadManager
import DokeviNetwork.Support.Run

/-!
# Removing a thread

`RemoveThread` takes the pointer at the front of the pool and moves it forward
by as many thread objects as the index of the caller says; the pool is a list of
pointers to objects that were allocated one by one.  So what it removes depends
on where they lie in memory, and the entry in `_infoMap` it does not remove at
all.
-/

namespace DokeviNet

open LabelledRun EntryMap

/-- The manager, and the address of the object that `TaskRun` has made for a
thread, or 0. -/
structure ThreadObjects (θ : Type*) where
  manager : ThreadManager θ
  object : θ → ℕ

/-- The calls of the threads of the pool, and `TaskRun`, which starts the thread
`id` with the object `taskThread`. -/
inductive ObjectOp (θ : Type*)
  | taskRun (taskThread : ℕ) (id : θ)
  | registerThread (caller : θ) (inType : ThreadType)
  | removeThread (caller : θ)
  deriving DecidableEq

namespace ThreadObjects

variable {θ : Type*} [DecidableEq θ]

/-- After `Initialize`. -/
def start (mainThread : θ) : ThreadObjects θ where
  manager := .initializeBy mainThread
  object := fun _ => 0

def step (threadSize : ℕ) (s : ThreadObjects θ) :
    ObjectOp θ → Option (ThreadObjects θ)
  | .taskRun taskThread id =>
    some
      { manager := s.manager.taskRun taskThread
        object := Function.update s.object id taskThread }
  | .registerThread caller inType =>
    some { s with manager := (s.manager.registerThread caller inType).2 }
  | .removeThread caller =>
    (s.manager.removeThread threadSize caller).map fun manager =>
      { s with manager := manager }

/-- What the removal of a thread should do. -/
structure Removed (s s' : ThreadObjects θ) (id : θ) : Prop where
  threadPool : s'.manager.threadPool =
    s.manager.threadPool.filter (· ≠ s.object id)
  infoMap : id ∉ s'.manager.infoMap
  count : s'.manager.getThreadCount.toNat + 1 =
    s.manager.getThreadCount.toNat

/-- A call of `RemoveThread` removes its caller. -/
def RemovesOwn (threadSize : ℕ) (s : ThreadObjects θ) (l : ObjectOp θ) : Prop :=
  ∀ caller, l = .removeThread caller →
    ∃ s', s.step threadSize l = some s' ∧ Removed s s' caller

variable {threadSize : ℕ} {s s' : ThreadObjects θ} {caller : θ}

/-- The pointer whose value `RemoveThread` removes, where `front` is the one at
the front. -/
def removedPointer (threadSize : ℕ) (s : ThreadObjects θ) (front : ℕ)
    (caller : θ) : ℕ :=
  front + (subscript s.manager.infoMap caller
    ThreadInfo.zero).index.toInt.toNat * threadSize

/-- What a call of `RemoveThread` does. -/
theorem step_removeThread
    (hstep : s.step threadSize (.removeThread caller) = some s') :
    ∃ front, s.manager.threadPool.head? = some front ∧
      s'.manager.threadPool = s.manager.threadPool.filter
        (· ≠ s.removedPointer threadSize front caller) ∧
      s'.manager.infoMap =
        insertNew s.manager.infoMap caller ThreadInfo.zero ∧
      s'.manager.size = s.manager.size - 1 := by
  obtain ⟨manager, hmanager, rfl⟩ := Option.map_eq_some_iff.mp hstep
  obtain ⟨front, hfront, rfl⟩ := Option.map_eq_some_iff.mp hmanager
  exact ⟨front, hfront, rfl, rfl, rfl⟩

/-- The caller of `RemoveThread` has an entry afterwards. -/
theorem not_removed
    (hstep : s.step threadSize (.removeThread caller) = some s') :
    ¬Removed s s' caller := by
  obtain ⟨front, -, -, hmap, -⟩ := step_removeThread hstep
  intro hremoved
  apply hremoved.infoMap
  rw [hmap, ← AList.lookup_isSome, lookup_insertNew]
  rfl

/-! ## What happens to the pool -/

/-- Two values whose removal leaves the same list are the same, or are not in
it. -/
theorem filter_ne_eq_filter_ne_iff (pool : List ℕ) (p q : ℕ) :
    pool.filter (· ≠ p) = pool.filter (· ≠ q) ↔
      p = q ∨ p ∉ pool ∧ q ∉ pool := by
  constructor
  · intro h
    by_contra hnot
    obtain ⟨hne, hmem⟩ := not_or.mp hnot
    apply hmem
    constructor
    · intro hp
      have hmem : p ∈ pool.filter (· ≠ q) := by simp [hp, hne]
      rw [← h] at hmem
      simp at hmem
    · intro hq
      have hmem : q ∈ pool.filter (· ≠ p) := by simp [hq, Ne.symm hne]
      rw [h] at hmem
      simp at hmem
  · rintro (rfl | ⟨hp, hq⟩)
    · rfl
    · have hself : ∀ a ∉ pool, pool.filter (· ≠ a) = pool := by
        intro a ha
        rw [List.filter_eq_self]
        intro b hb
        exact decide_eq_true (ne_of_mem_of_not_mem hb ha)
      rw [hself p hp, hself q hq]

/-- The pool is right afterwards exactly if the pointer that is moved forward
arrives at the object of the caller, or neither of the two is in the pool. -/
theorem threadPool_removed_iff {front : ℕ}
    (hstep : s.step threadSize (.removeThread caller) = some s')
    (hfront : s.manager.threadPool.head? = some front) :
    s'.manager.threadPool =
        s.manager.threadPool.filter (· ≠ s.object caller) ↔
      s.removedPointer threadSize front caller = s.object caller ∨
        s.removedPointer threadSize front caller ∉ s.manager.threadPool ∧
          s.object caller ∉ s.manager.threadPool := by
  obtain ⟨front', hfront', hpool, -, -⟩ := step_removeThread hstep
  obtain rfl := Option.some.inj (hfront.symm.trans hfront')
  rw [hpool]
  exact filter_ne_eq_filter_ne_iff _ _ _

/-- A thread with a positive index whose object is at the front of the pool does
not remove it. -/
theorem front_not_removed
    (hstep : s.step threadSize (.removeThread caller) = some s')
    (hfront : s.manager.threadPool.head? = some (s.object caller))
    (hindex : 0 < (subscript s.manager.infoMap caller
      ThreadInfo.zero).index.toInt)
    (hsize : 0 < threadSize) :
    s'.manager.threadPool ≠
      s.manager.threadPool.filter (· ≠ s.object caller) := by
  rw [Ne, threadPool_removed_iff hstep hfront]
  rintro (heq | ⟨-, hnot⟩)
  · have hpos : 0 < (subscript s.manager.infoMap caller
        ThreadInfo.zero).index.toInt.toNat * threadSize :=
      Nat.mul_pos (Int.lt_toNat.mpr hindex) hsize
    rw [removedPointer] at heq
    omega
  · exact hnot (List.mem_of_mem_head? hfront)

/-! ## Histories -/

/-- A call that is not `RemoveThread` goes through, and nothing is asked of
it. -/
theorem along_removesOwn_cons {l : ObjectOp θ} {ops : List (ObjectOp θ)}
    (hl : ∀ caller, l ≠ .removeThread caller)
    (hstep : s.step threadSize l = some s') :
    Along (step threadSize) (RemovesOwn threadSize) s (l :: ops) ↔
      Along (step threadSize) (RemovesOwn threadSize) s' ops := by
  rw [along_cons_of_step hstep]
  apply and_iff_right
  intro caller heq
  exact absurd heq (hl caller)

/-- Every call of `RemoveThread` in a history removes its caller only where
there is no such call. -/
theorem removesOwn_iff_no_removeThread (threadSize : ℕ) (mainThread : θ)
    (ops : List (ObjectOp θ)) :
    Along (step threadSize) (RemovesOwn threadSize) (start mainThread) ops ↔
      ∀ caller, .removeThread caller ∉ ops := by
  generalize start mainThread = s
  induction ops generalizing s with
  | nil => simp
  | cons l ops ih =>
      cases l with
      | taskRun taskThread id =>
          rw [along_removesOwn_cons nofun rfl, ih]
          simp
      | registerThread id inType =>
          rw [along_removesOwn_cons nofun rfl, ih]
          simp
      | removeThread id =>
          constructor
          · intro h
            obtain ⟨s', hstep, hremoved⟩ := h.1 id rfl
            exact absurd hremoved (not_removed hstep)
          · intro h
            exact absurd List.mem_cons_self (h id)

/-- Two threads start, with objects 32 bytes apart, and the second registers
first. -/
def secondFirst : List (ObjectOp ℕ) :=
  [.taskRun 1000 1, .taskRun 1032 2, .registerThread 2 .ioTask,
    .registerThread 1 .ioTask]

/-- With objects of 16 bytes the first thread removes the object of the second,
and keeps its own and its entry. -/
theorem secondFirst_removes_other :
    ∃ s, run (step 16) (start 0) (secondFirst ++ [.removeThread 1]) = some s ∧
      s.object 1 = 1000 ∧ s.object 2 = 1032 ∧
      s.manager.threadPool = [1000] ∧ 1 ∈ s.manager.infoMap ∧
      ¬Along (step 16) (RemovesOwn 16) (start 0)
        (secondFirst ++ [.removeThread 1]) := by
  refine ⟨_, rfl, rfl, rfl, by decide, by decide, ?_⟩
  intro h
  have hrun : run (step 16) (start 0) secondFirst = some _ := rfl
  obtain ⟨s', hstep, hremoved⟩ := h.at_step hrun 1 rfl
  exact not_removed hstep hremoved

end ThreadObjects

end DokeviNet
