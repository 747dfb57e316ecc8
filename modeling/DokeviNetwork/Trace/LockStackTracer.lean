import DokeviNetwork.Sync.SyncSection
import DokeviNetwork.Trace.StackTracer

/-!
# The recorded locks of a thread

`TryLockStackTrace` writes the frame at the depth and counts up,
`InLockStackTrace` marks the frame at the depth, which by then is the one above,
and `OutLockStackTrace` clears the frame at the depth before it counts down.  So
the addresses below the depth are right, but none of these frames is ever
marked: the marks, and after a release the addresses, are left above.

The array of a thread has 128 frames, and unlike `StackTracer` the code does not
check the depth.  Here the frames go on in both directions: what a write above
the array or below it overwrites in the memory of the program is not followed.
-/

namespace DokeviNet

open LabelledRun

/-- `LockStack`; an address is `none` where the code has a null pointer. -/
structure LockStack (σ : Type*) where
  isEnter : Bool
  lockAddress : Option σ
  deriving DecidableEq

/-- A frame without a lock. -/
def LockStack.clear {σ : Type*} : LockStack σ where
  isEnter := false
  lockAddress := none

/-- `gLockStackDepth` and `gLockStackFrames` of a thread. -/
structure LockFrames (σ : Type*) where
  depth : Int32
  frames : ℤ → LockStack σ

namespace LockFrames

variable {σ : Type*}

/-- The frames of a new thread. -/
def new : LockFrames σ where
  depth := 0
  frames := fun _ => LockStack.clear

/-- `TryLockStackTrace` on a registered thread. -/
def tryLockStackTrace (s : LockFrames σ) (inLockSync : σ) : LockFrames σ where
  depth := s.depth + 1
  frames := Function.update s.frames s.depth.toInt
    { isEnter := false, lockAddress := some inLockSync }

/-- `InLockStackTrace`. -/
def inLockStackTrace (s : LockFrames σ) : LockFrames σ :=
  { s with
    frames := Function.update s.frames s.depth.toInt
      { s.frames s.depth.toInt with isEnter := true } }

/-- `OutLockStackTrace`. -/
def outLockStackTrace (s : LockFrames σ) : LockFrames σ where
  depth := s.depth - 1
  frames := Function.update s.frames s.depth.toInt LockStack.clear

end LockFrames

/-- A thread's frames, the locks it holds, outermost first, and the one it waits
for. -/
structure LockTrace (σ : Type*) where
  stack : LockFrames σ
  held : List σ
  waiting : Option σ

/-- A recorded `Enter` asks for a lock, gets it, or a recorded `Leave` releases
the innermost one. -/
inductive LockTraceOp (σ : Type*)
  | tryLock (inLockSync : σ)
  | inLock
  | outLock
  deriving DecidableEq

namespace LockTrace

variable {σ : Type*}

/-- A new thread. -/
def new : LockTrace σ where
  stack := LockFrames.new
  held := []
  waiting := none

/-- The locks that are held or waited for, outermost first. -/
def locks (s : LockTrace σ) : List σ := s.held ++ s.waiting.toList

/-- One call.  A thread that waits for a lock does nothing else, and fewer locks
than there are frames are open. -/
def step (s : LockTrace σ) : LockTraceOp σ → Option (LockTrace σ)
  | .tryLock inLockSync =>
    if s.waiting.isNone ∧ s.held.length + 1 < maxCallStackDepth then
      some
        { s with
          stack := s.stack.tryLockStackTrace inLockSync
          waiting := some inLockSync }
    else none
  | .inLock =>
    s.waiting.map fun inLockSync =>
      { stack := s.stack.inLockStackTrace
        held := s.held ++ [inLockSync]
        waiting := none }
  | .outLock =>
    if s.waiting.isNone ∧ ¬s.held.isEmpty then
      some
        { s with
          stack := s.stack.outLockStackTrace
          held := s.held.dropLast }
    else none

/-- The frames below the depth are the locks, marked where these are held, and
those from the depth on are clear. -/
structure Mirrors (s : LockTrace σ) : Prop where
  depth : s.stack.depth.toInt = s.locks.length
  locks : ∀ i (hi : i < s.locks.length), s.stack.frames i =
    { isEnter := decide (i < s.held.length)
      lockAddress := some s.locks[i] }
  clear : ∀ i : ℤ, s.stack.depth.toInt ≤ i → i < maxCallStackDepth →
    s.stack.frames i = LockStack.clear

/-- The call is not `InLockStackTrace`. -/
def NotObtained (_ : LockTrace σ) (op : LockTraceOp σ) : Prop := op ≠ .inLock

instance [DecidableEq σ] (s : LockTrace σ) (op : LockTraceOp σ) :
    Decidable (s.NotObtained op) := inferInstanceAs (Decidable (_ ≠ _))

/-- What holds in every run: the frames below the depth name the locks, and none
is marked. -/
structure Named (s : LockTrace σ) : Prop where
  depth : s.stack.depth.toInt = s.locks.length
  length_lt : s.locks.length < maxCallStackDepth
  locks : ∀ i (hi : i < s.locks.length), s.stack.frames i =
    { isEnter := false, lockAddress := some s.locks[i] }

variable {s s' : LockTrace σ} {op : LockTraceOp σ} {inLockSync : σ}

theorem named_new : Named (new : LockTrace σ) := by
  refine ⟨Int32.toInt_zero, Nat.zero_lt_succ _, ?_⟩
  intro i hi
  exact absurd hi (Nat.not_lt_zero i)

theorem mirrors_new : Mirrors (new : LockTrace σ) := by
  refine ⟨Int32.toInt_zero, ?_, fun _ _ _ => rfl⟩
  intro i hi
  exact absurd hi (Nat.not_lt_zero i)

/-! ## What the calls keep -/

theorem step_tryLock (hstep : s.step (.tryLock inLockSync) = some s') :
    s.waiting = none ∧ s.locks.length + 1 < maxCallStackDepth ∧
      s' = { s with
        stack := s.stack.tryLockStackTrace inLockSync
        waiting := some inLockSync } ∧
      s'.locks = s.locks ++ [inLockSync] := by
  obtain ⟨⟨hnone, hlt⟩, hstep⟩ := Option.ite_none_right_eq_some.mp hstep
  have hnone := Option.isNone_iff_eq_none.mp hnone
  obtain rfl := Option.some.inj hstep
  have hlocks : s.locks = s.held := by simp [LockTrace.locks, hnone]
  exact ⟨hnone, hlocks ▸ hlt, rfl, by rw [hlocks]; rfl⟩

theorem step_inLock (hstep : s.step .inLock = some s') :
    s'.stack = s.stack.inLockStackTrace ∧ s'.locks = s.locks ∧
      s'.held = s'.locks ∧ s'.held ≠ [] := by
  obtain ⟨inLockSync, hwaiting, rfl⟩ := Option.map_eq_some_iff.mp hstep
  refine ⟨rfl, ?_, ?_, by simp⟩
  · simp [LockTrace.locks, hwaiting]
  · simp [LockTrace.locks]

theorem step_outLock (hstep : s.step .outLock = some s') :
    s'.stack = s.stack.outLockStackTrace ∧ s.held = s.locks ∧ s.held ≠ [] ∧
      s'.locks = s.locks.dropLast := by
  obtain ⟨⟨hnone, hheld⟩, hstep⟩ := Option.ite_none_right_eq_some.mp hstep
  have hnone := Option.isNone_iff_eq_none.mp hnone
  obtain rfl := Option.some.inj hstep
  refine ⟨rfl, ?_, by simpa using hheld, ?_⟩
  · simp [LockTrace.locks, hnone]
  · simp [LockTrace.locks, hnone]

theorem Named.toInt_succ (h : Named s) :
    (s.stack.depth + 1).toInt = s.locks.length + 1 := by
  have hlt := h.length_lt
  have hdepth := h.depth
  rw [maxCallStackDepth] at hlt
  rw [toInt_fetch_add, hdepth]
  rintro hmax
  rw [hmax, Int32.toInt_maxValue] at hdepth
  omega

/-- The frame of a lock that is asked for is the one after the others. -/
theorem Named.frames_tryLock (h : Named s) (inLockSync : σ) :
    (s.stack.tryLockStackTrace inLockSync).frames =
      Function.update s.stack.frames s.locks.length
        { isEnter := false, lockAddress := some inLockSync } := by
  rw [← h.depth]
  rfl

theorem Named.tryLock (h : Named s)
    (hstep : s.step (.tryLock inLockSync) = some s') : Named s' := by
  obtain ⟨-, hlt, rfl, hlocks⟩ := step_tryLock hstep
  refine ⟨?_, ?_, ?_⟩
  · rw [hlocks, List.length_append]
    exact h.toInt_succ
  · rw [hlocks, List.length_append]
    exact hlt
  · intro i hi
    have hi' : i < (s.locks ++ [inLockSync]).length := hlocks ▸ hi
    have hget : (LockTrace.locks { s with
        stack := s.stack.tryLockStackTrace inLockSync
        waiting := some inLockSync })[i] = (s.locks ++ [inLockSync])[i] := by
      simp only [hlocks]
    rw [hget]
    change (s.stack.tryLockStackTrace inLockSync).frames i = _
    rw [h.frames_tryLock]
    exact update_concat (fun lock => (⟨false, some lock⟩ : LockStack σ))
      inLockSync (h.locks i) hi'

/-- A mark, or a frame that is cleared, at the depth is above the others. -/
theorem Named.frames_below (h : Named s) (frame : LockStack σ) {i : ℕ}
    (hi : i < s.locks.length) :
    Function.update s.stack.frames s.stack.depth.toInt frame i =
      s.stack.frames i := by
  apply Function.update_of_ne
  rw [h.depth]
  omega

theorem Named.inLock (h : Named s) (hstep : s.step .inLock = some s') :
    Named s' := by
  obtain ⟨hstack, hlocks, -, -⟩ := step_inLock hstep
  refine ⟨?_, ?_, ?_⟩
  · rw [hstack, hlocks]
    exact h.depth
  · rw [hlocks]
    exact h.length_lt
  · intro i hi
    have hi' : i < s.locks.length := hlocks ▸ hi
    simp only [hstack, hlocks]
    exact (h.frames_below _ hi').trans (h.locks i hi')

theorem Named.outLock (h : Named s) (hstep : s.step .outLock = some s') :
    Named s' := by
  obtain ⟨hstack, hheld, hne, hlocks⟩ := step_outLock hstep
  have hpos : 0 < s.locks.length := by
    rw [← hheld]
    exact List.length_pos_iff.mpr hne
  have hdepth := h.depth
  have hlt := h.length_lt
  refine ⟨?_, ?_, ?_⟩
  · rw [hstack, hlocks, List.length_dropLast]
    change (s.stack.depth - 1).toInt = _
    rw [toInt_fetch_sub (lockDepth_pos_iff.mpr (by omega)), hdepth]
    omega
  · rw [hlocks, List.length_dropLast]
    omega
  · intro i hi
    have hi' : i < s.locks.length := by
      rw [hlocks, List.length_dropLast] at hi
      omega
    simp only [hstack, hlocks, List.getElem_dropLast]
    exact (h.frames_below _ hi').trans (h.locks i hi')

theorem Named.step (h : Named s) (hstep : s.step op = some s') : Named s' := by
  cases op with
  | tryLock inLockSync => exact h.tryLock hstep
  | inLock => exact h.inLock hstep
  | outLock => exact h.outLock hstep

/-- None of the frames below the depth is marked, so a thread that holds a lock
is not mirrored. -/
theorem Named.held_eq_nil (h : Named s) (hm : Mirrors s) : s.held = [] := by
  by_contra hheld
  have hpos := List.length_pos_iff.mpr hheld
  have hlocks : 0 < s.locks.length := by
    rw [LockTrace.locks, List.length_append]
    omega
  have hframe := (h.locks 0 hlocks).symm.trans (hm.locks 0 hlocks)
  rw [decide_eq_true hpos] at hframe
  cases hframe

/-- Asking for a lock keeps the frames right. -/
theorem Mirrors.tryLock (hm : Mirrors s) (h : Named s)
    (hstep : s.step (.tryLock inLockSync) = some s') : Mirrors s' := by
  have hnil := h.held_eq_nil hm
  have hafter := h.tryLock hstep
  obtain ⟨-, hlt, rfl, hlocks⟩ := step_tryLock hstep
  refine ⟨hafter.depth, ?_, ?_⟩
  · intro i hi
    rw [hafter.locks i hi]
    simp [hnil]
  · intro i hi hlt
    change (s.stack.tryLockStackTrace inLockSync).frames i = _
    change (s.stack.depth + 1).toInt ≤ i at hi
    rw [h.toInt_succ] at hi
    have hne : i ≠ s.locks.length := by omega
    rw [h.frames_tryLock, Function.update_of_ne hne]
    refine hm.clear i ?_ hlt
    rw [h.depth]
    omega

/-! ## Runs -/

/-- The frames mirror the locks of the thread in exactly the runs in which no
lock is obtained. -/
theorem mirrors_iff_notObtained {ops : List (LockTraceOp σ)}
    (hrun : (run step new ops).isSome) :
    Throughout step Mirrors new ops ↔ Along step NotObtained new ops := by
  obtain ⟨t, hrun⟩ := Option.isSome_iff_exists.mp hrun
  have hinit : Named (new : LockTrace σ) ∧ Mirrors (new : LockTrace σ) :=
    ⟨named_new, mirrors_new⟩
  have hany : Along step (fun _ _ => True) new ops :=
    along_of_forall fun _ _ _ => trivial
  refine throughout_iff_along (fun (s : LockTrace σ)
    (h : Named s ∧ Mirrors s) => h.2) ?_ ?_ hinit hany hrun
  · rintro s op s' ⟨hn, hm⟩ _ hnot hstep
    refine ⟨hn.step hstep, ?_⟩
    cases op with
    | tryLock inLockSync => exact hm.tryLock hn hstep
    | inLock => exact absurd rfl hnot
    | outLock => exact absurd (hn.held_eq_nil hm) (step_outLock hstep).2.2.1
  · rintro s op s' ⟨hn, -⟩ _ hstep hm rfl
    have hafter := hn.step hstep
    exact (step_inLock hstep).2.2.2 (hafter.held_eq_nil hm)

/-- After the lock is obtained its frame is not marked, and the one above is. -/
theorem mark_above :
    ∃ s, run step new [.tryLock 7, .inLock] = some s ∧ s.held = [7] ∧
      s.stack.frames 0 = { isEnter := false, lockAddress := some 7 } ∧
      s.stack.frames 1 = { isEnter := true, lockAddress := none } ∧
      ¬Mirrors s := by
  refine ⟨_, rfl, rfl, rfl, rfl, fun h => ?_⟩
  exact absurd (h.locks 0 (by decide)) (by decide)

/-- A thread that waits for a lock. -/
theorem mirrors_waiting :
    Throughout step Mirrors (new : LockTrace ℕ) [.tryLock 7] :=
  (mirrors_iff_notObtained (by decide)).mpr (by decide)

end LockTrace

end DokeviNet
