import Mathlib.Data.Nat.Notation
import Mathlib.Tactic.Common

/-!
# The progress lock

`ProgressLock` lets one worker at a time go on.  `_curWork` is the work type of
that worker, or 0.  A worker that finds another at work takes over if the other
started `_timeout` ticks ago; with the timeout -1 it never does.  `GetTickCount`
returns a `DWORD`, so the ticks are subtracted and compared as unsigned numbers.
-/

namespace DokeviNet

/-- The fields of `ProgressLock`. -/
structure ProgressLock where
  curWork : UInt32
  timeout : Int32
  startTick : Int32
  deriving DecidableEq

/-- What `Start` does: its return value, what it stores in `inCurWorkType`, and
the lock after it. -/
structure StartCall where
  started : Bool
  inCurWorkType : UInt32
  lock : ProgressLock

namespace ProgressLock

/-- A new lock. -/
def init (inTimeOut : Int32) : ProgressLock where
  curWork := 0
  timeout := inTimeOut
  startTick := 0

/-- `checkTimeOut` in `Start`. -/
def checkTimeOut (lock : ProgressLock) : Bool :=
  decide (lock.timeout ≠ -1) && decide (lock.curWork ≠ 0)

/-- `isTimeOut` in `Start`, where `GetTickCount` returns `tick`. -/
def isTimeOut (lock : ProgressLock) (tick : UInt32) : Bool :=
  decide (tick - lock.startTick.toUInt32 ≥ lock.timeout.toUInt32)

/-- The lock after `InterlockedCompareExchange(&_curWork, inWorkType, 0)`, which
returns `_curWork`. -/
def compareExchange (lock : ProgressLock) (inWorkType : UInt32) :
    ProgressLock :=
  if lock.curWork = 0 then { lock with curWork := inWorkType } else lock

/-- The last step of a `Start` that returns true. -/
def storeTick (lock : ProgressLock) (tick : UInt32) : ProgressLock :=
  { lock with startTick := tick.toInt32 }

/-- `Start`, where `GetTickCount` returns `tick` and then `tick'`. -/
def start (lock : ProgressLock) (inWorkType tick tick' : UInt32) : StartCall :=
  if lock.checkTimeOut && lock.isTimeOut tick then
    { started := true
      inCurWorkType := inWorkType
      lock := lock.storeTick tick' }
  else if lock.curWork ≠ 0 then
    { started := false
      inCurWorkType := lock.curWork
      lock := lock.compareExchange inWorkType }
  else
    { started := true
      inCurWorkType := inWorkType
      lock := (lock.compareExchange inWorkType).storeTick tick' }

/-- `End`. -/
def endWork (lock : ProgressLock) : ProgressLock := { lock with curWork := 0 }

/-- A `Start` takes over, finds another at work, or finds the lock free. -/
theorem start_cases (lock : ProgressLock) (inWorkType tick tick' : UInt32) :
    (lock.curWork ≠ 0 ∧
        (lock.checkTimeOut && lock.isTimeOut tick) = true ∧
        lock.start inWorkType tick tick' =
          { started := true
            inCurWorkType := inWorkType
            lock := lock.storeTick tick' }) ∨
      (lock.curWork ≠ 0 ∧
        (lock.checkTimeOut && lock.isTimeOut tick) = false ∧
        lock.start inWorkType tick tick' =
          { started := false
            inCurWorkType := lock.curWork
            lock := lock }) ∨
      (lock.curWork = 0 ∧
        lock.start inWorkType tick tick' =
          { started := true
            inCurWorkType := inWorkType
            lock := { lock with
              curWork := inWorkType
              startTick := tick'.toInt32 } }) := by
  by_cases hfree : lock.curWork = 0
  · refine Or.inr (Or.inr ⟨hfree, ?_⟩)
    simp [start, checkTimeOut, compareExchange, storeTick, hfree]
  · cases htime : lock.checkTimeOut && lock.isTimeOut tick with
    | true =>
        refine Or.inl ⟨hfree, rfl, ?_⟩
        simp [start, htime]
    | false =>
        refine Or.inr (Or.inl ⟨hfree, rfl, ?_⟩)
        simp [start, htime, hfree, compareExchange]

end ProgressLock

end DokeviNet
