import DokeviNetwork.Support.Run
import Mathlib.Algebra.Ring.Nat
import Mathlib.Data.Int.Order.Basic

/-!
# SyncSection

A `SyncSection` is a `std::shared_mutex` together with one owner and one depth
for all threads.  `Enter` by the recorded owner only counts, any other `Enter`
takes the mutex in the mode it is given; `Leave` counts down while the depth is
positive and releases the mutex otherwise.

The second half follows whole calls of any number of threads, each one step,
and keeps which sections are open.
-/

namespace DokeviNet

open LabelledRun

/-- `SYNC_TYPE`. -/
inductive SyncType
  | read
  | write
  deriving DecidableEq

/-- The state of a `std::shared_mutex`: unlocked, locked in shared mode by one
holder and `others` more, or locked exclusively. -/
inductive SharedMutex
  | free
  | shared (others : ℕ)
  | exclusive
  deriving DecidableEq

namespace SharedMutex

/-- `lock_shared()` or `lock()`; `none` while the caller has to wait. -/
def acquire : SharedMutex → SyncType → Option SharedMutex
  | .free, .read => some (.shared 0)
  | .shared others, .read => some (.shared (others + 1))
  | .free, .write => some .exclusive
  | _, _ => none

/-- `unlock_shared()` or `unlock()`; `none` where the mutex is not held in
that mode. -/
def release : SharedMutex → SyncType → Option SharedMutex
  | .shared 0, .read => some .free
  | .shared (others + 1), .read => some (.shared others)
  | .exclusive, .write => some .free
  | _, _ => none

@[simp] theorem acquire_exclusive (inType : SyncType) :
    acquire .exclusive inType = none := by
  cases inType <;> rfl

@[simp] theorem acquire_shared_write (others : ℕ) :
    acquire (.shared others) .write = none := rfl

theorem release_shared_isSome (others : ℕ) :
    (release (.shared others) .read).isSome = true := by
  cases others <;> rfl

end SharedMutex

/-- `SyncSection`.  `ownerThread` is `none` where the code stores `-1`, which no
thread id equals; `lockDepth` is the `int` of the code. -/
structure SyncSection (τ : Type*) where
  mutex : SharedMutex := .free
  ownerThread : Option τ := none
  lockDepth : Int32 := 0
  deriving DecidableEq

namespace SyncSection

variable {τ : Type*} [DecidableEq τ]

/-- `SyncSection::Enter` called by the thread `me`. -/
def enter (s : SyncSection τ) (me : τ) (inType : SyncType) :
    Option (SyncSection τ) :=
  if s.ownerThread = some me then
    some { s with lockDepth := s.lockDepth + 1 }
  else
    (s.mutex.acquire inType).map fun mutex =>
      { s with mutex := mutex, ownerThread := some me }

/-- `SyncSection::Leave`. -/
def leave (s : SyncSection τ) (inType : SyncType) : Option (SyncSection τ) :=
  if 0 < s.lockDepth then
    some { s with lockDepth := s.lockDepth - 1 }
  else
    (s.mutex.release inType).map fun mutex =>
      { s with mutex := mutex, ownerThread := none }

end SyncSection

/-! ## The depth as a number -/

theorem lockDepth_pos_iff {depth : Int32} : 0 < depth ↔ 0 < depth.toInt := by
  rw [Int32.lt_iff_toInt_lt, Int32.toInt_zero]

theorem toInt_fetch_add {depth : Int32} (h : depth ≠ Int32.maxValue) :
    (depth + 1).toInt = depth.toInt + 1 := by
  have hne : depth.toInt ≠ 2 ^ 31 - 1 := by
    rw [← Int32.toInt_maxValue]
    exact fun heq => h (Int32.toInt_inj.mp heq)
  have hlow := depth.le_toInt
  have hhigh := depth.toInt_lt
  rw [Int32.toInt_add, Int32.toInt_one]
  exact Int.bmod_eq_of_le (by omega) (by omega)

theorem toInt_fetch_sub {depth : Int32} (h : 0 < depth) :
    (depth - 1).toInt = depth.toInt - 1 := by
  have hpos := lockDepth_pos_iff.mp h
  have hhigh := depth.toInt_lt
  rw [Int32.toInt_sub, Int32.toInt_one]
  exact Int.bmod_eq_of_le (by omega) (by omega)

/-! ## Calls of many threads -/

/-- A `SyncSection` and the open sections, the newest first. -/
structure SyncSystem (τ : Type*) where
  sync : SyncSection τ := {}
  opened : List (τ × SyncType) := []
  deriving DecidableEq

/-- A call of `Enter` with its type, or of `Leave` with the type of the
caller's newest open section. -/
inductive SyncCall (τ : Type*)
  | enter (me : τ) (inType : SyncType)
  | leave (me : τ)
  deriving DecidableEq

namespace SyncSystem

variable {τ : Type*} [DecidableEq τ]

/-- The newest open section of a thread. -/
def innermost (s : SyncSystem τ) (me : τ) : Option (τ × SyncType) :=
  s.opened.find? fun opened => opened.1 = me

/-- The sections left open once `me` has closed its newest one. -/
def remaining (s : SyncSystem τ) (me : τ) : List (τ × SyncType) :=
  s.opened.eraseP fun opened => opened.1 = me

/-- One call.  An `Enter` that has to wait is not taken; a `Leave` that releases
the mutex in a mode it is not held in has no next state. -/
def step (s : SyncSystem τ) : SyncCall τ → Option (SyncSystem τ)
  | .enter me inType => do
      let sync ← s.sync.enter me inType
      some { sync := sync, opened := (me, inType) :: s.opened }
  | .leave me => do
      let newest ← s.innermost me
      let sync ← s.sync.leave newest.2
      some { sync := sync, opened := s.remaining me }

/-- While a thread has an open WRITE section, every open section is its own. -/
def Excludes (s : SyncSystem τ) : Prop :=
  ∀ opened ∈ s.opened, opened.2 = .write →
    ∀ other ∈ s.opened, other.1 = opened.1

instance (s : SyncSystem τ) : Decidable s.Excludes :=
  inferInstanceAs (Decidable (∀ opened ∈ s.opened, opened.2 = .write →
    ∀ other ∈ s.opened, other.1 = opened.1))

/-- A `Leave` that reaches the mutex finds it held in the mode it releases. -/
def UnlocksHeld (s : SyncSystem τ) : Prop :=
  ∀ me newest, s.innermost me = some newest → ¬ 0 < s.sync.lockDepth →
    (s.sync.mutex.release newest.2).isSome = true

/-- The calls that keep the count: an `Enter` of the recorded owner opens no
WRITE section on a mutex that is held in shared mode, and does not overflow
the depth. -/
def Counted (s : SyncSystem τ) : SyncCall τ → Prop
  | .enter me inType => s.sync.ownerThread = some me →
      (inType = .write → s.sync.mutex = .exclusive) ∧
        s.sync.lockDepth ≠ Int32.maxValue
  | .leave _ => True

instance (s : SyncSystem τ) : ∀ call, Decidable (s.Counted call)
  | .enter me inType =>
      inferInstanceAs (Decidable (s.sync.ownerThread = some me →
        (inType = .write → s.sync.mutex = .exclusive) ∧
          s.sync.lockDepth ≠ Int32.maxValue))
  | .leave _ => inferInstanceAs (Decidable True)

/-- What a call can do. -/
inductive Effect (s : SyncSystem τ) : SyncCall τ → SyncSystem τ → Prop
  | reenter {me : τ} {inType : SyncType}
      (howner : s.sync.ownerThread = some me) :
      Effect s (.enter me inType)
        { sync := { s.sync with lockDepth := s.sync.lockDepth + 1 }
          opened := (me, inType) :: s.opened }
  | acquire {me : τ} {inType : SyncType} {mutex : SharedMutex}
      (howner : s.sync.ownerThread ≠ some me)
      (hacquire : s.sync.mutex.acquire inType = some mutex) :
      Effect s (.enter me inType)
        { sync := { s.sync with mutex := mutex, ownerThread := some me }
          opened := (me, inType) :: s.opened }
  | decrement {me : τ} {newest : τ × SyncType}
      (hnewest : s.innermost me = some newest)
      (hdepth : 0 < s.sync.lockDepth) :
      Effect s (.leave me)
        { sync := { s.sync with lockDepth := s.sync.lockDepth - 1 }
          opened := s.remaining me }
  | release {me : τ} {newest : τ × SyncType} {mutex : SharedMutex}
      (hnewest : s.innermost me = some newest)
      (hdepth : ¬ 0 < s.sync.lockDepth)
      (hrelease : s.sync.mutex.release newest.2 = some mutex) :
      Effect s (.leave me)
        { sync := { s.sync with mutex := mutex, ownerThread := none }
          opened := s.remaining me }

theorem effect_of_step {s s' : SyncSystem τ} {call : SyncCall τ}
    (hstep : step s call = some s') : Effect s call s' := by
  cases call with
  | enter me inType =>
      obtain ⟨sync, hsync, hs'⟩ := Option.bind_eq_some_iff.mp hstep
      obtain rfl := Option.some.inj hs'
      unfold SyncSection.enter at hsync
      split at hsync
      · next howner =>
          obtain rfl := Option.some.inj hsync
          exact Effect.reenter howner
      · next howner =>
          obtain ⟨mutex, hacquire, rfl⟩ := Option.map_eq_some_iff.mp hsync
          exact Effect.acquire howner hacquire
  | leave me =>
      obtain ⟨newest, hnewest, hleave⟩ := Option.bind_eq_some_iff.mp hstep
      obtain ⟨sync, hsync, hs'⟩ := Option.bind_eq_some_iff.mp hleave
      obtain rfl := Option.some.inj hs'
      unfold SyncSection.leave at hsync
      split at hsync
      · next hdepth =>
          obtain rfl := Option.some.inj hsync
          exact Effect.decrement hnewest hdepth
      · next hdepth =>
          obtain ⟨mutex, hrelease, rfl⟩ := Option.map_eq_some_iff.mp hsync
          exact Effect.release hnewest hdepth hrelease

end SyncSystem

end DokeviNet
