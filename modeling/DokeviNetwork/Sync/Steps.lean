import DokeviNetwork.Sync.SyncSection
import Mathlib.Logic.Function.Basic

/-!
# SyncSection between its own steps

`Enter` and `Leave` are not atomic: each reads one field, then changes the
mutex or the depth, then possibly writes the owner.  Here every such step of
every thread is a step of its own, so any number of threads may stand between
two of them.
-/

namespace DokeviNet

open LabelledRun

/-- An open section: the type it was entered with, and whether its `Enter` only
counted it in `_lockDepth`. -/
structure OpenSection where
  inType : SyncType
  counted : Bool
  deriving DecidableEq

/-- Where a thread stands. -/
inductive SyncPc
  /-- In no call. -/
  | idle
  /-- `Enter` read its own id; `_lockDepth.fetch_add(1)` is next. -/
  | wantDepth (inType : SyncType)
  /-- `Enter` read another id; it has to take the mutex. -/
  | wantMutex (inType : SyncType)
  /-- `Enter` holds the mutex; `_ownerThread` is not written yet. -/
  | setOwner (inType : SyncType)
  /-- `Leave` of this section read a positive depth. -/
  | decrement (leaving : OpenSection)
  /-- `Leave` of this section read no positive depth. -/
  | unlock (leaving : OpenSection)
  /-- `Leave` has released the mutex; `_ownerThread` is not written yet. -/
  | clearOwner
  deriving DecidableEq

/-- One thread: where it stands and its open sections, the newest first.  A
section is open from the end of its `Enter` to the start of its `Leave`. -/
structure SyncThread where
  pc : SyncPc := .idle
  sections : List OpenSection := []
  deriving DecidableEq

/-- A `SyncSection` and the threads that use it. -/
structure SyncThreads (τ : Type*) where
  sync : SyncSection τ := {}
  threads : τ → SyncThread := fun _ => {}

/-- A thread starts an `Enter` or a `Leave` (and takes its first step), or takes
the next step of the call it is in. -/
inductive SyncStep (τ : Type*)
  | enter (me : τ) (inType : SyncType)
  | leave (me : τ)
  | advance (me : τ)

namespace SyncThreads

variable {τ : Type*} [DecidableEq τ]

/-- The state after a step of `me`. -/
def after (s : SyncThreads τ) (me : τ) (sync : SyncSection τ)
    (thread : SyncThread) : SyncThreads τ :=
  { sync := sync, threads := Function.update s.threads me thread }

@[simp] theorem after_sync (s : SyncThreads τ) (me : τ) (sync : SyncSection τ)
    (thread : SyncThread) : (s.after me sync thread).sync = sync := rfl

@[simp] theorem after_threads_self (s : SyncThreads τ) (me : τ)
    (sync : SyncSection τ) (thread : SyncThread) :
    (s.after me sync thread).threads me = thread := by
  simp [after]

theorem after_threads_of_ne (s : SyncThreads τ) {me other : τ}
    (sync : SyncSection τ) (thread : SyncThread) (hne : other ≠ me) :
    (s.after me sync thread).threads other = s.threads other := by
  simp [after, hne]

/-- What holds of the thread that took a step and held of the others before
holds of every thread. -/
theorem of_after {P : SyncThread → Prop} {s : SyncThreads τ} {me other : τ}
    {sync : SyncSection τ} {thread : SyncThread}
    (hme : other = me → P thread) (hother : other ≠ me → P (s.threads other)) :
    P ((s.after me sync thread).threads other) := by
  by_cases heq : other = me
  · rw [heq, after_threads_self]
    exact hme heq
  · rw [after_threads_of_ne s sync thread heq]
    exact hother heq

theorem after_after (s : SyncThreads τ) (me : τ) (sync sync' : SyncSection τ)
    (thread thread' : SyncThread) :
    (s.after me sync thread).after me sync' thread' =
      s.after me sync' thread' := by
  simp [after]

/-- The next step of the call that `me` is in, `none` while it waits for the
mutex, or where it would release it in a mode it is not held in. -/
def advance (s : SyncThreads τ) (me : τ) : Option (SyncThreads τ) :=
  let thread := s.threads me
  match thread.pc with
  | .idle => none
  | .wantDepth inType =>
      some (s.after me { s.sync with lockDepth := s.sync.lockDepth + 1 }
        { pc := .idle
          sections := { inType, counted := true } :: thread.sections })
  | .wantMutex inType =>
      (s.sync.mutex.acquire inType).map fun mutex =>
        s.after me { s.sync with mutex := mutex }
          { thread with pc := .setOwner inType }
  | .setOwner inType =>
      some (s.after me { s.sync with ownerThread := some me }
        { pc := .idle
          sections := { inType, counted := false } :: thread.sections })
  | .decrement _ =>
      some (s.after me { s.sync with lockDepth := s.sync.lockDepth - 1 }
        { thread with pc := .idle })
  | .unlock leaving =>
      (s.sync.mutex.release leaving.inType).map fun mutex =>
        s.after me { s.sync with mutex := mutex }
          { thread with pc := .clearOwner }
  | .clearOwner =>
      some (s.after me { s.sync with ownerThread := none }
        { thread with pc := .idle })

/-- One step of one thread. -/
def step (s : SyncThreads τ) : SyncStep τ → Option (SyncThreads τ)
  | .enter me inType =>
      if (s.threads me).pc = .idle then
        some (s.after me s.sync
          { s.threads me with
            pc :=
              if s.sync.ownerThread = some me then .wantDepth inType
              else .wantMutex inType })
      else none
  | .leave me =>
      match (s.threads me).pc, (s.threads me).sections with
      | .idle, leaving :: rest =>
          some (s.after me s.sync
            { pc :=
                if 0 < s.sync.lockDepth then .decrement leaving
                else .unlock leaving
              sections := rest })
      | _, _ => none
  | .advance me => s.advance me

end SyncThreads

end DokeviNet
