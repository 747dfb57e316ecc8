import DokeviNetwork.Sync.SyncSection
import Mathlib.Logic.Function.Basic

/-!
# ReadLock, WriteLock and EndLock

`MultiThreadSync` remembers the mode of its lock in one member, `_type`.
`ReadLock` and `WriteLock` assign it and then call `Enter`, which takes its
argument by reference: it looks at `_type` once more when it goes for the mutex,
and may then have to wait.  `EndLock` passes on what `_type` holds by then.
-/

namespace DokeviNet

open LabelledRun

/-- Where a thread stands: in no call, between the two steps of `ReadLock` or
`WriteLock`, or in an `Enter` that takes the mutex in `mode`. -/
inductive LockPc
  | idle
  | assigned (kind : SyncType)
  | waiting (kind mode : SyncType)
  deriving DecidableEq

/-- One thread: where it stands, and its open calls, the newest first; `read`
stands for `ReadLock`. -/
structure LockThread where
  pc : LockPc := .idle
  opened : List SyncType := []
  deriving DecidableEq

/-- The call that the last of its `EndLock`s will close. -/
def LockThread.outermost (thread : LockThread) : Option SyncType :=
  thread.opened.getLast?

/-- A thread in a call is not as it was at the start. -/
theorem LockThread.ne_new_of_pc {thread : LockThread} {pc : LockPc}
    (hpc : thread.pc = pc) (hne : pc ≠ .idle) : thread ≠ {} := by
  rintro rfl
  exact hne hpc.symm

/-- A `MultiThreadSync` and the threads that use it. -/
structure LockSystem (τ : Type*) where
  sync : SyncSection τ := {}
  type : SyncType
  threads : τ → LockThread := fun _ => {}

/-- A thread assigns `_type` in a `ReadLock` or `WriteLock`, calls `Enter`, is
granted the mutex it waits for, or calls `EndLock`. -/
inductive LockStep (τ : Type*)
  | lock (me : τ) (kind : SyncType)
  | enter (me : τ)
  | acquire (me : τ)
  | endLock (me : τ)
  deriving DecidableEq

namespace LockSystem

variable {τ : Type*}

/-- A new object; the constructor does not set `_type`. -/
def start (type : SyncType) : LockSystem τ where
  type := type

section

variable [DecidableEq τ]

/-- The first step of `ReadLock` or `WriteLock`. -/
def lock (s : LockSystem τ) (me : τ) (kind : SyncType) :
    Option (LockSystem τ) :=
  if (s.threads me).pc = .idle then
    some { s with
      type := kind
      threads := Function.update s.threads me
        { s.threads me with pc := .assigned kind } }
  else none

/-- The second step: `Enter` counts for the owner, and otherwise reads its
argument. -/
def enter (s : LockSystem τ) (me : τ) : Option (LockSystem τ) :=
  match (s.threads me).pc with
  | .assigned kind =>
    if s.sync.ownerThread = some me then
      some { s with
        sync := { s.sync with lockDepth := s.sync.lockDepth + 1 }
        threads := Function.update s.threads me
          { pc := .idle, opened := kind :: (s.threads me).opened } }
    else
      some { s with
        threads := Function.update s.threads me
          { s.threads me with pc := .waiting kind s.type } }
  | _ => none

/-- The end of an `Enter` that takes the mutex; `none` while it waits. -/
def acquire (s : LockSystem τ) (me : τ) : Option (LockSystem τ) :=
  match (s.threads me).pc with
  | .waiting kind mode =>
    (s.sync.mutex.acquire mode).map fun mutex =>
      { s with
        sync := { s.sync with mutex := mutex, ownerThread := some me }
        threads := Function.update s.threads me
          { pc := .idle, opened := kind :: (s.threads me).opened } }
  | _ => none

/-- `EndLock`; `none` where it releases the mutex in a mode it is not held
in. -/
def endLock (s : LockSystem τ) (me : τ) : Option (LockSystem τ) :=
  match (s.threads me).pc, (s.threads me).opened with
  | .idle, _ :: rest =>
    (s.sync.leave s.type).map fun sync =>
      { s with
        sync := sync
        threads := Function.update s.threads me
          { pc := .idle, opened := rest } }
  | _, _ => none

/-- One step of one thread. -/
def step (s : LockSystem τ) : LockStep τ → Option (LockSystem τ)
  | .lock me kind => s.lock me kind
  | .enter me => s.enter me
  | .acquire me => s.acquire me
  | .endLock me => s.endLock me

end

/-- How an `EndLock` would release the mutex, `none` if it only counts down:
`unlock_shared()` for `read`, `unlock()` for `write`. -/
def unlocks (s : LockSystem τ) : Option SyncType :=
  if 0 < s.sync.lockDepth then none else some s.type

/-- An `EndLock` that reaches the mutex releases it in the mode of the caller's
outermost open call. -/
def ReleasesOwn (s : LockSystem τ) : LockStep τ → Prop
  | .endLock me =>
    ∀ mode ∈ s.unlocks, ∀ kind ∈ (s.threads me).outermost, mode = kind
  | _ => True

instance (s : LockSystem τ) : ∀ l, Decidable (s.ReleasesOwn l)
  | .lock _ _ => isTrue trivial
  | .enter _ => isTrue trivial
  | .acquire _ => isTrue trivial
  | .endLock me => inferInstanceAs (Decidable
      (∀ mode ∈ s.unlocks, ∀ kind ∈ (s.threads me).outermost, mode = kind))

/-! ## What `_type` holds -/

/-- The kind of the call that was begun last, by any thread. -/
def lastBegun : List (LockStep τ) → Option SyncType
  | [] => none
  | .lock _ kind :: steps => (lastBegun steps).or (some kind)
  | _ :: steps => lastBegun steps

theorem lastBegun_append (past : List (LockStep τ)) (l : LockStep τ) :
    lastBegun (past ++ [l]) = (lastBegun [l]).or (lastBegun past) := by
  induction past with
  | nil => cases l <;> rfl
  | cons first past ih =>
      cases first with
      | lock =>
          rw [List.cons_append, lastBegun, ih, lastBegun, Option.or_assoc]
      | enter | acquire | endLock => exact ih

/-- `_type` is the kind begun last, and no thread is in a call or has one open
before the first is begun. -/
structure Remembers (past : List (LockStep τ)) (s : LockSystem τ) : Prop where
  type : ∀ kind ∈ lastBegun past, s.type = kind
  begun : ∀ me, s.threads me ≠ {} → (lastBegun past).isSome

theorem remembers_start (type : SyncType) :
    Remembers [] (start type : LockSystem τ) where
  type := by simp [lastBegun]
  begun me h := absurd rfl h

/-- A step of a thread in a call, or with one open, that begins none. -/
theorem Remembers.keep {past : List (LockStep τ)} {s s' : LockSystem τ}
    {l : LockStep τ} (h : Remembers past s) (hnone : lastBegun [l] = none)
    (htype : s'.type = s.type) {me : τ} (hme : s.threads me ≠ {}) :
    Remembers (past ++ [l]) s' := by
  have hsame : lastBegun (past ++ [l]) = lastBegun past := by
    rw [lastBegun_append, hnone, Option.none_or]
  constructor
  · rw [hsame, htype]
    exact h.type
  · intro other _
    rw [hsame]
    exact h.begun me hme

/-- The outermost open call was begun, so something was. -/
theorem Remembers.type_eq_iff {past : List (LockStep τ)} {s : LockSystem τ}
    (h : Remembers past s) {me : τ} {kind : SyncType}
    (hopen : (s.threads me).outermost = some kind) :
    s.type = kind ↔ lastBegun past = some kind := by
  have hme : s.threads me ≠ {} := by
    intro hnew
    rw [hnew] at hopen
    cases hopen
  obtain ⟨last, hlast⟩ := Option.isSome_iff_exists.mp (h.begun me hme)
  rw [h.type last hlast, hlast, Option.some.injEq]

variable [DecidableEq τ]

theorem Remembers.lock {past : List (LockStep τ)} {s s' : LockSystem τ}
    {me : τ} {kind : SyncType} (hstep : s.lock me kind = some s') :
    Remembers (past ++ [.lock me kind]) s' := by
  obtain ⟨-, hstep⟩ := Option.ite_none_right_eq_some.mp hstep
  obtain rfl := Option.some.inj hstep
  have hlast : lastBegun (past ++ [.lock me kind]) = some kind := by
    rw [lastBegun_append]
    rfl
  constructor
  · rw [hlast]
    intro k hk
    exact Option.some.inj hk
  · rw [hlast]
    exact fun _ _ => rfl

theorem Remembers.enter {past : List (LockStep τ)} {s s' : LockSystem τ}
    {me : τ} (h : Remembers past s) (hstep : s.enter me = some s') :
    Remembers (past ++ [.enter me]) s' := by
  simp only [LockSystem.enter] at hstep
  split at hstep
  · next kind hpc =>
    have hme : s.threads me ≠ {} := LockThread.ne_new_of_pc hpc (by simp)
    split at hstep
    · obtain rfl := Option.some.inj hstep
      exact h.keep rfl rfl hme
    · obtain rfl := Option.some.inj hstep
      exact h.keep rfl rfl hme
  · cases hstep

theorem Remembers.acquire {past : List (LockStep τ)} {s s' : LockSystem τ}
    {me : τ} (h : Remembers past s) (hstep : s.acquire me = some s') :
    Remembers (past ++ [.acquire me]) s' := by
  simp only [LockSystem.acquire] at hstep
  split at hstep
  · next kind mode hpc =>
    obtain ⟨mutex, -, rfl⟩ := Option.map_eq_some_iff.mp hstep
    exact h.keep rfl rfl (LockThread.ne_new_of_pc hpc (by simp))
  · cases hstep

theorem Remembers.endLock {past : List (LockStep τ)} {s s' : LockSystem τ}
    {me : τ} (h : Remembers past s) (hstep : s.endLock me = some s') :
    Remembers (past ++ [.endLock me]) s' := by
  simp only [LockSystem.endLock] at hstep
  split at hstep
  · next kind rest _ hopened =>
    have hme : s.threads me ≠ {} := by
      intro hnew
      rw [hnew] at hopened
      cases hopened
    obtain ⟨sync, -, rfl⟩ := Option.map_eq_some_iff.mp hstep
    exact h.keep rfl rfl hme
  · cases hstep

theorem Remembers.step {past : List (LockStep τ)} {s s' : LockSystem τ}
    {l : LockStep τ} (h : Remembers past s) (hstep : s.step l = some s') :
    Remembers (past ++ [l]) s' := by
  cases l with
  | lock me kind => exact Remembers.lock hstep
  | enter me => exact h.enter hstep
  | acquire me => exact h.acquire hstep
  | endLock me => exact h.endLock hstep

/-- Every `EndLock` that reaches the mutex releases what its thread's outermost
call is for, exactly when that call is of the kind of the call begun last, by
whichever thread. -/
theorem releasesOwn_iff_lastBegun {type : SyncType}
    {steps : List (LockStep τ)} :
    Along step ReleasesOwn (start type) steps ↔
      ∀ pre me post s, steps = pre ++ .endLock me :: post →
        run step (start type) pre = some s → ¬0 < s.sync.lockDepth →
        ∀ kind ∈ (s.threads me).outermost, lastBegun pre = some kind := by
  have hremembers : ∀ (pre : List (LockStep τ)) s,
      run step (start type) pre = some s → Remembers pre s := by
    intro pre s hrun
    exact history_of_run (fun _ _ _ _ h hstep => Remembers.step h hstep)
      (remembers_start type) hrun
  constructor
  · rintro halong pre me post s rfl hrun hdepth kind hkind
    have hreleases := halong.at_step hrun
    have hunlocks : s.unlocks = some s.type := if_neg hdepth
    exact ((hremembers pre s hrun).type_eq_iff hkind).mp
      (hreleases s.type hunlocks kind hkind)
  · intro hlast
    apply along_of_prefixes
    intro pre l post s heq _ hrun
    cases l with
    | endLock me =>
        intro mode hmode kind hkind
        have hdepth : ¬0 < s.sync.lockDepth := by
          intro hpos
          rw [unlocks, if_pos hpos] at hmode
          cases hmode
        rw [unlocks, if_neg hdepth] at hmode
        obtain rfl := Option.some.inj hmode
        exact ((hremembers pre s hrun).type_eq_iff hkind).mpr
          (hlast pre me post s heq hrun hdepth kind hkind)
    | lock | enter | acquire => trivial

/-- One thread nests a `ReadLock` in a `WriteLock`. -/
def readInWrite : List (LockStep Bool) :=
  [.lock false .write, .enter false, .acquire false, .lock false .read,
    .enter false, .endLock false, .endLock false]

/-- A writer that only waits changes what a reader's `EndLock` does. -/
def writerWaits : List (LockStep Bool) :=
  [.lock false .read, .enter false, .acquire false, .lock true .write,
    .enter true, .endLock false]

/-- The outer `EndLock` calls `unlock_shared()` on a mutex locked for writing,
and the reader's calls `unlock()` on one locked for reading. -/
theorem readInWrite_releases_other :
    ¬Along step ReleasesOwn (start .read) readInWrite ∧
      run step (start .read : LockSystem Bool) readInWrite = none ∧
      ¬Along step ReleasesOwn (start .read) writerWaits ∧
      run step (start .read : LockSystem Bool) writerWaits = none := by
  refine ⟨by decide, rfl, by decide, rfl⟩

end LockSystem

end DokeviNet
