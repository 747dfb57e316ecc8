import DokeviNetwork.Sync.Writers
import DokeviNetwork.Trace.LockStackTracer
import DokeviNetwork.Trace.Registration

/-!
# The lock of the lock tracer

`LockStackTracer` enters and leaves its own `_sync` by hand.  `RegisterThread`
returns without leaving it when it finds the id of the caller in the map, and
`GetLockStackFrameArray` always returns before it leaves.  In the runs in which
neither happens, only `RegisterThread` uses the lock, for writing, and gives it
back, whatever the threads do in between.

The threads take steps in any order, those within `Enter` and `Leave` included.
A thread is named by its id, which is also what `_sync` keeps of its owner; what
belongs to the thread itself is kept under its number, since a later thread may
have the same id.

Not followed is what the stores of the tracer do outside its arrays: a frame at a
depth that is negative or at least 128, and the pointers of a thread that
registers when 1023 have, for which the arrays have no place any more.
-/

namespace DokeviNet

open LabelledRun EntryMap

/-- A call of the tracer. -/
inductive TracerCall (σ : Type*)
  | registerThread
  | tryLockStackTrace (inLockSync : σ)
  | inLockStackTrace
  | outLockStackTrace
  | getLockStackFrameArray
  deriving DecidableEq

/-- Where a thread stands.  `rest` is the lock that `TryLockStackTrace` records
after `RegisterThread`, if it has called it. -/
inductive TracerPc (σ : Type*)
  | idle
  /-- `RegisterThread` is in `_sync.Enter`. -/
  | registerEnter (rest : Option σ)
  /-- `RegisterThread` looks for the id in the map. -/
  | registerFind (rest : Option σ)
  /-- `RegisterThread` has stored the thread. -/
  | registerStored (rest : Option σ)
  /-- `RegisterThread` is in `_sync.Leave`. -/
  | registerLeave (rest : Option σ)
  /-- `TryLockStackTrace` is about to write its frame. -/
  | record (inLockSync : σ)
  /-- `GetLockStackFrameArray` is in `_sync.Enter`. -/
  | arrayEnter
  /-- `GetLockStackFrameArray` copies the frames. -/
  | arrayCopy
  deriving DecidableEq

/-- `RegisterThread` is about to look for its caller. -/
def TracerPc.finds {σ : Type*} : TracerPc σ → Bool
  | registerFind _ => true
  | _ => false

/-- Where a thread goes on after `RegisterThread`. -/
def TracerPc.afterRegister {σ : Type*} : Option σ → TracerPc σ
  | none => idle
  | some inLockSync => record inLockSync

/-- `LockStackTracer` and the threads: `_sync`, `_lastThreadId`,
`_threadNumbers`, the threads to whose frames and depth the pointers at an index
point, the threads with `gRegisteredLockStackFrame` and their frames, where the
thread with an id stands, and what `GetLockStackFrameArray` has returned to it
last. -/
structure LockTracer (θ σ : Type*) where
  sync : SyncThreads θ
  threads : LiveThreads θ
  lastThreadId : ℕ
  threadNumbers : AList fun _ : θ => ℕ
  recordLockStackFrames : ℕ → Option ℕ
  lockStackDepths : ℕ → Option ℕ
  registered : ℕ → Bool
  lockFrames : ℕ → LockFrames σ
  pc : θ → TracerPc σ
  returned : θ → List (List (LockStack σ))

/-- A thread starts or ends, begins a call, or takes the next step of its
call. -/
inductive TracerStep (θ σ : Type*)
  | start (id : θ)
  | exit (id : θ)
  | call (id : θ) (call : TracerCall σ)
  | advance (id : θ)
  deriving DecidableEq

namespace LockTracer

variable {θ σ : Type*}

/-- No thread has started. -/
def new : LockTracer θ σ where
  sync := {}
  threads := .empty
  lastThreadId := 0
  threadNumbers := ∅
  recordLockStackFrames := fun _ => none
  lockStackDepths := fun _ => none
  registered := fun _ => false
  lockFrames := fun _ => LockFrames.new
  pc := fun _ => .idle
  returned := fun _ => []

/-- The frames that `GetLockStackFrameArray` copies for an entry of the map;
`none` where it would follow a null pointer. -/
def copiedFrames (s : LockTracer θ σ) (number : ℕ) :
    Option (List (LockStack σ)) :=
  (s.lockStackDepths number).bind fun depths =>
    (s.recordLockStackFrames number).map fun frames =>
      let depth := (s.lockFrames depths).depth.toInt
      (List.range (depth + 1).toNat).map fun i : ℕ =>
        (s.lockFrames frames).frames i

/-- What `GetLockStackFrameArray` returns to the thread `t`. -/
def lockStackFrameArray (s : LockTracer θ σ) (t : ℕ) :
    Option (List (List (LockStack σ))) :=
  (s.threadNumbers.entries.mapM fun entry => s.copiedFrames entry.2).map
    fun lists => if (s.lockFrames t).depth ≠ 0 then lists else []

section

variable [DecidableEq θ]

/-- The thread with an id has taken a step, after which it stands at `pc`. -/
def goesTo (s : LockTracer θ σ) (id : θ) (pc : TracerPc σ) : LockTracer θ σ :=
  { s with pc := Function.update s.pc id pc }

/-- The frames of the thread `t` change. -/
def onFrames (s : LockTracer θ σ) (t : ℕ)
    (change : LockFrames σ → LockFrames σ) : LockTracer θ σ :=
  { s with
    lockFrames := Function.update s.lockFrames t (change (s.lockFrames t)) }

/-- `RegisterThread` begins, on the thread `t` with its id. -/
def registerThread (s : LockTracer θ σ) (id : θ) (t : ℕ) (rest : Option σ) :
    Option (LockTracer θ σ) :=
  let s := { s with registered := Function.update s.registered t true }
  (s.sync.step (.enter id .write)).map fun sync =>
    { s with sync := sync }.goesTo id (.registerEnter rest)

/-- The part of `RegisterThread` between `Enter` and `Leave`.  `LOG_CRITICAL`
returns. -/
def findOrStore (s : LockTracer θ σ) (id : θ) (t : ℕ) (rest : Option σ) :
    LockTracer θ σ :=
  if id ∈ s.threadNumbers then
    -- the early `return`: `_sync` is not left
    s.goesTo id (.afterRegister rest)
  else
    let lastThreadId := s.lastThreadId + 1
    { s with
      lastThreadId := lastThreadId
      threadNumbers := insertNew s.threadNumbers id lastThreadId
      recordLockStackFrames :=
        Function.update s.recordLockStackFrames lastThreadId (some t)
      lockStackDepths :=
        Function.update s.lockStackDepths lastThreadId (some t) }.goesTo id
        (.registerStored rest)

/-- The next step within `Enter` or `Leave`; the thread goes on at `done` once
the call has returned. -/
def advanceSync (s : LockTracer θ σ) (id : θ) (within done : TracerPc σ) :
    Option (LockTracer θ σ) :=
  (s.sync.step (.advance id)).map fun sync : SyncThreads θ =>
    { s with sync := sync }.goesTo id
      (if (sync.threads id).pc = SyncPc.idle then done else within)

/-- A thread begins a call. -/
def begin (s : LockTracer θ σ) (id : θ) (t : ℕ) :
    TracerCall σ → Option (LockTracer θ σ)
  | .registerThread => s.registerThread id t none
  | .tryLockStackTrace inLockSync =>
    if s.registered t then some (s.goesTo id (.record inLockSync))
    else s.registerThread id t (some inLockSync)
  | .inLockStackTrace => some (s.onFrames t LockFrames.inLockStackTrace)
  | .outLockStackTrace => some (s.onFrames t LockFrames.outLockStackTrace)
  | .getLockStackFrameArray =>
    (s.sync.step (.enter id .read)).map fun sync =>
      { s with sync := sync }.goesTo id .arrayEnter

/-- The thread `t` takes the next step of its call. -/
def advance (s : LockTracer θ σ) (id : θ) (t : ℕ) : Option (LockTracer θ σ) :=
  match s.pc id with
  | .idle => none
  | .registerEnter rest =>
    s.advanceSync id (.registerEnter rest) (.registerFind rest)
  | .registerFind rest => some (s.findOrStore id t rest)
  | .registerStored rest =>
    (s.sync.step (.leave id)).map fun sync =>
      { s with sync := sync }.goesTo id (.registerLeave rest)
  | .registerLeave rest =>
    s.advanceSync id (.registerLeave rest) (.afterRegister rest)
  | .record inLockSync =>
    let s := s.onFrames t fun frames => frames.tryLockStackTrace inLockSync
    some (s.goesTo id .idle)
  | .arrayEnter => s.advanceSync id .arrayEnter .arrayCopy
  | .arrayCopy =>
    -- `return` stands before `_sync.Leave`
    (s.lockStackFrameArray t).map fun lists =>
      { s with returned := Function.update s.returned id lists }.goesTo id .idle

def step (s : LockTracer θ σ) : TracerStep θ σ → Option (LockTracer θ σ)
  | .start id => (s.threads.start id).map fun threads =>
    { s with threads := threads }
  | .exit id =>
    match s.pc id with
    | .idle => (s.threads.exit id).map fun threads =>
      { s with threads := threads }
    | _ => none
  | .call id call =>
    match s.pc id with
    | .idle => (s.threads.current id).bind fun t => s.begin id t call
    | _ => none
  | .advance id => (s.threads.current id).bind fun t => s.advance id t

/-- Nobody holds the lock while no call is in progress. -/
def LeavesFree (s : LockTracer θ σ) : Prop :=
  (∀ id, s.pc id = .idle) →
    s.sync.sync.mutex = .free ∧ s.sync.sync.lockDepth = 0 ∧
      s.sync.sync.ownerThread = none

/-- Nobody asks for the array, and `RegisterThread` does not find its caller. -/
def Returns (s : LockTracer θ σ) : TracerStep θ σ → Prop
  | .call _ call => call ≠ .getLockStackFrameArray
  | .advance id => (s.pc id).finds = true → id ∉ s.threadNumbers
  | _ => True

instance [DecidableEq σ] (s : LockTracer θ σ) :
    ∀ l : TracerStep θ σ, Decidable (s.Returns l)
  | .start _ => inferInstanceAs (Decidable True)
  | .exit _ => inferInstanceAs (Decidable True)
  | .call _ call =>
    inferInstanceAs (Decidable (call ≠ .getLockStackFrameArray))
  | .advance id =>
    inferInstanceAs (Decidable ((s.pc id).finds = true → id ∉ s.threadNumbers))

end

/-! ## The lock and where the threads stand -/

/-- What a thread has to do with the lock, by where it stands. -/
inductive Follows : TracerPc σ → SyncThread → Prop
  | idle : Follows .idle {}
  | record (inLockSync : σ) : Follows (.record inLockSync) {}
  | wantMutex (rest : Option σ) :
      Follows (.registerEnter rest) { pc := .wantMutex .write, sections := [] }
  | setOwner (rest : Option σ) :
      Follows (.registerEnter rest) { pc := .setOwner .write, sections := [] }
  | find (rest : Option σ) :
      Follows (.registerFind rest)
        { pc := .idle, sections := [lockedWrite] }
  | stored (rest : Option σ) :
      Follows (.registerStored rest)
        { pc := .idle, sections := [lockedWrite] }
  | unlock (rest : Option σ) :
      Follows (.registerLeave rest)
        { pc := .unlock lockedWrite, sections := [] }
  | clearOwner (rest : Option σ) :
      Follows (.registerLeave rest) { pc := .clearOwner, sections := [] }

namespace Follows

variable {pc : TracerPc σ} {thread : SyncThread} {rest : Option σ}

theorem eq_of_idle (h : Follows (.idle : TracerPc σ) thread) : thread = {} := by
  cases h
  rfl

theorem eq_of_stored (h : Follows (.registerStored rest) thread) :
    thread = { pc := .idle, sections := [lockedWrite] } := by
  cases h
  rfl

theorem stored_of_find (h : Follows (.registerFind rest) thread) :
    Follows (.registerStored rest) thread := by
  cases h
  exact Follows.stored rest

theorem record_of_idle (h : Follows (.idle : TracerPc σ) thread)
    (inLockSync : σ) : Follows (.record inLockSync) thread := by
  cases h
  exact Follows.record inLockSync

theorem idle_of_record {inLockSync : σ}
    (h : Follows (.record inLockSync) thread) :
    Follows (.idle : TracerPc σ) thread := by
  cases h
  exact Follows.idle

theorem afterRegister (rest : Option σ) :
    Follows (.afterRegister rest) {} := by
  cases rest with
  | none => exact Follows.idle
  | some inLockSync => exact Follows.record inLockSync

theorem ne_wantDepth (h : Follows pc thread) :
    thread.pc ≠ .wantDepth .write := by
  cases h <;> exact nofun

end Follows

/-- The lock is in line with where the threads stand. -/
structure Orderly (sync : SyncThreads θ) (pc : θ → TracerPc σ) : Prop where
  exclusive : sync.Exclusive
  follows : ∀ id, Follows (pc id) (sync.threads id)

namespace Orderly

variable {sync sync' : SyncThreads θ} {pc : θ → TracerPc σ} {id : θ}
  {next : TracerPc σ} {rest : Option σ}

theorem free (h : Orderly sync pc) (hidle : ∀ id, pc id = .idle) :
    sync.sync.mutex = .free ∧ sync.sync.lockDepth = 0 ∧
      sync.sync.ownerThread = none := by
  have hthreads : ∀ id, sync.threads id = {} := by
    intro id
    have hfollows := h.follows id
    rw [hidle id] at hfollows
    exact hfollows.eq_of_idle
  have howner : sync.sync.ownerThread = none := by
    by_contra hne
    obtain ⟨id, hid⟩ := Option.ne_none_iff_exists'.mp hne
    have hown := h.exclusive.owner id hid
    rw [hthreads id] at hown
    simp [MayOwn] at hown
  cases h.exclusive.mutex with
  | free hmutex hdepth _ =>
      exact ⟨hmutex, Int32.toInt_inj.mp hdepth, howner⟩
  | held holder _ hholder _ =>
      rw [hthreads holder] at hholder
      exact absurd Outside.idle hholder.not_outside

/-- A thread that has entered the lock holds the mutex. -/
theorem holding (h : Orderly sync pc)
    (hthread : sync.threads id =
      { pc := .idle, sections := [lockedWrite] }) :
    sync.sync.mutex = .exclusive ∧
      Holding { pc := .idle, sections := [lockedWrite] }
        sync.sync.lockDepth.toInt := by
  have houtside : ¬Outside (sync.threads id) := by
    intro houtside
    have hnil := houtside.sections_eq_nil
    rw [hthread] at hnil
    exact List.cons_ne_nil _ _ hnil
  obtain ⟨hmutex, hholding, -⟩ := h.exclusive.mutex.holder houtside
  rw [hthread] at hholding
  exact ⟨hmutex, hholding⟩

end Orderly

theorem orderly_new :
    Orderly (new : LockTracer θ σ).sync (new : LockTracer θ σ).pc where
  exclusive :=
    ⟨SyncThreads.Mutex.free rfl Int32.toInt_zero fun _ => Outside.idle,
      fun _ howner => absurd howner nofun⟩
  follows := fun _ => Follows.idle

variable [DecidableEq θ]

namespace Orderly

variable {sync sync' : SyncThreads θ} {inner : SyncSection θ}
  {thread : SyncThread} {pc : θ → TracerPc σ} {id : θ} {next : TracerPc σ}
  {rest : Option σ}

/-- A step of the thread with this id after which the lock is still in order. -/
theorem update (h : Orderly sync pc) (hexclusive : sync'.Exclusive)
    (hothers : ∀ other, other ≠ id →
      sync'.threads other = sync.threads other)
    (hnext : Follows next (sync'.threads id)) :
    Orderly sync' (Function.update pc id next) := by
  refine ⟨hexclusive, ?_⟩
  intro other
  by_cases heq : other = id
  · subst heq
    rw [Function.update_self]
    exact hnext
  · rw [Function.update_of_ne heq, hothers other heq]
    exact h.follows other

theorem after (h : Orderly sync pc)
    (hexclusive : (sync.after id inner thread).Exclusive)
    (hnext : Follows next thread) :
    Orderly (sync.after id inner thread) (Function.update pc id next) := by
  apply h.update hexclusive
  · exact fun other hne => SyncThreads.after_threads_of_ne _ _ _ hne
  · rw [SyncThreads.after_threads_self]
    exact hnext

/-- A step that leaves the lock alone. -/
theorem goesTo (h : Orderly sync pc)
    (hnext : Follows next (sync.threads id)) :
    Orderly sync (Function.update pc id next) :=
  h.update h.exclusive (fun _ _ => rfl) hnext

/-- A thread outside the tracer's lock asks for it, and is not its owner. -/
theorem enter (h : Orderly sync pc) (hthread : sync.threads id = {})
    (hstep : sync.step (.enter id .write) = some sync') (rest : Option σ) :
    Orderly sync' (Function.update pc id (.registerEnter rest)) := by
  have hexclusive : sync'.Exclusive := h.exclusive.enter hstep
  have howner : sync.sync.ownerThread ≠ some id := by
    intro howner
    have hown := h.exclusive.owner id howner
    rw [hthread] at hown
    simp [MayOwn] at hown
  simp only [SyncThreads.step, hthread, if_pos, if_neg howner] at hstep
  obtain rfl := Option.some.inj hstep
  exact h.after hexclusive (Follows.wantMutex rest)

/-- A thread that has entered the lock once leaves it. -/
theorem leave (h : Orderly sync pc)
    (hthread : sync.threads id =
      { pc := .idle, sections := [lockedWrite] })
    (hstep : sync.step (.leave id) = some sync') (rest : Option σ) :
    Orderly sync' (Function.update pc id (.registerLeave rest)) := by
  have hexclusive : sync'.Exclusive := h.exclusive.leave hstep
  have hdepth : ¬0 < sync.sync.lockDepth := by
    intro hpos
    obtain ⟨-, hholding⟩ := h.holding hthread
    have hleave := hholding.leave rfl rfl
    rw [if_pos (lockDepth_pos_iff.mp hpos)] at hleave
    exact absurd (hleave.counted_of_decrement rfl) (by decide)
  simp only [SyncThreads.step, hthread, if_neg hdepth] at hstep
  obtain rfl := Option.some.inj hstep
  exact h.after hexclusive (Follows.unlock rest)

/-- The next step of `Enter` in `RegisterThread`. -/
theorem advance_enter (h : Orderly sync pc) (hpc : pc id = .registerEnter rest)
    (hstep : sync.step (.advance id) = some sync') :
    Orderly sync' (Function.update pc id
      (if (sync'.threads id).pc = SyncPc.idle then .registerFind rest
      else .registerEnter rest)) := by
  have hfollows := h.follows id
  rw [hpc] at hfollows
  have hexclusive : sync'.Exclusive :=
    h.exclusive.advance (fun heq => absurd heq hfollows.ne_wantDepth) hstep
  generalize hthread : sync.threads id = thread at hfollows
  simp only [SyncThreads.step, SyncThreads.advance, hthread] at hstep
  cases hfollows with
  | wantMutex =>
      obtain ⟨mutex, -, rfl⟩ := Option.map_eq_some_iff.mp hstep
      rw [SyncThreads.after_threads_self, if_neg (by decide)]
      exact h.after hexclusive (Follows.setOwner rest)
  | setOwner =>
      obtain rfl := Option.some.inj hstep
      rw [SyncThreads.after_threads_self, if_pos rfl]
      exact h.after hexclusive (Follows.find rest)

/-- The next step of `Leave` in `RegisterThread`. -/
theorem advance_leave (h : Orderly sync pc) (hpc : pc id = .registerLeave rest)
    (hstep : sync.step (.advance id) = some sync') :
    Orderly sync' (Function.update pc id
      (if (sync'.threads id).pc = SyncPc.idle then .afterRegister rest
      else .registerLeave rest)) := by
  have hfollows := h.follows id
  rw [hpc] at hfollows
  have hexclusive : sync'.Exclusive :=
    h.exclusive.advance (fun heq => absurd heq hfollows.ne_wantDepth) hstep
  generalize hthread : sync.threads id = thread at hfollows
  simp only [SyncThreads.step, SyncThreads.advance, hthread] at hstep
  cases hfollows with
  | unlock =>
      obtain ⟨mutex, -, rfl⟩ := Option.map_eq_some_iff.mp hstep
      rw [SyncThreads.after_threads_self, if_neg (by decide)]
      exact h.after hexclusive (Follows.clearOwner rest)
  | clearOwner =>
      obtain rfl := Option.some.inj hstep
      rw [SyncThreads.after_threads_self, if_pos rfl]
      exact h.after hexclusive (Follows.afterRegister rest)

end Orderly

/-! ## Runs -/

variable {s s' : LockTracer θ σ} {l : TracerStep θ σ} {id : θ} {t : ℕ}

theorem orderly_registerThread (h : Orderly s.sync s.pc)
    (hidle : s.pc id = .idle) {rest : Option σ}
    (hstep : s.registerThread id t rest = some s') :
    Orderly s'.sync s'.pc := by
  obtain ⟨sync, hsync, rfl⟩ := Option.map_eq_some_iff.mp hstep
  have hthread := h.follows id
  rw [hidle] at hthread
  exact h.enter hthread.eq_of_idle hsync rest

theorem orderly_begin (h : Orderly s.sync s.pc) (hidle : s.pc id = .idle)
    {call : TracerCall σ} (hcall : call ≠ .getLockStackFrameArray)
    (hstep : s.begin id t call = some s') : Orderly s'.sync s'.pc := by
  cases call with
  | registerThread => exact orderly_registerThread h hidle hstep
  | tryLockStackTrace inLockSync =>
      rw [begin] at hstep
      split at hstep
      · obtain rfl := Option.some.inj hstep
        have hfollows := h.follows id
        rw [hidle] at hfollows
        exact h.goesTo (hfollows.record_of_idle inLockSync)
      · exact orderly_registerThread h hidle hstep
  | inLockStackTrace =>
      obtain rfl := Option.some.inj hstep
      exact h
  | outLockStackTrace =>
      obtain rfl := Option.some.inj hstep
      exact h
  | getLockStackFrameArray => exact absurd rfl hcall

theorem orderly_advance (h : Orderly s.sync s.pc)
    (hfind : (s.pc id).finds = true → id ∉ s.threadNumbers)
    (hstep : s.advance id t = some s') : Orderly s'.sync s'.pc := by
  have hfollows := h.follows id
  rw [advance] at hstep
  split at hstep
  · cases hstep
  · next rest hpc =>
    obtain ⟨sync, hsync, rfl⟩ := Option.map_eq_some_iff.mp hstep
    exact h.advance_enter hpc hsync
  · next rest hpc =>
    obtain rfl := Option.some.inj hstep
    rw [hpc] at hfind hfollows
    rw [findOrStore, if_neg (hfind rfl)]
    exact h.goesTo hfollows.stored_of_find
  · next rest hpc =>
    obtain ⟨sync, hsync, rfl⟩ := Option.map_eq_some_iff.mp hstep
    rw [hpc] at hfollows
    exact h.leave hfollows.eq_of_stored hsync rest
  · next rest hpc =>
    obtain ⟨sync, hsync, rfl⟩ := Option.map_eq_some_iff.mp hstep
    exact h.advance_leave hpc hsync
  · next inLockSync hpc =>
    obtain rfl := Option.some.inj hstep
    rw [hpc] at hfollows
    exact h.goesTo hfollows.idle_of_record
  · next hpc =>
    -- nobody asks for the array
    rw [hpc] at hfollows
    cases hfollows
  · next hpc =>
    rw [hpc] at hfollows
    cases hfollows

/-- A call of `RegisterThread` that finds its caller in the map returns with the
lock held for writing. -/
theorem exclusive_of_found (h : Orderly s.sync s.pc) {rest : Option σ}
    (hpc : s.pc id = .registerFind rest) (hid : id ∈ s.threadNumbers)
    (hstep : s.advance id t = some s') :
    s'.pc id = .afterRegister rest ∧ s'.sync.sync.mutex = .exclusive := by
  have hfollows := h.follows id
  rw [hpc] at hfollows
  have hthread := hfollows.stored_of_find.eq_of_stored
  obtain ⟨hmutex, -⟩ := h.holding hthread
  rw [advance, hpc] at hstep
  obtain rfl := Option.some.inj hstep
  rw [findOrStore, if_pos hid]
  exact ⟨Function.update_self _ _ _, hmutex⟩

theorem orderly_step (h : Orderly s.sync s.pc) (hreturns : s.Returns l)
    (hstep : s.step l = some s') : Orderly s'.sync s'.pc := by
  cases l with
  | start id =>
      obtain ⟨threads, -, rfl⟩ := Option.map_eq_some_iff.mp hstep
      exact h
  | exit id =>
      rw [step] at hstep
      split at hstep
      · obtain ⟨threads, -, rfl⟩ := Option.map_eq_some_iff.mp hstep
        exact h
      · cases hstep
  | call id call =>
      rw [step] at hstep
      split at hstep
      · next hidle =>
        obtain ⟨t, -, hbegin⟩ := Option.bind_eq_some_iff.mp hstep
        exact orderly_begin h hidle hreturns hbegin
      · cases hstep
  | advance id =>
      obtain ⟨t, -, hadvance⟩ := Option.bind_eq_some_iff.mp hstep
      exact orderly_advance h hreturns hadvance

/-- In any run in which nobody asks for the array and `RegisterThread` never
finds its caller in the map, nobody holds the lock of the tracer while no call
is in progress. -/
theorem leavesFree_of_returns (steps : List (TracerStep θ σ))
    (hreturns : Along step Returns new steps) :
    Throughout step LeavesFree (new : LockTracer θ σ) steps := by
  have hkeep : ∀ (s : LockTracer θ σ) l s', Orderly s.sync s.pc →
      s.Returns l → step s l = some s' → Orderly s'.sync s'.pc :=
    fun s l s' h hl hstep => orderly_step h hl hstep
  exact throughout_of_along (fun s h => h.free) hkeep orderly_new hreturns

/-- The steps of a thread that registers, up to the end of `Enter`. -/
def entersToRegister (id : Bool) : List (TracerStep Bool ℕ) :=
  .start id :: .call id .registerThread :: List.replicate 2 (.advance id)

/-- A thread registers and ends, and a new one with its id registers. -/
def reusedRegistration : List (TracerStep Bool ℕ) :=
  entersToRegister true ++ List.replicate 4 (.advance true) ++
    .exit true :: entersToRegister true ++ [.advance true]

/-- A thread asks for the array. -/
def arrayAsked : List (TracerStep Bool ℕ) :=
  .start true :: .call true .getLockStackFrameArray ::
    List.replicate 3 (.advance true)

/-- After the two registrations with one id, and after one call for the array,
no call is in progress, but the mutex is held. -/
theorem lock_kept :
    (∃ s, run step new reusedRegistration = some s ∧
      (∀ id, s.pc id = .idle) ∧ s.sync.sync.mutex = .exclusive ∧
      ¬s.LeavesFree) ∧
    ∃ s, run step new arrayAsked = some s ∧
      (∀ id, s.pc id = .idle) ∧ s.sync.sync.mutex = .shared 0 ∧
      ¬s.LeavesFree := by
  have hheld : ∀ s : LockTracer Bool ℕ, (∀ id, s.pc id = .idle) →
      s.sync.sync.mutex ≠ .free → ¬s.LeavesFree := by
    intro s hidle hmutex h
    exact hmutex (h hidle).1
  refine ⟨⟨_, rfl, by decide, rfl, hheld _ (by decide) (by decide)⟩,
    ⟨_, rfl, by decide, rfl, hheld _ (by decide) (by decide)⟩⟩

/-- Two threads register, the second while the first is in `Enter`. -/
def twoRegistrations : List (TracerStep Bool ℕ) :=
  entersToRegister true ++ .start false ::
    .call false (.tryLockStackTrace 5) :: List.replicate 4 (.advance true) ++
    List.replicate 7 (.advance false)

theorem leavesFree_twoRegistrations :
    ∃ s, run step new twoRegistrations = some s ∧ (∀ id, s.pc id = .idle) ∧
      Throughout step LeavesFree new twoRegistrations :=
  ⟨_, rfl, by decide, leavesFree_of_returns _ (by decide)⟩

end LockTracer

end DokeviNet
