import DokeviNetwork.Threads.ThreadManager
import DokeviNetwork.Support.Run

/-!
# Joining the threads at shutdown

`WaitForAllThread` joins the threads of the pool and leaves their objects in it;
`Finalize` joins them once more before it deletes them.  `std::thread::join`
throws for an object that is not joinable, and one that has been joined is not.
All tasks end, so that a join of a joinable object returns.
-/

namespace DokeviNet

open LabelledRun

/-- The manager, the thread objects that are joinable, and what has happened to
objects so far: the ones that were joined, those for which `join` threw, and
those that were deleted. -/
structure JoinState (θ : Type*) where
  manager : ThreadManager θ
  joinable : ℕ → Bool
  joined : List ℕ
  refused : List ℕ
  deleted : List ℕ

/-- What the application does before the shutdown. -/
inductive JoinOp
  | taskRun (taskThread : ℕ)
  | waitForAllThread
  deriving DecidableEq

namespace JoinState

variable {θ : Type*}

/-- `join` of a joinable object. -/
def join (s : JoinState θ) (var : ℕ) : JoinState θ :=
  { s with
    joinable := Function.update s.joinable var false
    joined := s.joined ++ [var] }

/-- `join` of an object that is not joinable. -/
def refuse (s : JoinState θ) (var : ℕ) : JoinState θ :=
  { s with refused := s.refused ++ [var] }

/-- The loop that joins the objects of a list; `false` where `join` threw. -/
def joinAll (s : JoinState θ) : List ℕ → JoinState θ × Bool
  | [] => (s, true)
  | var :: rest =>
    if var = 0 then s.joinAll rest
    else if s.joinable var then (s.join var).joinAll rest
    else (s.refuse var, false)

/-- `WaitForAllThread`. -/
def waitForAllThread (s : JoinState θ) : JoinState θ × Bool :=
  s.joinAll s.manager.threadPool

/-- `Finalize`. -/
def finalize (s : JoinState θ) : JoinState θ × Bool :=
  match s.joinAll s.manager.threadPool with
  | (s, false) => (s, false)
  | (s, true) =>
    ({ s with
        deleted := s.deleted ++ s.manager.threadPool.filter (· ≠ 0)
        manager.released := true }, true)

/-- The part of `ReleaseManagers` that is about the threads. -/
def releaseManagers (s : JoinState θ) : JoinState θ × Bool :=
  match s.waitForAllThread with
  | (s, false) => (s, false)
  | (s, true) => s.finalize

/-- After `Initialize`. -/
def start [DecidableEq θ] (mainThread : θ) : JoinState θ where
  manager := .initializeBy mainThread
  joinable := fun _ => false
  joined := []
  refused := []
  deleted := []

/-- A new object has an address that is not 0 and that no other object has.  The
application goes on where `join` threw. -/
def step (s : JoinState θ) : JoinOp → Option (JoinState θ)
  | .taskRun taskThread =>
    if taskThread ≠ 0 ∧ taskThread ∉ s.manager.threadPool then
      some
        { s with
          manager := s.manager.taskRun taskThread
          joinable := Function.update s.joinable taskThread true }
    else none
  | .waitForAllThread => some s.waitForAllThread.1

/-- After the shutdown each thread of the pool has been joined once and deleted
once, and `join` has never thrown. -/
structure JoinedOnce (s : JoinState θ) : Prop where
  joined : ∀ var ∈ s.manager.threadPool,
    s.releaseManagers.1.joined.count var = 1
  refused : s.releaseManagers.1.refused = []
  deleted : ∀ var ∈ s.manager.threadPool,
    s.releaseManagers.1.deleted.count var = 1

variable {s s' : JoinState θ} {l : JoinOp} {vars : List ℕ} {var : ℕ}

/-! ## The loop -/

/-- The loop only joins. -/
theorem joinAll_frame (s : JoinState θ) (vars : List ℕ) :
    (s.joinAll vars).1.manager = s.manager ∧
      (s.joinAll vars).1.deleted = s.deleted := by
  induction vars generalizing s with
  | nil => exact ⟨rfl, rfl⟩
  | cons var vars ih =>
      rw [joinAll]
      split
      · exact ih s
      · split
        · exact ih (s.join var)
        · exact ⟨rfl, rfl⟩

/-- No object becomes joinable in the loop. -/
theorem joinAll_joinable (h : s.joinable var = false) (vars : List ℕ) :
    (s.joinAll vars).1.joinable var = false := by
  induction vars generalizing s with
  | nil => exact h
  | cons var' vars ih =>
      rw [joinAll]
      split
      · exact ih h
      · split
        · apply ih
          change Function.update s.joinable var' false var = false
          rw [Function.update_apply, h, ite_self]
        · exact h

/-- Where `join` has not thrown, no object of the list is joinable. -/
theorem not_joinable_of_joinAll (h : (s.joinAll vars).2 = true)
    (hmem : var ∈ vars) (hvar : var ≠ 0) :
    (s.joinAll vars).1.joinable var = false := by
  induction vars generalizing s with
  | nil => exact absurd hmem List.not_mem_nil
  | cons var' vars ih =>
      rw [joinAll] at h ⊢
      split at h
      · next hzero =>
        rw [if_pos hzero]
        exact ih h (List.mem_of_ne_of_mem (hzero ▸ hvar) hmem)
      · next hzero =>
        rw [if_neg hzero]
        split at h
        · next hjoinable =>
          rw [if_pos hjoinable]
          rcases List.mem_cons.mp hmem with rfl | hrest
          · exact joinAll_joinable (Function.update_self _ _ _) vars
          · exact ih h hrest
        · exact absurd h Bool.false_ne_true

/-- `join` throws for the first object if it is not joinable. -/
theorem joinAll_refuse (hvar : var ≠ 0) (h : s.joinable var = false)
    (vars : List ℕ) : s.joinAll (var :: vars) = (s.refuse var, false) := by
  rw [joinAll, if_neg hvar, h, if_neg Bool.false_ne_true]

/-- If a thread is in the pool, `Finalize` joins it again, if not already
`WaitForAllThread` does, and nothing is deleted. -/
theorem releaseManagers_throws (hpool : s.manager.threadPool = var :: vars)
    (hvar : var ≠ 0) :
    s.releaseManagers.2 = false ∧
      s.releaseManagers.1.deleted = s.deleted := by
  obtain ⟨hmanager, hdeleted⟩ := joinAll_frame s s.manager.threadPool
  rw [releaseManagers, waitForAllThread]
  split
  · next s₁ heq =>
    rw [heq] at hdeleted
    exact ⟨rfl, hdeleted⟩
  · next s₁ heq =>
    have hjoinable : s₁.joinable var = false := by
      have hmem : var ∈ s.manager.threadPool := by
        rw [hpool]
        exact List.mem_cons_self
      have h := not_joinable_of_joinAll (congrArg Prod.snd heq) hmem hvar
      rwa [heq] at h
    rw [heq] at hmanager hdeleted
    change s₁.manager = s.manager at hmanager
    have hfinalize : s₁.finalize = (s₁.refuse var, false) := by
      rw [finalize, hmanager, hpool, joinAll_refuse hvar hjoinable]
    rw [hfinalize]
    exact ⟨rfl, hdeleted⟩

/-- Without a thread in the pool nothing is joined. -/
theorem joinAll_threadPool_nil (hpool : s.manager.threadPool = []) :
    s.joinAll s.manager.threadPool = (s, true) := by
  rw [hpool, joinAll]

/-! ## Histories -/

/-- What holds before the shutdown. -/
structure Running (past : List JoinOp) (s : JoinState θ) : Prop where
  pool : s.manager.threadPool = [] ↔ ∀ var, .taskRun var ∉ past
  addresses : ∀ var ∈ s.manager.threadPool, var ≠ 0
  refused : s.manager.threadPool = [] → s.refused = []
  deleted : s.deleted = []

theorem Running.step {past : List JoinOp} (h : Running past s)
    (hstep : s.step l = some s') : Running (past ++ [l]) s' := by
  cases l with
  | taskRun taskThread =>
      obtain ⟨⟨hzero, -⟩, hstep⟩ := Option.ite_none_right_eq_some.mp hstep
      obtain rfl := Option.some.inj hstep
      have hne : s.manager.threadPool ++ [taskThread] ≠ [] := by simp
      refine ⟨?_, ?_, fun hpool => absurd hpool hne, h.deleted⟩
      · refine iff_of_false hne ?_
        intro hnone
        exact hnone taskThread (by simp)
      · intro var hvar
        rcases List.mem_append.mp hvar with hold | hnew
        · exact h.addresses var hold
        · rwa [List.mem_singleton.mp hnew]
  | waitForAllThread =>
      obtain rfl := Option.some.inj hstep
      obtain ⟨hmanager, hdeleted⟩ := joinAll_frame s s.manager.threadPool
      change Running _ (s.joinAll s.manager.threadPool).1
      refine ⟨?_, ?_, ?_, hdeleted.trans h.deleted⟩
      · rw [hmanager, h.pool]
        simp
      · rw [hmanager]
        exact h.addresses
      · intro hpool
        rw [hmanager] at hpool
        rw [joinAll_threadPool_nil hpool]
        exact h.refused hpool

/-- The shutdown is right exactly if the pool is empty. -/
theorem Running.joinedOnce_iff {past : List JoinOp} (h : Running past s) :
    JoinedOnce s ↔ s.manager.threadPool = [] := by
  constructor
  · intro honce
    cases hpool : s.manager.threadPool with
    | nil => rfl
    | cons var vars =>
        have hmem : var ∈ s.manager.threadPool := by
          rw [hpool]
          exact List.mem_cons_self
        have hthrows := releaseManagers_throws hpool (h.addresses var hmem)
        have hcount := honce.deleted var hmem
        rw [hthrows.2, h.deleted] at hcount
        exact absurd hcount (by simp)
  · intro hpool
    have hjoin := joinAll_threadPool_nil hpool
    have hrelease : s.releaseManagers.1.refused = s.refused := by
      rw [releaseManagers, waitForAllThread, hjoin]
      change s.finalize.1.refused = s.refused
      rw [finalize, hjoin]
    refine ⟨?_, hrelease.trans (h.refused hpool), ?_⟩
    · rw [hpool]
      exact fun _ hvar => absurd hvar List.not_mem_nil
    · rw [hpool]
      exact fun _ hvar => absurd hvar List.not_mem_nil

variable [DecidableEq θ] {mainThread : θ}

theorem running_start (mainThread : θ) : Running [] (start mainThread) where
  pool := by simp [start, ThreadManager.initializeBy]
  addresses := fun _ hvar => absurd hvar List.not_mem_nil
  refused := fun _ => rfl
  deleted := rfl

/-- After any history, the shutdown joins and deletes each thread once, and
never joins one that is not joinable, exactly if no thread was ever started. -/
theorem joinedOnce_iff_no_taskRun {ops : List JoinOp}
    (hrun : run step (start mainThread) ops = some s) :
    JoinedOnce s ↔ ∀ var, .taskRun var ∉ ops := by
  have h := history_of_run (fun past s l s' h => Running.step h)
    (running_start mainThread) hrun
  rw [h.joinedOnce_iff, h.pool]

/-- One thread is started. -/
def oneTask : List JoinOp := [.taskRun 1000]

/-- The shutdown joins the only thread, tries to join it again, and does not
delete it. -/
theorem oneTask_joined_twice :
    ∃ s, run step (start 0) oneTask = some s ∧
      s.manager.threadPool = [1000] ∧ s.releaseManagers.2 = false ∧
      s.releaseManagers.1.joined = [1000] ∧
      s.releaseManagers.1.refused = [1000] ∧
      s.releaseManagers.1.deleted = [] ∧ ¬JoinedOnce s := by
  refine ⟨_, rfl, rfl, rfl, rfl, rfl, rfl, ?_⟩
  intro h
  exact absurd h.refused (by decide)

/-- Without a thread, the shutdown after two waits is right. -/
theorem joinedOnce_waits :
    ∃ s, run step (start 0) [.waitForAllThread, .waitForAllThread] = some s ∧
      JoinedOnce s := by
  have hrun : run step (start 0) [.waitForAllThread, .waitForAllThread] =
      some _ := rfl
  exact ⟨_, hrun, (joinedOnce_iff_no_taskRun hrun).mpr (by simp)⟩

end JoinState

end DokeviNet
