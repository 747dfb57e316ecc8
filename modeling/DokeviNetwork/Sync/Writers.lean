import DokeviNetwork.Sync.Steps

/-!
# Writers only

With WRITE sections alone the mutex decides who is inside.  The owner may be
overwritten late by a thread that has already released the mutex, but only to
`-1`: a thread that finds its own id there still holds the mutex.
-/

namespace DokeviNet

open LabelledRun

/-- A WRITE section whose `Enter` took the mutex. -/
def lockedWrite : OpenSection := { inType := .write, counted := false }

/-- A WRITE section whose `Enter` only counted. -/
def countedWrite : OpenSection := { inType := .write, counted := true }

/-- One section that took the mutex and `n` nested ones. -/
def nestedWrites (n : ℕ) : List OpenSection :=
  List.replicate n countedWrite ++ [lockedWrite]

theorem nestedWrites_succ (n : ℕ) :
    nestedWrites (n + 1) = countedWrite :: nestedWrites n := rfl

theorem length_nestedWrites (n : ℕ) : (nestedWrites n).length = n + 1 := by
  simp [nestedWrites]

theorem nestedWrites_ne_nil (n : ℕ) : nestedWrites n ≠ [] := by
  simp [nestedWrites]

/-- A thread that does not hold the mutex. -/
inductive Outside : SyncThread → Prop
  | idle : Outside { pc := .idle, sections := [] }
  | wantMutex : Outside { pc := .wantMutex .write, sections := [] }
  | clearOwner : Outside { pc := .clearOwner, sections := [] }

/-- The thread that holds the mutex, and the depth while it does. -/
inductive Holding : SyncThread → ℤ → Prop
  | setOwner : Holding { pc := .setOwner .write, sections := [] } 0
  | idle (n : ℕ) : Holding { pc := .idle, sections := nestedWrites n } n
  | wantDepth (n : ℕ) :
      Holding { pc := .wantDepth .write, sections := nestedWrites n } n
  | wantMutex (n : ℕ) :
      Holding { pc := .wantMutex .write, sections := nestedWrites n } n
  | decrement (n : ℕ) :
      Holding { pc := .decrement countedWrite, sections := nestedWrites n }
        (n + 1)
  | unlock : Holding { pc := .unlock lockedWrite, sections := [] } 0

/-- A thread whose id may stand in `_ownerThread`. -/
def MayOwn (thread : SyncThread) : Prop :=
  thread.sections ≠ [] ∨ thread.pc = .unlock lockedWrite ∨
    thread.pc = .clearOwner

namespace Outside

variable {thread : SyncThread}

theorem sections_eq_nil (h : Outside thread) : thread.sections = [] := by
  cases h <;> rfl

theorem enter (h : Outside thread) :
    Outside { thread with pc := .wantMutex .write } := by
  cases h <;> exact Outside.wantMutex

theorem pc_cases (h : Outside thread) :
    thread.pc = .idle ∨ thread.pc = .wantMutex .write ∨
      thread.pc = .clearOwner := by
  cases h <;> simp

theorem not_of_pc {pc : SyncPc} (hpc : thread.pc = pc)
    (hne : ¬ (pc = .idle ∨ pc = .wantMutex .write ∨ pc = .clearOwner)) :
    ¬ Outside thread := by
  intro h
  exact hne (hpc ▸ h.pc_cases)

/-- Once granted the mutex, the thread holds it with the depth at zero. -/
theorem acquire (h : Outside thread) {inType : SyncType}
    (hpc : thread.pc = .wantMutex inType) :
    inType = .write ∧ ¬ MayOwn thread ∧
      Holding { thread with pc := .setOwner inType } 0 := by
  cases h <;> cases hpc
  exact ⟨rfl, by simp [MayOwn], Holding.setOwner⟩

theorem cleared (h : Outside thread) (hpc : thread.pc = .clearOwner) :
    Outside { thread with pc := .idle } := by
  cases h <;> cases hpc
  exact Outside.idle

end Outside

namespace Holding

variable {thread : SyncThread} {depth : ℤ}

theorem depth_nonneg (h : Holding thread depth) : 0 ≤ depth := by
  cases h <;> omega

theorem not_outside (h : Holding thread depth) : ¬ Outside thread := by
  intro houtside
  have hnil := houtside.sections_eq_nil
  cases h with
  | setOwner | unlock => cases houtside
  | idle | wantDepth | wantMutex | decrement =>
      exact nestedWrites_ne_nil _ hnil

theorem counted_of_decrement (h : Holding thread depth) {leaving : OpenSection}
    (hpc : thread.pc = .decrement leaving) : leaving = countedWrite := by
  cases h <;> cases hpc
  rfl

/-- An `Enter` of the holder leaves it holding. -/
theorem enter (h : Holding thread depth) (hpc : thread.pc = .idle) (own : Bool) :
    Holding
      { thread with pc := if own then .wantDepth .write else .wantMutex .write }
      depth := by
  cases h <;> cases hpc
  cases own
  · exact Holding.wantMutex _
  · exact Holding.wantDepth _

/-- A `Leave` of the holder counts down for a nested section and releases the
mutex for the outermost one. -/
theorem leave (h : Holding thread depth) (hpc : thread.pc = .idle)
    {leaving : OpenSection} {rest : List OpenSection}
    (hsections : thread.sections = leaving :: rest) :
    Holding
      { pc := if 0 < depth then .decrement leaving else .unlock leaving
        sections := rest } depth := by
  cases h <;> cases hpc
  next n =>
    cases n with
    | zero =>
        obtain ⟨rfl, rfl⟩ := List.cons.inj hsections
        exact Holding.unlock
    | succ n =>
        rw [nestedWrites_succ] at hsections
        obtain ⟨rfl, rfl⟩ := List.cons.inj hsections
        rw [if_pos (by omega)]
        exact Holding.decrement n

theorem mayOwn (h : Holding thread depth) (hpc : thread.pc ≠ .setOwner .write) :
    MayOwn thread := by
  cases h with
  | setOwner => exact absurd rfl hpc
  | unlock => exact Or.inr (Or.inl rfl)
  | idle | wantDepth | wantMutex | decrement =>
      exact Or.inl (nestedWrites_ne_nil _)

theorem fetch_add (h : Holding thread depth) {inType : SyncType}
    (hpc : thread.pc = .wantDepth inType) :
    inType = .write ∧ depth + 1 = thread.sections.length ∧
      Holding
        { pc := .idle
          sections := { inType, counted := true } :: thread.sections }
        (depth + 1) := by
  cases h <;> cases hpc
  next n =>
    refine ⟨rfl, ?_, ?_⟩
    · rw [length_nestedWrites]
      rfl
    · exact Holding.idle (n + 1)

theorem own (h : Holding thread depth) {inType : SyncType}
    (hpc : thread.pc = .setOwner inType) :
    Holding
      { pc := .idle
        sections := { inType, counted := false } :: thread.sections }
      depth := by
  cases h <;> cases hpc
  exact Holding.idle 0

theorem fetch_sub (h : Holding thread depth) {leaving : OpenSection}
    (hpc : thread.pc = .decrement leaving) :
    0 < depth ∧ Holding { thread with pc := .idle } (depth - 1) := by
  cases h <;> cases hpc
  next n =>
    refine ⟨by omega, ?_⟩
    rw [Int.add_sub_cancel]
    exact Holding.idle n

theorem unlock_outside (h : Holding thread depth) {leaving : OpenSection}
    (hpc : thread.pc = .unlock leaving) :
    leaving = lockedWrite ∧ depth = 0 ∧
      Outside { thread with pc := .clearOwner } := by
  cases h <;> cases hpc
  exact ⟨rfl, rfl, Outside.clearOwner⟩

theorem pc_ne_clearOwner (h : Holding thread depth) :
    thread.pc ≠ .clearOwner := by
  cases h <;> simp

end Holding

namespace SyncThreads

variable {τ : Type*}

/-- Who holds the mutex, and what the depth counts. -/
inductive Mutex (s : SyncThreads τ) : Prop
  | free (hmutex : s.sync.mutex = .free) (hdepth : s.sync.lockDepth.toInt = 0)
      (houtside : ∀ thread, Outside (s.threads thread))
  | held (holder : τ) (hmutex : s.sync.mutex = .exclusive)
      (hholder : Holding (s.threads holder) s.sync.lockDepth.toInt)
      (houtside : ∀ thread, thread ≠ holder → Outside (s.threads thread))

/-- What holds between any two steps of writers. -/
structure Exclusive (s : SyncThreads τ) : Prop where
  mutex : Mutex s
  owner : ∀ thread, s.sync.ownerThread = some thread →
    MayOwn (s.threads thread)

/-- Every `Enter` is for writing. -/
def WritesOnly : SyncStep τ → Prop
  | .enter _ inType => inType = .write
  | _ => True

/-- A nested `Enter` is completed only by a thread with at most `2 ^ 31 - 1`
open sections. -/
def NestsBelow (s : SyncThreads τ) : SyncStep τ → Prop
  | .advance me => (s.threads me).pc = .wantDepth .write →
      (s.threads me).sections.length < 2 ^ 31
  | _ => True

instance : ∀ l : SyncStep τ, Decidable (WritesOnly l)
  | .enter _ inType => inferInstanceAs (Decidable (inType = .write))
  | .leave _ => inferInstanceAs (Decidable True)
  | .advance _ => inferInstanceAs (Decidable True)

instance (s : SyncThreads τ) : ∀ l : SyncStep τ, Decidable (s.NestsBelow l)
  | .enter _ _ => inferInstanceAs (Decidable True)
  | .leave _ => inferInstanceAs (Decidable True)
  | .advance me =>
      inferInstanceAs (Decidable ((s.threads me).pc = .wantDepth .write →
        (s.threads me).sections.length < 2 ^ 31))

/-- At most one thread is inside, the depth is not negative, and it is only
decremented for a nested `Enter` of the thread itself. -/
structure MutuallyExclusive (s : SyncThreads τ) : Prop where
  inside : ∀ one other, (s.threads one).sections ≠ [] →
    (s.threads other).sections ≠ [] → one = other
  depth : 0 ≤ s.sync.lockDepth.toInt
  decrement : ∀ thread leaving, (s.threads thread).pc = .decrement leaving →
    leaving.counted = true

theorem Exclusive.mutuallyExclusive {s : SyncThreads τ} (h : Exclusive s) :
    s.MutuallyExclusive := by
  cases h.mutex with
  | free _ hdepth houtside =>
      refine ⟨?_, by rw [hdepth], ?_⟩
      · intro one _ hone
        exact absurd (houtside one).sections_eq_nil hone
      · intro thread leaving hpc
        exact absurd (houtside thread) (Outside.not_of_pc hpc (by simp))
  | held holder _ hholder houtside =>
      have hinside : ∀ thread, ¬ Outside (s.threads thread) →
          thread = holder := by
        intro thread hthread
        by_contra hne
        exact hthread (houtside thread hne)
      refine ⟨?_, hholder.depth_nonneg, ?_⟩
      · intro one other hone hother
        rw [hinside one fun h => hone h.sections_eq_nil,
          hinside other fun h => hother h.sections_eq_nil]
      · intro thread leaving hpc
        obtain rfl := hinside thread (Outside.not_of_pc hpc (by simp))
        rw [hholder.counted_of_decrement hpc]
        rfl

/-- A thread that is not outside is the holder. -/
theorem Mutex.holder {s : SyncThreads τ} (h : Mutex s) {me : τ}
    (hme : ¬ Outside (s.threads me)) :
    s.sync.mutex = .exclusive ∧
      Holding (s.threads me) s.sync.lockDepth.toInt ∧
      ∀ thread, thread ≠ me → Outside (s.threads thread) := by
  cases h with
  | free _ _ houtside => exact absurd (houtside me) hme
  | held holder hmutex hholder houtside =>
      obtain rfl : me = holder := by
        by_contra hne
        exact hme (houtside me hne)
      exact ⟨hmutex, hholder, houtside⟩

variable [DecidableEq τ]

/-- A step of a thread outside that leaves the mutex and the depth alone. -/
theorem Mutex.outside {s : SyncThreads τ} (h : Mutex s) {me : τ}
    {sync : SyncSection τ} {thread : SyncThread}
    (hme : Outside (s.threads me)) (hthread : Outside thread)
    (hmutex : sync.mutex = s.sync.mutex)
    (hdepth : sync.lockDepth = s.sync.lockDepth) :
    Mutex (s.after me sync thread) := by
  have hafter : ∀ other, Outside (s.threads other) →
      Outside ((s.after me sync thread).threads other) :=
    fun other hother => of_after (fun _ => hthread) fun _ => hother
  cases h with
  | free hfree hzero houtside =>
      refine Mutex.free (hmutex.trans hfree) ?_ ?_
      · rwa [after_sync, hdepth]
      · exact fun other => hafter other (houtside other)
  | held holder hheld hholder houtside =>
      have hne : holder ≠ me := by
        rintro rfl
        exact hholder.not_outside hme
      refine Mutex.held holder (hmutex.trans hheld) ?_ ?_
      · rwa [after_sync, hdepth, after_threads_of_ne s sync thread hne]
      · exact fun other hother => hafter other (houtside other hother)

/-- A step after which `me` holds the mutex. -/
theorem Mutex.holding {s : SyncThreads τ} {me : τ} {sync : SyncSection τ}
    {thread : SyncThread}
    (houtside : ∀ other, other ≠ me → Outside (s.threads other))
    (hmutex : sync.mutex = .exclusive)
    (hthread : Holding thread sync.lockDepth.toInt) :
    Mutex (s.after me sync thread) := by
  refine Mutex.held me hmutex ?_ ?_
  · simpa using hthread
  · intro other hother
    rw [after_threads_of_ne s sync thread hother]
    exact houtside other hother

/-- A step that makes no other thread the owner. -/
theorem owner_after {s : SyncThreads τ} {me : τ} {sync : SyncSection τ}
    {thread : SyncThread}
    (howner : ∀ other, s.sync.ownerThread = some other →
      MayOwn (s.threads other))
    (hme : sync.ownerThread = some me → MayOwn thread)
    (hothers : ∀ other, other ≠ me → sync.ownerThread = some other →
      s.sync.ownerThread = some other) :
    ∀ other, (s.after me sync thread).sync.ownerThread = some other →
      MayOwn ((s.after me sync thread).threads other) := by
  intro other hother
  rw [after_sync] at hother
  apply of_after
  · rintro rfl
    exact hme hother
  · exact fun hne => howner other (hothers other hne hother)

/-- A step after which `me` still holds the mutex, and which makes no other
thread the owner. -/
theorem Exclusive.holding {s : SyncThreads τ} {me : τ} {sync : SyncSection τ}
    {thread : SyncThread} (h : Exclusive s)
    (houtside : ∀ other, other ≠ me → Outside (s.threads other))
    (hmutex : sync.mutex = .exclusive)
    (hthread : Holding thread sync.lockDepth.toInt)
    (hpc : thread.pc ≠ .setOwner .write)
    (hothers : ∀ other, other ≠ me → sync.ownerThread = some other →
      s.sync.ownerThread = some other) :
    Exclusive (s.after me sync thread) where
  mutex := Mutex.holding houtside hmutex hthread
  owner := owner_after h.owner (fun _ => hthread.mayOwn hpc) hothers

theorem Exclusive.enter {s s' : SyncThreads τ} {me : τ} (h : Exclusive s)
    (hstep : s.step (.enter me .write) = some s') : Exclusive s' := by
  simp only [step] at hstep
  split at hstep
  · next hpc =>
      obtain rfl := Option.some.inj hstep
      have hinside : s.sync.ownerThread = some me →
          (s.threads me).sections ≠ [] := by
        intro howner
        rcases h.owner me howner with hsections | hunlock | hclear
        · exact hsections
        · rw [hpc] at hunlock
          cases hunlock
        · rw [hpc] at hclear
          cases hclear
      refine ⟨?_, owner_after h.owner (fun howner => Or.inl (hinside howner))
        fun _ _ hother => hother⟩
      by_cases hme : Outside (s.threads me)
      · have howner : s.sync.ownerThread ≠ some me := by
          intro howner
          exact hinside howner hme.sections_eq_nil
        rw [if_neg howner]
        exact h.mutex.outside hme hme.enter rfl rfl
      · obtain ⟨hmutex, hholding, houtside⟩ := h.mutex.holder hme
        refine Mutex.holding houtside hmutex ?_
        simpa using hholding.enter hpc (s.sync.ownerThread = some me)
  · cases hstep

theorem Exclusive.leave {s s' : SyncThreads τ} {me : τ} (h : Exclusive s)
    (hstep : s.step (.leave me) = some s') : Exclusive s' := by
  simp only [step] at hstep
  split at hstep
  · next leaving rest hpc hsections =>
      obtain rfl := Option.some.inj hstep
      have hme : ¬ Outside (s.threads me) := by
        intro hme
        rw [hme.sections_eq_nil] at hsections
        cases hsections
      obtain ⟨hmutex, hholding, houtside⟩ := h.mutex.holder hme
      have hleave := hholding.leave hpc hsections
      simp only [← lockDepth_pos_iff] at hleave
      refine h.holding houtside hmutex hleave ?_ fun _ _ hother => hother
      split <;> simp
  · cases hstep

/-- The mutex is granted only while nobody holds it. -/
theorem Exclusive.acquired {s : SyncThreads τ} {me : τ} {inType : SyncType}
    {mutex : SharedMutex} (h : Exclusive s)
    (hpc : (s.threads me).pc = .wantMutex inType)
    (hacquire : s.sync.mutex.acquire inType = some mutex) :
    Exclusive (s.after me { s.sync with mutex := mutex }
      { s.threads me with pc := .setOwner inType }) := by
  cases h.mutex with
  | held _ hmutex _ _ =>
      rw [hmutex, SharedMutex.acquire_exclusive] at hacquire
      cases hacquire
  | free hmutex hzero houtside =>
      obtain ⟨rfl, hown, hnext⟩ := (houtside me).acquire hpc
      rw [hmutex] at hacquire
      obtain rfl := Option.some.inj hacquire
      rw [← hzero] at hnext
      refine ⟨Mutex.holding (fun other _ => houtside other) rfl hnext, ?_⟩
      refine owner_after h.owner ?_ fun _ _ hother => hother
      exact fun howner => absurd (h.owner me howner) hown

/-- Once the holder has released the mutex nobody holds it. -/
theorem Exclusive.released {s : SyncThreads τ} {me : τ}
    {leaving : OpenSection} {mutex : SharedMutex} (h : Exclusive s)
    (hpc : (s.threads me).pc = .unlock leaving)
    (hrelease : s.sync.mutex.release leaving.inType = some mutex) :
    Exclusive (s.after me { s.sync with mutex := mutex }
      { s.threads me with pc := .clearOwner }) := by
  obtain ⟨hmutex, hholding, houtside⟩ :=
    h.mutex.holder (Outside.not_of_pc hpc (by simp))
  obtain ⟨rfl, hzero, hnext⟩ := hholding.unlock_outside hpc
  rw [hmutex] at hrelease
  obtain rfl := Option.some.inj hrelease
  constructor
  · refine Mutex.free rfl hzero fun other => ?_
    exact of_after (fun _ => hnext) (houtside other)
  · exact owner_after h.owner (fun _ => Or.inr (Or.inr rfl))
      fun _ _ hother => hother

theorem Exclusive.advance {s s' : SyncThreads τ} {me : τ} (h : Exclusive s)
    (hdepth : (s.threads me).pc = .wantDepth .write →
      (s.threads me).sections.length < 2 ^ 31)
    (hstep : s.step (.advance me) = some s') : Exclusive s' := by
  simp only [step, SyncThreads.advance] at hstep
  split at hstep
  · cases hstep
  · next inType hpc =>
      obtain rfl := Option.some.inj hstep
      obtain ⟨hmutex, hholding, houtside⟩ :=
        h.mutex.holder (Outside.not_of_pc hpc (by simp))
      obtain ⟨rfl, hlength, hnext⟩ := hholding.fetch_add hpc
      have hmax : s.sync.lockDepth ≠ Int32.maxValue := by
        intro hmax
        rw [hmax, Int32.toInt_maxValue] at hlength
        have := hdepth hpc
        omega
      rw [← toInt_fetch_add hmax] at hnext
      exact h.holding houtside hmutex hnext (by simp)
        fun _ _ hother => hother
  · next inType hpc =>
      obtain ⟨mutex, hacquire, rfl⟩ := Option.map_eq_some_iff.mp hstep
      exact h.acquired hpc hacquire
  · next inType hpc =>
      obtain rfl := Option.some.inj hstep
      obtain ⟨hmutex, hholding, houtside⟩ :=
        h.mutex.holder (Outside.not_of_pc hpc (by simp))
      refine h.holding houtside hmutex (hholding.own hpc) (by simp) ?_
      intro other hne hother
      exact absurd (Option.some.inj hother) hne.symm
  · next leaving hpc =>
      obtain rfl := Option.some.inj hstep
      obtain ⟨hmutex, hholding, houtside⟩ :=
        h.mutex.holder (Outside.not_of_pc hpc (by simp))
      obtain ⟨hpos, hnext⟩ := hholding.fetch_sub hpc
      rw [← toInt_fetch_sub (lockDepth_pos_iff.mpr hpos)] at hnext
      exact h.holding houtside hmutex hnext (by simp)
        fun _ _ hother => hother
  · next leaving hpc =>
      obtain ⟨mutex, hrelease, rfl⟩ := Option.map_eq_some_iff.mp hstep
      exact h.released hpc hrelease
  · next hpc =>
      obtain rfl := Option.some.inj hstep
      have hme : Outside (s.threads me) := by
        by_contra hme
        exact (h.mutex.holder hme).2.1.pc_ne_clearOwner hpc
      refine ⟨h.mutex.outside hme (hme.cleared hpc) rfl rfl, ?_⟩
      refine owner_after h.owner ?_ ?_
      · intro howner
        cases howner
      · intro _ _ howner
        cases howner

/-- Every step of writers keeps the mutex, the depth and the owner in line. -/
theorem Exclusive.step {s s' : SyncThreads τ} {l : SyncStep τ}
    (h : Exclusive s) (hwrites : WritesOnly l) (hnests : s.NestsBelow l)
    (hstep : s.step l = some s') : Exclusive s' := by
  cases l with
  | enter me inType =>
      obtain rfl : inType = .write := hwrites
      exact h.enter hstep
  | leave me => exact h.leave hstep
  | advance me => exact h.advance hnests hstep

/-- WRITE sections are mutually exclusive between any two steps, as long as
no thread nests more than `2 ^ 31` of them. -/
theorem mutuallyExclusive_of_run {s : SyncThreads τ}
    {steps : List (SyncStep τ)} (hwrites : ∀ l ∈ steps, WritesOnly l)
    (hnests : Along step NestsBelow {} steps)
    (hrun : run step {} steps = some s) : s.MutuallyExclusive := by
  have hinit : Exclusive ({} : SyncThreads τ) :=
    ⟨Mutex.free rfl Int32.toInt_zero fun _ => Outside.idle, by simp⟩
  have hexclusive : Exclusive s :=
    invariant_of_along (fun _ _ _ h hl => h.step hl.1 hl.2) hinit
      ((along_of_forall fun l hl _ => hwrites l hl).and hnests) hrun
  exact hexclusive.mutuallyExclusive

/-- `false` clears the owner only after `true` has taken the mutex and written
its own id. -/
theorem mutuallyExclusive_lateClear :
    ∃ s : SyncThreads Bool,
      run step {}
        [.enter false .write, .advance false, .advance false, .leave false,
          .enter true .write, .advance false, .advance true, .advance true,
          .advance false] = some s ∧
      s.MutuallyExclusive := by
  obtain ⟨s, hrun⟩ := Option.isSome_iff_exists.mp
    (show (run step ({} : SyncThreads Bool)
        [.enter false .write, .advance false, .advance false, .leave false,
          .enter true .write, .advance false, .advance true, .advance true,
          .advance false]).isSome = true by decide)
  exact ⟨s, hrun, mutuallyExclusive_of_run (by decide) (by decide) hrun⟩

/-! ## One nesting too many -/

/-- The state in which `me` has one section and `n` nested ones. -/
def nestedState (me : τ) (n : ℕ) : SyncThreads τ :=
  after {} me
    { mutex := .exclusive, ownerThread := some me, lockDepth := Int32.ofNat n }
    { pc := .idle, sections := nestedWrites n }

/-- The steps of `n` nested WRITE sections inside a first one. -/
def nestedEnters (me : τ) (n : ℕ) : List (SyncStep τ) :=
  [.enter me .write, .advance me, .advance me] ++
    (List.replicate n [.enter me .write, .advance me]).flatten

theorem run_outermostEnter (me : τ) :
    run step {} [.enter me .write, .advance me, .advance me] =
      some (nestedState me 0) := by
  have henter : step {} (.enter me .write) =
      some (after {} me {} { pc := .wantMutex .write }) := by
    simp [step]
  have hlock : step (after {} me {} { pc := .wantMutex .write })
      (.advance me) =
      some (after {} me { mutex := .exclusive }
        { pc := .setOwner .write }) := by
    simp [step, advance, SharedMutex.acquire, after_after]
  rw [run_cons, henter, Option.bind_some, run_cons, hlock, Option.bind_some]
  simp [step, advance, after_after, nestedState, nestedWrites, lockedWrite]

theorem run_nestedEnter (me : τ) (n : ℕ) :
    run step (nestedState me n) [.enter me .write, .advance me] =
      some (nestedState me (n + 1)) := by
  have henter : step (nestedState me n) (.enter me .write) =
      some ((nestedState me n).after me (nestedState me n).sync
        { pc := .wantDepth .write, sections := nestedWrites n }) := by
    simp [step, nestedState]
  rw [run_cons, henter, Option.bind_some, run_cons]
  simp [step, advance, nestedState, after_after, nestedWrites_succ,
    countedWrite]

theorem run_nestedEnters (me : τ) (n : ℕ) :
    run step {} (nestedEnters me n) = some (nestedState me n) := by
  induction n with
  | zero => exact run_outermostEnter me
  | succ n ih =>
      have happend : nestedEnters me (n + 1) =
          nestedEnters me n ++ [.enter me .write, .advance me] := by
        simp [nestedEnters, List.replicate_succ']
      rw [happend, run_append, ih, Option.bind_some, run_nestedEnter]

omit [DecidableEq τ] in
theorem writesOnly_nestedEnters (me : τ) (n : ℕ) :
    ∀ l ∈ nestedEnters me n, WritesOnly l := by
  intro l hl
  rcases List.mem_append.mp hl with houter | hnested
  · simp only [List.mem_cons, List.not_mem_nil, or_false] at houter
    rcases houter with rfl | rfl | rfl <;> trivial
  · obtain ⟨_, henter, hl⟩ := List.mem_flatten.mp hnested
    obtain rfl := List.eq_of_mem_replicate henter
    simp only [List.mem_cons, List.not_mem_nil, or_false] at hl
    rcases hl with rfl | rfl <;> trivial

/-- The `int` depth overflows once `2 ^ 31` sections are nested in another. -/
theorem lockDepth_overflows :
    ¬ ∀ (steps : List (SyncStep Unit)) (s : SyncThreads Unit),
      (∀ l ∈ steps, WritesOnly l) → run step {} steps = some s →
        s.MutuallyExclusive := by
  intro h
  have hexclusive := h (nestedEnters () (2 ^ 31)) _
    (writesOnly_nestedEnters () _) (run_nestedEnters () _)
  exact absurd hexclusive.depth (by decide)

end SyncThreads

end DokeviNet
