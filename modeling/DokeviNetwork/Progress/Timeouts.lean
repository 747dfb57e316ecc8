import DokeviNetwork.Progress.EarlyTakeover

/-!
# Which progress locks let one worker on at a time

With the timeout -1, which the default constructor takes, `Start` tests no timeout,
and the lock is a mutex as long as no work type is 0, the value that stands for a
free lock.  With every other timeout some worker takes over from one at work, also
with a negative one, which is compared as a large unsigned number.
-/

namespace DokeviNet

open LabelledRun

namespace WorkRace

variable {ι : Type*} {s s' : WorkRace ι} {workType : ι → UInt32} {worker : ι}

/-- In every run one worker at most has started and not called `End`. -/
def AlwaysOne [DecidableEq ι] (workType : ι → UInt32) (inTimeOut : Int32) :
    Prop :=
  ∀ clock steps (s : WorkRace ι),
    run (step workType) (new inTimeOut clock) steps = some s →
      s.starters.length ≤ 1

/-! ## Without a timeout -/

/-- `_curWork` is the work type of the one starter, or 0 without one. -/
inductive Published (workType : ι → UInt32) (s : WorkRace ι) : Prop
  | free (hstarters : s.starters = []) (hwork : s.lock.curWork = 0)
  | taken {v : ι × ℕ} (hstarters : s.starters = [v])
      (hwork : s.lock.curWork = workType v.1)

/-- What every run with the timeout -1 keeps. -/
structure Untimed (workType : ι → UInt32) (s : WorkRace ι) : Prop where
  timeout : s.lock.timeout = -1
  untested : ∀ worker, s.stage worker ≠ .wantTick
  started : ∀ worker, s.stage worker = .wantStore ∨ s.stage worker = .working →
    ∃ time, (worker, time) ∈ s.starters
  published : Published workType s

theorem untimed_new (workType : ι → UInt32) (clock : ℕ) :
    Untimed workType (new (-1) clock) where
  timeout := rfl
  untested _ := by simp [new]
  started _ h := by simp [new] at h
  published := .free rfl rfl

theorem Untimed.length_starters (h : Untimed workType s) :
    s.starters.length ≤ 1 := by
  cases h.published with
  | free hstarters => simp [hstarters]
  | taken hstarters => simp [hstarters]

/-- A lock that is free has no starter, as no work type is 0. -/
theorem Untimed.starters_eq_nil (h : Untimed workType s)
    (htypes : ∀ worker, workType worker ≠ 0) (hfree : s.lock.curWork = 0) :
    s.starters = [] := by
  cases h.published with
  | free hstarters => exact hstarters
  | taken _ hwork => exact absurd (hwork.symm.trans hfree) (htypes _)

/-- A worker that has started is the only one. -/
theorem Untimed.starters_eq (h : Untimed workType s)
    (hstage : s.stage worker = .wantStore ∨ s.stage worker = .working) :
    ∃ time, s.starters = [(worker, time)] := by
  obtain ⟨time, hmem⟩ := h.started worker hstage
  cases h.published with
  | free hstarters =>
      rw [hstarters] at hmem
      cases hmem
  | taken hstarters =>
      rw [hstarters, List.mem_singleton] at hmem
      exact ⟨time, hmem ▸ hstarters⟩

variable [DecidableEq ι]

/-- One worker goes on to `next`, and the others that have started stay. -/
theorem Untimed.goesTo (h : Untimed workType s) {next : WorkStage}
    (hstage : s'.stage = Function.update s.stage worker next)
    (htimeout : s'.lock.timeout = s.lock.timeout) (htick : next ≠ .wantTick)
    (hnext : next = .wantStore ∨ next = .working →
      ∃ time, (worker, time) ∈ s'.starters)
    (hothers : ∀ v ∈ s.starters, v.1 ≠ worker → v ∈ s'.starters)
    (hpublished : Published workType s') : Untimed workType s' := by
  refine ⟨htimeout.trans h.timeout, ?_, ?_, hpublished⟩
  · intro other
    rw [hstage, Function.update_apply]
    split
    · exact htick
    · exact h.untested other
  · intro other hother
    rw [hstage, Function.update_apply] at hother
    split at hother
    · next heq => exact heq ▸ hnext hother
    · next hne =>
        obtain ⟨time, hmem⟩ := h.started other hother
        exact ⟨time, hothers _ hmem hne⟩

/-- The steps that start and end nothing. -/
theorem Untimed.goOn (h : Untimed workType s) {lock : ProgressLock}
    {next : WorkStage} (htimeout : lock.timeout = s.lock.timeout)
    (hwork : lock.curWork = s.lock.curWork) (htick : next ≠ .wantTick)
    (hnext : next = .wantStore ∨ next = .working →
      ∃ time, (worker, time) ∈ s.starters) :
    Untimed workType (s.goOn worker lock next) := by
  refine h.goesTo rfl htimeout htick hnext (fun v hv _ => hv) ?_
  cases h.published with
  | free hstarters hfree => exact .free hstarters (hwork.trans hfree)
  | taken hstarters htype => exact .taken hstarters (hwork.trans htype)

/-- `InterlockedCompareExchange` finds the lock free. -/
theorem Untimed.exchange (h : Untimed workType s)
    (htypes : ∀ worker, workType worker ≠ 0) (hfree : s.lock.curWork = 0) :
    Untimed workType
      (s.decideTrue worker (s.lock.compareExchange (workType worker))) := by
  have hnone := h.starters_eq_nil htypes hfree
  have hstarters : (s.decideTrue worker
      (s.lock.compareExchange (workType worker))).starters =
        [(worker, s.clock)] := by
    rw [decideTrue, hnone, List.nil_append]
  have hwork : (s.lock.compareExchange (workType worker)).curWork =
      workType worker := by
    rw [ProgressLock.compareExchange, if_pos hfree]
  apply h.goesTo rfl (compareExchange_frame _ _).1 (by simp)
  · exact fun _ => ⟨s.clock, by simp [hstarters]⟩
  · intro v hv
    rw [hnone] at hv
    cases hv
  · exact .taken hstarters hwork

theorem Untimed.endWork (h : Untimed workType s)
    (hstage : s.stage worker = .working) :
    Untimed workType { s.goOn worker s.lock.endWork .ended with
      starters := s.starters.filter fun v => decide (v.1 ≠ worker) } := by
  obtain ⟨time, hstarters⟩ := h.starters_eq (Or.inr hstage)
  refine h.goesTo rfl rfl (by simp) (by simp) ?_ ?_
  · exact fun v hv hne => List.mem_filter.mpr ⟨hv, decide_eq_true hne⟩
  · exact .free (by simp [hstarters]) rfl

theorem Untimed.advance (h : Untimed workType s)
    (htypes : ∀ worker, workType worker ≠ 0)
    (hstep : s.advance workType worker = some s') : Untimed workType s' := by
  rw [WorkRace.advance] at hstep
  split at hstep
  · have hcheck : s.lock.checkTimeOut = false := by
      simp [ProgressLock.checkTimeOut, h.timeout]
    obtain rfl := Option.some.inj hstep
    rw [hcheck, if_neg Bool.false_ne_true]
    exact h.goOn rfl rfl (by simp) (by simp)
  · next hstage => exact absurd hstage (h.untested worker)
  · split at hstep
    · next hwork =>
      have hsame : s.lock.compareExchange (workType worker) = s.lock :=
        if_neg hwork
      obtain rfl := Option.some.inj hstep
      rw [hsame]
      exact h.goOn rfl rfl (by simp) (by simp)
    · next hwork =>
      obtain rfl := Option.some.inj hstep
      exact h.exchange htypes (of_not_not hwork)
  · next hstage =>
    obtain rfl := Option.some.inj hstep
    exact h.goOn rfl rfl (by simp) fun _ => h.started worker (Or.inl hstage)
  · next hstage =>
    obtain rfl := Option.some.inj hstep
    exact h.endWork hstage
  · cases hstep
  · cases hstep

theorem Untimed.step (h : Untimed workType s)
    (htypes : ∀ worker, workType worker ≠ 0) {l : WorkStep ι}
    (hstep : s.step workType l = some s') : Untimed workType s' := by
  cases l with
  | advance worker => exact h.advance htypes hstep
  | wait ms =>
      obtain rfl := Option.some.inj hstep
      refine ⟨h.timeout, h.untested, h.started, ?_⟩
      cases h.published with
      | free hstarters hfree => exact .free hstarters hfree
      | taken hstarters htype => exact .taken hstarters htype

theorem alwaysOne_of_types (htypes : ∀ worker, workType worker ≠ 0) :
    AlwaysOne workType (-1) := by
  intro clock steps s hrun
  have huntimed : Untimed workType s :=
    invariant_of_along (fun _ _ _ h _ hstep => h.step htypes hstep)
      (untimed_new workType clock) (along_isSome hrun) hrun
  exact huntimed.length_starters

/-! ## Two workers at once -/

/-- `Start` finds the lock free. -/
theorem run_takes (workType : ι → UInt32) (hstage : s.stage worker = .wantWork)
    (hfree : s.lock.curWork = 0) :
    run (step workType) s (List.replicate 2 (.advance worker)) =
      some ((s.goOn worker s.lock .wantExchange).decideTrue worker
        (s.lock.compareExchange (workType worker))) := by
  have hcheck : s.lock.checkTimeOut = false := by
    simp [ProgressLock.checkTimeOut, hfree]
  have hread : s.step workType (.advance worker) =
      some (s.goOn worker s.lock .wantExchange) := by
    simp only [step, WorkRace.advance, hstage, hcheck]
    rfl
  have hexchange : (s.goOn worker s.lock .wantExchange).step workType
      (.advance worker) = some ((s.goOn worker s.lock .wantExchange).decideTrue
        worker (s.lock.compareExchange (workType worker))) := by
    simp only [step, WorkRace.advance, goOn_stage]
    exact if_neg (not_not.mpr hfree)
  rw [List.replicate_succ, run_cons, hread, Option.bind_some, List.replicate_one,
    run_cons, hexchange, Option.bind_some, run_nil]

/-- `Start` finds another worker that started long enough ago. -/
theorem run_takesOver (workType : ι → UInt32)
    (hstage : s.stage worker = .wantWork) (hcheck : s.lock.checkTimeOut = true)
    (htime : s.lock.isTimeOut s.tick = true) :
    run (step workType) s (List.replicate 2 (.advance worker)) =
      some ((s.goOn worker s.lock .wantTick).decideTrue worker s.lock) := by
  have hread : s.step workType (.advance worker) =
      some (s.goOn worker s.lock .wantTick) := by
    simp only [step, WorkRace.advance, hstage, hcheck]
    rfl
  have htest : (s.goOn worker s.lock .wantTick).step workType
      (.advance worker) = some ((s.goOn worker s.lock .wantTick).decideTrue
        worker s.lock) := by
    simp only [step, WorkRace.advance, goOn_stage]
    exact if_pos htime
  rw [List.replicate_succ, run_cons, hread, Option.bind_some, List.replicate_one,
    run_cons, htest, Option.bind_some, run_nil]

/-- The first worker has started, and no other has done anything. -/
structure Taken (workType : ι → UInt32) (inTimeOut : Int32) (worker : ι)
    (s : WorkRace ι) : Prop where
  lock : s.lock =
    { curWork := workType worker, timeout := inTimeOut, startTick := 0 }
  clock : s.clock = 0
  stage : s.stage worker = .wantStore
  others : ∀ other, other ≠ worker → s.stage other = .wantWork
  starters : s.starters = [(worker, 0)]

theorem exists_taken (workType : ι → UInt32) (inTimeOut : Int32) (worker : ι) :
    ∃ s, run (step workType) (new inTimeOut 0)
        (List.replicate 2 (.advance worker)) = some s ∧
      Taken workType inTimeOut worker s := by
  refine ⟨_, run_takes workType rfl rfl, rfl, rfl, decideTrue_stage _ _ _, ?_,
    rfl⟩
  intro other hne
  exact (Function.update_of_ne hne _ _).trans (Function.update_of_ne hne _ _)

/-- A worker whose work type is 0 leaves the lock free for the next one. -/
theorem not_alwaysOne_of_type {inTimeOut : Int32} {other : ι}
    (hne : other ≠ worker) (htype : workType worker = 0) :
    ¬AlwaysOne workType inTimeOut := by
  intro hone
  obtain ⟨s, hfirst, htaken⟩ := exists_taken workType inTimeOut worker
  have hfree : s.lock.curWork = 0 := by
    rw [htaken.lock]
    exact htype
  have hsecond := run_takes workType (htaken.others other hne) hfree
  have hlength := hone 0 _ _ (by rw [run_append, hfirst]; exact hsecond)
  change (s.starters ++ [(other, s.clock)]).length ≤ 1 at hlength
  simp [htaken.starters] at hlength

/-- The worker that has started stores its tick, and its timeout runs out. -/
theorem Taken.exists_timedOut {inTimeOut : Int32}
    (h : Taken workType inTimeOut worker s) (htype : workType worker ≠ 0)
    (htimeout : inTimeOut ≠ -1) :
    ∃ ls t, run (step workType) s ls = some t ∧ t.starters = s.starters ∧
      (∀ other, other ≠ worker → t.stage other = .wantWork) ∧
      t.lock.checkTimeOut = true ∧ t.lock.isTimeOut t.tick = true := by
  have hrun : run (step workType) s
      [.advance worker, .wait inTimeOut.toUInt32.toNat] = some
        { s.goOn worker (s.lock.storeTick s.tick) .working with
          clock := s.clock + inTimeOut.toUInt32.toNat } := by
    simp only [run_cons, step, WorkRace.advance, h.stage]
    rfl
  have hzero : (0 : Int32).toUInt32 = 0 := rfl
  refine ⟨_, _, hrun, rfl, ?_, ?_, ?_⟩
  · intro other hne
    exact (Function.update_of_ne hne _ _).trans (h.others other hne)
  · simp [WorkRace.goOn, ProgressLock.checkTimeOut, ProgressLock.storeTick,
      h.lock, htype, htimeout]
  · simp [WorkRace.goOn, ProgressLock.isTimeOut, ProgressLock.storeTick, h.lock,
      h.clock, tick, hzero]

/-- With any other timeout a worker takes over once it has passed since the one at
work stored its tick. -/
theorem not_alwaysOne_of_timeout {inTimeOut : Int32} {other : ι}
    (hne : other ≠ worker) (htype : workType worker ≠ 0)
    (htimeout : inTimeOut ≠ -1) : ¬AlwaysOne workType inTimeOut := by
  intro hone
  obtain ⟨s, hfirst, htaken⟩ := exists_taken workType inTimeOut worker
  obtain ⟨ls, t, hwait, hstarters, hothers, hcheck, htime⟩ :=
    htaken.exists_timedOut htype htimeout
  have hsecond := run_takesOver workType (hothers other hne) hcheck htime
  have hlength := hone 0 _ _ (by
    rw [run_append, hfirst, Option.bind_some, run_append, hwait]
    exact hsecond)
  change (t.starters ++ [(other, t.clock)]).length ≤ 1 at hlength
  simp [hstarters, htaken.starters] at hlength

/-- Among two workers or more, the lock always lets one on at a time exactly if it
has no timeout and every worker a work type other than 0. -/
theorem alwaysOne_iff [Nontrivial ι] (workType : ι → UInt32)
    (inTimeOut : Int32) :
    AlwaysOne workType inTimeOut ↔
      inTimeOut = -1 ∧ ∀ worker, workType worker ≠ 0 := by
  constructor
  · intro hone
    have htypes : ∀ worker, workType worker ≠ 0 := by
      intro worker htype
      obtain ⟨other, hne⟩ := exists_ne worker
      exact not_alwaysOne_of_type hne htype hone
    refine ⟨?_, htypes⟩
    by_contra htimeout
    obtain ⟨worker, other, hne⟩ := exists_pair_ne ι
    exact not_alwaysOne_of_timeout hne.symm (htypes worker) htimeout hone
  · rintro ⟨rfl, htypes⟩
    exact alwaysOne_of_types htypes

/-- The timeout -2 is one of 4294967294 milliseconds. -/
theorem alwaysOne_without_timeout :
    AlwaysOne (fun _ : Bool => 1) (-1) ∧ ¬AlwaysOne (fun _ : Bool => 1) (-2) := by
  rw [alwaysOne_iff, alwaysOne_iff]
  exact ⟨⟨rfl, fun _ => by decide⟩, fun h => absurd h.1 (by decide)⟩

end WorkRace

end DokeviNet
