import DokeviNetwork.Progress.ProgressLock
import DokeviNetwork.Support.Run
import Mathlib.Algebra.Group.Nat.Defs
import Mathlib.Data.List.Pairwise

/-!
# Who takes the progress lock over too early

`Start` publishes the work type before it stores its tick.  A worker that tests
the timeout in between compares with the tick of an earlier worker, or with 0,
and takes over at once.  And after a takeover the `End` of the displaced worker
frees the lock, so that a further worker starts while the second is at work.
This module follows the atomic steps of any number of workers, each of which
starts once, and a clock of milliseconds.  Where the calls do not overlap and no
displaced worker calls `End`, nobody is too early.
-/

namespace DokeviNet

open LabelledRun

/-- What a worker does next: read `_curWork`, test the timeout, call
`InterlockedCompareExchange`, store the tick, or call `End`; or nothing, once
`Start` has returned false or `End` has returned. -/
inductive WorkStage
  | wantWork
  | wantTick
  | wantExchange
  | wantStore
  | working
  | refused
  | ended
  deriving DecidableEq

/-- `Start` of the worker is under way. -/
def WorkStage.inStart : WorkStage → Bool
  | wantTick | wantExchange | wantStore => true
  | wantWork | working | refused | ended => false

/-- A lock, the clock and the workers.  `starters` are those whose `Start` has
decided to return true and that have not called `End`, with the time of the
decision, in the order of these. -/
structure WorkRace (ι : Type*) where
  lock : ProgressLock
  clock : ℕ
  stage : ι → WorkStage
  starters : List (ι × ℕ)

/-- The clock goes on, or a worker does its next step. -/
inductive WorkStep (ι : Type*)
  | wait (ms : ℕ)
  | advance (worker : ι)
  deriving DecidableEq

namespace WorkRace

variable {ι : Type*}

/-- A new lock, and a clock that shows any time. -/
def new (inTimeOut : Int32) (clock : ℕ) : WorkRace ι where
  lock := ProgressLock.init inTimeOut
  clock := clock
  stage := fun _ => .wantWork
  starters := []

/-- `GetTickCount`. -/
def tick (s : WorkRace ι) : UInt32 := UInt32.ofNat s.clock

section

variable [DecidableEq ι]

/-- The worker goes on to `next`, and leaves `lock`. -/
def goOn (s : WorkRace ι) (worker : ι) (lock : ProgressLock)
    (next : WorkStage) : WorkRace ι :=
  { s with lock := lock, stage := Function.update s.stage worker next }

/-- `Start` decides to return true. -/
def decideTrue (s : WorkRace ι) (worker : ι) (lock : ProgressLock) :
    WorkRace ι :=
  { s.goOn worker lock .wantStore with
    starters := s.starters ++ [(worker, s.clock)] }

/-- One step of a worker. -/
def advance (workType : ι → UInt32) (s : WorkRace ι) (worker : ι) :
    Option (WorkRace ι) :=
  match s.stage worker with
  | .wantWork =>
    some (s.goOn worker s.lock
      (if s.lock.checkTimeOut then .wantTick else .wantExchange))
  | .wantTick =>
    if s.lock.isTimeOut s.tick then some (s.decideTrue worker s.lock)
    else some (s.goOn worker s.lock .wantExchange)
  | .wantExchange =>
    let lock := s.lock.compareExchange (workType worker)
    if s.lock.curWork ≠ 0 then some (s.goOn worker lock .refused)
    else some (s.decideTrue worker lock)
  | .wantStore => some (s.goOn worker (s.lock.storeTick s.tick) .working)
  | .working =>
    some
      { s.goOn worker s.lock.endWork .ended with
        starters := s.starters.filter fun v => decide (v.1 ≠ worker) }
  | .refused => none
  | .ended => none

def step (workType : ι → UInt32) (s : WorkRace ι) :
    WorkStep ι → Option (WorkRace ι)
  | .wait ms => some { s with clock := s.clock + ms }
  | .advance worker => s.advance workType worker

end

/-- The timeout in milliseconds. -/
def timeoutMs (s : WorkRace ι) : ℕ := s.lock.timeout.toNatClampNeg

/-- `Start` decided for each of the workers that have not called `End` no
earlier than the timeout after the one before. -/
def Spaced (s : WorkRace ι) : Prop :=
  s.starters.Pairwise fun v w => v.2 + s.timeoutMs ≤ w.2

instance (s : WorkRace ι) : Decidable s.Spaced :=
  inferInstanceAs (Decidable (List.Pairwise _ _))

/-- When a timeout test takes the lock over, the workers that have not stored
their tick yet started the timeout ago; when `InterlockedCompareExchange` takes
it, the last worker to start has called `End` or did so as well. -/
def NotEarly (s : WorkRace ι) : WorkStep ι → Prop
  | .wait _ => True
  | .advance worker =>
    (s.stage worker = .wantTick → s.lock.isTimeOut s.tick = true →
        ∀ v ∈ s.starters, s.stage v.1 ≠ .working →
          v.2 + s.timeoutMs ≤ s.clock) ∧
      (s.stage worker = .wantExchange → s.lock.curWork = 0 →
        ∀ v ∈ s.starters.getLast?, v.2 + s.timeoutMs ≤ s.clock)

instance [DecidableEq ι] (s : WorkRace ι) : ∀ l, Decidable (s.NotEarly l)
  | .wait _ => isTrue trivial
  | .advance _ => inferInstanceAs (Decidable (_ ∧ _))

/-- `stored` is the time at which a tick was last stored. -/
structure Timed (stored : ℕ) (s : WorkRace ι) : Prop where
  timeout : 0 < s.lock.timeout
  startTick : s.lock.startTick.toUInt32.toNat = stored % 2 ^ 32
  le_clock : stored ≤ s.clock
  started : ∀ v ∈ s.starters, v.2 ≤ s.clock
  working : ∀ v ∈ s.starters, s.stage v.1 = .working → v.2 ≤ stored

variable {s s' : WorkRace ι} {stored : ℕ} {worker : ι}

theorem Timed.timeoutMs_eq (h : Timed stored s) :
    s.lock.timeout.toUInt32.toNat = s.timeoutMs :=
  Int32.toNat_toBitVec_of_le (Int32.le_of_lt h.timeout)

/-- A tick that passes the test is the timeout after the one stored last. -/
theorem Timed.le_of_isTimeOut (h : Timed stored s)
    (htime : s.lock.isTimeOut s.tick = true) :
    stored + s.timeoutMs ≤ s.clock := by
  have hle : s.lock.timeout.toUInt32 ≤
      s.tick - s.lock.startTick.toUInt32 := of_decide_eq_true htime
  rw [UInt32.le_iff_toNat_le, h.timeoutMs_eq, UInt32.toNat_sub, h.startTick,
    tick, UInt32.toNat_ofNat'] at hle
  have hclock := h.le_clock
  omega

/-- Where a further worker starts, all others have to have started the timeout
before. -/
theorem spaced_append_iff (hspaced : Spaced s) {lock : ProgressLock}
    {stage : ι → WorkStage} (hsame : lock.timeout = s.lock.timeout) :
    Spaced { s with
        lock, stage, starters := s.starters ++ [(worker, s.clock)] } ↔
      ∀ v ∈ s.starters, v.2 + s.timeoutMs ≤ s.clock := by
  have htimeout : timeoutMs { s with
      lock, stage, starters := s.starters ++ [(worker, s.clock)] } =
        s.timeoutMs := congrArg Int32.toNatClampNeg hsame
  rw [Spaced, htimeout, List.pairwise_append]
  constructor
  · intro h v hv
    exact h.2.2 v hv _ (List.mem_singleton_self _)
  · intro h
    refine ⟨hspaced, List.pairwise_singleton _ _, fun v hv w hw => ?_⟩
    rw [List.mem_singleton.mp hw]
    exact h v hv

/-- It is enough to look at the last worker to start. -/
theorem Spaced.forall_iff_last (h : Spaced s) :
    (∀ v ∈ s.starters, v.2 + s.timeoutMs ≤ s.clock) ↔
      ∀ v ∈ s.starters.getLast?, v.2 + s.timeoutMs ≤ s.clock := by
  constructor
  · exact fun hall v hv => hall v (List.mem_of_getLast? hv)
  · intro hlast v hv
    obtain ⟨init, last, heq⟩ := List.eq_nil_or_concat' s.starters |>.resolve_left
      (List.ne_nil_of_mem hv)
    have hlate := hlast last (by simp [heq])
    rw [heq] at hv
    rcases List.mem_append.mp hv with hv | hv
    · rw [Spaced, heq, List.pairwise_append] at h
      have hle := h.2.2 v hv last (List.mem_singleton_self _)
      omega
    · rw [List.mem_singleton.mp hv]
      exact hlate

theorem notEarly_of_stage (htick : s.stage worker ≠ .wantTick)
    (hexchange : s.stage worker ≠ .wantExchange) :
    s.NotEarly (.advance worker) :=
  ⟨fun hstage => absurd hstage htick, fun hstage => absurd hstage hexchange⟩

theorem notEarly_wantTick (hstage : s.stage worker = .wantTick) :
    s.NotEarly (.advance worker) ↔
      (s.lock.isTimeOut s.tick = true → ∀ v ∈ s.starters,
        s.stage v.1 ≠ .working → v.2 + s.timeoutMs ≤ s.clock) := by
  refine ⟨fun h => h.1 hstage, fun h => ⟨fun _ => h, fun hexchange => ?_⟩⟩
  rw [hstage] at hexchange
  cases hexchange

theorem notEarly_wantExchange (hstage : s.stage worker = .wantExchange) :
    s.NotEarly (.advance worker) ↔
      (s.lock.curWork = 0 →
        ∀ v ∈ s.starters.getLast?, v.2 + s.timeoutMs ≤ s.clock) := by
  refine ⟨fun h => h.2 hstage, fun h => ⟨fun htick => ?_, fun _ => h⟩⟩
  rw [hstage] at htick
  cases htick

variable [DecidableEq ι] {workType : ι → UInt32}

/-- The steps in which `Start` does not decide to return true, and `End`. -/
theorem Timed.goOn (h : Timed stored s) (worker : ι) {lock : ProgressLock}
    {next : WorkStage} (hlock : lock.timeout = s.lock.timeout ∧
      lock.startTick = s.lock.startTick) (hnext : next ≠ .working) :
    Timed stored (s.goOn worker lock next) := by
  refine ⟨hlock.1 ▸ h.timeout, hlock.2 ▸ h.startTick, h.le_clock, h.started, ?_⟩
  intro v hv hworking
  change Function.update s.stage worker next v.1 = .working at hworking
  by_cases heq : v.1 = worker
  · rw [heq, Function.update_self] at hworking
    exact absurd hworking hnext
  · rw [Function.update_of_ne heq] at hworking
    exact h.working v hv hworking

theorem Timed.decideTrue (h : Timed stored s) (worker : ι)
    {lock : ProgressLock} (hlock : lock.timeout = s.lock.timeout ∧
      lock.startTick = s.lock.startTick) :
    Timed stored (s.decideTrue worker lock) := by
  have hon := h.goOn worker hlock (show WorkStage.wantStore ≠ .working by simp)
  refine ⟨hon.timeout, hon.startTick, hon.le_clock, ?_, ?_⟩
  · intro v hv
    rcases List.mem_append.mp hv with hv | hv
    · exact h.started v hv
    · rw [List.mem_singleton.mp hv]
      exact Nat.le_refl _
  · intro v hv hworking
    rcases List.mem_append.mp hv with hv | hv
    · exact hon.working v hv hworking
    · rw [List.mem_singleton.mp hv] at hworking
      change Function.update s.stage worker .wantStore worker = _ at hworking
      rw [Function.update_self] at hworking
      cases hworking

/-- Storing the tick settles the time of every worker that has started. -/
theorem Timed.storeTick (h : Timed stored s) (worker : ι) :
    Timed s.clock (s.goOn worker (s.lock.storeTick s.tick) .working) := by
  refine ⟨h.timeout, ?_, Nat.le_refl _, h.started, fun v hv _ => h.started v hv⟩
  change s.tick.toInt32.toUInt32.toNat = _
  rw [UInt32.toUInt32_toInt32, tick, UInt32.toNat_ofNat']

theorem compareExchange_frame (lock : ProgressLock) (inWorkType : UInt32) :
    (lock.compareExchange inWorkType).timeout = lock.timeout ∧
      (lock.compareExchange inWorkType).startTick = lock.startTick := by
  rw [ProgressLock.compareExchange]
  split
  · exact ⟨rfl, rfl⟩
  · exact ⟨rfl, rfl⟩

/-- What holds as long as nobody is early. -/
def InTime (s : WorkRace ι) : Prop := Spaced s ∧ ∃ stored, Timed stored s

theorem Spaced.goOn (h : Spaced s) (worker : ι) {lock : ProgressLock}
    (hsame : lock.timeout = s.lock.timeout) (next : WorkStage) :
    Spaced (s.goOn worker lock next) := by
  have htimeout : (s.goOn worker lock next).timeoutMs = s.timeoutMs :=
    congrArg Int32.toNatClampNeg hsame
  rw [Spaced, htimeout]
  exact h

@[simp] theorem goOn_stage (s : WorkRace ι) (worker : ι) (lock : ProgressLock)
    (next : WorkStage) : (s.goOn worker lock next).stage worker = next :=
  Function.update_self _ _ _

@[simp] theorem decideTrue_stage (s : WorkRace ι) (worker : ι)
    (lock : ProgressLock) :
    (s.decideTrue worker lock).stage worker = .wantStore :=
  Function.update_self _ _ _

/-- Some steps of the worker, and of no other, lead to `lock` and `stage`. -/
def Alone (workType : ι → UInt32) (s : WorkRace ι) (worker : ι)
    (lock : ProgressLock) (stage : WorkStage) : Prop :=
  ∃ n s', run (step workType) s (List.replicate n (.advance worker)) = some s' ∧
    s'.lock = lock ∧ s'.stage worker = stage

section

variable {lock : ProgressLock} {stage : WorkStage}

theorem Alone.step (hstep : s.advance workType worker = some s')
    (h : Alone workType s' worker lock stage) :
    Alone workType s worker lock stage := by
  obtain ⟨n, t, hrun, ht⟩ := h
  refine ⟨n + 1, t, ?_, ht⟩
  rw [List.replicate_succ, run_cons]
  change (s.advance workType worker).bind _ = _
  rw [hstep, Option.bind_some, hrun]

theorem alone_here : Alone workType s worker s.lock (s.stage worker) :=
  ⟨0, s, rfl, rfl, rfl⟩

theorem alone_wantStore (hstage : s.stage worker = .wantStore) :
    Alone workType s worker (s.lock.storeTick s.tick) .working := by
  have hstep : s.advance workType worker =
      some (s.goOn worker (s.lock.storeTick s.tick) .working) := by
    rw [WorkRace.advance, hstage]
  have hdone := @alone_here ι
    (s.goOn worker (s.lock.storeTick s.tick) .working) worker _ workType
  rw [goOn_stage] at hdone
  exact hdone.step hstep

theorem alone_wantExchange (hstage : s.stage worker = .wantExchange) :
    if s.lock.curWork = 0 then
      Alone workType s worker
        ((s.lock.compareExchange (workType worker)).storeTick s.tick) .working
    else Alone workType s worker s.lock .refused := by
  split
  · next hfree =>
    have hstep : s.advance workType worker = some (s.decideTrue worker
        (s.lock.compareExchange (workType worker))) := by
      rw [WorkRace.advance, hstage]
      simp [hfree]
    exact (alone_wantStore (decideTrue_stage s worker _)).step hstep
  · next hwork =>
    have hsame : s.lock.compareExchange (workType worker) = s.lock :=
      if_neg hwork
    have hstep : s.advance workType worker =
        some (s.goOn worker s.lock .refused) := by
      rw [WorkRace.advance, hstage]
      simp [hwork, hsame]
    have hdone := @alone_here ι (s.goOn worker s.lock .refused) worker _
      workType
    rw [goOn_stage] at hdone
    exact hdone.step hstep

theorem alone_takeOver (hstage : s.stage worker = .wantTick)
    (htime : s.lock.isTimeOut s.tick = true) :
    Alone workType s worker (s.lock.storeTick s.tick) .working := by
  have htest : s.advance workType worker =
      some (s.decideTrue worker s.lock) := by
    rw [WorkRace.advance, hstage]
    exact if_pos htime
  exact (alone_wantStore (decideTrue_stage s worker s.lock)).step htest

theorem alone_noTimeOut (hstage : s.stage worker = .wantTick)
    (htime : s.lock.isTimeOut s.tick = false) (hwork : s.lock.curWork ≠ 0) :
    Alone workType s worker s.lock .refused := by
  have htest : s.advance workType worker =
      some (s.goOn worker s.lock .wantExchange) := by
    rw [WorkRace.advance, hstage]
    exact if_neg (Bool.eq_false_iff.mp htime)
  have hexchange := @alone_wantExchange ι
    (s.goOn worker s.lock .wantExchange) worker _ workType (goOn_stage _ _ _ _)
  exact ((if_neg hwork).mp hexchange).step htest

/-- The steps of a worker that is not interrupted are a call of `Start`. -/
theorem alone_start (hstage : s.stage worker = .wantWork) :
    Alone workType s worker
      (s.lock.start (workType worker) s.tick s.tick).lock
      (if (s.lock.start (workType worker) s.tick s.tick).started then .working
        else .refused) := by
  have hread : s.advance workType worker = some (s.goOn worker s.lock
      (if s.lock.checkTimeOut then .wantTick else .wantExchange)) := by
    rw [WorkRace.advance, hstage]
  refine Alone.step hread ?_
  have hexchange := @alone_wantExchange ι
    (s.goOn worker s.lock .wantExchange) worker _ workType (goOn_stage _ _ _ _)
  change if s.lock.curWork = 0 then _ else _ at hexchange
  obtain ⟨-, htime, hstart⟩ | ⟨hwork, htime, hstart⟩ | ⟨hfree, hstart⟩ :=
    s.lock.start_cases (workType worker) s.tick s.tick
  · obtain ⟨hcheck, htime⟩ := Bool.and_eq_true_iff.mp htime
    rw [hstart, if_pos hcheck, if_pos rfl]
    exact alone_takeOver (goOn_stage s worker s.lock .wantTick) htime
  · rw [hstart, if_neg (Bool.false_ne_true)]
    cases hcheck : s.lock.checkTimeOut with
    | false =>
        rw [if_neg hwork] at hexchange
        rw [if_neg Bool.false_ne_true]
        exact hexchange
    | true =>
        rw [hcheck, Bool.true_and] at htime
        rw [if_pos rfl]
        exact alone_noTimeOut (goOn_stage s worker s.lock .wantTick) htime hwork
  · have hcheck : ¬s.lock.checkTimeOut = true := by
      simp [ProgressLock.checkTimeOut, hfree]
    rw [if_pos hfree] at hexchange
    rw [hstart, if_neg hcheck, if_pos rfl]
    have hlock : (s.lock.compareExchange (workType worker)).storeTick s.tick =
        { s.lock with
          curWork := workType worker
          startTick := s.tick.toInt32 } := by
      rw [ProgressLock.compareExchange, if_pos hfree]
      rfl
    exact hlock ▸ hexchange

end

theorem InTime.goOn (h : InTime s) (worker : ι) {lock : ProgressLock}
    {next : WorkStage} (hlock : lock.timeout = s.lock.timeout ∧
      lock.startTick = s.lock.startTick) (hnext : next ≠ .working) :
    InTime (s.goOn worker lock next) := by
  obtain ⟨hspaced, stored, ht⟩ := h
  exact ⟨hspaced.goOn worker hlock.1 next, stored, ht.goOn worker hlock hnext⟩

theorem InTime.endWork (h : InTime s) (worker : ι) :
    InTime { s.goOn worker s.lock.endWork .ended with
      starters := s.starters.filter fun v => decide (v.1 ≠ worker) } := by
  obtain ⟨hspaced, stored, ht⟩ := h.goOn worker
    (show s.lock.endWork.timeout = s.lock.timeout ∧
      s.lock.endWork.startTick = s.lock.startTick from ⟨rfl, rfl⟩)
    (show WorkStage.ended ≠ .working by simp)
  refine ⟨hspaced.filter _, stored, ht.timeout, ht.startTick, ht.le_clock,
    ?_, ?_⟩
  · exact fun v hv => ht.started v (List.mem_filter.mp hv).1
  · exact fun v hv => ht.working v (List.mem_filter.mp hv).1

/-- The workers that have stored their tick started the timeout ago when the
test passes, the others if it is not early. -/
theorem InTime.takeOver (h : InTime s) (hstage : s.stage worker = .wantTick)
    (htime : s.lock.isTimeOut s.tick = true) :
    (s.NotEarly (.advance worker) →
        InTime (s.decideTrue worker s.lock)) ∧
      (Spaced (s.decideTrue worker s.lock) →
        s.NotEarly (.advance worker)) := by
  obtain ⟨hspaced, stored, ht⟩ := h
  have hiff := @spaced_append_iff ι s worker hspaced s.lock
    (Function.update s.stage worker .wantStore) rfl
  rw [notEarly_wantTick hstage]
  constructor
  · intro hearly
    refine ⟨hiff.mpr ?_, stored, ht.decideTrue worker ⟨rfl, rfl⟩⟩
    intro v hv
    by_cases hworking : s.stage v.1 = .working
    · have hle := ht.le_of_isTimeOut htime
      have hbefore := ht.working v hv hworking
      omega
    · exact hearly htime v hv hworking
  · intro hafter _ v hv _
    exact hiff.mp hafter v hv

theorem InTime.exchange (h : InTime s) (workType : ι → UInt32)
    (hstage : s.stage worker = .wantExchange) (hfree : s.lock.curWork = 0) :
    (s.NotEarly (.advance worker) → InTime (s.decideTrue worker
        (s.lock.compareExchange (workType worker)))) ∧
      (Spaced (s.decideTrue worker
          (s.lock.compareExchange (workType worker))) →
        s.NotEarly (.advance worker)) := by
  obtain ⟨hspaced, stored, ht⟩ := h
  have hexchange := compareExchange_frame s.lock (workType worker)
  have hiff := @spaced_append_iff ι s worker hspaced
    (s.lock.compareExchange (workType worker))
    (Function.update s.stage worker .wantStore) hexchange.1
  rw [hspaced.forall_iff_last] at hiff
  rw [notEarly_wantExchange hstage]
  constructor
  · intro hearly
    exact ⟨hiff.mpr (hearly hfree), stored, ht.decideTrue worker hexchange⟩
  · intro hafter _
    exact hiff.mp hafter

theorem InTime.advance (h : InTime s)
    (hstep : s.advance workType worker = some s') :
    (s.NotEarly (.advance worker) → InTime s') ∧
      (Spaced s' → s.NotEarly (.advance worker)) := by
  rw [WorkRace.advance] at hstep
  split at hstep
  · next hstage =>
    obtain rfl := Option.some.inj hstep
    have hearly : s.NotEarly (.advance worker) :=
      notEarly_of_stage (by simp [hstage]) (by simp [hstage])
    refine ⟨fun _ => h.goOn worker ⟨rfl, rfl⟩ ?_, fun _ => hearly⟩
    split
    · simp
    · simp
  · next hstage =>
    split at hstep
    · next htime =>
      obtain rfl := Option.some.inj hstep
      exact h.takeOver hstage htime
    · next htime =>
      obtain rfl := Option.some.inj hstep
      refine ⟨fun _ => h.goOn worker ⟨rfl, rfl⟩ (by simp), fun _ => ?_⟩
      rw [notEarly_wantTick hstage]
      exact fun htrue => absurd htrue htime
  · next hstage =>
    split at hstep
    · next hwork =>
      obtain rfl := Option.some.inj hstep
      refine ⟨fun _ => h.goOn worker (compareExchange_frame _ _) (by simp),
        fun _ => ?_⟩
      rw [notEarly_wantExchange hstage]
      exact fun hfree => absurd hfree hwork
    · next hwork =>
      obtain rfl := Option.some.inj hstep
      exact h.exchange workType hstage (of_not_not hwork)
  · next hstage =>
    obtain rfl := Option.some.inj hstep
    have hearly : s.NotEarly (.advance worker) :=
      notEarly_of_stage (by simp [hstage]) (by simp [hstage])
    obtain ⟨hspaced, stored, ht⟩ := h
    have hafter : Spaced (s.goOn worker (s.lock.storeTick s.tick) .working) :=
      hspaced.goOn worker rfl .working
    exact ⟨fun _ => ⟨hafter, s.clock, ht.storeTick worker⟩, fun _ => hearly⟩
  · next hstage =>
    obtain rfl := Option.some.inj hstep
    have hearly : s.NotEarly (.advance worker) :=
      notEarly_of_stage (by simp [hstage]) (by simp [hstage])
    exact ⟨fun _ => h.endWork worker, fun _ => hearly⟩
  · cases hstep
  · cases hstep

theorem InTime.step (h : InTime s) {l : WorkStep ι}
    (hstep : s.step workType l = some s') :
    (s.NotEarly l → InTime s') ∧ (Spaced s' → s.NotEarly l) := by
  cases l with
  | advance worker => exact h.advance hstep
  | wait ms =>
      obtain rfl := Option.some.inj hstep
      obtain ⟨hspaced, stored, ht⟩ := h
      refine ⟨fun _ => ⟨hspaced, stored, ht.timeout, ht.startTick, ?_, ?_,
        ht.working⟩, fun _ => trivial⟩
      · exact Nat.le_add_right_of_le ht.le_clock
      · exact fun v hv => Nat.le_add_right_of_le (ht.started v hv)

omit [DecidableEq ι] in
theorem inTime_new {inTimeOut : Int32} (hpos : 0 < inTimeOut) (clock : ℕ) :
    InTime (new inTimeOut clock : WorkRace ι) := by
  refine ⟨List.Pairwise.nil, 0, hpos, rfl, Nat.zero_le _, ?_, ?_⟩
  · intro v hv
    cases hv
  · intro v hv
    cases hv

/-- Nobody takes over early in exactly the runs in which no timeout is tested
while a worker that has just started has still to store its tick, and no worker
finds the lock free while the last one to start is at work, unless these started
the timeout before. -/
theorem spaced_iff_notEarly {inTimeOut : Int32} (hpos : 0 < inTimeOut)
    (clock : ℕ) {steps : List (WorkStep ι)}
    (hrun : (run (step workType) (new inTimeOut clock) steps).isSome) :
    Throughout (step workType) Spaced (new inTimeOut clock) steps ↔
      Along (step workType) NotEarly (new inTimeOut clock) steps := by
  obtain ⟨t, hrun⟩ := Option.isSome_iff_exists.mp hrun
  have hinit : InTime (new inTimeOut clock : WorkRace ι) :=
    inTime_new hpos clock
  have hany : Along (step workType) (fun _ _ => True) (new inTimeOut clock)
      steps := along_of_forall fun _ _ _ => trivial
  refine throughout_iff_along (fun (s : WorkRace ι) (h : InTime s) => h.1)
    ?_ ?_ hinit hany hrun
  · exact fun s l s' h _ hearly hstep => (h.step hstep).1 hearly
  · exact fun s l s' h _ hstep hspaced => (h.step hstep).2 hspaced

/-- `false` takes the lock at time 1000, and `true` tests the timeout before
`false` has stored its tick. -/
def testsTooSoon : List (WorkStep Bool) :=
  [.advance false, .advance false, .advance true, .advance true,
    .advance true]

/-- `true` has taken over at once, and `false` has not called `End`. -/
theorem taken_over_at_once :
    ∃ s, run (step fun _ => 1) (new 50 1000) testsTooSoon = some s ∧
      s.stage true = .working ∧ s.starters = [(false, 1000), (true, 1000)] ∧
      ¬Spaced s := by
  refine ⟨_, rfl, rfl, rfl, fun h => ?_⟩
  exact absurd h (by decide)

/-- `true` takes over 60 milliseconds after `false`. -/
theorem spaced_afterTimeout :
    Throughout (step fun _ => 1) Spaced (new 50 1000)
      [.advance false, .advance false, .advance false, .wait 60,
        .advance true, .advance true, .advance true, .advance true] :=
  (spaced_iff_notEarly (by decide) 1000 (by decide)).mpr (by decide)

/-! ## Calls that do not overlap -/

/-- No call overlaps with a `Start`, and a worker calls `End` only while none has
started after it. -/
def InTurn (s : WorkRace ι) : WorkStep ι → Prop
  | .wait _ => True
  | .advance worker =>
    (∀ v, (s.stage v).inStart = true → v = worker) ∧
      (s.stage worker = .working → ∀ v ∈ s.starters.getLast?, v.1 = worker)

/-- Where those that have started stand; and if the lock is free, nobody tests
the timeout, and they started the timeout ago. -/
structure Standing (s : WorkRace ι) : Prop where
  stage : ∀ v ∈ s.starters, s.stage v.1 = .wantStore ∨ s.stage v.1 = .working
  tests : s.lock.curWork = 0 → ∀ v, s.stage v ≠ .wantTick
  late : s.lock.curWork = 0 → ∀ v ∈ s.starters, v.2 + s.timeoutMs ≤ s.clock

omit [DecidableEq ι] in
theorem Standing.notEarly (h : Standing s) {l : WorkStep ι} (hturn : s.InTurn l) :
    s.NotEarly l := by
  cases l with
  | wait ms => trivial
  | advance worker =>
      constructor
      · intro hstage _ v hv hworking
        have hstore := (h.stage v hv).resolve_right hworking
        obtain rfl := hturn.1 v.1 (by rw [hstore]; rfl)
        rw [hstage] at hstore
        cases hstore
      · intro _ hfree v hv
        exact h.late hfree v (List.mem_of_getLast? hv)

theorem started_update {starters : List (ι × ℕ)} {next : WorkStage}
    (hold : ∀ v ∈ starters, v.1 ≠ worker →
      s.stage v.1 = .wantStore ∨ s.stage v.1 = .working)
    (hnext : (∃ v ∈ starters, v.1 = worker) →
      next = .wantStore ∨ next = .working) :
    ∀ v ∈ starters, Function.update s.stage worker next v.1 = .wantStore ∨
      Function.update s.stage worker next v.1 = .working := by
  intro v hv
  by_cases heq : v.1 = worker
  · rw [heq, Function.update_self]
    exact hnext ⟨v, hv, heq⟩
  · rw [Function.update_of_ne heq]
    exact hold v hv heq

theorem tests_update {next : WorkStage}
    (hold : ∀ v, v ≠ worker → s.stage v ≠ .wantTick) (hnext : next ≠ .wantTick) :
    ∀ v, Function.update s.stage worker next v ≠ .wantTick := by
  intro v
  by_cases heq : v = worker
  · rw [heq, Function.update_self]
    exact hnext
  · rw [Function.update_of_ne heq]
    exact hold v heq

/-- A worker that has not started goes on. -/
theorem Standing.goOn (h : Standing s) {lock : ProgressLock} {next : WorkStage}
    (hlock : lock = s.lock) (hout : s.stage worker ≠ .wantStore ∧
      s.stage worker ≠ .working)
    (hnext : s.lock.curWork = 0 → next ≠ .wantTick) :
    Standing (s.goOn worker lock next) := by
  subst hlock
  refine ⟨started_update (fun v hv _ => h.stage v hv) ?_, ?_, h.late⟩
  · rintro ⟨v, hv, rfl⟩
    exact absurd (h.stage v hv) (not_or.mpr hout)
  · exact fun hfree =>
      tests_update (fun v _ => h.tests hfree v) (hnext hfree)

theorem Standing.decideTrue (h : Standing s) (worker : ι) {lock : ProgressLock}
    (hwork : lock.curWork ≠ 0) : Standing (s.decideTrue worker lock) := by
  refine ⟨started_update ?_ fun _ => Or.inl rfl, fun hfree => absurd hfree hwork,
    fun hfree => absurd hfree hwork⟩
  intro v hv hne
  rcases List.mem_append.mp hv with hv | hv
  · exact h.stage v hv
  · exact absurd (congrArg Prod.fst (List.mem_singleton.mp hv)) hne

theorem Standing.storeTick (h : Standing s) (worker : ι) :
    Standing (s.goOn worker (s.lock.storeTick s.tick) .working) := by
  refine ⟨started_update (fun v hv _ => h.stage v hv) fun _ => Or.inr rfl, ?_,
    h.late⟩
  exact fun hfree => tests_update (fun v _ => h.tests hfree v) (by simp)

omit [DecidableEq ι] in
/-- Those that started before the last worker did so the timeout before it. -/
theorem InTime.late_of_last (h : InTime s)
    (hlast : ∀ v ∈ s.starters.getLast?, v.1 = worker) :
    ∀ v ∈ s.starters, v.1 ≠ worker → v.2 + s.timeoutMs ≤ s.clock := by
  obtain ⟨hspaced, stored, ht⟩ := h
  intro v hv hne
  obtain ⟨init, last, heq⟩ := List.eq_nil_or_concat' s.starters |>.resolve_left
    (List.ne_nil_of_mem hv)
  have hworker : last.1 = worker := hlast last (by simp [heq])
  have hstarted := ht.started last (by simp [heq])
  rw [heq] at hv
  rcases List.mem_append.mp hv with hv | hv
  · rw [Spaced, heq, List.pairwise_append] at hspaced
    have hle := hspaced.2.2 v hv last (List.mem_singleton_self _)
    omega
  · rw [List.mem_singleton.mp hv] at hne
    exact absurd hworker hne

/-- The lock is free again, and nobody is about to test the timeout. -/
theorem Standing.endWork (h : Standing s) (hin : InTime s)
    (hturn : s.InTurn (.advance worker)) (hstage : s.stage worker = .working) :
    Standing { s.goOn worker s.lock.endWork .ended with
      starters := s.starters.filter fun v => decide (v.1 ≠ worker) } := by
  refine ⟨started_update ?_ ?_, fun _ => tests_update ?_ (by simp), ?_⟩
  · intro v hv _
    exact h.stage v (List.mem_filter.mp hv).1
  · rintro ⟨v, hv, heq⟩
    exact absurd heq (of_decide_eq_true (List.mem_filter.mp hv).2)
  · intro v hne htick
    exact hne (hturn.1 v (by rw [htick]; rfl))
  · intro _ v hv
    obtain ⟨hv, hne⟩ := List.mem_filter.mp hv
    exact hin.late_of_last (hturn.2 hstage) v hv (of_decide_eq_true hne)

theorem Standing.advance (h : Standing s) (hin : InTime s)
    (hwork : ∀ v, workType v ≠ 0) (hturn : s.InTurn (.advance worker))
    (hstep : s.advance workType worker = some s') : Standing s' := by
  rw [WorkRace.advance] at hstep
  split at hstep
  · next hstage =>
    obtain rfl := Option.some.inj hstep
    apply h.goOn rfl (by simp [hstage])
    intro hfree
    simp [ProgressLock.checkTimeOut, hfree]
  · next hstage =>
    split at hstep
    · obtain rfl := Option.some.inj hstep
      exact h.decideTrue worker fun hfree => h.tests hfree worker hstage
    · obtain rfl := Option.some.inj hstep
      exact h.goOn rfl (by simp [hstage]) (by simp)
  · next hstage =>
    split at hstep
    · next hbusy =>
      obtain rfl := Option.some.inj hstep
      exact h.goOn (if_neg hbusy) (by simp [hstage]) (by simp)
    · next hfree =>
      obtain rfl := Option.some.inj hstep
      apply h.decideTrue worker
      rw [ProgressLock.compareExchange, if_pos (of_not_not hfree)]
      exact hwork worker
  · obtain rfl := Option.some.inj hstep
    exact h.storeTick worker
  · next hstage =>
    obtain rfl := Option.some.inj hstep
    exact h.endWork hin hturn hstage
  · cases hstep
  · cases hstep

theorem Standing.step (h : Standing s) (hin : InTime s)
    (hwork : ∀ v, workType v ≠ 0) {l : WorkStep ι} (hturn : s.InTurn l)
    (hstep : s.step workType l = some s') : Standing s' := by
  cases l with
  | advance worker => exact h.advance hin hwork hturn hstep
  | wait ms =>
      obtain rfl := Option.some.inj hstep
      refine ⟨h.stage, h.tests, ?_⟩
      intro hfree v hv
      exact Nat.le_add_right_of_le (h.late hfree v hv)

/-- Nobody takes over early where the calls of `Start` and `End` do not overlap,
a worker that was displaced leaves the lock alone, and no work type is 0. -/
theorem spaced_of_inTurn {inTimeOut : Int32} (hpos : 0 < inTimeOut) (clock : ℕ)
    (hwork : ∀ v, workType v ≠ 0) {steps : List (WorkStep ι)}
    (hturn : Along (step workType) InTurn (new inTimeOut clock) steps) :
    Throughout (step workType) Spaced (new inTimeOut clock) steps := by
  have hstanding : Standing (new inTimeOut clock : WorkRace ι) := by
    refine ⟨?_, fun _ v => by simp [new], ?_⟩
    · intro v hv
      cases hv
    · intro _ v hv
      cases hv
  have himp : ∀ s : WorkRace ι, InTime s ∧ Standing s → Spaced s :=
    fun s h => h.1.1
  refine throughout_of_along himp ?_ ⟨inTime_new hpos clock, hstanding⟩ hturn
  rintro s l s' ⟨hin, h⟩ hl hstep
  exact ⟨(hin.step hstep).1 (h.notEarly hl), h.step hin hwork hl hstep⟩

end WorkRace

end DokeviNet
