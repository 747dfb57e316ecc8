import DokeviNetwork.Progress.ProgressLock
import DokeviNetwork.Support.Run

/-!
# What a takeover leaves in the progress lock

A `Start` that takes over stores its tick and not its work type, and `End`
clears the work type whoever calls it.  So the lock names the worker that was
displaced, and is free once that worker ends, although the other is at work.
This module follows whole calls of any number of workers, each one step.
-/

namespace DokeviNet

open LabelledRun

/-- A call by a worker.  `GetTickCount` returns `tick` and then `tick'`. -/
inductive WorkCall (ι : Type*)
  | start (worker : ι) (inWorkType tick tick' : UInt32)
  | endWork (worker : ι)
  deriving DecidableEq

/-- A lock with the worker that was the last to start, and its work type, unless
it has ended, and the workers that started before and have not ended. -/
structure WorkHistory (ι : Type*) where
  lock : ProgressLock
  current : Option (ι × UInt32)
  displaced : List ι

namespace WorkHistory

variable {ι : Type*}

/-- A new lock. -/
def new (inTimeOut : Int32) : WorkHistory ι where
  lock := ProgressLock.init inTimeOut
  current := none
  displaced := []

/-- The worker has started and not ended. -/
def AtWork (h : WorkHistory ι) (worker : ι) : Prop :=
  h.current.map Prod.fst = some worker ∨ worker ∈ h.displaced

instance [DecidableEq ι] (h : WorkHistory ι) (worker : ι) :
    Decidable (h.AtWork worker) :=
  inferInstanceAs (Decidable (_ ∨ _))

/-- One call.  A worker with a work type other than 0 calls `Start`, and calls
`End` once after it has started. -/
def call [DecidableEq ι] (h : WorkHistory ι) :
    WorkCall ι → Option (WorkHistory ι)
  | .start worker inWorkType tick tick' =>
    if inWorkType ≠ 0 ∧ ¬h.AtWork worker then
      let result := h.lock.start inWorkType tick tick'
      if result.started then
        some
          { lock := result.lock
            current := some (worker, inWorkType)
            displaced := h.displaced ++ (h.current.map Prod.fst).toList }
      else some { h with lock := result.lock }
    else none
  | .endWork worker =>
    if h.current.map Prod.fst = some worker then
      some { h with lock := h.lock.endWork, current := none }
    else if worker ∈ h.displaced then
      some
        { h with
          lock := h.lock.endWork
          displaced := h.displaced.erase worker }
    else none

/-- The lock names the work type of the last worker to start, if that is still
at work. -/
def Named (h : WorkHistory ι) : Prop :=
  ∀ worker inWorkType, h.current = some (worker, inWorkType) →
    h.lock.curWork = inWorkType

/-- A `Start` that fails reports the work type of the last worker to start, and
`End` by a displaced worker does not make the lock free. -/
def Answers (h : WorkHistory ι) : WorkCall ι → Prop
  | .start _ inWorkType tick tick' =>
    (h.lock.start inWorkType tick tick').started = false →
      ∀ worker inWorkType', h.current = some (worker, inWorkType') →
        (h.lock.start inWorkType tick tick').inCurWorkType = inWorkType'
  | .endWork worker => worker ∈ h.displaced → h.lock.curWork ≠ 0 →
      h.lock.endWork.curWork ≠ 0

/-- A worker takes over only from one with its own work type, and a displaced
worker ends only after the last one to start. -/
def Orderly (h : WorkHistory ι) : WorkCall ι → Prop
  | .start _ inWorkType tick _ =>
    (h.lock.checkTimeOut && h.lock.isTimeOut tick) = true →
      inWorkType = h.lock.curWork
  | .endWork worker => worker ∈ h.displaced → h.current = none

instance [DecidableEq ι] (h : WorkHistory ι) :
    ∀ c, Decidable (h.Orderly c)
  | .start _ _ _ _ => inferInstanceAs (Decidable (_ → _))
  | .endWork _ => inferInstanceAs (Decidable (_ → _))

/-- What holds as long as the calls are orderly. -/
structure Passed (h : WorkHistory ι) : Prop where
  named : Named h
  free : h.current = none → h.lock.curWork = 0
  nonzero : ∀ worker inWorkType, h.current = some (worker, inWorkType) →
    inWorkType ≠ 0
  apart : ∀ worker, h.current.map Prod.fst = some worker →
    worker ∉ h.displaced

variable {h h' : WorkHistory ι} {worker : ι}

theorem Passed.answers (hp : Passed h) {c : WorkCall ι} (ho : h.Orderly c) :
    h.Answers c := by
  cases c with
  | start worker inWorkType tick tick' =>
      intro hfailed worker' inWorkType' hcurrent
      have hnamed := hp.named worker' inWorkType' hcurrent
      obtain ⟨-, -, hstart⟩ | ⟨-, -, hstart⟩ | ⟨-, hstart⟩ :=
        h.lock.start_cases inWorkType tick tick'
      · rw [hstart] at hfailed
        cases hfailed
      · rw [hstart]
        exact hnamed
      · rw [hstart] at hfailed
        cases hfailed
  | endWork worker =>
      intro hdisplaced hwork
      exact absurd (hp.free (ho hdisplaced)) hwork

/-- The last worker to start is at work under its work type. -/
theorem passed_started {lock : ProgressLock} {inWorkType : UInt32}
    {displaced : List ι} (hnonzero : inWorkType ≠ 0)
    (hnot : worker ∉ displaced) (hnamed : lock.curWork = inWorkType) :
    Passed { lock, current := some (worker, inWorkType), displaced } := by
  refine ⟨?_, ?_, ?_, ?_⟩
  · intro worker' inWorkType' hsome
    cases hsome
    exact hnamed
  · intro hnone
    cases hnone
  · intro worker' inWorkType' hsome
    cases hsome
    exact hnonzero
  · intro worker' hsome
    cases hsome
    exact hnot

theorem passed_new (inTimeOut : Int32) :
    Passed (new inTimeOut : WorkHistory ι) := by
  refine ⟨?_, fun _ => rfl, ?_, ?_⟩
  · intro worker inWorkType hsome
    cases hsome
  · intro worker inWorkType hsome
    cases hsome
  · intro worker hsome
    cases hsome

variable [DecidableEq ι]

/-- After a `Start` the lock names the last worker to start exactly if it did
not take over from one with another work type. -/
theorem Passed.start (hp : Passed h) {inWorkType tick tick' : UInt32}
    (hcall : h.call (.start worker inWorkType tick tick') = some h') :
    (h.Orderly (.start worker inWorkType tick tick') → Passed h') ∧
      (Named h' → h.Orderly (.start worker inWorkType tick tick')) := by
  obtain ⟨⟨hnonzero, hnot⟩, hcall⟩ := Option.ite_none_right_eq_some.mp hcall
  have hnew : worker ∉ h.displaced ++ (h.current.map Prod.fst).toList := by
    simpa [AtWork, and_comm] using hnot
  obtain ⟨-, htime, hstart⟩ | ⟨-, htime, hstart⟩ | ⟨hfree, hstart⟩ :=
    h.lock.start_cases inWorkType tick tick'
  · rw [hstart] at hcall
    obtain rfl := Option.some.inj hcall
    constructor
    · intro horderly
      exact passed_started hnonzero hnew (horderly htime).symm
    · intro hnamed _
      exact (hnamed worker inWorkType rfl).symm
  · rw [hstart] at hcall
    obtain rfl := Option.some.inj hcall
    exact ⟨fun _ => hp, fun _ htrue => absurd htrue (by simp [htime])⟩
  · rw [hstart] at hcall
    obtain rfl := Option.some.inj hcall
    have hnone : h.lock.checkTimeOut = false := by
      simp [ProgressLock.checkTimeOut, hfree]
    exact ⟨fun _ => passed_started hnonzero hnew rfl,
      fun _ htrue => absurd htrue (by simp [hnone])⟩

/-- After an `End` the lock names the last worker to start exactly if it was
not called by a displaced worker before that has ended. -/
theorem Passed.endWork (hp : Passed h)
    (hcall : h.call (.endWork worker) = some h') :
    (h.Orderly (.endWork worker) → Passed h') ∧
      (Named h' → h.Orderly (.endWork worker)) := by
  rw [call] at hcall
  split at hcall
  · next hcurrent =>
    obtain rfl := Option.some.inj hcall
    refine ⟨fun _ => ⟨?_, fun _ => rfl, ?_, ?_⟩, ?_⟩
    · intro worker inWorkType hsome
      cases hsome
    · intro worker inWorkType hsome
      cases hsome
    · intro worker hsome
      cases hsome
    · exact fun _ hdisplaced => absurd hdisplaced (hp.apart worker hcurrent)
  · obtain ⟨hdisplaced, hcall⟩ := Option.ite_none_right_eq_some.mp hcall
    obtain rfl := Option.some.inj hcall
    constructor
    · intro horderly
      have hnone := horderly hdisplaced
      refine ⟨?_, fun _ => rfl, hp.nonzero, ?_⟩
      · intro worker inWorkType hsome
        exact absurd (hnone.symm.trans hsome) (by simp)
      · intro worker' hcurrent hmem
        exact hp.apart worker' hcurrent (List.erase_subset hmem)
    · intro hnamed _
      by_contra hcurrent
      obtain ⟨⟨worker', inWorkType⟩, hsome⟩ :=
        Option.ne_none_iff_exists'.mp hcurrent
      exact hp.nonzero worker' inWorkType hsome
        (hnamed worker' inWorkType hsome).symm

theorem Passed.call (hp : Passed h) {c : WorkCall ι}
    (hcall : h.call c = some h') :
    (h.Orderly c → Passed h') ∧ (Named h' → h.Orderly c) := by
  cases c with
  | start worker inWorkType tick tick' => exact hp.start hcall
  | endWork worker => exact hp.endWork hcall

/-- The lock always names the last worker to start that is still at work, and
answers accordingly, in exactly the runs in which workers take over from ones
with their own work type only and no displaced worker ends before the last one
to start. -/
theorem named_iff_orderly (inTimeOut : Int32) {calls : List (WorkCall ι)}
    (hrun : (run call (new inTimeOut) calls).isSome) :
    (Throughout call Named (new inTimeOut) calls ∧
        Along call Answers (new inTimeOut) calls) ↔
      Along call Orderly (new inTimeOut) calls := by
  obtain ⟨t, hrun⟩ := Option.isSome_iff_exists.mp hrun
  have hinit : Passed (new inTimeOut : WorkHistory ι) := passed_new inTimeOut
  have hany : Along call (fun _ _ => True) (new inTimeOut) calls :=
    along_of_forall fun _ _ _ => trivial
  have hiff : Throughout call Named (new inTimeOut) calls ↔
      Along call Orderly (new inTimeOut) calls := by
    refine throughout_iff_along (fun (h : WorkHistory ι) (hp : Passed h) =>
      hp.named) ?_ ?_ hinit hany hrun
    · exact fun h c h' hp _ horderly hcall => (hp.call hcall).1 horderly
    · exact fun h c h' hp _ hcall hnamed => (hp.call hcall).2 hnamed
  rw [hiff]
  refine and_iff_left_of_imp fun horderly => ?_
  exact along_of_invariant
    (fun h c h' hp horderly hcall => (Passed.call hp hcall).1 horderly)
    (fun h c hp horderly => Passed.answers hp horderly) hinit horderly

/-- The second worker takes over at tick 100, and the first ends. -/
def displacedEnds : List (WorkCall Bool) :=
  [.start false 1 10 10, .start true 2 100 100, .endWork false]

/-- After the takeover the lock still names the work type 1, and after the `End`
of the first worker it is free. -/
theorem takeover_not_named :
    (∃ h, run call (new 50) (displacedEnds.take 2) = some h ∧
        h.current = some (true, 2) ∧ h.lock.curWork = 1) ∧
      (∃ h, run call (new 50) displacedEnds = some h ∧
        h.current = some (true, 2) ∧ h.lock.curWork = 0) ∧
      ¬Along call Answers (new 50) displacedEnds := by
  refine ⟨⟨_, rfl, rfl, rfl⟩, ⟨_, rfl, rfl, rfl⟩, ?_⟩
  exact fun h => ((h.2 _ rfl).2 _ rfl).1 (by decide) (by decide) rfl

/-- Two workers of one work type, of which the second takes over and ends
first. -/
theorem named_sameWorkType :
    Throughout call Named (new 50)
        [.start false 1 10 10, .start true 1 100 100, .endWork true,
          .endWork false] ∧
      Along call Answers (new 50)
        [.start false 1 10 10, .start true 1 100 100, .endWork true,
          .endWork false] :=
  (named_iff_orderly 50 (by decide)).mpr (by decide)

end WorkHistory

end DokeviNet
