import DokeviNetwork.Trace.StackTracer
import Mathlib.Tactic.Common

/-!
# The call stacks of a crash report

A thread that opens its first scope registers: it gets a number, under which the
tracer keeps pointers to its frames and its depth.  `GetStackFrameArray` goes
through the registered threads and copies the frames from 0 up to the depth, and
so one more than are live; and it leaves a thread out by the depth of the thread
that asks.  So the report is right only when there is nothing to report.
-/

namespace DokeviNet

open LabelledRun WrappingCounter

/-- `MAX_STACK_CHECK_THREAD_NUM`. -/
def maxStackCheckThreadNum : ℕ := 1024

/-- The tracer and the threads: `_lastThreadId`, `_threadNumbers`, the thread to
whose frames and depth the pointers with a number point, the threads with
`gRegisteredStackFrame`, and their stacks.  The map goes through its entries in
the order of thread ids; nothing here depends on that. -/
structure StackTracer (τ : Type*) where
  lastThreadId : ℕ
  threadNumbers : List (τ × ℕ)
  records : ℕ → Option τ
  registered : τ → Bool
  threads : τ → ScopeTrace

/-- An operation of a thread on its scopes. -/
structure ThreadOp (τ : Type*) where
  thread : τ
  op : ScopeOp
  deriving DecidableEq

namespace StackTracer

variable {τ : Type*}

/-- A new tracer, and any number of threads without scopes. -/
def new : StackTracer τ where
  lastThreadId := 0
  threadNumbers := []
  records := fun _ => none
  registered := fun _ => false
  threads := fun _ => ScopeTrace.new

section

variable [DecidableEq τ]

/-- `RegisterThread`; `none` where it would write behind the arrays. -/
def registerThread (s : StackTracer τ) (t : τ) : Option (StackTracer τ) :=
  let lastThreadId := s.lastThreadId + 1
  if lastThreadId < maxStackCheckThreadNum then
    some
      { s with
        lastThreadId := lastThreadId
        threadNumbers := s.threadNumbers ++ [(t, lastThreadId)]
        records := Function.update s.records lastThreadId (some t)
        registered := Function.update s.registered t true }
  else none

/-- The first part of `InStackTrace`. -/
def ensureRegistered (s : StackTracer τ) (t : τ) : Option (StackTracer τ) :=
  if s.registered t then some s else s.registerThread t

/-- The scope of a thread opens or closes. -/
def onThread (s : StackTracer τ) (l : ThreadOp τ) : Option (StackTracer τ) :=
  ((s.threads l.thread).step l.op).map fun thread =>
    { s with threads := Function.update s.threads l.thread thread }

def step (s : StackTracer τ) (l : ThreadOp τ) : Option (StackTracer τ) :=
  match l.op with
  | .enter _ => (s.ensureRegistered l.thread).bind fun s => s.onThread l
  | .leave => s.onThread l

end

/-- The threads in `_threadNumbers`. -/
def threadIds (s : StackTracer τ) : List τ := s.threadNumbers.map Prod.fst

/-- The frames that `GetStackFrameArray` copies from a stack. -/
def copiedFrames (stack : CallStack) : List StackFrame :=
  let depth := stack.depth.toInt32.toInt
  (List.range (depth + 1).toNat).map fun i : ℕ => stack.frames i

/-- `GetStackFrameArray`, called by the thread `caller`; `none` where it would
follow a null pointer. -/
def getStackFrameArray (s : StackTracer τ) (caller : τ) :
    Option (List (List StackFrame)) :=
  (s.threadNumbers.mapM fun entry => s.records entry.2).map fun ts =>
    ts.flatMap fun t =>
      if (s.threads caller).stack.depth ≠ 0 then
        [copiedFrames (s.threads t).stack]
      else []

/-- The frames of the open scopes of a thread, outermost first. -/
def liveFrames (s : StackTracer τ) (t : τ) : List StackFrame :=
  (s.threads t).scopes.map OpenScope.frame

/-- The report has the live frames of each registered thread whose depth is not
0, and no other list. -/
def Reports (s : StackTracer τ) (caller : τ) : Prop :=
  ∃ report, s.getStackFrameArray caller = some report ∧
    report.Perm
      ((s.threadIds.filter fun t =>
          decide ((s.threads t).stack.depth ≠ 0)).map s.liveFrames)

/-- A thread opens a scope only while it has room for one more frame. -/
def WithinLimit (s : StackTracer τ) (l : ThreadOp τ) : Prop :=
  l.op ≠ .leave → (s.threads l.thread).scopes.length < maxCallStackDepth - 1

/-- What holds in every run within the limit. -/
structure Tracked (s : StackTracer τ) : Prop where
  numbers : ∀ entry ∈ s.threadNumbers, entry.2 ≤ s.lastThreadId
  records : ∀ entry ∈ s.threadNumbers, s.records entry.2 = some entry.1
  traced : ∀ t, (s.threads t).Traced
  shallow : ∀ t, (s.threads t).scopes.length < maxCallStackDepth

variable {s s' : StackTracer τ} {t caller : τ}

theorem Tracked.depth (h : Tracked s) (t : τ) :
    (s.threads t).stack.depth.toNat = (s.threads t).scopes.length :=
  ((h.traced t).recorded.frames (h.shallow t)).1

/-- `GetStackFrameArray` copies one frame more than are live. -/
theorem Tracked.copiedFrames (h : Tracked s) (t : τ) :
    copiedFrames (s.threads t).stack =
      s.liveFrames t ++
        [(s.threads t).stack.frames (s.threads t).scopes.length] := by
  have hframes := ((h.traced t).recorded.frames (h.shallow t)).2
  have hlt := h.shallow t
  have hdepth := h.depth t
  have hindex : (s.threads t).stack.depth.toInt32.toInt =
      (s.threads t).scopes.length := by
    rw [← hdepth]
    apply (toInt_toInt32_iff _).mpr
    rw [maxCallStackDepth] at hlt
    omega
  have hlive : (List.range (s.threads t).scopes.length).map
      (fun i : ℕ => (s.threads t).stack.frames i) = s.liveFrames t := by
    apply List.ext_getElem
    · simp [liveFrames]
    · intro i hi _
      have hi : i < (s.threads t).scopes.length := by simpa using hi
      simp [liveFrames, hframes i hi]
  rw [StackTracer.copiedFrames, hindex]
  change (List.range ((s.threads t).scopes.length + 1)).map _ = _
  rw [List.range_succ, List.map_append, hlive]
  rfl

theorem Tracked.mapM_records (h : Tracked s) :
    (s.threadNumbers.mapM fun entry => s.records entry.2) =
      some s.threadIds := by
  have hall : ∀ entries : List (τ × ℕ),
      (∀ entry ∈ entries, entry ∈ s.threadNumbers) →
      entries.mapM (fun entry => s.records entry.2) =
        some (entries.map Prod.fst) := by
    intro entries hentries
    induction entries with
    | nil => rfl
    | cons entry entries ih =>
        have hrest := ih fun e he => hentries e (List.mem_cons_of_mem _ he)
        rw [List.mapM_cons, h.records entry (hentries entry (by simp)), hrest]
        rfl
  exact hall s.threadNumbers fun _ hentry => hentry

theorem Tracked.getStackFrameArray (h : Tracked s) (caller : τ) :
    s.getStackFrameArray caller = some
      (if (s.threads caller).stack.depth ≠ 0 then
        s.threadIds.map fun t => StackTracer.copiedFrames (s.threads t).stack
      else []) := by
  rw [StackTracer.getStackFrameArray, h.mapM_records, Option.map_some]
  split
  · rw [List.map_eq_flatMap]
  · rw [List.flatMap_eq_nil_iff.mpr fun _ _ => rfl]

/-- The copied lists have one frame more for each thread than the live ones. -/
theorem Tracked.length_copied (h : Tracked s) (ts : List τ) :
    (ts.map fun t =>
        StackTracer.copiedFrames (s.threads t).stack).flatten.length =
      ((ts.filter fun t =>
          decide ((s.threads t).stack.depth ≠ 0)).map
        s.liveFrames).flatten.length + ts.length := by
  induction ts with
  | nil => rfl
  | cons t ts ih =>
      have hdepth := h.depth t
      rw [List.map_cons, List.flatten_cons, List.length_append, ih,
        h.copiedFrames t, List.filter_cons]
      split
      · simp
        omega
      · next hzero =>
        have hzero : (s.threads t).stack.depth = 0 := by simpa using hzero
        rw [hzero] at hdepth
        have hnil : s.liveFrames t = [] := by
          rw [liveFrames, List.map_eq_nil_iff]
          exact List.length_eq_zero_iff.mp hdepth.symm
        simp [hnil]
        omega

/-- The report is right exactly when no registered thread has a scope open. -/
theorem Tracked.reports_iff (h : Tracked s) (hcaller : caller ∈ s.threadIds) :
    s.Reports caller ↔
      ∀ t ∈ s.threadIds, (s.threads t).stack.depth = 0 := by
  rw [Reports, h.getStackFrameArray]
  constructor
  · rintro ⟨report, hreport, hperm⟩
    obtain rfl := Option.some.inj hreport
    split at hperm
    · -- one frame too many for each thread, and there is one
      have hlength := hperm.flatten.length_eq
      rw [h.length_copied] at hlength
      have hpos := List.length_pos_of_mem hcaller
      omega
    · have hnil := hperm.nil_eq
      rw [eq_comm, List.map_eq_nil_iff, List.filter_eq_nil_iff] at hnil
      simpa using hnil
  · intro hall
    refine ⟨_, rfl, ?_⟩
    rw [if_neg (by simpa using hall caller hcaller),
      List.filter_eq_nil_iff.mpr (by simpa using hall)]
    exact List.Perm.nil

/-! ## Runs -/

theorem tracked_new : Tracked (new : StackTracer τ) where
  numbers := fun _ hentry => absurd hentry List.not_mem_nil
  records := fun _ hentry => absurd hentry List.not_mem_nil
  traced := fun _ => ScopeTrace.traced_new
  shallow := fun _ => Nat.zero_lt_succ _

variable {l : ThreadOp τ}

instance (s : StackTracer τ) (l : ThreadOp τ) : Decidable (s.WithinLimit l) :=
  inferInstanceAs (Decidable (_ → _))

/-- Within the limit a thread's stack stays right and below the limit. -/
theorem Tracked.step_thread (h : Tracked s) (hlimit : s.WithinLimit l)
    {thread : ScopeTrace}
    (hstep : (s.threads l.thread).step l.op = some thread) :
    thread.Traced ∧ thread.scopes.length < maxCallStackDepth := by
  have hshallow := h.shallow l.thread
  rcases l with ⟨t, frame | _⟩
  · obtain rfl := Option.some.inj hstep
    refine ⟨(h.traced t).enter hstep, ?_⟩
    rw [List.length_append, List.length_singleton]
    exact Nat.add_lt_of_lt_sub (hlimit nofun)
  · refine ⟨(h.traced t).leave hshallow hstep, ?_⟩
    obtain ⟨-, rfl⟩ := ScopeTrace.step_leave hstep
    rw [List.length_dropLast]
    exact (Nat.sub_le _ _).trans_lt hshallow

variable [DecidableEq τ]

/-- A new number is larger than the others, so their pointers stay. -/
theorem Tracked.registerThread (h : Tracked s)
    (hregister : s.registerThread t = some s') :
    Tracked s' ∧ s'.threads = s.threads := by
  obtain ⟨-, hregister⟩ := Option.ite_none_right_eq_some.mp hregister
  obtain rfl := Option.some.inj hregister
  refine ⟨⟨?_, ?_, h.traced, h.shallow⟩, rfl⟩
  · intro entry hentry
    rcases List.mem_append.mp hentry with hold | hnew
    · exact (h.numbers entry hold).trans (Nat.le_succ _)
    · rw [List.mem_singleton.mp hnew]
  · intro entry hentry
    change Function.update s.records (s.lastThreadId + 1) (some t) entry.2 = _
    rcases List.mem_append.mp hentry with hold | hnew
    · have hne : entry.2 ≠ s.lastThreadId + 1 :=
        (Nat.lt_succ_of_le (h.numbers entry hold)).ne
      rw [Function.update_of_ne hne]
      exact h.records entry hold
    · rw [List.mem_singleton.mp hnew, Function.update_self]

theorem Tracked.ensureRegistered (h : Tracked s)
    (hensure : s.ensureRegistered t = some s') :
    Tracked s' ∧ s'.threads = s.threads := by
  rw [StackTracer.ensureRegistered] at hensure
  split at hensure
  · obtain rfl := Option.some.inj hensure
    exact ⟨h, rfl⟩
  · exact h.registerThread hensure

theorem Tracked.onThread (h : Tracked s) (hlimit : s.WithinLimit l)
    (hstep : s.onThread l = some s') : Tracked s' := by
  obtain ⟨thread, hthread, rfl⟩ := Option.map_eq_some_iff.mp hstep
  obtain ⟨htraced, hshallow⟩ := h.step_thread hlimit hthread
  refine ⟨h.numbers, h.records, ?_, ?_⟩
  · exact (Function.forall_update_iff s.threads
      fun _ => ScopeTrace.Traced).mpr ⟨htraced, fun t _ => h.traced t⟩
  · exact (Function.forall_update_iff s.threads fun _ thread =>
      thread.scopes.length < maxCallStackDepth).mpr
        ⟨hshallow, fun t _ => h.shallow t⟩

theorem Tracked.step (h : Tracked s) (hlimit : s.WithinLimit l)
    (hstep : s.step l = some s') : Tracked s' := by
  rcases l with ⟨t, frame | _⟩
  · obtain ⟨s₁, hensure, hstep⟩ := Option.bind_eq_some_iff.mp hstep
    obtain ⟨h₁, hthreads⟩ := h.ensureRegistered hensure
    refine h₁.onThread ?_ hstep
    rw [WithinLimit, hthreads]
    exact hlimit
  · exact h.onThread hlimit hstep

/-- After any history within the limit, the report that a registered thread
asks for has exactly the live frames if and only if no registered thread has
any. -/
theorem reports_iff_depth_eq_zero {ls : List (ThreadOp τ)}
    (hrun : run step new ls = some s) (hlimit : Along step WithinLimit new ls)
    (hcaller : caller ∈ s.threadIds) :
    s.Reports caller ↔
      ∀ t ∈ s.threadIds, (s.threads t).stack.depth = 0 := by
  have hkeep : ∀ (s : StackTracer τ) l s', Tracked s → s.WithinLimit l →
      s.step l = some s' → Tracked s' := fun _ _ _ h => h.step
  have h := invariant_of_along hkeep tracked_new hlimit hrun
  exact h.reports_iff hcaller

/-- A frame as `RECORD_STACK` makes it. -/
def mainFrame : StackFrame where
  line := 12
  file := some "Main.cpp"
  function := some "main"

/-- A thread opens a scope. -/
def scopeOpened : List (ThreadOp ℕ) := [⟨1, .enter mainFrame⟩]

/-- A thread opens a scope and closes it. -/
def scopeClosed : List (ThreadOp ℕ) := scopeOpened ++ [⟨1, .leave⟩]

/-- A thread with one open scope asks for the report: behind its frame comes one
that was never written. -/
theorem empty_frame_reported :
    ∃ s, run step new scopeOpened = some s ∧
      Along step WithinLimit new scopeOpened ∧ s.threadIds = [1] ∧
      s.liveFrames 1 = [mainFrame] ∧
      s.getStackFrameArray 1 =
        some [[mainFrame, { line := 0, file := none, function := none }]] ∧
      ¬s.Reports 1 := by
  refine ⟨_, rfl, by decide, rfl, rfl, rfl, ?_⟩
  rintro ⟨report, hreport, hperm⟩
  obtain rfl := Option.some.inj hreport
  exact absurd hperm.flatten.length_eq (by decide)

/-- A thread that has closed its scope asks for the report, which is empty. -/
theorem reports_scopeClosed :
    ∃ s, run step new scopeClosed = some s ∧ s.Reports 1 := by
  have hrun : run step new scopeClosed = some _ := rfl
  exact ⟨_, hrun, (reports_iff_depth_eq_zero hrun (by decide) (by decide)).mpr
    (by decide)⟩

end StackTracer

end DokeviNet
