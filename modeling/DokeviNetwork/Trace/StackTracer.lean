import DokeviNetwork.Support.Run
import DokeviNetwork.Support.Wrap
import Mathlib.Logic.Function.Basic

/-!
# The recorded call stack of a thread

Each thread has an array of frames and a depth.  `InStackTrace`, called when a
scope opens, refuses to go on at the last frame; `OutStackTrace`, called when it
closes, always counts down.  `LOG_CRITICAL` is taken to return.

The second half follows the nested scopes of one thread.  They stay in step with
the depth until a scope closes that found the array full.
-/

namespace DokeviNet

open LabelledRun WrappingCounter

/-- `MAX_CALL_STACK_DEPTH`. -/
def maxCallStackDepth : ℕ := 128

/-- `StackFrame`; `none` is a null pointer. -/
structure StackFrame where
  line : Int32
  file : Option String
  function : Option String
  deriving DecidableEq

/-- `gStackDepth` and `gStackFrames` of a thread.  An index is an `int`; those
outside the array stand for the memory around it. -/
structure CallStack where
  depth : UInt32
  frames : ℤ → StackFrame

/-- What `InStackTrace` does: the stack after it, the index it writes to, and
whether it reported that the stack is too deep. -/
structure InCall where
  stack : CallStack
  written : Option ℤ
  reported : Bool

namespace CallStack

/-- The stack of a new thread. -/
def new : CallStack where
  depth := 0
  frames := fun _ => { line := 0, file := none, function := none }

/-- `InStackTrace` on a registered thread. -/
def inStackTrace (s : CallStack) (frame : StackFrame) : InCall :=
  if s.depth.toNat = maxCallStackDepth - 1 then
    { stack := s, written := none, reported := true }
  else
    let depth := s.depth.toInt32.toInt
    { stack :=
        { depth := s.depth + 1
          frames := Function.update s.frames depth frame }
      written := some depth
      reported := false }

/-- `OutStackTrace`. -/
def outStackTrace (s : CallStack) : CallStack :=
  { s with depth := s.depth - 1 }

end CallStack

/-- An array with the images of a list, and that of one more behind them. -/
theorem update_concat {α β : Type*} (f : α → β) {memory : ℤ → β} {xs : List α}
    (x : α) {i : ℕ} (hold : ∀ hi : i < xs.length, memory i = f xs[i])
    (hi : i < (xs ++ [x]).length) :
    Function.update memory xs.length (f x) i = f (xs ++ [x])[i] := by
  rw [List.length_append, List.length_singleton] at hi
  rcases Nat.lt_or_eq_of_le (Nat.le_of_lt_succ hi) with hi | rfl
  · have hne : (i : ℤ) ≠ xs.length := by omega
    rw [Function.update_of_ne hne, List.getElem_append_left hi]
    exact hold hi
  · rw [Function.update_self, List.getElem_concat_length rfl]

/-- A scope that is open, with the depth before it was opened. -/
structure OpenScope where
  frame : StackFrame
  depth : UInt32
  deriving DecidableEq

/-- A thread's stack and its open scopes, outermost first. -/
structure ScopeTrace where
  stack : CallStack
  scopes : List OpenScope

/-- A scope with `RECORD_STACK` opens, or the innermost one closes. -/
inductive ScopeOp
  | enter (frame : StackFrame)
  | leave
  deriving DecidableEq

namespace ScopeTrace

/-- A new thread. -/
def new : ScopeTrace where
  stack := CallStack.new
  scopes := []

def step (s : ScopeTrace) : ScopeOp → Option ScopeTrace
  | .enter frame =>
    some
      { stack := (s.stack.inStackTrace frame).stack
        scopes := s.scopes ++ [{ frame, depth := s.stack.depth }] }
  | .leave =>
    if s.scopes.isEmpty then none
    else
      some
        { stack := s.stack.outStackTrace
          scopes := s.scopes.dropLast }

/-- The depth is an index of the array; while the scopes are no more than the
largest index, their frames lie below the depth, outermost first. -/
structure Recorded (s : ScopeTrace) : Prop where
  depth_lt : s.stack.depth.toNat < maxCallStackDepth
  frames : s.scopes.length < maxCallStackDepth →
    s.stack.depth.toNat = s.scopes.length ∧
      ∀ i (hi : i < s.scopes.length), s.stack.frames i = s.scopes[i].frame

/-- A scope that opens writes inside the array, and one that closes leaves the
depth as it was before that scope opened. -/
def Balanced (s : ScopeTrace) : ScopeOp → Prop
  | .enter frame => ∀ i ∈ (s.stack.inStackTrace frame).written,
      0 ≤ i ∧ i < maxCallStackDepth
  | .leave => ∀ scope ∈ s.scopes.getLast?,
      s.stack.outStackTrace.depth = scope.depth

/-- No scope closes while there are as many as the array has frames. -/
def Shallow (s : ScopeTrace) : ScopeOp → Prop
  | .enter _ => True
  | .leave => s.scopes.length < maxCallStackDepth

instance (s : ScopeTrace) : ∀ op, Decidable (s.Shallow op)
  | .enter _ => isTrue trivial
  | .leave => inferInstanceAs (Decidable (_ < _))

/-- What holds as long as no scope closes that found the array full. -/
structure Traced (s : ScopeTrace) : Prop where
  depth : s.stack.depth.toNat =
    min s.scopes.length (maxCallStackDepth - 1)
  frames : ∀ i (hi : i < s.scopes.length), i < maxCallStackDepth - 1 →
    s.stack.frames i = s.scopes[i].frame
  saved : ∀ i (hi : i < s.scopes.length),
    s.scopes[i].depth.toNat = min i (maxCallStackDepth - 1)

variable {s s' : ScopeTrace} {frame : StackFrame}

theorem Traced.recorded (h : Traced s) : Recorded s := by
  have hdepth := h.depth
  refine ⟨?_, fun hlt => ⟨?_, fun i hi => h.frames i hi ?_⟩⟩
  all_goals
    rw [maxCallStackDepth] at *
    omega

theorem traced_new : Traced new := by
  refine ⟨rfl, ?_, ?_⟩
  · intro i hi
    exact absurd hi (Nat.not_lt_zero i)
  · intro i hi
    exact absurd hi (Nat.not_lt_zero i)

/-- With less than the largest index of scopes, the next frame is the one at
the depth. -/
theorem Traced.inStackTrace (h : Traced s)
    (hlt : s.scopes.length < maxCallStackDepth - 1) (frame : StackFrame) :
    s.stack.inStackTrace frame =
      { stack :=
          { depth := s.stack.depth + 1
            frames :=
              Function.update s.stack.frames s.scopes.length frame }
        written := some s.scopes.length
        reported := false } := by
  have hdepth : s.stack.depth.toNat = s.scopes.length := by
    rw [h.depth]
    exact Nat.min_eq_left hlt.le
  have hindex : s.stack.depth.toInt32.toInt = s.scopes.length := by
    rw [← hdepth]
    apply (toInt_toInt32_iff _).mpr
    rw [maxCallStackDepth] at hlt
    omega
  rw [CallStack.inStackTrace, if_neg (by omega), hindex]

theorem Traced.inStackTrace_full (h : Traced s)
    (hle : maxCallStackDepth - 1 ≤ s.scopes.length) (frame : StackFrame) :
    s.stack.inStackTrace frame =
      { stack := s.stack, written := none, reported := true } := by
  have hdepth := h.depth
  rw [Nat.min_eq_right hle] at hdepth
  rw [CallStack.inStackTrace, if_pos hdepth]

theorem Traced.balanced_enter (h : Traced s) (frame : StackFrame) :
    s.Balanced (.enter frame) := by
  intro i hi
  rcases Nat.lt_or_ge s.scopes.length (maxCallStackDepth - 1) with hlt | hge
  · rw [h.inStackTrace hlt] at hi
    obtain rfl := Option.some.inj hi
    rw [maxCallStackDepth] at *
    omega
  · rw [h.inStackTrace_full hge] at hi
    cases hi

/-- The depths before the scopes opened, and before the new one does. -/
theorem Traced.saved_enter (h : Traced s) (frame : StackFrame) :
    ∀ i (hi : i < (s.scopes ++
        [{ frame, depth := s.stack.depth : OpenScope }]).length),
      (s.scopes ++ [{ frame, depth := s.stack.depth }])[i].depth.toNat =
        min i (maxCallStackDepth - 1) := by
  intro i hi
  rw [List.length_append, List.length_singleton] at hi
  rcases Nat.lt_or_eq_of_le (Nat.le_of_lt_succ hi) with hi | rfl
  · rw [List.getElem_append_left hi]
    exact h.saved i hi
  · rw [List.getElem_append_right (Nat.le_refl _)]
    simpa using h.depth

theorem Traced.enter (h : Traced s)
    (hstep : s.step (.enter frame) = some s') : Traced s' := by
  obtain rfl := Option.some.inj hstep
  have hdepth := h.depth
  rcases Nat.lt_or_ge s.scopes.length (maxCallStackDepth - 1) with hlt | hge
  · rw [h.inStackTrace hlt]
    refine ⟨?_, ?_, h.saved_enter frame⟩
    · rw [List.length_append, List.length_singleton]
      change (s.stack.depth + 1).toNat = _
      rw [maxCallStackDepth] at *
      rw [toNat_add_one_of_lt (by omega), hdepth]
      omega
    · intro i hi _
      change Function.update s.stack.frames _ frame i = _
      refine update_concat OpenScope.frame _ (fun hi => ?_) hi
      exact h.frames i hi (hi.trans hlt)
  · rw [h.inStackTrace_full hge]
    refine ⟨?_, ?_, h.saved_enter frame⟩
    · rw [List.length_append, List.length_singleton]
      change s.stack.depth.toNat = _
      omega
    · intro i _ hlt
      have hi : i < s.scopes.length := by omega
      rw [List.getElem_append_left hi]
      exact h.frames i hi hlt

theorem step_leave (hstep : s.step .leave = some s') :
    s.scopes ≠ [] ∧
      s' = { stack := s.stack.outStackTrace, scopes := s.scopes.dropLast } := by
  obtain ⟨hopen, hstep⟩ := Option.ite_none_left_eq_some.mp hstep
  exact ⟨by simpa using hopen, (Option.some.inj hstep).symm⟩

/-- Counting down from a depth that is not 0. -/
theorem Traced.toNat_out (h : Traced s) (hopen : s.scopes ≠ []) :
    s.stack.outStackTrace.depth.toNat =
      min s.scopes.length (maxCallStackDepth - 1) - 1 := by
  have hpos := List.length_pos_iff.mpr hopen
  have hdepth := h.depth
  have hdeep : 0 < s.stack.depth.toNat := by
    rw [hdepth, maxCallStackDepth]
    omega
  change (s.stack.depth - 1).toNat = _
  rw [toNat_sub_one hdeep, hdepth]

theorem Traced.leave (h : Traced s) (hshallow : s.Shallow .leave)
    (hstep : s.step .leave = some s') : Traced s' := by
  obtain ⟨hopen, rfl⟩ := step_leave hstep
  have hlt : s.scopes.length < maxCallStackDepth := hshallow
  have hout := h.toNat_out hopen
  refine ⟨?_, ?_, ?_⟩
  · rw [hout, List.length_dropLast]
    omega
  · intro i hi hlt
    rw [List.getElem_dropLast]
    exact h.frames i _ hlt
  · intro i hi
    rw [List.getElem_dropLast]
    exact h.saved i _

/-- The depth is restored exactly if the array was not full when the scope
opened. -/
theorem Traced.balanced_leave_iff (h : Traced s) :
    s.Balanced .leave ↔ s.Shallow .leave := by
  by_cases hopen : s.scopes = []
  · refine iff_of_true ?_ ?_
    · intro scope hlast
      rw [hopen] at hlast
      cases hlast
    · change s.scopes.length < maxCallStackDepth
      rw [hopen]
      decide
  · have hpos := List.length_pos_iff.mpr hopen
    have hout := h.toNat_out hopen
    have hlast : (s.scopes.getLast hopen).depth.toNat =
        min (s.scopes.length - 1) (maxCallStackDepth - 1) := by
      rw [List.getLast_eq_getElem]
      exact h.saved _ _
    have hget : s.Balanced .leave ↔
        s.stack.outStackTrace.depth = (s.scopes.getLast hopen).depth := by
      rw [Balanced, List.getLast?_eq_some_getLast hopen]
      simp
    rw [hget, ← UInt32.toNat_inj, hout, hlast, Shallow, maxCallStackDepth]
    omega

/-! ## Runs -/

theorem Traced.balanced_iff (h : Traced s) (op : ScopeOp) :
    s.Balanced op ↔ s.Shallow op := by
  cases op with
  | enter frame => exact iff_of_true (h.balanced_enter frame) trivial
  | leave => exact h.balanced_leave_iff

theorem Traced.step (h : Traced s) {op : ScopeOp} (hshallow : s.Shallow op)
    (hstep : s.step op = some s') : Traced s' := by
  cases op with
  | enter frame => exact h.enter hstep
  | leave => exact h.leave hshallow hstep

/-- Every scope that closes leaves the depth as it was before, every write is
inside the array and the depth below its size, and the frames are those of the
open scopes, in exactly the runs in which no scope closes while there are as
many as the array has frames. -/
theorem recorded_iff_shallow (ops : List ScopeOp) :
    (Throughout step Recorded new ops ∧ Along step Balanced new ops) ↔
      Along step Shallow new ops := by
  have hkeep : ∀ s op s', Traced s → s.Shallow op → s.step op = some s' →
      Traced s' := fun _ _ _ h => h.step
  rw [along_congr hkeep (fun s op h => h.balanced_iff op) traced_new]
  refine and_iff_right_of_imp fun hshallow => ?_
  exact throughout_of_along (fun _ h => Traced.recorded h) hkeep traced_new
    hshallow

/-- Scopes that open, one in the other. -/
theorem run_enter (frame : StackFrame) (n : ℕ) :
    ∃ s, run step new (List.replicate n (.enter frame)) = some s ∧ Traced s ∧
      s.scopes.length = n := by
  induction n with
  | zero => exact ⟨new, rfl, traced_new, rfl⟩
  | succ n ih =>
      obtain ⟨s, hrun, h, hlength⟩ := ih
      have hstep : s.step (.enter frame) = some _ := rfl
      refine ⟨_, ?_, h.enter hstep, ?_⟩
      · rw [List.replicate_succ', run_append, hrun]
        exact congrArg (Option.bind · some) hstep
      · rw [List.length_append, hlength]
        rfl

/-- Scopes that close count down, whatever the depth. -/
theorem run_leave {s : ScopeTrace} {n : ℕ} (hle : n ≤ s.scopes.length) :
    ∃ s', run step s (List.replicate n .leave) = some s' ∧
      (s'.stack.depth.toNat + n) % 2 ^ 32 = s.stack.depth.toNat ∧
      s'.scopes.length = s.scopes.length - n := by
  induction n generalizing s with
  | zero => exact ⟨s, rfl, Nat.mod_eq_of_lt s.stack.depth.toNat_lt, rfl⟩
  | succ n ih =>
      have hopen : s.scopes.isEmpty = false := by
        rw [List.isEmpty_eq_false_iff, ← List.length_pos_iff]
        omega
      have hstep : s.step .leave = some
          { stack := s.stack.outStackTrace, scopes := s.scopes.dropLast } := by
        rw [ScopeTrace.step, hopen]
        rfl
      obtain ⟨s', hrun, hdepth, hlength⟩ :=
        @ih { stack := s.stack.outStackTrace, scopes := s.scopes.dropLast }
          (by rw [List.length_dropLast]; omega)
      refine ⟨s', ?_, ?_, ?_⟩
      · rw [List.replicate_succ, run_cons, hstep, Option.bind_some, hrun]
      · have hlt := s.stack.depth.toNat_lt
        change _ = (s.stack.depth - 1).toNat at hdepth
        rw [UInt32.toNat_sub, UInt32.toNat_one] at hdepth
        omega
      · rw [hlength, List.length_dropLast]
        omega

/-- As many scopes open as the array has frames, and close again. -/
def fullArray : List ScopeOp :=
  List.replicate 128 (.enter { line := 1, file := none, function := none }) ++
    List.replicate 128 .leave

/-- The depth of a thread without open scopes has wrapped. -/
theorem depth_wrapped :
    ∃ s, run step new fullArray = some s ∧ s.scopes = [] ∧
      s.stack.depth.toNat = 2 ^ 32 - 1 ∧ ¬Recorded s := by
  obtain ⟨s, hrun, h, hlength⟩ :=
    run_enter { line := 1, file := none, function := none } 128
  obtain ⟨s', hrun', hdepth, hlength'⟩ := run_leave (Nat.le_of_eq hlength.symm)
  have hfull := h.depth
  rw [hlength, maxCallStackDepth] at hfull
  have hwrapped : s'.stack.depth.toNat = 2 ^ 32 - 1 := by
    have hlt := s'.stack.depth.toNat_lt
    omega
  refine ⟨s', ?_, ?_, hwrapped, fun hr => ?_⟩
  · rw [fullArray, run_append, hrun]
    exact hrun'
  · rw [hlength, Nat.sub_self, List.length_eq_zero_iff] at hlength'
    exact hlength'
  · have hlt := hr.depth_lt
    rw [hwrapped, maxCallStackDepth] at hlt
    omega

end ScopeTrace

end DokeviNet
