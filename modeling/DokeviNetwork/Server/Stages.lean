import DokeviNetwork.Server.Views

/-!
# The stages of the two connection handlers

`ConnectHanadler` and `DisconnectHandler` go through fixed stages.  What has
entered a stage has left it or is what some thread is doing now.
-/

namespace DokeviNet

open LabelledRun Workers

/-- A stage of `ConnectHanadler` or of `DisconnectHandler`. -/
inductive Stage
  | connect
  | arm
  | greet
  | greeting
  | count
  | close
  | rearm
  | dismiss
  | dismissing
  | uncount

namespace SocketEvent

/-- The completion of an `AcceptEx` is taken. -/
def takesAccept : SocketEvent → Bool
  | .taken c => c.isAccept
  | _ => false

/-- `ConnectHanadler` is called. -/
def accepts : SocketEvent → Bool
  | .taken c => c.accepts
  | _ => false

/-- `DisconnectHandler` is called. -/
def closes : SocketEvent → Bool
  | .taken c => c.closes
  | _ => false

end SocketEvent

namespace Stage

/-- The event with which a stage is entered. -/
def entered : Stage → SocketEvent → Bool
  | .connect => SocketEvent.accepts
  | .arm => (· == .associated)
  | .greet => (· == .armed)
  | .greeting => (· == .connectedBegins)
  | .count => (· == .connectedReturns)
  | .close => SocketEvent.closes
  | .rearm => (· == .closed)
  | .dismiss => (· == .rearmed)
  | .dismissing => (· == .disconnectedBegins)
  | .uncount => (· == .disconnectedReturns)

/-- The events with which a stage is left. -/
def left : Stage → SocketEvent → Bool
  | .connect => fun e => e == .associated || e == .refused
  | .arm => (· == .armed)
  | .greet => (· == .connectedBegins)
  | .greeting => (· == .connectedReturns)
  | .count => (· == .counted)
  | .close => (· == .closed)
  | .rearm => (· == .rearmed)
  | .dismiss => (· == .disconnectedBegins)
  | .dismissing => (· == .disconnectedReturns)
  | .uncount => (· == .uncounted)

/-- The task of a thread that is in a stage. -/
def busy : Stage → Task → Bool
  | .connect, .connect => true
  | .arm, .arm => true
  | .greet, .greet => true
  | .greeting, .greeting => true
  | .count, .count => true
  | .close, .close _ => true
  | .rearm, .rearm => true
  | .dismiss, .dismiss => true
  | .dismissing, .dismissing => true
  | .uncount, .uncount => true
  | _, _ => false

end Stage

namespace TCPSocket

/-- Everything that entered a stage has left it or is in it. -/
def Balanced (k : TCPSocket) (tasks : Multiset Task) : Prop :=
  ∀ stage : Stage, k.log.countP stage.entered =
    k.log.countP stage.left +
      tasks.countP fun task => stage.busy task = true

theorem balanced_ready (inPort : ℕ) (accepted : Bool)
    (memory : Region UInt8) : Balanced (ready inPort accepted memory) 0 := by
  intro stage
  cases accepted <;> cases stage <;> rfl

/-- A thread that takes a completion is in the stage entered with it. -/
theorem any_busy_dispatch (c : Completion) (stage : Stage) :
    c.dispatch.any stage.busy = stage.entered (.taken c) := by
  have haccepts : c.accepts = c.dispatch.any Stage.connect.busy := by
    unfold Completion.accepts Completion.isAccept Completion.dispatch
    split
    · split <;> simp [*, Stage.busy]
    · split
      · simp [*, Stage.busy]
      · split <;> simp [*, Stage.busy]
      · simp [*, Stage.busy]
  have hcloses : c.closes = c.dispatch.any Stage.close.busy := by
    unfold Completion.closes
    cases c.dispatch with
    | none => rfl
    | some task => cases task <;> rfl
  have hothers : ∀ task, c.dispatch = some task →
      task = .connect ∨ (∃ inSize, task = .copy inSize) ∨ task = .written ∨
        ∃ inGracefulClose, task = .close inGracefulClose := by
    intro task htask
    unfold Completion.dispatch at htask
    split at htask
    · split at htask
      · obtain rfl := Option.some.inj htask
        simp
      · cases htask
    · split at htask
      · obtain rfl := Option.some.inj htask
        simp
      · split at htask <;> obtain rfl := Option.some.inj htask <;> simp
      · obtain rfl := Option.some.inj htask
        simp
  cases stage with
  | connect => exact haccepts.symm
  | close => exact hcloses.symm
  | _ =>
      cases hdispatch : c.dispatch with
      | none => rfl
      | some task =>
          rcases hothers task hdispatch with
            rfl | ⟨_, rfl⟩ | rfl | ⟨_, rfl⟩ <;> rfl

/-- A step that is noted as `e`. -/
theorem Balanced.noted {k k' : TCPSocket} {e : SocketEvent}
    {task next : Option Task} {rest : Multiset Task}
    (h : Balanced k (ofOption task + rest)) (hlog : k'.log = k.log ++ [e])
    (hstage : ∀ stage : Stage,
      (if stage.entered e then 1 else 0) +
          (if task.any stage.busy then 1 else 0) =
        (if stage.left e then 1 else 0) +
          if next.any stage.busy then 1 else 0) :
    Balanced k' (ofOption next + rest) := by
  intro stage
  have hbefore := h stage
  have hchange := hstage stage
  rw [Multiset.countP_add, countP_ofOption] at hbefore ⊢
  rw [hlog, List.countP_append, List.countP_append, List.countP_singleton,
    List.countP_singleton]
  omega

/-- A step that is not noted, of a thread in none of the stages. -/
theorem Balanced.unnoted {k k' : TCPSocket} {task next : Option Task}
    {rest : Multiset Task} (h : Balanced k (ofOption task + rest))
    (hlog : k'.log = k.log)
    (htask : ∀ stage : Stage, task.any stage.busy = false)
    (hnext : ∀ stage : Stage, next.any stage.busy = false) :
    Balanced k' (ofOption next + rest) := by
  intro stage
  have hbefore := h stage
  rw [Multiset.countP_add, countP_ofOption, htask] at hbefore
  rw [hlog, Multiset.countP_add, countP_ofOption, hnext]
  exact hbefore

theorem Balanced.step {k : TCPSocket} {l : SocketStep}
    {next : TCPSocket × Option Task} {rest : Multiset Task}
    (h : Balanced k (ofOption l.task + rest)) (hstep : k.step l = some next) :
    Balanced next.1 (ofOption next.2 + rest) := by
  have hrecv : ∀ next : Task, next = .parse ∨ next = .repost →
      ∀ stage : Stage, (some next).any stage.busy = false := by
    rintro next (rfl | rfl) stage <;> cases stage <;> rfl
  cases change_of_step hstep with
  | acceptEnds | sendEnds =>
      exact h.unnoted rfl (fun _ => rfl) fun _ => rfl
  | @recvEnds c data _ _ =>
      exact h.unnoted (k.fill_log c data) (fun _ => rfl) fun _ => rfl
  | @take c _ =>
      refine h.noted rfl fun stage => ?_
      rw [any_busy_dispatch]
      cases stage <;> simp [Stage.left, SocketStep.task]
  | mark hmark =>
      refine h.noted rfl fun stage => ?_
      cases hmark <;> cases stage <;> rfl
  | arm =>
      refine h.noted rfl fun stage => ?_
      cases stage <;> rfl
  | copy =>
      refine h.unnoted rfl ?_ (hrecv _ (Or.inl rfl))
      intro stage
      cases stage <;> rfl
  | handsOver =>
      refine h.noted rfl fun stage => ?_
      cases stage <;> rfl
  | pass _ hnext =>
      exact h.unnoted rfl (hrecv _ (Or.inl rfl)) (hrecv _ hnext)
  | returns hnext =>
      refine h.noted rfl fun stage => ?_
      rw [hrecv _ hnext]
      cases stage <;> rfl
  | repost =>
      exact h.unnoted rfl (hrecv _ (Or.inr rfl)) fun _ => rfl
  | written =>
      refine h.unnoted rfl ?_ fun _ => rfl
      intro stage
      cases stage <;> rfl

/-! ## The `AcceptEx` of a socket -/

/-- The `AcceptEx` operations whose completion no thread has taken. -/
def pending (k : TCPSocket) : ℕ :=
  k.accepting.toNat + k.queue.countP Completion.isAccept

/-- A socket as any number of threads leave it: one `AcceptEx` at most was posted
for it and completes once, and the handlers keep to their stages. -/
structure Staged (k : TCPSocket) (tasks : Multiset Task) : Prop where
  balanced : Balanced k tasks
  accept : k.pending + k.log.countP SocketEvent.takesAccept = k.log.count .posted
  posted : k.log.count .posted ≤ 1

theorem staged_ready (inPort : ℕ) (accepted : Bool) (memory : Region UInt8) :
    Staged (ready inPort accepted memory) 0 := by
  refine ⟨balanced_ready inPort accepted memory, ?_, ?_⟩
  · cases accepted <;> rfl
  · cases accepted <;> simp [ready]

/-- Only taking the completion of the `AcceptEx` changes what is pending. -/
theorem pending_step {k : TCPSocket} {l : SocketStep}
    {next : TCPSocket × Option Task} (hstep : k.step l = some next) :
    next.1.pending + (if (k.noted l).any SocketEvent.takesAccept then 1 else 0) =
      k.pending := by
  cases change_of_step hstep with
  | acceptEnds hc haccepting =>
      simp [pending, noted, Completion.isAccept, hc, haccepting, add_comm]
  | recvEnds hc _ => simp [pending, noted, Completion.isAccept, hc]
  | sendEnds hc => simp [pending, noted, Completion.isAccept, hc]
  | @take c hmem =>
      have herase := countP_erase_add Completion.isAccept hmem
      rw [noted, Option.any_some]
      change k.accepting.toNat + (k.queue.erase c).countP _ +
        (if c.isAccept then 1 else 0) = k.pending
      rw [pending, Nat.add_assoc, herase]
  | mark hmark => cases hmark <;> simp [pending, noted, note, SocketEvent.takesAccept]
  | handsOver hhands => simp [pending, noted, hhands, note, SocketEvent.takesAccept]
  | pass hhands _ => simp [pending, noted, hhands]
  | arm | copy | returns | repost | written =>
      simp [pending, noted, note, wsaRecv, copyIn, SocketEvent.takesAccept]

/-- What a step adds to a count over the history. -/
theorem countP_log_step {k : TCPSocket} {l : SocketStep}
    {next : TCPSocket × Option Task} (hstep : k.step l = some next)
    (p : SocketEvent → Bool) :
    next.1.log.countP p =
      k.log.countP p + if (k.noted l).any p then 1 else 0 := by
  rw [log_step hstep, List.countP_append]
  cases k.noted l with
  | none => rfl
  | some e => rw [Option.toList_some, List.countP_singleton, Option.any_some]

theorem Staged.step {k : TCPSocket} {l : SocketStep}
    {next : TCPSocket × Option Task} {rest : Multiset Task}
    (h : Staged k (ofOption l.task + rest)) (hstep : k.step l = some next) :
    Staged next.1 (ofOption next.2 + rest) := by
  have hposted : next.1.log.count .posted = k.log.count .posted := by
    have hnot : (k.noted l).any (· == .posted) = false := by
      cases hnoted : k.noted l with
      | none => rfl
      | some e =>
          have hne := k.noted_ne_posted l
          rw [hnoted] at hne
          simpa using hne
    have hcount := countP_log_step hstep (· == .posted)
    rw [hnot] at hcount
    exact hcount
  refine ⟨h.balanced.step hstep, ?_, hposted ▸ h.posted⟩
  have hpending := pending_step hstep
  have haccept := h.accept
  rw [hposted, countP_log_step hstep]
  omega

theorem countP_accepts_le (log : List SocketEvent) :
    log.countP SocketEvent.accepts ≤ log.countP SocketEvent.takesAccept := by
  apply List.countP_mono_left
  intro e _ he
  cases e with
  | taken c => exact (Bool.and_eq_true_iff.mp he).1
  | _ => cases he

theorem Staged.accepts_le {k : TCPSocket} {tasks : Multiset Task}
    (h : Staged k tasks) : k.log.countP SocketEvent.accepts ≤ 1 := by
  have hle := countP_accepts_le k.log
  have haccept := h.accept
  have hposted := h.posted
  omega

/-! ## What has passed all stages -/

/-- How often `DisconnectHandler` has been called. -/
def closings (k : TCPSocket) : ℕ := k.log.countP SocketEvent.closes

section

variable {k : TCPSocket} {tasks : Multiset Task}

theorem Balanced.closed_le (h : Balanced k tasks) :
    k.log.count .closed ≤ k.closings := by
  have hclose : k.closings = k.log.count .closed + _ := h .close
  omega

theorem Balanced.dismissed_le (h : Balanced k tasks) :
    k.log.count .disconnectedBegins ≤ k.closings := by
  have hclosed := h.closed_le
  have hrearm : k.log.count .closed = k.log.count .rearmed + _ := h .rearm
  have hdismiss : k.log.count .rearmed =
      k.log.count .disconnectedBegins + _ := h .dismiss
  omega

theorem Balanced.uncounted_le (h : Balanced k tasks) :
    k.log.count .uncounted ≤ k.closings := by
  have hbegins := h.dismissed_le
  have hdismissing : k.log.count .disconnectedBegins =
      k.log.count .disconnectedReturns + _ := h .dismissing
  have huncount : k.log.count .disconnectedReturns =
      k.log.count .uncounted + _ := h .uncount
  omega

theorem Balanced.rearmed_of_idle (h : Balanced k 0) :
    k.closings = k.log.count .rearmed := by
  have hclose : k.closings = k.log.count .closed + 0 := h .close
  have hrearm : k.log.count .closed = k.log.count .rearmed + 0 := h .rearm
  omega

theorem Balanced.uncounted_of_idle (h : Balanced k 0) :
    k.closings = k.log.count .uncounted := by
  have hrearmed := h.rearmed_of_idle
  have hdismiss : k.log.count .rearmed =
      k.log.count .disconnectedBegins + 0 := h .dismiss
  have hdismissing : k.log.count .disconnectedBegins =
      k.log.count .disconnectedReturns + 0 := h .dismissing
  have huncount : k.log.count .disconnectedReturns =
      k.log.count .uncounted + 0 := h .uncount
  omega

theorem countP_left_connect (log : List SocketEvent) :
    log.countP Stage.connect.left =
      log.count .associated + log.count .refused := by
  refine countP_eq_add ?_ log
  intro e
  cases e <;> rfl

theorem Balanced.armed_le (h : Balanced k tasks) :
    k.log.count .armed ≤ k.log.countP SocketEvent.accepts := by
  have hconnect : k.log.countP SocketEvent.accepts =
      k.log.countP Stage.connect.left + _ := h .connect
  rw [countP_left_connect] at hconnect
  have harm : k.log.count .associated = k.log.count .armed + _ := h .arm
  omega

theorem Balanced.counted_of_idle (h : Balanced k 0) :
    k.log.countP SocketEvent.accepts =
      k.log.count .counted + k.log.count .refused := by
  have hconnect : k.log.countP SocketEvent.accepts =
      k.log.countP Stage.connect.left + 0 := h .connect
  rw [countP_left_connect] at hconnect
  have harm : k.log.count .associated = k.log.count .armed + 0 := h .arm
  have hgreet : k.log.count .armed = k.log.count .connectedBegins + 0 :=
    h .greet
  have hgreeting : k.log.count .connectedBegins =
      k.log.count .connectedReturns + 0 := h .greeting
  have hcount : k.log.count .connectedReturns = k.log.count .counted + 0 :=
    h .count
  omega

end

end TCPSocket

end DokeviNet
