import DokeviNetwork.Server.Receives
import DokeviNetwork.Server.Stages

/-!
# Which completions close a socket

`ThreadTask` calls `DisconnectHandler` for every completion that failed with error
64 and for every receive that brought nothing, whatever has become of the socket
before.  The `AcceptEx` and the receives of a socket do so once at most: the call
that would post the next receive is never made.  Only a failed send comes on top.
-/

namespace DokeviNet

open LabelledRun Workers

namespace SocketEvent

/-- `DisconnectHandler` is called for the `AcceptEx` or a receive. -/
def closesByToken : SocketEvent → Bool
  | .taken c => c.closes && c.isToken
  | _ => false

/-- `DisconnectHandler` is called for a failed send. -/
def closesBySend : SocketEvent → Bool
  | .taken c => c.closes && !c.isToken
  | _ => false

end SocketEvent

namespace TCPSocket

/-- The connection has been accepted. -/
def accepted (k : TCPSocket) : Bool := k.log.any SocketEvent.accepts

/-- The connection has been disconnected. -/
def disconnected (k : TCPSocket) : Bool := k.log.any SocketEvent.closes

/-- The connection has been disconnected for a failed send. -/
def sendClosed (k : TCPSocket) : Bool := k.log.any SocketEvent.closesBySend

theorem accepted_eq_false_iff (k : TCPSocket) :
    k.accepted = false ↔ k.log.countP SocketEvent.accepts = 0 := by
  simp [accepted, List.countP_eq_zero]

theorem disconnected_eq_false_iff (k : TCPSocket) :
    k.disconnected = false ↔ k.closings = 0 := by
  simp [closings, disconnected, List.countP_eq_zero]

theorem sendClosed_eq_false_iff (k : TCPSocket) :
    k.sendClosed = false ↔ k.log.countP SocketEvent.closesBySend = 0 := by
  simp [sendClosed, List.countP_eq_zero]

theorem closings_eq (k : TCPSocket) :
    k.closings = k.log.countP SocketEvent.closesByToken +
      k.log.countP SocketEvent.closesBySend := by
  refine countP_eq_add ?_ k.log
  intro e
  cases e with
  | taken c =>
      cases hcloses : c.closes <;> cases htoken : c.isToken <;>
        simp [SocketEvent.closes, SocketEvent.closesByToken,
          SocketEvent.closesBySend, hcloses, htoken]
  | _ => rfl

theorem mem_log_step {k : TCPSocket} {l : SocketStep}
    {next : TCPSocket × Option Task} (hstep : k.step l = some next)
    {e : SocketEvent} (hmem : e ∈ k.log) : e ∈ next.1.log := by
  rw [log_step hstep]
  exact List.mem_append_left _ hmem

theorem noted_taken {k : TCPSocket} {l : SocketStep} {c : Completion}
    (h : k.noted l = some (.taken c)) : l = .take c := by
  cases notes_of_noted h with
  | taken => rfl
  | mark hmark => cases hmark

/-- `DisconnectHandler` is called where a completion is taken. -/
theorem noted_closes {k : TCPSocket} {l : SocketStep}
    (h : (k.noted l).any SocketEvent.closes = true) :
    ∃ c, l = .take c ∧ c.closes = true := by
  obtain ⟨e, hnoted, hcloses⟩ := (Option.any_eq_true _ _).mp h
  cases e with
  | taken c => exact ⟨c, noted_taken hnoted, hcloses⟩
  | _ => cases hcloses

theorem noted_closesByToken {k : TCPSocket} {l : SocketStep}
    (h : (k.noted l).any SocketEvent.closesByToken = true) :
    ∃ c, l = .take c ∧ c.closes = true ∧ c.isToken = true := by
  obtain ⟨e, hnoted, hcloses⟩ := (Option.any_eq_true _ _).mp h
  cases e with
  | taken c => exact ⟨c, noted_taken hnoted, Bool.and_eq_true_iff.mp hcloses⟩
  | _ => cases hcloses

/-! ## The token of a closed socket -/

theorem any_holdsToken_of_closes {c : Completion} (h : c.closes = true) :
    c.dispatch.any Task.holdsToken = false := by
  unfold Completion.closes at h
  split at h
  · next hdispatch => rw [hdispatch]; rfl
  · cases h

/-- The token is lost with the completion for which `DisconnectHandler` is called. -/
theorem tokens_take {k : TCPSocket} {c : Completion}
    {next : TCPSocket × Option Task} {rest : Multiset Task}
    (hstep : k.step (.take c) = some next) (hcloses : c.closes = true)
    (htoken : c.isToken = true) :
    next.1.tokens (ofOption next.2 + rest) + 1 = k.tokens rest := by
  cases change_of_step hstep with
  | take hmem =>
      have herase := countP_erase_add Completion.isToken hmem
      rw [if_pos htoken] at herase
      simp only [tokens, freeTokens, Multiset.countP_add, countP_ofOption,
        any_holdsToken_of_closes hcloses]
      simp only [Bool.false_eq_true, if_false]
      omega

theorem tokens_pos_of_task {k : TCPSocket} {task : Task} {rest : Multiset Task}
    (htask : task.holdsToken = true) : 0 < k.tokens ({task} + rest) := by
  rw [tokens, Multiset.countP_add, ← ofOption_some, countP_ofOption,
    Option.any_some, if_pos htask]
  omega

/-- What has closed the socket once and what may yet do so. -/
theorem closesByToken_step {k : TCPSocket} {l : SocketStep}
    {next : TCPSocket × Option Task} {rest : Multiset Task}
    (hstep : k.step l = some next) :
    next.1.log.countP SocketEvent.closesByToken +
        next.1.tokens (ofOption next.2 + rest) ≤
      k.log.countP SocketEvent.closesByToken +
        k.tokens (ofOption l.task + rest) := by
  have hcount := countP_log_step hstep SocketEvent.closesByToken
  by_cases hcloses : (k.noted l).any SocketEvent.closesByToken = true
  · obtain ⟨c, rfl, hc, htoken⟩ := noted_closesByToken hcloses
    have hlost := @tokens_take _ _ _ rest hstep hc htoken
    rw [if_pos hcloses] at hcount
    simp only [SocketStep.task, ofOption_none, zero_add]
    omega
  · have htokens := @tokens_step _ _ _ rest hstep
    rw [if_neg hcloses] at hcount
    omega

/-! ## Sockets that are closed once -/

/-- A failed send that closes the socket is the only completion to do so. -/
def ClosesAlone (k : TCPSocket) (c : Completion) : Prop :=
  k.sendClosed = false ∧ (c.ioType = .send → k.disconnected = false)

instance (k : TCPSocket) (c : Completion) : Decidable (k.ClosesAlone c) :=
  inferInstanceAs (Decidable (_ ∧ _))

/-- The socket has been closed once at most, and only after `e`. -/
structure ClosedAfter (e : SocketEvent) (k : TCPSocket) (tasks : Multiset Task) :
    Prop extends Staged k tasks where
  one : k.log.countP SocketEvent.closesByToken + k.tokens tasks ≤ 1
  once : k.closings ≤ 1
  after : k.closings ≠ 0 → e ∈ k.log

theorem closedAfter_ready (e : SocketEvent) (inPort : ℕ) (accepted : Bool)
    (memory : Region UInt8) : ClosedAfter e (ready inPort accepted memory) 0 := by
  have htokens := (inTransit_ready inPort accepted memory).one
  refine ⟨staged_ready inPort accepted memory, ?_, ?_, ?_⟩
  · cases accepted <;> simpa [ready, SocketEvent.closesByToken] using htokens
  · cases accepted <;> simp [closings, ready, SocketEvent.closes]
  · cases accepted <;> simp [closings, ready, SocketEvent.closes]

section

variable {e : SocketEvent} {k : TCPSocket} {tasks : Multiset Task}

/-- While the token of a socket is somewhere, only a failed send can have closed
it. -/
theorem ClosedAfter.closings_eq_zero (h : ClosedAfter e k tasks)
    (htoken : 0 < k.tokens tasks) (hsend : k.sendClosed = false) :
    k.closings = 0 := by
  have hone := h.one
  rw [closings_eq, (sendClosed_eq_false_iff k).mp hsend]
  omega

theorem ClosedAfter.first {c : Completion} (h : ClosedAfter e k tasks)
    (hmem : c ∈ k.queue) (halone : k.ClosesAlone c) : k.closings = 0 := by
  cases htoken : c.isToken with
  | false =>
      have hsend : c.ioType = .send := by simpa [Completion.isToken] using htoken
      exact (disconnected_eq_false_iff k).mp (halone.2 hsend)
  | true =>
      have hpos : 0 < k.queue.countP Completion.isToken :=
        List.countP_pos_iff.mpr ⟨c, hmem, htoken⟩
      refine h.closings_eq_zero ?_ halone.1
      rw [tokens, freeTokens]
      omega

end

theorem ClosedAfter.step {e : SocketEvent} {k : TCPSocket} {l : SocketStep}
    {next : TCPSocket × Option Task} {rest : Multiset Task}
    (h : ClosedAfter e k (ofOption l.task + rest))
    (hallows : ∀ c, l = .take c → c.closes = true →
      k.ClosesAlone c ∧ e ∈ k.log)
    (hstep : k.step l = some next) :
    ClosedAfter e next.1 (ofOption next.2 + rest) := by
  have hone := (@closesByToken_step _ _ _ rest hstep).trans h.one
  have hcount : next.1.closings = k.closings + _ :=
    countP_log_step hstep SocketEvent.closes
  by_cases hcloses : (k.noted l).any SocketEvent.closes = true
  · obtain ⟨c, rfl, hc⟩ := noted_closes hcloses
    obtain ⟨halone, hafter⟩ := hallows c rfl hc
    have hmem : c ∈ k.queue := by
      cases change_of_step hstep with
      | take hmem => exact hmem
    rw [if_pos hcloses, h.first hmem halone] at hcount
    exact ⟨h.toStaged.step hstep, hone, hcount.le,
      fun _ => mem_log_step hstep hafter⟩
  · rw [if_neg hcloses, Nat.add_zero] at hcount
    refine ⟨h.toStaged.step hstep, hone, hcount ▸ h.once, ?_⟩
    intro hne
    exact mem_log_step hstep (h.after (hcount ▸ hne))

end TCPSocket

end DokeviNet
