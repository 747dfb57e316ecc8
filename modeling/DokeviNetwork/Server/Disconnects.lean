import DokeviNetwork.Server.Closings
import Mathlib.Algebra.Order.BigOperators.Group.Finset

/-!
# One disconnect for each connection

Where a failed send that closes a socket is the only completion to do so, and
nothing closes a socket before its `ConnectHanadler` has returned, every connection
is closed, dismissed and counted once.
-/

namespace DokeviNet

open LabelledRun Workers

namespace TCPSocket

/-- The condition: a completion that goes to `DisconnectHandler` is taken after
`ConnectHanadler` has returned, and is alone in this if it is a failed send; every
socket is associated with the port. -/
def ClosesOnce (k : TCPSocket) (_ : Multiset Task) : SocketStep → Prop
  | .ends _ _ => True
  | .take c => c.closes = true → k.ClosesAlone c ∧ .counted ∈ k.log
  | .advance task ok => task = .connect → ok = true

instance (k : TCPSocket) (tasks : Multiset Task) :
    ∀ l, Decidable (k.ClosesOnce tasks l)
  | .ends _ _ => inferInstanceAs (Decidable True)
  | .take c => inferInstanceAs (Decidable (c.closes = true →
      k.ClosesAlone c ∧ .counted ∈ k.log))
  | .advance task ok => inferInstanceAs (Decidable (task = .connect → ok = true))

/-- What the steps of a socket keep under the condition. -/
structure Closing (k : TCPSocket) (tasks : Multiset Task) : Prop
    extends ClosedAfter .counted k tasks where
  associated : .refused ∉ k.log

theorem closing_ready (inPort : ℕ) (accepted : Bool) (memory : Region UInt8) :
    Closing (ready inPort accepted memory) 0 := by
  refine ⟨closedAfter_ready .counted inPort accepted memory, ?_⟩
  cases accepted <;> simp [ready]

theorem noted_refused {k : TCPSocket} {l : SocketStep}
    (h : k.noted l = some .refused) : l = .advance .connect false := by
  cases notes_of_noted h with
  | mark hmark =>
      cases hmark
      rfl

theorem Closing.step {k : TCPSocket} {l : SocketStep}
    {next : TCPSocket × Option Task} {rest : Multiset Task}
    (h : Closing k (ofOption l.task + rest))
    (hallows : k.ClosesOnce (ofOption l.task + rest) l)
    (hstep : k.step l = some next) :
    Closing next.1 (ofOption next.2 + rest) := by
  have htake : ∀ c, l = .take c → c.closes = true →
      k.ClosesAlone c ∧ .counted ∈ k.log := by
    rintro c rfl hc
    exact hallows hc
  refine ⟨h.toClosedAfter.step htake hstep, ?_⟩
  rw [log_step hstep]
  intro hmem
  rcases List.mem_append.mp hmem with hold | hnew
  · exact h.associated hold
  · rw [Option.mem_toList] at hnew
    obtain rfl := noted_refused hnew
    cases hallows rfl

/-- What the connection adds to `_clientSize`. -/
def size (k : TCPSocket) : ℤ := k.log.count .counted - k.log.count .uncounted

section

variable {k : TCPSocket} {tasks : Multiset Task}

theorem Closing.size_nonneg (h : Closing k tasks) : 0 ≤ k.size := by
  have huncounted := h.balanced.uncounted_le
  have honce := h.once
  have hcounted : k.closings ≠ 0 → 0 < k.log.count .counted := by
    intro hne
    exact List.count_pos_iff.mpr (h.after hne)
  unfold size
  omega

end

/-- Once every handler has returned, a connection counts from its acceptance to its
disconnect. -/
theorem Closing.size_of_idle {k : TCPSocket} (h : Closing k 0) :
    k.size = if k.accepted && !k.disconnected then 1 else 0 := by
  have haccepts := h.balanced.counted_of_idle
  rw [List.count_eq_zero.mpr h.associated, Nat.add_zero] at haccepts
  have hclosings := h.balanced.uncounted_of_idle
  have hone := h.accepts_le
  have honce := h.once
  have hconnected : k.closings ≠ 0 → 0 < k.log.count .counted := by
    intro hne
    exact List.count_pos_iff.mpr (h.after hne)
  unfold size
  cases haccepted : k.accepted with
  | false =>
      rw [accepted_eq_false_iff] at haccepted
      rw [Bool.false_and, if_neg Bool.false_ne_true]
      omega
  | true =>
      have hne := mt (accepted_eq_false_iff k).mpr (by simp [haccepted])
      cases hdisconnected : k.disconnected with
      | false =>
          rw [disconnected_eq_false_iff] at hdisconnected
          simp only [Bool.not_false, Bool.true_and, if_true]
          omega
      | true =>
          have hne' :=
            mt (disconnected_eq_false_iff k).mpr (by simp [hdisconnected])
          simp only [Bool.not_true, Bool.and_false, Bool.false_eq_true, if_false]
          omega

theorem size_step (k : TCPSocket) (l : SocketStep)
    (next : TCPSocket × Option Task) (hstep : k.step l = some next) :
    next.1.size = k.size + l.counts := by
  have hcounted : next.1.log.count .counted = k.log.count .counted + _ :=
    countP_log_step hstep (· == .counted)
  have huncounted :
      next.1.log.count .uncounted = k.log.count .uncounted + _ :=
    countP_log_step hstep (· == .uncounted)
  have hdiff :
      ((if (k.noted l).any (· == .counted) then 1 else 0 : ℕ) : ℤ) =
        (if (k.noted l).any (· == .uncounted) then 1 else 0 : ℕ) +
          l.counts := by
    cases l with
    | ends c data => rfl
    | take c => rfl
    | advance task ok =>
        cases task with
        | connect => cases ok <;> rfl
        | parse =>
            simp only [noted]
            split <;> rfl
        | _ => rfl
  unfold size
  omega

end TCPSocket

namespace IoServer

variable {H P τ : Type*}

variable [DecidableEq τ] [PacketPools H P] [DecidableEq P]

variable [Fintype τ]

/-- `_clientSize` is what it was at first and what the sockets have added. -/
structure Counts (clientSize : ℤ) (w : IoServer H P τ) : Prop where
  numbered : WellNumbered w
  clientSize : w.clientSize =
    clientSize + ∑ s ∈ Finset.range w.created, (w.sockets s).size

theorem counts_of_run {pools : H} {clientSize : ℤ}
    {memory : ℕ → Region UInt8} {es : List (IoEvent τ)} {w : IoServer H P τ}
    (hrun : run step (start pools clientSize memory) es = some w) :
    Counts clientSize w := by
  have hinit :
      Counts clientSize (start pools clientSize memory : IoServer H P τ) :=
    ⟨wellNumbered_start pools clientSize memory, (add_zero _).symm⟩
  have hready : ∀ inPort outcome memory,
      TCPSocket.size (TCPSocket.ready inPort outcome memory) = 0 := by
    intro inPort outcome memory
    cases outcome <;> rfl
  refine invariant_of_along ?_ hinit (along_meets_true _ es) hrun
  intro w e w' h _ hstep
  refine ⟨h.numbered.step hstep, ?_⟩
  rw [(rest_of_step hstep).clientSize, h.clientSize,
    sum_sockets_of_step hready TCPSocket.size_step h.numbered hstep]
  simp only [mul_zero, add_zero]
  exact add_assoc _ _ _

/-- Every connection is disconnected once at most, and only once it is connected;
`_clientSize` is the number of the accepted and not yet disconnected ones. -/
structure DisconnectsOnce (w : IoServer H P τ) : Prop where
  called : ∀ s < w.created, (w.sockets s).closings ≤ 1
  connected : ∀ s < w.created, (w.sockets s).closings ≠ 0 →
    .counted ∈ (w.sockets s).log
  closed : ∀ s < w.created, (w.sockets s).log.count .closed ≤ 1
  dismissed : ∀ s < w.created,
    (w.sockets s).log.count .disconnectedBegins ≤ 1
  clientSize : (∀ t, w.workers t = none) → w.clientSize =
    ((Finset.range w.created).filter fun s =>
      (w.sockets s).accepted && !(w.sockets s).disconnected).card
  nonneg : 0 ≤ w.clientSize

/-- While no failed send closes a socket beside another completion, and nothing
before its `ConnectHanadler` has returned, every connection is disconnected and
counted once. -/
theorem disconnectsOnce_of_run {pools : H} {clientSize : ℤ}
    {memory : ℕ → Region UInt8} {es : List (IoEvent τ)} {w : IoServer H P τ}
    (hzero : clientSize = 0)
    (halong : Along step (Meets (fun _ => True) TCPSocket.ClosesOnce)
      (start pools clientSize memory) es)
    (hrun : run step (start pools clientSize memory) es = some w) :
    w.DisconnectsOnce := by
  have hevery : EverySocket TCPSocket.Closing w :=
    everySocket_of_run (fun _ _ _ _ => TCPSocket.closing_ready _ _ _)
      (fun _ _ _ _ h hallows hstep => h.step hallows hstep) halong hrun
  have hsize := (counts_of_run hrun).clientSize
  rw [hzero, zero_add] at hsize
  refine ⟨fun s hs => (hevery.socket s hs).once,
    fun s hs => (hevery.socket s hs).after, ?_, ?_, ?_, ?_⟩
  · intro s hs
    have h := hevery.socket s hs
    exact h.balanced.closed_le.trans h.once
  · intro s hs
    have h := hevery.socket s hs
    exact h.balanced.dismissed_le.trans h.once
  · intro hidle
    rw [hsize, Finset.card_filter, Nat.cast_sum]
    apply Finset.sum_congr rfl
    intro s hs
    have h := hevery.socket s (Finset.mem_range.mp hs)
    have htasks : w.tasks s = 0 :=
      tasksOn_eq_zero fun t task hworker => by simp [hidle t] at hworker
    rw [htasks] at h
    rw [h.size_of_idle]
    split <;> rfl
  · rw [hsize]
    apply Finset.sum_nonneg
    intro s hs
    exact (hevery.socket s (Finset.mem_range.mp hs)).size_nonneg

/-- A peer connects and closes its connection. -/
def connectAndClose : List (IoEvent Bool) :=
  [.setListenPort 80 [true],
    .ends 0 (.done .accept 0) (Region.ofList 0 []),
    .take false 0 (.done .accept 0), .advance false true, .advance false true,
    .advance false true, .advance false true, .advance false true,
    .ends 0 (.done .recv 0) (Region.ofList 0 []), .take true 0 (.done .recv 0),
    .advance true true, .advance true true, .advance true true,
    .advance true true, .advance true true]

theorem disconnectsOnce_of_run_connectAndClose :
    ∃ w, run step (start PacketSelector.zeroed 0 fun _ => Region.ofList 0 [])
        connectAndClose = some w ∧ w.clientSize = 0 ∧ w.DisconnectsOnce := by
  have hrun : run step
      (start PacketSelector.zeroed 0 fun _ => Region.ofList 0 [])
      connectAndClose = some _ := rfl
  exact ⟨_, hrun, rfl, disconnectsOnce_of_run rfl (by decide) hrun⟩

/-- The connection is reset while a receive and a send are outstanding: both fail
with error 64, and each failure is handled. -/
def resetWhileSending : List (IoEvent Bool) :=
  [.setListenPort 80 [true],
    .ends 0 (.done .accept 0) (Region.ofList 0 []),
    .take false 0 (.done .accept 0), .advance false true, .advance false true,
    .advance false true, .advance false true, .advance false true,
    .send true 0 (Region.ofList 0 [1]) 1 false,
    .ends 0 (.failed .recv 64) (Region.ofList 0 []),
    .ends 0 (.failed .send 64) (Region.ofList 0 []),
    .take false 0 (.failed .recv 64), .take true 0 (.failed .send 64),
    .advance false true, .advance false true, .advance false true,
    .advance false true, .advance false true, .advance true true,
    .advance true true, .advance true true, .advance true true,
    .advance true true]

theorem resetWhileSending_disconnects_twice :
    ¬ ∀ (es : List (IoEvent Bool))
        (w : IoServer PacketSelector PacketId Bool),
      run step (start PacketSelector.zeroed 0 fun _ => Region.ofList 0 []) es =
        some w → w.DisconnectsOnce := by
  intro h
  have hrun : run step
      (start PacketSelector.zeroed 0 fun _ => Region.ofList 0 [])
      resetWhileSending = some _ := rfl
  exact absurd (h _ _ hrun).nonneg (by decide)

end IoServer

end DokeviNet
