import DokeviNetwork.Server.Closings

/-!
# The connection slots of a port

`SetListenPort` posts one `AcceptEx` for each slot of a port.  A slot is posted
anew only by `ResetSocket`, inside `DisconnectHandler`.  Where the completions that
end a connection are those that `ThreadTask` sends there, no slot is lost and none
is made.
-/

namespace DokeviNet

open LabelledRun Workers

/-- A failed or empty receive or a failed send is handled. -/
def SocketEvent.breaks : SocketEvent → Bool
  | .taken c => c.breaks
  | _ => false

/-- What a step of a socket adds to the slots that its port is owed. -/
def SocketStep.frees : SocketStep → ℤ
  | .advance .rearm _ => -1
  | _ => 0

/-- The slots that an event registers for a port. -/
def IoEvent.registered {τ : Type*} (inPort : ℕ) : IoEvent τ → List ℕ
  | .setListenPort port accepted => if port = inPort then [accepted.length] else []
  | _ => []

/-- The slots registered for a port, one number for each `SetListenPort`. -/
def registrations {τ : Type*} (inPort : ℕ) (es : List (IoEvent τ)) : List ℕ :=
  es.flatMap (IoEvent.registered inPort)

namespace Completion

/-- Apart from an `AcceptEx`, only what ends a connection closes it. -/
theorem breaks_of_closes (c : Completion) (hcloses : c.closes = true)
    (hc : c.isAccept = false) : c.breaks = true := by
  unfold closes dispatch at hcloses
  unfold isAccept at hc
  unfold breaks
  cases htype : c.ioType with
  | accept => simp [htype] at hc
  | send => cases herror : c.error <;> simp_all
  | recv =>
      cases herror : c.error with
      | some err => rfl
      | none =>
          by_cases hzero : c.transferredSize = 0
          · simp [hzero]
          · simp [htype, herror, hzero] at hcloses

theorem closes_of_accepts (c : Completion) (hc : c.accepts = true) :
    c.closes = false := by
  obtain ⟨haccept, hdone⟩ := Bool.and_eq_true_iff.mp hc
  rw [Option.isNone_iff_eq_none] at hdone
  rw [closes, dispatch, hdone, eq_of_beq haccept]

end Completion

namespace TCPSocket

/-- The connection has failed or has been closed by the peer. -/
def broken (k : TCPSocket) : Bool := k.log.any SocketEvent.breaks

/-- The connection can be used. -/
def usable (k : TCPSocket) : Bool := k.accepted && !k.broken

/-- The slots that a socket takes up: a pending `AcceptEx`, or a connection. -/
def slots (k : TCPSocket) : ℕ := k.pending + k.usable.toNat

/-- The condition: an `AcceptEx` fails with error 64 only, and on an accepted
connection just the first of the failures goes to `DisconnectHandler`. -/
def KeepsSlot (k : TCPSocket) (_ : Multiset Task) : SocketStep → Prop
  | .take c =>
    if c.isAccept then c.error.isSome → c.closes = true
    else c.breaks = true → k.accepted = true ∧ c.closes = !k.broken
  | _ => True

instance (k : TCPSocket) (tasks : Multiset Task) :
    ∀ l, Decidable (k.KeepsSlot tasks l)
  | .ends _ _ => inferInstanceAs (Decidable True)
  | .take c => inferInstanceAs (Decidable (if c.isAccept then _ else _))
  | .advance _ _ => inferInstanceAs (Decidable True)

/-- What the steps of a socket keep under the condition: its slot is taken up, or
has been given back. -/
structure Slotted (k : TCPSocket) (tasks : Multiset Task) : Prop
    extends Staged k tasks where
  slot : k.slots + k.closings = 1
  connected : k.broken = true → k.accepted = true

theorem slotted_ready (inPort : ℕ) (memory : Region UInt8) :
    Slotted (ready inPort true memory) 0 :=
  ⟨staged_ready inPort true memory, rfl, fun h => h⟩

theorem any_log_step {k : TCPSocket} {l : SocketStep}
    {next : TCPSocket × Option Task} (hstep : k.step l = some next)
    (p : SocketEvent → Bool) :
    next.1.log.any p = (k.log.any p || (k.noted l).any p) := by
  rw [log_step hstep, List.any_append]
  cases k.noted l with
  | none => rfl
  | some e => simp

/-- The slot of a socket and its connection after a step, from what is noted. -/
theorem Slotted.of_noted {k : TCPSocket} {l : SocketStep}
    {next : TCPSocket × Option Task} {rest : Multiset Task}
    (h : Slotted k (ofOption l.task + rest)) (hstep : k.step l = some next)
    (hslot : ((k.accepted || (k.noted l).any SocketEvent.accepts) &&
          !(k.broken || (k.noted l).any SocketEvent.breaks)).toNat +
        (if (k.noted l).any SocketEvent.closes then 1 else 0) =
      k.usable.toNat +
        if (k.noted l).any SocketEvent.takesAccept then 1 else 0)
    (hconnected : (k.noted l).any SocketEvent.breaks = true →
      k.accepted = true) :
    Slotted next.1 (ofOption next.2 + rest) := by
  have haccepted : next.1.accepted =
      (k.accepted || (k.noted l).any SocketEvent.accepts) :=
    any_log_step hstep _
  have hbroken : next.1.broken =
      (k.broken || (k.noted l).any SocketEvent.breaks) :=
    any_log_step hstep _
  refine ⟨h.toStaged.step hstep, ?_, ?_⟩
  · have hpending := pending_step hstep
    have hclosings : next.1.closings = k.closings + _ :=
      countP_log_step hstep SocketEvent.closes
    have hbefore := h.slot
    rw [slots] at hbefore
    rw [slots, usable, haccepted, hbroken]
    omega
  · rw [hbroken, haccepted]
    intro hor
    rcases Bool.or_eq_true_iff.mp hor with hold | hnew
    · exact Bool.or_eq_true_iff.mpr (Or.inl (h.connected hold))
    · exact Bool.or_eq_true_iff.mpr (Or.inl (hconnected hnew))

/-- The completion of an accepted `AcceptEx` starts a connection, a failed one is
closed at once. -/
theorem Slotted.takeAccept {k : TCPSocket} {c : Completion}
    {next : TCPSocket × Option Task} {rest : Multiset Task}
    (h : Slotted k (ofOption (SocketStep.take c).task + rest))
    (hallows : c.error.isSome = true → c.closes = true)
    (hstep : k.step (.take c) = some next) (hc : c.isAccept = true) :
    Slotted next.1 (ofOption next.2 + rest) := by
  have hpending := pending_step hstep
  have haccept := h.accept
  have hposted := h.posted
  have hfree : k.accepted = false := by
    rw [accepted_eq_false_iff]
    have hle := countP_accepts_le k.log
    change _ + (if c.isAccept then 1 else 0) = _ at hpending
    rw [if_pos hc] at hpending
    omega
  have hwhole : k.broken = false := by
    by_contra hbroken
    have haccepted := h.connected (eq_true_of_ne_false hbroken)
    rw [hfree] at haccepted
    cases haccepted
  have hbreaks : c.breaks = false := by
    unfold Completion.breaks
    rw [eq_of_beq hc]
  refine h.of_noted hstep ?_ ?_
  · simp only [noted, Option.any_some, SocketEvent.accepts, SocketEvent.breaks,
      SocketEvent.closes, SocketEvent.takesAccept, usable, hfree, hwhole,
      hbreaks, hc]
    cases herror : c.error.isSome with
    | true => simp [Completion.accepts, hallows herror, herror]
    | false =>
        have haccepts : c.accepts = true := by
          simpa [Completion.accepts, hc] using herror
        simp [haccepts, c.closes_of_accepts haccepts]
  · intro hnew
    change c.breaks = true at hnew
    rw [hbreaks] at hnew
    cases hnew

/-- The first failure of a connection closes it, the others change nothing. -/
theorem Slotted.takeOther {k : TCPSocket} {c : Completion}
    {next : TCPSocket × Option Task} {rest : Multiset Task}
    (h : Slotted k (ofOption (SocketStep.take c).task + rest))
    (hallows : c.breaks = true → k.accepted = true ∧ c.closes = !k.broken)
    (hstep : k.step (.take c) = some next) (hc : c.isAccept = false) :
    Slotted next.1 (ofOption next.2 + rest) := by
  refine h.of_noted hstep ?_ fun hnew => (hallows hnew).1
  have haccepts : c.accepts = false := by
    rw [Completion.accepts, hc, Bool.false_and]
  simp only [noted, Option.any_some, SocketEvent.accepts, SocketEvent.breaks,
    SocketEvent.closes, SocketEvent.takesAccept, usable, haccepts, hc]
  cases hbreaks : c.breaks with
  | true =>
      obtain ⟨haccepted, hcloses⟩ := hallows hbreaks
      simp only [haccepted, hcloses]
      cases k.broken <;> rfl
  | false =>
      have hcloses : c.closes = false := by
        by_contra hcloses
        rw [c.breaks_of_closes (eq_true_of_ne_false hcloses) hc] at hbreaks
        cases hbreaks
      simp [hcloses]

theorem Slotted.step {k : TCPSocket} {l : SocketStep}
    {next : TCPSocket × Option Task} {rest : Multiset Task}
    (h : Slotted k (ofOption l.task + rest))
    (hallows : k.KeepsSlot (ofOption l.task + rest) l)
    (hstep : k.step l = some next) :
    Slotted next.1 (ofOption next.2 + rest) := by
  by_cases hl : ∃ c, l = .take c
  · obtain ⟨c, rfl⟩ := hl
    cases hc : c.isAccept with
    | true =>
        exact h.takeAccept (by simpa [KeepsSlot, hc] using hallows) hstep hc
    | false =>
        exact h.takeOther (by simpa [KeepsSlot, hc] using hallows) hstep hc
  · cases hnoted : k.noted l with
    | none => refine h.of_noted hstep ?_ ?_ <;> simp [hnoted, usable]
    | some e =>
        cases e with
        | taken c => exact absurd ⟨c, noted_taken hnoted⟩ hl
        | _ =>
            refine h.of_noted hstep ?_ ?_ <;>
              simp [hnoted, usable, SocketEvent.accepts, SocketEvent.breaks,
                SocketEvent.closes, SocketEvent.takesAccept]

/-- Once every handler has returned, a slot that is not taken up has been posted
anew. -/
theorem Slotted.slots_of_idle {k : TCPSocket} (h : Slotted k 0) :
    (k.slots : ℤ) = 1 - k.log.count .rearmed := by
  have hslot := h.slot
  rw [h.balanced.rearmed_of_idle] at hslot
  omega

/-- What the port of a socket is owed for it. -/
def owed (inPort : ℕ) (k : TCPSocket) : ℤ :=
  if k.port = inPort then 1 - k.log.count .rearmed else 0

theorem port_step {k : TCPSocket} {l : SocketStep}
    {next : TCPSocket × Option Task} (hstep : k.step l = some next) :
    next.1.port = k.port := by
  cases change_of_step hstep with
  | recvEnds =>
      unfold fill
      split <;> rfl
  | acceptEnds | sendEnds | take | mark | arm | copy | handsOver | pass
  | returns | repost | written => rfl

theorem owed_step (inPort : ℕ) (k : TCPSocket) (l : SocketStep)
    (next : TCPSocket × Option Task) (hstep : k.step l = some next) :
    next.1.owed inPort =
      k.owed inPort + if k.port = inPort then l.frees else 0 := by
  have hcount := countP_log_step hstep (· == .rearmed)
  change next.1.log.count .rearmed = k.log.count .rearmed + _ at hcount
  have hfrees : -((if (k.noted l).any (· == .rearmed) then 1 else 0 : ℕ) : ℤ) =
      l.frees := by
    cases l with
    | ends c data => rfl
    | take c => rfl
    | advance task ok =>
        cases task with
        | connect => cases ok <;> rfl
        | parse =>
            simp only [noted]
            split <;> rfl
        | _ => rfl
  unfold owed
  rw [port_step hstep, hcount, ← hfrees]
  split <;> omega

end TCPSocket

namespace IoServer

variable {H P τ : Type*}

section

variable [DecidableEq τ] [PacketPools H P] [DecidableEq P]

theorem mem_listenPorts_step {w w' : IoServer H P τ} {e : IoEvent τ}
    (hstep : w.step e = some w') {port : ℕ} (hport : port ∈ w.listenPorts) :
    port ∈ w'.listenPorts := by
  rw [(rest_of_step hstep).listenPorts]
  exact List.mem_append_right _ hport

/-- Sockets are made for ports that are listened on. -/
theorem readies_mem_listenPorts {w w' : IoServer H P τ} {e : IoEvent τ}
    (hstep : w.step e = some w') {accepted : Bool}
    (hmem : accepted ∈ (e.readies w).2) :
    (e.readies w).1 ∈ w'.listenPorts := by
  cases e with
  | setListenPort inPort accepted =>
      rw [(rest_of_step hstep).listenPorts]
      exact List.mem_cons_self
  | advance t ok =>
      refine mem_listenPorts_step hstep ?_
      cases hworker : w.workers t with
      | none => simp [IoEvent.readies, hworker] at hmem
      | some held =>
          obtain ⟨s, task⟩ := held
          cases task with
          | rearm =>
              by_cases hport : (w.sockets s).port ∈ w.listenPorts
              · simpa [IoEvent.readies, hworker] using hport
              · simp [IoEvent.readies, hworker, hport] at hmem
          | _ => simp [IoEvent.readies, hworker] at hmem
  | send | transmit | ends | take => cases hmem

omit [DecidableEq τ] [PacketPools H P] [DecidableEq P] in
/-- What the port gets from an event is what is registered for it: the `AcceptEx`
posted for a closed socket makes up for the slot that the socket gives back. -/
theorem owed_event {w : IoServer H P τ} {e : IoEvent τ} {inPort : ℕ}
    (hnum : WellNumbered w)
    (hlisten : ∀ s < w.created, (w.sockets s).port ∈ w.listenPorts) :
    ((e.socketStep w).elim 0 fun at_ =>
        if (w.sockets at_.1).port = inPort then at_.2.frees else 0) +
      (e.readies w).2.length * (if (e.readies w).1 = inPort then (1 : ℤ) else 0) =
      (e.registered inPort).sum := by
  cases e with
  | setListenPort port accepted =>
      by_cases hport : port = inPort <;>
        simp [IoEvent.socketStep, IoEvent.readies, IoEvent.registered, hport]
  | advance t ok =>
      cases hworker : w.workers t with
      | none =>
          simp [IoEvent.socketStep, IoEvent.readies, IoEvent.registered, hworker]
      | some held =>
          obtain ⟨s, task⟩ := held
          cases task with
          | rearm =>
              have hport := hlisten s (hnum.workers t s _ hworker)
              have hlocal : (IoEvent.advance t ok).socketStep w =
                  some (s, .advance .rearm ok) := by
                simp [IoEvent.socketStep, hworker]
              have hreadies : (IoEvent.advance t ok).readies w =
                  ((w.sockets s).port, [ok]) := by
                simp [IoEvent.readies, hworker, hport]
              rw [hlocal, hreadies, Option.elim_some]
              by_cases hsame : (w.sockets s).port = inPort <;>
                simp [hsame, SocketStep.frees, IoEvent.registered]
          | _ =>
              simp [IoEvent.socketStep, IoEvent.readies, IoEvent.registered,
                hworker, SocketStep.frees]
  | send | transmit | ends | take =>
      simp [IoEvent.socketStep, IoEvent.readies, IoEvent.registered,
        SocketStep.frees]

variable [Fintype τ]

/-- After the events `past`, the sockets of a port owe it what has been registered
for it. -/
structure Owes (inPort : ℕ) (past : List (IoEvent τ)) (w : IoServer H P τ) :
    Prop where
  numbered : WellNumbered w
  listening : ∀ s < w.created, (w.sockets s).port ∈ w.listenPorts
  owed : ∑ s ∈ Finset.range w.created, (w.sockets s).owed inPort =
    (registrations inPort past).sum

theorem Owes.step {inPort : ℕ} {past : List (IoEvent τ)}
    {w w' : IoServer H P τ} {e : IoEvent τ} (h : Owes inPort past w)
    (hstep : w.step e = some w') : Owes inPort (past ++ [e]) w' := by
  refine ⟨h.numbered.step hstep, ?_, ?_⟩
  · intro s hs
    cases view_of_step h.numbered hstep hs with
    | same hold hsocket _ =>
        rw [hsocket]
        exact mem_listenPorts_step hstep (h.listening s hold)
    | step hold _ hlstep hsocket _ _ =>
        rw [hsocket, TCPSocket.port_step hlstep]
        exact mem_listenPorts_step hstep (h.listening s hold)
    | fresh _ hmem hsocket _ =>
        rw [hsocket]
        exact readies_mem_listenPorts hstep hmem
  · have hready : ∀ port outcome memory,
        (TCPSocket.ready port outcome memory).owed inPort =
          if port = inPort then 1 else 0 := by
      intro port outcome memory
      cases outcome <;> rfl
    rw [sum_sockets_of_step hready (TCPSocket.owed_step inPort) h.numbered hstep,
      h.owed, add_assoc, owed_event h.numbered h.listening]
    simp [registrations]

theorem owes_of_run (inPort : ℕ) {pools : H} {clientSize : ℤ}
    {memory : ℕ → Region UInt8} {es : List (IoEvent τ)} {w : IoServer H P τ}
    (hrun : run step (start pools clientSize memory) es = some w) :
    Owes inPort es w := by
  have hinit :
      Owes inPort [] (start pools clientSize memory : IoServer H P τ) :=
    ⟨wellNumbered_start pools clientSize memory,
      fun s hs => absurd hs (Nat.not_lt_zero s), rfl⟩
  exact history_of_along (fun _ _ _ _ h _ hstep => h.step hstep) hinit
    (along_meets_true _ es) hrun

/-- The sockets of a port. -/
def onPort (w : IoServer H P τ) (inPort : ℕ) : Finset ℕ :=
  (Finset.range w.created).filter fun s => (w.sockets s).port = inPort

/-- While every `AcceptEx` is posted and every end of a connection closes it once,
the pending `AcceptEx` operations of a port and its usable connections are as many
as its slots. -/
theorem slots_of_run {inPort inMaxConnections : ℕ} {pools : H} {clientSize : ℤ}
    {memory : ℕ → Region UInt8} {es : List (IoEvent τ)} {w : IoServer H P τ}
    (hregistered : registrations inPort es = [inMaxConnections])
    (halong : Along step (Meets (fun accepted => accepted = true)
      TCPSocket.KeepsSlot) (start pools clientSize memory) es)
    (hrun : run step (start pools clientSize memory) es = some w)
    (hidle : ∀ t, w.workers t = none) :
    ∑ s ∈ w.onPort inPort, (w.sockets s).pending +
        ((w.onPort inPort).filter fun s => (w.sockets s).usable).card =
      inMaxConnections := by
  have hevery : EverySocket TCPSocket.Slotted w := by
    refine everySocket_of_run ?_ (fun _ _ _ _ h hallows hstep =>
      h.step hallows hstep) halong hrun
    rintro port outcome memory rfl
    exact TCPSocket.slotted_ready port memory
  have hslots : ∀ s ∈ w.onPort inPort,
      ((w.sockets s).slots : ℤ) = (w.sockets s).owed inPort := by
    intro s hs
    obtain ⟨hrange, hport⟩ := Finset.mem_filter.mp hs
    have h := hevery.socket s (Finset.mem_range.mp hrange)
    have htasks : w.tasks s = 0 :=
      tasksOn_eq_zero fun t task hworker => by simp [hidle t] at hworker
    rw [htasks] at h
    rw [h.slots_of_idle, TCPSocket.owed, if_pos hport]
  have howed : ∑ s ∈ w.onPort inPort, (w.sockets s).owed inPort =
      (inMaxConnections : ℤ) := by
    have hall := (owes_of_run inPort hrun).owed
    rw [hregistered] at hall
    unfold onPort
    rw [Finset.sum_filter]
    refine Eq.trans (Finset.sum_congr rfl fun s _ => ?_) (hall.trans (by simp))
    unfold TCPSocket.owed
    split <;> rfl
  have hcard : ((w.onPort inPort).filter fun s => (w.sockets s).usable).card =
      ∑ s ∈ w.onPort inPort, (w.sockets s).usable.toNat := by
    rw [Finset.card_filter]
    apply Finset.sum_congr rfl
    intro s _
    cases (w.sockets s).usable <;> rfl
  rw [hcard, ← Finset.sum_add_distrib]
  rw [← Finset.sum_congr rfl hslots] at howed
  exact_mod_cast howed

/-- One of two connections is made and reset: the receive fails with error 64, and
the send after it with another. -/
def resetThenAborted : List (IoEvent Bool) :=
  [.setListenPort 80 [true, true],
    .ends 0 (.done .accept 0) (Region.ofList 0 []),
    .take false 0 (.done .accept 0), .advance false true, .advance false true,
    .advance false true, .advance false true, .advance false true,
    .send true 0 (Region.ofList 0 [1]) 1 false,
    .ends 0 (.failed .recv 64) (Region.ofList 0 []),
    .take true 0 (.failed .recv 64),
    .ends 0 (.failed .send 995) (Region.ofList 0 []),
    .take false 0 (.failed .send 995), .advance true true, .advance true true,
    .advance true true, .advance true true, .advance true true]

theorem slots_of_run_resetThenAborted :
    ∃ w, run step (start PacketSelector.zeroed 0 fun _ => Region.ofList 0 [])
        resetThenAborted = some w ∧ w.created = 3 ∧
      ∑ s ∈ w.onPort 80, (w.sockets s).pending +
        ((w.onPort 80).filter fun s => (w.sockets s).usable).card = 2 := by
  have hrun : run step
      (start PacketSelector.zeroed 0 fun _ => Region.ofList 0 [])
      resetThenAborted = some _ := rfl
  exact ⟨_, hrun, rfl, slots_of_run rfl (by decide) hrun (by decide)⟩

/-- The peer of the only connection vanishes: its receive fails with error 121,
which `ThreadTask` logs. -/
def timesOut : List (IoEvent Bool) :=
  [.setListenPort 80 [true],
    .ends 0 (.done .accept 0) (Region.ofList 0 []),
    .take false 0 (.done .accept 0), .advance false true, .advance false true,
    .advance false true, .advance false true, .advance false true,
    .ends 0 (.failed .recv 121) (Region.ofList 0 []),
    .take true 0 (.failed .recv 121)]

theorem timesOut_loses_slot :
    ¬ ∀ (inPort inMaxConnections : ℕ) (es : List (IoEvent Bool))
        (w : IoServer PacketSelector PacketId Bool),
      registrations inPort es = [inMaxConnections] →
      run step (start PacketSelector.zeroed 0 fun _ => Region.ofList 0 []) es =
        some w →
      (∀ t, w.workers t = none) →
      ∑ s ∈ w.onPort inPort, (w.sockets s).pending +
          ((w.onPort inPort).filter fun s => (w.sockets s).usable).card =
        inMaxConnections := by
  intro h
  have hrun : run step
      (start PacketSelector.zeroed 0 fun _ => Region.ofList 0 [])
      timesOut = some _ := rfl
  exact absurd (h 80 1 _ _ rfl hrun (by decide)) (by decide)

end

end IoServer

end DokeviNet
