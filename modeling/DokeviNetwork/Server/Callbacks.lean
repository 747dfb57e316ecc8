import DokeviNetwork.Server.Closings

/-!
# The order of the callbacks of a client

A client is to be told first that it is connected, then of its packets, and last
that it is disconnected.  Nothing in `ThreadTask` keeps two threads from calling
one client at once; where nothing closes a socket and no packet is handed over
before `ConnectedHandler` has returned, and no failed send closes it meanwhile, the
order is kept.
-/

namespace DokeviNet

open LabelledRun Workers

/-- A call of the application by a handler, or the return of `ConnectedHandler`. -/
def SocketEvent.isCallback : SocketEvent → Bool
  | .connectedBegins | .connectedReturns | .packetBegins
  | .disconnectedBegins => true
  | _ => false

/-! ## What a client may be told -/

/-- What a client has been told last. -/
inductive Session
  | start
  | greeting
  | greeted
  | dismissed

namespace Session

/-- What a client may be told next. -/
def next : Session → SocketEvent → Option Session
  | .start, .connectedBegins => some .greeting
  | .greeting, .connectedReturns => some .greeted
  | .greeted, .packetBegins => some .greeted
  | .greeted, .disconnectedBegins => some .dismissed
  | _, _ => none

/-- `ConnectedHandler`, then any number of packets, then `DisconnectedHandler`, or
the first of these callbacks. -/
def InOrder (callbacks : List SocketEvent) : Prop :=
  ∃ packets, callbacks <+: [.connectedBegins, .connectedReturns] ++
    List.replicate packets .packetBegins ++ [.disconnectedBegins]

theorem not_inOrder_of_packet (callbacks : List SocketEvent) :
    ¬ InOrder (.packetBegins :: callbacks) := by
  rintro ⟨packets, hprefix⟩
  cases (List.cons_prefix_cons.mp hprefix).1

/-- The callbacks that lead to a state of the session. -/
def Reaches (callbacks : List SocketEvent) : Session → Prop
  | .start => callbacks = []
  | .greeting => callbacks = [.connectedBegins]
  | .greeted => ∃ packets, callbacks =
      [.connectedBegins, .connectedReturns] ++
        List.replicate packets .packetBegins
  | .dismissed => ∃ packets, callbacks =
      [.connectedBegins, .connectedReturns] ++
        List.replicate packets .packetBegins ++ [.disconnectedBegins]

theorem Reaches.next {callbacks : List SocketEvent} {s s' : Session}
    {e : SocketEvent} (h : Reaches callbacks s) (hnext : s.next e = some s') :
    Reaches (callbacks ++ [e]) s' := by
  cases s <;> cases e <;> cases hnext
  · exact congrArg (· ++ [_]) h
  · exact ⟨0, congrArg (· ++ [_]) h⟩
  · obtain ⟨packets, rfl⟩ := h
    refine ⟨packets + 1, ?_⟩
    rw [List.replicate_succ', List.append_assoc]
  · obtain ⟨packets, rfl⟩ := h
    exact ⟨packets, rfl⟩

theorem reaches_of_run {callbacks : List SocketEvent} {s : Session}
    (hrun : run next .start callbacks = some s) : Reaches callbacks s := by
  have hinit : Reaches [] .start := rfl
  have halong : Along next (fun _ _ => True) .start callbacks :=
    along_of_forall fun _ _ _ => trivial
  exact history_of_along (fun _ _ _ _ h _ hnext => h.next hnext) hinit halong
    hrun

theorem Reaches.inOrder {callbacks : List SocketEvent} {s : Session}
    (h : Reaches callbacks s) : InOrder callbacks := by
  cases s with
  | start => exact ⟨0, h ▸ List.nil_prefix⟩
  | greeting => exact ⟨0, h ▸ List.prefix_append _ _⟩
  | greeted =>
      obtain ⟨packets, rfl⟩ := h
      exact ⟨packets, List.prefix_append _ _⟩
  | dismissed =>
      obtain ⟨packets, rfl⟩ := h
      exact ⟨packets, List.prefix_rfl⟩

section

variable {callbacks : List SocketEvent} {s : Session}

theorem Reaches.eq_start (h : Reaches callbacks s)
    (hbegins : .connectedBegins ∉ callbacks) : s = .start := by
  cases s with
  | start => rfl
  | greeting =>
      obtain rfl := h
      simp at hbegins
  | greeted | dismissed =>
      obtain ⟨packets, rfl⟩ := h
      simp at hbegins

theorem Reaches.eq_greeting (h : Reaches callbacks s)
    (hbegins : .connectedBegins ∈ callbacks)
    (hreturns : .connectedReturns ∉ callbacks) : s = .greeting := by
  cases s with
  | start =>
      obtain rfl := h
      cases hbegins
  | greeting => rfl
  | greeted | dismissed =>
      obtain ⟨packets, rfl⟩ := h
      simp at hreturns

theorem Reaches.eq_greeted (h : Reaches callbacks s)
    (hreturns : .connectedReturns ∈ callbacks)
    (hdismissed : .disconnectedBegins ∉ callbacks) : s = .greeted := by
  cases s with
  | start | greeting =>
      obtain rfl := h
      simp at hreturns
  | greeted => rfl
  | dismissed =>
      obtain ⟨packets, rfl⟩ := h
      simp at hdismissed

end

end Session

/-! ## What the client of a socket is told -/

/-- The thread handles a receive that brought something. -/
def Task.handlesReceive : Task → Bool
  | .parse | .handle | .repost | .copy _ => true
  | _ => false

/-- The thread is about to call `ConnectedHandler`, or calls it. -/
def Task.greets : Task → Bool
  | .greet | .greeting => true
  | _ => false

theorem Task.not_busy_of_not_greets {task : Task} (h : task.greets = false) :
    Stage.greet.busy task = false ∧ Stage.greeting.busy task = false := by
  cases task with
  | greet | greeting => cases h
  | _ => exact ⟨rfl, rfl⟩

namespace TCPSocket

/-- The callbacks in the history of a socket. -/
def callbacks (k : TCPSocket) : List SocketEvent :=
  k.log.filter SocketEvent.isCallback

/-- The condition: a completion that goes to `DisconnectHandler` is taken after
`ConnectedHandler` has returned, and is alone in this if it is a failed send; no
packet is handed over after such a send, or while a thread is at
`ConnectedHandler`. -/
def TakesTurns (k : TCPSocket) (tasks : Multiset Task) : SocketStep → Prop
  | .ends _ _ => True
  | .take c => c.closes = true → k.ClosesAlone c ∧ .connectedReturns ∈ k.log
  | .advance task _ => task = .parse → k.recv.HandsOver →
    k.sendClosed = false ∧ ∀ other ∈ tasks, other.greets = false

instance (k : TCPSocket) (tasks : Multiset Task) :
    ∀ l, Decidable (k.TakesTurns tasks l)
  | .ends _ _ => inferInstanceAs (Decidable True)
  | .take c => inferInstanceAs (Decidable (c.closes = true →
      k.ClosesAlone c ∧ .connectedReturns ∈ k.log))
  | .advance task _ =>
    inferInstanceAs (Decidable (task = .parse → k.recv.HandsOver →
      k.sendClosed = false ∧ ∀ other ∈ tasks, other.greets = false))

/-- A `WSARecv` is outstanding, or its completion is queued or handled. -/
def Receiving (k : TCPSocket) (tasks : Multiset Task) : Prop :=
  k.receiving ≠ 0 ∨ (∃ c ∈ k.queue, c.ioType = .recv) ∨
    ∃ task ∈ tasks, task.handlesReceive = true

theorem ioType_of_handlesReceive {c : Completion} {task : Task}
    (hdispatch : c.dispatch = some task)
    (htask : task.handlesReceive = true) : c.ioType = .recv := by
  unfold Completion.dispatch at hdispatch
  split at hdispatch
  · split at hdispatch
    · obtain rfl := Option.some.inj hdispatch
      cases htask
    · cases hdispatch
  · split at hdispatch
    · obtain rfl := Option.some.inj hdispatch
      cases htask
    · assumption
    · obtain rfl := Option.some.inj hdispatch
      cases htask

theorem receiving_ofOption_add {k : TCPSocket} {task : Option Task}
    {rest : Multiset Task} :
    Receiving k (ofOption task + rest) ↔
      Receiving k rest ∨ task.any Task.handlesReceive = true := by
  have hmem : (∃ other ∈ ofOption task + rest, other.handlesReceive = true) ↔
      task.any Task.handlesReceive = true ∨
        ∃ other ∈ rest, other.handlesReceive = true := by
    cases task <;> simp
  unfold Receiving
  rw [hmem, @or_comm (task.any _ = true), or_assoc, or_assoc]

/-- The first `WSARecv` is posted by `ConnectHanadler`, every other one by a handler
of a receive. -/
theorem receiving_step {k : TCPSocket} {l : SocketStep}
    {next : TCPSocket × Option Task} {rest : Multiset Task}
    (hstep : k.step l = some next)
    (hafter : Receiving next.1 (ofOption next.2 + rest)) :
    Receiving k (ofOption l.task + rest) ∨ .armed ∈ next.1.log := by
  rw [receiving_ofOption_add] at hafter ⊢
  have hhandles : ∀ task, l.task = some task → task.handlesReceive = true →
      (Receiving k rest ∨ l.task.any Task.handlesReceive = true) ∨
        .armed ∈ next.1.log := by
    intro task hl htask
    exact Or.inl (Or.inr (by rw [hl]; exact htask))
  cases change_of_step hstep with
  | acceptEnds hc _ | sendEnds hc =>
      left; left
      simpa [Receiving, hc, or_and_right, exists_or] using hafter
  | recvEnds _ hreceiving => exact Or.inl (Or.inl (Or.inl hreceiving))
  | @take c hmem =>
      left; left
      rcases hafter with (hreceiving | ⟨other, hother, hrecv⟩ | hrest) | hnew
      · exact Or.inl hreceiving
      · exact Or.inr (Or.inl ⟨other, List.mem_of_mem_erase hother, hrecv⟩)
      · exact Or.inr (Or.inr hrest)
      · obtain ⟨task, hdispatch, htask⟩ := (Option.any_eq_true _ _).mp hnew
        exact Or.inr (Or.inl
          ⟨c, hmem, ioType_of_handlesReceive hdispatch htask⟩)
  | mark hmark =>
      left; left
      rcases hafter with hrest | hnew
      · exact hrest
      · cases hmark <;> cases hnew
  | arm => exact Or.inr (by simp [note])
  | copy | handsOver | pass | returns | repost => exact hhandles _ rfl rfl
  | written =>
      left; left
      rcases hafter with hrest | hnew
      · exact hrest
      · cases hnew

/-- The callbacks are made by their handlers. -/
theorem noted_callback {k : TCPSocket} {l : SocketStep} {e : SocketEvent}
    (hnoted : k.noted l = some e) (he : e.isCallback = true) :
    (e = .connectedBegins ∧ l.task = some .greet) ∨
      (e = .connectedReturns ∧ l.task = some .greeting) ∨
      (e = .packetBegins ∧ k.recv.HandsOver ∧ ∃ ok, l = .advance .parse ok) ∨
      (e = .disconnectedBegins ∧ l.task = some .dismiss) := by
  cases notes_of_noted hnoted with
  | taken => cases he
  | mark hmark =>
      cases hmark with
      | connectedBegins => exact Or.inl ⟨rfl, rfl⟩
      | connectedReturns => exact Or.inr (Or.inl ⟨rfl, rfl⟩)
      | disconnectedBegins => exact Or.inr (Or.inr (Or.inr ⟨rfl, rfl⟩))
      | _ => cases he
  | armed => cases he
  | packetBegins ok hhands =>
      exact Or.inr (Or.inr (Or.inl ⟨rfl, hhands, ok, rfl⟩))
  | packetReturns => cases he

/-- What the steps of a socket keep under the condition. -/
structure Ordered (k : TCPSocket) (tasks : Multiset Task) : Prop
    extends ClosedAfter .connectedReturns k tasks where
  received : k.Receiving tasks → .armed ∈ k.log
  session : ∃ s, run Session.next .start k.callbacks = some s

theorem ordered_ready (inPort : ℕ) (accepted : Bool) (memory : Region UInt8) :
    Ordered (ready inPort accepted memory) 0 := by
  refine ⟨closedAfter_ready .connectedReturns inPort accepted memory, ?_, ?_⟩
  · rintro (hreceiving | ⟨c, hmem, _⟩ | ⟨task, hmem, _⟩)
    · exact absurd rfl hreceiving
    · cases hmem
    · simp at hmem
  · cases accepted <;> exact ⟨.start, rfl⟩

section

variable {k : TCPSocket} {rest : Multiset Task} {s : Session}

theorem mem_callbacks {e : SocketEvent} (he : e.isCallback = true) :
    e ∈ k.callbacks ↔ e ∈ k.log := by
  simp [callbacks, he]

/-- A thread in a stage has not left it yet. -/
theorem Balanced.left_lt {task : Task} (h : Balanced k ({task} + rest))
    {stage : Stage} (hbusy : stage.busy task = true) :
    k.log.countP stage.left < k.log.countP stage.entered := by
  have hstage := h stage
  rw [← ofOption_some, Multiset.countP_add, countP_ofOption, Option.any_some,
    if_pos hbusy] at hstage
  omega

/-- Where no thread is in a stage, all that entered it has left it. -/
theorem Balanced.left_eq {tasks : Multiset Task} (h : Balanced k tasks)
    {stage : Stage} (hfree : ∀ task ∈ tasks, stage.busy task = false) :
    k.log.countP stage.entered = k.log.countP stage.left := by
  have hnone : tasks.countP (fun task => stage.busy task = true) = 0 := by
    rw [Multiset.countP_eq_zero]
    intro task hmem
    rw [hfree task hmem]
    exact Bool.false_ne_true
  rw [h stage, hnone, Nat.add_zero]

theorem Staged.not_greeted (h : Staged k ({.greet} + rest)) :
    .connectedBegins ∉ k.log := by
  have hleft : k.log.count .connectedBegins < k.log.count .armed :=
    @Balanced.left_lt _ _ _ h.balanced .greet rfl
  have harmed := h.balanced.armed_le
  have hone := h.accepts_le
  rw [← List.count_eq_zero]
  omega

theorem Staged.greeting (h : Staged k ({.greeting} + rest)) :
    .connectedBegins ∈ k.log ∧ .connectedReturns ∉ k.log := by
  have hleft : k.log.count .connectedReturns < k.log.count .connectedBegins :=
    @Balanced.left_lt _ _ _ h.balanced .greeting rfl
  have hgreet : k.log.count .armed = k.log.count .connectedBegins + _ :=
    h.balanced .greet
  have harmed := h.balanced.armed_le
  have hone := h.accepts_le
  rw [← List.count_eq_zero, ← List.count_pos_iff]
  omega

theorem Ordered.not_dismissed (h : Ordered k ({.dismiss} + rest)) :
    .connectedReturns ∈ k.log ∧ .disconnectedBegins ∉ k.log := by
  have hleft : k.log.count .disconnectedBegins < k.log.count .rearmed :=
    @Balanced.left_lt _ _ _ h.balanced .dismiss rfl
  have hrearm : k.log.count .closed = k.log.count .rearmed + _ :=
    h.balanced .rearm
  have hclosed := h.balanced.closed_le
  have honce := h.once
  refine ⟨h.after (by omega), ?_⟩
  rw [← List.count_eq_zero]
  omega

/-- A connection that receives has been told so, unless a thread is about to. -/
theorem Ordered.returned {tasks : Multiset Task} (h : Ordered k tasks)
    (hreceiving : k.Receiving tasks)
    (hgreets : ∀ task ∈ tasks, task.greets = false) :
    .connectedReturns ∈ k.log := by
  have hgreet : k.log.count .armed = k.log.count .connectedBegins :=
    @Balanced.left_eq _ _ h.balanced .greet fun task hmem =>
      (Task.not_busy_of_not_greets (hgreets task hmem)).1
  have hgreeting : k.log.count .connectedBegins =
      k.log.count .connectedReturns :=
    @Balanced.left_eq _ _ h.balanced .greeting fun task hmem =>
      (Task.not_busy_of_not_greets (hgreets task hmem)).2
  have harmed := List.count_pos_iff.mpr (h.received hreceiving)
  rw [← List.count_pos_iff]
  omega

end

theorem callbacks_step {k : TCPSocket} {l : SocketStep}
    {next : TCPSocket × Option Task} (hstep : k.step l = some next) :
    next.1.callbacks =
      k.callbacks ++ (k.noted l).toList.filter SocketEvent.isCallback := by
  rw [callbacks, log_step hstep, List.filter_append, callbacks]

/-- The session takes every callback that a step makes. -/
theorem Ordered.next {k : TCPSocket} {l : SocketStep} {rest : Multiset Task}
    {s : Session} {e : SocketEvent} (h : Ordered k (ofOption l.task + rest))
    (hallows : k.TakesTurns (ofOption l.task + rest) l)
    (hreaches : Session.Reaches k.callbacks s) (hnoted : k.noted l = some e)
    (he : e.isCallback = true) : ∃ s', s.next e = some s' := by
  rcases noted_callback hnoted he with ⟨rfl, hl⟩ | ⟨rfl, hl⟩ |
    ⟨rfl, hhands, ok, rfl⟩ | ⟨rfl, hl⟩
  · rw [hl] at h
    obtain rfl := hreaches.eq_start
      (mt (mem_callbacks rfl).mp h.not_greeted)
    exact ⟨.greeting, rfl⟩
  · rw [hl] at h
    obtain ⟨hbegins, hreturns⟩ := h.greeting
    obtain rfl := hreaches.eq_greeting ((mem_callbacks rfl).mpr hbegins)
      (mt (mem_callbacks rfl).mp hreturns)
    exact ⟨.greeted, rfl⟩
  · obtain ⟨hopen, hgreets⟩ := hallows rfl hhands
    have hreturns := h.returned
      (Or.inr (Or.inr ⟨.parse, by simp [SocketStep.task], rfl⟩)) hgreets
    have hdismissed : .disconnectedBegins ∉ k.log := by
      have hle := h.balanced.dismissed_le
      rw [h.closings_eq_zero (tokens_pos_of_task rfl) hopen] at hle
      exact List.count_eq_zero.mp (Nat.le_zero.mp hle)
    obtain rfl := hreaches.eq_greeted ((mem_callbacks rfl).mpr hreturns)
      (mt (mem_callbacks rfl).mp hdismissed)
    exact ⟨.greeted, rfl⟩
  · rw [hl] at h
    obtain ⟨hreturns, hdismissed⟩ := h.not_dismissed
    obtain rfl := hreaches.eq_greeted ((mem_callbacks rfl).mpr hreturns)
      (mt (mem_callbacks rfl).mp hdismissed)
    exact ⟨.dismissed, rfl⟩

theorem Ordered.step {k : TCPSocket} {l : SocketStep}
    {next : TCPSocket × Option Task} {rest : Multiset Task}
    (h : Ordered k (ofOption l.task + rest))
    (hallows : k.TakesTurns (ofOption l.task + rest) l)
    (hstep : k.step l = some next) :
    Ordered next.1 (ofOption next.2 + rest) := by
  have htake : ∀ c, l = .take c → c.closes = true →
      k.ClosesAlone c ∧ .connectedReturns ∈ k.log := by
    rintro c rfl hc
    exact hallows hc
  refine ⟨h.toClosedAfter.step htake hstep, ?_, ?_⟩
  · intro hafter
    rcases receiving_step hstep hafter with hbefore | harmed
    · exact mem_log_step hstep (h.received hbefore)
    · exact harmed
  · obtain ⟨s, hrun⟩ := h.session
    rw [callbacks_step hstep, run_append, hrun]
    cases hnoted : k.noted l with
    | none => exact ⟨s, rfl⟩
    | some e =>
        cases he : e.isCallback with
        | false => exact ⟨s, by simp [he]⟩
        | true =>
            obtain ⟨s', hnext⟩ :=
              h.next hallows (Session.reaches_of_run hrun) hnoted he
            exact ⟨s', by simp [he, hnext]⟩

end TCPSocket

namespace IoServer

variable {H P τ : Type*} [Fintype τ] [DecidableEq τ] [PacketPools H P]
  [DecidableEq P]

/-- While the threads that serve one connection take turns, its client is called in
order. -/
theorem inOrder_of_run {pools : H} {clientSize : ℤ}
    {memory : ℕ → Region UInt8} {es : List (IoEvent τ)} {w : IoServer H P τ}
    (halong : Along step (Meets (fun _ => True) TCPSocket.TakesTurns)
      (start pools clientSize memory) es)
    (hrun : run step (start pools clientSize memory) es = some w) {s : ℕ}
    (hs : s < w.created) : Session.InOrder (w.sockets s).callbacks := by
  have hevery : EverySocket TCPSocket.Ordered w :=
    everySocket_of_run (fun _ _ _ _ => TCPSocket.ordered_ready _ _ _)
      (fun _ _ _ _ h hallows hstep => h.step hallows hstep) halong hrun
  obtain ⟨_, hsession⟩ := (hevery.socket s hs).session
  exact (Session.reaches_of_run hsession).inOrder

/-- A peer connects, sends one packet and closes its connection. -/
def onePacket : List (IoEvent Bool) :=
  [.setListenPort 80 [true],
    .ends 0 (.done .accept 0) (Region.ofList 0 []),
    .take false 0 (.done .accept 0), .advance false true, .advance false true,
    .advance false true, .advance false true, .advance false true,
    .ends 0 (.done .recv 5) (Region.ofList 0 [5, 0, 0, 0, 7]),
    .take true 0 (.done .recv 5), .advance true true, .advance true true,
    .advance true true, .advance true true, .advance true true,
    .ends 0 (.done .recv 0) (Region.ofList 0 []), .take true 0 (.done .recv 0),
    .advance true true, .advance true true, .advance true true]

theorem inOrder_of_run_onePacket :
    ∃ w, run step (start PacketSelector.zeroed 0 fun _ => Region.ofList 0 [])
        onePacket = some w ∧
      (w.sockets 0).callbacks = [.connectedBegins, .connectedReturns,
        .packetBegins, .disconnectedBegins] ∧
      Session.InOrder (w.sockets 0).callbacks := by
  have hrun : run step
      (start PacketSelector.zeroed 0 fun _ => Region.ofList 0 [])
      onePacket = some _ := rfl
  exact ⟨_, hrun, by decide, inOrder_of_run (by decide) hrun (by decide)⟩

/-- The first packet arrives as soon as the first `WSARecv` is posted, and a second
thread hands it over before the first thread has called `ConnectedHandler`. -/
def packetBeforeConnected : List (IoEvent Bool) :=
  [.setListenPort 80 [true],
    .ends 0 (.done .accept 0) (Region.ofList 0 []),
    .take false 0 (.done .accept 0), .advance false true, .advance false true,
    .ends 0 (.done .recv 5) (Region.ofList 0 [5, 0, 0, 0, 7]),
    .take true 0 (.done .recv 5), .advance true true, .advance true true,
    .advance true true]

theorem packetBeforeConnected_out_of_order :
    ¬ ∀ (es : List (IoEvent Bool))
        (w : IoServer PacketSelector PacketId Bool),
      run step (start PacketSelector.zeroed 0 fun _ => Region.ofList 0 []) es =
        some w →
      ∀ s < w.created, Session.InOrder (w.sockets s).callbacks := by
  intro h
  have hrun : run step
      (start PacketSelector.zeroed 0 fun _ => Region.ofList 0 [])
      packetBeforeConnected = some _ := rfl
  exact Session.not_inOrder_of_packet [] (h _ _ hrun 0 (by decide))

end IoServer

end DokeviNet
