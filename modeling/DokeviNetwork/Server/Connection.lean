import DokeviNetwork.Receive.RecvPacket
import Mathlib.Algebra.Order.Group.Multiset

/-!
# One connection among many threads

`ThreadTask` runs on every IO thread.  For one `TCPSocket` it dequeues a
completion, calls the handler for it, and goes back to the port when the handler
returns; meanwhile other threads do the same for the same socket.  Here a handler
is cut into the steps that other threads can come between, and each step is a
function of the socket alone.

The send half of a socket is in `SendSystem`; here only its completions matter.
-/

namespace DokeviNet

/-- `FOUR_OVERLAPPED::IO_TYPE`, without the type that nothing posts. -/
inductive IoType
  | accept
  | recv
  | send
  deriving DecidableEq

/-- What `GetQueuedCompletionStatus` reports. -/
structure Completion where
  ioType : IoType
  transferredSize : UInt32
  error : Option ℕ
  deriving DecidableEq

/-- Where a thread stands in a handler: the next thing it does. -/
inductive Task
  /-- `ConnectHanadler`: associate the socket with the port. -/
  | connect
  /-- `RecvPacket(0)`: post the first `WSARecv`. -/
  | arm
  /-- Call `ConnectedHandler`. -/
  | greet
  /-- Return from `ConnectedHandler`. -/
  | greeting
  /-- `_clientSize.fetch_add(1)`. -/
  | count
  /-- `RecvPacket`: copy what was received behind `_packetBuf`. -/
  | copy (inSize : UInt32)
  /-- The next pass of the loop of `RecvPacket`. -/
  | parse
  /-- Return from `PacketHandler`. -/
  | handle
  /-- Post the next `WSARecv`. -/
  | repost
  /-- `SendHandler`: run `OnWriteCallback`. -/
  | written
  /-- `ResetSocket`: close the handle. -/
  | close (inGracefulClose : Bool)
  /-- `ReadyAcceptEx` on the port of the closed socket. -/
  | rearm
  /-- Call `DisconnectedHandler`. -/
  | dismiss
  /-- Return from `DisconnectedHandler`. -/
  | dismissing
  /-- `_clientSize.fetch_sub(1)`. -/
  | uncount
  deriving DecidableEq

/-- What has been done for a socket. -/
inductive SocketEvent
  | posted
  | taken (c : Completion)
  | refused
  | associated
  | armed
  | connectedBegins
  | connectedReturns
  | counted
  | packetBegins
  | packetReturns
  | closed
  | rearmed
  | disconnectedBegins
  | disconnectedReturns
  | uncounted
  deriving DecidableEq

namespace Completion

/-- The operation succeeded. -/
def done (ioType : IoType) (transferredSize : UInt32) : Completion :=
  { ioType, transferredSize, error := none }

/-- The operation failed. -/
def failed (ioType : IoType) (err : ℕ) : Completion :=
  { ioType, transferredSize := 0, error := some err }

/-- The handler that `ThreadTask` calls for a completion; a failure with any
error but 64 is only logged. -/
def dispatch (c : Completion) : Option Task :=
  match c.error with
  | some err => if err = 64 then some (.close false) else none
  | none =>
    match c.ioType with
    | .accept => some .connect
    | .recv =>
      if c.transferredSize = 0 then some (.close true)
      else some (.copy c.transferredSize)
    | .send => some .written

/-- The completion goes to `DisconnectHandler`. -/
def closes (c : Completion) : Bool :=
  match c.dispatch with
  | some (.close _) => true
  | _ => false

/-- The completion of an `AcceptEx`. -/
def isAccept (c : Completion) : Bool :=
  c.ioType == .accept

/-- An `AcceptEx` that succeeded. -/
def accepts (c : Completion) : Bool :=
  c.isAccept && c.error.isNone

/-- A receive that failed or brought nothing, or a send that failed. -/
def breaks (c : Completion) : Bool :=
  match c.ioType with
  | .accept => false
  | .recv => c.error.isSome || c.transferredSize == 0
  | .send => c.error.isSome

end Completion

/-- The handler is called with a complete packet in the next pass. -/
def RecvSide.HandsOver (s : RecvSide) : Prop :=
  s.recvStep = .recvBody ∧ s.packetSize ≤ s.recvSize

instance (s : RecvSide) : Decidable s.HandsOver :=
  inferInstanceAs (Decidable (_ ∧ _))

/-- A `TCPSocket` apart from its send half.  `accepting` and `receiving` are the
`AcceptEx` and the `WSARecv` calls outstanding, `queue` the completions of the
socket that no thread has taken off the port.  `delivered`, `appended` and `log`
are history variables. -/
structure TCPSocket where
  port : ℕ
  accepting : Bool
  receiving : ℕ
  queue : List Completion
  recvBuf : Region UInt8
  recv : RecvSide
  delivered : List Chunk
  appended : List Chunk
  log : List SocketEvent

namespace TCPSocket

/-- A socket as `ReadyAcceptEx` leaves it, `accepted` being the outcome of
`AcceptEx`. -/
def ready (inPort : ℕ) (accepted : Bool) (memory : Region UInt8) :
    TCPSocket where
  port := inPort
  accepting := accepted
  receiving := 0
  queue := []
  recvBuf := memory
  recv := RecvSide.start memory 0
  delivered := []
  appended := []
  log := if accepted then [.posted] else []

def note (k : TCPSocket) (e : SocketEvent) : TCPSocket :=
  { k with log := k.log ++ [e] }

/-- Post a `WSARecv`; a failure is only logged. -/
def wsaRecv (accepted : Bool) (k : TCPSocket) : TCPSocket :=
  { k with receiving := k.receiving + if accepted then 1 else 0 }

/-- The `memcpy` of `RecvPacket`. -/
def copyIn (k : TCPSocket) (inSize : UInt32) : TCPSocket :=
  let chunk : Chunk := { data := k.recvBuf, size := inSize }
  { k with
    recv := k.recv.copyIn chunk
    appended := k.appended ++ [chunk] }

/-- The system has filled `_recvBuf`. -/
def fill (k : TCPSocket) (c : Completion) (data : Region UInt8) : TCPSocket :=
  if c.error.isNone ∧ c.transferredSize ≠ 0 then
    { k with
      recvBuf := data
      delivered := k.delivered ++ [{ data, size := c.transferredSize }] }
  else k

/-- An outstanding operation ends and its completion is queued. -/
def ends (k : TCPSocket) (c : Completion) (data : Region UInt8) :
    Option TCPSocket :=
  match c.ioType with
  | .accept =>
    if k.accepting then
      some { k with accepting := false, queue := k.queue ++ [c] }
    else none
  | .recv =>
    if k.receiving = 0 then none
    else
      some { k.fill c data with
        receiving := k.receiving - 1
        queue := k.queue ++ [c] }
  | .send => some { k with queue := k.queue ++ [c] }

/-- A thread takes a completion off the port. -/
def take (k : TCPSocket) (c : Completion) : Option TCPSocket :=
  if c ∈ k.queue then
    some ({ k with queue := k.queue.erase c }.note (.taken c))
  else none

/-- One pass of the loop of `RecvPacket`. -/
def parse (k : TCPSocket) : TCPSocket × Option Task :=
  match k.recv.pass with
  | .again recv => ({ k with recv := recv }, some .parse)
  | .stop recv => ({ k with recv := recv }, some .repost)

/-- The next step of a handler, and what the thread does after it.  `ok` is the
outcome of the system call the step makes, if any. -/
def advance (ok : Bool) (k : TCPSocket) : Task → TCPSocket × Option Task
  | .connect =>
    if ok then (k.note .associated, some .arm) else (k.note .refused, none)
  | .arm => ((k.wsaRecv ok).note .armed, some .greet)
  | .greet => (k.note .connectedBegins, some .greeting)
  | .greeting => (k.note .connectedReturns, some .count)
  | .count => (k.note .counted, none)
  | .copy inSize => (k.copyIn inSize, some .parse)
  | .parse =>
    if k.recv.HandsOver then (k.note .packetBegins, some .handle) else k.parse
  | .handle => (k.note .packetReturns).parse
  | .repost => (k.wsaRecv ok, none)
  | .written => (k, none)
  | .close _ => (k.note .closed, some .rearm)
  | .rearm => (k.note .rearmed, some .dismiss)
  | .dismiss => (k.note .disconnectedBegins, some .dismissing)
  | .dismissing => (k.note .disconnectedReturns, some .uncount)
  | .uncount => (k.note .uncounted, none)

end TCPSocket

/-- What can happen to one socket. -/
inductive SocketStep
  | ends (c : Completion) (data : Region UInt8)
  | take (c : Completion)
  | advance (task : Task) (ok : Bool)

/-- The task of the thread that makes the step. -/
def SocketStep.task : SocketStep → Option Task
  | .advance task _ => some task
  | _ => none

namespace TCPSocket

/-- One step: the socket after it and the task the thread has then. -/
def step (k : TCPSocket) : SocketStep → Option (TCPSocket × Option Task)
  | .ends c data => (k.ends c data).map fun k => (k, none)
  | .take c => (k.take c).map fun k => (k, c.dispatch)
  | .advance task ok => some (k.advance ok task)

theorem countP_erase_add {α : Type*} [DecidableEq α] (p : α → Bool)
    {l : List α} {a : α} (h : a ∈ l) :
    (l.erase a).countP p + (if p a then 1 else 0) = l.countP p := by
  rw [(List.perm_cons_erase h).countP_eq, List.countP_cons]

theorem countP_eq_add {α : Type*} {p q r : α → Bool}
    (h : ∀ a, (if p a then 1 else 0) =
      (if q a then 1 else 0) + if r a then 1 else 0) (l : List α) :
    l.countP p = l.countP q + l.countP r := by
  induction l with
  | nil => rfl
  | cons a l ih =>
      rw [List.countP_cons, List.countP_cons, List.countP_cons, ih, h a]
      omega

/-- The steps of a handler that only leave a mark in the history. -/
inductive Mark : Task → Bool → SocketEvent → Option Task → Prop
  | associated : Mark .connect true .associated (some .arm)
  | refused : Mark .connect false .refused none
  | connectedBegins (ok : Bool) :
      Mark .greet ok .connectedBegins (some .greeting)
  | connectedReturns (ok : Bool) :
      Mark .greeting ok .connectedReturns (some .count)
  | counted (ok : Bool) : Mark .count ok .counted none
  | closed (inGracefulClose ok : Bool) :
      Mark (.close inGracefulClose) ok .closed (some .rearm)
  | rearmed (ok : Bool) : Mark .rearm ok .rearmed (some .dismiss)
  | disconnectedBegins (ok : Bool) :
      Mark .dismiss ok .disconnectedBegins (some .dismissing)
  | disconnectedReturns (ok : Bool) :
      Mark .dismissing ok .disconnectedReturns (some .uncount)
  | uncounted (ok : Bool) : Mark .uncount ok .uncounted none

/-- What a step does to the socket and to the thread. -/
inductive Change (k : TCPSocket) :
    SocketStep → TCPSocket × Option Task → Prop
  | acceptEnds {c : Completion} {data : Region UInt8} (hc : c.ioType = .accept)
      (haccepting : k.accepting = true) :
      Change k (.ends c data)
        ({ k with accepting := false, queue := k.queue ++ [c] }, none)
  | recvEnds {c : Completion} {data : Region UInt8} (hc : c.ioType = .recv)
      (hreceiving : k.receiving ≠ 0) :
      Change k (.ends c data)
        ({ k.fill c data with
            receiving := k.receiving - 1
            queue := k.queue ++ [c] }, none)
  | sendEnds {c : Completion} {data : Region UInt8} (hc : c.ioType = .send) :
      Change k (.ends c data) ({ k with queue := k.queue ++ [c] }, none)
  | take {c : Completion} (hmem : c ∈ k.queue) :
      Change k (.take c)
        ({ k with queue := k.queue.erase c, log := k.log ++ [.taken c] },
          c.dispatch)
  | mark {task : Task} {ok : Bool} {e : SocketEvent} {next : Option Task}
      (hmark : Mark task ok e next) :
      Change k (.advance task ok) (k.note e, next)
  | arm {ok : Bool} :
      Change k (.advance .arm ok) ((k.wsaRecv ok).note .armed, some .greet)
  | copy {ok : Bool} {inSize : UInt32} :
      Change k (.advance (.copy inSize) ok) (k.copyIn inSize, some .parse)
  | handsOver {ok : Bool} (hhands : k.recv.HandsOver) :
      Change k (.advance .parse ok) (k.note .packetBegins, some .handle)
  | pass {ok : Bool} {recv : RecvSide} {next : Task}
      (hhands : ¬ k.recv.HandsOver) (hnext : next = .parse ∨ next = .repost) :
      Change k (.advance .parse ok) ({ k with recv := recv }, some next)
  | returns {ok : Bool} {recv : RecvSide} {next : Task}
      (hnext : next = .parse ∨ next = .repost) :
      Change k (.advance .handle ok)
        ({ k.note .packetReturns with recv := recv }, some next)
  | repost {ok : Bool} :
      Change k (.advance .repost ok) (k.wsaRecv ok, none)
  | written {ok : Bool} : Change k (.advance .written ok) (k, none)

theorem parse_eq (k : TCPSocket) : ∃ recv next,
    k.parse = ({ k with recv := recv }, some next) ∧
      (next = .parse ∨ next = .repost) := by
  unfold parse
  split
  · exact ⟨_, _, rfl, Or.inl rfl⟩
  · exact ⟨_, _, rfl, Or.inr rfl⟩

theorem change_of_step {k : TCPSocket} {l : SocketStep}
    {next : TCPSocket × Option Task} (hstep : k.step l = some next) :
    Change k l next := by
  cases l with
  | ends c data =>
      obtain ⟨k', hends, rfl⟩ := Option.map_eq_some_iff.mp hstep
      unfold ends at hends
      split at hends
      · next hc =>
          split at hends
          · next haccepting =>
              obtain rfl := Option.some.inj hends
              exact Change.acceptEnds hc haccepting
          · cases hends
      · next hc =>
          split at hends
          · cases hends
          · next hreceiving =>
              obtain rfl := Option.some.inj hends
              exact Change.recvEnds hc hreceiving
      · next hc =>
          obtain rfl := Option.some.inj hends
          exact Change.sendEnds hc
  | take c =>
      obtain ⟨k', htake, rfl⟩ := Option.map_eq_some_iff.mp hstep
      unfold TCPSocket.take at htake
      split at htake
      · next hmem =>
          obtain rfl := Option.some.inj htake
          exact Change.take hmem
      · cases htake
  | advance task ok =>
      obtain rfl := Option.some.inj hstep
      cases task with
      | connect =>
          cases ok with
          | true => exact Change.mark Mark.associated
          | false => exact Change.mark Mark.refused
      | parse =>
          simp only [advance]
          split
          · next hhands => exact Change.handsOver hhands
          · next hhands =>
              obtain ⟨recv, next, heq, hnext⟩ := k.parse_eq
              rw [heq]
              exact Change.pass hhands hnext
      | handle =>
          obtain ⟨recv, next, heq, hnext⟩ := (k.note .packetReturns).parse_eq
          rw [advance, heq]
          exact Change.returns hnext
      | arm => exact Change.arm
      | copy inSize => exact Change.copy
      | repost => exact Change.repost
      | written => exact Change.written
      | greet => exact Change.mark (Mark.connectedBegins ok)
      | greeting => exact Change.mark (Mark.connectedReturns ok)
      | count => exact Change.mark (Mark.counted ok)
      | close inGracefulClose => exact Change.mark (Mark.closed inGracefulClose ok)
      | rearm => exact Change.mark (Mark.rearmed ok)
      | dismiss => exact Change.mark (Mark.disconnectedBegins ok)
      | dismissing => exact Change.mark (Mark.disconnectedReturns ok)
      | uncount => exact Change.mark (Mark.uncounted ok)

/-- What a step adds to the history. -/
def noted (k : TCPSocket) : SocketStep → Option SocketEvent
  | .ends _ _ => none
  | .take c => some (.taken c)
  | .advance .connect ok => some (if ok then .associated else .refused)
  | .advance .arm _ => some .armed
  | .advance .greet _ => some .connectedBegins
  | .advance .greeting _ => some .connectedReturns
  | .advance .count _ => some .counted
  | .advance (.copy _) _ => none
  | .advance .parse _ => if k.recv.HandsOver then some .packetBegins else none
  | .advance .handle _ => some .packetReturns
  | .advance .repost _ => none
  | .advance .written _ => none
  | .advance (.close _) _ => some .closed
  | .advance .rearm _ => some .rearmed
  | .advance .dismiss _ => some .disconnectedBegins
  | .advance .dismissing _ => some .disconnectedReturns
  | .advance .uncount _ => some .uncounted

@[simp] theorem fill_log (k : TCPSocket) (c : Completion)
    (data : Region UInt8) : (k.fill c data).log = k.log := by
  unfold fill
  split <;> rfl

@[simp] theorem fill_accepting (k : TCPSocket) (c : Completion)
    (data : Region UInt8) : (k.fill c data).accepting = k.accepting := by
  unfold fill
  split <;> rfl

/-- Where an event of the history comes from. -/
inductive Notes (k : TCPSocket) : SocketStep → SocketEvent → Prop
  | taken (c : Completion) : Notes k (.take c) (.taken c)
  | mark {task : Task} {ok : Bool} {e : SocketEvent} {next : Option Task}
      (hmark : Mark task ok e next) : Notes k (.advance task ok) e
  | armed (ok : Bool) : Notes k (.advance .arm ok) .armed
  | packetBegins (ok : Bool) (hhands : k.recv.HandsOver) :
      Notes k (.advance .parse ok) .packetBegins
  | packetReturns (ok : Bool) : Notes k (.advance .handle ok) .packetReturns

theorem notes_of_noted {k : TCPSocket} {l : SocketStep} {e : SocketEvent}
    (h : k.noted l = some e) : Notes k l e := by
  cases l with
  | ends c data => cases h
  | take c =>
      obtain rfl := Option.some.inj h
      exact Notes.taken c
  | advance task ok =>
      cases task with
      | parse =>
          simp only [noted] at h
          split at h
          · next hhands =>
              obtain rfl := Option.some.inj h
              exact Notes.packetBegins ok hhands
          · cases h
      | connect =>
          cases ok <;> obtain rfl := Option.some.inj h <;>
            exact Notes.mark (by constructor)
      | arm =>
          obtain rfl := Option.some.inj h
          exact Notes.armed ok
      | handle =>
          obtain rfl := Option.some.inj h
          exact Notes.packetReturns ok
      | copy | repost | written => cases h
      | greet | greeting | count | close | rearm | dismiss | dismissing
      | uncount =>
          obtain rfl := Option.some.inj h
          exact Notes.mark (by constructor)

theorem noted_ne_posted (k : TCPSocket) (l : SocketStep) :
    k.noted l ≠ some .posted := by
  intro h
  cases notes_of_noted h with
  | mark hmark => cases hmark

theorem log_step {k : TCPSocket} {l : SocketStep}
    {next : TCPSocket × Option Task} (hstep : k.step l = some next) :
    next.1.log = k.log ++ (k.noted l).toList := by
  cases change_of_step hstep with
  | mark hmark => cases hmark <;> simp [noted, note]
  | handsOver hhands => simp [noted, hhands, note]
  | pass hhands _ => simp [noted, hhands]
  | acceptEnds | sendEnds | recvEnds | take | arm | copy | returns | repost
  | written => simp [noted, note, wsaRecv, copyIn]

end TCPSocket

end DokeviNet
