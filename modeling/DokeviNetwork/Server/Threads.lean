import DokeviNetwork.SendQueue.Effect
import DokeviNetwork.Server.Connection

/-!
# The server with its IO threads

Any number of IO threads take completions off one port, in any order, and run the
handlers step by step.  Sockets are numbered in the order in which `ReadyAcceptEx`
creates them.
-/

namespace DokeviNet

/-- The server.  `io` holds the packet pools and the send halves of the sockets,
`workers` what each IO thread is doing, `memory` what the buffers of each socket
hold when they are allocated. -/
structure IoServer (H P τ : Type*) where
  io : SendSystem H P ℕ
  sockets : ℕ → TCPSocket
  created : ℕ
  listenPorts : List ℕ
  workers : τ → Option (ℕ × Task)
  clientSize : ℤ
  memory : ℕ → Region UInt8

/-- What happens next: the application registers a port or sends, the system
reads what a `WSASend` was given or ends an operation, a thread takes a completion
off the port or makes its next step. -/
inductive IoEvent (τ : Type*)
  | setListenPort (inPort : ℕ) (accepted : List Bool)
  | send (accepted : Bool) (s : ℕ) (inData : Region UInt8) (inLen : UInt32)
      (inImmediateSend : Bool)
  | transmit (s : ℕ)
  | ends (s : ℕ) (c : Completion) (data : Region UInt8)
  | take (t : τ) (s : ℕ) (c : Completion)
  | advance (t : τ) (ok : Bool)

namespace SendSystem

variable {H P : Type*}

/-- The first `WSASend` of a socket ends, with success or not. -/
def ends (w : SendSystem H P ℕ) (s : ℕ) (c : Completion) :
    Option (SendSystem H P ℕ) :=
  match (w.sockets s).posted with
  | [] => none
  | post :: posts =>
    if c.error.isSome then
      some { w with
        sockets := Function.update w.sockets s
          { w.sockets s with posted := posts } }
    else
      post.transmitted.map fun bytes =>
        { w with
          sockets := Function.update w.sockets s
            { w.sockets s with
              posted := posts
              wire := (w.sockets s).wire ++ bytes } }

end SendSystem

namespace IoServer

variable {H P τ : Type*}

/-- The server before `SetListenPort`.  No code sets `_clientSize`. -/
def start (pools : H) (clientSize : ℤ) (memory : ℕ → Region UInt8) :
    IoServer H P τ where
  io := SendSystem.start pools
  sockets s := TCPSocket.ready 0 false (memory s)
  created := 0
  listenPorts := []
  workers _ := none
  clientSize := clientSize
  memory := memory

/-- `ReadyAcceptEx`, `accepted` being the outcome of `AcceptEx`. -/
def readyAcceptEx (w : IoServer H P τ) (inPort : ℕ) (accepted : Bool) :
    IoServer H P τ :=
  if inPort ∈ w.listenPorts then
    { w with
      created := w.created + 1
      sockets := Function.update w.sockets w.created
        (TCPSocket.ready inPort accepted (w.memory w.created)) }
  else w

/-- `SetListenPort` with one outcome of `AcceptEx` for each of its
`inMaxConnections` calls. -/
def setListenPort (w : IoServer H P τ) (inPort : ℕ) (accepted : List Bool) :
    IoServer H P τ :=
  accepted.foldl (fun w accepted => w.readyAcceptEx inPort accepted)
    { w with listenPorts := inPort :: w.listenPorts }

/-- A socket, the worker of one thread, and what goes with them. -/
def after [DecidableEq τ] (w : IoServer H P τ) (t : τ) (s : ℕ)
    (next : TCPSocket × Option Task) : IoServer H P τ :=
  { w with
    sockets := Function.update w.sockets s next.1
    workers := Function.update w.workers t (next.2.map fun task => (s, task)) }

theorem after_sockets_self [DecidableEq τ] (w : IoServer H P τ) (t : τ) (s : ℕ)
    (next : TCPSocket × Option Task) :
    (w.after t s next).sockets s = next.1 := by
  simp [after]

theorem after_sockets_of_ne [DecidableEq τ] (w : IoServer H P τ) (t : τ)
    {s other : ℕ} (next : TCPSocket × Option Task) (hne : other ≠ s) :
    (w.after t s next).sockets other = w.sockets other := by
  simp [after, hne]

theorem after_listenPorts [DecidableEq τ] (w : IoServer H P τ) (t : τ) (s : ℕ)
    (next : TCPSocket × Option Task) :
    (w.after t s next).listenPorts = w.listenPorts := rfl

theorem after_workers [DecidableEq τ] (w : IoServer H P τ) (t : τ) (s : ℕ)
    (next : TCPSocket × Option Task) :
    (w.after t s next).workers =
      Function.update w.workers t (next.2.map fun task => (s, task)) := rfl

variable [PacketPools H P] [DecidableEq P] [DecidableEq τ]

/-- The next step of thread `t`, whose task on `s` is `task`. -/
def advance (w : IoServer H P τ) (t : τ) (s : ℕ) (task : Task) (ok : Bool) :
    Option (IoServer H P τ) :=
  let w' := w.after t s ((w.sockets s).advance ok task)
  match task with
  | .count => some { w' with clientSize := w.clientSize + 1 }
  | .uncount => some { w' with clientSize := w.clientSize - 1 }
  | .rearm => some (w'.readyAcceptEx (w.sockets s).port ok)
  | .written =>
    (w.io.onWriteCallback ok s).map fun io => { w' with io := io }
  | _ => some w'

def step (w : IoServer H P τ) : IoEvent τ → Option (IoServer H P τ)
  | .setListenPort inPort accepted => some (w.setListenPort inPort accepted)
  | .send accepted s inData inLen inImmediateSend =>
    if s < w.created then
      (w.io.send accepted s inData inLen inImmediateSend).map fun io =>
        { w with io := io }
    else none
  | .transmit s => (w.io.transmit s).map fun io => { w with io := io }
  | .ends s c data =>
    if s < w.created then
      ((w.sockets s).ends c data).bind fun k =>
        (if c.ioType = .send then w.io.ends s c else some w.io).map fun io =>
          { w with io := io, sockets := Function.update w.sockets s k }
    else none
  | .take t s c =>
    if s < w.created ∧ (w.workers t).isNone then
      ((w.sockets s).take c).map fun k => w.after t s (k, c.dispatch)
    else none
  | .advance t ok =>
    match w.workers t with
    | none => none
    | some (s, task) => w.advance t s task ok

end IoServer

end DokeviNet
