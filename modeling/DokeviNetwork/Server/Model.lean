import DokeviNetwork.SendQueue.Effect

/-!
# The server and its completions

`DokeviServer::ThreadTask` takes one completion after another off the completion
port and hands it to a handler.  Sockets are numbered in the order in which
`ReadyAcceptEx` creates them.  A closed socket is not used again: closing one
creates another that waits for a connection.

`AcceptEx` and `CreateIoCompletionPort` are taken to succeed and the application to
supply a client for each socket.  What is received plays no part here.
-/

namespace DokeviNet

/-- The server.  `io` holds the packet pools and the send halves of the sockets,
`accepting` and `receiving` the `AcceptEx` and the `WSARecv` calls outstanding on
each. -/
structure DokeviServer (H P : Type*) where
  io : SendSystem H P ℕ
  created : ℕ
  accepting : ℕ → Bool
  connected : ℕ → Bool
  receiving : ℕ → ℕ
  clientSize : ℤ

/-- A call of the application or a completion, with the outcome of the `WSASend` or
`WSARecv` made when it is handled: `true` for success or `WSA_IO_PENDING`. -/
inductive ServerEvent
  | acceptDone (s : ℕ) (recvAccepted : Bool)
  | acceptFailed (s : ℕ) (err : ℕ)
  | send (accepted : Bool) (s : ℕ) (inData : Region UInt8) (inLen : UInt32)
      (inImmediateSend : Bool)
  | transmit (s : ℕ)
  | sendDone (accepted : Bool) (s : ℕ)
  | sendFailed (s : ℕ) (err : ℕ)
  | recvDone (s : ℕ) (recvAccepted : Bool)
  | recvClosed (s : ℕ)
  | recvFailed (s : ℕ) (err : ℕ)

/-- The socket an event is about. -/
def ServerEvent.socket : ServerEvent → ℕ
  | .acceptDone s _ => s
  | .acceptFailed s _ => s
  | .send _ s _ _ _ => s
  | .transmit s => s
  | .sendDone _ s => s
  | .sendFailed s _ => s
  | .recvDone s _ => s
  | .recvClosed s => s
  | .recvFailed s _ => s

namespace DokeviServer

variable {H P : Type*}

/-- A server that waits for `inMaxConnections` connections. -/
def start (pools : H) (inMaxConnections : ℕ) : DokeviServer H P where
  io := SendSystem.start pools
  created := inMaxConnections
  accepting s := s < inMaxConnections
  connected _ := false
  receiving _ := 0
  clientSize := 0

/-- `ReadyAcceptEx`. -/
def readyAcceptEx (w : DokeviServer H P) : DokeviServer H P :=
  { w with
    created := w.created + 1
    accepting := Function.update w.accepting w.created true }

/-- `TCPSocket::ResetSocket` with its last argument set, as all callers do. -/
def resetSocket (w : DokeviServer H P) (s : ℕ) : DokeviServer H P :=
  { w with connected := Function.update w.connected s false }.readyAcceptEx

/-- `DisconnectHandler`. -/
def disconnectHandler (w : DokeviServer H P) (inSocket : ℕ) :
    DokeviServer H P :=
  { w.resetSocket inSocket with clientSize := w.clientSize - 1 }

/-- Post a `WSARecv`; a failure is only logged. -/
def wsaRecv (recvAccepted : Bool) (w : DokeviServer H P) (s : ℕ) :
    DokeviServer H P :=
  { w with
    receiving := Function.update w.receiving s
      (w.receiving s + if recvAccepted then 1 else 0) }

/-- `ConnectHanadler`. -/
def connectHanadler (recvAccepted : Bool) (w : DokeviServer H P)
    (inSocket : ℕ) : DokeviServer H P :=
  { w.wsaRecv recvAccepted inSocket with clientSize := w.clientSize + 1 }

/-- The branch of `ThreadTask` for a completion reported as failed. -/
def completionFailed (w : DokeviServer H P) (s : ℕ) (err : ℕ) :
    DokeviServer H P :=
  if err = 64 then w.disconnectHandler s else w

/-- Take a `WSARecv` completion off the port. -/
def takeRecv (w : DokeviServer H P) (s : ℕ) : Option (DokeviServer H P) :=
  if w.receiving s = 0 then none
  else
    some { w with
      receiving := Function.update w.receiving s (w.receiving s - 1) }

/-- Take an `AcceptEx` completion off the port. -/
def takeAccept (w : DokeviServer H P) (s : ℕ) : Option (DokeviServer H P) :=
  if w.accepting s then
    some { w with accepting := Function.update w.accepting s false }
  else none

/-- Take the completion of the first `WSASend` off the port. -/
def takeSend (w : DokeviServer H P) (s : ℕ) : Option (DokeviServer H P) :=
  match (w.io.sockets s).posted with
  | [] => none
  | _ :: posts =>
    some { w with
      io := { w.io with
        sockets := Function.update w.io.sockets s
          { w.io.sockets s with posted := posts } } }

variable [PacketPools H P] [DecidableEq P]

/-- What an event does to a socket that exists.  A `WSASend` is only accepted on a
connected socket. -/
def handle (w : DokeviServer H P) : ServerEvent → Option (DokeviServer H P)
  | .acceptDone s recvAccepted =>
    (w.takeAccept s).map fun w =>
      { w with connected := Function.update w.connected s true
        }.connectHanadler recvAccepted s
  | .acceptFailed s err => (w.takeAccept s).map (·.completionFailed s err)
  | .send accepted s inData inLen inImmediateSend =>
    if accepted && !w.connected s then none
    else
      (w.io.send accepted s inData inLen inImmediateSend).map fun io =>
        { w with io := io }
  | .transmit s => (w.io.transmit s).map fun io => { w with io := io }
  | .sendDone accepted s =>
    if accepted && !w.connected s then none
    else (w.io.complete accepted s).map fun io => { w with io := io }
  | .sendFailed s err => (w.takeSend s).map (·.completionFailed s err)
  | .recvDone s recvAccepted => (w.takeRecv s).map (·.wsaRecv recvAccepted s)
  | .recvClosed s => (w.takeRecv s).map (·.disconnectHandler s)
  | .recvFailed s err => (w.takeRecv s).map (·.completionFailed s err)

def step (w : DokeviServer H P) (e : ServerEvent) :
    Option (DokeviServer H P) :=
  if e.socket < w.created then w.handle e else none

end DokeviServer

end DokeviNet
