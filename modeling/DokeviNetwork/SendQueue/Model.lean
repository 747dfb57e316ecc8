import DokeviNetwork.Packet.PacketInterface
import Mathlib.Logic.Function.Basic

/-!
# The send queue of a socket

`TCPSocket::Send` and `TCPSocket::OnWriteCallback` run under the socket's write
lock, so each is one atomic step.  They share the packet pools with every
other socket.  The packets of a queue are linked through `_next`, from
`_sendingPacket` to `_lastPacket`; the head is the one handed to `WSASend`.

A step that dereferences a null pointer has no next state.  A write that
leaves a packet's buffer is listed in `writes` like any other; whether it
reaches another packet is a matter of the pools.
-/

namespace DokeviNet

/-- A posted `WSASend`: the packet whose buffer it was given, the length it was
given, and what the system has taken from the buffer so far. -/
structure WsaSend (P : Type*) where
  packet : P
  len : UInt32
  transmitted : Option (List UInt8)

/-- The send half of a `TCPSocket`.  `posted` is what the system holds for it;
`handed` (the bytes of every packet given to `DokeviServer::Send`) and `wire`
(the bytes of every completed `WSASend`) are history variables. -/
structure SendSide (P : Type*) where
  sendingPacket : Option P
  lastPacket : Option P
  posted : List (WsaSend P)
  handed : List (List UInt8)
  wire : List UInt8

/-- A store of `length` bytes at `offset` of a packet's buffer. -/
structure BufferWrite (P : Type*) where
  packet : P
  offset : ℕ
  length : ℕ

/-- What `Send` does: the pools and the socket after it, the packet it
allocated and the stores it made. -/
structure SendCall (H P : Type*) where
  pools : H
  socket : SendSide P
  allocated : Option P
  writes : List (BufferWrite P)

/-- What `OnWriteCallback` does. -/
structure CallbackCall (H P : Type*) where
  pools : H
  socket : SendSide P
  freed : P

/-- `totalPacketSize`. -/
def totalPacketSize (inLen : UInt32) : UInt32 := inLen + 4

/-- Store the length header and the data at `pos` of a buffer. -/
def storeFrame (buffer : Region UInt8) (pos : ℕ) (inData : Region UInt8)
    (inLen : UInt32) : Region UInt8 :=
  let (buffer, curBufferPos) := setSizeOnByteArrayFront buffer pos inLen
  buffer.write curBufferPos (inData.read 0 inLen.toNat)

/-- The stores `storeFrame` makes. -/
def frameWrites {P : Type*} (p : P) (pos : ℕ) (inLen : UInt32) :
    List (BufferWrite P) :=
  [{ packet := p, offset := pos, length := 4 },
    { packet := p, offset := pos + 4, length := inLen.toNat }]

/-- The coalescing branch of `Send` on the last packet. -/
def PacketInterface.append {P : Type*} (packet : PacketInterface P)
    (inData : Region UInt8) (inLen : UInt32) : PacketInterface P :=
  { packet with
    buffer := storeFrame packet.buffer packet.size.toNat inData inLen
    size := packet.size + totalPacketSize inLen
    remainSize := packet.remainSize - totalPacketSize inLen }

/-- What `Send` stores in a newly allocated packet. -/
def PacketInterface.fill {P : Type*} (packet : PacketInterface P)
    (inData : Region UInt8) (inLen : UInt32) (inImmediateSend : Bool) :
    PacketInterface P :=
  { packet with
    buffer := storeFrame packet.buffer 0 inData inLen
    immediateSend := inImmediateSend
    size := totalPacketSize inLen
    remainSize := packet.remainSize - totalPacketSize inLen }

/-- `packet->_isSending = true`. -/
def PacketInterface.markSending {P : Type*} (packet : PacketInterface P) :
    PacketInterface P :=
  { packet with isSending := true }

/-- `packet->_next = p`. -/
def PacketInterface.linkTo {P : Type*} (packet : PacketInterface P) (p : P) :
    PacketInterface P :=
  { packet with next := some p }

section

variable {H P : Type*} [PacketPools H P]

open PacketPools

/-- `DokeviServer::Send`.  `accepted` is the outcome of `WSASend`: success or
`WSA_IO_PENDING`; any other error is only logged. -/
def serverSend (accepted : Bool) (h : H) (inSocket : SendSide P)
    (inPacket : P) : SendSide P :=
  let packet := packet h inPacket
  { inSocket with
    handed := inSocket.handed ++ [packet.buffer.read 0 packet.size.toNat]
    posted :=
      if accepted then
        inSocket.posted ++
          [{ packet := inPacket, len := packet.size, transmitted := none }]
      else inSocket.posted }

/-- The five conditions under which `Send` appends to the last packet. -/
def coalesces (h : H) (s : SendSide P) (inLen : UInt32)
    (inImmediateSend : Bool) : Bool :=
  match s.lastPacket with
  | none => false
  | some last =>
    (packet h last).isSending == false &&
      (packet h last).immediateSend == false &&
      decide ((packet h last).remainSize ≥ totalPacketSize inLen) &&
      inImmediateSend == false

/-- The branch of `Send` that appends to the last packet. -/
def sendAppending (h : H) (s : SendSide P) (inData : Region UInt8)
    (inLen : UInt32) : Option (SendCall H P) :=
  s.lastPacket.map fun last =>
    { pools := assign h last ((packet h last).append inData inLen)
      socket := s
      allocated := none
      writes := frameWrites last (packet h last).size.toNat inLen }

/-- The branch of `Send` that takes a new packet. -/
def sendAllocating (accepted : Bool) (h : H) (s : SendSide P)
    (inData : Region UInt8) (inLen : UInt32) (inImmediateSend : Bool) :
    Option (SendCall H P) :=
  (allocPacket h inLen).bind fun (sendPacket, h) =>
    let h := assign h sendPacket
      ((packet h sendPacket).fill inData inLen inImmediateSend)
    match s.sendingPacket with
    | none =>
      let h := assign h sendPacket (packet h sendPacket).markSending
      let s := { s with
        sendingPacket := some sendPacket
        lastPacket := some sendPacket }
      some
        { pools := h
          socket := serverSend accepted h s sendPacket
          allocated := some sendPacket
          writes := frameWrites sendPacket 0 inLen }
    | some _ =>
      s.lastPacket.map fun last =>
        { pools := assign h last ((packet h last).linkTo sendPacket)
          socket := { s with lastPacket := some sendPacket }
          allocated := some sendPacket
          writes := frameWrites sendPacket 0 inLen }

/-- `TCPSocket::Send`. -/
def send (accepted : Bool) (h : H) (s : SendSide P) (inData : Region UInt8)
    (inLen : UInt32) (inImmediateSend : Bool) : Option (SendCall H P) :=
  if coalesces h s inLen inImmediateSend then sendAppending h s inData inLen
  else sendAllocating accepted h s inData inLen inImmediateSend

/-- `TCPSocket::OnWriteCallback`. -/
def onWriteCallback (accepted : Bool) (h : H) (s : SendSide P) :
    Option (CallbackCall H P) :=
  s.sendingPacket.map fun temp =>
    match (packet h temp).next with
    | some next =>
      let h := assign h next (packet h next).markSending
      let s := { s with sendingPacket := some next }
      { pools := freePacket h temp
        socket := serverSend accepted h s next
        freed := temp }
    | none =>
      { pools := freePacket h temp
        socket := { s with sendingPacket := none, lastPacket := none }
        freed := temp }

end

/-! ## All sockets on the shared pools -/

/-- Any number of sockets, named by `ι`, on one set of pools.  `live` is a
history variable: the packets allocated and not freed since. -/
structure SendSystem (H P ι : Type*) where
  pools : H
  sockets : ι → SendSide P
  live : List P

namespace SendSystem

variable {H P ι : Type*} [PacketPools H P] [DecidableEq P] [DecidableEq ι]

open PacketPools

/-- Pools as given and every send queue empty. -/
def start (pools : H) : SendSystem H P ι where
  pools := pools
  sockets := fun _ =>
    { sendingPacket := none, lastPacket := none, posted := [], handed := []
      wire := [] }
  live := []

/-- `Send` on socket `s`. -/
def send (accepted : Bool) (w : SendSystem H P ι) (s : ι)
    (inData : Region UInt8) (inLen : UInt32) (inImmediateSend : Bool) :
    Option (SendSystem H P ι) :=
  (DokeviNet.send accepted w.pools (w.sockets s) inData inLen
      inImmediateSend).map fun call =>
    { pools := call.pools
      sockets := Function.update w.sockets s call.socket
      live := w.live ++ call.allocated.toList }

/-- `OnWriteCallback` on socket `s`. -/
def onWriteCallback (accepted : Bool) (w : SendSystem H P ι) (s : ι) :
    Option (SendSystem H P ι) :=
  (DokeviNet.onWriteCallback accepted w.pools (w.sockets s)).map fun call =>
    { pools := call.pools
      sockets := Function.update w.sockets s call.socket
      live := w.live.erase call.freed }

/-- The system takes the contents of the buffer of the first posted
`WSASend`. -/
def transmit (w : SendSystem H P ι) (s : ι) : Option (SendSystem H P ι) :=
  match (w.sockets s).posted with
  | [] => none
  | post :: posts =>
    if post.transmitted.isSome then none
    else
      let bytes := (packet w.pools post.packet).buffer.read 0 post.len.toNat
      some { w with
        sockets := Function.update w.sockets s { w.sockets s with
          posted := { post with transmitted := some bytes } :: posts } }

/-- The first posted `WSASend`, once transmitted, completes with success and
its completion is handled. -/
def complete (accepted : Bool) (w : SendSystem H P ι) (s : ι) :
    Option (SendSystem H P ι) :=
  match (w.sockets s).posted with
  | [] => none
  | post :: posts =>
    post.transmitted.bind fun bytes =>
      onWriteCallback accepted { w with
        sockets := Function.update w.sockets s { w.sockets s with
          posted := posts
          wire := (w.sockets s).wire ++ bytes } } s

end SendSystem

/-- What happens to the sockets while `WSASend` accepts every packet: an
application sends, the system transmits, a write completes. -/
inductive SendEvent (ι : Type*)
  | send (s : ι) (inData : Region UInt8) (inLen : UInt32)
      (inImmediateSend : Bool)
  | transmit (s : ι)
  | complete (s : ι)

namespace SendSystem

variable {H P ι : Type*} [PacketPools H P] [DecidableEq P] [DecidableEq ι]

open PacketPools

def step (w : SendSystem H P ι) : SendEvent ι → Option (SendSystem H P ι)
  | .send s inData inLen inImmediateSend =>
    w.send true s inData inLen inImmediateSend
  | .transmit s => w.transmit s
  | .complete s => w.complete true s

/-- If this `Send` takes a new packet, `AllocPacket` gives it one that is not
outstanding. -/
def SendsFresh (w : SendSystem H P ι) (s : ι) (inLen : UInt32)
    (inImmediateSend : Bool) : Prop :=
  coalesces w.pools (w.sockets s) inLen inImmediateSend = false →
    ∀ p ∈ (allocPacket w.pools inLen).map Prod.fst, p ∉ w.live

/-- The length with its header does not wrap, and a new packet holds both. -/
def SendRoom (w : SendSystem H P ι) (s : ι) (inLen : UInt32)
    (inImmediateSend : Bool) : Prop :=
  if coalesces w.pools (w.sockets s) inLen inImmediateSend then
    inLen.toNat + 4 < 2 ^ 32
  else
    ∀ p ∈ (allocPacket w.pools inLen).map Prod.fst,
      inLen.toNat + 4 ≤ (capacity H p).toNat

/-- The packet this `Send` chooses has room for the length header and the
data. -/
def SendFits (w : SendSystem H P ι) (s : ι) (inLen : UInt32)
    (inImmediateSend : Bool) : Prop :=
  if coalesces w.pools (w.sockets s) inLen inImmediateSend then
    ∀ last ∈ (w.sockets s).lastPacket,
      inLen.toNat + 4 ≤ (packet w.pools last).maxSize.toNat
  else
    ∀ p ∈ (allocPacket w.pools inLen).map Prod.fst,
      inLen.toNat + 4 ≤ (capacity H p).toNat

/-- Every packet the step allocates is fresh. -/
def Fresh (w : SendSystem H P ι) : SendEvent ι → Prop
  | .send s _ inLen inImmediateSend => w.SendsFresh s inLen inImmediateSend
  | _ => True

/-- The room a `Send` needs. -/
def Room (w : SendSystem H P ι) : SendEvent ι → Prop
  | .send s _ inLen inImmediateSend => w.SendRoom s inLen inImmediateSend
  | _ => True

/-- Every payload the step stores fits the packet chosen for it. -/
def Fits (w : SendSystem H P ι) : SendEvent ι → Prop
  | .send s _ inLen inImmediateSend => w.SendFits s inLen inImmediateSend
  | _ => True

instance (w : SendSystem H P ι) (s : ι) (inLen : UInt32)
    (inImmediateSend : Bool) :
    Decidable (w.SendsFresh s inLen inImmediateSend) :=
  inferInstanceAs (Decidable (_ → _))

instance (w : SendSystem H P ι) (s : ι) (inLen : UInt32)
    (inImmediateSend : Bool) :
    Decidable (w.SendRoom s inLen inImmediateSend) :=
  inferInstanceAs (Decidable (ite _ _ _))

instance (w : SendSystem H P ι) (s : ι) (inLen : UInt32)
    (inImmediateSend : Bool) :
    Decidable (w.SendFits s inLen inImmediateSend) :=
  inferInstanceAs (Decidable (ite _ _ _))

instance decidableFresh (w : SendSystem H P ι) : ∀ e, Decidable (w.Fresh e)
  | .send s _ inLen inImmediateSend =>
    inferInstanceAs (Decidable (w.SendsFresh s inLen inImmediateSend))
  | .transmit _ => isTrue trivial
  | .complete _ => isTrue trivial

instance decidableRoom (w : SendSystem H P ι) : ∀ e, Decidable (w.Room e)
  | .send s _ inLen inImmediateSend =>
    inferInstanceAs (Decidable (w.SendRoom s inLen inImmediateSend))
  | .transmit _ => isTrue trivial
  | .complete _ => isTrue trivial

instance decidableFits (w : SendSystem H P ι) : ∀ e, Decidable (w.Fits e)
  | .send s _ inLen inImmediateSend =>
    inferInstanceAs (Decidable (w.SendFits s inLen inImmediateSend))
  | .transmit _ => isTrue trivial
  | .complete _ => isTrue trivial

end SendSystem

end DokeviNet
