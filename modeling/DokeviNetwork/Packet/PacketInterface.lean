import DokeviNetwork.Core.NetworkUtils

/-!
# Packets and where they come from

A packet is a record with a buffer of fixed capacity and a link to the next packet
of a send queue.  The send path reaches packets through pointers and gets
them from `PacketSelector`.  `PacketPools` is the part of the pools the
send path uses, and `LawfulPacketPools` says what any pools do to the packets
whatever their policy: `AllocPacket` hands out a packet on which `Release()`
has just run and touches no other packet, `FreePacket` touches at most the packet it
is given.  Which packet `AllocPacket` chooses is left open.
-/

namespace DokeviNet

/-- The fields of `PacketInterface`.  `buffer` is the storage `_buffer` points
to, and `P` is the type of packet pointers. -/
structure PacketInterface (P : Type*) where
  buffer : Region UInt8
  immediateSend : Bool
  isSending : Bool
  size : UInt32
  remainSize : UInt32
  maxSize : UInt32
  next : Option P

/-- `StaticSizePacket<SIZE>::Release`.  The final `strcpy` of the empty string
stores its terminator. -/
def PacketInterface.release {P : Type*} (SIZE : UInt32)
    (packet : PacketInterface P) : PacketInterface P :=
  { packet with
    immediateSend := false
    next := none
    isSending := false
    remainSize := SIZE
    maxSize := SIZE
    buffer := packet.buffer.write 0 [0] }

/-- What the send path uses of the packet pools `H`, with packet pointers `P`. -/
class PacketPools (H : Type*) (P : outParam (Type*)) where
  /-- the packet a pointer points to -/
  packet : H → P → PacketInterface P
  /-- store a packet's new contents -/
  assign : H → P → PacketInterface P → H
  /-- `SIZE` of the packet a pointer points to -/
  capacity : P → UInt32
  allocPacket : H → UInt32 → Option (P × H)
  freePacket : H → P → H

/-- What holds of the packets whatever packet is handed out. -/
class LawfulPacketPools (H : Type*) (P : outParam (Type*)) [DecidableEq P]
    [PacketPools H P] : Prop where
  packet_assign (h : H) (p q : P) (v : PacketInterface P) :
    PacketPools.packet (PacketPools.assign h p v) q =
      if q = p then v else PacketPools.packet h q
  packet_alloc {h h' : H} {inSize : UInt32} {p : P}
    (halloc : PacketPools.allocPacket h inSize = some (p, h')) (q : P) :
    PacketPools.packet h' q =
      if q = p then (PacketPools.packet h p).release (PacketPools.capacity H p)
      else PacketPools.packet h q
  packet_free {h : H} {p q : P} (hne : q ≠ p) :
    PacketPools.packet (PacketPools.freePacket h p) q =
      PacketPools.packet h q

end DokeviNet
