import DokeviNetwork.Packet.Capacity
import DokeviNetwork.SendQueue.Bounds

/-!
# What a failed send leaves behind

`AllocPacket` returns the null pointer for a payload above
`MAX_PACKET_BUF_SIZE` and from a full pool, and reports it through the log
only.  `Send` uses its result without a test.  This module names the two causes
on the state before the call and follows the call from there.
-/

namespace DokeviNet

open LabelledRun PacketSelector

namespace SendSystem

variable {ι : Type*} [DecidableEq ι]

/-- This `Send` needs a new packet and `AllocPacket` has none for it: the
payload is too long, or the pool for its length is full. -/
def SendFails (w : SendSystem PacketSelector PacketId ι) (s : ι)
    (inLen : UInt32) (inImmediateSend : Bool) : Prop :=
  coalesces w.pools (w.sockets s) inLen inImmediateSend = false ∧
    (inLen > maxPacketBufSize ∨
      ∃ c, sizeClassOf inLen.toNat = some c ∧
        (w.pools c).used = (w.pools c).queueSize)

/-- The call returns, and no queue, packet or pool has changed. -/
def SendChangesNothing (accepted : Bool)
    (w : SendSystem PacketSelector PacketId ι) (s : ι)
    (inData : Region UInt8) (inLen : UInt32) (inImmediateSend : Bool) : Prop :=
  w.send accepted s inData inLen inImmediateSend = some w

variable {w : SendSystem PacketSelector PacketId ι}
  {contents : PacketId → PacketInterface PacketId}
  {es : List (CallEvent ι)}

/-- After any calls the two pointers of every socket are null together. -/
theorem pointersAgree_of_run
    (hrun : run call (start (initPacketSelector contents)) es = some w) :
    ∀ s, (w.sockets s).PointersAgree := by
  have hinit : ∀ s : ι, ((start (initPacketSelector contents) :
      SendSystem PacketSelector PacketId ι).sockets s).PointersAgree :=
    fun s => ⟨fun _ => rfl, fun _ => rfl⟩
  have hkeep : ∀ (past : List (CallEvent ι))
      (v : SendSystem PacketSelector PacketId ι) e v',
      (∀ s, (v.sockets s).PointersAgree) → v.call e = some v' →
      ∀ s, (v'.sockets s).PointersAgree :=
    fun _ _ _ _ hpointers hstep => pointersAgree_call hpointers hstep
  exact history_of_run hkeep hinit hrun

/-- A `Send` dereferences the null pointer exactly when it fails for one of
the two causes. -/
theorem send_eq_none_iff_fails {accepted : Bool} {s : ι}
    {inData : Region UInt8} {inLen : UInt32} {inImmediateSend : Bool}
    (hpointers : (w.sockets s).PointersAgree) :
    w.send accepted s inData inLen inImmediateSend = none ↔
      w.SendFails s inLen inImmediateSend := by
  rw [SendSystem.send, Option.map_eq_none_iff,
    hpointers.send_eq_none_iff, SendFails]
  exact and_congr_right fun _ => allocPacket_eq_none_iff

/-- In every reachable state, a `Send` that needs a packet it cannot get never
leaves the connection as it was: it dereferences the null packet.  Every
other `Send` returns. -/
theorem failed_send_never_changes_nothing
    (hrun : run call (start (initPacketSelector contents)) es = some w)
    (accepted : Bool) (s : ι) (inData : Region UInt8) (inLen : UInt32)
    (inImmediateSend : Bool) :
    (w.SendFails s inLen inImmediateSend →
        ¬w.SendChangesNothing accepted s inData inLen inImmediateSend) ∧
      (¬w.SendFails s inLen inImmediateSend →
        (w.send accepted s inData inLen inImmediateSend).isSome) := by
  have hnone := @send_eq_none_iff_fails ι _ w accepted s inData inLen
    inImmediateSend (pointersAgree_of_run hrun s)
  constructor
  · intro hfails hsame
    rw [SendChangesNothing, hnone.mpr hfails] at hsame
    cases hsame
  · intro hreturns
    exact Option.ne_none_iff_isSome.mp (mt hnone.mp hreturns)

/-- A payload of 4097 bytes on a socket that has nothing queued. -/
theorem send_4097_dereferences_null :
    SendFails (start zeroed : SendSystem PacketSelector PacketId Unit) ()
        4097 false ∧
      (start zeroed : SendSystem PacketSelector PacketId Unit).send true ()
          (Region.ofList 0 []) 4097 false = none ∧
      ¬SendChangesNothing true
        (start zeroed : SendSystem PacketSelector PacketId Unit) ()
        (Region.ofList 0 []) 4097 false := by
  have hnull : (start zeroed : SendSystem PacketSelector PacketId Unit).send
      true () (Region.ofList 0 []) 4097 false = none := rfl
  refine ⟨⟨rfl, Or.inl (by decide)⟩, hnull, ?_⟩
  intro hsame
  rw [SendChangesNothing, hnull] at hsame
  cases hsame

/-- The rule after a first send whose write is under way. -/
theorem failed_send_never_changes_nothing_second :
    ∃ w : SendSystem PacketSelector PacketId Unit,
      run call (start zeroed)
          [.send true () (Region.ofList 0 [1]) 1 false] = some w ∧
        ¬w.SendChangesNothing true () (Region.ofList 0 []) 5000 false := by
  have hrun : run call
      (start zeroed : SendSystem PacketSelector PacketId Unit)
      [.send true () (Region.ofList 0 [1]) 1 false] = some _ := rfl
  refine ⟨_, hrun, ?_⟩
  exact (failed_send_never_changes_nothing hrun true () _ 5000 false).1
    ⟨rfl, Or.inl (by decide)⟩

end SendSystem

end DokeviNet
