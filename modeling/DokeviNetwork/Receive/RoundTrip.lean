import DokeviNetwork.Receive.DeserializePacket
import DokeviNetwork.SendQueue.Stream

/-!
# What the client decodes

Two encoders feed the client's parser: `SendPacket`, whose length field counts both
header fields, and the server's `Send`, whose length field counts the payload
only.  The parser hands on the low byte of the protocol, sign-extended, and as
the size the length field itself.
-/

namespace DokeviNet

open Framing LabelledRun PacketPools IndependentNetworkClient

/-! ## SendPacket -/

/-- The bytes that `SendPacket` gives to `send`. -/
def sendPacket (inProtocol : UInt32) (inPacket : Region UInt8)
    (inLength : UInt32) : List UInt8 :=
  let packetLength := inLength + 8
  let packet : Region UInt8 := fun _ => 0
  let packet := packet.write 0 (sizeBytes packetLength)
  let packet := packet.write 4 (sizeBytes inProtocol)
  let packet := packet.write 8 (inPacket.read 0 inLength.toNat)
  packet.read 0 packetLength.toNat

theorem sendPacket_eq {inProtocol inLength : UInt32} {inPacket : Region UInt8}
    (hwrap : inLength.toNat + 8 < 2 ^ 32) :
    sendPacket inProtocol inPacket inLength =
      sizeBytes (inLength + 8) ++ sizeBytes inProtocol ++
        inPacket.read 0 inLength.toNat := by
  let packet : Region UInt8 := fun _ => 0
  have hlength := packet.read_write_extend 0 (sizeBytes (inLength + 8))
  have hprotocol := (packet.write 0 (sizeBytes (inLength + 8))).read_write_extend
    4 (sizeBytes inProtocol)
  have hdata := ((packet.write 0 (sizeBytes (inLength + 8))).write 4
    (sizeBytes inProtocol)).read_write_extend 8
      (inPacket.read 0 inLength.toNat)
  have htotal : (inLength + 8).toNat = 8 + inLength.toNat := by
    rw [UInt32.toNat_add, Nat.add_comm]
    exact Nat.mod_eq_of_lt (by rw [Nat.add_comm]; exact hwrap)
  rw [Region.read_length, ← htotal] at hdata
  rw [sizeBytes_length] at hlength hprotocol
  have hheader : ((packet.write 0 (sizeBytes (inLength + 8))).write 4
      (sizeBytes inProtocol)).read 0 8 =
        sizeBytes (inLength + 8) ++ sizeBytes inProtocol := by
    refine hprotocol.trans ?_
    rw [hlength]
    rfl
  rw [← hheader]
  exact hdata

/-- What an application of the client sends. -/
structure Message where
  protocol : UInt32
  payload : List UInt8
  fits : payload.length ≤ maxPacketBufSize.toNat - 8

namespace Message

/-- The bytes of the message on the stream. -/
def bytes (m : Message) : List UInt8 :=
  sendPacket m.protocol (Region.ofList 0 m.payload)
    (UInt32.ofNat m.payload.length)

theorem length_toNat (m : Message) :
    (UInt32.ofNat m.payload.length).toNat = m.payload.length := by
  rw [UInt32.toNat_ofNat']
  refine Nat.mod_eq_of_lt (lt_of_le_of_lt m.fits ?_)
  decide

theorem bytes_eq (m : Message) :
    m.bytes = sizeBytes (UInt32.ofNat m.payload.length + 8) ++
      sizeBytes m.protocol ++ m.payload := by
  have hfits : m.payload.length ≤ 4088 := m.fits
  rw [bytes, sendPacket_eq (by rw [m.length_toNat]; omega), m.length_toNat,
    Region.read_ofList]

theorem bytes_length (m : Message) : m.bytes.length = m.payload.length + 8 := by
  rw [bytes_eq]
  simp only [List.length_append, sizeBytes_length]
  omega

theorem lengthField_bytes (m : Message) :
    lengthField m.bytes = m.bytes.length := by
  have hfits : m.payload.length ≤ 4088 := m.fits
  have hsum : (UInt32.ofNat m.payload.length + 8).toNat =
      m.payload.length + 8 := by
    rw [UInt32.toNat_add, m.length_toNat]
    exact Nat.mod_eq_of_lt (show m.payload.length + 8 < 2 ^ 32 by omega)
  rw [bytes_length, bytes_eq, List.append_assoc, lengthField,
    sizeOfBytes_append _ (by simp), sizeOfBytes_sizeBytes, hsum]

end Message

/-- The stream of a list of messages splits into the messages. -/
theorem splits_messages (messages : List Message) :
    Splits 4 lengthField (messages.flatMap Message.bytes)
      (messages.map Message.bytes) [] := by
  rw [List.flatMap_def]
  apply splits_flatten lengthField_headerOnly (by decide)
  intro f hf
  obtain ⟨m, -, rfl⟩ := List.mem_map.mp hf
  exact ⟨by rw [m.bytes_length]; omega, m.lengthField_bytes⟩

/-- The client takes the messages off the stream one by one. -/
theorem exists_run_of_messages {packetBuffer : Region UInt8}
    {messages : List Message} {chunks : List Chunk} {fuel : ℕ}
    (hfuel : passes ≤ fuel)
    (hstream : received chunks = messages.flatMap Message.bytes)
    (hroom : Along (deserializePacket fuel) HasRoom (start packetBuffer)
      chunks) :
    ∃ c, run (deserializePacket fuel) (start packetBuffer) chunks = some c ∧
      c.calls.map RecvHandlerCall.consumed = messages.map Message.bytes ∧
      c.curOffset = 0 ∧ ∀ call ∈ c.calls, Describes call := by
  obtain ⟨c, hrun, hc, hrest⟩ := (consistent_start packetBuffer).run
    (Or.inl (by simp [start])) hroom hfuel
  rw [List.nil_append, hstream] at hc
  have height : ∀ n, Reads 4 lengthField (messages.flatMap Message.bytes) n →
      8 ≤ n := by
    intro n hn
    rcases (splits_messages messages).reads_cases hn with ⟨f, hf, rfl⟩ | hnil
    · obtain ⟨m, -, rfl⟩ := List.mem_map.mp hf
      rw [m.bytes_length]
      omega
    · simp at hnil
  obtain ⟨hframes, hpending⟩ :=
    (hc.splits hrest height).unique (splits_messages messages)
  refine ⟨c, hrun, hframes, UInt32.toNat_inj.mp ?_, hc.calls⟩
  rw [← pending_length, hpending]
  rfl

/-- What `RecvHandler` is told about a message: the low byte of its protocol as a
signed character, the payload, and the size of payload and header fields
together. -/
def Delivers (call : RecvHandlerCall) (m : Message) : Prop :=
  call.inProtocol = unsignedOfChar (UInt8.ofNat m.protocol.toNat) ∧
    call.inSize.toNat = m.payload.length + 8 ∧
    call.inData.read 0 m.payload.length = m.payload

theorem delivers_of_consumed {call : RecvHandlerCall} {m : Message}
    (hcall : Describes call) (hconsumed : call.consumed = m.bytes) :
    Delivers call m := by
  have hlength : call.consumed.length = m.payload.length + 8 := by
    rw [hconsumed, m.bytes_length]
  have height : 8 ≤ call.consumed.length := by omega
  refine ⟨?_, hcall.inSize.trans hlength, ?_⟩
  · rw [hcall.protocol height, hconsumed, m.bytes_eq]
    rfl
  · have hpayload := hcall.payload height
    rw [hlength, Nat.add_sub_cancel, hconsumed, m.bytes_eq] at hpayload
    exact hpayload

/-- The calls of `RecvHandler` on the stream of any messages. -/
theorem exists_delivers_of_messages {packetBuffer : Region UInt8}
    {messages : List Message} {chunks : List Chunk} {fuel : ℕ}
    (hfuel : passes ≤ fuel)
    (hstream : received chunks = messages.flatMap Message.bytes)
    (hroom : Along (deserializePacket fuel) HasRoom (start packetBuffer)
      chunks) :
    ∃ c, run (deserializePacket fuel) (start packetBuffer) chunks = some c ∧
      List.Forall₂ Delivers c.calls messages := by
  obtain ⟨c, hrun, hframes, -, hcalls⟩ :=
    exists_run_of_messages hfuel hstream hroom
  have hconsumed : List.Forall₂
      (fun call (m : Message) => call.consumed = m.bytes)
      c.calls messages := List.forall₂_map_eq_iff.mpr hframes
  exact ⟨c, hrun, hconsumed.imp_of_mem fun call hcall m =>
    delivers_of_consumed (hcalls call hcall)⟩

/-- The handler is told the protocol and given the payload, no more and no
less. -/
def RoundTrips (call : RecvHandlerCall) (m : Message) : Prop :=
  call.inProtocol = m.protocol ∧
    call.inData.read 0 call.inSize.toNat = m.payload

/-- No message makes the round trip: the size a handler is told counts the two
header fields, which the pointer it is given has skipped. -/
theorem roundTrips_iff {packetBuffer : Region UInt8}
    {messages : List Message} {chunks : List Chunk} {fuel : ℕ}
    (hfuel : passes ≤ fuel)
    (hstream : received chunks = messages.flatMap Message.bytes)
    (hroom : Along (deserializePacket fuel) HasRoom (start packetBuffer)
      chunks) :
    ∃ c, run (deserializePacket fuel) (start packetBuffer) chunks = some c ∧
      (List.Forall₂ RoundTrips c.calls messages ↔ messages = []) := by
  obtain ⟨c, hrun, hdelivers⟩ :=
    exists_delivers_of_messages hfuel hstream hroom
  refine ⟨c, hrun, ?_⟩
  constructor
  · intro htrips
    cases messages with
    | nil => rfl
    | cons m messages =>
        obtain ⟨call, calls, htrip, -, hcalls⟩ :=
          List.forall₂_cons_right_iff.mp htrips
        rw [hcalls] at hdelivers
        have hdelivered := (List.forall₂_cons.mp hdelivers).1
        have hsize := congrArg List.length htrip.2
        rw [Region.read_length, hdelivered.2.1] at hsize
        omega
  · intro hnil
    subst hnil
    rw [List.forall₂_nil_right_iff] at hdelivers ⊢
    exact hdelivers

/-- Protocol 200 with the payload `[7]`. -/
def shortMessage : Message where
  protocol := 200
  payload := [7]
  fits := by decide

/-- The bytes of that message, all in one receive. -/
def shortChunk : Chunk where
  data := Region.ofList 0 [9, 0, 0, 0, 200, 0, 0, 0, 7]
  size := 9

/-- The handler is told the protocol 4294967240 and a size of 9. -/
theorem shortMessage_not_roundTrips :
    received [shortChunk] = [shortMessage].flatMap Message.bytes ∧
      ∃ c, run (deserializePacket passes) (start fun _ => 0) [shortChunk] =
          some c ∧
        c.calls.map RecvHandlerCall.inProtocol = [4294967240] ∧
        c.calls.map RecvHandlerCall.inSize = [9] ∧
        ¬List.Forall₂ RoundTrips c.calls [shortMessage] := by
  refine ⟨by decide, _, rfl, by decide, by decide, ?_⟩
  intro htrips
  cases htrips with
  | cons htrip _ => exact absurd htrip.1 (by decide)

theorem roundTrips_iff_shortMessage :
    ∃ c, run (deserializePacket passes) (start fun _ => 0) [shortChunk] =
        some c ∧
      (List.Forall₂ RoundTrips c.calls [shortMessage] ↔
        [shortMessage] = []) := by
  have hroom : Along (deserializePacket passes) HasRoom (start fun _ => 0)
      [shortChunk] := by decide
  exact roundTrips_iff (le_refl passes) (by decide) hroom

/-! ## Send -/

theorem Frame.lengthField_bytes (f : Frame) :
    lengthField f.bytes = f.inLen.toNat := by
  rw [Frame.bytes, lengthField, sizeOfBytes_append _ (by simp),
    sizeOfBytes_sizeBytes]

/-- No call of `RecvHandler` consumes a frame of `Send`: the client takes the
length field to count itself. -/
theorem consumed_ne_frame {call : RecvHandlerCall} (hcall : Describes call)
    (f : Frame) : call.consumed ≠ f.bytes := by
  intro heq
  have hlength := f.bytes_length
  have hheader := hcall.header (by rw [heq]; omega)
  rw [heq, f.lengthField_bytes] at hheader
  omega

section

variable {H P ι : Type*} [PacketPools H P] [DecidableEq P] [DecidableEq ι]

/-- A socket on which nothing is sent transmits nothing. -/
theorem wire_of_no_frames {pools : H} {es : List (SendEvent ι)}
    {w : SendSystem H P ι}
    (hrun : run SendSystem.step (SendSystem.start pools) es = some w) (a : ι)
    (hnone : framesOn a es = []) :
    (w.sockets a).posted = [] ∧ (w.sockets a).wire = [] := by
  refine @history_of_run _ _ _ (fun past (w : SendSystem H P ι) =>
    framesOn a past = [] →
      (w.sockets a).posted = [] ∧ (w.sockets a).wire = [])
    ?_ _ _ _ (fun _ => ⟨rfl, rfl⟩) hrun hnone
  intro past v e v' hinv hstep hframes
  rw [framesOn, eventsOn_append, ParcelQueue.newFrames_append,
    List.append_eq_nil_iff] at hframes
  have hbefore := hinv hframes.1
  cases e with
  | send s inData inLen inImmediateSend =>
      obtain ⟨call, -, rfl⟩ := SendSystem.send_eq_some hstep
      have hne : a ≠ s := by
        rintro rfl
        simp [SendEvent.on, ParcelQueue.newFrames] at hframes
      simpa [hne] using hbefore
  | transmit s =>
      obtain ⟨post, posts, hposted, -, rfl⟩ :=
        SendSystem.transmit_eq_some hstep
      have hne : a ≠ s := by
        rintro rfl
        simp [hbefore.1] at hposted
      simpa [hne] using hbefore
  | complete s =>
      obtain ⟨post, posts, bytes, call, hposted, -, -, rfl⟩ :=
        SendSystem.complete_eq_some hstep
      have hne : a ≠ s := by
        rintro rfl
        simp [hbefore.1] at hposted
      simpa [hne] using hbefore

/-- The handler calls consume exactly the frames, and nothing stays behind. -/
def FramesArrive (c : IndependentNetworkClient) (frames : List Frame) : Prop :=
  c.calls.map RecvHandlerCall.consumed = frames.map Frame.bytes ∧
    c.curOffset = 0

/-- Whatever is sent on a socket and however its stream is cut, the client consumes
the frames exactly when there are none. -/
theorem framesArrive_iff {pools : H} {es : List (SendEvent ι)}
    {w : SendSystem H P ι}
    (hrun : run SendSystem.step (SendSystem.start pools) es = some w) {a : ι}
    {packetBuffer : Region UInt8} {chunks : List Chunk} {fuel : ℕ}
    (hfuel : passes ≤ fuel) (hstream : received chunks = (w.sockets a).wire)
    (hroom : Along (deserializePacket fuel) HasRoom (start packetBuffer)
      chunks) :
    ∃ c, run (deserializePacket fuel) (start packetBuffer) chunks = some c ∧
      (FramesArrive c (framesOn a es) ↔ framesOn a es = []) := by
  obtain ⟨c, hclient, hc, hrest⟩ := (consistent_start packetBuffer).run
    (Or.inl (by simp [start])) hroom hfuel
  refine ⟨c, hclient, ?_⟩
  constructor
  · intro harrive
    cases hframes : framesOn a es with
    | nil => rfl
    | cons f frames =>
        have hcalls := harrive.1
        rw [hframes, List.map_cons, List.map_eq_cons_iff] at hcalls
        obtain ⟨call, calls, heq, hconsumed, -⟩ := hcalls
        have hcall := hc.calls call (by simp [heq])
        exact absurd hconsumed (consumed_ne_frame hcall f)
  · intro hnil
    rw [List.nil_append, hstream, (wire_of_no_frames hrun a hnil).2] at hc
    have hempty : Splits 4 lengthField ([] : List UInt8) [] [] :=
      Splits.stuck (Or.inl (by simp))
    have height : ∀ n, Reads 4 lengthField ([] : List UInt8) n → 8 ≤ n := by
      intro n hn
      rcases hempty.reads_cases hn with ⟨f, hf, -⟩ | hnil
      · simp at hf
      · simp at hnil
    obtain ⟨hcalls, hpending⟩ := (hc.splits hrest height).unique hempty
    refine ⟨by rw [hcalls, hnil]; rfl, UInt32.toNat_inj.mp ?_⟩
    rw [← pending_length, hpending]
    rfl

end

/-- Protocol 1 without a payload is sent and transmitted. -/
def protocolOnly : List (SendEvent Unit) :=
  [.send () (Region.ofList 0 [1, 0, 0, 0]) 4 false, .transmit (),
    .complete ()]

/-- What is transmitted for it, all in one receive. -/
def protocolOnlyChunk : Chunk where
  data := Region.ofList 0 [4, 0, 0, 0, 1, 0, 0, 0]
  size := 8

/-- The client takes the length header for the whole packet and then waits in
front of the message. -/
theorem protocolOnly_not_framesArrive :
    ∃ (w : SendSystem PacketSelector PacketId Unit)
      (c : IndependentNetworkClient),
      run SendSystem.step (SendSystem.start PacketSelector.zeroed)
          protocolOnly = some w ∧
        received [protocolOnlyChunk] = (w.sockets ()).wire ∧
        run (deserializePacket passes) (start fun _ => 0)
          [protocolOnlyChunk] = some c ∧
        c.calls.map RecvHandlerCall.consumed = [[4, 0, 0, 0]] ∧
        c.curOffset = 4 ∧ ¬FramesArrive c (framesOn () protocolOnly) := by
  refine ⟨_, _, rfl, by decide, rfl, by decide, by decide, ?_⟩
  intro harrive
  exact absurd harrive.2 (by decide)

theorem framesArrive_iff_protocolOnly :
    ∃ c, run (deserializePacket passes) (start fun _ => 0)
          [protocolOnlyChunk] = some c ∧
      (FramesArrive c (framesOn () protocolOnly) ↔
        framesOn () protocolOnly = []) := by
  have hrun : run SendSystem.step (SendSystem.start PacketSelector.zeroed)
      protocolOnly = some _ := rfl
  have hroom : Along (deserializePacket passes) HasRoom (start fun _ => 0)
      [protocolOnlyChunk] := by decide
  exact framesArrive_iff hrun (le_refl passes) (by decide) hroom

end DokeviNet
