import DokeviNetwork.Receive.DeserializePacket

/-!
# What one session of the client leaves to the next

`Connect` opens a socket and starts the receive thread.  It does not touch
`_packetBuffer`, `_curOffset` and `_bufferSize`, and neither does
`Disconnect`: a session starts from whatever the one before left there, and
the first from whatever `_bufferSize` held when the object was made.  Two
sessions are the same if `RecvHandler` is called with the same messages, all
the bytes that it is given compared.
-/

namespace DokeviNet

open LabelledRun

/-- What a call of `RecvHandler` is given: the protocol, `inSize`, and the
`inSize` bytes at `inData`. -/
structure ClientMessage where
  inProtocol : UInt32
  inSize : UInt32
  payload : List UInt8
  deriving DecidableEq

/-- The bytes start behind the two header fields, but `inSize` counts these
fields too: the call is given up to eight bytes more than the packet has.
Behind `_packetBuffer` they are those of `_curOffset` and `_bufferSize`. -/
def RecvHandlerCall.message (call : RecvHandlerCall) : ClientMessage where
  inProtocol := call.inProtocol
  inSize := call.inSize
  payload := (call.inData.write (maxPacketBufSize.toNat - 8)
    (sizeBytes call.curOffset ++ sizeBytes call.inSize)).read 0
      call.inSize.toNat

namespace IndependentNetworkClient

/-- A new object; the constructor leaves `_bufferSize` as it was. -/
def constructed (bufferSize : UInt32) : IndependentNetworkClient where
  packetBuffer := fun _ => 0
  curOffset := 0
  bufferSize := bufferSize
  calls := []

/-- `Connect`, as far as the parser goes: a session begins, and only the history
variable starts anew. -/
def connected (c : IndependentNetworkClient) : IndependentNetworkClient :=
  { c with calls := [] }

/-- One receive; a `memcpy` past the end of `_packetBuffer` has no defined
effect. -/
def receive (fuel : ℕ) (c : IndependentNetworkClient) (chunk : Chunk) :
    Option IndependentNetworkClient :=
  if c.HasRoom chunk then c.deserializePacket fuel chunk else none

/-- The messages of a session that receives `chunks`. -/
def sessionMessages (fuel : ℕ) (c : IndependentNetworkClient)
    (chunks : List Chunk) : Option (List ClientMessage) :=
  (run (receive fuel) c.connected chunks).map fun c =>
    c.calls.map RecvHandlerCall.message

/-- The sessions that start at `c` and at `c'` are the same function of what
they receive. -/
def SameSession (fuel : ℕ) (c c' : IndependentNetworkClient) : Prop :=
  ∀ chunks, sessionMessages fuel c chunks = sessionMessages fuel c' chunks

theorem SameSession.symm {fuel : ℕ} {c c' : IndependentNetworkClient}
    (h : SameSession fuel c c') : SameSession fuel c' c :=
  fun chunks => (h chunks).symm

theorem SameSession.trans {fuel : ℕ} {c c' c'' : IndependentNetworkClient}
    (h : SameSession fuel c c') (h' : SameSession fuel c' c'') :
    SameSession fuel c c'' :=
  fun chunks => (h chunks).trans (h' chunks)

/-- All that decides what `RecvHandler` is given is the same: the two counters,
the bytes below `_curOffset`, and those that may lie behind a packet. -/
structure LooksSame (c c' : IndependentNetworkClient) : Prop where
  curOffset : c.curOffset = c'.curOffset
  bufferSize : c.bufferSize = c'.bufferSize
  bytes : ∀ i, i < c.curOffset.toNat ∨ 8 ≤ i ∧ i < maxPacketBufSize.toNat →
    c.packetBuffer i = c'.packetBuffer i
  messages : c.calls.map RecvHandlerCall.message =
    c'.calls.map RecvHandlerCall.message

theorem LooksSame.read {c c' : IndependentNetworkClient}
    (h : LooksSame c c') {off len : ℕ}
    (hin : off + len ≤ c.curOffset.toNat) :
    c.packetBuffer.read off len = c'.packetBuffer.read off len :=
  Region.read_congr fun i _ hi => h.bytes i (Or.inl (by omega))

theorem LooksSame.readSize {c c' : IndependentNetworkClient}
    (h : LooksSame c c') : LooksSame c.readSize c'.readSize := by
  have hcond : c.bufferSize = 0 ∧ c.curOffset ≥ 4 ↔
      c'.bufferSize = 0 ∧ c'.curOffset ≥ 4 := by
    rw [h.bufferSize, h.curOffset]
  by_cases hread : c.bufferSize = 0 ∧ c.curOffset ≥ 4
  · have hfour : 0 + 4 ≤ c.curOffset.toNat := UInt32.le_iff_toNat_le.mp hread.2
    have hsize : getSizeInByteArray c.packetBuffer =
        getSizeInByteArray c'.packetBuffer := by
      rw [getSizeInByteArray, getSizeInByteArray, h.read hfour]
    rw [IndependentNetworkClient.readSize, if_pos hread,
      IndependentNetworkClient.readSize, if_pos (hcond.mp hread)]
    exact ⟨h.curOffset, hsize, h.bytes, h.messages⟩
  · rw [IndependentNetworkClient.readSize, if_neg hread,
      IndependentNetworkClient.readSize, if_neg (mt hcond.mpr hread)]
    exact h

theorem LooksSame.copyIn {c c' : IndependentNetworkClient}
    (h : LooksSame c c') (chunk : Chunk) :
    LooksSame (c.copyIn chunk) (c'.copyIn chunk) := by
  apply LooksSame.readSize
  refine ⟨?_, h.bufferSize, ?_, h.messages⟩
  · simp only [h.curOffset]
  · intro i hi
    simp only [← h.curOffset]
    apply Region.write_congr
    rw [Chunk.bytes_length]
    rintro (hbelow | habove)
    · exact h.bytes i (Or.inl hbelow)
    · -- the new bytes end below `i`, so `i` is not below the new `_curOffset`
      refine h.bytes i (Or.inr (hi.resolve_left fun hlt => ?_))
      rw [UInt32.toNat_add] at hlt
      have hwrap := Nat.mod_le (c.curOffset.toNat + chunk.size.toNat) (2 ^ 32)
      omega

/-- The packet in front is the same message, with the bytes behind it. -/
theorem LooksSame.message {c c' : IndependentNetworkClient}
    (h : LooksSame c c') (hmore : 4 < c.curOffset.toNat)
    (hin : c.curOffset.toNat ≤ maxPacketBufSize.toNat)
    (hsize : c.bufferSize ≤ c.curOffset) :
    c.takePacket.calls.map RecvHandlerCall.message =
      c'.takePacket.calls.map RecvHandlerCall.message := by
  have hprotocol : (getProtocol c.packetBuffer).1 =
      (getProtocol c'.packetBuffer).1 := by
    rw [getProtocol, getProtocol, h.bytes 4 (Or.inl hmore)]
  have hle := UInt32.le_iff_toNat_le.mp hsize
  have hpayload : ((c.packetBuffer.shift 8).write (maxPacketBufSize.toNat - 8)
        (sizeBytes c.curOffset ++ sizeBytes c.bufferSize)).read 0
          c.bufferSize.toNat =
      ((c'.packetBuffer.shift 8).write (maxPacketBufSize.toNat - 8)
        (sizeBytes c.curOffset ++ sizeBytes c.bufferSize)).read 0
          c.bufferSize.toNat := by
    apply Region.read_congr
    intro i _ hi
    apply Region.write_congr
    rw [List.length_append, sizeBytes_length, sizeBytes_length]
    intro houtside
    refine h.bytes (8 + i) (Or.inr ⟨Nat.le_add_right 8 i, ?_⟩)
    omega
  simp only [IndependentNetworkClient.takePacket, List.map_append, h.messages,
    List.map_cons, List.map_nil, RecvHandlerCall.message, hprotocol,
    ← h.bufferSize, ← h.curOffset]
  simp only [getProtocol, hpayload]

theorem LooksSame.takePacket {c c' : IndependentNetworkClient}
    (h : LooksSame c c') (hmore : 4 < c.curOffset.toNat)
    (hin : c.curOffset.toNat ≤ maxPacketBufSize.toNat)
    (hsize : c.bufferSize ≤ c.curOffset) :
    LooksSame c.takePacket c'.takePacket := by
  have hover := UInt32.toNat_sub_of_le _ _ hsize
  have hle := UInt32.le_iff_toNat_le.mp hsize
  have hmoved : c.packetBuffer.read c.bufferSize.toNat
        (c.curOffset - c.bufferSize).toNat =
      c'.packetBuffer.read c'.bufferSize.toNat
        (c'.curOffset - c'.bufferSize).toNat := by
    rw [← h.bufferSize, ← h.curOffset]
    exact h.read (by omega)
  refine ⟨?_, rfl, ?_, h.message hmore hin hsize⟩
  · simp only [IndependentNetworkClient.takePacket, h.curOffset,
      h.bufferSize]
  · intro i hi
    simp only [IndependentNetworkClient.takePacket, ← hmoved]
    apply Region.write_congr
    rw [Region.read_length, Nat.zero_add]
    intro houtside
    exact h.bytes i (Or.inr (hi.resolve_left fun hlt =>
      absurd (show i < (c.curOffset - c.bufferSize).toNat from hlt)
        (by omega)))

/-- What every pass of the loop finds in two such parsers. -/
structure LooksSameInLoop (c c' : IndependentNetworkClient) : Prop where
  same : LooksSame c c'
  more : 4 < c.curOffset.toNat
  inside : c.curOffset.toNat ≤ maxPacketBufSize.toNat

theorem LooksSameInLoop.pass {c c' : IndependentNetworkClient}
    (h : LooksSameInLoop c c') :
    Pass.Rel LooksSameInLoop LooksSame c.pass c'.pass := by
  unfold IndependentNetworkClient.pass
  rw [← h.same.bufferSize, ← h.same.curOffset]
  split
  · next hcond =>
    have hnext := (h.same.takePacket h.more h.inside hcond.1).readSize
    have hover := UInt32.toNat_sub_of_le _ _ hcond.1
    simp only [← hnext.curOffset]
    split
    · exact Pass.Rel.stop hnext
    · next hmany =>
      refine Pass.Rel.again ⟨hnext, ?_, ?_⟩
      · exact not_le.mp fun hle => hmany (UInt32.le_iff_toNat_le.mpr hle)
      · rw [readSize_curOffset, IndependentNetworkClient.takePacket, hover]
        exact (Nat.sub_le _ _).trans h.inside
  · exact Pass.Rel.stop h.same

/-- Parsers that look the same do the same with what they receive. -/
theorem LooksSame.receive {c c' : IndependentNetworkClient}
    (h : LooksSame c c') (fuel : ℕ) (chunk : Chunk) :
    Option.Rel LooksSame (c.receive fuel chunk) (c'.receive fuel chunk) := by
  have hnext := h.copyIn chunk
  have hsame : c.HasRoom chunk ↔ c'.HasRoom chunk := by
    rw [HasRoom, HasRoom, h.curOffset]
  by_cases hroom : c.HasRoom chunk
  · rw [IndependentNetworkClient.receive, if_pos hroom,
      IndependentNetworkClient.receive, if_pos (hsame.mp hroom),
      deserializePacket_eq_loop, deserializePacket_eq_loop,
      ← hnext.curOffset]
    split
    · exact Option.Rel.some hnext
    · next hmany =>
      have hmore : 4 < (c.copyIn chunk).curOffset.toNat :=
        not_le.mp fun hle => hmany (UInt32.le_iff_toNat_le.mpr hle)
      have hinside : (c.copyIn chunk).curOffset.toNat ≤
          maxPacketBufSize.toNat := hroom.curOffset_toNat ▸ hroom
      exact Pass.loop_related (fun _ _ hd => hd.pass)
        (LooksSameInLoop.mk hnext hmore hinside) fuel
  · rw [IndependentNetworkClient.receive, if_neg hroom,
      IndependentNetworkClient.receive, if_neg (mt hsame.mpr hroom)]
    exact Option.Rel.none

/-- No packet has been handed over and the size awaited is `g`, or the first
one handed over had that size. -/
def StartsWith (g : UInt32) (c : IndependentNetworkClient) : Prop :=
  (c.calls = [] ∧ c.bufferSize = g) ∨ ∃ call ∈ c.calls.head?, call.inSize = g

theorem StartsWith.takePacket {g : UInt32} {c : IndependentNetworkClient}
    (h : StartsWith g c) : StartsWith g c.takePacket.readSize := by
  refine Or.inr ?_
  rw [readSize_calls, IndependentNetworkClient.takePacket]
  rcases h with ⟨hnil, hsize⟩ | ⟨call, hcall, hsize⟩
  · simp [hnil, hsize]
  · refine ⟨call, ?_, hsize⟩
    simp [Option.mem_def.mp hcall]

end IndependentNetworkClient

end DokeviNet
