import DokeviNetwork.Receive.RecvPacket

/-!
# How the client cuts its input into packets

`IndependentNetworkClient::DeserializePacket` does for the client what
`RecvPacket` does for the server.  A zero in `_bufferSize` stands for a header not
yet read, and the function returns early while at most four bytes are
buffered.  It calls `RecvHandler` with the protocol, a pointer past both header
fields and the length field.
-/

namespace DokeviNet

open Framing LabelledRun

/-- A call of `RecvHandler`.  There are two history variables: what `_curOffset`
holds during the call, and the bytes that leave the buffer with the call. -/
structure RecvHandlerCall where
  inProtocol : UInt32
  inData : Region UInt8
  inSize : UInt32
  curOffset : UInt32
  consumed : List UInt8

/-- The conversion of a `char`, which is signed, to `unsigned int`. -/
def unsignedOfChar (c : UInt8) : UInt32 :=
  if c < 128 then c.toUInt32 else c.toUInt32 - 256

/-- `GetProtocol`: the protocol and the pointer behind the two header fields. -/
def getProtocol (inBuffer : Region UInt8) : UInt32 × Region UInt8 :=
  (unsignedOfChar (inBuffer 4), inBuffer.shift 8)

/-- The receive half of an `IndependentNetworkClient`; `calls` is a history
variable. -/
structure IndependentNetworkClient where
  packetBuffer : Region UInt8
  curOffset : UInt32
  bufferSize : UInt32
  calls : List RecvHandlerCall

namespace IndependentNetworkClient

/-- Read the length field once its four bytes are there. -/
def readSize (c : IndependentNetworkClient) : IndependentNetworkClient :=
  if c.bufferSize = 0 ∧ c.curOffset ≥ 4 then
    { c with bufferSize := getSizeInByteArray c.packetBuffer }
  else c

/-- Hand the packet at the front of the buffer over and drop it. -/
def takePacket (c : IndependentNetworkClient) : IndependentNetworkClient :=
  let (protocol, buffer) := getProtocol c.packetBuffer
  let curOffset := c.curOffset - c.bufferSize
  { packetBuffer := c.packetBuffer.write 0
      (c.packetBuffer.read c.bufferSize.toNat curOffset.toNat)
    curOffset := curOffset
    bufferSize := 0
    calls := c.calls ++
      [{ inProtocol := protocol, inData := buffer, inSize := c.bufferSize
         curOffset := c.curOffset
         consumed := c.packetBuffer.read 0 c.bufferSize.toNat }] }

/-- One pass of the loop in `DeserializePacket`. -/
def pass (c : IndependentNetworkClient) : Pass IndependentNetworkClient :=
  if c.bufferSize ≤ c.curOffset ∧ c.bufferSize ≠ 0 then
    let c := c.takePacket.readSize
    if c.curOffset ≤ 4 then .stop c else .again c
  else .stop c

/-- `DeserializePacket`. -/
def deserializePacket (fuel : ℕ) (c : IndependentNetworkClient)
    (receivedData : Chunk) : Option IndependentNetworkClient :=
  let c := { c with
    packetBuffer := c.packetBuffer.write c.curOffset.toNat receivedData.bytes
    curOffset := c.curOffset + receivedData.size }
  let c := c.readSize
  if c.curOffset ≤ 4 then some c else Pass.loop pass fuel c

/-- A client before its first receive. -/
def start (packetBuffer : Region UInt8) : IndependentNetworkClient where
  packetBuffer := packetBuffer
  curOffset := 0
  bufferSize := 0
  calls := []

/-- The chunk fits behind what the buffer holds. -/
def HasRoom (c : IndependentNetworkClient) (receivedData : Chunk) : Prop :=
  c.curOffset.toNat + receivedData.size.toNat ≤ maxPacketBufSize.toNat

instance (c : IndependentNetworkClient) (receivedData : Chunk) :
    Decidable (c.HasRoom receivedData) :=
  inferInstanceAs (Decidable (_ ≤ _))

/-- The bytes received and not yet given to a handler. -/
def pending (c : IndependentNetworkClient) : List UInt8 :=
  c.packetBuffer.read 0 c.curOffset.toNat

@[simp] theorem pending_length (c : IndependentNetworkClient) :
    c.pending.length = c.curOffset.toNat := by
  rw [pending, Region.read_length]

/-! ## Reading the length field -/

/-- `_bufferSize` is the length field at the front of the buffer, or zero if it
has not been read. -/
def SizeKnown (c : IndependentNetworkClient) : Prop :=
  (4 ≤ c.curOffset.toNat → c.bufferSize.toNat = lengthField c.pending) ∧
    (c.bufferSize ≠ 0 → 4 ≤ c.curOffset.toNat)

@[simp] theorem readSize_pending (c : IndependentNetworkClient) :
    c.readSize.pending = c.pending := by
  unfold readSize
  split <;> rfl

@[simp] theorem readSize_curOffset (c : IndependentNetworkClient) :
    c.readSize.curOffset = c.curOffset := by
  unfold readSize
  split <;> rfl

@[simp] theorem readSize_calls (c : IndependentNetworkClient) :
    c.readSize.calls = c.calls := by
  unfold readSize
  split <;> rfl

/-- After the header has been looked for, the size is known, if a size already
there was right. -/
theorem sizeKnown_readSize {c : IndependentNetworkClient}
    (h : c.bufferSize ≠ 0 →
      4 ≤ c.curOffset.toNat ∧ c.bufferSize.toNat = lengthField c.pending) :
    c.readSize.SizeKnown := by
  unfold readSize SizeKnown
  by_cases hzero : c.bufferSize = 0
  · by_cases hsize : c.curOffset ≥ 4
    · have hle : 4 ≤ c.curOffset.toNat := UInt32.le_iff_toNat_le.mp hsize
      rw [if_pos ⟨hzero, hsize⟩]
      constructor
      · intro _
        simp only [lengthField, pending, getSizeInByteArray_eq hle]
      · intro _
        exact hle
    · have hlt : ¬4 ≤ c.curOffset.toNat := fun hle =>
        hsize (UInt32.le_iff_toNat_le.mpr hle)
      rw [if_neg (fun h => hsize h.2)]
      exact ⟨fun hle => absurd hle hlt, fun hne => absurd hzero hne⟩
  · rw [if_neg (fun h => hzero h.1)]
    exact ⟨fun _ => (h hzero).2, fun _ => (h hzero).1⟩

/-! ## The loop -/

/-- What a call of `RecvHandler` is given, in terms of the bytes consumed. -/
structure Describes (call : RecvHandlerCall) : Prop where
  inSize : call.inSize.toNat = call.consumed.length
  header : 4 ≤ call.consumed.length →
    lengthField call.consumed = call.consumed.length
  protocol : 8 ≤ call.consumed.length →
    call.inProtocol = unsignedOfChar (call.consumed.getD 4 0)
  payload : 8 ≤ call.consumed.length →
    call.inData.read 0 (call.consumed.length - 8) = call.consumed.drop 8

/-- What every pass finds after `t` has been received. -/
structure Consistent (t : List UInt8) (c : IndependentNetworkClient) :
    Prop where
  taken : Taken 4 lengthField t (c.calls.map RecvHandlerCall.consumed)
    c.pending
  known : c.SizeKnown
  calls : ∀ call ∈ c.calls, Describes call

/-- What a call is given when the size of the packet in front is known. -/
theorem SizeKnown.describes {c : IndependentNetworkClient} (h : c.SizeKnown)
    (hzero : c.bufferSize ≠ 0) :
    Describes
      { inProtocol := (getProtocol c.packetBuffer).1
        inData := (getProtocol c.packetBuffer).2
        inSize := c.bufferSize
        curOffset := c.curOffset
        consumed := c.packetBuffer.read 0 c.bufferSize.toNat } where
  inSize := by simp
  header hfour := by
    rw [Region.read_length] at hfour ⊢
    calc lengthField (c.packetBuffer.read 0 c.bufferSize.toNat)
        = lengthField c.pending := by
          rw [lengthField, lengthField, pending,
            ← getSizeInByteArray_eq hfour,
            ← getSizeInByteArray_eq (h.2 hzero)]
      _ = c.bufferSize.toNat := (h.1 (h.2 hzero)).symm
  protocol height := by
    rw [Region.read_length] at height
    have hbyte : (c.packetBuffer.read 0 c.bufferSize.toNat).getD 4 0 =
        c.packetBuffer 4 := by
      have hlt : 4 < (c.packetBuffer.read 0 c.bufferSize.toNat).length := by
        rw [Region.read_length]
        omega
      rw [List.getD_eq_getElem?_getD, List.getElem?_eq_getElem hlt]
      exact Region.read_getElem hlt
    rw [hbyte]
    rfl
  payload height := by
    rw [Region.read_length] at height ⊢
    rw [Region.read_drop _ height]
    exact c.packetBuffer.shift_read 8 0 _

/-- Handing over a packet drops it from what is pending. -/
theorem takePacket_pending {c : IndependentNetworkClient}
    (hsize : c.bufferSize ≤ c.curOffset) :
    c.takePacket.pending = c.pending.drop c.bufferSize.toNat := by
  have hmoved := c.packetBuffer.read_write_self 0
    (c.packetBuffer.read c.bufferSize.toNat
      (c.curOffset - c.bufferSize).toNat)
  rw [Region.read_length] at hmoved
  rw [pending, pending, Region.read_drop _ (UInt32.le_iff_toNat_le.mp hsize),
    Nat.zero_add, ← UInt32.toNat_sub_of_le _ _ hsize]
  exact hmoved

theorem takePacket_consumed {c : IndependentNetworkClient}
    (hsize : c.bufferSize ≤ c.curOffset) :
    c.takePacket.calls.map RecvHandlerCall.consumed =
      c.calls.map RecvHandlerCall.consumed ++
        [c.pending.take c.bufferSize.toNat] := by
  rw [pending, Region.read_take,
    Nat.min_eq_left (UInt32.le_iff_toNat_le.mp hsize)]
  exact List.map_append

/-- Handing over a complete packet keeps the state consistent. -/
theorem Consistent.takePacket {t : List UInt8} {c : IndependentNetworkClient}
    (h : Consistent t c) (hsize : c.bufferSize ≤ c.curOffset)
    (hzero : c.bufferSize ≠ 0) : Consistent t c.takePacket.readSize := by
  have hle := UInt32.le_iff_toNat_le.mp hsize
  have hheader := h.known.2 hzero
  have hlength := h.known.1 hheader
  have htaken := h.taken.frame (by simpa using hheader)
    (by simpa [← hlength] using hle)
  rw [← hlength] at htaken
  refine ⟨?_, sizeKnown_readSize fun hne => absurd rfl hne, ?_⟩
  · rw [readSize_calls, readSize_pending, takePacket_pending hsize,
      takePacket_consumed hsize]
    exact htaken
  · rw [readSize_calls]
    intro call hcall
    rcases List.mem_append.mp hcall with hcall | hcall
    · exact h.calls call hcall
    · rw [List.mem_singleton.mp hcall]
      exact h.known.describes hzero

/-- The loop runs again after a complete packet, with more than four bytes
left. -/
theorem of_pass_again {c c' : IndependentNetworkClient}
    (hpass : c.pass = .again c') :
    c.bufferSize ≤ c.curOffset ∧ c.bufferSize ≠ 0 ∧
      c' = c.takePacket.readSize ∧ 4 < c'.curOffset.toNat := by
  unfold pass at hpass
  split at hpass
  · next hcond =>
    simp only at hpass
    split at hpass
    · cases hpass
    · next hmore =>
      obtain rfl := Pass.again.inj hpass
      refine ⟨hcond.1, hcond.2, rfl, ?_⟩
      exact not_le.mp fun hle => hmore (UInt32.le_iff_toNat_le.mpr hle)
  · cases hpass

/-- The loop stops after a complete packet with at most four bytes left, or
without one. -/
theorem of_pass_stop {c c' : IndependentNetworkClient}
    (hpass : c.pass = .stop c') :
    (c.bufferSize ≤ c.curOffset ∧ c.bufferSize ≠ 0 ∧
        c' = c.takePacket.readSize ∧ c'.curOffset.toNat ≤ 4) ∨
      (¬(c.bufferSize ≤ c.curOffset ∧ c.bufferSize ≠ 0) ∧ c' = c) := by
  unfold pass at hpass
  split at hpass
  · next hcond =>
    simp only at hpass
    split at hpass
    · next hfew =>
      obtain rfl := Pass.stop.inj hpass
      exact Or.inl ⟨hcond.1, hcond.2, rfl, UInt32.le_iff_toNat_le.mp hfew⟩
    · cases hpass
  · next hcond => exact Or.inr ⟨hcond, (Pass.stop.inj hpass).symm⟩

/-- Every further pass has fewer bytes to look at, whatever `_bufferSize`
holds. -/
theorem curOffset_lt_of_again {c c' : IndependentNetworkClient}
    (hpass : c.pass = .again c') :
    c'.curOffset.toNat < c.curOffset.toNat := by
  obtain ⟨hsize, hzero, rfl, -⟩ := of_pass_again hpass
  have hover := UInt32.toNat_sub_of_le _ _ hsize
  have hle := UInt32.le_iff_toNat_le.mp hsize
  have hne : c.bufferSize.toNat ≠ 0 := fun heq =>
    hzero (UInt32.toNat_inj.mp heq)
  rw [readSize_curOffset, IndependentNetworkClient.takePacket, hover]
  omega

/-- The early returns, or no complete packet at the front. -/
def AtRest (c : IndependentNetworkClient) : Prop :=
  c.curOffset.toNat ≤ 4 ∨ ¬(c.bufferSize ≤ c.curOffset ∧ c.bufferSize ≠ 0)

theorem Consistent.again {t : List UInt8} {c c' : IndependentNetworkClient}
    (h : Consistent t c) (hpass : c.pass = .again c') :
    Consistent t c' ∧ c'.curOffset.toNat < c.curOffset.toNat := by
  refine ⟨?_, curOffset_lt_of_again hpass⟩
  obtain ⟨hsize, hzero, rfl, -⟩ := of_pass_again hpass
  exact h.takePacket hsize hzero

theorem atRest_of_pass_stop {c c' : IndependentNetworkClient}
    (hpass : c.pass = .stop c') : c'.AtRest := by
  rcases of_pass_stop hpass with ⟨-, -, -, hfew⟩ | ⟨hnone, rfl⟩
  · exact Or.inl hfew
  · exact Or.inr hnone

theorem Consistent.stop {t : List UInt8} {c c' : IndependentNetworkClient}
    (h : Consistent t c) (hpass : c.pass = .stop c') :
    Consistent t c' ∧ c'.AtRest := by
  refine ⟨?_, atRest_of_pass_stop hpass⟩
  rcases of_pass_stop hpass with ⟨hsize, hzero, rfl, -⟩ | ⟨-, rfl⟩
  · exact h.takePacket hsize hzero
  · exact h

/-! ## One call and a whole stream -/

theorem consistent_start (packetBuffer : Region UInt8) :
    Consistent [] (start packetBuffer) where
  taken := Taken.none
  known := ⟨fun h => by simp [start] at h, fun h => by simp [start] at h⟩
  calls := by simp [start]

/-- The `memcpy` of `DeserializePacket`, and the header if it is there now. -/
def copyIn (c : IndependentNetworkClient) (receivedData : Chunk) :
    IndependentNetworkClient :=
  readSize { c with
    packetBuffer := c.packetBuffer.write c.curOffset.toNat receivedData.bytes
    curOffset := c.curOffset + receivedData.size }

theorem deserializePacket_eq_loop (fuel : ℕ) (c : IndependentNetworkClient)
    (receivedData : Chunk) :
    c.deserializePacket fuel receivedData =
      if (c.copyIn receivedData).curOffset ≤ 4 then
        some (c.copyIn receivedData)
      else Pass.loop pass fuel (c.copyIn receivedData) := rfl

theorem HasRoom.curOffset_toNat {c : IndependentNetworkClient} {chunk : Chunk}
    (hroom : c.HasRoom chunk) :
    (c.copyIn chunk).curOffset.toNat =
      c.curOffset.toNat + chunk.size.toNat := by
  rw [copyIn, readSize_curOffset, UInt32.toNat_add]
  refine Nat.mod_eq_of_lt (lt_of_le_of_lt hroom ?_)
  decide

theorem HasRoom.pending_copyIn {c : IndependentNetworkClient} {chunk : Chunk}
    (hroom : c.HasRoom chunk) :
    (c.copyIn chunk).pending = c.pending ++ chunk.bytes := by
  rw [pending, hroom.curOffset_toNat, ← chunk.bytes_length]
  have hbuffer : (c.copyIn chunk).packetBuffer =
      c.packetBuffer.write c.curOffset.toNat chunk.bytes := by
    unfold copyIn readSize
    split <;> rfl
  rw [hbuffer]
  exact c.packetBuffer.read_write_extend c.curOffset.toNat chunk.bytes

@[simp] theorem copyIn_calls (c : IndependentNetworkClient) (chunk : Chunk) :
    (c.copyIn chunk).calls = c.calls := readSize_calls _

/-- A size that was known stays right when more bytes arrive. -/
theorem SizeKnown.copyIn {c : IndependentNetworkClient} {chunk : Chunk}
    (h : c.SizeKnown) (hroom : c.HasRoom chunk) :
    (c.copyIn chunk).SizeKnown := by
  apply sizeKnown_readSize
  intro hne
  have hheader := h.2 hne
  have hpending := hroom.pending_copyIn
  have hoffset := hroom.curOffset_toNat
  rw [IndependentNetworkClient.copyIn, readSize_pending] at hpending
  rw [IndependentNetworkClient.copyIn, readSize_curOffset] at hoffset
  refine ⟨by rw [hoffset]; omega, ?_⟩
  rw [hpending, lengthField_headerOnly _ _ (by simpa)]
  exact h.1 hheader

theorem Consistent.copyIn {t : List UInt8} {c : IndependentNetworkClient}
    {chunk : Chunk} (h : Consistent t c) (hroom : c.HasRoom chunk) :
    Consistent (t ++ chunk.bytes) (c.copyIn chunk) where
  taken := by
    rw [copyIn_calls, hroom.pending_copyIn]
    exact h.taken.append lengthField_headerOnly chunk.bytes
  known := h.known.copyIn hroom
  calls := by
    rw [copyIn_calls]
    exact h.calls

/-- A call of `DeserializePacket` ends, on any input that fits. -/
theorem Consistent.deserializePacket {t : List UInt8}
    {c : IndependentNetworkClient} {chunk : Chunk} {fuel : ℕ}
    (h : Consistent t c) (hroom : c.HasRoom chunk) (hfuel : passes ≤ fuel) :
    ∃ c', c.deserializePacket fuel chunk = some c' ∧
      Consistent (t ++ chunk.bytes) c' ∧ c'.AtRest := by
  have hinit := h.copyIn hroom
  rw [deserializePacket_eq_loop]
  split
  · next hfew =>
    exact ⟨_, rfl, hinit, Or.inl (UInt32.le_iff_toNat_le.mp hfew)⟩
  · refine Pass.loop_total (fun _ _ hc hpass => hc.again hpass)
      (fun _ _ hc hpass => hc.stop hpass) hinit (lt_of_lt_of_le ?_ hfuel)
    have hbound : (c.copyIn chunk).curOffset.toNat ≤
        maxPacketBufSize.toNat := hroom.curOffset_toNat ▸ hroom
    rw [passes]
    omega

theorem Consistent.run {t : List UInt8} {c : IndependentNetworkClient}
    {chunks : List Chunk} {fuel : ℕ} (h : Consistent t c) (hrest : c.AtRest)
    (hroom : Along (IndependentNetworkClient.deserializePacket fuel) HasRoom
      c chunks)
    (hfuel : passes ≤ fuel) :
    ∃ c', LabelledRun.run (IndependentNetworkClient.deserializePacket fuel) c
        chunks = some c' ∧
      Consistent (t ++ received chunks) c' ∧ c'.AtRest := by
  induction chunks generalizing t c with
  | nil => exact ⟨c, rfl, by simpa [received] using h, hrest⟩
  | cons chunk chunks ih =>
      have heq : t ++ received (chunk :: chunks) =
          t ++ chunk.bytes ++ received chunks := by simp [received]
      obtain ⟨c', hcall, hc', hrest'⟩ :=
        h.deserializePacket hroom.1 hfuel
      obtain ⟨c'', hrun, hc''⟩ := ih hc' hrest' (hroom.2 c' hcall)
      exact ⟨c'', by simp [hcall, hrun], heq ▸ hc''⟩

/-- At rest, no complete packet is left if every length field counts the two
header fields. -/
theorem Consistent.splits {t : List UInt8} {c : IndependentNetworkClient}
    (h : Consistent t c) (hrest : c.AtRest)
    (height : ∀ n, Reads 4 lengthField t n → 8 ≤ n) :
    Splits 4 lengthField t (c.calls.map RecvHandlerCall.consumed)
      c.pending := by
  apply h.taken.stuck
  by_cases hheader : 4 ≤ c.pending.length
  · have hlength := height _ (h.taken.reads (Reads.here hheader))
    rw [pending_length] at hheader ⊢
    have hknown := h.known.1 hheader
    rcases hrest with hfew | hnone
    · exact Or.inr (by omega)
    · have hne : c.bufferSize ≠ 0 := by
        intro hzero
        rw [hzero] at hknown
        have hnone : (0 : UInt32).toNat = 0 := rfl
        omega
      have hmore : ¬c.bufferSize.toNat ≤ c.curOffset.toNat := fun hle =>
        hnone ⟨UInt32.le_iff_toNat_le.mpr hle, hne⟩
      exact Or.inr (by omega)
  · exact Or.inl (not_le.mp hheader)

/-! ## The two receivers -/

/-- On a stream whose length fields all count the two header fields, the server's
and the client's parser take the same frames and keep the same remainder,
however the stream is cut for each of them. -/
theorem receivers_agree {packetBuf packetBuffer : Region UInt8}
    {packetSize : UInt32} {chunks chunks' : List Chunk} {fuel : ℕ}
    (hfuel : passes ≤ fuel) (hsame : received chunks = received chunks')
    (height : ∀ n, Reads 4 lengthField (received chunks) n → 8 ≤ n)
    (hroom : Along (RecvSide.recvPacket fuel) RecvSide.HasRoom
      (RecvSide.start packetBuf packetSize) chunks)
    (hroom' : Along (IndependentNetworkClient.deserializePacket fuel) HasRoom
      (start packetBuffer) chunks') :
    ∃ s c,
      LabelledRun.run (RecvSide.recvPacket fuel)
          (RecvSide.start packetBuf packetSize) chunks = some s ∧
        LabelledRun.run (IndependentNetworkClient.deserializePacket fuel)
          (start packetBuffer) chunks' = some c ∧
        s.calls.map PacketHandlerCall.bytes =
          c.calls.map RecvHandlerCall.consumed ∧
        c.curOffset = s.recvSize ∧
        c.packetBuffer.read 0 c.curOffset.toNat =
          s.packetBuf.read 0 s.recvSize.toNat := by
  obtain ⟨s, hrun, hs⟩ := (RecvSide.settled_start packetBuf packetSize).run
    (fun n hn => by have := height n hn; omega) hroom hfuel
  obtain ⟨c, hrun', hc, hrest⟩ :=
    (consistent_start packetBuffer).run (Or.inl (by simp [start])) hroom' hfuel
  have hsplits : Splits 4 lengthField (received chunks)
      (s.calls.map PacketHandlerCall.bytes) s.pending :=
    hs.taken.stuck hs.stuck
  have hsplits' : Splits 4 lengthField (received chunks)
      (c.calls.map RecvHandlerCall.consumed) c.pending := by
    rw [List.nil_append, ← hsame] at hc
    exact hc.splits hrest height
  obtain ⟨hframes, hpending⟩ := hsplits.unique hsplits'
  refine ⟨s, c, hrun, hrun', hframes, ?_, hpending.symm⟩
  have hlength := congrArg List.length hpending
  rw [RecvSide.pending_length, pending_length] at hlength
  exact (UInt32.toNat_inj.mp hlength).symm

/-- A packet with a one-byte payload and the header of the next, in two
chunks. -/
def twoChunks : List Chunk :=
  [{ data := Region.ofList 0 [9, 0, 0, 0, 2, 0], size := 6 },
    { data := Region.ofList 0 [0, 0, 7, 8, 0, 0, 0], size := 7 }]

/-- The same bytes in three chunks. -/
def threeCuts : List Chunk :=
  [{ data := Region.ofList 0 [9, 0], size := 2 },
    { data := Region.ofList 0 [0, 0], size := 2 },
    { data := Region.ofList 0 [2, 0, 0, 0, 7, 8, 0, 0, 0], size := 9 }]

theorem receivers_agree_twoChunks :
    ∃ s c,
      LabelledRun.run (RecvSide.recvPacket passes)
          (RecvSide.start (fun _ => 0) 0) twoChunks = some s ∧
        LabelledRun.run (IndependentNetworkClient.deserializePacket passes)
          (start fun _ => 0) threeCuts = some c ∧
        s.calls.map PacketHandlerCall.bytes =
          c.calls.map RecvHandlerCall.consumed ∧
        c.curOffset = s.recvSize := by
  have height : ∀ n, Reads 4 lengthField (received twoChunks) n → 8 ≤ n := by
    intro n hn
    cases hn with
    | here => decide
    | later _ _ hn =>
      cases hn with
      | here => decide
      | later _ hlen => exact absurd hlen (by decide)
  have hroom : Along (RecvSide.recvPacket passes) RecvSide.HasRoom
      (RecvSide.start (fun _ => 0) 0) twoChunks := by decide
  have hroom' : Along (IndependentNetworkClient.deserializePacket passes)
      HasRoom (start fun _ => 0) threeCuts := by decide
  obtain ⟨s, c, hrun, hrun', hframes, hsize, -⟩ :=
    receivers_agree (le_refl passes) (by decide) height hroom hroom'
  exact ⟨s, c, hrun, hrun', hframes, hsize⟩

end IndependentNetworkClient

end DokeviNet
