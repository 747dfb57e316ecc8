import DokeviNetwork.Core.NetworkUtils
import DokeviNetwork.Support.Loop
import DokeviNetwork.Support.Run

/-!
# How the server cuts its input into packets

`TCPSocket::RecvPacket` collects received bytes in `_packetBuf` and calls
`PacketHandler` for every packet that is complete.  The header may be read in one
call and the body completed in a later one; `_recvStep` says which of the two is
awaited.  The length field counts the header.
-/

namespace DokeviNet

open Framing LabelledRun

/-- The bytes of one completed receive. -/
structure Chunk where
  data : Region UInt8
  size : UInt32

def Chunk.bytes (c : Chunk) : List UInt8 := c.data.read 0 c.size.toNat

@[simp] theorem Chunk.bytes_length (c : Chunk) :
    c.bytes.length = c.size.toNat := by
  rw [bytes, Region.read_length]

/-- The stream that arrives in the given chunks. -/
def received (chunks : List Chunk) : List UInt8 := chunks.flatMap Chunk.bytes

/-- `RECV_STEP`. -/
inductive RecvStep
  | recvLen
  | recvBody
  deriving DecidableEq

/-- A call of `PacketHandler`, and how many bytes had been received when it was
made. -/
structure PacketHandlerCall where
  inSize : UInt32
  inData : Region UInt8
  recvSize : UInt32

/-- The bytes a handler is given. -/
def PacketHandlerCall.bytes (call : PacketHandlerCall) : List UInt8 :=
  call.inData.read 0 call.inSize.toNat

/-- The receive half of a `TCPSocket`; `calls` is a history variable. -/
structure RecvSide where
  packetBuf : Region UInt8
  recvSize : UInt32
  packetSize : UInt32
  recvStep : RecvStep
  calls : List PacketHandlerCall

/-- More passes than the loop of a receive call ever makes. -/
def passes : ℕ := 2 * maxPacketBufSize.toNat + 2

namespace RecvSide

/-- One pass of the loop in `RecvPacket`. -/
def pass (s : RecvSide) : Pass RecvSide :=
  match s.recvStep with
  | .recvLen =>
    if s.recvSize ≥ 4 then
      .again { s with
        packetSize := getSizeInByteArray s.packetBuf
        recvStep := .recvBody }
    else .stop s
  | .recvBody =>
    if s.recvSize ≥ s.packetSize then
      let s : RecvSide := { s with
        calls := s.calls ++
          [{ inSize := s.packetSize, inData := s.packetBuf
             recvSize := s.recvSize }] }
      let overValue := s.recvSize - s.packetSize
      let s : RecvSide := { s with recvStep := .recvLen }
      if overValue > 0 then
        .again { s with
          packetBuf := s.packetBuf.write 0
            (s.packetBuf.read s.packetSize.toNat overValue.toNat)
          recvSize := overValue }
      else .stop { s with recvSize := 0 }
    else .stop s

/-- `RecvPacket` on the bytes that a completed receive left in `_recvBuf`.  It
posts the next `WSARecv` in every case. -/
def recvPacket (fuel : ℕ) (s : RecvSide) (recvBuf : Chunk) :
    Option RecvSide :=
  if recvBuf.size = 0 then some s
  else
    Pass.loop pass fuel { s with
      packetBuf := s.packetBuf.write s.recvSize.toNat recvBuf.bytes
      recvSize := s.recvSize + recvBuf.size }

/-- A new socket, with whatever its buffer and `_packetSize` hold. -/
def start (packetBuf : Region UInt8) (packetSize : UInt32) : RecvSide where
  packetBuf := packetBuf
  recvSize := 0
  packetSize := packetSize
  recvStep := .recvLen
  calls := []

/-- The chunk fits behind what the buffer holds. -/
def HasRoom (s : RecvSide) (recvBuf : Chunk) : Prop :=
  s.recvSize.toNat + recvBuf.size.toNat ≤ maxPacketBufSize.toNat

instance (s : RecvSide) (recvBuf : Chunk) : Decidable (s.HasRoom recvBuf) :=
  inferInstanceAs (Decidable (_ ≤ _))

/-- The bytes received and not yet given to a handler. -/
def pending (s : RecvSide) : List UInt8 :=
  s.packetBuf.read 0 s.recvSize.toNat

@[simp] theorem pending_length (s : RecvSide) :
    s.pending.length = s.recvSize.toNat := by
  rw [pending, Region.read_length]

theorem lengthField_pending {s : RecvSide} (h : 4 ≤ s.recvSize.toNat) :
    (getSizeInByteArray s.packetBuf).toNat = lengthField s.pending := by
  rw [lengthField, pending, ← getSizeInByteArray_eq h]

/-! ## The loop -/

/-- What every pass finds after `t` has been received. -/
structure Consistent (t : List UInt8) (s : RecvSide) : Prop where
  taken : Taken 4 lengthField t (s.calls.map PacketHandlerCall.bytes) s.pending
  body : s.recvStep = .recvBody →
    4 ≤ s.recvSize.toNat ∧ s.packetSize.toNat = lengthField s.pending
  whole : ∀ call ∈ s.calls, call.inSize ≤ call.recvSize

/-- What `RecvPacket` leaves after `t` has been received. -/
structure Settled (t : List UInt8) (s : RecvSide) : Prop where
  taken : Taken 4 lengthField t (s.calls.map PacketHandlerCall.bytes) s.pending
  stuck : s.pending.length < 4 ∨ s.pending.length < lengthField s.pending
  body_iff : s.recvStep = .recvBody ↔ 4 ≤ s.recvSize.toNat
  size : s.recvStep = .recvBody → s.packetSize.toNat = lengthField s.pending
  whole : ∀ call ∈ s.calls, call.inSize ≤ call.recvSize

theorem Settled.consistent {t : List UInt8} {s : RecvSide}
    (h : Settled t s) : Consistent t s :=
  ⟨h.taken, fun hbody => ⟨h.body_iff.mp hbody, h.size hbody⟩, h.whole⟩

/-- Twice the pending bytes, and one more while a header is awaited. -/
def variant (s : RecvSide) : ℕ :=
  2 * s.recvSize.toNat + if s.recvStep = .recvLen then 1 else 0

theorem variant_le (s : RecvSide) :
    s.variant ≤ 2 * s.recvSize.toNat + 1 := by
  unfold variant
  split <;> omega

/-- Handing over a complete packet takes one frame off what is pending. -/
theorem Consistent.taken_packet {t : List UInt8} {s : RecvSide}
    (h : Consistent t s) (hstep : s.recvStep = .recvBody)
    (hsize : s.packetSize ≤ s.recvSize) :
    Taken 4 lengthField t
      (s.calls.map PacketHandlerCall.bytes ++
        [s.packetBuf.read 0 s.packetSize.toNat])
      (s.packetBuf.read s.packetSize.toNat
        (s.recvSize - s.packetSize).toNat) := by
  obtain ⟨hheader, hlength⟩ := h.body hstep
  have hle : s.packetSize.toNat ≤ s.recvSize.toNat :=
    UInt32.le_iff_toNat_le.mp hsize
  have htaken := h.taken.frame (by simpa using hheader)
    (by simpa [← hlength] using hle)
  rw [← hlength, pending, Region.read_take, Nat.min_eq_left hle,
    Region.read_drop _ hle, Nat.zero_add] at htaken
  rw [UInt32.toNat_sub_of_le _ _ hsize]
  exact htaken

/-- What a pass that asks for another one does: it reads a header, or hands a
packet over and moves the rest to the front. -/
inductive Again (s : RecvSide) : RecvSide → Prop
  | header (hstep : s.recvStep = .recvLen) (hsize : 4 ≤ s.recvSize.toNat) :
      Again s { s with
        packetSize := getSizeInByteArray s.packetBuf
        recvStep := .recvBody }
  | packet (hstep : s.recvStep = .recvBody)
      (hsize : s.packetSize ≤ s.recvSize)
      (hmore : 0 < s.recvSize - s.packetSize) :
      Again s
        { packetBuf := s.packetBuf.write 0
            (s.packetBuf.read s.packetSize.toNat
              (s.recvSize - s.packetSize).toNat)
          recvSize := s.recvSize - s.packetSize
          packetSize := s.packetSize
          recvStep := .recvLen
          calls := s.calls ++
            [{ inSize := s.packetSize, inData := s.packetBuf
               recvSize := s.recvSize }] }

theorem again_of_pass {s s' : RecvSide} (hpass : s.pass = .again s') :
    Again s s' := by
  unfold pass at hpass
  cases hstep : s.recvStep with
  | recvLen =>
      simp only [hstep] at hpass
      split at hpass
      · next hsize =>
        obtain rfl := Pass.again.inj hpass
        exact Again.header hstep (UInt32.le_iff_toNat_le.mp hsize)
      · cases hpass
  | recvBody =>
      simp only [hstep] at hpass
      split at hpass
      · next hsize =>
        split at hpass
        · next hmore =>
          obtain rfl := Pass.again.inj hpass
          exact Again.packet hstep hsize hmore
        · cases hpass
      · cases hpass

/-- A further pass keeps the state consistent, whatever the length fields. -/
theorem Consistent.keeps {t : List UInt8} {s s' : RecvSide}
    (h : Consistent t s) (hpass : s.pass = .again s') : Consistent t s' := by
  cases again_of_pass hpass with
  | header hstep hsize =>
      exact ⟨h.taken, fun _ => ⟨hsize, lengthField_pending hsize⟩, h.whole⟩
  | packet hstep hsize hmore =>
      refine ⟨?_, (fun hbody => by cases hbody), ?_⟩
      · have htaken := h.taken_packet hstep hsize
        have hmoved := s.packetBuf.read_write_self 0
          (s.packetBuf.read s.packetSize.toNat
            (s.recvSize - s.packetSize).toNat)
        rw [Region.read_length] at hmoved
        simpa [pending, PacketHandlerCall.bytes, hmoved] using htaken
      · intro call hcall
        rcases List.mem_append.mp hcall with hcall | hcall
        · exact h.whole call hcall
        · rw [List.mem_singleton.mp hcall]
          exact hsize

/-- In a body, the length field at the front is the one that was read. -/
theorem Consistent.reads_packetSize {t : List UInt8} {s : RecvSide}
    (h : Consistent t s) (hstep : s.recvStep = .recvBody) :
    Reads 4 lengthField s.pending s.packetSize.toNat := by
  obtain ⟨hheader, hlength⟩ := h.body hstep
  rw [hlength]
  exact Reads.here (by simpa using hheader)

/-- A further pass keeps the state consistent and makes progress, as no length
field is zero. -/
theorem Consistent.again {t : List UInt8} {s s' : RecvSide}
    (h : Consistent t s) (hpos : ∀ n, Reads 4 lengthField t n → n ≠ 0)
    (hpass : s.pass = .again s') :
    Consistent t s' ∧ s'.variant < s.variant := by
  refine ⟨h.keeps hpass, ?_⟩
  cases again_of_pass hpass with
  | header hstep hsize => simp [variant, hstep]
  | packet hstep hsize hmore =>
      have hnonzero := hpos _ (h.taken.reads (h.reads_packetSize hstep))
      have hover := UInt32.toNat_sub_of_le _ _ hsize
      have hle := UInt32.le_iff_toNat_le.mp hsize
      simp only [variant, hstep, hover, if_true, reduceCtorEq, if_false]
      omega

/-- What the last pass does: it finds the header or the body incomplete, or hands
over a packet that ends where the input ends. -/
inductive Stop (s : RecvSide) : RecvSide → Prop
  | noHeader (hstep : s.recvStep = .recvLen) (hsize : ¬4 ≤ s.recvSize.toNat) :
      Stop s s
  | noPacket (hstep : s.recvStep = .recvBody)
      (hsize : ¬s.packetSize.toNat ≤ s.recvSize.toNat) : Stop s s
  | lastPacket (hstep : s.recvStep = .recvBody)
      (hsize : s.packetSize ≤ s.recvSize)
      (hnone : (s.recvSize - s.packetSize).toNat = 0) :
      Stop s
        { packetBuf := s.packetBuf
          recvSize := 0
          packetSize := s.packetSize
          recvStep := .recvLen
          calls := s.calls ++
            [{ inSize := s.packetSize, inData := s.packetBuf
               recvSize := s.recvSize }] }

theorem stop_of_pass {s s' : RecvSide} (hpass : s.pass = .stop s') :
    Stop s s' := by
  unfold pass at hpass
  cases hstep : s.recvStep with
  | recvLen =>
      simp only [hstep] at hpass
      split at hpass
      · cases hpass
      · next hsize =>
        obtain rfl := Pass.stop.inj hpass
        exact Stop.noHeader hstep fun hle =>
          hsize (UInt32.le_iff_toNat_le.mpr hle)
  | recvBody =>
      simp only [hstep] at hpass
      split at hpass
      · next hsize =>
        split at hpass
        · cases hpass
        · next hmore =>
          obtain rfl := Pass.stop.inj hpass
          have hle := UInt32.le_iff_toNat_le.mp (UInt32.not_lt.mp hmore)
          exact Stop.lastPacket hstep hsize (Nat.le_zero.mp hle)
      · next hsize =>
        obtain rfl := Pass.stop.inj hpass
        exact Stop.noPacket hstep (mt UInt32.le_iff_toNat_le.mpr hsize)

/-- When the loop stops, no complete packet is left. -/
theorem Consistent.stop {t : List UInt8} {s s' : RecvSide}
    (h : Consistent t s) (hpass : s.pass = .stop s') : Settled t s' := by
  cases stop_of_pass hpass with
  | noHeader hstep hsize =>
      refine ⟨h.taken, Or.inl ?_, by simp [hstep, hsize], by simp [hstep],
        h.whole⟩
      rw [pending_length]
      omega
  | noPacket hstep hsize =>
      obtain ⟨hheader, hlength⟩ := h.body hstep
      refine ⟨h.taken, Or.inr ?_, by simp [hstep, hheader],
        fun _ => hlength, h.whole⟩
      rw [pending_length, ← hlength]
      omega
  | lastPacket hstep hsize hnone =>
      have htaken := h.taken_packet hstep hsize
      rw [hnone, Region.read_zero] at htaken
      refine ⟨?_, by simp, by simp, by simp, ?_⟩
      · simpa [pending, PacketHandlerCall.bytes] using htaken
      · intro call hcall
        rcases List.mem_append.mp hcall with hcall | hcall
        · exact h.whole call hcall
        · rw [List.mem_singleton.mp hcall]
          exact hsize

/-! ## One call -/

/-- The `memcpy` of `RecvPacket` and what it adds to `_recvSize`. -/
def copyIn (s : RecvSide) (recvBuf : Chunk) : RecvSide :=
  { s with
    packetBuf := s.packetBuf.write s.recvSize.toNat recvBuf.bytes
    recvSize := s.recvSize + recvBuf.size }

theorem recvPacket_eq_loop {s : RecvSide} {recvBuf : Chunk} (fuel : ℕ)
    (hsize : recvBuf.size ≠ 0) :
    s.recvPacket fuel recvBuf = Pass.loop pass fuel (s.copyIn recvBuf) := by
  rw [recvPacket, if_neg hsize]
  rfl

theorem HasRoom.recvSize_toNat {s : RecvSide} {c : Chunk}
    (hroom : s.HasRoom c) :
    (s.recvSize + c.size).toNat = s.recvSize.toNat + c.size.toNat := by
  rw [UInt32.toNat_add]
  refine Nat.mod_eq_of_lt (lt_of_le_of_lt hroom ?_)
  decide

theorem Settled.copyIn {t : List UInt8} {s : RecvSide} {c : Chunk}
    (h : Settled t s) (hroom : s.HasRoom c) :
    Consistent (t ++ c.bytes) (s.copyIn c) := by
  have hsum := hroom.recvSize_toNat
  have hpending : (s.copyIn c).pending = s.pending ++ c.bytes := by
    rw [pending, RecvSide.copyIn, hsum, ← c.bytes_length]
    exact s.packetBuf.read_write_extend s.recvSize.toNat c.bytes
  constructor
  · rw [hpending]
    exact h.taken.append lengthField_headerOnly c.bytes
  · intro hbody
    have hheader := h.body_iff.mp hbody
    refine ⟨by rw [RecvSide.copyIn, hsum]; omega, ?_⟩
    rw [hpending, lengthField_headerOnly _ _ (by simpa)]
    exact h.size hbody
  · exact h.whole

/-- A call of `RecvPacket` ends, and splits what has been received with it. -/
theorem Settled.recvPacket {t : List UInt8} {s : RecvSide} {c : Chunk}
    {fuel : ℕ} (h : Settled t s)
    (hpos : ∀ n, Reads 4 lengthField (t ++ c.bytes) n → n ≠ 0)
    (hroom : s.HasRoom c) (hfuel : passes ≤ fuel) :
    ∃ s', s.recvPacket fuel c = some s' ∧ Settled (t ++ c.bytes) s' := by
  by_cases hempty : c.size = 0
  · refine ⟨s, if_pos hempty, ?_⟩
    have hnil : c.bytes = [] := by
      rw [← List.length_eq_zero_iff, Chunk.bytes_length, hempty]
      rfl
    simpa [hnil] using h
  · rw [recvPacket_eq_loop fuel hempty]
    refine Pass.loop_total (fun _ _ hs hpass => hs.again hpos hpass)
      (fun _ _ hs hpass => hs.stop hpass) (h.copyIn hroom)
      (lt_of_lt_of_le ?_ hfuel)
    have hbound : (s.copyIn c).recvSize.toNat ≤ maxPacketBufSize.toNat :=
      hroom.recvSize_toNat ▸ hroom
    have hvariant := (s.copyIn c).variant_le
    rw [passes]
    omega

/-! ## A whole stream -/

theorem settled_start (packetBuf : Region UInt8) (packetSize : UInt32) :
    Settled [] (start packetBuf packetSize) where
  taken := Taken.none
  stuck := by simp [start]
  body_iff := by simp [start]
  size := by simp [start]
  whole := by simp [start]

theorem Settled.run {t : List UInt8} {s : RecvSide} {chunks : List Chunk}
    {fuel : ℕ} (h : Settled t s)
    (hpos : ∀ n, Reads 4 lengthField (t ++ received chunks) n → n ≠ 0)
    (hroom : Along (RecvSide.recvPacket fuel) HasRoom s chunks)
    (hfuel : passes ≤ fuel) :
    ∃ s', LabelledRun.run (RecvSide.recvPacket fuel) s chunks = some s' ∧
      Settled (t ++ received chunks) s' := by
  induction chunks generalizing t s with
  | nil => exact ⟨s, rfl, by simpa [received] using h⟩
  | cons c chunks ih =>
      have heq : t ++ received (c :: chunks) =
          t ++ c.bytes ++ received chunks := by simp [received]
      rw [heq] at hpos ⊢
      obtain ⟨s', hcall, hs'⟩ := h.recvPacket
        (fun n hn => hpos n (hn.append lengthField_headerOnly _)) hroom.1
        hfuel
      obtain ⟨s'', hrun, hs''⟩ := ih hs' hpos (hroom.2 s' hcall)
      exact ⟨s'', by simp [hcall, hrun], hs''⟩

/-- However a stream without a zero length field is cut into chunks that fit the
buffer, the handlers are called with the frames of the stream, all of them received,
and the buffer keeps what is left. -/
theorem recvPacket_splits {packetBuf : Region UInt8} {packetSize : UInt32}
    {chunks : List Chunk} {fuel : ℕ} (hfuel : passes ≤ fuel)
    (hpos : ∀ n, Reads 4 lengthField (received chunks) n → n ≠ 0)
    (hroom : Along (RecvSide.recvPacket fuel) HasRoom
      (start packetBuf packetSize) chunks) :
    ∃ s frames rest,
      LabelledRun.run (RecvSide.recvPacket fuel) (start packetBuf packetSize)
          chunks = some s ∧
        Splits 4 lengthField (received chunks) frames rest ∧
        s.calls.map PacketHandlerCall.bytes = frames ∧
        (∀ call ∈ s.calls, call.inSize ≤ call.recvSize) ∧
        s.packetBuf.read 0 s.recvSize.toNat = rest ∧
        (s.recvStep = .recvBody ∧ s.packetSize.toNat = lengthField rest ↔
          4 ≤ rest.length) := by
  obtain ⟨s, hrun, hs⟩ :=
    (settled_start packetBuf packetSize).run hpos hroom hfuel
  refine ⟨s, _, s.pending, hrun, hs.taken.stuck hs.stuck, rfl, hs.whole, rfl, ?_⟩
  rw [pending_length, ← hs.body_iff]
  exact ⟨fun h => h.1, fun h => ⟨h, hs.size h⟩⟩

/-- Two frames in three chunks, the second of them cut inside its header, and
the header of a third. -/
def threeChunks : List Chunk :=
  [{ data := Region.ofList 0 [6, 0, 0], size := 3 },
    { data := Region.ofList 0 [0, 1, 2, 5], size := 4 },
    { data := Region.ofList 0 [0, 0, 0, 3, 7, 0, 0, 0], size := 8 }]

theorem recvPacket_splits_threeChunks :
    ∃ s frames rest,
      LabelledRun.run (RecvSide.recvPacket passes)
          (start (fun _ => 0) 0) threeChunks = some s ∧
        Splits 4 lengthField (received threeChunks) frames rest ∧
        s.calls.map PacketHandlerCall.bytes = frames ∧
        s.packetBuf.read 0 s.recvSize.toNat = rest := by
  have hpos : ∀ n, Reads 4 lengthField (received threeChunks) n → n ≠ 0 := by
    intro n hn
    cases hn with
    | here => decide
    | later _ _ hn =>
      cases hn with
      | here => decide
      | later _ _ hn =>
        cases hn with
        | here => decide
        | later _ hlen => exact absurd hlen (by decide)
  have hroom : Along (RecvSide.recvPacket passes) HasRoom
      (start (fun _ => 0) 0) threeChunks := by decide
  obtain ⟨s, frames, rest, hrun, hsplits, hcalls, -, hrest, -⟩ :=
    recvPacket_splits (le_refl passes) hpos hroom
  exact ⟨s, frames, rest, hrun, hsplits, hcalls, hrest⟩

end RecvSide

end DokeviNet
