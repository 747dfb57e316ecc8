import DokeviNetwork.Receive.DeserializePacket

/-!
# What a peer can make the receivers do

Nothing restricts the length fields that arrive.  The loop of `RecvPacket` hands an
empty packet over again and again once it reads a zero; the loop of
`DeserializePacket` stops there.  Both functions receive up to
`MAX_PACKET_BUF_SIZE` bytes behind what an earlier call left in a buffer of that
size.
-/

namespace DokeviNet

open Framing LabelledRun

theorem received_append (chunks chunks' : List Chunk) :
    received (chunks ++ chunks') = received chunks ++ received chunks' := by
  rw [received, List.flatMap_append]
  rfl

@[simp] theorem received_singleton (c : Chunk) : received [c] = c.bytes := by
  rw [received, List.flatMap_singleton]

/-! ## The server's loop -/

namespace RecvSide

/-- A receive that ends has split what came before it and with it. -/
theorem Settled.of_recvPacket {t : List UInt8} {s s' : RecvSide} {c : Chunk}
    {fuel : ℕ} (h : Settled t s) (hroom : s.HasRoom c)
    (hcall : s.recvPacket fuel c = some s') : Settled (t ++ c.bytes) s' := by
  by_cases hempty : c.size = 0
  · rw [RecvSide.recvPacket, if_pos hempty, Option.some.injEq] at hcall
    have hnil : c.bytes = [] := by
      rw [← List.length_eq_zero_iff, Chunk.bytes_length, hempty]
      rfl
    rw [hnil, List.append_nil]
    exact hcall ▸ h
  · rw [recvPacket_eq_loop fuel hempty] at hcall
    exact Pass.loop_partial (fun _ _ hs hpass => hs.keeps hpass)
      (fun _ _ hs hpass => hs.stop hpass) (h.copyIn hroom) hcall

theorem Settled.of_run {packetBuf : Region UInt8} {packetSize : UInt32}
    {chunks : List Chunk} {fuel : ℕ} {s : RecvSide}
    (hroom : Along (RecvSide.recvPacket fuel) HasRoom
      (start packetBuf packetSize) chunks)
    (hrun : LabelledRun.run (RecvSide.recvPacket fuel)
      (start packetBuf packetSize) chunks = some s) :
    Settled (received chunks) s := by
  refine @history_of_along _ _ _ _ (fun past s => Settled (received past) s) ?_
    _ _ _ (settled_start packetBuf packetSize) hroom hrun
  intro past s c s' hs hroom hcall
  rw [received_append, received_singleton]
  exact hs.of_recvPacket hroom hcall

/-- Once no complete packet is left, no length field read was zero. -/
theorem Settled.reads_ne_zero {t : List UInt8} {s : RecvSide} {n : ℕ}
    (h : Settled t s) (hread : Reads 4 lengthField t n) : n ≠ 0 :=
  (h.taken.stuck h.stuck).reads_ne_zero hread

/-- Every packet handed over takes at least one byte off what is pending. -/
theorem Consistent.calls_again {t : List UInt8} {s s' : RecvSide}
    (h : Consistent t s) (hpos : ∀ n, Reads 4 lengthField t n → n ≠ 0)
    (hpass : s.pass = .again s') :
    s'.calls.length + s'.recvSize.toNat ≤
      s.calls.length + s.recvSize.toNat := by
  cases again_of_pass hpass with
  | header => exact le_refl _
  | packet hstep hsize hmore =>
      have hnonzero := hpos _ (h.taken.reads (h.reads_packetSize hstep))
      have hle := UInt32.le_iff_toNat_le.mp hsize
      rw [List.length_append, List.length_singleton,
        UInt32.toNat_sub_of_le _ _ hsize]
      omega

theorem Consistent.calls_stop {t : List UInt8} {s s' : RecvSide}
    (h : Consistent t s) (hpos : ∀ n, Reads 4 lengthField t n → n ≠ 0)
    (hpass : s.pass = .stop s') :
    s'.calls.length ≤ s.calls.length + s.recvSize.toNat := by
  cases stop_of_pass hpass with
  | noHeader => exact Nat.le_add_right _ _
  | noPacket => exact Nat.le_add_right _ _
  | lastPacket hstep hsize hnone =>
      have hnonzero := hpos _ (h.taken.reads (h.reads_packetSize hstep))
      have hle := UInt32.le_iff_toNat_le.mp hsize
      rw [List.length_append, List.length_singleton]
      omega

/-- Without a zero, the loop ends and hands over at most one packet a byte. -/
theorem Settled.recvPacket_calls {t : List UInt8} {s : RecvSide} {c : Chunk}
    (h : Settled t s) (hroom : s.HasRoom c)
    (hpos : ∀ n, Reads 4 lengthField (t ++ c.bytes) n → n ≠ 0) :
    ∃ s', s.recvPacket passes c = some s' ∧
      s'.calls.length ≤ s.calls.length + (s.recvSize + c.size).toNat := by
  by_cases hempty : c.size = 0
  · exact ⟨s, if_pos hempty, Nat.le_add_right _ _⟩
  · rw [recvPacket_eq_loop passes hempty]
    let bound := s.calls.length + (s.recvSize + c.size).toNat
    refine @Pass.loop_total _ pass
      (fun v => Consistent (t ++ c.bytes) v ∧
        v.calls.length + v.recvSize.toNat ≤ bound)
      (fun v => v.calls.length ≤ bound) variant ?_ ?_ passes (s.copyIn c)
      ⟨h.copyIn hroom, le_refl _⟩ ?_
    · rintro v v' ⟨hv, hbound⟩ hpass
      obtain ⟨hv', hless⟩ := hv.again hpos hpass
      exact ⟨⟨hv', (hv.calls_again hpos hpass).trans hbound⟩, hless⟩
    · rintro v v' ⟨hv, hbound⟩ hpass
      exact (hv.calls_stop hpos hpass).trans hbound
    · have hsize : (s.copyIn c).recvSize.toNat ≤ maxPacketBufSize.toNat :=
        hroom.recvSize_toNat ▸ hroom
      have hvariant := (s.copyIn c).variant_le
      rw [passes]
      omega

/-- After any receives that have ended, the loop of the next one ends, with at most
as many calls of `PacketHandler` as there are bytes in the buffer, exactly when no
length field read so far is zero. -/
theorem recvPacket_returns_iff {packetBuf : Region UInt8} {packetSize : UInt32}
    {chunks : List Chunk} {recvBuf : Chunk} {fuel : ℕ} {s : RecvSide}
    (hrun : LabelledRun.run (RecvSide.recvPacket fuel)
      (start packetBuf packetSize) chunks = some s)
    (hroom : Along (RecvSide.recvPacket fuel) HasRoom
      (start packetBuf packetSize) (chunks ++ [recvBuf])) :
    (∃ fuel' s', s.recvPacket fuel' recvBuf = some s' ∧
        s'.calls.length ≤
          s.calls.length + (s.recvSize + recvBuf.size).toNat) ↔
      ∀ n, Reads 4 lengthField (received (chunks ++ [recvBuf])) n → n ≠ 0 := by
  obtain ⟨hroom, hlast⟩ := Along.append.mp hroom
  have hfits := (hlast s hrun).1
  have hs := Settled.of_run hroom hrun
  rw [received_append, received_singleton]
  constructor
  · rintro ⟨fuel', s', hcall, -⟩ n hread
    exact (hs.of_recvPacket hfits hcall).reads_ne_zero hread
  · intro hpos
    obtain ⟨s', hcall, hcalls⟩ := hs.recvPacket_calls hfits hpos
    exact ⟨passes, s', hcall, hcalls⟩

/-- A packet of six bytes and, in a second receive, one of four. -/
def sixAndFour : Chunk × Chunk :=
  ({ data := Region.ofList 0 [6, 0, 0, 0, 1, 2, 4], size := 7 },
    { data := Region.ofList 0 [0, 0, 0], size := 3 })

theorem recvPacket_returns_iff_sixAndFour :
    ∃ s fuel' s',
      LabelledRun.run (RecvSide.recvPacket passes) (start (fun _ => 0) 0)
          [sixAndFour.1] = some s ∧
        s.recvPacket fuel' sixAndFour.2 = some s' ∧
        s'.calls.length ≤ s.calls.length + 4 := by
  have hrun : LabelledRun.run (RecvSide.recvPacket passes)
      (start (fun _ => 0) 0) [sixAndFour.1] = some _ := rfl
  have hroom : Along (RecvSide.recvPacket passes) HasRoom
      (start (fun _ => 0) 0) ([sixAndFour.1] ++ [sixAndFour.2]) := by decide
  have hpos : ∀ n, Reads 4 lengthField
      (received ([sixAndFour.1] ++ [sixAndFour.2])) n → n ≠ 0 := by
    intro n hn
    cases hn with
    | here => decide
    | later _ _ hn =>
      cases hn with
      | here => decide
      | later _ _ hn =>
        cases hn with
        | here hhdr => exact absurd hhdr (by decide)
        | later hhdr => exact absurd hhdr (by decide)
  obtain ⟨fuel', s', hcall, hcalls⟩ :=
    (recvPacket_returns_iff hrun hroom).mpr hpos
  exact ⟨_, fuel', s', hrun, hcall, hcalls⟩

/-- A header that is all zero. -/
def zeroHeader : Chunk where
  data := Region.ofList 0 [0, 0, 0, 0]
  size := 4

/-- On a zero length field the loop of a new socket's first receive never
ends. -/
theorem zeroHeader_never_returns :
    (start (fun _ => 0) 0).HasRoom zeroHeader ∧
      ¬∃ fuel s', (start (fun _ => 0) 0).recvPacket fuel zeroHeader =
        some s' := by
  refine ⟨by decide, ?_⟩
  rintro ⟨fuel, s', hcall⟩
  have hs := (settled_start (fun _ => 0) 0).of_recvPacket (by decide) hcall
  exact hs.reads_ne_zero (Reads.here (by decide)) (by decide)

end RecvSide

/-! ## Receives behind a remainder -/

/-- Every chunk ends at most `MAX_PACKET_BUF_SIZE` bytes behind the last frame
boundary in the bytes before it. -/
def CutsClose (hdr : ℕ) (len : List UInt8 → ℕ) (chunks : List Chunk) : Prop :=
  ∀ pre c post frames rest, chunks = pre ++ c :: post →
    Splits hdr len (received pre) frames rest →
    rest.length + c.size.toNat ≤ maxPacketBufSize.toNat

/-- Let `Inv t s` say that a receiver in state `s` has taken all complete frames
off `t` and still holds the `offset s` bytes behind them.  Then its buffer holds
every chunk exactly when each ends close enough behind a frame boundary. -/
theorem along_room_iff {σ : Type*} {step : σ → Chunk → Option σ}
    {Inv : List UInt8 → σ → Prop} {offset : σ → ℕ} {hdr : ℕ}
    {len : List UInt8 → ℕ} {init : σ} {chunks : List Chunk}
    (hinit : Inv [] init)
    (hkeep : ∀ t s c s', Inv t s →
      offset s + c.size.toNat ≤ maxPacketBufSize.toNat →
      step s c = some s' → Inv (t ++ c.bytes) s')
    (hsplits : ∀ t s, Inv t s →
      ∃ frames rest, Splits hdr len t frames rest ∧ rest.length = offset s)
    (hreturns : ∀ pre frames rest,
      Along step (fun s c => offset s + c.size.toNat ≤ maxPacketBufSize.toNat)
        init pre →
      Splits hdr len (received pre) frames rest →
      ∃ s, run step init pre = some s) :
    Along step (fun s c => offset s + c.size.toNat ≤ maxPacketBufSize.toNat)
      init chunks ↔ CutsClose hdr len chunks := by
  have hinv : ∀ pre s,
      Along step (fun s c => offset s + c.size.toNat ≤ maxPacketBufSize.toNat)
        init pre →
      run step init pre = some s → Inv (received pre) s := by
    intro pre s hroom hrun
    refine @history_of_along _ _ _ _ (fun past s => Inv (received past) s) ?_
      _ _ _ hinit hroom hrun
    intro past s c s' hs hroom hstep
    rw [received_append, received_singleton]
    exact hkeep _ s c s' hs hroom hstep
  constructor
  · rintro hroom pre c post frames rest rfl hsplit
    have hpre := (Along.append.mp hroom).1
    obtain ⟨s, hrun⟩ := hreturns pre frames rest hpre hsplit
    obtain ⟨frames', rest', hsplit', hrest⟩ := hsplits _ s (hinv pre s hpre hrun)
    obtain ⟨-, rfl⟩ := hsplit.unique hsplit'
    rw [hrest]
    exact hroom.at_step hrun
  · intro hclose
    apply along_of_prefixes
    intro pre c post s heq hpre hrun
    obtain ⟨frames, rest, hsplit, hrest⟩ := hsplits _ s (hinv pre s hpre hrun)
    rw [← hrest]
    exact hclose pre c post frames rest heq hsplit

namespace RecvSide

/-- As long as receives end, none of them overruns `_packetBuf` exactly when each
chunk ends close enough behind a frame boundary. -/
theorem hasRoom_iff_cutsClose {packetBuf : Region UInt8} {packetSize : UInt32}
    {chunks : List Chunk} {fuel : ℕ} (hfuel : passes ≤ fuel) :
    Along (RecvSide.recvPacket fuel) HasRoom (start packetBuf packetSize)
      chunks ↔ CutsClose 4 lengthField chunks := by
  apply along_room_iff (settled_start packetBuf packetSize)
  · intro t s c s' hs hroom hcall
    exact hs.of_recvPacket hroom hcall
  · intro t s hs
    exact ⟨_, _, hs.taken.stuck hs.stuck, s.pending_length⟩
  · intro pre frames rest hroom hsplit
    obtain ⟨s, hrun, -⟩ := (settled_start packetBuf packetSize).run
      (fun n hread => hsplit.reads_ne_zero hread) hroom hfuel
    exact ⟨s, hrun⟩

theorem hasRoom_iff_cutsClose_threeChunks :
    CutsClose 4 lengthField threeChunks :=
  (@hasRoom_iff_cutsClose (fun _ => 0) 0 threeChunks passes
    (le_refl passes)).mp (by decide)

/-- The first three bytes of a packet of 4096 bytes, and then as many bytes as a
receive may bring. -/
def splitHeader : Chunk × Chunk :=
  ({ data := Region.ofList 0 [0, 16, 0], size := 3 },
    { data := Region.ofList 0 [], size := maxPacketBufSize })

theorem splitHeader_overruns_packetBuf :
    ¬Along (RecvSide.recvPacket passes) HasRoom (start (fun _ => 0) 0)
      [splitHeader.1, splitHeader.2] := by
  intro hroom
  have hsecond := (hroom.2 _ rfl).1
  exact absurd hsecond (by decide)

end RecvSide

/-! ## The client's parser on any stream -/

/-- The length that the client's parser goes by: it never takes a packet whose
length field is zero. -/
def clientLength (s : List UInt8) : ℕ :=
  if lengthField s = 0 then 2 ^ 32 else lengthField s

theorem clientLength_headerOnly : HeaderOnly 5 clientLength := by
  intro s t hs
  rw [clientLength, clientLength, lengthField_headerOnly s t (by omega)]

namespace IndependentNetworkClient

/-- What has been taken off `t`, on any stream: packets are only taken while more
than four bytes are buffered. -/
structure Orderly (t : List UInt8) (c : IndependentNetworkClient) : Prop where
  taken : Taken 5 clientLength t (c.calls.map RecvHandlerCall.consumed)
    c.pending
  known : c.SizeKnown

theorem orderly_start (packetBuffer : Region UInt8) :
    Orderly [] (start packetBuffer) :=
  ⟨Taken.none, (consistent_start packetBuffer).known⟩

theorem Orderly.takePacket {t : List UInt8} {c : IndependentNetworkClient}
    (h : Orderly t c) (hmore : 4 < c.curOffset.toNat)
    (hsize : c.bufferSize ≤ c.curOffset) (hzero : c.bufferSize ≠ 0) :
    Orderly t c.takePacket.readSize := by
  have hlength : c.bufferSize.toNat = clientLength c.pending := by
    have hne : c.bufferSize.toNat ≠ 0 := fun heq =>
      hzero (UInt32.toNat_inj.mp heq)
    rw [h.known.1 hmore.le] at hne ⊢
    rw [clientLength, if_neg hne]
  have htaken := h.taken.frame (by rw [pending_length]; omega)
    (by
      rw [← hlength, pending_length]
      exact UInt32.le_iff_toNat_le.mp hsize)
  rw [← hlength] at htaken
  refine ⟨?_, sizeKnown_readSize fun hne => absurd rfl hne⟩
  rw [readSize_calls, readSize_pending, takePacket_pending hsize,
    takePacket_consumed hsize]
  exact htaken

theorem Orderly.again {t : List UInt8} {c c' : IndependentNetworkClient}
    (h : Orderly t c) (hmore : 4 < c.curOffset.toNat)
    (hpass : c.pass = .again c') : Orderly t c' ∧ 4 < c'.curOffset.toNat := by
  obtain ⟨hsize, hzero, rfl, hmore'⟩ := of_pass_again hpass
  exact ⟨h.takePacket hmore hsize hzero, hmore'⟩

theorem Orderly.stop {t : List UInt8} {c c' : IndependentNetworkClient}
    (h : Orderly t c) (hmore : 4 < c.curOffset.toNat)
    (hpass : c.pass = .stop c') : Orderly t c' ∧ c'.AtRest := by
  refine ⟨?_, atRest_of_pass_stop hpass⟩
  rcases of_pass_stop hpass with ⟨hsize, hzero, rfl, -⟩ | ⟨-, rfl⟩
  · exact h.takePacket hmore hsize hzero
  · exact h

theorem Orderly.of_deserializePacket {t : List UInt8}
    {c c' : IndependentNetworkClient} {chunk : Chunk} {fuel : ℕ}
    (h : Orderly t c) (hroom : c.HasRoom chunk)
    (hcall : c.deserializePacket fuel chunk = some c') :
    Orderly (t ++ chunk.bytes) c' ∧ c'.AtRest := by
  have hinit : Orderly (t ++ chunk.bytes) (c.copyIn chunk) := by
    refine ⟨?_, h.known.copyIn hroom⟩
    rw [copyIn_calls, hroom.pending_copyIn]
    exact h.taken.append clientLength_headerOnly chunk.bytes
  rw [deserializePacket_eq_loop] at hcall
  split at hcall
  · next hfew =>
    obtain rfl := Option.some.inj hcall
    exact ⟨hinit, Or.inl (UInt32.le_iff_toNat_le.mp hfew)⟩
  · next hmore =>
    refine @Pass.loop_partial _ pass
      (fun v => Orderly (t ++ chunk.bytes) v ∧ 4 < v.curOffset.toNat)
      (fun v => Orderly (t ++ chunk.bytes) v ∧ v.AtRest) ?_ ?_ _ _ _
      ⟨hinit, ?_⟩ hcall
    · rintro v v' ⟨hv, hmore⟩ hpass
      exact hv.again hmore hpass
    · rintro v v' ⟨hv, hmore⟩ hpass
      exact hv.stop hmore hpass
    · exact not_le.mp fun hle => hmore (UInt32.le_iff_toNat_le.mpr hle)

/-- At rest, every packet that the parser would take has been taken. -/
theorem Orderly.splits {t : List UInt8} {c : IndependentNetworkClient}
    (h : Orderly t c) (hrest : c.AtRest) :
    Splits 5 clientLength t (c.calls.map RecvHandlerCall.consumed)
      c.pending := by
  apply h.taken.stuck
  rw [pending_length]
  rcases hrest with hfew | hnone
  · exact Or.inl (by omega)
  · by_cases hmore : 4 < c.curOffset.toNat
    · right
      have hknown := h.known.1 hmore.le
      rw [clientLength]
      split
      · exact c.curOffset.toNat_lt
      · next hne =>
        rw [← hknown] at hne ⊢
        refine not_le.mp fun hle => hnone ⟨UInt32.le_iff_toNat_le.mpr hle, ?_⟩
        rintro hzero
        rw [hzero] at hne
        exact hne rfl
    · exact Or.inl (by omega)

/-! ## The offset -/

/-- The sizes handed over so far. -/
def handedOver (c : IndependentNetworkClient) : ℕ :=
  (c.calls.map fun call => call.inSize.toNat).sum

/-- The call takes off `_curOffset` exactly what it hands over: no subtraction goes
below zero, or the offset left would be larger by a multiple of 2^32. -/
def OffsetsAddUp (fuel : ℕ) (c : IndependentNetworkClient)
    (receivedData : Chunk) : Prop :=
  ∀ c', c.deserializePacket fuel receivedData = some c' →
    c'.curOffset.toNat + c'.handedOver =
      c.curOffset.toNat + receivedData.size.toNat + c.handedOver

theorem Consistent.offset_add {t : List UInt8} {c : IndependentNetworkClient}
    (h : Consistent t c) : c.curOffset.toNat + c.handedOver = t.length := by
  have hsizes : c.calls.map (fun call => call.inSize.toNat) =
      (c.calls.map RecvHandlerCall.consumed).map List.length := by
    rw [List.map_map]
    exact List.map_congr_left fun call hcall => (h.calls call hcall).inSize
  rw [handedOver, hsizes, ← List.length_flatten, ← h.taken.flatten_append,
    List.length_append, pending_length, Nat.add_comm]

theorem Consistent.offsetsAddUp {t : List UInt8}
    {c : IndependentNetworkClient} {chunk : Chunk} {fuel : ℕ}
    (h : Consistent t c) (hroom : c.HasRoom chunk) (hfuel : passes ≤ fuel) :
    OffsetsAddUp fuel c chunk := by
  intro c' hcall
  obtain ⟨c'', hcall', hc', -⟩ := h.deserializePacket hroom hfuel
  obtain rfl : c'' = c' := by
    rw [hcall, Option.some.injEq] at hcall'
    exact hcall'.symm
  rw [hc'.offset_add, List.length_append, Chunk.bytes_length, ← h.offset_add]
  omega

/-- No receive overruns `_packetBuffer` and no offset goes below zero, exactly when
each chunk ends close enough behind a boundary of the packets that the parser
takes. -/
theorem roomAndOffsets_iff_cutsClose {packetBuffer : Region UInt8}
    {chunks : List Chunk} {fuel : ℕ} (hfuel : passes ≤ fuel) :
    Along (IndependentNetworkClient.deserializePacket fuel)
        (fun c chunk => c.HasRoom chunk ∧ OffsetsAddUp fuel c chunk)
        (start packetBuffer) chunks ↔
      CutsClose 5 clientLength chunks := by
  have hiff : Along (IndependentNetworkClient.deserializePacket fuel) HasRoom
      (start packetBuffer) chunks ↔ CutsClose 5 clientLength chunks := by
    have hstart : Orderly [] (start packetBuffer) ∧
        (start packetBuffer).AtRest :=
      ⟨orderly_start packetBuffer, Or.inl (by simp [start])⟩
    refine @along_room_iff _ _ (fun t c => Orderly t c ∧ c.AtRest) _ _ _ _ _
      hstart ?_ ?_ ?_
    · rintro t c chunk c' ⟨hc, -⟩ hroom hcall
      exact hc.of_deserializePacket hroom hcall
    · rintro t c ⟨hc, hrest⟩
      exact ⟨_, _, hc.splits hrest, c.pending_length⟩
    · intro pre frames rest hroom _
      obtain ⟨c, hrun, -⟩ := (consistent_start packetBuffer).run
        (Or.inl (by simp [start])) hroom hfuel
      exact ⟨c, hrun⟩
  rw [← hiff]
  constructor
  · intro halong
    exact halong.mono fun c chunk h => h.1
  · intro hroom
    refine hroom.and ?_
    refine @along_of_invariant _ _ _ _ _ (fun c => ∃ t, Consistent t c) ?_ ?_
      _ _ ⟨[], consistent_start packetBuffer⟩ hroom
    · rintro c chunk c' ⟨t, hc⟩ hroom hcall
      obtain ⟨c'', hcall', hc', -⟩ := hc.deserializePacket hroom hfuel
      rw [hcall, Option.some.injEq] at hcall'
      exact ⟨_, hcall' ▸ hc'⟩
    · rintro c chunk ⟨t, hc⟩ hroom
      exact hc.offsetsAddUp hroom hfuel

theorem roomAndOffsets_iff_cutsClose_twoChunks :
    Along (IndependentNetworkClient.deserializePacket passes)
        (fun c chunk => c.HasRoom chunk ∧ OffsetsAddUp passes c chunk)
        (start fun _ => 0) twoChunks ↔
      CutsClose 5 clientLength twoChunks :=
  roomAndOffsets_iff_cutsClose (le_refl passes)

theorem splitHeader_overruns_packetBuffer :
    ¬Along (IndependentNetworkClient.deserializePacket passes)
      (fun c chunk => c.HasRoom chunk ∧ OffsetsAddUp passes c chunk)
      (start fun _ => 0) [RecvSide.splitHeader.1, RecvSide.splitHeader.2] := by
  intro halong
  have hsecond := (halong.2 _ rfl).1.1
  exact absurd hsecond (by decide)

end IndependentNetworkClient

end DokeviNet
