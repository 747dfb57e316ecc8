import DokeviNetwork.Receive.RoundTrip

/-!
# How the client sends a packet

`IndependentNetworkClient::SendPacket` lays the packet out in a local buffer of
`MAX_PACKET_BUF_SIZE` bytes and calls `send` until the results add up to its
length.  Every call is given the whole packet again, and a failure counts as
minus one.
-/

namespace DokeviNet

/-- The result of a call of `send`: a count of bytes or `SOCKET_ERROR`. -/
inductive SendResult
  | accepted (count : UInt32)
  | socketError
  deriving DecidableEq

namespace SendResult

/-- What is added to `SendCount`: `SOCKET_ERROR` is -1. -/
def value : SendResult → UInt32
  | accepted count => count
  | socketError => 4294967295

/-- How many bytes the socket took. -/
def count : SendResult → ℕ
  | accepted count => count.toNat
  | socketError => 0

end SendResult

/-- The loop of `SendPacket`.  `calls` and `sent`, the bytes the socket has taken,
are history variables. -/
structure SendLoop where
  sendCount : UInt32
  calls : ℕ
  sent : List UInt8

/-- One pass of the loop, on the result that the next call of `send` has. -/
def sendPass (results : ℕ → SendResult) (packet : List UInt8)
    (packetLength : UInt32) (s : SendLoop) : Pass SendLoop :=
  let s : SendLoop :=
    { sendCount := s.sendCount + (results s.calls).value
      calls := s.calls + 1
      sent := s.sent ++ packet.take (results s.calls).count }
  if s.sendCount ≠ packetLength then .again s else .stop s

/-- The loop of `SendPacket` on the packet that `sendPacket` lays out. -/
def sendPacketLoop (fuel : ℕ) (results : ℕ → SendResult)
    (inProtocol : UInt32) (inPacket : Region UInt8) (inLength : UInt32) :
    Option SendLoop :=
  Pass.loop
    (sendPass results (sendPacket inProtocol inPacket inLength)
      (inLength + 8))
    fuel { sendCount := 0, calls := 0, sent := [] }

/-- The stores to the local buffer: offset and length. -/
def sendPacketStores (inLength : UInt32) : List (ℕ × ℕ) :=
  [(0, 4), (4, 4), (8, inLength.toNat)]

/-! ## Sending once -/

/-- How many bytes the socket takes in the first `k` calls. -/
def acceptedBytes (results : ℕ → SendResult) : ℕ → ℕ
  | 0 => 0
  | k + 1 => acceptedBytes results k + (results k).count

/-- The call number `k`, counted from one, fails or makes the packet complete. -/
def Finishes (results : ℕ → SendResult) (length : ℕ) : ℕ → Prop
  | 0 => False
  | k + 1 => results k = .socketError ∨ length ≤ acceptedBytes results (k + 1)

/-- The loop stopped at the first call that failed or made the packet complete,
and the socket has taken the packet once, or after a failure a prefix of it. -/
structure SentOnce (results : ℕ → SendResult) (packet : List UInt8)
    (s : SendLoop) : Prop where
  finishes : Finishes results packet.length s.calls
  first : ∀ k < s.calls, ¬Finishes results packet.length k
  whole : results (s.calls - 1) ≠ .socketError → s.sent = packet
  part : results (s.calls - 1) = .socketError → s.sent <+: packet

/-- A packet that fits the buffer is sent once; a longer one is not stored past
the buffer, and its length does not wrap. -/
def SendsOnce (results : ℕ → SendResult) (inProtocol : UInt32)
    (inPacket : Region UInt8) (inLength : UInt32) : Prop :=
  if inLength.toNat + 8 ≤ maxPacketBufSize.toNat then
    ∃ fuel s,
      sendPacketLoop fuel results inProtocol inPacket inLength = some s ∧
        SentOnce results (sendPacket inProtocol inPacket inLength) s
  else
    (∀ x ∈ sendPacketStores inLength,
        Region.InBounds maxPacketBufSize.toNat x.1 x.2) ∧
      (inLength + 8).toNat = inLength.toNat + 8

/-- From call `j` on, with `off` bytes taken, the socket takes the rest of the
packet, and what it takes at each call, the first bytes of the packet, are also
the bytes at the offset reached. -/
inductive Repeats (results : ℕ → SendResult) (packet : List UInt8) :
    ℕ → ℕ → Prop
  | last {j off : ℕ} {count : UInt32}
      (hresult : results j = .accepted count)
      (hsum : off + count.toNat = packet.length)
      (hbytes : packet.take count.toNat = packet.drop off) :
      Repeats results packet j off
  | more {j off : ℕ} {count : UInt32}
      (hresult : results j = .accepted count)
      (hsum : off + count.toNat < packet.length)
      (hbytes : packet.take count.toNat = (packet.drop off).take count.toNat)
      (hrest : Repeats results packet (j + 1) (off + count.toNat)) :
      Repeats results packet j off

/-! ## The loop -/

section

variable {results : ℕ → SendResult} {packet : List UInt8}
  {packetLength : UInt32} {s t : SendLoop} {off fuel : ℕ}

/-- What the next call of `send` does to the state of the loop. -/
def SendLoop.next (s : SendLoop) (results : ℕ → SendResult)
    (packet : List UInt8) : SendLoop where
  sendCount := s.sendCount + (results s.calls).value
  calls := s.calls + 1
  sent := s.sent ++ packet.take (results s.calls).count

theorem sendPass_stop
    (h : s.sendCount + (results s.calls).value = packetLength) :
    sendPass results packet packetLength s = .stop (s.next results packet) :=
  if_neg (not_not.mpr h)

theorem sendPass_again
    (h : s.sendCount + (results s.calls).value ≠ packetLength) :
    sendPass results packet packetLength s = .again (s.next results packet) :=
  if_pos h

/-- From any state, the loop makes at least one more call and keeps what has been
sent. -/
theorem sendLoop_extends
    (hloop : Pass.loop (sendPass results packet packetLength) fuel s =
      some t) :
    s.calls < t.calls ∧ (s.next results packet).sent <+: t.sent := by
  induction fuel generalizing s with
  | zero => simp [Pass.loop] at hloop
  | succ fuel ih =>
      by_cases hstop : s.sendCount + (results s.calls).value = packetLength
      · rw [Pass.loop_stop (sendPass_stop hstop)] at hloop
        obtain rfl := Option.some.inj hloop
        exact ⟨Nat.lt_succ_self _, List.prefix_refl _⟩
      · rw [Pass.loop_again (sendPass_again hstop)] at hloop
        obtain ⟨hcalls, hsent⟩ := ih hloop
        have hmore : s.calls < (s.next results packet).calls :=
          Nat.lt_succ_self _
        exact ⟨hmore.trans hcalls, (List.prefix_append _ _).trans hsent⟩

/-- The first `s.calls` calls have taken the first `off` bytes of the packet, which
is not complete, and none of them failed. -/
structure Sending (results : ℕ → SendResult) (packet : List UInt8) (off : ℕ)
    (s : SendLoop) : Prop where
  count : s.sendCount.toNat = off
  sent : s.sent = packet.take off
  accepted : acceptedBytes results s.calls = off
  open_ : off < packet.length
  unfinished : ∀ k ≤ s.calls, ¬Finishes results packet.length k

theorem sending_start (hpacket : 0 < packet.length) :
    Sending results packet 0 { sendCount := 0, calls := 0, sent := [] } where
  count := rfl
  sent := rfl
  accepted := rfl
  open_ := hpacket
  unfinished k hk := by
    obtain rfl := Nat.le_zero.mp hk
    exact id

theorem Sending.finishes_iff (h : Sending results packet off s) :
    Finishes results packet.length (s.calls + 1) ↔
      results s.calls = .socketError ∨
        packet.length ≤ off + (results s.calls).count := by
  rw [Finishes, acceptedBytes, h.accepted]

theorem Sending.next_count (h : Sending results packet off s)
    {count : UInt32} (hresult : results s.calls = .accepted count)
    (hcount : count.toNat ≤ packet.length)
    (hsmall : packet.length ≤ maxPacketBufSize.toNat) :
    (s.sendCount + (results s.calls).value).toNat = off + count.toNat := by
  have hbound : maxPacketBufSize.toNat = 4096 := rfl
  have hopen := h.open_
  rw [hresult, SendResult.value, UInt32.toNat_add, h.count]
  omega

theorem Sending.next (h : Sending results packet off s) {count : UInt32}
    (hresult : results s.calls = .accepted count)
    (hsum : off + count.toNat < packet.length)
    (hsmall : packet.length ≤ maxPacketBufSize.toNat)
    (hbytes : packet.take count.toNat =
      (packet.drop off).take count.toNat) :
    Sending results packet (off + count.toNat) (s.next results packet) where
  count := h.next_count hresult (by omega) hsmall
  sent := by
    rw [SendLoop.next, h.sent, hresult, SendResult.count, hbytes,
      ← List.take_add]
  accepted := by
    rw [SendLoop.next, acceptedBytes, h.accepted, hresult, SendResult.count]
  open_ := hsum
  unfinished k hk := by
    rcases Nat.le_succ_iff.mp hk with hk | rfl
    · exact h.unfinished k hk
    · rw [h.finishes_iff, hresult, SendResult.count]
      simp [hsum]

/-- If each call takes bytes that the packet repeats at the offset reached, the
packet is sent once. -/
theorem Repeats.sentOnce {j : ℕ} (h : Repeats results packet j off)
    (hs : Sending results packet off s) (hcalls : s.calls = j)
    (hlength : packetLength.toNat = packet.length)
    (hsmall : packet.length ≤ maxPacketBufSize.toNat) :
    ∃ fuel t,
      Pass.loop (sendPass results packet packetLength) fuel s = some t ∧
        SentOnce results packet t := by
  induction h generalizing s with
  | @last j off count hresult hsum hbytes =>
      subst hcalls
      have hcount := hs.next_count hresult (by omega) hsmall
      have hstop : s.sendCount + (results s.calls).value = packetLength := by
        rw [← UInt32.toNat_inj, hcount, hsum, hlength]
      refine ⟨1, _, Pass.loop_stop (sendPass_stop hstop) 0, ?_⟩
      constructor
      · rw [SendLoop.next, hs.finishes_iff, hresult, SendResult.count]
        exact Or.inr hsum.ge
      · intro k hk
        exact hs.unfinished k (Nat.lt_succ_iff.mp hk)
      · intro _
        rw [SendLoop.next, hs.sent, hresult, SendResult.count, hbytes,
          List.take_append_drop]
      · intro hfailed
        rw [SendLoop.next, Nat.add_sub_cancel, hresult] at hfailed
        cases hfailed
  | @more j off count hresult hsum hbytes _ ih =>
      subst hcalls
      have hcount := hs.next_count hresult (by omega) hsmall
      have hagain : s.sendCount + (results s.calls).value ≠ packetLength := by
        intro heq
        rw [heq, hlength] at hcount
        omega
      obtain ⟨fuel, t, hloop, honce⟩ :=
        ih (hs.next hresult hsum hsmall hbytes) rfl
      refine ⟨fuel + 1, t, ?_, honce⟩
      rw [Pass.loop_again (sendPass_again hagain)]
      exact hloop

/-- The bytes that have been sent when the loop stops are the start of the
packet. -/
theorem SentOnce.sent_prefix (h : SentOnce results packet t) :
    t.sent <+: packet := by
  by_cases hfailed : results (t.calls - 1) = .socketError
  · exact h.part hfailed
  · exact ⟨[], by rw [List.append_nil, h.whole hfailed]⟩

/-- What a call takes continues the packet, if all that is sent does. -/
theorem Sending.bytes_eq (h : Sending results packet off s) {count : UInt32}
    (hresult : results s.calls = .accepted count)
    (hcount : count.toNat ≤ packet.length)
    (hsent : (s.next results packet).sent <+: packet) :
    packet.take count.toNat = (packet.drop off).take count.toNat := by
  obtain ⟨rest, heq⟩ := hsent
  rw [SendLoop.next, h.sent, hresult, SendResult.count,
    List.append_assoc] at heq
  have hdrop : packet.drop off = packet.take count.toNat ++ rest := by
    conv_lhs => rw [← heq]
    exact List.drop_left' (List.length_take_of_le h.open_.le)
  rw [hdrop, List.take_left' (List.length_take_of_le hcount)]

/-- A loop that sends the packet once has made no call that took other bytes than
the next ones. -/
theorem Sending.repeats (hs : Sending results packet off s)
    (hlength : packetLength.toNat = packet.length)
    (hsmall : packet.length ≤ maxPacketBufSize.toNat)
    (hpermitted : ∀ j count, results j = .accepted count →
      count ≤ packetLength)
    (hloop : Pass.loop (sendPass results packet packetLength) fuel s =
      some t)
    (honce : SentOnce results packet t) :
    Repeats results packet s.calls off := by
  have hbound : maxPacketBufSize.toNat = 4096 := rfl
  induction fuel generalizing s off with
  | zero => simp [Pass.loop] at hloop
  | succ fuel ih =>
      have hopen := hs.open_
      obtain ⟨hcalls, hsent⟩ := sendLoop_extends hloop
      have hstop : Finishes results packet.length (s.calls + 1) →
          s.sendCount + (results s.calls).value = packetLength := by
        intro hfinish
        by_contra hagain
        rw [Pass.loop_again (sendPass_again hagain)] at hloop
        exact honce.first _ (sendLoop_extends hloop).1 hfinish
      cases hresult : results s.calls with
      | socketError =>
          have heq := congrArg UInt32.toNat
            (hstop (hs.finishes_iff.mpr (Or.inl hresult)))
          have hminus : SendResult.socketError.value.toNat = 4294967295 := rfl
          rw [hresult, UInt32.toNat_add, hs.count, hminus, hlength] at heq
          omega
      | accepted count =>
          have hcount : count.toNat ≤ packet.length :=
            hlength ▸ UInt32.le_iff_toNat_le.mp
              (hpermitted s.calls count hresult)
          have hnext := hs.next_count hresult hcount hsmall
          have hbytes : packet.take count.toNat =
              (packet.drop off).take count.toNat :=
            hs.bytes_eq hresult hcount (hsent.trans honce.sent_prefix)
          rcases Nat.lt_or_ge (off + count.toNat) packet.length with
            hsum | hsum
          · have hagain :
                s.sendCount + (results s.calls).value ≠ packetLength := by
              intro heq
              rw [heq, hlength] at hnext
              omega
            rw [Pass.loop_again (sendPass_again hagain)] at hloop
            exact Repeats.more hresult hsum hbytes
              (ih (hs.next hresult hsum hsmall hbytes) hloop)
          · have heq := hstop (hs.finishes_iff.mpr (Or.inr (by
              rw [hresult]
              exact hsum)))
            rw [heq, hlength] at hnext
            refine Repeats.last hresult hnext.symm ?_
            rw [hbytes, List.take_of_length_le]
            rw [List.length_drop]
            omega

end

theorem sendPacket_length (inProtocol : UInt32) (inPacket : Region UInt8)
    (inLength : UInt32) :
    (sendPacket inProtocol inPacket inLength).length =
      (inLength + 8).toNat := by
  rw [sendPacket, Region.read_length]

/-- `SendPacket` sends a packet once exactly when the packet fits its buffer and
every call takes bytes that the packet repeats at the offset reached. -/
theorem sendsOnce_iff {results : ℕ → SendResult} {inProtocol : UInt32}
    {inPacket : Region UInt8} {inLength : UInt32}
    (hpermitted : ∀ j count, results j = .accepted count →
      1 ≤ count ∧ count ≤ inLength + 8) :
    SendsOnce results inProtocol inPacket inLength ↔
      inLength.toNat + 8 ≤ maxPacketBufSize.toNat ∧
        Repeats results (sendPacket inProtocol inPacket inLength) 0 0 := by
  have hbound : maxPacketBufSize.toNat = 4096 := rfl
  have hlength := sendPacket_length inProtocol inPacket inLength
  unfold SendsOnce
  split
  · next hfits =>
    have htotal : (inLength + 8).toNat = inLength.toNat + 8 := by
      rw [UInt32.toNat_add]
      exact Nat.mod_eq_of_lt (show inLength.toNat + 8 < 2 ^ 32 by omega)
    have hstart := @sending_start results
      (sendPacket inProtocol inPacket inLength) (by omega)
    constructor
    · rintro ⟨fuel, t, hloop, honce⟩
      exact ⟨hfits, hstart.repeats hlength.symm (by omega)
        (fun j count hresult => (hpermitted j count hresult).2) hloop honce⟩
    · rintro ⟨-, hrepeats⟩
      exact hrepeats.sentOnce hstart rfl hlength.symm (by omega)
  · next hlong =>
    constructor
    · rintro ⟨hstores, -⟩
      have hstore : 8 + inLength.toNat ≤ maxPacketBufSize.toNat :=
        hstores (8, inLength.toNat) (by simp [sendPacketStores])
      omega
    · rintro ⟨hfits, -⟩
      exact absurd hfits hlong

/-- The socket takes all eleven bytes of a packet at once. -/
theorem sendsOnce_iff_allAtOnce :
    SendsOnce (fun _ => .accepted 11) 1 (Region.ofList 0 [5, 6, 7]) 3 := by
  refine (sendsOnce_iff ?_).mpr ⟨by decide, ?_⟩
  · rintro j count hresult
    obtain rfl := SendResult.accepted.inj hresult
    decide
  · exact Repeats.last rfl (by decide) (by decide)

/-- The socket takes four bytes of the packet, and then as many as are left. -/
def fourFirst : ℕ → SendResult
  | 0 => .accepted 4
  | _ => .accepted 5

/-- `SendPacket` gives it the first bytes again. -/
theorem fourFirst_not_sendsOnce :
    (sendPacketLoop 2 fourFirst 1 (Region.ofList 0 [7]) 1).map (·.sent) =
        some [9, 0, 0, 0, 9, 0, 0, 0, 1] ∧
      sendPacket 1 (Region.ofList 0 [7]) 1 = [9, 0, 0, 0, 1, 0, 0, 0, 7] ∧
      ¬SendsOnce fourFirst 1 (Region.ofList 0 [7]) 1 := by
  refine ⟨by decide, by decide, ?_⟩
  intro honce
  rw [SendsOnce, if_pos (by decide)] at honce
  obtain ⟨fuel, t, hloop, honce⟩ := honce
  have hpermitted : ∀ j count, fourFirst j = .accepted count →
      count ≤ 1 + 8 := by
    intro j count hresult
    cases j with
    | zero => exact SendResult.accepted.inj hresult ▸ by decide
    | succ j => exact SendResult.accepted.inj hresult ▸ by decide
  have hrepeats := (sending_start (by decide)).repeats (by decide)
    (by decide) hpermitted hloop honce
  cases hrepeats with
  | last hresult hsum =>
      rw [← SendResult.accepted.inj hresult] at hsum
      exact absurd hsum (by decide)
  | more hresult _ _ hrest =>
      rw [← SendResult.accepted.inj hresult] at hrest
      cases hrest with
      | last hresult _ hbytes =>
          rw [← SendResult.accepted.inj hresult] at hbytes
          exact absurd hbytes (by decide)
      | more hresult hsum =>
          rw [← SendResult.accepted.inj hresult] at hsum
          exact absurd hsum (by decide)

end DokeviNet
