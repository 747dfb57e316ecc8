import DokeviNetwork.SendQueue.Model

/-!
# What one call on a send queue can do

One inversion lemma for `Send` and one for `OnWriteCallback`.  They describe the
packets after the call by the packets before it, for any lawful pools, and all
later invariants are derived from them without unfolding the two functions.
-/

namespace DokeviNet

open PacketPools

section PacketFields

variable {P : Type*} (packet : PacketInterface P) (SIZE : UInt32)
  (inData : Region UInt8) (inLen : UInt32) (inImmediateSend : Bool)

@[simp] theorem PacketInterface.append_next :
    (packet.append inData inLen).next = packet.next := rfl

@[simp] theorem PacketInterface.append_isSending :
    (packet.append inData inLen).isSending = packet.isSending := rfl

@[simp] theorem PacketInterface.append_immediateSend :
    (packet.append inData inLen).immediateSend = packet.immediateSend := rfl

/-- The contents of a packet that `AllocPacket` has released and `Send` has
filled. -/
def PacketInterface.fresh : PacketInterface P :=
  (packet.release SIZE).fill inData inLen inImmediateSend

@[simp] theorem PacketInterface.fresh_next :
    (packet.fresh SIZE inData inLen inImmediateSend).next = none := rfl

@[simp] theorem PacketInterface.fresh_isSending :
    (packet.fresh SIZE inData inLen inImmediateSend).isSending = false := rfl

@[simp] theorem PacketInterface.fresh_immediateSend :
    (packet.fresh SIZE inData inLen inImmediateSend).immediateSend =
      inImmediateSend := rfl

@[simp] theorem PacketInterface.fresh_size :
    (packet.fresh SIZE inData inLen inImmediateSend).size =
      totalPacketSize inLen := rfl

@[simp] theorem PacketInterface.fresh_remainSize :
    (packet.fresh SIZE inData inLen inImmediateSend).remainSize =
      SIZE - totalPacketSize inLen := rfl

@[simp] theorem PacketInterface.markSending_next :
    packet.markSending.next = packet.next := rfl

@[simp] theorem PacketInterface.markSending_isSending :
    packet.markSending.isSending = true := rfl

@[simp] theorem PacketInterface.linkTo_next (p : P) :
    (packet.linkTo p).next = some p := rfl

@[simp] theorem PacketInterface.linkTo_isSending (p : P) :
    (packet.linkTo p).isSending = packet.isSending := rfl

end PacketFields

section

variable {H P : Type*} [PacketPools H P]

/-- The new contents of packet `p` when `Send` allocates it. -/
def freshPacket (h : H) (p : P) (inData : Region UInt8) (inLen : UInt32)
    (inImmediateSend : Bool) : PacketInterface P :=
  (packet h p).fresh (capacity H p) inData inLen inImmediateSend

/-- `h'` comes from `h` by storing packets: whatever such stores leave alone is
the same in both. -/
def SameApartFromPackets (h h' : H) : Prop :=
  ∀ f : H → ℕ, (∀ h p v, f (assign h p v) = f h) → f h' = f h

theorem SameApartFromPackets.refl (h : H) : SameApartFromPackets h h :=
  fun _ _ => rfl

theorem SameApartFromPackets.assign {h h' : H} (hsame : SameApartFromPackets h h')
    (p : P) (v : PacketInterface P) :
    SameApartFromPackets h (PacketPools.assign h' p v) :=
  fun f hf => (hf h' p v).trans (hsame f hf)

/-- While a packet is being sent, `Send` posts no `WSASend`. -/
theorem send_accepted {accepted : Bool} {h : H} {s : SendSide P}
    {inData : Region UInt8} {inLen : UInt32} {inImmediateSend : Bool}
    (hsending : s.sendingPacket ≠ none) :
    send accepted h s inData inLen inImmediateSend =
      send true h s inData inLen inImmediateSend := by
  obtain ⟨head, hhead⟩ := Option.ne_none_iff_exists'.mp hsending
  simp only [send, sendAllocating, hhead]

/-- With no packet behind the head, `OnWriteCallback` posts none either. -/
theorem onWriteCallback_accepted {accepted : Bool} {h : H} {s : SendSide P}
    (hnext : ∀ head ∈ s.sendingPacket, (packet h head).next = none) :
    onWriteCallback accepted h s = onWriteCallback true h s := by
  unfold onWriteCallback
  cases hhead : s.sendingPacket with
  | none => rfl
  | some head => simp [hnext head hhead]

/-- What the coalescing test has checked. -/
theorem coalesces_iff {h : H} {s : SendSide P} {inLen : UInt32}
    {inImmediateSend : Bool} :
    coalesces h s inLen inImmediateSend = true ↔
      ∃ last, s.lastPacket = some last ∧
        (packet h last).isSending = false ∧
        (packet h last).immediateSend = false ∧
        totalPacketSize inLen ≤ (packet h last).remainSize ∧
        inImmediateSend = false := by
  unfold coalesces
  cases s.lastPacket with
  | none => simp
  | some last => simp [and_assoc]

/-- The same with the last packet known. -/
theorem coalesces_iff_of_last {h : H} {s : SendSide P} {inLen : UInt32}
    {inImmediateSend : Bool} {last : P} (hlast : s.lastPacket = some last) :
    coalesces h s inLen inImmediateSend = true ↔
      (packet h last).isSending = false ∧
        (packet h last).immediateSend = false ∧
        totalPacketSize inLen ≤ (packet h last).remainSize ∧
        inImmediateSend = false := by
  rw [coalesces_iff]
  constructor
  · rintro ⟨last', hlast', hconditions⟩
    obtain rfl : last = last' := Option.some.inj (hlast ▸ hlast')
    exact hconditions
  · exact fun hconditions => ⟨last, hlast, hconditions⟩

variable [DecidableEq P]

/-- The three ways `Send` can go. -/
inductive SendEffect (accepted : Bool) (h : H) (s : SendSide P)
    (inData : Region UInt8) (inLen : UInt32) (inImmediateSend : Bool)
    (call : SendCall H P) : Prop
  /-- the frame joins the last packet -/
  | append {last : P} (hlast : s.lastPacket = some last)
      (hcoalesces : coalesces h s inLen inImmediateSend = true)
      (hpackets : ∀ q, packet call.pools q =
        if q = last then (packet h last).append inData inLen else packet h q)
      (hpools : SameApartFromPackets h call.pools)
      (hsocket : call.socket = s)
      (hallocated : call.allocated = none)
      (hwrites : call.writes =
        frameWrites last (packet h last).size.toNat inLen)
  /-- the queue was empty and the new packet is sent at once -/
  | first {p : P} {h' : H}
      (hcoalesces : coalesces h s inLen inImmediateSend = false)
      (halloc : allocPacket h inLen = some (p, h'))
      (hempty : s.sendingPacket = none)
      (hpackets : ∀ q, packet call.pools q =
        if q = p then
          (freshPacket h p inData inLen inImmediateSend).markSending
        else packet h q)
      (hpools : SameApartFromPackets h' call.pools)
      (hsocket : call.socket =
        serverSend accepted call.pools
          { s with sendingPacket := some p, lastPacket := some p } p)
      (hallocated : call.allocated = some p)
      (hwrites : call.writes = frameWrites p 0 inLen)
  /-- the new packet is linked behind the last one -/
  | link {p head last : P} {h' : H}
      (hcoalesces : coalesces h s inLen inImmediateSend = false)
      (halloc : allocPacket h inLen = some (p, h'))
      (hhead : s.sendingPacket = some head)
      (hlast : s.lastPacket = some last)
      (hpackets : p ≠ last → ∀ q, packet call.pools q =
        if q = last then (packet h last).linkTo p
        else if q = p then freshPacket h p inData inLen inImmediateSend
        else packet h q)
      (hpools : SameApartFromPackets h' call.pools)
      (hsocket : call.socket = { s with lastPacket := some p })
      (hallocated : call.allocated = some p)
      (hwrites : call.writes = frameWrites p 0 inLen)

/-- What `Send` allocates, it gets from `AllocPacket` after the coalescing test
has failed. -/
theorem SendEffect.of_allocated {accepted : Bool} {h : H} {s : SendSide P}
    {inData : Region UInt8} {inLen : UInt32} {inImmediateSend : Bool}
    {call : SendCall H P} {p : P}
    (heffect : SendEffect accepted h s inData inLen inImmediateSend call)
    (hp : p ∈ call.allocated) :
    coalesces h s inLen inImmediateSend = false ∧
      p ∈ (allocPacket h inLen).map Prod.fst := by
  cases heffect with
  | append _ _ _ _ _ hallocated _ => simp [hallocated] at hp
  | first hcoalesces halloc _ _ _ _ hallocated _ =>
      obtain rfl : _ = p := by simpa [hallocated] using hp
      exact ⟨hcoalesces, by simp [halloc]⟩
  | link hcoalesces halloc _ _ _ _ _ hallocated _ =>
      obtain rfl : _ = p := by simpa [hallocated] using hp
      exact ⟨hcoalesces, by simp [halloc]⟩

variable [LawfulPacketPools H P]

theorem send_effect {accepted : Bool} {h : H} {s : SendSide P}
    {inData : Region UInt8} {inLen : UInt32} {inImmediateSend : Bool}
    {call : SendCall H P}
    (hsend : send accepted h s inData inLen inImmediateSend = some call) :
    SendEffect accepted h s inData inLen inImmediateSend call := by
  unfold send at hsend
  by_cases hcoalesces : coalesces h s inLen inImmediateSend = true
  · rw [if_pos hcoalesces] at hsend
    obtain ⟨last, hlast, rfl⟩ := Option.map_eq_some_iff.mp hsend
    exact SendEffect.append hlast hcoalesces
      (fun q => LawfulPacketPools.packet_assign h last q _)
      ((SameApartFromPackets.refl h).assign _ _) rfl rfl rfl
  · rw [if_neg hcoalesces] at hsend
    have hcoalesces := eq_false_of_ne_true hcoalesces
    obtain ⟨⟨p, h'⟩, halloc, hrest⟩ := Option.bind_eq_some_iff.mp hsend
    have hnew : packet h' p = (packet h p).release (capacity H p) := by
      simpa using LawfulPacketPools.packet_alloc halloc p
    have hold : ∀ q, q ≠ p → packet h' q = packet h q := by
      intro q hq
      simpa [hq] using LawfulPacketPools.packet_alloc halloc q
    simp only at hrest
    split at hrest
    · next hempty =>
      obtain rfl := Option.some.inj hrest
      refine SendEffect.first hcoalesces halloc hempty ?_
        (((SameApartFromPackets.refl h').assign _ _).assign _ _) rfl rfl rfl
      intro q
      by_cases hq : q = p
      · subst hq
        simp [LawfulPacketPools.packet_assign, hnew, freshPacket,
          PacketInterface.fresh]
      · simp [LawfulPacketPools.packet_assign, hq, hold q hq]
    · next head hhead =>
      obtain ⟨last, hlast, rfl⟩ := Option.map_eq_some_iff.mp hrest
      refine SendEffect.link hcoalesces halloc hhead hlast ?_
        (((SameApartFromPackets.refl h').assign _ _).assign _ _) rfl rfl rfl
      intro hne q
      have hne' : last ≠ p := Ne.symm hne
      by_cases hqlast : q = last
      · subst hqlast
        simp [LawfulPacketPools.packet_assign, hne', hold q hne']
      · by_cases hqp : q = p
        · subst hqp
          simp [LawfulPacketPools.packet_assign, hqlast, hnew, freshPacket,
            PacketInterface.fresh]
        · simp [LawfulPacketPools.packet_assign, hqlast, hqp, hold q hqp]

/-- The two ways `OnWriteCallback` can go. -/
inductive CallbackEffect (accepted : Bool) (h : H) (s : SendSide P)
    (call : CallbackCall H P) : Prop
  /-- the next packet is sent -/
  | advance {temp next : P} {h' : H} (htemp : s.sendingPacket = some temp)
      (hnext : (packet h temp).next = some next)
      (hpackets : ∀ q, q ≠ temp → packet call.pools q =
        if q = next then (packet h next).markSending
        else packet h q)
      (hpools : SameApartFromPackets h h')
      (hmax : (packet h' temp).maxSize = (packet h temp).maxSize)
      (hfree : call.pools = freePacket h' temp)
      (hsocket : next ≠ temp → call.socket =
        serverSend accepted call.pools { s with sendingPacket := some next }
          next)
      (hfreed : call.freed = temp)
  /-- the queue is empty again -/
  | drain {temp : P} (htemp : s.sendingPacket = some temp)
      (hnext : (packet h temp).next = none)
      (hpackets : ∀ q, q ≠ temp → packet call.pools q = packet h q)
      (hfree : call.pools = freePacket h temp)
      (hsocket : call.socket =
        { s with sendingPacket := none, lastPacket := none })
      (hfreed : call.freed = temp)

theorem onWriteCallback_effect {accepted : Bool} {h : H} {s : SendSide P}
    {call : CallbackCall H P}
    (hcall : onWriteCallback accepted h s = some call) :
    CallbackEffect accepted h s call := by
  obtain ⟨temp, htemp, rfl⟩ := Option.map_eq_some_iff.mp hcall
  cases hnext : (packet h temp).next with
  | none =>
      exact CallbackEffect.drain htemp hnext
        (fun q hq => LawfulPacketPools.packet_free hq) rfl rfl rfl
  | some next =>
      have hpackets : ∀ q, q ≠ temp →
          packet (freePacket (assign h next (packet h next).markSending)
            temp) q =
          if q = next then (packet h next).markSending
          else packet h q := by
        intro q hq
        rw [LawfulPacketPools.packet_free hq, LawfulPacketPools.packet_assign]
      refine CallbackEffect.advance htemp hnext hpackets
        ((SameApartFromPackets.refl h).assign next
          (packet h next).markSending) ?_ rfl ?_ rfl
      · rw [LawfulPacketPools.packet_assign]
        split
        · next heq =>
          rw [heq]
          rfl
        · rfl
      · intro hne
        simp only [serverSend, hpackets next hne,
          LawfulPacketPools.packet_assign]

end

/-! ## What one event does to the system -/

namespace SendSystem

variable {H P ι : Type*} [PacketPools H P] [DecidableEq ι]

theorem send_eq_some {accepted : Bool} {w w' : SendSystem H P ι} {s : ι}
    {inData : Region UInt8} {inLen : UInt32} {inImmediateSend : Bool}
    (h : w.send accepted s inData inLen inImmediateSend = some w') :
    ∃ call, DokeviNet.send accepted w.pools (w.sockets s) inData inLen
        inImmediateSend = some call ∧
      w' =
        { pools := call.pools
          sockets := Function.update w.sockets s call.socket
          live := w.live ++ call.allocated.toList } := by
  obtain ⟨call, hcall, rfl⟩ := Option.map_eq_some_iff.mp h
  exact ⟨call, hcall, rfl⟩

theorem transmit_eq_some {w w' : SendSystem H P ι} {s : ι}
    (h : w.transmit s = some w') :
    ∃ post posts, (w.sockets s).posted = post :: posts ∧
      post.transmitted = none ∧
      w' = { w with
        sockets := Function.update w.sockets s { w.sockets s with
          posted := { post with
            transmitted := some ((packet w.pools post.packet).buffer.read 0
              post.len.toNat) } :: posts } } := by
  unfold transmit at h
  split at h
  · cases h
  · next post posts hposted =>
    split at h
    · cases h
    · next hnone =>
      obtain rfl := Option.some.inj h
      exact ⟨post, posts, hposted, by simpa using hnone, rfl⟩

/-- The socket as the handler of its first completion finds it. -/
def completing (w : SendSystem H P ι) (s : ι) (posts : List (WsaSend P))
    (bytes : List UInt8) : SendSide P :=
  { w.sockets s with
    posted := posts
    wire := (w.sockets s).wire ++ bytes }

variable [DecidableEq P]

theorem onWriteCallback_eq_some {accepted : Bool} {w w' : SendSystem H P ι}
    {s : ι} (h : w.onWriteCallback accepted s = some w') :
    ∃ call, DokeviNet.onWriteCallback accepted w.pools (w.sockets s) =
        some call ∧
      w' =
        { pools := call.pools
          sockets := Function.update w.sockets s call.socket
          live := w.live.erase call.freed } := by
  obtain ⟨call, hcall, rfl⟩ := Option.map_eq_some_iff.mp h
  exact ⟨call, hcall, rfl⟩

theorem complete_eq_some {accepted : Bool} {w w' : SendSystem H P ι} {s : ι}
    (h : w.complete accepted s = some w') :
    ∃ post posts bytes call, (w.sockets s).posted = post :: posts ∧
      post.transmitted = some bytes ∧
      DokeviNet.onWriteCallback accepted w.pools
        (w.completing s posts bytes) = some call ∧
      w' =
        { pools := call.pools
          sockets := Function.update w.sockets s call.socket
          live := w.live.erase call.freed } := by
  unfold complete at h
  split at h
  · cases h
  · next post posts hposted =>
    obtain ⟨bytes, hbytes, hdone⟩ := Option.bind_eq_some_iff.mp h
    obtain ⟨call, hcall, rfl⟩ := onWriteCallback_eq_some hdone
    refine ⟨post, posts, bytes, call, hposted, hbytes, ?_, ?_⟩
    · simpa [completing] using hcall
    · simp

end SendSystem

end DokeviNet
