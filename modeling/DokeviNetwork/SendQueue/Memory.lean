import DokeviNetwork.Packet.MemoryTable
import DokeviNetwork.SendQueue.Bounds
import DokeviNetwork.SendQueue.Flight

/-!
# The send queue in memory

In memory a store behind the end of a buffer changes the next packet of the
pool, whether it is in flight or not.  While the lengths leave room for their
headers there is no such store: the send path does on memory what it does on a
table of records, and the representation of every queue is that of the table.
Two sends that do not fit overwrite the packet being sent.
-/

namespace DokeviNet

open PacketPools LabelledRun PacketMemory

section

variable {placement : PacketPlacement} {m : PacketMemory placement}
  {k : PacketRecords placement} {live : List (Address placement.platform)}
  {s : SendSide (Address placement.platform)} {inData : Region UInt8}
  {inLen : UInt32} {inImmediateSend : Bool}

/-! ## The parts of a call -/

/-- The coalescing test reads fields of a packet in use. -/
theorem PacketMemory.Mirrors.coalesces (h : Mirrors m k live)
    (hlast : ∀ last ∈ s.lastPacket, last ∈ live) :
    DokeviNet.coalesces m s inLen inImmediateSend =
      DokeviNet.coalesces k s inLen inImmediateSend := by
  unfold DokeviNet.coalesces
  cases hs : s.lastPacket with
  | none => rfl
  | some last =>
      have hagree := h.agree (hlast last hs)
      simp only [hagree.isSending, hagree.immediateSend, hagree.remainSize]

/-- `WSASend` is given the same bytes. -/
theorem PacketMemory.Mirrors.serverSend (h : Mirrors m k live)
    {p : Address placement.platform} (hp : p ∈ live)
    (hsize : (packet k p).size.toNat ≤
      (capacity (PacketMemory placement) p).toNat) (accepted : Bool) :
    DokeviNet.serverSend accepted m s p =
      DokeviNet.serverSend accepted k s p := by
  have hagree := h.agree hp
  have hbytes : (packet m p).buffer.read 0 (packet m p).size.toNat =
      (packet k p).buffer.read 0 (packet k p).size.toNat := by
    rw [hagree.size]
    exact hagree.read hsize
  simp only [DokeviNet.serverSend, hagree.size] at hbytes ⊢
  rw [hbytes]

/-- The frame that joins the last packet ends within its buffer. -/
theorem PacketMemory.Mirrors.sendAppending {call : SendCall (PacketMemory
      placement) (Address placement.platform)} (h : Mirrors m k live)
    (hlast : ∀ last ∈ s.lastPacket, last ∈ live ∧
      (packet k last).size.toNat + 4 + inLen.toNat ≤
        (capacity (PacketMemory placement) last).toNat)
    (hcall : DokeviNet.sendAppending m s inData inLen = some call) :
    ∃ call', DokeviNet.sendAppending k s inData inLen = some call' ∧
      call'.socket = call.socket ∧ call'.allocated = call.allocated ∧
      Mirrors call.pools call'.pools (live ++ call.allocated.toList) := by
  obtain ⟨last, hs, rfl⟩ := Option.map_eq_some_iff.mp hcall
  obtain ⟨hmem, hroom⟩ := hlast last hs
  have hagree := h.agree hmem
  have hwithin : Within m.store last ((packet m last).append inData inLen) :=
    fun j hj => storeFrame_behind (by
      rw [hagree.size]
      exact hroom.trans hj)
  refine ⟨_, Option.map_eq_some_iff.mpr ⟨last, hs, rfl⟩, rfl, rfl, ?_⟩
  rw [Option.toList_none, List.append_nil]
  exact h.assign hmem hwithin (hagree.append inData inLen)

/-- A new packet is filled within its buffer, and is sent or linked. -/
theorem PacketMemory.Mirrors.sendAllocating {call : SendCall (PacketMemory
      placement) (Address placement.platform)} (h : Mirrors m k live)
    (hlast : ∀ last ∈ s.lastPacket, last ∈ live)
    (hnew : ∀ p ∈ (PacketPools.allocPacket m inLen).map Prod.fst,
      inLen.toNat + 4 ≤ (capacity (PacketMemory placement) p).toNat)
    (hcall : DokeviNet.sendAllocating true m s inData inLen inImmediateSend =
      some call) :
    ∃ call', DokeviNet.sendAllocating true k s inData inLen inImmediateSend =
        some call' ∧
      call'.socket = call.socket ∧ call'.allocated = call.allocated ∧
      Mirrors call.pools call'.pools (live ++ call.allocated.toList) := by
  obtain ⟨⟨p, m'⟩, halloc, hrest⟩ := Option.bind_eq_some_iff.mp hcall
  obtain ⟨k', halloc', h'⟩ := h.allocPacket halloc
  have hroom := hnew p (by rw [halloc]; rfl)
  have hmem : p ∈ live ++ [p] := by simp
  have hwithin : Within m'.store p
      ((packet m' p).fill inData inLen inImmediateSend) := by
    intro j hj
    have hj : (capacity (PacketMemory placement) p).toNat ≤ j := hj
    exact storeFrame_behind (by omega)
  have hfilled := h'.assign hmem hwithin
    ((h'.agree hmem).fill inData inLen inImmediateSend)
  unfold DokeviNet.sendAllocating
  rw [halloc', Option.bind_some]
  simp only at hrest ⊢
  split at hrest
  · next hempty =>
    obtain rfl := Option.some.inj hrest
    have hmarked := hfilled.assign (v := (packet _ p).markSending) hmem
      (fun _ _ => rfl) (hfilled.agree hmem).markSending
    refine ⟨_, rfl, ?_, rfl, hmarked⟩
    refine (hmarked.serverSend hmem ?_ true).symm
    have hwrap : inLen.toNat + 4 < 2 ^ 32 :=
      lt_of_le_of_lt hroom (UInt32.toNat_lt _)
    simp only [LawfulPacketPools.packet_assign, if_true]
    change (totalPacketSize inLen).toNat ≤ _
    rw [totalPacketSize_toNat hwrap]
    exact hroom
  · next head hhead =>
    obtain ⟨last, hs, rfl⟩ := Option.map_eq_some_iff.mp hrest
    have hlive : last ∈ live ++ [p] := by simp [hlast last hs]
    refine ⟨_, Option.map_eq_some_iff.mpr ⟨last, hs, rfl⟩, rfl, rfl, ?_⟩
    exact hfilled.assign (v := (packet _ last).linkTo p) hlive
      (fun _ _ => rfl) ((hfilled.agree hlive).linkTo p)

/-- `Send`, if what it stores has room. -/
theorem PacketMemory.Mirrors.send {call : SendCall (PacketMemory placement)
      (Address placement.platform)} (h : Mirrors m k live)
    (hlast : ∀ last ∈ s.lastPacket, last ∈ live ∧
      (DokeviNet.coalesces k s inLen inImmediateSend = true →
        (packet k last).size.toNat + 4 + inLen.toNat ≤
          (capacity (PacketMemory placement) last).toNat))
    (hnew : DokeviNet.coalesces m s inLen inImmediateSend = false →
      ∀ p ∈ (PacketPools.allocPacket m inLen).map Prod.fst,
        inLen.toNat + 4 ≤ (capacity (PacketMemory placement) p).toNat)
    (hcall : DokeviNet.send true m s inData inLen inImmediateSend =
      some call) :
    ∃ call', DokeviNet.send true k s inData inLen inImmediateSend =
        some call' ∧
      call'.socket = call.socket ∧ call'.allocated = call.allocated ∧
      Mirrors call.pools call'.pools (live ++ call.allocated.toList) := by
  have hlive : ∀ last ∈ s.lastPacket, last ∈ live := fun last hs =>
    (hlast last hs).1
  have hsame := @h.coalesces _ _ _ _ _ inLen inImmediateSend hlive
  unfold DokeviNet.send at hcall ⊢
  rw [← hsame]
  cases hcoalesces : DokeviNet.coalesces m s inLen inImmediateSend with
  | true =>
      rw [if_pos hcoalesces] at hcall
      rw [if_pos rfl]
      refine h.sendAppending (fun last hs => ?_) hcall
      exact ⟨hlive last hs, (hlast last hs).2 (hsame ▸ hcoalesces)⟩
  | false =>
      rw [if_neg (by simp [hcoalesces])] at hcall
      rw [if_neg (by simp)]
      exact h.sendAllocating hlive (hnew hcoalesces) hcall

/-- `OnWriteCallback`, whose next packet, if any, is another one in use. -/
theorem PacketMemory.Mirrors.onWriteCallback {call : CallbackCall (PacketMemory
      placement) (Address placement.platform)} (h : Mirrors m k live)
    (htemp : ∀ temp ∈ s.sendingPacket, temp ∈ live ∧
      ∀ next ∈ (packet k temp).next, next ∈ live ∧
        (packet k next).size.toNat ≤
          (capacity (PacketMemory placement) next).toNat)
    (hcall : DokeviNet.onWriteCallback true m s = some call) :
    ∃ call', DokeviNet.onWriteCallback true k s = some call' ∧
      call'.socket = call.socket ∧ call'.freed = call.freed ∧
      Mirrors call.pools call'.pools live := by
  obtain ⟨temp, hs, rfl⟩ := Option.map_eq_some_iff.mp hcall
  obtain ⟨hmem, hnext⟩ := htemp temp hs
  have hsame : (packet m temp).next = (packet k temp).next :=
    (h.agree hmem).next
  refine ⟨_, Option.map_eq_some_iff.mpr ⟨temp, hs, rfl⟩, ?_⟩
  rw [hsame]
  cases hlink : (packet k temp).next with
  | none => exact ⟨rfl, rfl, h.freePacket hmem⟩
  | some next =>
      obtain ⟨hlive, hsize⟩ := hnext next hlink
      have hmarked := h.assign (v := (packet _ next).markSending) hlive
        (fun _ _ => rfl) (h.agree hlive).markSending
      refine ⟨?_, rfl, hmarked.freePacket hmem⟩
      refine (hmarked.serverSend hlive ?_ true).symm
      simp only [LawfulPacketPools.packet_assign, if_true]
      exact hsize

end

/-! ## The tables of whole runs -/

namespace SendSystem

section

variable {H P ι : Type*} [PacketPools H P] [DecidableEq P] [DecidableEq ι]
  [LawfulPacketPools H P] {v v' : SendSystem H P ι} {queue : ι → List P}

/-- One step keeps the queues and the sizes of their packets. -/
theorem exists_sized_step {e : SendEvent ι} (hfly : Flying v queue)
    (hsized : v.QueuesSized queue) (hfresh : v.Fresh e) (hroom : v.Room e)
    (hstep : v.step e = some v') :
    ∃ queue', Flying v' queue' ∧ v'.QueuesSized queue' := by
  cases e with
  | send s inData inLen inImmediateSend =>
      obtain ⟨call, hcall, rfl⟩ := send_eq_some hstep
      refine ⟨_, hfly.send hfresh hcall, Shape.forall_send
        (fun p v => v.Sized (capacity H p)) (fun _ _ h => h.markSending)
        (fun _ _ q h => h.linkTo q) hfly.toShape hfresh hcall hsized ?_ ?_⟩
      · exact fun last hlast hremain => (hsized s last hlast).append hremain
      · intro p hp
        exact PacketInterface.sized_fresh _
          (room_of_allocated hroom hcall p hp)
  | transmit s =>
      have hnext := hfly.transmit hstep
      obtain ⟨post, posts, -, -, rfl⟩ := transmit_eq_some hstep
      exact ⟨queue, hnext, hsized⟩
  | complete s =>
      obtain ⟨post, posts, bytes, call, hposted, -, hcall, rfl⟩ :=
        complete_eq_some hstep
      have hsock := hfly.completing s posts bytes
      exact ⟨_, hfly.complete hposted hcall,
        Shape.forall_callback (fun p v => v.Sized (capacity H p))
          (fun _ _ h => h.markSending) hfly.toShape hsock hcall hsized⟩

end

variable {placement : PacketPlacement} {ι : Type*}

/-- The sockets on memory and on a table that the memory holds. -/
structure Mirrors
    (w : SendSystem (PacketMemory placement) (Address placement.platform) ι)
    (v : SendSystem (PacketRecords placement) (Address placement.platform) ι) :
    Prop where
  pools : PacketMemory.Mirrors w.pools v.pools w.live
  sockets : v.sockets = w.sockets
  live : v.live = w.live

variable {w w' : SendSystem (PacketMemory placement)
    (Address placement.platform) ι}
  {v : SendSystem (PacketRecords placement) (Address placement.platform) ι}
  {queue : ι → List (Address placement.platform)}

theorem mirrors_start (m : PacketMemory placement) :
    Mirrors (start m : SendSystem (PacketMemory placement) _ ι)
      (start { store := tableOf m.store, pools := m.pools }) :=
  ⟨mirrors_tableOf m, rfl, rfl⟩

/-- A queued packet is what the table says. -/
theorem Mirrors.agree (h : Mirrors w v) (hfly : Flying v queue) {s : ι}
    {p : Address placement.platform} (hp : p ∈ queue s) :
    (packet w.pools p).AgreeIn (capacity (PacketMemory placement) p)
      (packet v.pools p) :=
  h.pools.agree (h.live ▸ hfly.live s p hp)

theorem Mirrors.last_live (h : Mirrors w v) (hfly : Flying v queue) (s : ι) :
    ∀ last ∈ (w.sockets s).lastPacket, last ∈ w.live := by
  intro last hlast
  rw [← h.sockets] at hlast
  exact h.live ▸ hfly.live s last ((hfly.queues s).last_mem hlast)

theorem Mirrors.coalesces (h : Mirrors w v) (hfly : Flying v queue) (s : ι)
    (inLen : UInt32) (inImmediateSend : Bool) :
    DokeviNet.coalesces w.pools (w.sockets s) inLen inImmediateSend =
      DokeviNet.coalesces v.pools (w.sockets s) inLen inImmediateSend :=
  h.pools.coalesces (h.last_live hfly s)

/-- What a `Send` needs on memory it has on the table. -/
theorem Mirrors.needs (h : Mirrors w v) (hfly : Flying v queue)
    {e : SendEvent ι} (hfresh : w.Fresh e) (hroom : w.Room e) :
    v.Fresh e ∧ v.Room e := by
  cases e with
  | send s inData inLen inImmediateSend =>
      have hcoalesces := h.coalesces hfly s inLen inImmediateSend
      rw [← h.sockets] at hcoalesces
      have hallocated : (allocPacket w.pools inLen).map Prod.fst =
          (allocPacket v.pools inLen).map Prod.fst :=
        PlacedPools.allocPacket_fst h.pools.pools
      rw [Fresh, SendsFresh, ← h.sockets, hcoalesces, hallocated,
        ← h.live] at hfresh
      rw [Room, SendRoom, ← h.sockets, hcoalesces, hallocated] at hroom
      exact ⟨hfresh, hroom⟩
  | transmit => exact ⟨trivial, trivial⟩
  | complete => exact ⟨trivial, trivial⟩

variable [DecidableEq ι]

theorem Mirrors.send (h : Mirrors w v) (hfly : Flying v queue)
    (hsized : v.QueuesSized queue) {s : ι} {inData : Region UInt8}
    {inLen : UInt32} {inImmediateSend : Bool}
    (hroom : w.SendRoom s inLen inImmediateSend)
    (hstep : w.send true s inData inLen inImmediateSend = some w') :
    ∃ v', v.send true s inData inLen inImmediateSend = some v' ∧
      Mirrors w' v' := by
  obtain ⟨call, hcall, rfl⟩ := send_eq_some hstep
  have hsame := h.coalesces hfly s inLen inImmediateSend
  have hlast : ∀ last ∈ (w.sockets s).lastPacket, last ∈ w.live ∧
      (DokeviNet.coalesces v.pools (w.sockets s) inLen inImmediateSend = true →
        (packet v.pools last).size.toNat + 4 + inLen.toNat ≤
          (capacity (PacketMemory placement) last).toNat) := by
    intro last hlast
    refine ⟨h.last_live hfly s last hlast, fun hcoalesces => ?_⟩
    rw [SendRoom, hsame, if_pos hcoalesces] at hroom
    obtain ⟨-, -, hremain, -⟩ := (coalesces_iff_of_last hlast).mp hcoalesces
    rw [← h.sockets] at hlast
    exact (hsized s last ((hfly.queues s).last_mem hlast)).append_inside hroom
      hremain
  have hnew : DokeviNet.coalesces w.pools (w.sockets s) inLen
      inImmediateSend = false →
      ∀ p ∈ (allocPacket w.pools inLen).map Prod.fst,
        inLen.toNat + 4 ≤ (capacity (PacketMemory placement) p).toNat := by
    intro hno
    rw [SendRoom, if_neg (by simp [hno])] at hroom
    exact hroom
  obtain ⟨call', hcall', hsocket, hallocated, hpools⟩ :=
    h.pools.send hlast hnew hcall
  have hsend : v.send true s inData inLen inImmediateSend = some
      { pools := call'.pools
        sockets := Function.update v.sockets s call'.socket
        live := v.live ++ call'.allocated.toList } := by
    rw [SendSystem.send, h.sockets, hcall']
    rfl
  refine ⟨_, hsend, hpools, ?_, ?_⟩
  · simp only [h.sockets, hsocket]
  · simp only [h.live, hallocated]

theorem Mirrors.transmit (h : Mirrors w v) (hfly : Flying v queue)
    (hsized : v.QueuesSized queue) {s : ι} (hstep : w.transmit s = some w') :
    ∃ v', v.transmit s = some v' ∧ Mirrors w' v' := by
  obtain ⟨post, posts, hposted, hnone, rfl⟩ := transmit_eq_some hstep
  have hposted' := hposted
  rw [← h.sockets] at hposted'
  obtain ⟨hhead, -, hlen, -⟩ := (hfly.flight s).eq_of_posted hposted'
  have hmem := List.mem_of_mem_head? hhead
  have hbytes : (packet w.pools post.packet).buffer.read 0 post.len.toNat =
      (packet v.pools post.packet).buffer.read 0 post.len.toNat := by
    have hsum := (hsized s post.packet hmem).sum
    refine (h.agree hfly hmem).read ?_
    rw [hlen]
    exact (Nat.le_add_right _ _).trans hsum.le
  have htransmit : v.transmit s = some { v with
      sockets := Function.update v.sockets s { v.sockets s with
        posted := { post with
          transmitted := some ((packet v.pools post.packet).buffer.read 0
            post.len.toNat) } :: posts } } := by
    simp [SendSystem.transmit, hposted', hnone]
  refine ⟨_, htransmit, h.pools, ?_, h.live⟩
  simp only [h.sockets, hbytes]

theorem Mirrors.complete (h : Mirrors w v) (hfly : Flying v queue)
    (hsized : v.QueuesSized queue) {s : ι}
    (hstep : w.complete true s = some w') :
    ∃ v', v.complete true s = some v' ∧ Mirrors w' v' := by
  obtain ⟨post, posts, bytes, call, hposted, hbytes, hcall, rfl⟩ :=
    complete_eq_some hstep
  have htemp : ∀ temp ∈ (w.completing s posts bytes).sendingPacket,
      temp ∈ w.live ∧ ∀ next ∈ (packet v.pools temp).next, next ∈ w.live ∧
        (packet v.pools next).size.toNat ≤
          (capacity (PacketMemory placement) next).toNat := by
    intro temp htemp
    have hq := hfly.queues s
    rw [completing, ← h.sockets] at htemp
    obtain ⟨rest, heq⟩ := hq.eq_cons htemp
    have hmem : temp ∈ queue s := by simp [heq]
    refine ⟨h.live ▸ hfly.live s temp hmem, fun next hnext => ?_⟩
    -- what the head links to is behind it on the queue
    have hbehind : next ∈ queue s := hq.linked.mem_next hmem hnext
    have hsum := (hsized s next hbehind).sum
    exact ⟨h.live ▸ hfly.live s next hbehind,
      (Nat.le_add_right _ _).trans hsum.le⟩
  obtain ⟨call', hcall', hsocket, hfreed, hpools⟩ :=
    h.pools.onWriteCallback htemp hcall
  have hcomplete : v.complete true s = some
      { pools := call'.pools
        sockets := Function.update v.sockets s call'.socket
        live := v.live.erase call'.freed } := by
    have hsame : w.completing s posts bytes = v.completing s posts bytes := by
      rw [completing, completing, h.sockets]
    rw [hsame, completing] at hcall'
    rw [← h.sockets] at hposted
    simp [SendSystem.complete, SendSystem.onWriteCallback, hposted, hbytes,
      hcall']
  refine ⟨_, hcomplete, ?_, ?_, ?_⟩
  · exact hpools.mono fun p hp => List.mem_of_mem_erase hp
  · simp only [h.sockets, hsocket]
  · simp only [h.live, hfreed]

/-- Each step on memory is the same step on the table, if what a `Send` stores
has room. -/
theorem Mirrors.step (h : Mirrors w v) (hfly : Flying v queue)
    (hsized : v.QueuesSized queue) {e : SendEvent ι} (hroom : w.Room e)
    (hstep : w.step e = some w') :
    ∃ v', v.step e = some v' ∧ Mirrors w' v' := by
  cases e with
  | send => exact h.send hfly hsized hroom hstep
  | transmit => exact h.transmit hfly hsized hstep
  | complete => exact h.complete hfly hsized hstep

omit [DecidableEq ι] in
/-- The queues of the table are those of the memory. -/
theorem Mirrors.flying (h : Mirrors w v) (hfly : Flying v queue)
    (hsized : v.QueuesSized queue) : Flying w queue := by
  refine ⟨⟨fun s => ?_, hfly.disjoint, fun s p hp => ?_⟩, fun s => ?_⟩
  · have hq := hfly.queues s
    rw [h.sockets] at hq
    refine ⟨?_, hq.last, hq.nodup, fun p hp => ?_⟩
    · exact hq.linked.congr fun p hp => (h.agree hfly hp).next
    · rw [(h.agree hfly hp).isSending]
      exact hq.sending p hp
  · exact h.live ▸ hfly.live s p hp
  · have hf := hfly.flight s
    rw [h.sockets] at hf
    refine ⟨hf.idle, fun head hhead => ?_⟩
    have hmem := List.mem_of_mem_head? hhead
    have hagree := h.agree hfly hmem
    have hsum := (hsized s head hmem).sum
    have hcontents : contents w.pools head = contents v.pools head := by
      rw [contents, contents, hagree.size]
      exact hagree.read ((Nat.le_add_right _ _).trans hsum.le)
    rw [hagree.size, hcontents]
    exact hf.busy head hhead

/-- After a run with fresh packets and room, the memory holds a table on which
the queues are what they should be. -/
theorem exists_mirrors_of_run {m : PacketMemory placement}
    {es : List (SendEvent ι)}
    (hfresh : Along step Fresh (start m) es)
    (hroom : Along step Room (start m) es)
    (hrun : run step (start m) es = some w) :
    ∃ (v : SendSystem (PacketRecords placement) _ ι)
      (queue : ι → List (Address placement.platform)),
      Mirrors w v ∧ Flying v queue ∧ v.QueuesSized queue := by
  refine @invariant_of_along _ _ _ _
    (fun w => ∃ (v : SendSystem (PacketRecords placement) _ ι)
      (queue : ι → List (Address placement.platform)),
      Mirrors w v ∧ Flying v queue ∧ v.QueuesSized queue)
    ?_ _ _ _ ⟨_, _, mirrors_start m, flying_start _, by simp [QueuesSized]⟩
    (hfresh.and hroom) hrun
  rintro w e w' ⟨v, queue, h, hfly, hsized⟩ ⟨hfresh, hroom⟩ hstep
  obtain ⟨hfresh', hroom'⟩ := h.needs hfly hfresh hroom
  obtain ⟨v', hstep', h'⟩ := h.step hfly hsized hroom hstep
  obtain ⟨queue', hfly', hsized'⟩ :=
    exists_sized_step hfly hsized hfresh' hroom' hstep'
  exact ⟨v', queue', h', hfly', hsized'⟩

end SendSystem

/-- In every state that sends and completions reach, given fresh packets and room
for every length with its header, each send queue is well represented in
memory, nothing is outstanding on an empty one, and a further such `Send` leaves
the buffer and the size of every packet in flight as they are. -/
theorem sendQueueRep_of_run {placement : PacketPlacement} {ι : Type*}
    [DecidableEq ι] {m : PacketMemory placement} {es : List (SendEvent ι)}
    {w : SendSystem (PacketMemory placement) (Address placement.platform) ι}
    (hfresh : Along SendSystem.step SendSystem.Fresh (SendSystem.start m) es)
    (hroom : Along SendSystem.step SendSystem.Room (SendSystem.start m) es)
    (hrun : run SendSystem.step (SendSystem.start m) es = some w) (s : ι) :
    SendQueueRep w s ∧
      ((w.sockets s).sendingPacket = none → (w.sockets s).posted = []) ∧
      ∀ t inData inLen inImmediateSend w',
        w.SendsFresh t inLen inImmediateSend →
        w.SendRoom t inLen inImmediateSend →
        w.step (.send t inData inLen inImmediateSend) = some w' →
        ∀ head, (w.sockets s).sendingPacket = some head →
          (packet w'.pools head).buffer.read 0
              (capacity (PacketMemory placement) head).toNat =
            (packet w.pools head).buffer.read 0
              (capacity (PacketMemory placement) head).toNat ∧
          (packet w'.pools head).size = (packet w.pools head).size := by
  obtain ⟨v, queue, h, hfly, hsized⟩ :=
    SendSystem.exists_mirrors_of_run hfresh hroom hrun
  have hflyW := h.flying hfly hsized
  refine ⟨hflyW.sendQueueRep s, ?_, ?_⟩
  · intro hnone
    exact (hflyW.flight s).idle ((hflyW.queues s).eq_nil hnone)
  · intro t inData inLen inImmediateSend w' hnew hfits hstep head hhead
    have hneeds := h.needs (e := .send t inData inLen inImmediateSend) hfly
      hnew hfits
    obtain ⟨v', hstep', h'⟩ := h.send hfly hsized hfits hstep
    have hmem : head ∈ queue s := by
      rw [← h.sockets, (hfly.queues s).head] at hhead
      exact List.mem_of_mem_head? hhead
    have hbefore := h.agree hfly hmem
    have hafter : (packet w'.pools head).AgreeIn
        (capacity (PacketMemory placement) head) (packet v'.pools head) := by
      obtain ⟨call, -, rfl⟩ := SendSystem.send_eq_some hstep
      refine h'.pools.agree (List.mem_append_left _ ?_)
      exact h.live ▸ hfly.live s head hmem
    rw [← h.sockets] at hhead
    obtain ⟨hbuffer, hsize⟩ := hfly.send_keeps_head hneeds.1 hstep' hhead
    constructor
    · rw [hafter.read (le_refl _), hbuffer, hbefore.read (le_refl _)]
    · rw [hafter.size, hsize, hbefore.size]

/-! ## Two sends that do not fit -/

/-- The pools of a 64-bit build, well apart. -/
def roomyPlacement : PacketPlacement where
  platform := .x64
  base
    | .packet64 => 10000000
    | .packet128 => 20000000
    | .packet256 => 30000000
    | .packet512 => 40000000
    | .packet1024 => 50000000
    | .packet2048 => 60000000
    | .packet4096 => 70000000
  base_pos c := by cases c <;> decide
  inside c := by cases c <;> decide
  apart c d hcd := by
    cases c <;> cases d <;> first | exact absurd rfl hcd | decide

/-- The pools after `InitPacketSelector`, on memory that holds zeros. -/
def zeroedMemory : PacketMemory roomyPlacement :=
  PlacedPools.initPacketSelector fun _ => 0

/-- Three packets are sent at once and the first two writes complete.  Then 62
bytes take the second packet, 66 bytes with their header, so that what remains
of its 64 wraps; and 60 more bytes join it and run over the third packet, which
is with the system. -/
def overrunSends : List (SendEvent Unit) :=
  [.send () (fun _ => 0) 0 true, .send () (fun _ => 0) 0 true,
    .send () (fun _ => 0) 0 true, .transmit (), .complete (), .transmit (),
    .complete (), .send () (fun _ => 0) 62 false,
    .send () (fun _ => 0) 60 false]

/-- All packets were fresh, and the packet in flight is no longer marked as being
sent. -/
theorem overrunSends_breaks_head :
    ∃ w : SendSystem (PacketMemory roomyPlacement)
        (Address roomyPlacement.platform) Unit,
      run SendSystem.step (SendSystem.start zeroedMemory) overrunSends =
          some w ∧
        Along SendSystem.step SendSystem.Fresh
          (SendSystem.start zeroedMemory) overrunSends ∧
        ¬SendQueueRep w () := by
  have hend : (run SendSystem.step (SendSystem.start zeroedMemory :
      SendSystem (PacketMemory roomyPlacement)
        (Address roomyPlacement.platform) Unit) overrunSends).any
      (fun w => (w.sockets ()).sendingPacket.any fun head =>
        !(packet w.pools head).isSending) = true := by decide +kernel
  obtain ⟨w, hrun, hhead⟩ := (Option.any_eq_true _ _).mp hend
  obtain ⟨head, hsending, hmark⟩ := (Option.any_eq_true _ _).mp hhead
  refine ⟨w, hrun, by decide +kernel, fun hrep => ?_⟩
  rw [hrep.head_isSending hsending] at hmark
  cases hmark

/-- The representation after two sends that fit. -/
theorem sendQueueRep_of_run_twoSends :
    ∃ w : SendSystem (PacketMemory roomyPlacement)
        (Address roomyPlacement.platform) Unit,
      run SendSystem.step (SendSystem.start zeroedMemory) twoSends = some w ∧
        SendQueueRep w () ∧ (w.sockets ()).sendingPacket.isSome := by
  have hend : (run SendSystem.step (SendSystem.start zeroedMemory :
      SendSystem (PacketMemory roomyPlacement)
        (Address roomyPlacement.platform) Unit) twoSends).any
      (fun w => (w.sockets ()).sendingPacket.isSome) = true := by
    decide +kernel
  obtain ⟨w, hrun, hsome⟩ := (Option.any_eq_true _ _).mp hend
  exact ⟨w, hrun, (sendQueueRep_of_run (by decide +kernel) (by decide +kernel)
    hrun ()).1, hsome⟩

end DokeviNet
