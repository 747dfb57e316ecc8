import DokeviNetwork.SendQueue.Abstract
import DokeviNetwork.SendQueue.Bounds
import DokeviNetwork.SendQueue.Flight
import DokeviNetwork.Support.Related

/-!
# What a send queue puts on the stream

The linked packets of a socket implement a queue of parcels: `Send` and
`OnWriteCallback` do to the packets what taking a frame and completing a parcel do
to the parcels.  The frames of the parcels, sent and waiting, are those of
the `Send` calls in call order, so nothing is lost, doubled, reordered or split.
-/

namespace DokeviNet

open PacketPools Linked LabelledRun

/-! ## One packet and one parcel -/

/-- The packet holds the parcel's frames, and is as large as the parcel. -/
structure PacketInterface.Carries {P : Type*} (packet : PacketInterface P)
    (SIZE : UInt32) (parcel : Parcel) : Prop where
  sized : packet.Sized SIZE
  capacity : parcel.capacity = SIZE.toNat
  bytes : packet.buffer.read 0 packet.size.toNat = parcel.bytes
  immediate : packet.immediateSend = true ↔
    ∃ f ∈ parcel.frames, f.immediate = true

namespace PacketInterface

variable {P : Type*} {packet : PacketInterface P} {SIZE inLen : UInt32}
  {inData : Region UInt8} {inImmediateSend : Bool} {parcel : Parcel}

/-- Storing a frame behind what a buffer holds appends the frame's bytes. -/
theorem storeFrame_read (buffer : Region UInt8) (pos : ℕ)
    (inData : Region UInt8) (inLen : UInt32) :
    (storeFrame buffer pos inData inLen).read 0 (pos + (inLen.toNat + 4)) =
      buffer.read 0 pos ++
        (Frame.ofData inData inLen inImmediateSend).bytes := by
  have hheader := buffer.read_write_extend pos (sizeBytes inLen)
  have hdata := (buffer.write pos (sizeBytes inLen)).read_write_extend
    (pos + 4) (inData.read 0 inLen.toNat)
  rw [sizeBytes_length] at hheader
  rw [Region.read_length, hheader, List.append_assoc] at hdata
  rw [Nat.add_comm inLen.toNat 4, ← Nat.add_assoc]
  exact hdata

theorem Carries.size (h : packet.Carries SIZE parcel) :
    packet.size.toNat = parcel.bytes.length := by
  have hlength := congrArg List.length h.bytes
  rwa [Region.read_length] at hlength

/-- The coalescing test on a packet that is not being sent asks whether its
parcel can take the frame. -/
theorem Carries.canTake_iff (h : packet.Carries SIZE parcel)
    (hwrap : inLen.toNat + 4 < 2 ^ 32) :
    parcel.CanTake (Frame.ofData inData inLen inImmediateSend) ↔
      packet.immediateSend = false ∧
        totalPacketSize inLen ≤ packet.remainSize ∧
        inImmediateSend = false := by
  have hsum := h.sized.sum
  have hroom : totalPacketSize inLen ≤ packet.remainSize ↔
      parcel.bytes.length +
        (Frame.ofData inData inLen inImmediateSend).bytes.length ≤
          parcel.capacity := by
    rw [UInt32.le_iff_toNat_le, totalPacketSize_toNat hwrap,
      Frame.bytes_length, h.capacity, ← h.size]
    simp only [Frame.ofData]
    omega
  have hopen : packet.immediateSend = false ↔
      ∀ f ∈ parcel.frames, f.immediate = false := by
    rw [← Bool.not_eq_true, h.immediate]
    simp
  rw [Parcel.CanTake, hroom, hopen]
  simp only [Frame.ofData]
  tauto

theorem Carries.append (h : packet.Carries SIZE parcel)
    (hwrap : inLen.toNat + 4 < 2 ^ 32)
    (htake : parcel.CanTake (Frame.ofData inData inLen inImmediateSend)) :
    (packet.append inData inLen).Carries SIZE
      (parcel.push (Frame.ofData inData inLen inImmediateSend) htake) where
  sized := h.sized.append ((h.canTake_iff hwrap).mp htake).2.1
  capacity := h.capacity
  bytes := by
    rw [h.sized.append_size ((h.canTake_iff hwrap).mp htake).2.1,
      totalPacketSize_toNat hwrap, Parcel.push_bytes, ← h.bytes]
    exact storeFrame_read packet.buffer packet.size.toNat inData inLen
  immediate := by
    rw [append_immediateSend, h.immediate]
    simp [Parcel.push, htake.1]

theorem carries_fresh (packet : PacketInterface P)
    (hroom : inLen.toNat + 4 ≤ SIZE.toNat)
    (hfits : (Frame.ofData inData inLen inImmediateSend).bytes.length ≤
      SIZE.toNat) :
    (packet.fresh SIZE inData inLen inImmediateSend).Carries SIZE
      (Parcel.single (Frame.ofData inData inLen inImmediateSend) SIZE.toNat
        hfits) where
  sized := packet.sized_fresh hroom
  capacity := rfl
  bytes := by
    have hwrap := lt_of_le_of_lt hroom SIZE.toNat_lt
    have hstore := @storeFrame_read inImmediateSend
      (packet.buffer.write 0 [0]) 0 inData inLen
    rw [Nat.zero_add, Region.read_zero, List.nil_append] at hstore
    rw [fresh_size, totalPacketSize_toNat hwrap, Parcel.single_bytes,
      ← hstore]
    rfl
  immediate := by
    simp [Parcel.single, Frame.ofData]

theorem Carries.markSending (h : packet.Carries SIZE parcel) :
    packet.markSending.Carries SIZE parcel :=
  ⟨h.sized.markSending, h.capacity, h.bytes, h.immediate⟩

theorem Carries.linkTo (h : packet.Carries SIZE parcel) (p : P) :
    (packet.linkTo p).Carries SIZE parcel :=
  ⟨h.sized.linkTo p, h.capacity, h.bytes, h.immediate⟩

end PacketInterface

/-! ## One socket and one queue of parcels -/

section

variable {H P : Type*} [PacketPools H P]

/-- The packets `queue` of a socket implement the parcels `q`. -/
structure Holds (h : H) (s : SendSide P) (queue : List P) (q : ParcelQueue) :
    Prop where
  carries : List.Forall₂
    (fun p parcel => (packet h p).Carries (capacity H p) parcel)
    queue q.queue
  handed : s.handed = q.handed.map Parcel.bytes
  wire : s.wire = q.sent.flatMap Parcel.bytes

theorem Holds.congr {h h' : H} {s s' : SendSide P} {queue : List P}
    {q : ParcelQueue} (hq : Holds h s queue q)
    (hsame : ∀ p ∈ queue, packet h' p = packet h p)
    (hhanded : s'.handed = s.handed) (hwire : s'.wire = s.wire) :
    Holds h' s' queue q where
  carries := hq.carries.imp_of_mem fun p hp _ hc =>
    (hsame p hp).symm ▸ hc
  handed := hhanded.trans hq.handed
  wire := hwire.trans hq.wire

/-- The bytes of the waiting packets are those of the waiting parcels. -/
theorem Holds.waiting {h : H} {s : SendSide P} {queue : List P}
    {q : ParcelQueue} (hholds : Holds h s queue q) :
    queue.tail.map (contents h) = q.queue.tail.map Parcel.bytes := by
  have hall : queue.map (contents h) = q.queue.map Parcel.bytes := by
    apply List.forall₂_map_eq_iff.mp
    exact hholds.carries.imp fun p parcel hc => hc.bytes
  rw [List.map_tail, hall, List.map_tail]

/-- Where `Send` does not append to the last packet, which is not the head, the
last parcel does not take the frame. -/
theorem not_canTake {h : H} {s : SendSide P} {inData : Region UInt8}
    {inLen : UInt32} {inImmediateSend : Bool} {head last : P}
    {front : List P} {parcel : Parcel}
    (hq : QueueShape h s ((head :: front) ++ [last]))
    (hparcel : (packet h last).Carries (capacity H last) parcel)
    (hwrap : inLen.toNat + 4 < 2 ^ 32) (hlast : s.lastPacket = some last)
    (hcoalesces : coalesces h s inLen inImmediateSend = false) :
    ¬parcel.CanTake (Frame.ofData inData inLen inImmediateSend) := by
  intro htake
  obtain ⟨hopen, hremain, himmediate⟩ := (hparcel.canTake_iff hwrap).mp htake
  have hidle : (packet h last).isSending = false := by
    rw [← Bool.not_eq_true, hq.sending last (by simp)]
    intro heq
    obtain rfl : head = last := by simpa using heq
    exact hq.last_not_mem_front (by simp)
  have hyes := (coalesces_iff_of_last hlast).mpr
    ⟨hidle, hopen, hremain, himmediate⟩
  rw [hcoalesces] at hyes
  cases hyes

variable [DecidableEq P]

/-- A frame that joins the last packet joins the last waiting parcel. -/
theorem Holds.append {h : H} {s : SendSide P} {inData : Region UInt8}
    {inLen : UInt32} {inImmediateSend : Bool} {call : SendCall H P}
    {queue : List P} {q : ParcelQueue} {last : P} {cap : ℕ}
    (hq : QueueShape h s queue) (hholds : Holds h s queue q)
    (hwrap : inLen.toNat + 4 < 2 ^ 32)
    (hlast : s.lastPacket = some last)
    (hcoalesces : coalesces h s inLen inImmediateSend = true)
    (hpackets : ∀ p, packet call.pools p =
      if p = last then (packet h last).append inData inLen else packet h p)
    (hsocket : call.socket = s) :
    ∃ q', q.send (Frame.ofData inData inLen inImmediateSend) cap = some q' ∧
      Holds call.pools call.socket queue q' := by
  obtain ⟨hidle, hopen, hroom, himmediate⟩ :=
    (coalesces_iff_of_last hlast).mp hcoalesces
  obtain ⟨front, rfl⟩ := hq.eq_append_last hlast
  obtain ⟨parcels, parcel, hfront, hparcel, hqueue⟩ :=
    List.forall₂_concat_left_iff.mp hholds.carries
  have htake : parcel.CanTake (Frame.ofData inData inLen inImmediateSend) :=
    (hparcel.canTake_iff hwrap).mpr ⟨hopen, hroom, himmediate⟩
  have hnotin := hq.last_not_mem_front
  -- the last packet is not the one being sent, so some other is the head
  cases hfront with
  | nil => exact absurd rfl (hq.ne_head (by simp) hidle)
  | @cons head headParcel front waiting hhead hwaiting =>
    refine ⟨{ q with queue := headParcel ::
      (waiting ++ [parcel.push _ htake]) }, ?_, ?_, ?_, ?_⟩
    · simp [ParcelQueue.send, hqueue, enqueue_take htake]
    · have hcarried : List.Forall₂
          (fun p parcel =>
            (packet call.pools p).Carries (capacity H p) parcel)
          ((head :: front) ++ [last])
          ((headParcel :: waiting) ++ [parcel.push _ htake]) := by
        refine List.forall₂_concat_left_iff.mpr ⟨_, _, ?_, ?_, rfl⟩
        · have hfront : List.Forall₂
              (fun p parcel => (packet h p).Carries (capacity H p) parcel)
              (head :: front) (headParcel :: waiting) :=
            List.Forall₂.cons hhead hwaiting
          refine hfront.imp_of_mem ?_
          intro p hp _ hc
          have hne : p ≠ last := fun heq => hnotin (heq ▸ hp)
          rw [hpackets p, if_neg hne]
          exact hc
        · rw [hpackets last, if_pos rfl]
          exact hparcel.append hwrap htake
      exact hcarried
    · rw [hsocket, hholds.handed]
      simp [ParcelQueue.handed, hqueue]
    · rw [hsocket, hholds.wire]

/-- The packets carry their parcels, and the new one that of the frame, after
it has been linked to the last. -/
theorem carries_link {h h' : H} {inData : Region UInt8} {inLen : UInt32}
    {inImmediateSend : Bool} {queue : List P} {parcels : List Parcel}
    {p last : P}
    (hcarries : List.Forall₂
      (fun p parcel => (packet h p).Carries (capacity H p) parcel)
      queue parcels)
    (hnew : p ∉ queue) (hne : p ≠ last)
    (hroom : inLen.toNat + 4 ≤ (capacity H p).toNat)
    (hfits : (Frame.ofData inData inLen inImmediateSend).bytes.length ≤
      (capacity H p).toNat)
    (hpackets : ∀ x, packet h' x =
      if x = last then (packet h last).linkTo p
      else if x = p then freshPacket h p inData inLen inImmediateSend
      else packet h x) :
    List.Forall₂
      (fun p parcel => (packet h' p).Carries (capacity H p) parcel)
      (queue ++ [p]) (parcels ++ [Parcel.single _ _ hfits]) := by
  refine List.forall₂_concat_left_iff.mpr ⟨_, _, ?_, ?_, rfl⟩
  · refine hcarries.imp_of_mem ?_
    intro x hx _ hc
    have hxp : x ≠ p := fun heq => hnew (heq ▸ hx)
    rw [hpackets x, if_neg hxp]
    split
    · next heq =>
      subst heq
      exact hc.linkTo p
    · exact hc
  · rw [hpackets p, if_neg hne, if_pos rfl]
    exact PacketInterface.carries_fresh _ hroom hfits

/-- A frame that cannot join the last packet gets a parcel of its own. -/
theorem Holds.link {h : H} {s : SendSide P} {inData : Region UInt8}
    {inLen : UInt32} {inImmediateSend : Bool} {call : SendCall H P}
    {queue : List P} {q : ParcelQueue} {p last : P}
    (hq : QueueShape h s queue) (hholds : Holds h s queue q)
    (hnew : p ∉ queue) (hroom : inLen.toNat + 4 ≤ (capacity H p).toNat)
    (hlast : s.lastPacket = some last)
    (hcoalesces : coalesces h s inLen inImmediateSend = false)
    (hpackets : p ≠ last → ∀ x, packet call.pools x =
      if x = last then (packet h last).linkTo p
      else if x = p then freshPacket h p inData inLen inImmediateSend
      else packet h x)
    (hsocket : call.socket = { s with lastPacket := some p }) :
    ∃ q', q.send (Frame.ofData inData inLen inImmediateSend)
        (capacity H p).toNat = some q' ∧
      Holds call.pools call.socket (queue ++ [p]) q' := by
  have hwrap := lt_of_le_of_lt hroom (capacity H p).toNat_lt
  have hfits : (Frame.ofData inData inLen inImmediateSend).bytes.length ≤
      (capacity H p).toNat := by
    rw [Frame.bytes_length]
    exact hroom
  obtain ⟨front, rfl⟩ := hq.eq_append_last hlast
  have hne : p ≠ last := by
    rintro rfl
    simp at hnew
  have hcarried :=
    carries_link hholds.carries hnew hne hroom hfits (hpackets hne)
  obtain ⟨parcels, parcel, hfront, hparcel, hqueue⟩ :=
    List.forall₂_concat_left_iff.mp hholds.carries
  rw [hqueue] at hcarried
  cases hfront with
  | nil =>
      refine ⟨{ q with queue :=
        [parcel] ++ [Parcel.single _ _ hfits] }, ?_, hcarried, ?_, ?_⟩
      · simp [ParcelQueue.send, hqueue, enqueue, hfits]
      · rw [hsocket, hholds.handed]
        simp [ParcelQueue.handed, hqueue]
      · rw [hsocket, hholds.wire]
  | @cons head headParcel front waiting hhead hwaiting =>
      have hno : ¬parcel.CanTake
          (Frame.ofData inData inLen inImmediateSend) :=
        not_canTake hq hparcel hwrap hlast hcoalesces
      refine ⟨{ q with queue := headParcel ::
        ((waiting ++ [parcel]) ++ [Parcel.single _ _ hfits]) },
        ?_, hcarried, ?_, ?_⟩
      · have henqueue := @enqueue_single _ _ (waiting ++ [parcel])
          (by simpa using hno) hfits
        simp only [ParcelQueue.send, hqueue, List.cons_append, henqueue]
        rfl
      · rw [hsocket, hholds.handed]
        simp [ParcelQueue.handed, hqueue]
      · rw [hsocket, hholds.wire]

/-- A frame on an empty queue is given to the network at once. -/
theorem Holds.first {accepted : Bool} {h : H} {s : SendSide P}
    {inData : Region UInt8} {inLen : UInt32} {inImmediateSend : Bool}
    {call : SendCall H P} {q : ParcelQueue} {p : P}
    (hholds : Holds h s [] q)
    (hroom : inLen.toNat + 4 ≤ (capacity H p).toNat)
    (hpackets : ∀ x, packet call.pools x =
      if x = p then (freshPacket h p inData inLen inImmediateSend).markSending
      else packet h x)
    (hsocket : call.socket = serverSend accepted call.pools
      { s with sendingPacket := some p, lastPacket := some p } p) :
    ∃ q', q.send (Frame.ofData inData inLen inImmediateSend)
        (capacity H p).toNat = some q' ∧
      Holds call.pools call.socket [p] q' := by
  have hfits : (Frame.ofData inData inLen inImmediateSend).bytes.length ≤
      (capacity H p).toNat := by
    rw [Frame.bytes_length]
    exact hroom
  have hqueue : q.queue = [] := by simpa using hholds.carries
  have hcarried : (packet call.pools p).Carries (capacity H p)
      (Parcel.single _ _ hfits) := by
    rw [hpackets p, if_pos rfl]
    exact (PacketInterface.carries_fresh (packet h p) hroom hfits).markSending
  refine ⟨{ q with queue := [Parcel.single _ _ hfits] }, ?_, ?_, ?_, ?_⟩
  · simp [ParcelQueue.send, hqueue, enqueue, hfits]
  · exact List.Forall₂.cons hcarried List.Forall₂.nil
  · rw [hsocket, serverSend, hcarried.bytes, hholds.handed]
    simp [ParcelQueue.handed, hqueue]
  · rw [hsocket]
    exact hholds.wire

/-- `Send` takes the frame into the queue of parcels, in a new parcel of
`cap` bytes if it allocates a packet. -/
theorem Holds.send {accepted : Bool} {h : H} {s : SendSide P}
    {inData : Region UInt8} {inLen : UInt32} {inImmediateSend : Bool}
    {call : SendCall H P} {queue : List P} {q : ParcelQueue} {cap : ℕ}
    (hq : QueueShape h s queue) (hholds : Holds h s queue q)
    (heffect : SendEffect accepted h s inData inLen inImmediateSend call)
    (hfresh : ∀ p ∈ call.allocated, p ∉ queue)
    (hwrap : inLen.toNat + 4 < 2 ^ 32)
    (hroom : ∀ p ∈ call.allocated, inLen.toNat + 4 ≤ (capacity H p).toNat)
    (hcap : ∀ p ∈ call.allocated, (capacity H p).toNat = cap) :
    ∃ q', q.send (Frame.ofData inData inLen inImmediateSend) cap = some q' ∧
      Holds call.pools call.socket (queue ++ call.allocated.toList) q' := by
  cases heffect with
  | append hlast hcoalesces hpackets _ hsocket hallocated _ =>
      rw [hallocated, Option.toList_none, List.append_nil]
      exact hholds.append hq hwrap hlast hcoalesces hpackets hsocket
  | @first p _ _ _ hempty hpackets _ hsocket hallocated _ =>
      obtain rfl := hq.eq_nil hempty
      have hp : p ∈ call.allocated := hallocated
      rw [hallocated, ← hcap p hp]
      exact hholds.first (hroom p hp) hpackets hsocket
  | @link p _ _ _ hcoalesces _ _ hlast hpackets _ hsocket hallocated _ =>
      have hp : p ∈ call.allocated := hallocated
      rw [hallocated, ← hcap p hp]
      exact hholds.link hq (hfresh p hp) (hroom p hp) hlast hcoalesces
        hpackets hsocket

/-- `OnWriteCallback` completes the parcel with the network. -/
theorem Holds.callback {accepted : Bool} {h : H} {s sock : SendSide P}
    {call : CallbackCall H P} {queue : List P} {q : ParcelQueue}
    (hq : QueueShape h sock queue) (hholds : Holds h s queue q)
    (hhanded : sock.handed = s.handed)
    (hwire : ∀ head, queue.head? = some head →
      sock.wire = s.wire ++ contents h head)
    (heffect : CallbackEffect accepted h sock call) :
    ∃ q', q.complete = some q' ∧
      Holds call.pools call.socket queue.tail q' := by
  obtain ⟨heq, htail⟩ := hq.callback heffect
  obtain ⟨head, rest, rfl⟩ : ∃ head rest, queue = head :: rest := ⟨_, _, heq⟩
  obtain ⟨parcel, waiting, hparcel, hrest, hqueue⟩ :=
    List.forall₂_cons_left_iff.mp hholds.carries
  have hcarried : List.Forall₂
      (fun p parcel => (packet call.pools p).Carries (capacity H p) parcel)
      rest waiting := by
    apply hrest.imp_of_mem
    intro p hp _ hc
    rcases hq.callback_packet heffect hp with hsame | hmarked
    · exact hsame ▸ hc
    · exact hmarked ▸ hc.markSending
  have hsent : sock.wire = (q.sent ++ [parcel]).flatMap Parcel.bytes := by
    rw [hwire head rfl, hholds.wire, contents, hparcel.bytes]
    simp
  refine ⟨{ sent := q.sent ++ [parcel], queue := waiting }, ?_, hcarried,
    ?_, ?_⟩
  · simp [ParcelQueue.complete, hqueue]
  · have hbefore : sock.handed =
        q.sent.map Parcel.bytes ++ [parcel.bytes] := by
      rw [hhanded, hholds.handed]
      simp [ParcelQueue.handed, hqueue]
    cases heffect with
    | @advance temp next _ htemp hnext _ _ _ _ hsocket _ =>
        obtain ⟨hhead, hne⟩ := hq.next_of_head htemp hnext
        obtain ⟨rest, rfl⟩ : ∃ tail, rest = next :: tail :=
          ⟨rest.tail, List.eq_cons_of_mem_head? hhead⟩
        obtain ⟨nextParcel, waiting, hnextParcel, -, rfl⟩ :=
          List.forall₂_cons_left_iff.mp hcarried
        rw [hsocket hne, serverSend, hnextParcel.bytes, hbefore]
        simp [ParcelQueue.handed]
    | drain _ _ _ _ hsocket _ =>
        obtain rfl : rest = [] := htail.eq_nil (by rw [hsocket])
        obtain rfl : waiting = [] := by simpa using hcarried
        rw [hsocket, hbefore]
        simp [ParcelQueue.handed]
  · rw [← hsent]
    cases heffect with
    | advance htemp hnext _ _ _ _ hsocket _ =>
        rw [hsocket (hq.next_of_head htemp hnext).2]
        rfl
    | drain _ _ _ _ hsocket _ => rw [hsocket]

end

/-! ## All sockets -/

section

variable {H P ι : Type*} [PacketPools H P]

/-- The packets of every socket implement its queue of parcels. -/
structure Carrying (w : SendSystem H P ι) (queue : ι → List P)
    (parcels : ι → ParcelQueue) : Prop extends Flying w queue where
  holds : ∀ s, Holds w.pools (w.sockets s) (queue s) (parcels s)

theorem carrying_start (pools : H) :
    Carrying (SendSystem.start pools : SendSystem H P ι) (fun _ => [])
      fun _ => ParcelQueue.empty where
  toFlying := flying_start pools
  holds _ := ⟨List.Forall₂.nil, rfl, rfl⟩

/-- If the step allocates a packet, its capacity is `cap` of the payload's
length. -/
def SendSystem.Allocates (cap : UInt32 → ℕ) (w : SendSystem H P ι) :
    SendEvent ι → Prop
  | .send _ _ inLen _ =>
    ∀ p ∈ (allocPacket w.pools inLen).map Prod.fst,
      (capacity H p).toNat = cap inLen
  | _ => True

theorem SendSystem.exists_allocates (w : SendSystem H P ι)
    (e : SendEvent ι) : ∃ cap, w.Allocates cap e := by
  cases e with
  | send s inData inLen inImmediateSend =>
      cases halloc : allocPacket w.pools inLen with
      | none => exact ⟨fun _ => 0, by simp [Allocates, halloc]⟩
      | some r =>
          exact ⟨fun _ => (capacity H r.1).toNat, by simp [Allocates, halloc]⟩
  | transmit => exact ⟨fun _ => 0, trivial⟩
  | complete => exact ⟨fun _ => 0, trivial⟩

variable [DecidableEq ι]

/-- What an event means for the queue of socket `s`. -/
def SendEvent.on (s : ι) : SendEvent ι → Option QueueEvent
  | .send t inData inLen inImmediateSend =>
    if t = s then some (.send (Frame.ofData inData inLen inImmediateSend))
    else none
  | .transmit _ => none
  | .complete t => if t = s then some .complete else none

/-- The events of socket `s`. -/
def eventsOn (s : ι) (es : List (SendEvent ι)) : List QueueEvent :=
  es.filterMap (SendEvent.on s)

/-- The frames of the `Send` calls on socket `s`. -/
def framesOn (s : ι) (es : List (SendEvent ι)) : List Frame :=
  ParcelQueue.newFrames (eventsOn s es)

theorem eventsOn_append (s : ι) (past : List (SendEvent ι))
    (e : SendEvent ι) :
    eventsOn s (past ++ [e]) = eventsOn s past ++ (e.on s).toList := by
  rw [eventsOn, List.filterMap_append, ← eventsOn]
  congr 1

/-- An event on one socket changes the parcels of that one. -/
theorem run_update_parcels {cap : UInt32 → ℕ} {parcels : ι → ParcelQueue}
    {e : SendEvent ι} {s : ι} {q' : ParcelQueue}
    (hother : ∀ t, t ≠ s → e.on t = none)
    (hq' : run (ParcelQueue.step cap) (parcels s) (e.on s).toList = some q')
    (t : ι) :
    run (ParcelQueue.step cap) (parcels t) (e.on t).toList =
      some (Function.update parcels s q' t) := by
  by_cases hts : t = s
  · subst hts
    rw [Function.update_self]
    exact hq'
  · rw [Function.update_of_ne hts, hother t hts]
    rfl

variable [DecidableEq P] [LawfulPacketPools H P]

namespace Carrying

variable {w w' : SendSystem H P ι} {queue : ι → List P}
  {parcels : ι → ParcelQueue} {cap : UInt32 → ℕ}

/-- One event does to the parcels of every socket what the event means for
it. -/
theorem step {e : SendEvent ι} (hc : Carrying w queue parcels)
    (hfresh : w.Fresh e) (hroom : w.Room e) (hcap : w.Allocates cap e)
    (hstep : w.step e = some w') :
    ∃ queue' parcels', Carrying w' queue' parcels' ∧
      ∀ s, run (ParcelQueue.step cap) (parcels s) (e.on s).toList =
        some (parcels' s) := by
  cases e with
  | send s inData inLen inImmediateSend =>
      obtain ⟨call, hcall, rfl⟩ := SendSystem.send_eq_some hstep
      have hnew := hc.fresh_not_mem hfresh hcall
      obtain ⟨q', hq', hholds⟩ := (hc.holds s).send (hc.queues s)
        (send_effect hcall) (fun p hp => (hnew p hp).2 s)
        (SendSystem.wrap_of_room hroom hcall)
        (SendSystem.room_of_allocated hroom hcall)
        (fun p hp => hcap p ((send_effect hcall).of_allocated hp).2)
      refine ⟨_, Function.update parcels s q',
        ⟨hc.toFlying.send hfresh hcall, fun t => ?_⟩,
        run_update_parcels (fun t hts => ?_) ?_⟩
      · by_cases hts : t = s
        · subst hts
          simpa using hholds
        · simp only [Function.update_of_ne hts]
          exact (hc.holds t).congr
            (fun p hp => hc.send_frame hfresh hcall hts hp) rfl rfl
      · exact if_neg (Ne.symm hts)
      · simpa [SendEvent.on, ParcelQueue.step, Frame.ofData] using hq'
  | transmit s =>
      refine ⟨queue, parcels, ⟨hc.toFlying.transmit hstep, fun t => ?_⟩,
        fun t => rfl⟩
      obtain ⟨post, posts, -, -, rfl⟩ := SendSystem.transmit_eq_some hstep
      by_cases hts : t = s
      · subst hts
        exact (hc.holds t).congr (fun _ _ => rfl) (by simp) (by simp)
      · exact (hc.holds t).congr (fun _ _ => rfl) (by simp [hts])
          (by simp [hts])
  | complete s =>
      obtain ⟨post, posts, bytes, call, hposted, hbytes, hcall, rfl⟩ :=
        SendSystem.complete_eq_some hstep
      have hsock := hc.toFlying.completing s posts bytes
      obtain ⟨hhead, -, -, hcontents⟩ := (hc.flight s).eq_of_posted hposted
      have hwire : ∀ head, (queue s).head? = some head →
          (w.completing s posts bytes).wire =
            (w.sockets s).wire ++ contents w.pools head := by
        intro head hhead'
        obtain rfl : post.packet = head := Option.some.inj (hhead ▸ hhead')
        rw [← hcontents bytes hbytes]
        rfl
      obtain ⟨q', hq', hholds⟩ := (hc.holds s).callback hsock rfl hwire
        (onWriteCallback_effect hcall)
      refine ⟨_, Function.update parcels s q',
        ⟨hc.toFlying.complete hposted hcall, fun t => ?_⟩,
        run_update_parcels (fun t hts => ?_) ?_⟩
      · by_cases hts : t = s
        · subst hts
          simpa using hholds
        · simp only [Function.update_of_ne hts]
          exact (hc.holds t).congr
            (fun p hp => hc.callback_frame hsock hcall hts hp) rfl rfl
      · exact if_neg (Ne.symm hts)
      · simpa [SendEvent.on, ParcelQueue.step] using hq'

end Carrying

/-! ## Runs -/

theorem exists_carrying_of_run {pools : H} {es : List (SendEvent ι)}
    {w : SendSystem H P ι}
    (hfresh : Along SendSystem.step SendSystem.Fresh
      (SendSystem.start pools) es)
    (hroom : Along SendSystem.step SendSystem.Room
      (SendSystem.start pools) es)
    (hrun : run SendSystem.step (SendSystem.start pools) es = some w) :
    ∃ queue parcels, Carrying w queue parcels ∧
      ∀ s, (parcels s).frames = framesOn s es := by
  refine @history_of_along _ _ _ _ (fun past w => ∃ queue parcels,
    Carrying w queue parcels ∧ ∀ s, (parcels s).frames = framesOn s past)
    ?_ _ _ _ ⟨_, _, carrying_start pools, fun _ => rfl⟩
    (hfresh.and hroom) hrun
  rintro past w e w' ⟨queue, parcels, hc, hframes⟩ ⟨hfresh, hroom⟩ hstep
  obtain ⟨cap, hcap⟩ := w.exists_allocates e
  obtain ⟨queue', parcels', hc', hrun⟩ := hc.step hfresh hroom hcap hstep
  refine ⟨queue', parcels', hc', ?_⟩
  intro s
  rw [ParcelQueue.run_frames (hrun s), hframes, framesOn, framesOn,
    eventsOn_append, ParcelQueue.newFrames_append]

/-- In every state that sends and completions reach, given fresh packets in which the
payloads fit, the packets given to the network so far and the ones waiting
behind the head carry the frames of all sends in call order, each packet whole
frames, and a frame sent immediately is alone in its packet. -/
theorem stream_of_run {pools : H} {es : List (SendEvent ι)}
    {w : SendSystem H P ι}
    (hfresh : Along SendSystem.step SendSystem.Fresh
      (SendSystem.start pools) es)
    (hfits : Along SendSystem.step SendSystem.Fits
      (SendSystem.start pools) es)
    (hrun : run SendSystem.step (SendSystem.start pools) es = some w)
    (s : ι) :
    ∃ queue,
      Follows (fun p => (packet w.pools p).next)
          (w.sockets s).sendingPacket queue ∧
        (w.sockets s).lastPacket = queue.getLast? ∧
        (w.sockets s).handed.flatten ++
            queue.tail.flatMap (contents w.pools) =
          (framesOn s es).flatMap Frame.bytes ∧
        ∃ parcels : List Parcel,
          (w.sockets s).handed ++ queue.tail.map (contents w.pools) =
              parcels.map Parcel.bytes ∧
            parcels.flatMap Parcel.frames = framesOn s es ∧
            ∀ parcel ∈ parcels, ∀ f ∈ parcel.frames,
              f.immediate = true → parcel.frames = [f] := by
  have hroom := hfits.mono fun w e h => SendSystem.Fits.room h
  obtain ⟨queue, parcels, hc, hframes⟩ :=
    exists_carrying_of_run hfresh hroom hrun
  have hholds := hc.holds s
  have hbytes : (w.sockets s).handed ++
        (queue s).tail.map (contents w.pools) =
      ((parcels s).sent ++ (parcels s).queue).map Parcel.bytes := by
    rw [hholds.handed, hholds.waiting, ← List.map_append,
      ParcelQueue.handed_append_tail]
  refine ⟨queue s, (hc.queues s).linked, (hc.queues s).last, ?_, _, hbytes,
    hframes s, fun parcel _ => parcel.alone⟩
  calc (w.sockets s).handed.flatten ++
        (queue s).tail.flatMap (contents w.pools)
      = ((w.sockets s).handed ++
          (queue s).tail.map (contents w.pools)).flatten := by
        rw [List.flatten_append, List.flatMap_def]
    _ = ((parcels s).sent ++ (parcels s).queue).flatMap Parcel.bytes := by
        rw [hbytes, List.flatMap_def]
    _ = (framesOn s es).flatMap Frame.bytes := by
        rw [← hframes s, ParcelQueue.frames, List.flatMap_assoc]
        rfl

end

/-- The frames of two sends, the second of them immediate and still waiting
behind the first. -/
theorem stream_of_run_twoSends :
    ∃ (w : SendSystem PacketSelector PacketId Unit) (queue : List PacketId),
      run SendSystem.step (SendSystem.start PacketSelector.zeroed)
          (twoSends.take 3) = some w ∧
        Follows (fun p => (packet w.pools p).next)
          (w.sockets ()).sendingPacket queue ∧
        (w.sockets ()).handed.flatten ++
            queue.tail.flatMap (contents w.pools) =
          [2, 0, 0, 0, 1, 2, 1, 0, 0, 0, 3] := by
  have hfresh : Along SendSystem.step SendSystem.Fresh
      (SendSystem.start PacketSelector.zeroed) (twoSends.take 3) := by decide
  have hfits : Along SendSystem.step SendSystem.Fits
      (SendSystem.start PacketSelector.zeroed) (twoSends.take 3) := by decide
  obtain ⟨queue, hlinked, -, hstream, -⟩ :=
    stream_of_run hfresh hfits rfl ()
  exact ⟨_, queue, rfl, hlinked, hstream.trans (by decide)⟩

end DokeviNet
