import DokeviNetwork.SendQueue.Shape

/-!
# What the system holds for a send queue

While `WSASend` accepts every packet, a socket has one outstanding `WSASend` if
its queue is not empty and none otherwise, and the outstanding one is for the
head, whose buffer and size stay what they were when it was posted.
-/

namespace DokeviNet

open PacketPools Linked

section

variable {H P : Type*} [PacketPools H P]

/-- The bytes of a packet that `WSASend` is given. -/
def contents (h : H) (p : P) : List UInt8 :=
  (packet h p).buffer.read 0 (packet h p).size.toNat

/-- The outstanding operations of a socket with the given queue. -/
structure InFlight (h : H) (s : SendSide P) (queue : List P) : Prop where
  idle : queue = [] → s.posted = []
  busy : ∀ head, queue.head? = some head → ∃ transmitted,
    s.posted =
        [{ packet := head, len := (packet h head).size
           transmitted := transmitted }] ∧
      ∀ bytes ∈ transmitted, bytes = contents h head

theorem InFlight.congr {h h' : H} {s : SendSide P} {queue : List P}
    (hf : InFlight h s queue)
    (hsame : ∀ p ∈ queue, packet h' p = packet h p) :
    InFlight h' s queue := by
  refine ⟨hf.idle, ?_⟩
  intro head hhead
  have hpacket := hsame head (List.mem_of_mem_head? hhead)
  simpa only [contents, hpacket] using hf.busy head hhead

/-- A completed `WSASend` was the only one, and for the head. -/
theorem InFlight.eq_of_posted {h : H} {s : SendSide P} {queue : List P}
    {post : WsaSend P} {posts : List (WsaSend P)} (hf : InFlight h s queue)
    (hposted : s.posted = post :: posts) :
    queue.head? = some post.packet ∧ posts = [] ∧
      post.len = (packet h post.packet).size ∧
      ∀ bytes ∈ post.transmitted, bytes = contents h post.packet := by
  cases hhead : queue.head? with
  | none =>
      rw [hf.idle (List.head?_eq_none_iff.mp hhead)] at hposted
      cases hposted
  | some head =>
      obtain ⟨transmitted, heq, hbytes⟩ := hf.busy head hhead
      rw [heq, List.cons.injEq] at hposted
      obtain ⟨rfl, rfl⟩ := hposted
      exact ⟨rfl, rfl, rfl, hbytes⟩

variable [DecidableEq P]

/-- A `Send` leaves the buffer and the size of the head alone. -/
theorem QueueShape.send_head {accepted : Bool} {h : H} {s : SendSide P}
    {inData : Region UInt8} {inLen : UInt32} {inImmediateSend : Bool}
    {call : SendCall H P} {queue : List P} {head : P}
    (hq : QueueShape h s queue)
    (heffect : SendEffect accepted h s inData inLen inImmediateSend call)
    (hfresh : ∀ p ∈ call.allocated, p ∉ queue)
    (hhead : queue.head? = some head) :
    (packet call.pools head).buffer = (packet h head).buffer ∧
      (packet call.pools head).size = (packet h head).size := by
  have hmem : head ∈ queue := List.mem_of_mem_head? hhead
  cases heffect with
  | @append last hlast hcoalesces hpackets _ _ _ _ =>
      have hidle := ((coalesces_iff_of_last hlast).mp hcoalesces).1
      have hne : head ≠ last := by
        rintro rfl
        exact hq.ne_head hmem hidle hhead
      rw [hpackets head, if_neg hne]
      exact ⟨rfl, rfl⟩
  | first _ _ hempty _ _ _ _ _ =>
      rw [hq.eq_nil hempty] at hhead
      cases hhead
  | @link p _ last _ _ _ _ hlast hpackets _ _ hallocated _ =>
      have hnew : p ∉ queue := hfresh p (by simp [hallocated])
      have hheadNe : head ≠ p := fun heq => hnew (heq ▸ hmem)
      have hlastNe : p ≠ last := fun heq => hnew (heq ▸ hq.last_mem hlast)
      rw [hpackets hlastNe head]
      by_cases heq : head = last
      · rw [if_pos heq, heq]
        exact ⟨rfl, rfl⟩
      · rw [if_neg heq, if_neg hheadNe]
        exact ⟨rfl, rfl⟩

theorem InFlight.send {h : H} {s : SendSide P} {inData : Region UInt8}
    {inLen : UInt32} {inImmediateSend : Bool} {call : SendCall H P}
    {queue : List P} (hf : InFlight h s queue) (hq : QueueShape h s queue)
    (heffect : SendEffect true h s inData inLen inImmediateSend call)
    (hfresh : ∀ p ∈ call.allocated, p ∉ queue) :
    InFlight call.pools call.socket (queue ++ call.allocated.toList) := by
  by_cases hempty : queue = []
  · subst hempty
    have hidle := hf.idle rfl
    cases heffect with
    | append hlast _ _ _ _ _ _ => simp [hq.last] at hlast
    | @first p _ _ _ _ hpackets _ hsocket hallocated _ =>
        rw [hallocated, hsocket]
        refine ⟨fun h => by simp at h, fun head hhead => ⟨none, ?_, by simp⟩⟩
        obtain rfl : p = head := by simpa using hhead
        simp [serverSend, hidle]
    | link _ _ hhead _ _ _ _ _ _ => simp [hq.head] at hhead
  · have hposted : call.socket.posted = s.posted := by
      cases heffect with
      | append _ _ _ _ hsocket _ _ => rw [hsocket]
      | first _ _ hnone _ _ _ _ _ => exact absurd (hq.eq_nil hnone) hempty
      | link _ _ _ _ _ _ hsocket _ _ => rw [hsocket]
    refine ⟨fun h => absurd (List.append_eq_nil_iff.mp h).1 hempty, ?_⟩
    intro head hhead
    rw [List.head?_append_of_ne_nil _ hempty] at hhead
    obtain ⟨hbuffer, hsize⟩ := hq.send_head heffect hfresh hhead
    simpa only [hposted, contents, hbuffer, hsize] using hf.busy head hhead

theorem InFlight.callback {h : H} {s : SendSide P} {call : CallbackCall H P}
    {queue : List P} (hq : QueueShape h s queue) (hidle : s.posted = [])
    (heffect : CallbackEffect true h s call) :
    InFlight call.pools call.socket queue.tail := by
  obtain ⟨heq, htail⟩ := hq.callback heffect
  cases heffect with
  | @advance temp next _ htemp hnext _ _ _ _ hsocket hfreed =>
      obtain ⟨hhead, hne⟩ := hq.next_of_head htemp hnext
      rw [hsocket hne]
      constructor
      · intro hnil
        rw [hnil] at hhead
        cases hhead
      · intro head hhead'
        refine ⟨none, ?_, by simp⟩
        obtain rfl : next = head := Option.some.inj (hhead ▸ hhead')
        simp [serverSend, hidle]
  | drain _ _ _ _ hsocket _ =>
      have hnil : queue.tail = [] := by
        apply htail.eq_nil
        rw [hsocket]
      rw [hnil, hsocket]
      exact ⟨fun _ => hidle, by simp⟩

end

/-! ## Runs -/

section

variable {H P ι : Type*} [PacketPools H P]

/-- The pointer structure together with what the system holds. -/
structure Flying (w : SendSystem H P ι) (queue : ι → List P) : Prop
    extends Shape w queue where
  flight : ∀ s, InFlight w.pools (w.sockets s) (queue s)

theorem flying_start (pools : H) :
    Flying (SendSystem.start pools : SendSystem H P ι) fun _ => [] where
  toShape := shape_start pools
  flight _ := ⟨fun _ => rfl, by simp⟩

/-- The representation of one send queue by its pointers, links and marks and by
the outstanding `WSASend`. -/
structure SendQueueRep (w : SendSystem H P ι) (s : ι) : Prop where
  /-- both pointers are null together -/
  null_iff : (w.sockets s).sendingPacket = none ↔
    (w.sockets s).lastPacket = none
  /-- the links lead through distinct packets, the head alone being sent, to
  the last one -/
  links : ∀ head, (w.sockets s).sendingPacket = some head →
    ∃ queue last,
      Follows (fun p => (packet w.pools p).next) (some head) queue ∧
      queue.Nodup ∧ queue.getLast? = some last ∧
      (w.sockets s).lastPacket = some last ∧
      (packet w.pools last).next = none ∧
      ∀ p ∈ queue, ((packet w.pools p).isSending = true ↔ p = head)
  /-- one `WSASend` is outstanding, for the head -/
  outstanding : ∀ head, (w.sockets s).sendingPacket = some head →
    ∃ transmitted, (w.sockets s).posted =
      [{ packet := head, len := (packet w.pools head).size
         transmitted := transmitted }]
  /-- a completion finds a packet being sent -/
  callback : (w.sockets s).posted ≠ [] → (w.sockets s).sendingPacket ≠ none

theorem SendQueueRep.head_isSending {w : SendSystem H P ι} {s : ι} {head : P}
    (hrep : SendQueueRep w s)
    (hhead : (w.sockets s).sendingPacket = some head) :
    (packet w.pools head).isSending = true := by
  obtain ⟨queue, last, hlinked, -, -, -, -, hsending⟩ := hrep.links head hhead
  exact (hsending head (List.mem_of_mem_head? hlinked.head_eq.symm)).mpr rfl

theorem Flying.sendQueueRep {w : SendSystem H P ι} {queue : ι → List P}
    (hfly : Flying w queue) (s : ι) : SendQueueRep w s := by
  have hq := hfly.queues s
  have hf := hfly.flight s
  constructor
  · rw [hq.head, hq.last, List.head?_eq_none_iff, List.getLast?_eq_none_iff]
  · intro head hhead
    obtain ⟨rest, heq⟩ := hq.eq_cons hhead
    have hne : queue s ≠ [] := by
      rw [heq]
      simp
    have hlast : (queue s).getLast? = some ((queue s).getLast hne) :=
      List.getLast?_eq_some_getLast hne
    obtain ⟨front, happend⟩ := List.getLast?_eq_some_iff.mp hlast
    refine ⟨queue s, (queue s).getLast hne, hhead ▸ hq.linked, hq.nodup, hlast,
      hq.last.trans hlast, ?_, fun p hp => ?_⟩
    · have hlinked := hq.linked
      rw [happend] at hlinked
      exact hlinked.next_last
    · rw [hq.sending p hp, ← hq.head, hhead, Option.some.injEq]
      exact eq_comm
  · intro head hhead
    obtain ⟨transmitted, hposted, -⟩ := hf.busy head (hq.head ▸ hhead)
    exact ⟨transmitted, hposted⟩
  · intro hposted
    rw [hq.head]
    intro hnone
    exact hposted (hf.idle (List.head?_eq_none_iff.mp hnone))

namespace Flying

variable {w : SendSystem H P ι} {queue : ι → List P} {s : ι}

/-- The pointers do not depend on what the system holds. -/
theorem completing (hfly : Flying w queue) (s : ι)
    (posts : List (WsaSend P)) (bytes : List UInt8) :
    QueueShape w.pools (w.completing s posts bytes) (queue s) :=
  (hfly.queues s).congr rfl rfl (fun _ _ => rfl) fun _ _ => rfl

variable [DecidableEq ι]

theorem transmit {w' : SendSystem H P ι} (hfly : Flying w queue)
    (hstep : w.transmit s = some w') : Flying w' queue := by
  obtain ⟨post, posts, hposted, -, rfl⟩ := SendSystem.transmit_eq_some hstep
  obtain ⟨hhead, rfl, hlen, -⟩ := (hfly.flight s).eq_of_posted hposted
  refine ⟨⟨fun t => ?_, hfly.disjoint, hfly.live⟩, fun t => ?_⟩
  · by_cases hts : t = s
    · subst hts
      simp only [Function.update_self]
      exact (hfly.queues t).congr rfl rfl (fun _ _ => rfl) fun _ _ => rfl
    · simpa [Function.update_of_ne hts] using hfly.queues t
  · by_cases hts : t = s
    · subst hts
      constructor
      · intro hnil
        rw [hnil] at hhead
        cases hhead
      · intro head hhead'
        obtain rfl : post.packet = head := Option.some.inj (hhead ▸ hhead')
        refine ⟨_, by simp [← hlen]; rfl, ?_⟩
        simp [contents, hlen]
    · simpa [Function.update_of_ne hts] using hfly.flight t

variable [DecidableEq P] [LawfulPacketPools H P]

theorem send {inData : Region UInt8} {inLen : UInt32} {inImmediateSend : Bool}
    {call : SendCall H P} (hfly : Flying w queue)
    (hfresh : w.SendsFresh s inLen inImmediateSend)
    (hcall : DokeviNet.send true w.pools (w.sockets s) inData inLen
      inImmediateSend = some call) :
    Flying
      { pools := call.pools
        sockets := Function.update w.sockets s call.socket
        live := w.live ++ call.allocated.toList }
      (Function.update queue s (queue s ++ call.allocated.toList)) := by
  have hnew := hfly.fresh_not_mem hfresh hcall
  refine ⟨hfly.toShape.send hfresh hcall, ?_⟩
  intro t
  by_cases hts : t = s
  · subst hts
    simpa using (hfly.flight t).send (hfly.queues t) (send_effect hcall)
      fun p hp => (hnew p hp).2 t
  · simp only [Function.update_of_ne hts]
    exact (hfly.flight t).congr fun p hp =>
      hfly.send_frame hfresh hcall hts hp

theorem complete {post : WsaSend P} {posts : List (WsaSend P)}
    {bytes : List UInt8} {call : CallbackCall H P} (hfly : Flying w queue)
    (hposted : (w.sockets s).posted = post :: posts)
    (hcall : DokeviNet.onWriteCallback true w.pools
      (w.completing s posts bytes) = some call) :
    Flying
      { pools := call.pools
        sockets := Function.update w.sockets s call.socket
        live := w.live.erase call.freed }
      (Function.update queue s (queue s).tail) := by
  obtain ⟨-, rfl, -⟩ := (hfly.flight s).eq_of_posted hposted
  have hsock : QueueShape w.pools (w.completing s [] bytes) (queue s) :=
    hfly.completing s [] bytes
  refine ⟨hfly.toShape.callback hsock hcall, ?_⟩
  intro t
  by_cases hts : t = s
  · subst hts
    simpa using InFlight.callback hsock rfl (onWriteCallback_effect hcall)
  · simp only [Function.update_of_ne hts]
    exact (hfly.flight t).congr fun p hp =>
      hfly.callback_frame hsock hcall hts hp

end Flying

variable [DecidableEq P] [DecidableEq ι] [LawfulPacketPools H P]

/-- A further `Send`, on whatever socket, leaves the buffer and the size of every
packet in flight as they are. -/
theorem Flying.send_keeps_head {w w' : SendSystem H P ι} {queue : ι → List P}
    (hfly : Flying w queue) {s t : ι} {inData : Region UInt8} {inLen : UInt32}
    {inImmediateSend : Bool} (hfresh : w.SendsFresh t inLen inImmediateSend)
    (hstep : w.send true t inData inLen inImmediateSend = some w') {head : P}
    (hhead : (w.sockets s).sendingPacket = some head) :
    (packet w'.pools head).buffer = (packet w.pools head).buffer ∧
      (packet w'.pools head).size = (packet w.pools head).size := by
  obtain ⟨call, hcall, rfl⟩ := SendSystem.send_eq_some hstep
  rw [(hfly.queues s).head] at hhead
  by_cases hst : s = t
  · subst hst
    exact (hfly.queues s).send_head (send_effect hcall)
      (fun p hp => (hfly.fresh_not_mem hfresh hcall p hp).2 s) hhead
  · have hsame := hfly.send_frame hfresh hcall hst
      (List.mem_of_mem_head? hhead)
    simp only [hsame, and_self]

end

/-- One socket sends twice, the second time while the first packet is still
with the system. -/
def twoSends : List (SendEvent Unit) :=
  [.send () (Region.ofList 0 [1, 2]) 2 false, .transmit (),
    .send () (Region.ofList 0 [3]) 1 true, .complete (), .transmit ()]

end DokeviNet
