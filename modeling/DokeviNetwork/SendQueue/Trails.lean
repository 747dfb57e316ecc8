import DokeviNetwork.SendQueue.Stream

/-!
# Sockets behind by a completion

Between the end of a `WSASend` and the `OnWriteCallback` that handles it, a socket
has no write outstanding but still has the packet.  It trails a socket on which
the write is still posted: the two are told apart by nothing that `Send`
or `OnWriteCallback` looks at.
-/

namespace DokeviNet

open PacketPools Linked

section

variable {H P : Type*} [PacketPools H P]

/-- While a packet is being sent, `Send` neither looks at the outstanding writes nor
changes them. -/
theorem send_posted {accepted : Bool} {h : H} {s : SendSide P}
    {inData : Region UInt8} {inLen : UInt32} {inImmediateSend : Bool}
    {call : SendCall H P} (hsending : s.sendingPacket ≠ none)
    (hsend : send accepted h s inData inLen inImmediateSend = some call)
    (posted : List (WsaSend P)) (wire : List UInt8) :
    send accepted h { s with posted := posted, wire := wire } inData inLen
        inImmediateSend =
      some { call with
        socket := { call.socket with posted := posted, wire := wire } } ∧
      call.socket.posted = s.posted ∧ call.socket.wire = s.wire := by
  have hcoalesces : coalesces h { s with posted := posted, wire := wire } inLen
      inImmediateSend = coalesces h s inLen inImmediateSend := rfl
  obtain ⟨head, hhead⟩ := Option.ne_none_iff_exists'.mp hsending
  rw [send] at hsend ⊢
  rw [hcoalesces]
  split at hsend
  · next happend =>
      rw [if_pos happend]
      obtain ⟨last, hlast, rfl⟩ := Option.map_eq_some_iff.mp hsend
      refine ⟨?_, rfl, rfl⟩
      simp only [sendAppending, hlast, Option.map_some]
  · next happend =>
      rw [if_neg happend]
      obtain ⟨⟨p, h'⟩, halloc, hrest⟩ := Option.bind_eq_some_iff.mp hsend
      simp only [hhead] at hrest
      obtain ⟨last, hlast, rfl⟩ := Option.map_eq_some_iff.mp hrest
      refine ⟨?_, rfl, rfl⟩
      simp only [sendAllocating, halloc, hhead, hlast, Option.bind_some,
        Option.map_some]

/-- What has been given to `WSASend` and what waits behind it are the frames of the
parcels. -/
theorem Holds.stream {h : H} {s : SendSide P} {queue : List P}
    {q : ParcelQueue} (hholds : Holds h s queue q) :
    s.handed.flatten ++ queue.tail.flatMap (contents h) =
      q.frames.flatMap Frame.bytes :=
  calc s.handed.flatten ++ queue.tail.flatMap (contents h)
      = (s.handed ++ queue.tail.map (contents h)).flatten := by
        rw [List.flatten_append, List.flatMap_def]
    _ = ((q.sent ++ q.queue).map Parcel.bytes).flatten := by
        rw [hholds.handed, hholds.waiting, ← List.map_append,
          ParcelQueue.handed_append_tail]
    _ = q.frames.flatMap Frame.bytes := by
        rw [ParcelQueue.frames, List.flatMap_assoc, ← List.flatMap_def]
        rfl

/-- Socket `a` is socket `s` but for the completions, `n` in number, that
`OnWriteCallback` has yet to be run for: on `a` their writes are still posted. -/
inductive Trails (s : SendSide P) : ℕ → SendSide P → Prop
  | level : Trails s 0 s
  | behind {post : WsaSend P} {bytes wire : List UInt8}
      (hpost : post.transmitted = some bytes) (hidle : s.posted = [])
      (hwire : s.wire = wire ++ bytes) :
      Trails s 1 { s with posted := [post], wire := wire }

theorem Trails.eq {s a : SendSide P} (h : Trails s 0 a) : a = s := by
  cases h
  rfl

theorem Trails.lastPacket {s a : SendSide P} {n : ℕ} (h : Trails s n a) :
    a.lastPacket = s.lastPacket := by
  cases h <;> rfl

theorem Trails.sending_handed {s a : SendSide P} {n : ℕ} (h : Trails s n a) :
    a.sendingPacket = s.sendingPacket ∧ a.handed = s.handed := by
  cases h <;> exact ⟨rfl, rfl⟩

theorem Trails.of_posted {s a : SendSide P} {n : ℕ} (h : Trails s n a)
    (hposted : s.posted ≠ []) : n = 0 ∧ a = s := by
  cases h with
  | level => exact ⟨rfl, rfl⟩
  | behind _ hidle => exact absurd hidle hposted

theorem Trails.of_one {s a : SendSide P} (h : Trails s 1 a) :
    ∃ post bytes, post.transmitted = some bytes ∧ a.posted = [post] ∧
      { a with posted := [], wire := a.wire ++ bytes } = s := by
  cases h with
  | @behind post bytes wire hpost hidle hwire =>
      refine ⟨post, bytes, hpost, rfl, ?_⟩
      rw [← hidle, ← hwire]

/-- A socket whose only write ends falls behind. -/
theorem trails_of_ended {s : SendSide P} {post : WsaSend P} {bytes : List UInt8}
    (hpost : post.transmitted = some bytes) (hposted : s.posted = [post]) :
    Trails { s with posted := [], wire := s.wire ++ bytes } 1 s := by
  obtain ⟨sendingPacket, lastPacket, posted, handed, wire⟩ := s
  subst hposted
  exact Trails.behind hpost rfl rfl

/-- What has been transmitted for a socket is its first parcels. -/
theorem Trails.exists_sent {h : H} {s a : SendSide P} {n : ℕ} {queue : List P}
    {q : ParcelQueue} (htrails : Trails s n a) (hf : InFlight h a queue)
    (hq : Holds h a queue q) :
    ∃ sent, sent <+: q.sent ++ q.queue ∧
      s.wire = sent.flatMap Parcel.bytes := by
  cases htrails with
  | level => exact ⟨q.sent, List.prefix_append _ _, hq.wire⟩
  | @behind post bytes wire hpost hidle hwire =>
      obtain ⟨hhead, -, -, hbytes⟩ := hf.eq_of_posted rfl
      obtain ⟨rest, rfl⟩ := List.head?_eq_some_iff.mp hhead
      obtain ⟨parcel, parcels, hparcel, -, hqueue⟩ :=
        List.forall₂_cons_left_iff.mp hq.carries
      refine ⟨q.sent ++ [parcel], ?_, ?_⟩
      · rw [hqueue]
        exact ⟨parcels, by simp⟩
      · have hsent : wire = q.sent.flatMap Parcel.bytes := hq.wire
        rw [hwire, hbytes bytes hpost, hsent, List.flatMap_append,
          List.flatMap_singleton, ← hparcel.bytes]
        rfl

/-- `Send` does the same to both. -/
theorem Trails.send {h : H} {s a : SendSide P} {n : ℕ}
    {inData : Region UInt8} {inLen : UInt32} {inImmediateSend : Bool}
    {call : SendCall H P} (htrails : Trails s n a)
    (hbusy : n ≠ 0 → s.sendingPacket ≠ none)
    (hsend : send true h s inData inLen inImmediateSend = some call) :
    ∃ call', DokeviNet.send true h a inData inLen inImmediateSend =
        some call' ∧
      call'.pools = call.pools ∧ call'.allocated = call.allocated ∧
      Trails call.socket n call'.socket := by
  cases htrails with
  | level => exact ⟨call, hsend, rfl, rfl, Trails.level⟩
  | @behind post bytes wire hpost hidle hwire =>
      obtain ⟨hcall, hposted, hsame⟩ :=
        send_posted (hbusy Nat.one_ne_zero) hsend [post] wire
      refine ⟨_, hcall, rfl, rfl, Trails.behind hpost ?_ ?_⟩
      · rw [hposted, hidle]
      · rw [hsame, hwire]

/-! ## Between sections -/

/-- The socket carries `frames`; `n` completions are yet to be handled. -/
inductive SendSettled (h : H) (s : SendSide P) (n : ℕ) (queue : List P)
    (frames : List Frame) : Prop
  | intro {a : SendSide P} {q : ParcelQueue} (hshape : QueueShape h a queue)
      (hflight : InFlight h a queue) (hholds : Holds h a queue q)
      (htrails : Trails s n a) (hframes : q.frames = frames)

namespace SendSettled

variable {h h' : H} {s : SendSide P} {n : ℕ} {queue : List P}
  {frames : List Frame}

theorem congr (hs : SendSettled h s n queue frames)
    (hsame : ∀ p ∈ queue, packet h' p = packet h p) :
    SendSettled h' s n queue frames := by
  obtain ⟨hshape, hflight, hholds, htrails, hframes⟩ := hs
  refine ⟨?_, hflight.congr hsame, hholds.congr hsame rfl rfl, htrails, hframes⟩
  exact hshape.congr rfl rfl (fun p hp => by rw [hsame p hp])
    fun p hp => by rw [hsame p hp]

/-- The queue is described by the socket's own pointers. -/
theorem shape (hs : SendSettled h s n queue frames) : QueueShape h s queue := by
  obtain ⟨hshape, -, -, htrails, -⟩ := hs
  exact hshape.congr htrails.sending_handed.1.symm htrails.lastPacket.symm
    (fun _ _ => rfl) fun _ _ => rfl

theorem n_le_one (hs : SendSettled h s n queue frames) : n ≤ 1 := by
  obtain ⟨-, -, -, htrails, -⟩ := hs
  cases htrails with
  | level => exact Nat.zero_le 1
  | behind => exact Nat.le_refl 1

/-- With an empty queue nothing is outstanding or to be handled. -/
theorem idle (hs : SendSettled h s n queue frames) (hnone : s.sendingPacket = none) :
    n = 0 ∧ s.posted = [] := by
  have hnil := hs.shape.eq_nil hnone
  obtain ⟨-, hflight, -, htrails, -⟩ := hs
  have hidle := hflight.idle hnil
  cases htrails with
  | level => exact ⟨rfl, hidle⟩
  | behind => cases hidle

/-- A completion that is to be handled has its packet in the queue. -/
theorem n_le_length (hs : SendSettled h s n queue frames) :
    n ≤ queue.length := by
  cases queue with
  | nil =>
      have hnone : s.sendingPacket = none := hs.shape.head
      exact le_of_eq (hs.idle hnone).1
  | cons head rest => exact hs.n_le_one.trans (Nat.le_add_left 1 _)

/-- With nothing outstanding and no completion to be handled the queue is empty. -/
theorem sendingPacket_eq_none (hs : SendSettled h s 0 queue frames)
    (hposted : s.posted = []) : s.sendingPacket = none := by
  have hshape := hs.shape
  obtain ⟨-, hflight, -, htrails, -⟩ := hs
  obtain rfl := htrails.eq
  rw [hshape.head]
  cases hhead : queue.head? with
  | none => rfl
  | some head =>
      obtain ⟨transmitted, hbusy, -⟩ := hflight.busy head hhead
      rw [hposted] at hbusy
      cases hbusy

/-- An outstanding write is the only one, and has not completed. -/
theorem posted (hs : SendSettled h s n queue frames) {post : WsaSend P}
    {posts : List (WsaSend P)} (hposted : s.posted = post :: posts) :
    n = 0 ∧ posts = [] := by
  obtain ⟨-, hflight, -, htrails, -⟩ := hs
  obtain ⟨rfl, rfl⟩ := htrails.of_posted (by rw [hposted]; simp)
  obtain ⟨-, hposts, -, -⟩ := hflight.eq_of_posted hposted
  exact ⟨rfl, hposts⟩

/-- The packet of an outstanding write is the first of the queue. -/
theorem head_of_posted (hs : SendSettled h s n queue frames) {post : WsaSend P}
    {posts : List (WsaSend P)} (hposted : s.posted = post :: posts) :
    queue.head? = some post.packet := by
  obtain ⟨-, hflight, -, htrails, -⟩ := hs
  obtain ⟨-, rfl⟩ := htrails.of_posted (by rw [hposted]; simp)
  exact (hflight.eq_of_posted hposted).1

theorem mem_of_posted (hs : SendSettled h s n queue frames) {post : WsaSend P}
    {posts : List (WsaSend P)} (hposted : s.posted = post :: posts) :
    post.packet ∈ queue :=
  List.mem_of_mem_head? (hs.head_of_posted hposted)

theorem head_of_mem (hs : SendSettled h s n queue frames) {post : WsaSend P}
    (hpost : post ∈ s.posted) : queue.head? = some post.packet := by
  obtain ⟨other, posts, hposted⟩ :=
    List.exists_cons_of_ne_nil (List.ne_nil_of_mem hpost)
  obtain ⟨-, rfl⟩ := hs.posted hposted
  rw [hposted, List.mem_singleton] at hpost
  rw [hpost]
  exact hs.head_of_posted hposted

/-- The system takes the bytes of the outstanding write. -/
theorem transmit (hs : SendSettled h s n queue frames) {post : WsaSend P}
    {posts : List (WsaSend P)} (hposted : s.posted = post :: posts) :
    SendSettled h
      { s with
        posted := { post with
          transmitted := some ((packet h post.packet).buffer.read 0
            post.len.toNat) } :: posts }
      n queue frames := by
  obtain ⟨rfl, rfl⟩ := hs.posted hposted
  obtain ⟨hshape, hflight, hholds, htrails, hframes⟩ := hs
  obtain rfl := htrails.eq
  obtain ⟨hhead, -, hlen, -⟩ := hflight.eq_of_posted hposted
  refine SendSettled.intro ?_ ⟨?_, ?_⟩ ?_ Trails.level hframes
  · exact hshape.congr rfl rfl (fun _ _ => rfl) fun _ _ => rfl
  · intro hnil
    rw [hnil] at hhead
    cases hhead
  · intro head hhead'
    obtain rfl : post.packet = head := Option.some.inj (hhead ▸ hhead')
    refine ⟨_, by simp [← hlen]; rfl, ?_⟩
    simp [contents, hlen]
  · exact hholds.congr (fun _ _ => rfl) rfl rfl

/-- The outstanding write ends. -/
theorem ends (hs : SendSettled h s n queue frames) {post : WsaSend P}
    {posts : List (WsaSend P)} {bytes : List UInt8}
    (hposted : s.posted = post :: posts)
    (hbytes : post.transmitted = some bytes) :
    SendSettled h { s with posted := posts, wire := s.wire ++ bytes } (n + 1) queue
      frames := by
  obtain ⟨rfl, rfl⟩ := hs.posted hposted
  obtain ⟨hshape, hflight, hholds, htrails, hframes⟩ := hs
  obtain rfl := htrails.eq
  exact ⟨hshape, hflight, hholds, trails_of_ended hbytes hposted, hframes⟩

theorem sends [DecidableEq P] [LawfulPacketPools H P] {inData : Region UInt8}
    {inLen : UInt32} {inImmediateSend : Bool} {call : SendCall H P}
    (hs : SendSettled h s n queue frames)
    (hsend : send true h s inData inLen inImmediateSend = some call)
    (hfresh : ∀ p ∈ call.allocated, p ∉ queue)
    (hwrap : inLen.toNat + 4 < 2 ^ 32)
    (hroom : ∀ p ∈ call.allocated, inLen.toNat + 4 ≤ (capacity H p).toNat) :
    SendSettled call.pools call.socket n (queue ++ call.allocated.toList)
      (frames ++ [Frame.ofData inData inLen inImmediateSend]) := by
  have hbusy : n ≠ 0 → s.sendingPacket ≠ none :=
    fun hn hnone => hn (hs.idle hnone).1
  obtain ⟨hshape, hflight, hholds, htrails, rfl⟩ := hs
  obtain ⟨call', hcall', hpools, hallocated, htrails'⟩ :=
    htrails.send hbusy hsend
  rw [← hallocated] at hfresh hroom
  rw [← hpools, ← hallocated]
  have heffect := send_effect hcall'
  have hcap : ∃ cap, ∀ p ∈ call'.allocated, (capacity H p).toNat = cap := by
    cases call'.allocated with
    | none => exact ⟨0, by simp⟩
    | some p => exact ⟨(capacity H p).toNat, by simp⟩
  obtain ⟨cap, hcap⟩ := hcap
  obtain ⟨q', hq', hholds'⟩ :=
    hholds.send hshape heffect hfresh hwrap hroom hcap
  exact ⟨hshape.send heffect hfresh, hflight.send hshape heffect hfresh,
    hholds', htrails', ParcelQueue.send_frames hq'⟩

theorem handles [DecidableEq P] [LawfulPacketPools H P]
    {call : CallbackCall H P} (hs : SendSettled h s 1 queue frames)
    (hcall : onWriteCallback true h s = some call) :
    queue = call.freed :: queue.tail ∧
      SendSettled call.pools call.socket 0 queue.tail frames := by
  have hshape := hs.shape
  obtain ⟨-, hflight, hholds, htrails, rfl⟩ := hs
  obtain ⟨post, bytes, hpost, hposted, rfl⟩ := htrails.of_one
  have heffect := onWriteCallback_effect hcall
  obtain ⟨hhead, -, -, hcontents⟩ := hflight.eq_of_posted hposted
  obtain ⟨q', hq', hholds'⟩ := hholds.callback hshape rfl (fun head hhead' => by
    obtain rfl : post.packet = head := Option.some.inj (hhead ▸ hhead')
    rw [← hcontents bytes hpost]) heffect
  obtain ⟨heq, hshape'⟩ := hshape.callback heffect
  exact ⟨heq, hshape', InFlight.callback hshape rfl heffect, hholds',
    Trails.level, ParcelQueue.complete_frames hq'⟩

/-- What is on the wire is whole frames, the first ones. -/
theorem wire (hs : SendSettled h s n queue frames) :
    ∃ sent, sent <+: frames ∧ s.wire = sent.flatMap Frame.bytes := by
  obtain ⟨-, hflight, hholds, htrails, rfl⟩ := hs
  obtain ⟨sent, ⟨rest, hsent⟩, hwire⟩ := htrails.exists_sent hflight hholds
  refine ⟨sent.flatMap Parcel.frames, ⟨rest.flatMap Parcel.frames, ?_⟩, ?_⟩
  · rw [← List.flatMap_append, hsent]
    rfl
  · rw [hwire, List.flatMap_assoc]
    rfl

/-- What has been given to `WSASend` and what waits behind it are the frames. -/
theorem stream (hs : SendSettled h s n queue frames) :
    s.handed.flatten ++ queue.tail.flatMap (contents h) =
      frames.flatMap Frame.bytes := by
  obtain ⟨-, -, hholds, htrails, rfl⟩ := hs
  rw [← htrails.sending_handed.2]
  exact hholds.stream

/-- With no packet being sent all frames are on the wire. -/
theorem all (hs : SendSettled h s n queue frames)
    (hnone : s.sendingPacket = none) :
    s.wire = frames.flatMap Frame.bytes := by
  have hnil := hs.shape.eq_nil hnone
  obtain ⟨rfl, -⟩ := hs.idle hnone
  obtain ⟨-, -, hholds, htrails, rfl⟩ := hs
  obtain rfl := htrails.eq
  have hqueue := hholds.carries
  rw [hnil, List.forall₂_nil_left_iff] at hqueue
  rw [hholds.wire, ParcelQueue.frames, hqueue, List.append_nil,
    List.flatMap_assoc]
  rfl

end SendSettled

end

end DokeviNet
