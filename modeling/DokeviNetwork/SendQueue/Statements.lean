import DokeviNetwork.SendQueue.Effect
import DokeviNetwork.Support.Code

/-!
# Send and OnWriteCallback, statement by statement

`send` and `onWriteCallback` are one step each.  Here their statements are, in
the order of the source, and each goes through `_lastPacket`, `_sendingPacket`
or a local pointer as it is when the statement is executed.  Run one after
another they do what `send` and `onWriteCallback` do.  Where other threads
change the pools in between, a section does the same as long as they leave alone
the packets that it goes through.
-/

namespace DokeviNet

open PacketPools Code

/-! ## The statements -/

/-- The pointer that a statement goes through. -/
inductive PacketRef (P : Type*)
  | lastPacket
  | sendingPacket
  /-- a local pointer -/
  | packet (p : P)
  deriving DecidableEq

/-- The packet that the pointer points to. -/
def PacketRef.get {P : Type*} (s : SendSide P) : PacketRef P → Option P
  | .lastPacket => s.lastPacket
  | .sendingPacket => s.sendingPacket
  | .packet p => some p

/-- A store to a packet. -/
inductive PacketStore (P : Type*)
  /-- `memcpy` of the data to a position of the buffer -/
  | copy (curBufferPos : ℕ) (inData : Region UInt8) (inLen : UInt32)
  | immediateSend (value : Bool)
  | size (value : UInt32)
  | addSize (n : UInt32)
  | subRemainSize (n : UInt32)
  /-- `_isSending = true` -/
  | isSending
  | next (p : P)

/-- The packet after the store. -/
def PacketStore.apply {P : Type*} (packet : PacketInterface P) :
    PacketStore P → PacketInterface P
  | .copy curBufferPos inData inLen =>
    { packet with
      buffer := packet.buffer.write curBufferPos (inData.read 0 inLen.toNat) }
  | .immediateSend value => { packet with immediateSend := value }
  | .size value => { packet with size := value }
  | .addSize n => { packet with size := packet.size + n }
  | .subRemainSize n => { packet with remainSize := packet.remainSize - n }
  | .isSending => packet.markSending
  | .next p => packet.linkTo p

/-- The statements of `Send` and `OnWriteCallback`. -/
inductive SendStmt (P : Type*)
  /-- the test of `_lastPacket` -/
  | testLast (inData : Region UInt8) (inLen : UInt32) (inImmediateSend : Bool)
  /-- `SetSizeOnByteArrayFront` at the start of the buffer, or behind what it
  holds; the `memcpy` goes where it returns -/
  | storeSize (ref : PacketRef P) (behind : Bool) (inData : Region UInt8)
      (inLen : UInt32)
  | store (ref : PacketRef P) (value : PacketStore P)
  /-- `AllocPacket` -/
  | alloc (inData : Region UInt8) (inLen : UInt32) (inImmediateSend : Bool)
  /-- the test of `_sendingPacket` in `Send` -/
  | testSending (sendPacket : P)
  | setSending (p : Option P)
  | setLast (p : Option P)
  /-- `_lastPacket = _sendingPacket` -/
  | setLastToSending
  /-- `_server->Send(this, _sendingPacket)` -/
  | serverSend
  /-- `temp = _sendingPacket`, and its test -/
  | takeSending
  /-- the test of `_sendingPacket->_next` -/
  | testNext
  /-- `_sendingPacket = _sendingPacket->_next` -/
  | advanceSending
  /-- `FreePacket` -/
  | free (p : P)

/-- What the statements change.  `live` is a history variable: the packets
allocated and not freed since. -/
structure SendMemory (H P : Type*) where
  pools : H
  socket : SendSide P
  live : List P

namespace SendStmt

/-- The body of `Send`. -/
def ofSend {P : Type*} (inData : Region UInt8) (inLen : UInt32)
    (inImmediateSend : Bool) : List (SendStmt P) :=
  [.testLast inData inLen inImmediateSend]

/-- The body of `OnWriteCallback`. -/
def ofCallback {P : Type*} : List (SendStmt P) := [.takeSending]

/-- The branch of `Send` that appends to the last packet. -/
def appending {P : Type*} (inData : Region UInt8) (inLen : UInt32) :
    List (SendStmt P) :=
  [.storeSize .lastPacket true inData inLen,
    .store .lastPacket (.addSize (totalPacketSize inLen)),
    .store .lastPacket (.subRemainSize (totalPacketSize inLen))]

/-- What `Send` does with the packet `sendPacket` it has allocated. -/
def filling {P : Type*} (sendPacket : P) (inData : Region UInt8)
    (inLen : UInt32) (inImmediateSend : Bool) : List (SendStmt P) :=
  [.storeSize (.packet sendPacket) false inData inLen,
    .store (.packet sendPacket) (.immediateSend inImmediateSend),
    .store (.packet sendPacket) (.size (totalPacketSize inLen)),
    .store (.packet sendPacket) (.subRemainSize (totalPacketSize inLen)),
    .testSending sendPacket]

variable {H P : Type*} [PacketPools H P] [DecidableEq P]

/-- Execute a statement; `none` where it dereferences a null pointer. -/
def exec (accepted : Bool) (m : SendMemory H P) :
    SendStmt P → Option (SendMemory H P × List (SendStmt P))
  | .testLast inData inLen inImmediateSend =>
    some (m,
      if coalesces m.pools m.socket inLen inImmediateSend then
        appending inData inLen
      else [.alloc inData inLen inImmediateSend])
  | .storeSize ref behind inData inLen =>
    (ref.get m.socket).map fun p =>
      let packet := packet m.pools p
      let (buffer, curBufferPos) := setSizeOnByteArrayFront packet.buffer
        (if behind then packet.size.toNat else 0) inLen
      ({ m with pools := assign m.pools p { packet with buffer := buffer } },
        [.store (.packet p) (.copy curBufferPos inData inLen)])
  | .store ref value =>
    (ref.get m.socket).map fun p =>
      ({ m with pools := assign m.pools p (value.apply (packet m.pools p)) },
        [])
  | .alloc inData inLen inImmediateSend =>
    (allocPacket m.pools inLen).map fun (sendPacket, h) =>
      ({ m with pools := h, live := m.live ++ [sendPacket] },
        filling sendPacket inData inLen inImmediateSend)
  | .testSending sendPacket =>
    some (m,
      if m.socket.sendingPacket.isNone then
        [.setSending (some sendPacket), .store .sendingPacket .isSending,
          .setLastToSending, .serverSend]
      else [.store .lastPacket (.next sendPacket), .setLast (some sendPacket)])
  | .setSending p =>
    some ({ m with socket := { m.socket with sendingPacket := p } }, [])
  | .setLast p =>
    some ({ m with socket := { m.socket with lastPacket := p } }, [])
  | .setLastToSending =>
    some
      ({ m with
        socket := { m.socket with lastPacket := m.socket.sendingPacket } }, [])
  | .serverSend =>
    m.socket.sendingPacket.map fun p =>
      ({ m with
        socket := DokeviNet.serverSend accepted m.pools m.socket p }, [])
  | .takeSending =>
    m.socket.sendingPacket.map fun temp => (m, [.testNext, .free temp])
  | .testNext =>
    m.socket.sendingPacket.map fun p =>
      (m,
        if (packet m.pools p).next.isSome then
          [.advanceSending, .store .sendingPacket .isSending, .serverSend]
        else [.setSending none, .setLast none])
  | .advanceSending =>
    m.socket.sendingPacket.map fun p =>
      ({ m with
        socket :=
          { m.socket with sendingPacket := (packet m.pools p).next } }, [])
  | .free p =>
    some
      ({ m with pools := freePacket m.pools p, live := m.live.erase p }, [])

/-- The packet that a statement reads or stores to. -/
def touches (s : SendSide P) : SendStmt P → Option P
  | .storeSize ref _ _ _ | .store ref _ => ref.get s
  | .serverSend | .testNext | .advanceSending => s.sendingPacket
  | .free p => some p
  | .testLast _ _ _ | .alloc _ _ _ | .testSending _ | .setSending _ | .setLast _
  | .setLastToSending | .takeSending => none

/-- The statement is not the first of a body and neither allocates nor frees a
packet. -/
def isLocal : SendStmt P → Bool
  | .testLast _ _ _ | .alloc _ _ _ | .takeSending | .free _ => false
  | _ => true

/-- The statement leaves the buffers alone. -/
def keepsBuffers : SendStmt P → Bool
  | .storeSize _ _ _ _ | .store _ (.copy _ _ _) => false
  | _ => true

/-- The statement goes through a packet of `owned`, spares the buffers that are
outstanding, and calls `DokeviServer::Send` only while none is. -/
structure Within (owned : List P) (m : SendMemory H P) (a : SendStmt P) :
    Prop where
  isLocal : a.isLocal = true
  touches : ∀ p ∈ a.touches m.socket, p ∈ owned
  spares : ∀ post ∈ m.socket.posted, a.touches m.socket = some post.packet →
    a.keepsBuffers = true
  idle : a = .serverSend → m.socket.posted = []

/-- Run alone, the code leads from `m` to `m'`, within the packets of `owned`. -/
abbrev RunsWithin (accepted : Bool) (owned : List P) (m : SendMemory H P)
    (code : List (SendStmt P)) (m' : SendMemory H P) : Prop :=
  Runs (exec accepted) (fun m a => a.Within owned m) m code m'

/-! ## What other threads do in between -/

variable [LawfulPacketPools H P]

/-- A statement changes no packet but the one it goes through. -/
theorem exec_frame {accepted : Bool} {m m' : SendMemory H P} {a : SendStmt P}
    {pushed : List (SendStmt P)} (hlocal : a.isLocal = true)
    (hexec : a.exec accepted m = some (m', pushed)) :
    m'.live = m.live ∧ m'.socket.wire = m.socket.wire ∧
      ∀ q, q ∉ a.touches m.socket →
        packet m'.pools q = packet m.pools q := by
  have hstore : ∀ (p q : P) (v : PacketInterface P), q ∉ some p →
      packet (assign m.pools p v) q = packet m.pools q := by
    intro p q v hq
    rw [LawfulPacketPools.packet_assign, if_neg]
    rintro rfl
    exact hq rfl
  cases a with
  | storeSize ref | store ref =>
      obtain ⟨p, hp, heq⟩ := Option.map_eq_some_iff.mp hexec
      obtain ⟨rfl, -⟩ := Prod.ext_iff.mp heq
      refine ⟨rfl, rfl, fun q hq => hstore p q _ ?_⟩
      rwa [← hp]
  | testLast | alloc | takeSending | free => cases hlocal
  | serverSend | testNext | advanceSending =>
      obtain ⟨p, hp, heq⟩ := Option.map_eq_some_iff.mp hexec
      obtain ⟨rfl, -⟩ := Prod.ext_iff.mp heq
      exact ⟨rfl, rfl, fun _ _ => rfl⟩
  | testSending | setSending | setLast | setLastToSending =>
      obtain ⟨rfl, -⟩ := Prod.ext_iff.mp (Option.some.inj hexec)
      exact ⟨rfl, rfl, fun _ _ => rfl⟩

/-- The buffers that are outstanding stay as they are. -/
theorem Within.buffer {accepted : Bool} {owned : List P}
    {m m' : SendMemory H P} {a : SendStmt P} {pushed : List (SendStmt P)}
    (hwithin : a.Within owned m) (hexec : a.exec accepted m = some (m', pushed))
    {post : WsaSend P} (hpost : post ∈ m.socket.posted) :
    (packet m'.pools post.packet).buffer =
      (packet m.pools post.packet).buffer := by
  by_cases htouches : a.touches m.socket = some post.packet
  · have hkeeps := hwithin.spares post hpost htouches
    have hlocal := hwithin.isLocal
    cases a with
    | store ref value =>
        obtain ⟨p, hp, heq⟩ := Option.map_eq_some_iff.mp hexec
        obtain ⟨rfl, -⟩ := Prod.ext_iff.mp heq
        obtain rfl : p = post.packet := Option.some.inj (hp.symm.trans htouches)
        change (packet (assign _ _ _) _).buffer = _
        rw [LawfulPacketPools.packet_assign, if_pos rfl]
        cases value with
        | copy => cases hkeeps
        | _ => rfl
    | storeSize => cases hkeeps
    | testLast | alloc | takeSending | free => cases hlocal
    | serverSend | testNext | advanceSending =>
        obtain ⟨p, -, heq⟩ := Option.map_eq_some_iff.mp hexec
        obtain ⟨rfl, -⟩ := Prod.ext_iff.mp heq
        rfl
    | testSending | setSending | setLast | setLastToSending => cases htouches
  · rw [(exec_frame hwithin.isLocal hexec).2.2 _ htouches]

theorem RunsWithin.wire {accepted : Bool} {owned : List P}
    {m m' : SendMemory H P} {code : List (SendStmt P)}
    (hruns : RunsWithin accepted owned m code m') :
    m'.socket.wire = m.socket.wire :=
  hruns.eq_of_frame (f := fun m => m.socket.wire)
    fun _ _ _ _ hwithin hexec => (exec_frame hwithin.isLocal hexec).2.1

omit [LawfulPacketPools H P] in
/-- Code that runs within owned packets is from the middle of a section. -/
theorem RunsWithin.isLocal {accepted : Bool} {owned : List P}
    {m m' : SendMemory H P} {code : List (SendStmt P)}
    (hruns : RunsWithin accepted owned m code m') :
    ∀ a ∈ code, a.isLocal = true :=
  hruns.forall_mem fun _ _ hwithin => hwithin.isLocal

end SendStmt

/-- The two agree on the socket and on the packets of `owned`. -/
structure Agree {H K P : Type*} [PacketPools H P] [PacketPools K P]
    (owned : List P) (m : SendMemory H P) (x : SendMemory K P) : Prop where
  packets : ∀ p ∈ owned, packet x.pools p = packet m.pools p
  socket : x.socket = m.socket

section

variable {H K P : Type*} [PacketPools H P] [PacketPools K P]

theorem coalesces_congr {h : H} {k : K} {s : SendSide P}
    (hsame : ∀ last ∈ s.lastPacket, packet k last = packet h last)
    (inLen : UInt32) (inImmediateSend : Bool) :
    coalesces k s inLen inImmediateSend =
      coalesces h s inLen inImmediateSend := by
  unfold coalesces
  cases hlast : s.lastPacket with
  | none => rfl
  | some last => simp only [hsame last hlast]

variable [DecidableEq P] [LawfulPacketPools H P] [LawfulPacketPools K P]
  {owned : List P} {m m' : SendMemory H P} {x : SendMemory K P}

/-- A store through the same pointer to the same packet. -/
theorem Agree.assign (h : Agree owned m x) (p : P) (v : PacketInterface P) :
    Agree owned { m with pools := assign m.pools p v }
      { x with pools := assign x.pools p v } := by
  refine ⟨fun q hq => ?_, h.socket⟩
  rw [LawfulPacketPools.packet_assign, LawfulPacketPools.packet_assign,
    h.packets q hq]

omit [DecidableEq P] [LawfulPacketPools H P] [LawfulPacketPools K P] in
theorem Agree.setSocket (h : Agree owned m x) (s : SendSide P) :
    Agree owned { m with socket := s } { x with socket := s } :=
  ⟨h.packets, rfl⟩

/-- A statement does the same to both. -/
theorem Agree.exec {accepted : Bool} {a : SendStmt P}
    {pushed : List (SendStmt P)} (h : Agree owned m x)
    (hwithin : a.Within owned m)
    (hexec : a.exec accepted m = some (m', pushed)) :
    a.Within owned x ∧
      ∃ x', a.exec accepted x = some (x', pushed) ∧ Agree owned m' x' := by
  obtain ⟨hlocal, htouches, hspares, hidle⟩ := hwithin
  refine ⟨⟨hlocal, by rwa [h.socket], by rwa [h.socket], by rwa [h.socket]⟩,
    ?_⟩
  cases a with
  | testLast | alloc | takeSending | free => cases hlocal
  | storeSize ref behind =>
      obtain ⟨p, hp, heq⟩ := Option.map_eq_some_iff.mp hexec
      obtain ⟨rfl, rfl⟩ := Prod.ext_iff.mp heq
      have hsame := h.packets p (htouches p hp)
      refine ⟨_, ?_, h.assign p _⟩
      simp only [SendStmt.exec, h.socket, hp, Option.map_some, hsame]
  | store ref value =>
      obtain ⟨p, hp, heq⟩ := Option.map_eq_some_iff.mp hexec
      obtain ⟨rfl, rfl⟩ := Prod.ext_iff.mp heq
      have hsame := h.packets p (htouches p hp)
      refine ⟨_, ?_, h.assign p _⟩
      simp only [SendStmt.exec, h.socket, hp, Option.map_some, hsame]
  | serverSend =>
      obtain ⟨p, hp, heq⟩ := Option.map_eq_some_iff.mp hexec
      obtain ⟨rfl, rfl⟩ := Prod.ext_iff.mp heq
      have hsame := h.packets p (htouches p hp)
      refine ⟨_, ?_, h.setSocket _⟩
      simp only [SendStmt.exec, h.socket, hp, Option.map_some, serverSend, hsame]
  | testNext =>
      obtain ⟨p, hp, heq⟩ := Option.map_eq_some_iff.mp hexec
      obtain ⟨rfl, rfl⟩ := Prod.ext_iff.mp heq
      have hsame := h.packets p (htouches p hp)
      refine ⟨x, ?_, h⟩
      simp only [SendStmt.exec, h.socket, hp, Option.map_some, hsame]
  | advanceSending =>
      obtain ⟨p, hp, heq⟩ := Option.map_eq_some_iff.mp hexec
      obtain ⟨rfl, rfl⟩ := Prod.ext_iff.mp heq
      have hsame := h.packets p (htouches p hp)
      refine ⟨_, ?_, h.setSocket _⟩
      simp only [SendStmt.exec, h.socket, hp, Option.map_some, hsame]
  | testSending =>
      obtain ⟨rfl, rfl⟩ := Prod.ext_iff.mp (Option.some.inj hexec)
      exact ⟨x, by rw [SendStmt.exec, h.socket], h⟩
  | setSending | setLast | setLastToSending =>
      obtain ⟨rfl, rfl⟩ := Prod.ext_iff.mp (Option.some.inj hexec)
      exact ⟨_, by rw [SendStmt.exec, h.socket], h.setSocket _⟩

end

/-! ## What the system does in between -/

section

variable {H P : Type*} [PacketPools H P]

/-- The memory with other outstanding and completed writes. -/
def SendMemory.withWrites (posted : List (WsaSend P)) (wire : List UInt8)
    (m : SendMemory H P) : SendMemory H P :=
  { m with socket := { m.socket with posted := posted, wire := wire } }

theorem Agree.withWrites {K : Type*} [PacketPools K P] {owned : List P}
    {m : SendMemory H P} {x : SendMemory K P} (h : Agree owned m x)
    (posted : List (WsaSend P)) (wire : List UInt8) :
    Agree owned (m.withWrites posted wire) (x.withWrites posted wire) := by
  refine ⟨h.packets, ?_⟩
  rw [SendMemory.withWrites, SendMemory.withWrites, h.socket]

/-- Only `DokeviServer::Send` looks at the outstanding writes. -/
theorem SendStmt.exec_withWrites [DecidableEq P] {accepted : Bool}
    {m m' : SendMemory H P} {a : SendStmt P} {pushed : List (SendStmt P)}
    (hne : a ≠ .serverSend)
    (posted : List (WsaSend P)) (wire : List UInt8)
    (hexec : a.exec accepted m = some (m', pushed)) :
    a.exec accepted (m.withWrites posted wire) =
        some (m'.withWrites posted wire, pushed) ∧
      m'.socket.posted = m.socket.posted := by
  cases a with
  | serverSend => exact absurd rfl hne
  | storeSize ref | store ref =>
      obtain ⟨p, hp, heq⟩ := Option.map_eq_some_iff.mp hexec
      obtain ⟨rfl, rfl⟩ := Prod.ext_iff.mp heq
      refine ⟨?_, rfl⟩
      have hget : ref.get (m.withWrites posted wire).socket = some p := by
        rw [← hp]
        cases ref <;> rfl
      rw [exec, hget]
      rfl
  | alloc =>
      obtain ⟨r, hr, heq⟩ := Option.map_eq_some_iff.mp hexec
      obtain ⟨rfl, rfl⟩ := Prod.ext_iff.mp heq
      refine ⟨?_, rfl⟩
      rw [exec, SendMemory.withWrites, hr]
      rfl
  | takeSending | testNext | advanceSending =>
      obtain ⟨p, hp, heq⟩ := Option.map_eq_some_iff.mp hexec
      obtain ⟨rfl, rfl⟩ := Prod.ext_iff.mp heq
      refine ⟨?_, rfl⟩
      rw [exec, SendMemory.withWrites, hp]
      rfl
  | testLast | testSending | setSending | setLast | setLastToSending | free =>
      obtain ⟨rfl, rfl⟩ := Prod.ext_iff.mp (Option.some.inj hexec)
      exact ⟨rfl, rfl⟩

/-- While a write is outstanding, the rest of a section runs the same whatever
becomes of the write, as long as its packet stays, and leaves the write and
its buffer alone. -/
theorem SendStmt.RunsWithin.withWrites [DecidableEq P] [LawfulPacketPools H P]
    {accepted : Bool} {owned : List P} {m m' : SendMemory H P}
    {code : List (SendStmt P)} (hruns : RunsWithin accepted owned m code m')
    (posted : List (WsaSend P)) (wire : List UInt8)
    (hposted : m.socket.posted ≠ [])
    (hpackets : ∀ post ∈ posted, ∃ old ∈ m.socket.posted,
      old.packet = post.packet) :
    RunsWithin accepted owned (m.withWrites posted wire) code
        (m'.withWrites posted wire) ∧
      m'.socket.posted = m.socket.posted ∧
      ∀ post ∈ m.socket.posted, (packet m'.pools post.packet).buffer =
        (packet m.pools post.packet).buffer := by
  have hrelated := @Runs.related _ _ _ _ _ _ _ _ (SendStmt.exec accepted)
    (fun m a => a.Within owned m)
    (fun s x => x = s.withWrites posted wire ∧
      s.socket.posted = m.socket.posted ∧
      ∀ post ∈ m.socket.posted, (packet s.pools post.packet).buffer =
        (packet m.pools post.packet).buffer)
    ?_ _ ⟨rfl, rfl, fun _ _ => rfl⟩ hruns
  · obtain ⟨y, hy, rfl, hsame⟩ := hrelated
    exact ⟨hy, hsame⟩
  · rintro s _ a s' pushed ⟨rfl, hs, hbuffer⟩ hwithin hexec
    have hne : a ≠ .serverSend :=
      fun heq => hposted (hs ▸ hwithin.idle heq)
    obtain ⟨hexec', hs'⟩ :=
      SendStmt.exec_withWrites hne posted wire hexec
    have hsame : a.touches (s.withWrites posted wire).socket =
        a.touches s.socket := by
      cases a with
      | storeSize ref | store ref => cases ref <;> rfl
      | _ => rfl
    refine ⟨⟨hwithin.isLocal, ?_, ?_, fun heq => absurd heq hne⟩, _, hexec',
      rfl, hs'.trans hs, ?_⟩
    · rw [hsame]
      exact hwithin.touches
    · rw [hsame]
      intro post hpost htouches
      obtain ⟨old, hold, heq⟩ := hpackets post hpost
      exact hwithin.spares old (hs ▸ hold) (heq ▸ htouches)
    · intro post hpost
      rw [hwithin.buffer hexec (hs ▸ hpost), hbuffer post hpost]

end

/-! ## What the statements do together -/

/-- The packets alone, as pools that hand out the packet they are told to and
keep nothing else. -/
structure PacketView (H P : Type*) where
  packets : P → PacketInterface P
  handsOut : Option P

namespace PacketView

variable {H P : Type*} [PacketPools H P]

/-- The packets of the pools. -/
def of (h : H) (handsOut : Option P) : PacketView H P where
  packets := packet h
  handsOut := handsOut

variable [DecidableEq P]

instance : PacketPools (PacketView H P) P where
  packet v := v.packets
  assign v p value := { v with packets := Function.update v.packets p value }
  capacity p := capacity H p
  allocPacket v _ :=
    v.handsOut.map fun p =>
      (p, { v with
        packets := Function.update v.packets p
          ((v.packets p).release (capacity H p)) })
  freePacket v _ := v

instance : LawfulPacketPools (PacketView H P) P where
  packet_assign v p q value := by
    by_cases hq : q = p
    · subst hq
      simp [packet, assign]
    · simp [packet, assign, hq]
  packet_alloc {v v' inSize p} halloc q := by
    obtain ⟨p', -, heq⟩ := Option.map_eq_some_iff.mp halloc
    obtain ⟨rfl, rfl⟩ := Prod.ext_iff.mp heq
    by_cases hq : q = p'
    · subst hq
      simp [packet, capacity]
    · simp [packet, hq]
  packet_free _ := rfl

theorem assign_assign (v : PacketView H P) (p : P) (x y : PacketInterface P) :
    assign (assign v p x) p y = assign v p y := by
  simp [assign]

theorem packet_assign_self (v : PacketView H P) (p : P)
    (x : PacketInterface P) : packet (assign v p x) p = x := by
  simp [packet, assign]

end PacketView

namespace SendStmt

variable {H P : Type*} [PacketPools H P] [DecidableEq P] {accepted : Bool}
  {owned : List P} {m m' : SendMemory H P} {code : List (SendStmt P)}

/-- A statement that goes through no packet. -/
theorem RunsWithin.step {a : SendStmt P} {n : SendMemory H P}
    {pushed : List (SendStmt P)} (hlocal : a.isLocal = true)
    (htouches : a.touches m.socket = none) (hne : a ≠ .serverSend)
    (hexec : a.exec accepted m = some (n, pushed))
    (hrest : RunsWithin accepted owned n (pushed ++ code) m') :
    RunsWithin accepted owned m (a :: code) m' := by
  refine Runs.step ⟨hlocal, ?_, ?_, fun heq => absurd heq hne⟩ hexec hrest
  · rw [htouches]
    simp
  · rw [htouches]
    simp

theorem RunsWithin.store {ref : PacketRef P} {value : PacketStore P} {p : P}
    (hp : ref.get m.socket = some p) (hmem : p ∈ owned)
    (hspares : ∀ post ∈ m.socket.posted, p = post.packet →
      (SendStmt.store ref value).keepsBuffers = true)
    (hrest : RunsWithin accepted owned
      { m with pools := assign m.pools p (value.apply (packet m.pools p)) }
      code m') :
    RunsWithin accepted owned m (.store ref value :: code) m' := by
  have hexec : (SendStmt.store ref value).exec accepted m = some
      ({ m with pools := assign m.pools p (value.apply (packet m.pools p)) },
        []) := by
    simp [exec, hp]
  refine Runs.step ⟨rfl, ?_, ?_, by simp⟩ hexec hrest
  · simpa [touches, hp] using hmem
  · simpa [touches, hp] using hspares

theorem RunsWithin.serverSend {p : P} (hp : m.socket.sendingPacket = some p)
    (hmem : p ∈ owned) (hidle : m.socket.posted = []) :
    RunsWithin accepted owned m [.serverSend]
      { m with
        socket := DokeviNet.serverSend accepted m.pools m.socket p } := by
  have hexec : SendStmt.serverSend.exec accepted m = some
      ({ m with
        socket := DokeviNet.serverSend accepted m.pools m.socket p }, []) := by
    simp [exec, hp]
  refine Runs.step ⟨rfl, ?_, fun _ _ _ => rfl, fun _ => hidle⟩ hexec
    (Runs.done _)
  simpa [touches, hp] using hmem

variable {v : PacketView H P} {s : SendSide P} {live : List P}
  {inData : Region UInt8} {inLen : UInt32} {inImmediateSend : Bool}
  {n : SendMemory (PacketView H P) P} {rest : List (SendStmt P)}

/-- `SetSizeOnByteArrayFront` and the `memcpy` behind the size. -/
theorem RunsWithin.storeFrame {ref : PacketRef P} {behind : Bool} {p : P}
    (hp : ref.get s = some p) (hmem : p ∈ owned)
    (hspares : ∀ post ∈ s.posted, p ≠ post.packet)
    (hrest : RunsWithin accepted owned
      { pools := assign v p { packet v p with
          buffer := DokeviNet.storeFrame (packet v p).buffer
            (if behind then (packet v p).size.toNat else 0) inData inLen }
        socket := s
        live := live }
      rest n) :
    RunsWithin accepted owned ⟨v, s, live⟩
      (.storeSize ref behind inData inLen :: rest) n := by
  let pos := if behind then (packet v p).size.toNat else 0
  have hexec : (SendStmt.storeSize ref behind inData inLen).exec accepted
      (⟨v, s, live⟩ : SendMemory (PacketView H P) P) = some
        (⟨assign v p { packet v p with
            buffer := (packet v p).buffer.write pos (sizeBytes inLen) }, s,
          live⟩, [.store (.packet p) (.copy (pos + 4) inData inLen)]) := by
    rw [exec, hp]
    rfl
  have hspares' : ∀ post ∈ s.posted, p = post.packet →
      ∀ a : SendStmt P, a.keepsBuffers = true :=
    fun post hpost heq => absurd heq (hspares post hpost)
  refine Runs.step ⟨rfl, ?_, ?_, by simp⟩ hexec ?_
  · simpa [touches, hp] using hmem
  · intro post hpost htouches
    exact hspares' post hpost (Option.some.inj (hp.symm.trans htouches)) _
  · refine RunsWithin.store rfl hmem
      (fun post hpost heq => hspares' post hpost heq _) ?_
    rw [PacketView.assign_assign, PacketView.packet_assign_self]
    exact hrest

/-- The branch that appends does what `append` says. -/
theorem runs_appending {last : P} (hlast : s.lastPacket = some last)
    (hmem : last ∈ owned) (hspares : ∀ post ∈ s.posted, last ≠ post.packet) :
    RunsWithin accepted owned ⟨v, s, live⟩ (appending inData inLen)
      ⟨assign v last ((packet v last).append inData inLen), s, live⟩ := by
  refine RunsWithin.storeFrame hlast hmem hspares ?_
  refine RunsWithin.store hlast hmem (fun _ _ _ => rfl) ?_
  refine RunsWithin.store hlast hmem (fun _ _ _ => rfl) ?_
  simp only [PacketView.assign_assign, PacketView.packet_assign_self]
  exact Runs.done _

/-- The branch that fills a new packet does the rest of what `send` does once it
has the packet. -/
theorem runs_filling {p : P} {v' : PacketView H P}
    {call : SendCall (PacketView H P) P}
    (hcoalesces : coalesces v s inLen inImmediateSend = false)
    (halloc : allocPacket v inLen = some (p, v'))
    (hsend : DokeviNet.send accepted v s inData inLen inImmediateSend =
      some call)
    (hmem : p ∈ owned) (hspares : ∀ post ∈ s.posted, p ≠ post.packet)
    (hlast : ∀ last ∈ s.lastPacket, last ∈ owned)
    (hidle : s.sendingPacket = none → s.posted = []) :
    RunsWithin accepted owned ⟨v', s, live⟩
      (filling p inData inLen inImmediateSend)
      ⟨call.pools, call.socket, live⟩ := by
  rw [DokeviNet.send, hcoalesces, if_neg Bool.false_ne_true, sendAllocating,
    halloc, Option.bind_some] at hsend
  refine RunsWithin.storeFrame rfl hmem hspares ?_
  refine RunsWithin.store rfl hmem (fun _ _ _ => rfl) ?_
  refine RunsWithin.store rfl hmem (fun _ _ _ => rfl) ?_
  refine RunsWithin.store rfl hmem (fun _ _ _ => rfl) ?_
  simp only [PacketView.assign_assign, PacketView.packet_assign_self]
  change RunsWithin accepted owned
    ⟨assign v' p ((packet v' p).fill inData inLen inImmediateSend), s, live⟩
    [.testSending p] _
  refine RunsWithin.step rfl rfl (by simp) rfl ?_
  cases hsending : s.sendingPacket with
  | none =>
      rw [hsending] at hsend
      obtain rfl := Option.some.inj hsend
      refine RunsWithin.step rfl rfl (by simp) rfl ?_
      refine RunsWithin.store rfl hmem (fun _ _ _ => rfl) ?_
      refine RunsWithin.step rfl rfl (by simp) rfl ?_
      exact RunsWithin.serverSend rfl hmem (hidle hsending)
  | some head =>
      rw [hsending] at hsend
      obtain ⟨last, hlast', rfl⟩ := Option.map_eq_some_iff.mp hsend
      refine RunsWithin.store hlast' (hlast last hlast') (fun _ _ _ => rfl) ?_
      rw [← hsending]
      exact RunsWithin.step rfl rfl (by simp) rfl (Runs.done _)

/-- `OnWriteCallback` without its call of `FreePacket`. -/
theorem runs_testNext {temp : P} {call : CallbackCall (PacketView H P) P}
    (htemp : s.sendingPacket = some temp)
    (hcall : DokeviNet.onWriteCallback accepted v s = some call)
    (hmem : temp ∈ owned)
    (hnext : ∀ next ∈ (packet v temp).next, next ∈ owned)
    (hidle : s.posted = []) :
    RunsWithin accepted owned ⟨v, s, live⟩ [.testNext]
      ⟨call.pools, call.socket, live⟩ := by
  have hexec : SendStmt.testNext.exec accepted
      (⟨v, s, live⟩ : SendMemory (PacketView H P) P) = some (⟨v, s, live⟩,
        if (packet v temp).next.isSome then
          [.advanceSending, .store .sendingPacket .isSending, .serverSend]
        else [.setSending none, .setLast none]) := by
    simp [exec, htemp]
  refine Runs.step ⟨rfl, by simpa [touches, htemp] using hmem,
    fun _ _ _ => rfl, by simp⟩ hexec ?_
  rw [DokeviNet.onWriteCallback, htemp, Option.map_some] at hcall
  cases hnextPacket : (packet v temp).next with
  | none =>
      rw [hnextPacket] at hcall
      obtain rfl := Option.some.inj hcall
      refine RunsWithin.step rfl rfl (by simp) rfl ?_
      exact RunsWithin.step rfl rfl (by simp) rfl (Runs.done _)
  | some next =>
      rw [hnextPacket] at hcall
      obtain rfl := Option.some.inj hcall
      have hadvance : SendStmt.advanceSending.exec accepted
          (⟨v, s, live⟩ : SendMemory (PacketView H P) P) = some
            (⟨v, { s with sendingPacket := some next }, live⟩, []) := by
        simp [exec, htemp, hnextPacket]
      refine Runs.step ⟨rfl, by simpa [touches, htemp] using hmem,
        fun _ _ _ => rfl, by simp⟩ hadvance ?_
      have hmem' := hnext next hnextPacket
      refine RunsWithin.store rfl hmem' (fun _ _ _ => rfl) ?_
      exact RunsWithin.serverSend rfl hmem' hidle

end SendStmt

end DokeviNet
