import DokeviNetwork.SendQueue.Statements
import DokeviNetwork.SendQueue.Trails

/-!
# The locked sections of one socket

Between two sections of a socket its packets and pointers carry a list of frames.
Inside a section they need not: `SendStage` says what holds before each statement of
`Send` and `OnWriteCallback`.  It survives the statements of the section, what the
system does with the outstanding write, and whatever leaves the packets
of the socket alone.
-/

namespace DokeviNet

open PacketPools Linked Code SendStmt

namespace SendStmt

variable {P : Type*}

/-- `FreePacket`. -/
def isFree : SendStmt P → Bool
  | .free _ => true
  | _ => false

/-- The code is that of an `OnWriteCallback` that has not taken its packet off the
queue yet. -/
def completing : List (SendStmt P) → Bool
  | [] => false
  | .takeSending :: _ => true
  | _ :: rest => rest.any isFree

/-- The code is that of an `OnWriteCallback` that has only `FreePacket` left. -/
def onlyFrees : List (SendStmt P) → Bool
  | [.free _] => true
  | _ => false

/-- `AllocPacket`. -/
def isAlloc : SendStmt P → Bool
  | .alloc _ _ _ => true
  | _ => false

/-- The frame that a `Send` has got in, once this statement is executed. -/
def takes : SendStmt P → Option Frame
  | .testLast inData inLen inImmediateSend =>
    some (Frame.ofData inData inLen inImmediateSend)
  | _ => none

/-- The body of a section from its first statement on. -/
inductive Begins : List (SendStmt P) → Prop
  | send (inData : Region UInt8) (inLen : UInt32) (inImmediateSend : Bool) :
    Begins (ofSend inData inLen inImmediateSend)
  | callback : Begins ofCallback

theorem completing_append_free {code : List (SendStmt P)} (hcode : code ≠ [])
    (temp : P) : completing (code ++ [.free temp]) = true := by
  obtain ⟨a, rest, rfl⟩ := List.exists_cons_of_ne_nil hcode
  cases a <;> simp [completing, isFree]

theorem onlyFrees_append_free {code : List (SendStmt P)} (hcode : code ≠ [])
    (temp : P) : onlyFrees (code ++ [.free temp]) = false := by
  obtain ⟨a, rest, rfl⟩ := List.exists_cons_of_ne_nil hcode
  cases a <;> cases rest <;> rfl

theorem onlyFrees_eq_false {code : List (SendStmt P)}
    (hlocal : ∀ a ∈ code, a.isLocal = true) : onlyFrees code = false := by
  unfold onlyFrees
  split
  · exact absurd (hlocal _ List.mem_cons_self) (by simp [isLocal])
  · rfl

theorem completing_eq_false {code : List (SendStmt P)}
    (hlocal : ∀ a ∈ code, a.isLocal = true) : completing code = false := by
  cases code with
  | nil => rfl
  | cons a rest =>
      have hfree : rest.any isFree = false := by
        rw [List.any_eq_false]
        intro b hb
        have hlocal := hlocal b (List.mem_cons_of_mem a hb)
        cases b <;> simp [isFree, isLocal] at hlocal ⊢
      have hfirst := hlocal a List.mem_cons_self
      cases a <;> simp [completing, isLocal, hfree] at hfirst ⊢

variable {H : Type*} [PacketPools H P]

/-- A `Send` gets in one frame, with its first statement. -/
theorem takes_of_exec [DecidableEq P] {accepted : Bool} {m m' : SendMemory H P}
    {a : SendStmt P} {pushed : List (SendStmt P)}
    (hexec : a.exec accepted m = some (m', pushed)) :
    ∀ b ∈ pushed, b.takes = none := by
  cases a with
  | testLast | testSending =>
      obtain ⟨-, rfl⟩ := Prod.mk.inj (Option.some.inj hexec)
      split <;> simp [takes, appending]
  | setSending | setLast | setLastToSending | free =>
      obtain ⟨-, rfl⟩ := Prod.mk.inj (Option.some.inj hexec)
      simp
  | testNext =>
      obtain ⟨p, -, heq⟩ := Option.map_eq_some_iff.mp hexec
      obtain ⟨-, rfl⟩ := Prod.mk.inj heq
      split <;> simp [takes]
  | storeSize | store | alloc | serverSend | takeSending | advanceSending =>
      obtain ⟨p, -, heq⟩ := Option.map_eq_some_iff.mp hexec
      obtain ⟨-, rfl⟩ := Prod.mk.inj heq
      simp [takes, filling]

/-- The packet that a section takes is fresh and the payload fits it, and the
length with its header does not wrap. -/
def Suits (m : SendMemory H P) : SendStmt P → Prop
  | .testLast _ inLen inImmediateSend =>
    coalesces m.pools m.socket inLen inImmediateSend = true →
      inLen.toNat + 4 < 2 ^ 32
  | .alloc _ inLen _ =>
    ∀ p ∈ (allocPacket m.pools inLen).map Prod.fst,
      p ∉ m.live ∧ inLen.toNat + 4 ≤ (capacity H p).toNat
  | _ => True

instance [DecidableEq P] (m : SendMemory H P) : DecidablePred (Suits m)
  | .testLast _ _ _ => inferInstanceAs (Decidable (_ → _))
  | .alloc _ inLen _ =>
    inferInstanceAs (Decidable (∀ p ∈ (allocPacket m.pools inLen).map Prod.fst,
      p ∉ m.live ∧ inLen.toNat + 4 ≤ (capacity H p).toNat))
  | .storeSize _ _ _ _ | .store _ _ | .testSending _ | .setSending _
  | .setLast _ | .setLastToSending | .serverSend | .takeSending | .testNext
  | .advanceSending | .free _ => isTrue trivial

end SendStmt

section

variable {H P : Type*} [PacketPools H P]

section

variable {h : H} {s : SendSide P} {n : ℕ} {queue : List P}
  {frames : List Frame}

variable [DecidableEq P]

/-- Only the packets matter. -/
theorem SendSettled.toView (hs : SendSettled h s n queue frames) (handsOut : Option P) :
    SendSettled (PacketView.of h handsOut) s n queue frames := by
  obtain ⟨hshape, hflight, hholds, htrails, hframes⟩ := hs
  exact ⟨⟨hshape.linked, hshape.last, hshape.nodup, hshape.sending⟩,
    ⟨hflight.idle, hflight.busy⟩, ⟨hholds.carries, hholds.handed, hholds.wire⟩,
    htrails, hframes⟩

theorem SendSettled.ofView {v : PacketView H P} (hs : SendSettled v s n queue frames)
    (hsame : ∀ p ∈ queue, packet h p = packet v p) :
    SendSettled h s n queue frames := by
  have hsame' : ∀ p ∈ queue, packet (PacketView.of h none) p = packet v p :=
    hsame
  obtain ⟨hshape, hflight, hholds, htrails, hframes⟩ := hs.congr hsame'
  exact ⟨⟨hshape.linked, hshape.last, hshape.nodup, hshape.sending⟩,
    ⟨hflight.idle, hflight.busy⟩, ⟨hholds.carries, hholds.handed, hholds.wire⟩,
    htrails, hframes⟩

end

/-! ## Inside a section -/

theorem send_of_coalesces {accepted : Bool} {h : H} {s : SendSide P}
    {inLen : UInt32} {inImmediateSend : Bool} {last : P}
    (hcoalesces : coalesces h s inLen inImmediateSend = true)
    (hlast : s.lastPacket = some last) (inData : Region UInt8) :
    send accepted h s inData inLen inImmediateSend = some
      { pools := assign h last ((packet h last).append inData inLen)
        socket := s
        allocated := none
        writes := frameWrites last (packet h last).size.toNat inLen } := by
  rw [send, if_pos hcoalesces, sendAppending, hlast]
  rfl

/-- Given a packet, `Send` goes through: with one being sent there is a last. -/
theorem exists_send_of_alloc {accepted : Bool} {h h' : H} {s : SendSide P}
    {queue : List P} {inLen : UInt32} {inImmediateSend : Bool} {p : P}
    (hshape : QueueShape h s queue)
    (hcoalesces : coalesces h s inLen inImmediateSend = false)
    (halloc : allocPacket h inLen = some (p, h')) (inData : Region UInt8) :
    ∃ call, send accepted h s inData inLen inImmediateSend = some call ∧
      call.allocated = some p := by
  rw [send, hcoalesces, if_neg Bool.false_ne_true, sendAllocating, halloc,
    Option.bind_some]
  cases hsending : s.sendingPacket with
  | none => exact ⟨_, rfl, rfl⟩
  | some head =>
      obtain ⟨rest, rfl⟩ := hshape.eq_cons hsending
      rw [hshape.last, List.getLast?_cons]
      exact ⟨_, rfl, rfl⟩

variable [DecidableEq P]

/-- The rest `code` of a section, run alone within the packets of `owned`, makes
the socket carry `frames`. -/
inductive Leads (x : SendMemory H P) (owned : List P)
    (code : List (SendStmt P)) (n : ℕ) (queue : List P)
    (frames : List Frame) : Prop
  | intro {m m' : SendMemory (PacketView H P) P} (hagree : Agree owned m x)
      (hruns : RunsWithin true owned m code m')
      (hsettled : SendSettled m'.pools m'.socket n queue frames)

namespace Leads

variable {x x' : SendMemory H P} {n : ℕ} {owned queue : List P}
  {code : List (SendStmt P)} {frames : List Frame}

theorem congr (h : Leads x owned code n queue frames)
    (hsocket : x'.socket = x.socket)
    (hsame : ∀ p ∈ owned, packet x'.pools p = packet x.pools p) :
    Leads x' owned code n queue frames := by
  obtain ⟨hagree, hruns, hsettled⟩ := h
  refine ⟨⟨fun p hp => ?_, hsocket.trans hagree.socket⟩, hruns, hsettled⟩
  exact (hsame p hp).trans (hagree.packets p hp)

theorem settled (h : Leads x owned [] n queue frames)
    (hsub : ∀ p ∈ queue, p ∈ owned) :
    SendSettled x.pools x.socket n queue frames := by
  obtain ⟨hagree, hruns, hsettled⟩ := h
  obtain rfl := hruns.eq
  rw [hagree.socket]
  exact hsettled.ofView fun p hp => hagree.packets p (hsub p hp)

/-- The system takes the bytes of the outstanding write. -/
theorem transmit (h : Leads x owned code n queue frames)
    (hsub : ∀ p ∈ queue, p ∈ owned) {post : WsaSend P}
    {posts : List (WsaSend P)} (hposted : x.socket.posted = post :: posts) :
    Leads
      (x.withWrites
        ({ post with
          transmitted := some ((packet x.pools post.packet).buffer.read 0
            post.len.toNat) } :: posts) x.socket.wire)
      owned code n queue frames := by
  obtain ⟨hagree, hruns, hsettled⟩ := h
  have hm := hagree.socket ▸ hposted
  obtain ⟨hruns', hsame, hbuffer⟩ := hruns.withWrites
    ({ post with
      transmitted := some ((packet x.pools post.packet).buffer.read 0
        post.len.toNat) } :: posts) x.socket.wire (by rw [hm]; simp) (by
      intro new hnew
      rw [hm]
      rcases List.mem_cons.mp hnew with rfl | hnew
      · exact ⟨post, List.mem_cons_self, rfl⟩
      · exact ⟨new, List.mem_cons_of_mem _ hnew, rfl⟩)
  have hm' := hsame.trans hm
  have hread := hbuffer post (by rw [hm]; simp)
  rw [← hagree.packets _ (hsub _ (hsettled.mem_of_posted hm'))] at hread
  refine ⟨hagree.withWrites _ _, hruns', ?_⟩
  rw [← hread, hagree.socket, ← hruns.wire]
  exact hsettled.transmit hm'

/-- The outstanding write ends. -/
theorem ends (h : Leads x owned code n queue frames) {post : WsaSend P}
    {posts : List (WsaSend P)} {bytes : List UInt8}
    (hposted : x.socket.posted = post :: posts)
    (hbytes : post.transmitted = some bytes) :
    Leads (x.withWrites posts (x.socket.wire ++ bytes)) owned code (n + 1)
      queue frames := by
  obtain ⟨hagree, hruns, hsettled⟩ := h
  have hm := hagree.socket ▸ hposted
  obtain ⟨hruns', hsame, -⟩ := hruns.withWrites posts
    (x.socket.wire ++ bytes) (by rw [hm]; simp) (by
      intro old hold
      rw [hm]
      exact ⟨old, List.mem_cons_of_mem _ hold, rfl⟩)
  refine ⟨hagree.withWrites _ _, hruns', ?_⟩
  rw [hagree.socket, ← hruns.wire]
  exact hsettled.ends (hsame.trans hm) hbytes

/-- What is on the wire is whole frames, the first ones. -/
theorem wire (h : Leads x owned code n queue frames) :
    ∃ sent, sent <+: frames ∧ x.socket.wire = sent.flatMap Frame.bytes := by
  obtain ⟨hagree, hruns, hsettled⟩ := h
  rw [hagree.socket, ← hruns.wire]
  exact hsettled.wire

theorem isLocal (h : Leads x owned code n queue frames) :
    ∀ a ∈ code, a.isLocal = true := by
  obtain ⟨-, hruns, -⟩ := h
  exact hruns.isLocal

/-- One statement of the section. -/
theorem exec [LawfulPacketPools H P] {a : SendStmt P}
    (h : Leads x owned (a :: code) n queue frames) :
    a.isLocal = true ∧ (∀ p ∈ a.touches x.socket, p ∈ owned) ∧
      ∃ x' pushed, a.exec true x = some (x', pushed) ∧
        Leads x' owned (pushed ++ code) n queue frames := by
  obtain ⟨hagree, hruns, hsettled⟩ := h
  obtain ⟨m₁, pushed, hwithin, hexec, hrest⟩ := hruns.exists_step
  obtain ⟨hwithin', x', hexec', hagree'⟩ := hagree.exec hwithin hexec
  exact ⟨hwithin.isLocal, hwithin'.touches, x', pushed, hexec', hagree', hrest,
    hsettled⟩

end Leads

/-- What holds before the rest `code` of a section: the socket owns the packets of
`owned`, and with the section done it carries `frames`. -/
inductive SendStage (x : SendMemory H P) (n : ℕ) :
    List P → List (SendStmt P) → List Frame → Prop
  /-- no statement has been executed, or none is left -/
  | outside {queue : List P} {code : List (SendStmt P)} {frames : List Frame}
      (hcode : code = [] ∨ Begins code)
      (hsettled : SendSettled x.pools x.socket n queue frames) :
      SendStage x n queue code frames
  /-- `Send` is about to call `AllocPacket` -/
  | allocating {queue : List P} {frames : List Frame} {inData : Region UInt8}
      {inLen : UInt32} {inImmediateSend : Bool}
      (hsettled : SendSettled x.pools x.socket n queue frames)
      (hcoalesces : coalesces x.pools x.socket inLen inImmediateSend = false) :
      SendStage x n queue [.alloc inData inLen inImmediateSend]
        (frames ++ [Frame.ofData inData inLen inImmediateSend])
  /-- `Send` has chosen the packet -/
  | sending {queue : List P} {code : List (SendStmt P)} {frames : List Frame}
      (hleads : Leads x queue code n queue frames) :
      SendStage x n queue code frames
  /-- `OnWriteCallback` has found a packet, which it frees at the end -/
  | handling {queue : List P} {temp : P} {code : List (SendStmt P)}
      {frames : List Frame} {k : ℕ} (hn : n = k + 1)
      (hnodup : (temp :: queue).Nodup) (hcode : code ≠ [])
      (hleads : Leads x (temp :: queue) code k queue frames) :
      SendStage x n (temp :: queue) (code ++ [.free temp]) frames
  /-- `OnWriteCallback` is about to call `FreePacket` -/
  | freeing {queue : List P} {temp : P} {frames : List Frame}
      (hnodup : (temp :: queue).Nodup)
      (hsettled : SendSettled x.pools x.socket n queue frames) :
      SendStage x n (temp :: queue) [.free temp] frames

namespace SendStage

variable {x x' : SendMemory H P} {n : ℕ} {owned : List P}
  {code : List (SendStmt P)} {frames : List Frame}

/-- Where nothing is left of a section the socket is settled. -/
theorem settled (hstage : SendStage x n owned [] frames) :
    SendSettled x.pools x.socket n owned frames := by
  generalize hnil : ([] : List (SendStmt P)) = code at hstage
  cases hstage with
  | outside _ hsettled => exact hsettled
  | sending hleads =>
      subst hnil
      exact hleads.settled fun _ hp => hp
  | allocating | freeing => cases hnil
  | handling => simp at hnil

/-- A section may begin where the last one has ended. -/
theorem begins (hstage : SendStage x n owned [] frames) (hbegins : Begins code) :
    SendStage x n owned code frames :=
  SendStage.outside (Or.inr hbegins) hstage.settled

/-- Others leave the packets of the socket alone. -/
theorem congr (hstage : SendStage x n owned code frames)
    (hsocket : x'.socket = x.socket)
    (hsame : ∀ p ∈ owned, packet x'.pools p = packet x.pools p) :
    SendStage x' n owned code frames := by
  cases hstage with
  | outside hcode hsettled =>
      exact SendStage.outside hcode (hsocket ▸ hsettled.congr hsame)
  | allocating hsettled hcoalesces =>
      refine SendStage.allocating (hsocket ▸ hsettled.congr hsame) ?_
      rw [← hcoalesces, hsocket]
      apply coalesces_congr
      exact fun last hlast => hsame last (hsettled.shape.last_mem hlast)
  | sending hleads => exact SendStage.sending (hleads.congr hsocket hsame)
  | handling hn hnodup hcode hleads =>
      exact SendStage.handling hn hnodup hcode (hleads.congr hsocket hsame)
  | freeing hnodup hsettled =>
      refine SendStage.freeing hnodup (hsocket ▸ hsettled.congr fun p hp => ?_)
      exact hsame p (List.mem_cons_of_mem _ hp)

/-- The system takes the bytes of the outstanding write. -/
theorem transmit (hstage : SendStage x n owned code frames) {post : WsaSend P}
    {posts : List (WsaSend P)} (hposted : x.socket.posted = post :: posts) :
    SendStage
      (x.withWrites
        ({ post with
          transmitted := some ((packet x.pools post.packet).buffer.read 0
            post.len.toNat) } :: posts) x.socket.wire)
      n owned code frames := by
  cases hstage with
  | outside hcode hsettled =>
      exact SendStage.outside hcode (hsettled.transmit hposted)
  | allocating hsettled hcoalesces =>
      exact SendStage.allocating (hsettled.transmit hposted) hcoalesces
  | sending hleads =>
      exact SendStage.sending (hleads.transmit (fun _ hp => hp) hposted)
  | handling hn hnodup hcode hleads =>
      refine SendStage.handling hn hnodup hcode (hleads.transmit ?_ hposted)
      exact fun _ hp => List.mem_cons_of_mem _ hp
  | freeing hnodup hsettled =>
      exact SendStage.freeing hnodup (hsettled.transmit hposted)

/-- The outstanding write ends. -/
theorem ends (hstage : SendStage x n owned code frames) {post : WsaSend P}
    {posts : List (WsaSend P)} {bytes : List UInt8}
    (hposted : x.socket.posted = post :: posts)
    (hbytes : post.transmitted = some bytes) :
    SendStage (x.withWrites posts (x.socket.wire ++ bytes)) (n + 1) owned code
      frames := by
  cases hstage with
  | outside hcode hsettled =>
      exact SendStage.outside hcode (hsettled.ends hposted hbytes)
  | allocating hsettled hcoalesces =>
      exact SendStage.allocating (hsettled.ends hposted hbytes) hcoalesces
  | sending hleads => exact SendStage.sending (hleads.ends hposted hbytes)
  | handling hn hnodup hcode hleads =>
      exact SendStage.handling (congrArg (· + 1) hn) hnodup hcode
        (hleads.ends hposted hbytes)
  | freeing hnodup hsettled =>
      exact SendStage.freeing hnodup (hsettled.ends hposted hbytes)

theorem wire (hstage : SendStage x n owned code frames) :
    ∃ sent, sent <+: frames ∧ x.socket.wire = sent.flatMap Frame.bytes := by
  cases hstage with
  | outside _ hsettled | freeing _ hsettled => exact hsettled.wire
  | allocating hsettled =>
      obtain ⟨sent, hsent, hwire⟩ := hsettled.wire
      exact ⟨sent, hsent.trans (List.prefix_append _ _), hwire⟩
  | sending hleads | handling _ _ _ hleads => exact hleads.wire

/-- Each packet is owned once. -/
theorem nodup (hstage : SendStage x n owned code frames) : owned.Nodup := by
  cases hstage with
  | outside _ hsettled | allocating hsettled => exact hsettled.shape.nodup
  | sending hleads =>
      obtain ⟨-, -, hsettled⟩ := hleads
      exact hsettled.shape.nodup
  | handling _ hnodup | freeing hnodup => exact hnodup

/-- A completion has a packet of its own. -/
theorem count (hstage : SendStage x n owned code frames) :
    n + (onlyFrees code).toNat ≤ owned.length := by
  cases hstage with
  | outside hcode hsettled =>
      have hnone : onlyFrees code = false := by
        rcases hcode with rfl | ⟨_, _, _⟩ | _ <;> rfl
      rw [hnone]
      exact hsettled.n_le_length
  | allocating hsettled => exact hsettled.n_le_length
  | sending hleads =>
      rw [onlyFrees_eq_false hleads.isLocal]
      obtain ⟨-, -, hsettled⟩ := hleads
      exact hsettled.n_le_length
  | handling hn _ hcode hleads =>
      rw [onlyFrees_append_free hcode, hn]
      obtain ⟨-, -, hsettled⟩ := hleads
      exact Nat.succ_le_succ hsettled.n_le_length
  | freeing _ hsettled => exact Nat.succ_le_succ hsettled.n_le_length

/-- The next statement dereferences no null pointer; only `AllocPacket` may have
nothing to give. -/
theorem exec_ne_none [LawfulPacketPools H P] {a : SendStmt P}
    {rest : List (SendStmt P)} (hstage : SendStage x n owned (a :: rest) frames)
    (hcount : (completing (a :: rest)).toNat ≤ n)
    (halloc : ∀ inData inLen inImmediateSend,
      a = .alloc inData inLen inImmediateSend →
      allocPacket x.pools inLen ≠ none) : a.exec true x ≠ none := by
  generalize hcode : a :: rest = code at hstage hcount
  cases hstage with
  | outside hbegins hsettled =>
      rcases hbegins with rfl | hbegins
      · cases hcode
      · cases hbegins with
        | send =>
            obtain ⟨rfl, -⟩ := List.cons.inj hcode
            simp [SendStmt.exec]
        | callback =>
            obtain ⟨rfl, -⟩ := List.cons.inj hcode
            have hsome : x.socket.sendingPacket ≠ none := by
              intro hnone
              rw [(hsettled.idle hnone).1] at hcount
              exact Nat.not_succ_le_zero 0 hcount
            simpa [SendStmt.exec] using hsome
  | allocating =>
      obtain ⟨rfl, -⟩ := List.cons.inj hcode
      simpa [SendStmt.exec] using halloc _ _ _ rfl
  | sending hleads =>
      subst hcode
      obtain ⟨-, -, x', pushed, hexec, -⟩ := hleads.exec
      rw [hexec]
      simp
  | handling _ _ hne hleads =>
      obtain ⟨b, code, rfl⟩ := List.exists_cons_of_ne_nil hne
      obtain ⟨rfl, -⟩ := List.cons.inj hcode
      obtain ⟨-, -, x', pushed, hexec, -⟩ := hleads.exec
      rw [hexec]
      simp
  | freeing =>
      obtain ⟨rfl, -⟩ := List.cons.inj hcode
      simp [SendStmt.exec]

/-! ### The statements of a section -/

/-- `Send` tests the last packet. -/
theorem of_testLast {inData : Region UInt8} {inLen : UInt32}
    {inImmediateSend : Bool}
    (hsettled : SendSettled x.pools x.socket n owned frames)
    (hsuits : (SendStmt.testLast inData inLen inImmediateSend).Suits x) :
    SendStage x n owned
      (if coalesces x.pools x.socket inLen inImmediateSend then
        appending inData inLen
      else [.alloc inData inLen inImmediateSend])
      (frames ++ [Frame.ofData inData inLen inImmediateSend]) := by
  by_cases hcoalesces :
      coalesces x.pools x.socket inLen inImmediateSend = true
  · obtain ⟨last, hlast, hidle, -, -, -⟩ := coalesces_iff.mp hcoalesces
    have hmem := hsettled.shape.last_mem hlast
    have hspares : ∀ post ∈ x.socket.posted, last ≠ post.packet :=
      fun post hpost heq => hsettled.shape.ne_head hmem hidle
        (heq ▸ hsettled.head_of_mem hpost)
    have hview : coalesces (PacketView.of x.pools none) x.socket inLen
        inImmediateSend = true := hcoalesces
    have hsends := (hsettled.toView none).sends
      (send_of_coalesces hview hlast inData) (by simp) (hsuits hcoalesces)
      (by simp)
    rw [Option.toList_none, List.append_nil] at hsends
    rw [if_pos hcoalesces]
    exact SendStage.sending ⟨⟨fun _ _ => rfl, rfl⟩,
      @runs_appending H P _ _ true owned _ x.socket x.live _ _ _ hlast hmem
        hspares, hsends⟩
  · rw [if_neg hcoalesces]
    exact SendStage.allocating hsettled (Bool.eq_false_iff.mpr hcoalesces)

/-- `Send` takes a packet. -/
theorem of_alloc [LawfulPacketPools H P] {inLen : UInt32}
    {inImmediateSend : Bool} {p : P} {h : H}
    (hsettled : SendSettled x.pools x.socket n owned frames)
    (hcoalesces : coalesces x.pools x.socket inLen inImmediateSend = false)
    (halloc : allocPacket x.pools inLen = some (p, h)) (hnew : p ∉ owned)
    (hroom : inLen.toNat + 4 ≤ (capacity H p).toNat) (live : List P)
    (inData : Region UInt8) :
    SendStage { x with pools := h, live := live } n (owned ++ [p])
      (filling p inData inLen inImmediateSend)
      (frames ++ [Frame.ofData inData inLen inImmediateSend]) := by
  have hview : coalesces (PacketView.of x.pools (some p)) x.socket inLen
      inImmediateSend = false := hcoalesces
  have halloc' : allocPacket (PacketView.of x.pools (some p)) inLen = some (p,
      { PacketView.of x.pools (some p) with
        packets := Function.update (packet x.pools) p
          ((packet x.pools p).release (capacity H p)) }) := rfl
  obtain ⟨call, hsend, hallocated⟩ :=
    exists_send_of_alloc (hsettled.toView (some p)).shape hview halloc' inData
  have hsends := (hsettled.toView (some p)).sends hsend ?_
    (lt_of_le_of_lt hroom (UInt32.toNat_lt _)) ?_
  · rw [hallocated] at hsends
    refine SendStage.sending ⟨⟨?_, rfl⟩, @runs_filling H P _ _ true (owned ++ [p])
      _ x.socket live _ _ _ _ _ _ hview halloc' hsend ?_ ?_ ?_ ?_, hsends⟩
    · intro q _
      change packet h q = Function.update (packet x.pools) p
        ((packet x.pools p).release (capacity H p)) q
      rw [LawfulPacketPools.packet_alloc halloc, Function.update_apply]
    · simp
    · rintro post hpost rfl
      exact hnew (List.mem_of_mem_head? (hsettled.head_of_mem hpost))
    · intro last hlast
      exact List.mem_append_left _ (hsettled.shape.last_mem hlast)
    · exact fun hnone => (hsettled.idle hnone).2
  · simpa [hallocated] using hnew
  · intro q hq
    rw [hallocated] at hq
    obtain rfl := Option.some.inj hq
    exact hroom

/-- `OnWriteCallback` finds the first packet. -/
theorem of_takeSending (hsettled : SendSettled x.pools x.socket 1 owned frames)
    {temp : P} (htemp : x.socket.sendingPacket = some temp) :
    SendStage x 1 owned [.testNext, .free temp] frames := by
  have hview := hsettled.toView none
  obtain ⟨rest, rfl⟩ := hsettled.shape.eq_cons htemp
  have hcall : ∃ call, onWriteCallback true (PacketView.of x.pools none)
      x.socket = some call := by
    rw [onWriteCallback, htemp]
    exact ⟨_, rfl⟩
  obtain ⟨call, hcall⟩ := hcall
  obtain ⟨-, hhandled⟩ := hview.handles hcall
  have hnext : ∀ next ∈ (packet (PacketView.of x.pools none) temp).next,
      next ∈ temp :: rest := by
    intro next hnext
    have hhead := (hview.shape.next_of_head htemp hnext).1
    exact List.mem_cons_of_mem _ (List.mem_of_mem_head? hhead)
  have hidle : x.socket.posted = [] := by
    cases hposted : x.socket.posted with
    | nil => rfl
    | cons post posts => exact absurd (hsettled.posted hposted).1 Nat.one_ne_zero
  change SendStage x 1 (temp :: rest) ([.testNext] ++ [.free temp]) frames
  exact SendStage.handling rfl hsettled.shape.nodup (by simp)
    ⟨⟨fun _ _ => rfl, rfl⟩, @runs_testNext H P _ _ true (temp :: rest) _ x.socket
      x.live _ _ htemp hcall List.mem_cons_self hnext hidle, hhandled⟩

end SendStage

/-- What a statement does to the packets of others, and to what the socket
owns. -/
structure Moves (x x' : SendMemory H P) (owned owned' : List P) : Prop where
  packets : ∀ q, q ∉ owned → q ∉ owned' →
    packet x'.pools q = packet x.pools q
  fresh : ∀ p ∈ owned', p ∈ owned ∨ p ∉ x.live
  live : ∀ p ∈ owned', p ∈ x'.live
  kept : ∀ p ∈ x.live, p ∉ owned → p ∈ x'.live

namespace SendStage

variable {x x' : SendMemory H P} {n n' : ℕ} {owned : List P}
  {a : SendStmt P} {pushed rest : List (SendStmt P)} {frames : List Frame}

theorem moves_of_local [LawfulPacketPools H P] (hlocal : a.isLocal = true)
    (htouches : ∀ p ∈ a.touches x.socket, p ∈ owned)
    (hlive : ∀ p ∈ owned, p ∈ x.live)
    (hexec : a.exec true x = some (x', pushed)) : Moves x x' owned owned := by
  obtain ⟨hsame, -, hframe⟩ := exec_frame hlocal hexec
  refine ⟨fun q hq _ => hframe q fun hmem => hq (htouches q hmem), ?_, ?_, ?_⟩
  · exact fun p hp => Or.inl hp
  · exact fun p hp => hsame ▸ hlive p hp
  · exact fun p hp _ => hsame ▸ hp

omit [DecidableEq P] in
theorem moves_of_eq (hpools : x'.pools = x.pools) (hsame : x'.live = x.live)
    (hlive : ∀ p ∈ owned, p ∈ x.live) : Moves x x' owned owned := by
  refine ⟨fun _ _ _ => by rw [hpools], fun _ hp => Or.inl hp, ?_, ?_⟩
  · exact fun p hp => hsame ▸ hlive p hp
  · exact fun p hp _ => hsame ▸ hp

theorem moves_alloc [LawfulPacketPools H P] {inLen : UInt32} {p : P} {h : H}
    (halloc : allocPacket x.pools inLen = some (p, h)) (hfresh : p ∉ x.live)
    (hlive : ∀ p ∈ owned, p ∈ x.live) :
    Moves x { x with pools := h, live := x.live ++ [p] } owned
      (owned ++ [p]) := by
  refine ⟨?_, ?_, ?_, fun q hq _ => List.mem_append_left _ hq⟩
  · intro q _ hq
    rw [LawfulPacketPools.packet_alloc halloc, if_neg]
    rintro rfl
    exact hq (by simp)
  · intro q hq
    rcases List.mem_append.mp hq with hq | hq
    · exact Or.inl hq
    · exact Or.inr (List.mem_singleton.mp hq ▸ hfresh)
  · intro q hq
    exact List.mem_append.mpr ((List.mem_append.mp hq).imp_left (hlive q))

theorem moves_free [LawfulPacketPools H P] {queue : List P} {temp : P}
    (hnodup : (temp :: queue).Nodup)
    (hlive : ∀ p ∈ temp :: queue, p ∈ x.live) :
    Moves x
      { x with pools := freePacket x.pools temp, live := x.live.erase temp }
      (temp :: queue) queue := by
  have hnotin := (List.nodup_cons.mp hnodup).1
  refine ⟨?_, fun p hp => Or.inl (List.mem_cons_of_mem _ hp), ?_, ?_⟩
  · intro q hq _
    apply LawfulPacketPools.packet_free
    rintro rfl
    exact hq List.mem_cons_self
  · intro p hp
    have hne : p ≠ temp := fun heq => hnotin (heq ▸ hp)
    exact (List.mem_erase_of_ne hne).mpr (hlive p (List.mem_cons_of_mem _ hp))
  · intro p hp hq
    have hne : p ≠ temp := fun heq => hq (heq ▸ List.mem_cons_self)
    exact (List.mem_erase_of_ne hne).mpr hp

omit [PacketPools H P] [DecidableEq P] in
theorem takes_of_local (hlocal : a.isLocal = true) : a.takes = none := by
  cases a <;> first | rfl | cases hlocal

omit [PacketPools H P] [DecidableEq P] in
theorem isAlloc_of_local (hlocal : a.isLocal = true) : a.isAlloc = false := by
  cases a <;> first | rfl | cases hlocal

omit [PacketPools H P] [DecidableEq P] in
theorem takes_of_free (p : P) : (SendStmt.free p).takes = none := rfl

/-- What a statement of a section does to the packets that are owned and to
those among them that a completion is due for. -/
structure Balances (owned owned' : List P) (a : SendStmt P)
    (rest code : List (SendStmt P)) : Prop where
  count : owned'.length + ((completing (a :: rest)).toNat +
      (onlyFrees (a :: rest)).toNat) =
    owned.length + ((completing code).toNat + (onlyFrees code).toNat) +
      a.isAlloc.toNat

/-- Completions are counted before and after a statement: that of a section is
used up once its packet is off the queue. -/
def UsesUp (n n' : ℕ) (a : SendStmt P) (pushed rest : List (SendStmt P)) : Prop :=
  n' + (completing (a :: rest)).toNat = n + (completing (pushed ++ rest)).toNat

/-- A statement of a section leads from `x` to `x'`, and to the code `pushed` before
the rest of the section. -/
def Advances (x x' : SendMemory H P) (n' : ℕ) (owned : List P) (a : SendStmt P)
    (pushed rest : List (SendStmt P)) (frames : List Frame) : Prop :=
  ∃ owned', Moves x x' owned owned' ∧
    Balances owned owned' a rest (pushed ++ rest) ∧
    SendStage x' n' owned' (pushed ++ rest) (frames ++ a.takes.toList)

omit [PacketPools H P] [DecidableEq P] in
/-- A `Send` has no completion. -/
theorem completing_tested (appends : Bool) (inData : Region UInt8)
    (inLen : UInt32) (inImmediateSend : Bool) :
    let code : List (SendStmt P) := if appends = true then
      appending inData inLen else [.alloc inData inLen inImmediateSend]
    completing code = false ∧ onlyFrees code = false := by
  cases appends with
  | false => exact ⟨rfl, rfl⟩
  | true => exact ⟨rfl, rfl⟩

/-- `Send` tests the last packet. -/
theorem advances_testLast {inData : Region UInt8} {inLen : UInt32}
    {inImmediateSend : Bool}
    (hsettled : SendSettled x.pools x.socket n owned frames)
    (hlive : ∀ p ∈ owned, p ∈ x.live)
    (hsuits : (SendStmt.testLast inData inLen inImmediateSend).Suits x)
    (hexec : (SendStmt.testLast inData inLen inImmediateSend).exec true x =
      some (x', pushed))
    (hn : UsesUp n n' (.testLast inData inLen inImmediateSend) pushed []) :
    Advances x x' n' owned (.testLast inData inLen inImmediateSend) pushed []
      frames := by
  obtain ⟨rfl, rfl⟩ := Prod.mk.inj (Option.some.inj hexec)
  refine ⟨owned, moves_of_eq rfl rfl hlive, ?_⟩
  rw [UsesUp, List.append_nil] at hn
  rw [List.append_nil]
  obtain ⟨hcompleting, hfreeing⟩ := @completing_tested P
    (coalesces x.pools x.socket inLen inImmediateSend) inData inLen
    inImmediateSend
  rw [hcompleting] at hn
  obtain rfl : n' = n := Nat.add_right_cancel hn
  refine ⟨⟨?_⟩, of_testLast hsettled hsuits⟩
  rw [hcompleting, hfreeing]
  rfl

/-- `Send` calls `AllocPacket`. -/
theorem advances_alloc [LawfulPacketPools H P] {inData : Region UInt8}
    {inLen : UInt32} {inImmediateSend : Bool}
    (hsettled : SendSettled x.pools x.socket n owned frames)
    (hcoalesces : coalesces x.pools x.socket inLen inImmediateSend = false)
    (hlive : ∀ p ∈ owned, p ∈ x.live)
    (hsuits : (SendStmt.alloc inData inLen inImmediateSend).Suits x)
    (hexec : (SendStmt.alloc inData inLen inImmediateSend).exec true x =
      some (x', pushed))
    (hn : UsesUp n n' (.alloc inData inLen inImmediateSend) pushed []) :
    Advances x x' n' owned (.alloc inData inLen inImmediateSend) pushed []
      (frames ++ [Frame.ofData inData inLen inImmediateSend]) := by
  obtain ⟨⟨p, h⟩, halloc, heq⟩ := Option.map_eq_some_iff.mp hexec
  obtain ⟨rfl, rfl⟩ := Prod.mk.inj heq
  obtain ⟨hfresh, hroom⟩ := hsuits p (by rw [halloc]; rfl)
  obtain rfl : n' = n := Nat.add_right_cancel hn
  refine ⟨owned ++ [p], moves_alloc halloc hfresh hlive,
    ⟨List.length_append⟩, ?_⟩
  have hnext := of_alloc hsettled hcoalesces halloc
    (fun hp => hfresh (hlive p hp)) hroom (x.live ++ [p]) inData
  simpa [takes] using hnext

/-- A statement of `Send` after it has chosen its packet. -/
theorem advances_leads [LawfulPacketPools H P]
    (hleads : Leads x owned (a :: rest) n owned frames)
    (hlive : ∀ p ∈ owned, p ∈ x.live)
    (hexec : a.exec true x = some (x', pushed))
    (hn : UsesUp n n' a pushed rest) :
    Advances x x' n' owned a pushed rest frames := by
  obtain ⟨hlocal, htouches, x₁, pushed₁, hexec₁, hleads'⟩ := hleads.exec
  obtain ⟨rfl, rfl⟩ :=
    Prod.mk.inj (Option.some.inj (hexec₁.symm.trans hexec))
  rw [UsesUp, completing_eq_false hleads.isLocal,
    completing_eq_false hleads'.isLocal] at hn
  obtain rfl : n' = n := Nat.add_right_cancel hn
  refine ⟨owned, moves_of_local hlocal htouches hlive hexec, ⟨?_⟩, ?_⟩
  · rw [completing_eq_false hleads.isLocal, onlyFrees_eq_false hleads.isLocal,
      completing_eq_false hleads'.isLocal,
      onlyFrees_eq_false hleads'.isLocal, isAlloc_of_local hlocal]
    rfl
  · rw [takes_of_local hlocal, Option.toList_none, List.append_nil]
    exact SendStage.sending hleads'

/-- `OnWriteCallback` reads the packet that was sent. -/
theorem advances_takeSending
    (hsettled : SendSettled x.pools x.socket n owned frames)
    (hlive : ∀ p ∈ owned, p ∈ x.live)
    (hexec : SendStmt.takeSending.exec true x = some (x', pushed))
    (hn : UsesUp n n' .takeSending pushed []) (hcount : 1 ≤ n) :
    Advances x x' n' owned .takeSending pushed [] frames := by
  obtain ⟨temp, htemp, heq⟩ := Option.map_eq_some_iff.mp hexec
  obtain ⟨rfl, rfl⟩ := Prod.mk.inj heq
  obtain rfl : n' = n := Nat.add_right_cancel hn
  obtain rfl : n' = 1 := Nat.le_antisymm hsettled.n_le_one hcount
  refine ⟨owned, moves_of_eq rfl rfl hlive, ⟨rfl⟩, ?_⟩
  have hnext := of_takeSending hsettled htemp
  simpa [takes] using hnext

/-- A statement of `OnWriteCallback` before `FreePacket`: the packet is off the
queue once the code before `FreePacket` is done. -/
theorem advances_handling [LawfulPacketPools H P] {queue : List P} {temp : P}
    {code : List (SendStmt P)} {k : ℕ} (hk : n = k + 1)
    (hnodup : (temp :: queue).Nodup)
    (hleads : Leads x (temp :: queue) (a :: code) k queue frames)
    (hlive : ∀ p ∈ temp :: queue, p ∈ x.live)
    (hexec : a.exec true x = some (x', pushed))
    (hn : UsesUp n n' a pushed (code ++ [.free temp])) :
    Advances x x' n' (temp :: queue) a pushed (code ++ [.free temp]) frames := by
  obtain ⟨hlocal, htouches, x₁, pushed₁, hexec₁, hleads'⟩ := hleads.exec
  obtain ⟨rfl, rfl⟩ :=
    Prod.mk.inj (Option.some.inj (hexec₁.symm.trans hexec))
  have hne : a :: code ≠ [] := List.cons_ne_nil a code
  have hbefore : completing (a :: (code ++ [.free temp])) = true ∧
      onlyFrees (a :: (code ++ [.free temp])) = false :=
    ⟨completing_append_free hne temp, onlyFrees_append_free hne temp⟩
  rw [UsesUp, hbefore.1, ← List.append_assoc] at hn
  refine ⟨_, moves_of_local hlocal htouches hlive hexec, ?_⟩
  rw [takes_of_local hlocal, Option.toList_none, List.append_nil,
    ← List.append_assoc]
  by_cases hdone : pushed₁ ++ code = []
  · rw [hdone] at hleads' hn ⊢
    have hnow : n' + 1 = n := hn
    obtain rfl : n' = k := Nat.add_right_cancel (hnow.trans hk)
    refine ⟨⟨?_⟩, SendStage.freeing hnodup (hleads'.settled fun _ hp =>
      List.mem_cons_of_mem _ hp)⟩
    rw [hbefore.1, hbefore.2, isAlloc_of_local hlocal]
    rfl
  · rw [completing_append_free hdone] at hn
    obtain rfl : n' = n := Nat.add_right_cancel hn
    refine ⟨⟨?_⟩, SendStage.handling hk hnodup hdone hleads'⟩
    rw [hbefore.1, hbefore.2, completing_append_free hdone,
      onlyFrees_append_free hdone, isAlloc_of_local hlocal]
    rfl

/-- `OnWriteCallback` calls `FreePacket`. -/
theorem advances_free [LawfulPacketPools H P] {queue : List P} {temp : P}
    (hnodup : (temp :: queue).Nodup)
    (hsettled : SendSettled x.pools x.socket n queue frames)
    (hlive : ∀ p ∈ temp :: queue, p ∈ x.live)
    (hexec : (SendStmt.free temp).exec true x = some (x', pushed))
    (hn : UsesUp n n' (.free temp) pushed []) :
    Advances x x' n' (temp :: queue) (.free temp) pushed [] frames := by
  obtain ⟨rfl, rfl⟩ := Prod.mk.inj (Option.some.inj hexec)
  obtain rfl : n' = n := Nat.add_right_cancel hn
  refine ⟨queue, moves_free hnodup hlive, ⟨rfl⟩, ?_⟩
  have hsame : ∀ p ∈ queue,
      packet (freePacket x.pools temp) p = packet x.pools p := by
    intro p hp
    apply LawfulPacketPools.packet_free
    rintro rfl
    exact (List.nodup_cons.mp hnodup).1 hp
  rw [takes_of_free, Option.toList_none, List.append_nil frames]
  exact SendStage.outside (Or.inl rfl) (hsettled.congr hsame)

/-- One statement of a section: its completion is handled once the packet is off
the queue. -/
theorem exec [LawfulPacketPools H P]
    (hstage : SendStage x n owned (a :: rest) frames)
    (hlive : ∀ p ∈ owned, p ∈ x.live) (hsuits : a.Suits x)
    (hexec : a.exec true x = some (x', pushed))
    (hn : UsesUp n n' a pushed rest)
    (hcount : (completing (a :: rest)).toNat ≤ n) :
    Advances x x' n' owned a pushed rest frames := by
  generalize hcode : a :: rest = code at hstage
  cases hstage with
  | outside hbegins hsettled =>
      rcases hbegins with rfl | hbegins
      · cases hcode
      · cases hbegins with
        | send inData inLen inImmediateSend =>
            obtain ⟨rfl, rfl⟩ := List.cons.inj hcode
            exact advances_testLast hsettled hlive hsuits hexec hn
        | callback =>
            obtain ⟨rfl, rfl⟩ := List.cons.inj hcode
            exact advances_takeSending hsettled hlive hexec hn hcount
  | allocating hsettled hcoalesces =>
      obtain ⟨rfl, rfl⟩ := List.cons.inj hcode
      exact advances_alloc hsettled hcoalesces hlive hsuits hexec hn
  | sending hleads =>
      subst hcode
      exact advances_leads hleads hlive hexec hn
  | handling hk hnodup hne hleads =>
      obtain ⟨b, code, rfl⟩ := List.exists_cons_of_ne_nil hne
      obtain ⟨rfl, rfl⟩ := List.cons.inj hcode
      exact advances_handling hk hnodup hleads hlive hexec hn
  | freeing hnodup hsettled =>
      obtain ⟨rfl, rfl⟩ := List.cons.inj hcode
      exact advances_free hnodup hsettled hlive hexec hn

end SendStage

end

end DokeviNet
