import DokeviNetwork.Packet.PacketSelector
import DokeviNetwork.SendQueue.Shape
import DokeviNetwork.Support.Run

/-!
# Whether the send path stays inside the packet buffers

`AllocPacket` picks a packet by the payload length while `Send` stores four bytes
more, and the sums and differences of lengths are unchecked 32-bit ones.  This
module says which lengths keep every queued packet's sizes consistent and every store
inside its buffer.
-/

namespace DokeviNet

open PacketPools Linked LabelledRun

/-! ## The sizes of one packet -/

/-- What a packet of `SIZE` bytes has used and what it has left add up. -/
structure PacketInterface.Sized {P : Type*} (packet : PacketInterface P)
    (SIZE : UInt32) : Prop where
  max : packet.maxSize = SIZE
  sum : packet.size.toNat + packet.remainSize.toNat = SIZE.toNat

theorem totalPacketSize_toNat {inLen : UInt32}
    (hwrap : inLen.toNat + 4 < 2 ^ 32) :
    (totalPacketSize inLen).toNat = inLen.toNat + 4 := by
  rw [totalPacketSize, UInt32.toNat_add]
  exact Nat.mod_eq_of_lt hwrap

namespace PacketInterface

variable {P : Type*} {packet : PacketInterface P} {SIZE inLen : UInt32}
  {inData : Region UInt8} {inImmediateSend : Bool}

theorem Sized.append_size (h : packet.Sized SIZE)
    (hroom : totalPacketSize inLen ≤ packet.remainSize) :
    (packet.append inData inLen).size.toNat =
      packet.size.toNat + (totalPacketSize inLen).toNat := by
  have hsum := h.sum
  have hle := UInt32.le_iff_toNat_le.mp hroom
  have hlt := SIZE.toNat_lt
  simp only [append, UInt32.toNat_add]
  exact Nat.mod_eq_of_lt (by omega)

theorem Sized.append (h : packet.Sized SIZE)
    (hroom : totalPacketSize inLen ≤ packet.remainSize) :
    (packet.append inData inLen).Sized SIZE where
  max := h.max
  sum := by
    have hsum := h.sum
    have hle := UInt32.le_iff_toNat_le.mp hroom
    have hremain : (packet.append inData inLen).remainSize.toNat =
        packet.remainSize.toNat - (totalPacketSize inLen).toNat :=
      UInt32.toNat_sub_of_le _ _ hroom
    rw [h.append_size hroom, hremain]
    omega

/-- A frame that the packet has room for ends within its buffer. -/
theorem Sized.append_inside (h : packet.Sized SIZE)
    (hwrap : inLen.toNat + 4 < 2 ^ 32)
    (hroom : totalPacketSize inLen ≤ packet.remainSize) :
    packet.size.toNat + 4 + inLen.toNat ≤ SIZE.toNat := by
  have hsum := h.sum
  have hle := UInt32.le_iff_toNat_le.mp hroom
  rw [totalPacketSize_toNat hwrap] at hle
  omega

theorem sized_fresh (packet : PacketInterface P)
    (hroom : inLen.toNat + 4 ≤ SIZE.toNat) :
    (packet.fresh SIZE inData inLen inImmediateSend).Sized SIZE where
  max := rfl
  sum := by
    have htotal := totalPacketSize_toNat
      (lt_of_le_of_lt hroom SIZE.toNat_lt)
    have hle : totalPacketSize inLen ≤ SIZE := by
      rw [UInt32.le_iff_toNat_le, htotal]
      exact hroom
    rw [fresh_size, fresh_remainSize, UInt32.toNat_sub_of_le _ _ hle, htotal]
    omega

theorem Sized.markSending (h : packet.Sized SIZE) :
    packet.markSending.Sized SIZE := ⟨h.max, h.sum⟩

theorem Sized.linkTo (h : packet.Sized SIZE) (p : P) :
    (packet.linkTo p).Sized SIZE := ⟨h.max, h.sum⟩

end PacketInterface

/-! ## Any calls, accepted or not -/

/-- A call on the send queue of a socket, with the outcome of the `WSASend` it
may make. -/
inductive CallEvent (ι : Type*)
  | send (accepted : Bool) (s : ι) (inData : Region UInt8) (inLen : UInt32)
      (inImmediateSend : Bool)
  | onWriteCallback (accepted : Bool) (s : ι)

namespace SendSystem

variable {H P ι : Type*} [PacketPools H P] [DecidableEq P] [DecidableEq ι]

/-- One call.  A `Send` that `AllocPacket` rejects counts as no step. -/
def call (w : SendSystem H P ι) : CallEvent ι → Option (SendSystem H P ι)
  | .send accepted s inData inLen inImmediateSend =>
    some ((w.send accepted s inData inLen inImmediateSend).getD w)
  | .onWriteCallback accepted s => w.onWriteCallback accepted s

/-- Any packet allocated is fresh and the lengths leave room. -/
def CallSuits (w : SendSystem H P ι) : CallEvent ι → Prop
  | .send _ s _ inLen inImmediateSend =>
    w.SendsFresh s inLen inImmediateSend ∧ w.SendRoom s inLen inImmediateSend
  | .onWriteCallback _ _ => True

/-- The lengths leave room. -/
def CallRoom (w : SendSystem H P ι) : CallEvent ι → Prop
  | .send _ s _ inLen inImmediateSend => w.SendRoom s inLen inImmediateSend
  | .onWriteCallback _ _ => True

/-- Every store of the call lies inside the buffer it is meant for. -/
def WritesInside (w : SendSystem H P ι) : CallEvent ι → Prop
  | .send accepted s inData inLen inImmediateSend =>
    ∀ call ∈ DokeviNet.send accepted w.pools (w.sockets s) inData inLen
        inImmediateSend,
      ∀ x ∈ call.writes,
        Region.InBounds (capacity H x.packet).toNat x.offset x.length
  | .onWriteCallback _ _ => True

instance decidableCallSuits (w : SendSystem H P ι) :
    ∀ e, Decidable (w.CallSuits e)
  | .send _ _ _ _ _ => inferInstanceAs (Decidable (_ ∧ _))
  | .onWriteCallback _ _ => isTrue trivial

instance decidableWritesInside (w : SendSystem H P ι) :
    ∀ e, Decidable (w.WritesInside e)
  | .send accepted s inData inLen inImmediateSend =>
    inferInstanceAs (Decidable (∀ call ∈ DokeviNet.send accepted w.pools
      (w.sockets s) inData inLen inImmediateSend, ∀ x ∈ call.writes,
        Region.InBounds (capacity H x.packet).toNat x.offset x.length))
  | .onWriteCallback _ _ => isTrue trivial

/-- `p` is reached from `_sendingPacket` by following `_next`. -/
def OnQueue (w : SendSystem H P ι) (s : ι) (p : P) : Prop :=
  ∃ head, (w.sockets s).sendingPacket = some head ∧
    Relation.ReflTransGen (fun a b => (packet w.pools a).next = some b) head p

/-- The sizes of every queued packet are within its capacity and add up. -/
def SizesAgree (w : SendSystem H P ι) : Prop :=
  ∀ s p, w.OnQueue s p →
    (packet w.pools p).size ≤ (packet w.pools p).maxSize ∧
      (packet w.pools p).size.toNat + (packet w.pools p).remainSize.toNat =
        (packet w.pools p).maxSize.toNat

end SendSystem

/-! ## Both pointers are null together -/

section

variable {H P ι : Type*} [PacketPools H P]

/-- What even a run on aliased packets keeps of the two pointers. -/
def SendSide.PointersAgree (s : SendSide P) : Prop :=
  s.sendingPacket = none ↔ s.lastPacket = none

variable [DecidableEq P] [LawfulPacketPools H P]

theorem SendSide.PointersAgree.send {accepted : Bool} {h : H}
    {s : SendSide P} {inData : Region UInt8} {inLen : UInt32}
    {inImmediateSend : Bool} {call : SendCall H P} (hs : s.PointersAgree)
    (hcall : DokeviNet.send accepted h s inData inLen inImmediateSend =
      some call) :
    call.socket.PointersAgree := by
  cases send_effect hcall with
  | append _ _ _ _ hsocket _ _ => exact hsocket ▸ hs
  | first _ _ _ _ _ hsocket _ _ =>
      rw [hsocket]
      simp [PointersAgree, serverSend]
  | link _ _ hhead _ _ _ hsocket _ _ =>
      rw [hsocket]
      simp [PointersAgree, hhead]

omit [LawfulPacketPools H P] [DecidableEq P] in
theorem SendSide.PointersAgree.callback {accepted : Bool} {h : H}
    {s : SendSide P} {call : CallbackCall H P} (hs : s.PointersAgree)
    (hcall : onWriteCallback accepted h s = some call) :
    call.socket.PointersAgree := by
  obtain ⟨temp, htemp, rfl⟩ := Option.map_eq_some_iff.mp hcall
  have hlast : s.lastPacket ≠ none := fun hnone => by
    rw [hs.mpr hnone] at htemp
    cases htemp
  split
  · simpa [PointersAgree, serverSend] using hlast
  · simp [PointersAgree]

omit [LawfulPacketPools H P] [DecidableEq P] in
/-- A `Send` goes wrong only when `AllocPacket` returns the null pointer. -/
theorem SendSide.PointersAgree.send_eq_none_iff {accepted : Bool} {h : H}
    {s : SendSide P} {inData : Region UInt8} {inLen : UInt32}
    {inImmediateSend : Bool} (hs : s.PointersAgree) :
    DokeviNet.send accepted h s inData inLen inImmediateSend = none ↔
      coalesces h s inLen inImmediateSend = false ∧
        allocPacket h inLen = none := by
  unfold DokeviNet.send
  by_cases hcoalesces : coalesces h s inLen inImmediateSend = true
  · obtain ⟨last, hlast, -⟩ := coalesces_iff.mp hcoalesces
    simp [hcoalesces, sendAppending, hlast]
  · rw [if_neg hcoalesces]
    have hcoalesces := eq_false_of_ne_true hcoalesces
    cases halloc : allocPacket h inLen with
    | none => simp [sendAllocating, halloc, hcoalesces]
    | some r =>
        cases hsending : s.sendingPacket with
        | none => simp [sendAllocating, halloc, hsending]
        | some head =>
            have hlast : s.lastPacket ≠ none := fun hnone => by
              rw [hs.mpr hnone] at hsending
              cases hsending
            obtain ⟨last, hlast⟩ := Option.ne_none_iff_exists'.mp hlast
            simp [sendAllocating, halloc, hsending, hlast]

end

/-! ## Stores and lengths -/

section

variable {H P ι : Type*} [PacketPools H P]

theorem frameWrites_inside {p : P} {pos : ℕ} {inLen : UInt32} :
    (∀ x ∈ frameWrites p pos inLen,
        Region.InBounds (capacity H x.packet).toNat x.offset x.length) ↔
      pos + 4 + inLen.toNat ≤ (capacity H p).toNat := by
  simp only [frameWrites, List.mem_cons, List.not_mem_nil, or_false,
    forall_eq_or_imp, forall_eq, Region.InBounds]
  omega

namespace SendSystem

variable {w w' : SendSystem H P ι} {queue : ι → List P}

/-- The packets of the queues `queue` have consistent sizes. -/
def QueuesSized (w : SendSystem H P ι) (queue : ι → List P) : Prop :=
  ∀ s, ∀ p ∈ queue s, (packet w.pools p).Sized (capacity H p)

theorem sizesAgree_of_sized (hshape : Shape w queue)
    (hsized : w.QueuesSized queue) : w.SizesAgree := by
  rintro s p ⟨head, hhead, hreach⟩
  have hlinked := (hshape.queues s).linked
  rw [hhead] at hlinked
  have hp := hsized s p (hlinked.mem_of_reaches hreach)
  have hsum := hp.sum
  rw [hp.max, UInt32.le_iff_toNat_le]
  exact ⟨by omega, hsum⟩

theorem Fits.room {w : SendSystem H P ι} {e : SendEvent ι}
    (h : w.Fits e) : w.Room e := by
  cases e with
  | send s inData inLen inImmediateSend =>
      rw [Fits, SendFits] at h
      rw [Room, SendRoom]
      split
      · next hcoalesces =>
        rw [if_pos hcoalesces] at h
        obtain ⟨last, hlast, -⟩ := coalesces_iff.mp hcoalesces
        exact lt_of_le_of_lt (h last hlast)
          (packet w.pools last).maxSize.toNat_lt
      · next hcoalesces =>
        rw [if_neg hcoalesces] at h
        exact h
  | transmit => trivial
  | complete => trivial

variable [DecidableEq P] [LawfulPacketPools H P]

theorem room_of_allocated {accepted : Bool} {s : ι} {inData : Region UInt8}
    {inLen : UInt32} {inImmediateSend : Bool} {call : SendCall H P}
    (hroom : w.SendRoom s inLen inImmediateSend)
    (hcall : DokeviNet.send accepted w.pools (w.sockets s) inData inLen
      inImmediateSend = some call) :
    ∀ p ∈ call.allocated, inLen.toNat + 4 ≤ (capacity H p).toNat := by
  intro p hp
  obtain ⟨hcoalesces, hget⟩ := (send_effect hcall).of_allocated hp
  rw [SendRoom, if_neg (by simp [hcoalesces])] at hroom
  exact hroom p hget

theorem wrap_of_room {accepted : Bool} {s : ι} {inData : Region UInt8}
    {inLen : UInt32} {inImmediateSend : Bool} {call : SendCall H P}
    (hroom : w.SendRoom s inLen inImmediateSend)
    (hcall : DokeviNet.send accepted w.pools (w.sockets s) inData inLen
      inImmediateSend = some call) : inLen.toNat + 4 < 2 ^ 32 := by
  have hnew := room_of_allocated hroom hcall
  have hbelow : ∀ p ∈ call.allocated, inLen.toNat + 4 < 2 ^ 32 := fun p hp =>
    lt_of_le_of_lt (hnew p hp) (capacity H p).toNat_lt
  cases send_effect hcall with
  | append _ hcoalesces _ _ _ _ _ =>
      rw [SendRoom, if_pos hcoalesces] at hroom
      exact hroom
  | first _ _ _ _ _ _ hallocated _ => exact hbelow _ hallocated
  | link _ _ _ _ _ _ _ hallocated _ => exact hbelow _ hallocated

/-- With room for the lengths, the stores stay inside. -/
theorem writesInside_of_room {e : CallEvent ι} (hshape : Shape w queue)
    (hsized : w.QueuesSized queue) (hroom : w.CallRoom e) :
    w.WritesInside e := by
  cases e with
  | onWriteCallback => trivial
  | send accepted s inData inLen inImmediateSend =>
      intro call hcall
      have hnew := room_of_allocated hroom hcall
      cases send_effect hcall with
      | @append last hlast hcoalesces _ _ _ _ hwrites =>
          obtain ⟨-, -, hremain, -⟩ :=
            (coalesces_iff_of_last hlast).mp hcoalesces
          have hmem := (hshape.queues s).last_mem hlast
          have hwrap : inLen.toNat + 4 < 2 ^ 32 := by
            rw [CallRoom, SendRoom, if_pos hcoalesces] at hroom
            exact hroom
          rw [hwrites, frameWrites_inside]
          exact (hsized s last hmem).append_inside hwrap hremain
      | first _ _ _ _ _ _ hallocated hwrites =>
          have hle := hnew _ hallocated
          rw [hwrites, frameWrites_inside]
          omega
      | link _ _ _ _ _ _ _ hallocated hwrites =>
          have hle := hnew _ hallocated
          rw [hwrites, frameWrites_inside]
          omega

/-- Stores that stay inside leave room for the lengths. -/
theorem room_of_writesInside {e : CallEvent ι}
    (hpointers : ∀ s, (w.sockets s).PointersAgree)
    (hinside : w.WritesInside e) : w.CallRoom e := by
  cases e with
  | onWriteCallback => trivial
  | send accepted s inData inLen inImmediateSend =>
      have hnone := @SendSide.PointersAgree.send_eq_none_iff H P _ accepted
        w.pools (w.sockets s) inData inLen inImmediateSend (hpointers s)
      rw [CallRoom, SendRoom]
      split
      · next hcoalesces =>
        obtain ⟨call, hcall⟩ := Option.ne_none_iff_exists'.mp
          (mt hnone.mp (by simp [hcoalesces]))
        have hwrites := hinside call hcall
        cases send_effect hcall with
        | @append last _ _ _ _ _ _ heq =>
            rw [heq, frameWrites_inside] at hwrites
            have hlt := (capacity H last).toNat_lt
            omega
        | first hno _ _ _ _ _ _ _ => simp [hcoalesces] at hno
        | link hno _ _ _ _ _ _ _ _ => simp [hcoalesces] at hno
      · next hcoalesces =>
        intro p hp
        obtain ⟨⟨p', h'⟩, halloc, hp'⟩ := Option.map_eq_some_iff.mp hp
        obtain rfl : p' = p := hp'
        obtain ⟨call, hcall⟩ := Option.ne_none_iff_exists'.mp
          (mt hnone.mp (by simp [halloc]))
        have hwrites := hinside call hcall
        cases send_effect hcall with
        | append _ hyes _ _ _ _ _ => exact absurd hyes hcoalesces
        | first _ halloc' _ _ _ _ _ heq =>
            rw [halloc, Option.some.injEq, Prod.mk.injEq] at halloc'
            rw [heq, frameWrites_inside, ← halloc'.1] at hwrites
            omega
        | link _ halloc' _ _ _ _ _ _ heq =>
            rw [halloc, Option.some.injEq, Prod.mk.injEq] at halloc'
            rw [heq, frameWrites_inside, ← halloc'.1] at hwrites
            omega

/-! ## Runs of calls -/

variable [DecidableEq ι]

theorem sized_call {e : CallEvent ι} (hshape : Shape w queue)
    (hsized : w.QueuesSized queue) (hsuits : w.CallSuits e)
    (hstep : w.call e = some w') :
    ∃ queue', Shape w' queue' ∧ w'.QueuesSized queue' := by
  cases e with
  | send accepted s inData inLen inImmediateSend =>
      obtain ⟨hfresh, hroom⟩ := hsuits
      obtain rfl := Option.some.inj hstep
      cases hsend : w.send accepted s inData inLen inImmediateSend with
      | none => exact ⟨queue, hshape, hsized⟩
      | some w' =>
          obtain ⟨call, hcall, rfl⟩ := send_eq_some hsend
          refine ⟨_, hshape.send hfresh hcall, Shape.forall_send
            (fun p v => v.Sized (capacity H p)) (fun _ _ h => h.markSending)
            (fun _ _ q h => h.linkTo q) hshape hfresh hcall hsized ?_ ?_⟩
          · exact fun last hlast hremain =>
              (hsized s last hlast).append hremain
          · intro p hp
            exact PacketInterface.sized_fresh _
              (room_of_allocated hroom hcall p hp)
  | onWriteCallback accepted s =>
      obtain ⟨call, hcall, rfl⟩ := onWriteCallback_eq_some hstep
      exact ⟨_, hshape.callback (hshape.queues s) hcall,
        Shape.forall_callback (fun p v => v.Sized (capacity H p))
          (fun _ _ h => h.markSending) hshape (hshape.queues s) hcall
          hsized⟩

theorem pointersAgree_call {e : CallEvent ι}
    (hpointers : ∀ s, (w.sockets s).PointersAgree)
    (hstep : w.call e = some w') : ∀ s, (w'.sockets s).PointersAgree := by
  have hupdate : ∀ s (sock : SendSide P), sock.PointersAgree →
      ∀ t, (Function.update w.sockets s sock t).PointersAgree := by
    intro s sock hsock t
    by_cases hts : t = s
    · subst hts
      simpa using hsock
    · simpa [hts] using hpointers t
  cases e with
  | send accepted s inData inLen inImmediateSend =>
      obtain rfl := Option.some.inj hstep
      cases hsend : w.send accepted s inData inLen inImmediateSend with
      | none => exact hpointers
      | some w' =>
          obtain ⟨call, hcall, rfl⟩ := send_eq_some hsend
          exact hupdate s call.socket ((hpointers s).send hcall)
  | onWriteCallback accepted s =>
      obtain ⟨call, hcall, rfl⟩ := onWriteCallback_eq_some hstep
      exact hupdate s call.socket ((hpointers s).callback hcall)

/-- While every new packet is fresh and every length leaves room for its header,
the queued packets' sizes agree and no store leaves its buffer; and no run
without an overflow does with less room. -/
theorem sizesAgree_of_calls {pools : H} {es : List (CallEvent ι)}
    (hrun : run call (start pools) es = some w) :
    (Along call CallSuits (start pools : SendSystem H P ι) es →
        w.SizesAgree ∧ Along call WritesInside (start pools) es) ∧
      (Along call WritesInside (start pools : SendSystem H P ι) es →
        Along call CallRoom (start pools) es) := by
  have hstart : ∃ queue, Shape (start pools : SendSystem H P ι) queue ∧
      (start pools : SendSystem H P ι).QueuesSized queue :=
    ⟨_, shape_start pools, by simp [QueuesSized]⟩
  have hkeep : ∀ (v : SendSystem H P ι) e v',
      (∃ queue, Shape v queue ∧ v.QueuesSized queue) → v.CallSuits e →
      v.call e = some v' → ∃ queue, Shape v' queue ∧ v'.QueuesSized queue := by
    rintro v e v' ⟨queue, hshape, hsized⟩ hsuits hstep
    exact sized_call hshape hsized hsuits hstep
  constructor
  · intro hsuits
    obtain ⟨queue, hshape, hsized⟩ :=
      invariant_of_along hkeep hstart hsuits hrun
    refine ⟨sizesAgree_of_sized hshape hsized, ?_⟩
    refine along_of_invariant hkeep ?_ hstart hsuits
    rintro v e ⟨queue, hshape, hsized⟩ hsuits
    refine writesInside_of_room hshape hsized ?_
    cases e with
    | send => exact hsuits.2
    | onWriteCallback => trivial
  · intro hinside
    refine along_of_invariant
      (fun v e v' hpointers _ hstep => pointersAgree_call hpointers hstep)
      (fun v e hpointers hwrites => room_of_writesInside hpointers hwrites)
      ?_ hinside
    exact fun s => ⟨fun _ => rfl, fun _ => rfl⟩

end SendSystem

end

/-- A payload of 62 bytes is put in a packet of 64: the size exceeds the
capacity, and the data ends two bytes behind the buffer. -/
theorem send_62_overflows :
    ∃ w : SendSystem PacketSelector PacketId Unit,
      run SendSystem.call (SendSystem.start PacketSelector.zeroed)
          [.send true () (Region.ofList 0 []) 62 false] = some w ∧
        ¬w.SizesAgree ∧
        ¬Along SendSystem.call SendSystem.WritesInside
          (SendSystem.start PacketSelector.zeroed :
            SendSystem PacketSelector PacketId Unit)
          [.send true () (Region.ofList 0 []) 62 false] := by
  refine ⟨_, rfl, fun hagree => ?_, by decide⟩
  have hsize := (hagree () ⟨.packet64, 0⟩ ⟨_, rfl, .refl⟩).1
  exact absurd hsize (by decide)

/-- Two sends that share a packet and a write whose completion is handled. -/
def threeSends : List (CallEvent Unit) :=
  [.send true () (Region.ofList 0 [1]) 60 false,
    .send true () (Region.ofList 0 [2]) 20 false,
    .send false () (Region.ofList 0 [3]) 30 false,
    .onWriteCallback true ()]

theorem sizesAgree_of_calls_threeSends :
    ∃ w : SendSystem PacketSelector PacketId Unit,
      run SendSystem.call (SendSystem.start PacketSelector.zeroed) threeSends =
          some w ∧
        w.SizesAgree ∧
        Along SendSystem.call SendSystem.CallRoom
          (SendSystem.start PacketSelector.zeroed) threeSends := by
  have hsuits : Along SendSystem.call SendSystem.CallSuits
      (SendSystem.start PacketSelector.zeroed) threeSends := by decide
  have hrun : run SendSystem.call
      (SendSystem.start PacketSelector.zeroed) threeSends = some _ := rfl
  have hall := SendSystem.sizesAgree_of_calls hrun
  exact ⟨_, hrun, (hall.1 hsuits).1, hall.2 (hall.1 hsuits).2⟩

end DokeviNet
