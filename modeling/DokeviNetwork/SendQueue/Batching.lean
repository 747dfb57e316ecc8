import DokeviNetwork.SendQueue.Stream
import DokeviNetwork.Support.Adjacent

/-!
# How well a send queue fills its packets

A `Send` opens a new packet only if the last waiting one cannot take its frame.
So a packet that waits behind the head is followed by one whose first frame
did not fit, unless one of the two was to be sent immediately, and the packets
that wait are more than half full, all but the last of them counted.
-/

namespace DokeviNet

open PacketPools Linked LabelledRun

/-- The parcel could not have taken the first frame of the one behind it. -/
def Closed (p q : Parcel) : Prop :=
  ∃ f ∈ q.frames.head?, ¬p.CanTake f

theorem Closed.push_right {p q : Parcel} {f : Frame} (h : Closed p q)
    (htake : q.CanTake f) : Closed p (q.push f htake) := by
  obtain ⟨g, hg, hno⟩ := h
  refine ⟨g, ?_, hno⟩
  rw [Parcel.push, List.head?_append, hg]
  rfl

/-- A frame joins the last waiting parcel, or opens one behind a parcel that
cannot take it. -/
theorem enqueue_cases {f : Frame} {capacity : ℕ} {waiting after : List Parcel}
    (h : enqueue f capacity waiting = some after) :
    (∃ front last htake, waiting = front ++ [last] ∧
        after = front ++ [last.push f htake]) ∨
      ∃ hfits, (∀ last ∈ waiting.getLast?, ¬last.CanTake f) ∧
        after = waiting ++ [Parcel.single f capacity hfits] := by
  induction waiting generalizing after with
  | nil =>
      right
      by_cases hfits : f.bytes.length ≤ capacity
      · simp only [enqueue, hfits, dite_true, Option.some.injEq] at h
        exact ⟨hfits, by simp, h.symm⟩
      · simp [enqueue, hfits] at h
  | cons p waiting ih =>
      cases waiting with
      | nil =>
          by_cases htake : p.CanTake f
          · left
            simp only [enqueue, htake, dite_true, Option.some.injEq] at h
            exact ⟨[], p, htake, rfl, h.symm⟩
          · right
            simp only [enqueue, htake, dite_false] at h
            obtain ⟨rest, hrest, rfl⟩ := Option.map_eq_some_iff.mp h
            rcases ih hrest with ⟨front, last, _, heq, -⟩ | ⟨hfits, -, rfl⟩
            · simp at heq
            · exact ⟨hfits, by simpa using htake, rfl⟩
      | cons q waiting =>
          obtain ⟨rest, hrest, rfl⟩ := Option.map_eq_some_iff.mp h
          rcases ih hrest with ⟨front, last, htake, heq, rfl⟩ |
            ⟨hfits, hno, rfl⟩
          · left
            exact ⟨p :: front, last, htake, by rw [heq]; rfl, rfl⟩
          · right
            exact ⟨hfits, by simpa using hno, rfl⟩

/-- Taking a frame leaves every waiting parcel closed for the one behind it,
whichever way it goes. -/
theorem closed_enqueue {f : Frame} {capacity : ℕ} {waiting after : List Parcel}
    (h : waiting.IsChain Closed)
    (hafter : enqueue f capacity waiting = some after) :
    after.IsChain Closed := by
  rcases enqueue_cases hafter with ⟨front, last, htake, rfl, rfl⟩ |
    ⟨hfits, hno, rfl⟩
  · obtain ⟨hfront, -, hclosed⟩ := List.isChain_append.mp h
    refine List.isChain_append.mpr ⟨hfront, List.isChain_singleton _, ?_⟩
    intro p hp q hq
    obtain rfl : last.push f htake = q := by simpa using hq
    exact (hclosed p hp last rfl).push_right htake
  · refine List.isChain_append.mpr ⟨h, List.isChain_singleton _, ?_⟩
    intro p hp q hq
    obtain rfl : Parcel.single f capacity hfits = q := by simpa using hq
    exact ⟨f, rfl, hno p hp⟩

/-- Every parcel that waits is closed for the one behind it. -/
def ParcelQueue.Packed (q : ParcelQueue) : Prop := q.queue.tail.IsChain Closed

/-- Every event keeps the queue packed. -/
theorem ParcelQueue.Packed.step {capacity : UInt32 → ℕ} {q q' : ParcelQueue}
    {e : QueueEvent} (h : q.Packed) (hstep : q.step capacity e = some q') :
    q'.Packed := by
  unfold ParcelQueue.Packed at h ⊢
  cases e with
  | send f =>
      change q.send f (capacity f.inLen) = some q' at hstep
      unfold ParcelQueue.send at hstep
      split at hstep
      · next hqueue =>
        obtain ⟨queue, hafter, rfl⟩ := Option.map_eq_some_iff.mp hstep
        exact (closed_enqueue List.isChain_nil hafter).tail
      · next head waiting hqueue =>
        obtain ⟨after, hafter, rfl⟩ := Option.map_eq_some_iff.mp hstep
        rw [hqueue] at h
        exact closed_enqueue h hafter
  | complete =>
      change q.complete = some q' at hstep
      unfold ParcelQueue.complete at hstep
      split at hstep
      · cases hstep
      · next head waiting hqueue =>
        obtain rfl := Option.some.inj hstep
        rw [hqueue] at h
        exact h.tail

section

variable {H P : Type*} [PacketPools H P]

/-- What is left of the first packet does not hold the frame at the front of the
second, so the two together hold more than the first can. -/
structure NoRoomFor (h : H) (p q : P) : Prop where
  front : (packet h p).remainSize.toNat <
    (getSizeInByteArray (packet h q).buffer).toNat + 4
  both : (packet h p).maxSize.toNat <
    (packet h p).size.toNat + (packet h q).size.toNat

/-- The first frame of a parcel is at the front of its packet's buffer. -/
theorem PacketInterface.Carries.front {packet : PacketInterface P}
    {SIZE : UInt32} {parcel : Parcel} (h : packet.Carries SIZE parcel)
    {f : Frame} {rest : List Frame} (hframes : parcel.frames = f :: rest) :
    getSizeInByteArray packet.buffer = f.inLen ∧
      f.inLen.toNat + 4 ≤ packet.size.toNat := by
  have hbytes : parcel.bytes = f.bytes ++ rest.flatMap Frame.bytes := by
    rw [Parcel.bytes, hframes, List.flatMap_cons]
  have hsize : f.inLen.toNat + 4 ≤ packet.size.toNat := by
    rw [h.size, hbytes, List.length_append, f.bytes_length]
    exact Nat.le_add_right _ _
  refine ⟨?_, hsize⟩
  rw [getSizeInByteArray_eq (le_trans (Nat.le_add_left 4 _) hsize), h.bytes,
    hbytes, Frame.bytes, List.append_assoc, sizeOfBytes_append _ (by simp),
    sizeOfBytes_sizeBytes]

/-- Packets that carry parcels of which the first is closed for the second. -/
theorem noRoomFor_of_closed {h : H} {p q : P} {a b : Parcel}
    (ha : (packet h p).Carries (capacity H p) a)
    (hb : (packet h q).Carries (capacity H q) b) (hclosed : Closed a b)
    (hp : (packet h p).immediateSend = false)
    (hq : (packet h q).immediateSend = false) : NoRoomFor h p q := by
  obtain ⟨f, hf, hno⟩ := hclosed
  have heq := List.eq_cons_of_mem_head? hf
  obtain ⟨hfront, hsize⟩ := hb.front heq
  have hopen : ∀ g ∈ a.frames, g.immediate = false := by
    intro g hg
    rw [← Bool.not_eq_true]
    intro himmediate
    rw [ha.immediate.mpr ⟨g, hg, himmediate⟩] at hp
    cases hp
  have hplain : f.immediate = false := by
    rw [← Bool.not_eq_true]
    intro himmediate
    rw [hb.immediate.mpr ⟨f, List.mem_of_mem_head? hf, himmediate⟩] at hq
    cases hq
  have hfull : a.capacity < a.bytes.length + f.bytes.length := by
    by_contra hle
    exact hno ⟨hplain, hopen, Nat.le_of_not_lt hle⟩
  have hsum := ha.sized.sum
  rw [ha.capacity, ← ha.size, f.bytes_length] at hfull
  constructor
  · rw [hfront]
    omega
  · rw [ha.sized.max]
    omega

end

section

variable {H P ι : Type*} [PacketPools H P] [DecidableEq P] [DecidableEq ι]
  [LawfulPacketPools H P]

/-- What every event of a parcel queue keeps holds of the parcels that the
packets of each socket carry. -/
theorem exists_carrying_of_run_keeping {I : ParcelQueue → Prop}
    (hempty : I ParcelQueue.empty)
    (hkeeps : ∀ cap q e q', I q → ParcelQueue.step cap q e = some q' → I q')
    {pools : H} {es : List (SendEvent ι)} {w : SendSystem H P ι}
    (hfresh : Along SendSystem.step SendSystem.Fresh
      (SendSystem.start pools) es)
    (hroom : Along SendSystem.step SendSystem.Room
      (SendSystem.start pools) es)
    (hrun : run SendSystem.step (SendSystem.start pools) es = some w) :
    ∃ queue parcels, Carrying w queue parcels ∧
      ∀ s, (parcels s).frames = framesOn s es ∧ I (parcels s) := by
  refine @history_of_along _ _ _ _ (fun past w => ∃ queue parcels,
    Carrying w queue parcels ∧
      ∀ s, (parcels s).frames = framesOn s past ∧ I (parcels s))
    ?_ _ _ _ ⟨_, _, carrying_start pools, fun _ => ⟨rfl, hempty⟩⟩
    (hfresh.and hroom) hrun
  rintro past w e w' ⟨queue, parcels, hc, hparcels⟩ ⟨hfresh, hroom⟩ hstep
  obtain ⟨cap, hcap⟩ := w.exists_allocates e
  obtain ⟨queue', parcels', hc', hrun⟩ := hc.step hfresh hroom hcap hstep
  refine ⟨queue', parcels', hc', fun s => ⟨?_, ?_⟩⟩
  · rw [ParcelQueue.run_frames (hrun s), (hparcels s).1, framesOn, framesOn,
      eventsOn_append, ParcelQueue.newFrames_append]
  · exact invariant_of_along
      (fun q e q' hq _ hstep => hkeeps cap q e q' hq hstep) (hparcels s).2
      (along_isSome (hrun s)) (hrun s)

/-- In every state that sends and completions reach, given fresh packets in which the
payloads fit: of two packets that wait one behind the other, neither to be
sent immediately, the first has no room for the frame at the front of the
second.  If no packet that waits is to be sent immediately, they use at least half
of the capacity of all but the last of them. -/
theorem packed_of_run {pools : H} {es : List (SendEvent ι)}
    {w : SendSystem H P ι}
    (hfresh : Along SendSystem.step SendSystem.Fresh
      (SendSystem.start pools) es)
    (hfits : Along SendSystem.step SendSystem.Fits
      (SendSystem.start pools) es)
    (hrun : run SendSystem.step (SendSystem.start pools) es = some w)
    (s : ι) :
    ∃ queue,
      Follows (fun p => (packet w.pools p).next)
          (w.sockets s).sendingPacket queue ∧
        (queue.tail.IsChain fun p q =>
          (packet w.pools p).immediateSend = false →
          (packet w.pools q).immediateSend = false →
            NoRoomFor w.pools p q) ∧
        ((∀ p ∈ queue.tail, (packet w.pools p).immediateSend = false) →
          (queue.tail.dropLast.map fun p =>
              (packet w.pools p).maxSize.toNat).sum ≤
            2 * (queue.tail.map fun p => (packet w.pools p).size.toNat).sum) := by
  have hroom := hfits.mono fun w e h => SendSystem.Fits.room h
  obtain ⟨queue, parcels, hc, hparcels⟩ :=
    exists_carrying_of_run_keeping (I := ParcelQueue.Packed) List.isChain_nil
      (fun _ _ _ _ h hstep => h.step hstep) hfresh hroom hrun
  have hcarries : List.Forall₂
      (fun p parcel => (packet w.pools p).Carries (capacity H p) parcel)
      (queue s).tail (parcels s).queue.tail := by
    simpa only [List.drop_one] using
      List.forall₂_drop 1 (hc.holds s).carries
  have hclosed : (parcels s).queue.tail.IsChain Closed := (hparcels s).2
  have hchain : (queue s).tail.IsChain fun p q =>
      (packet w.pools p).immediateSend = false →
      (packet w.pools q).immediateSend = false → NoRoomFor w.pools p q := by
    refine List.Forall₂.isChain ?_ hcarries hclosed
    intro p q a b ha hb hab
    exact noRoomFor_of_closed ha hb hab
  refine ⟨queue s, (hc.queues s).linked, hchain, fun hplain => ?_⟩
  apply List.IsChain.sum_dropLast_le
  refine hchain.imp_of_mem_imp ?_
  intro p q hp hq hroom
  exact le_of_lt (hroom (hplain p hp) (hplain q hq)).both

end

/-- A packet that is being sent, one with 54 bytes behind it, and a frame of 24 that
does not fit the second. -/
def fullPacket : List (SendEvent Unit) :=
  [.send () (Region.ofList 0 [1]) 1 false, .send () (Region.ofList 0 []) 50 false,
    .send () (Region.ofList 0 []) 20 false]

/-- The two packets that wait after those sends. -/
theorem packed_of_run_fullPacket :
    ∃ w : SendSystem PacketSelector PacketId Unit,
      run SendSystem.step (SendSystem.start PacketSelector.zeroed) fullPacket =
          some w ∧
        NoRoomFor w.pools ⟨.packet64, 1⟩ ⟨.packet64, 2⟩ := by
  have hfresh : Along SendSystem.step SendSystem.Fresh
      (SendSystem.start PacketSelector.zeroed) fullPacket := by decide
  have hfits : Along SendSystem.step SendSystem.Fits
      (SendSystem.start PacketSelector.zeroed) fullPacket := by decide
  refine ⟨_, rfl, ?_⟩
  obtain ⟨queue, hlinked, hchain, -⟩ := packed_of_run hfresh hfits rfl ()
  obtain rfl := hlinked.unique
    (show Follows _ _ [⟨.packet64, 0⟩, ⟨.packet64, 1⟩, ⟨.packet64, 2⟩] from
      ⟨rfl, rfl, rfl, rfl⟩)
  exact (List.isChain_cons_cons.mp hchain).1 rfl rfl

end DokeviNet
