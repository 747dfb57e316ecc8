import DokeviNetwork.SendQueue.Stream

/-!
# What a socket transmits depends on that socket alone

All sockets take their packets from the same seven pools.  As long as the pools
hand out no packet that is still outstanding, the parcels of a socket are a
function of its own sends and completions.  Once a packet is handed out twice, the
bytes of one connection are sent on another.
-/

namespace DokeviNet

open PacketPools LabelledRun

/-- The size of the packets for a payload of `inLen` bytes. -/
def classBytes (inLen : UInt32) : ℕ :=
  ((sizeClassOf inLen.toNat).map fun c => c.bytes.toNat).getD 0

/-- The size class of the payload has four bytes left for the header. -/
def LeavesRoom (inLen : UInt32) : Prop :=
  ∃ c ∈ sizeClassOf inLen.toNat, inLen.toNat + 4 ≤ c.bytes.toNat

instance (inLen : UInt32) : Decidable (LeavesRoom inLen) :=
  inferInstanceAs (Decidable (∃ c ∈ sizeClassOf inLen.toNat, _))

/-- Every payload that the event brings leaves room for its header. -/
def SendEvent.LeavesRoom {ι : Type*} : SendEvent ι → Prop
  | .send _ _ inLen _ => DokeviNet.LeavesRoom inLen
  | _ => True

instance SendEvent.decidableLeavesRoom {ι : Type*} :
    ∀ e : SendEvent ι, Decidable e.LeavesRoom
  | .send _ _ inLen _ => inferInstanceAs (Decidable (DokeviNet.LeavesRoom inLen))
  | .transmit _ => isTrue trivial
  | .complete _ => isTrue trivial

variable {ι : Type*}

/-- The pools hand out packets of the payload's size class. -/
theorem capacity_of_allocPacket {sel : PacketSelector} {inLen : UInt32}
    {p : PacketId} (hp : p ∈ (allocPacket sel inLen).map Prod.fst) :
    sizeClassOf inLen.toNat = some p.pool := by
  obtain ⟨⟨p', sel'⟩, halloc, hp'⟩ := Option.map_eq_some_iff.mp hp
  obtain rfl : p' = p := hp'
  exact (PacketSelector.allocPacket_eq_some halloc).1

theorem SendSystem.allocates_classBytes
    (w : SendSystem PacketSelector PacketId ι) (e : SendEvent ι) :
    w.Allocates classBytes e := by
  cases e with
  | send s inData inLen inImmediateSend =>
      intro p hp
      simp [classBytes, capacity_of_allocPacket hp, capacity]
  | transmit => trivial
  | complete => trivial

theorem SendEvent.LeavesRoom.room {e : SendEvent ι} (h : e.LeavesRoom)
    (w : SendSystem PacketSelector PacketId ι) : w.Room e := by
  cases e with
  | send s inData inLen inImmediateSend =>
      obtain ⟨c, hc, hroom⟩ := h
      rw [SendSystem.Room, SendSystem.SendRoom]
      split
      · exact lt_of_le_of_lt hroom c.bytes.toNat_lt
      · intro p hp
        have hclass := capacity_of_allocPacket hp
        obtain rfl : c = p.pool := Option.some.inj (hc.symm.trans hclass)
        exact hroom
  | transmit => trivial
  | complete => trivial

variable [DecidableEq ι]

/-- The parcels of each socket come from its own events. -/
theorem exists_carrying_of_run_selector {pools : PacketSelector}
    {es : List (SendEvent ι)} {w : SendSystem PacketSelector PacketId ι}
    (hfresh : Along SendSystem.step SendSystem.Fresh
      (SendSystem.start pools) es)
    (hroom : ∀ e ∈ es, e.LeavesRoom)
    (hrun : run SendSystem.step (SendSystem.start pools) es = some w) :
    ∃ queue parcels, Carrying w queue parcels ∧
      ∀ s, run (ParcelQueue.step classBytes) ParcelQueue.empty
        (eventsOn s es) = some (parcels s) := by
  have hrooms : Along SendSystem.step (fun _ e => e.LeavesRoom)
      (SendSystem.start pools : SendSystem PacketSelector PacketId ι) es :=
    along_of_forall fun e he _ => hroom e he
  refine @history_of_along _ _ _ _ (fun past w => ∃ queue parcels,
    Carrying w queue parcels ∧ ∀ s, run (ParcelQueue.step classBytes)
      ParcelQueue.empty (eventsOn s past) = some (parcels s))
    ?_ _ _ _ ⟨_, _, carrying_start pools, fun _ => rfl⟩
    (hfresh.and hrooms) hrun
  rintro past v e v' ⟨queue, parcels, hc, hparcels⟩ ⟨hfresh, hleaves⟩ hstep
  obtain ⟨queue', parcels', hc', hrun⟩ :=
    hc.step hfresh (hleaves.room v) (v.allocates_classBytes e) hstep
  refine ⟨queue', parcels', hc', ?_⟩
  intro s
  rw [eventsOn_append, run_append, hparcels s]
  exact hrun s

omit [DecidableEq ι] in
/-- What the system has taken of a packet is the parcel at the head. -/
theorem Carrying.transmitted {H P : Type*} [PacketPools H P]
    {w : SendSystem H P ι} {queue : ι → List P} {parcels : ι → ParcelQueue}
    (hc : Carrying w queue parcels) {s : ι} {post : WsaSend P}
    (hpost : post ∈ (w.sockets s).posted) {bytes : List UInt8}
    (hbytes : bytes ∈ post.transmitted) :
    ∃ parcel, (parcels s).queue.head? = some parcel ∧
      bytes = parcel.bytes := by
  cases hposted : (w.sockets s).posted with
  | nil => simp [hposted] at hpost
  | cons first posts =>
      obtain ⟨hhead, rfl, -, hcontents⟩ := (hc.flight s).eq_of_posted hposted
      obtain rfl : post = first := by simpa [hposted] using hpost
      have hcarries := (hc.holds s).carries
      rw [List.eq_cons_of_mem_head? hhead, List.forall₂_cons_left_iff]
        at hcarries
      obtain ⟨parcel, waiting, hparcel, -, hqueue⟩ := hcarries
      refine ⟨parcel, by rw [hqueue, List.head?_cons], ?_⟩
      rw [hcontents bytes hbytes]
      exact hparcel.bytes

/-- Two runs with the same sends and completions on socket `a` transmit the same
bytes on it, as long as the pools hand out no outstanding packet. -/
theorem wire_eq_of_runs {pools pools' : PacketSelector}
    {es es' : List (SendEvent ι)}
    {w w' : SendSystem PacketSelector PacketId ι} {a : ι}
    (hroom : ∀ e ∈ es, e.LeavesRoom) (hroom' : ∀ e ∈ es', e.LeavesRoom)
    (hrun : run SendSystem.step (SendSystem.start pools) es = some w)
    (hrun' : run SendSystem.step (SendSystem.start pools') es' = some w')
    (hsame : eventsOn a es = eventsOn a es')
    (hfresh : Along SendSystem.step SendSystem.Fresh
      (SendSystem.start pools) es)
    (hfresh' : Along SendSystem.step SendSystem.Fresh
      (SendSystem.start pools') es') :
    (w.sockets a).wire = (w'.sockets a).wire ∧
      ∀ post ∈ (w.sockets a).posted, ∀ post' ∈ (w'.sockets a).posted,
        ∀ bytes ∈ post.transmitted, ∀ bytes' ∈ post'.transmitted,
          bytes = bytes' := by
  obtain ⟨queue, parcels, hc, hparcels⟩ :=
    exists_carrying_of_run_selector hfresh hroom hrun
  obtain ⟨queue', parcels', hc', hparcels'⟩ :=
    exists_carrying_of_run_selector hfresh' hroom' hrun'
  have heq : parcels a = parcels' a := by
    have hevents := hparcels a
    rw [hsame, hparcels' a, Option.some.injEq] at hevents
    exact hevents.symm
  constructor
  · rw [(hc.holds a).wire, (hc'.holds a).wire, heq]
  · intro post hpost post' hpost' bytes hbytes bytes' hbytes'
    obtain ⟨parcel, hhead, rfl⟩ := hc.transmitted hpost hbytes
    obtain ⟨parcel', hhead', rfl⟩ := hc'.transmitted hpost' hbytes'
    rw [heq, hhead', Option.some.injEq] at hhead
    rw [hhead]

/-- Socket `false` sends `[7]`, after whatever the list `before` brings. -/
def sendsAfter (before : List (SendEvent Bool)) : List (SendEvent Bool) :=
  before ++ [.send false (Region.ofList 0 [7]) 1 false, .transmit false,
    .complete false]

/-- Socket `true` sends `[1]` and is done. -/
def otherSend : List (SendEvent Bool) :=
  [.send true (Region.ofList 0 [1]) 1 false, .transmit true, .complete true]

theorem wire_eq_of_runs_otherSend :
    ∃ w w' : SendSystem PacketSelector PacketId Bool,
      run SendSystem.step (SendSystem.start PacketSelector.zeroed)
          (sendsAfter []) = some w ∧
        run SendSystem.step (SendSystem.start PacketSelector.zeroed)
          (sendsAfter otherSend) = some w' ∧
        (w.sockets false).wire = (w'.sockets false).wire := by
  have hfresh : ∀ before ∈ [[], otherSend],
      Along SendSystem.step SendSystem.Fresh
        (SendSystem.start PacketSelector.zeroed) (sendsAfter before) := by
    decide
  have hroom : ∀ before ∈ [[], otherSend],
      ∀ e ∈ sendsAfter before, e.LeavesRoom := by
    decide
  have hsame : eventsOn false (sendsAfter []) =
      eventsOn false (sendsAfter otherSend) := rfl
  have heq := wire_eq_of_runs (hroom [] (by simp))
    (hroom otherSend (by simp)) rfl rfl hsame (hfresh [] (by simp))
    (hfresh otherSend (by simp))
  exact ⟨_, _, rfl, rfl, heq.1⟩

/-- Socket `true` sends `[1]`, then `[x]` once its first packet is complete;
socket `false` sends `[7]` in between. -/
def interleavedSends (x : UInt8) : List (SendEvent Bool) :=
  [.send true (Region.ofList 0 [1]) 1 false,
    .send false (Region.ofList 0 [7]) 1 false, .transmit true, .complete true,
    .send true (Region.ofList 0 [x]) 1 false, .transmit false,
    .complete false]

/-- The second send of socket `true` is stored in the packet that socket `false`
has in flight, and goes out on socket `false`. -/
theorem wire_of_interleavedSends :
    ∃ w w' : SendSystem PacketSelector PacketId Bool,
      run SendSystem.step (SendSystem.start PacketSelector.zeroed)
          (interleavedSends 9) = some w ∧
        run SendSystem.step (SendSystem.start PacketSelector.zeroed)
          (interleavedSends 5) = some w' ∧
        (∀ e ∈ interleavedSends 9, e.LeavesRoom) ∧
        (∀ e ∈ interleavedSends 5, e.LeavesRoom) ∧
        eventsOn false (interleavedSends 9) =
          eventsOn false (interleavedSends 5) ∧
        (w.sockets false).wire = [1, 0, 0, 0, 9] ∧
        (w'.sockets false).wire = [1, 0, 0, 0, 5] :=
  ⟨_, _, rfl, rfl, by decide, by decide, rfl, by decide, by decide⟩

end DokeviNet
