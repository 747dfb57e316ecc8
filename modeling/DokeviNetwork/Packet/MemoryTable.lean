import DokeviNetwork.Packet.PlacedPools
import DokeviNetwork.SendQueue.Model

/-!
# Memory that holds what a table says

While every store into a packet ends with the packet's buffer, the memory of the
pools holds a table of records: the fields of every element and the bytes of
its buffer are those of its record.  A packet in use also has its `_buffer`
pointing to its own `buf`.  Each operation of the pools keeps this.
-/

namespace DokeviNet

open PacketPlacement LittleEndian

/-! ## Packets that agree -/

/-- The same fields, and the same contents of the first `SIZE` bytes. -/
structure PacketInterface.AgreeIn {P : Type*} (SIZE : UInt32)
    (v v' : PacketInterface P) : Prop where
  immediateSend : v.immediateSend = v'.immediateSend
  isSending : v.isSending = v'.isSending
  size : v.size = v'.size
  remainSize : v.remainSize = v'.remainSize
  maxSize : v.maxSize = v'.maxSize
  next : v.next = v'.next
  buffer : ∀ j < SIZE.toNat, v.buffer j = v'.buffer j

/-- A store in two buffers leaves them as different as they were. -/
theorem storeFrame_congr {b b' inData : Region UInt8} {pos j : ℕ}
    {inLen : UInt32} (h : b j = b' j) :
    storeFrame b pos inData inLen j = storeFrame b' pos inData inLen j :=
  Region.write_congr fun _ => Region.write_congr fun _ => h

/-- Behind its end a store changes nothing. -/
theorem storeFrame_behind {b inData : Region UInt8} {pos j : ℕ}
    {inLen : UInt32} (h : pos + 4 + inLen.toNat ≤ j) :
    storeFrame b pos inData inLen j = b j := by
  change Region.write (b.write pos (sizeBytes inLen)) (pos + 4)
    (inData.read 0 inLen.toNat) j = b j
  rw [Region.write_apply_of_le (by rw [Region.read_length]; exact h),
    Region.write_apply_of_le (by rw [sizeBytes_length]; omega)]

namespace PacketInterface

variable {P : Type*} {SIZE : UInt32} {v v' : PacketInterface P}

theorem AgreeIn.read (h : AgreeIn SIZE v v') {len : ℕ}
    (hlen : len ≤ SIZE.toNat) :
    v.buffer.read 0 len = v'.buffer.read 0 len :=
  Region.read_congr fun j _ hj => h.buffer j (by omega)

theorem AgreeIn.append (h : AgreeIn SIZE v v') (inData : Region UInt8)
    (inLen : UInt32) :
    AgreeIn SIZE (v.append inData inLen) (v'.append inData inLen) where
  immediateSend := h.immediateSend
  isSending := h.isSending
  size := congrArg (· + totalPacketSize inLen) h.size
  remainSize := congrArg (· - totalPacketSize inLen) h.remainSize
  maxSize := h.maxSize
  next := h.next
  buffer j hj := by
    simp only [PacketInterface.append, h.size]
    exact storeFrame_congr (h.buffer j hj)

theorem AgreeIn.fill (h : AgreeIn SIZE v v') (inData : Region UInt8)
    (inLen : UInt32) (inImmediateSend : Bool) :
    AgreeIn SIZE (v.fill inData inLen inImmediateSend)
      (v'.fill inData inLen inImmediateSend) where
  immediateSend := rfl
  isSending := h.isSending
  size := rfl
  remainSize := congrArg (· - totalPacketSize inLen) h.remainSize
  maxSize := h.maxSize
  next := h.next
  buffer j hj := storeFrame_congr (h.buffer j hj)

theorem AgreeIn.markSending (h : AgreeIn SIZE v v') :
    AgreeIn SIZE v.markSending v'.markSending :=
  ⟨h.immediateSend, rfl, h.size, h.remainSize, h.maxSize, h.next, h.buffer⟩

theorem AgreeIn.linkTo (h : AgreeIn SIZE v v') (p : P) :
    AgreeIn SIZE (v.linkTo p) (v'.linkTo p) :=
  ⟨h.immediateSend, h.isSending, h.size, h.remainSize, h.maxSize, rfl,
    h.buffer⟩

theorem AgreeIn.release (h : AgreeIn SIZE v v') :
    AgreeIn SIZE (v.release SIZE) (v'.release SIZE) :=
  ⟨rfl, rfl, h.size, rfl, rfl, rfl,
    fun j hj => @Region.write_congr _ _ _ 0 j [0] fun _ => h.buffer j hj⟩

end PacketInterface

namespace PacketMemory

variable {placement : PacketPlacement} {bytes bytes' : Region UInt8}
  {records : PacketTable placement} {c d : SizeClass} {i : ℕ}
  {p q : Address placement.platform}
  {v v' : PacketInterface (Address placement.platform)}

/-! ## What a store into one packet leaves alone -/

/-- At most the `len` bytes at `off` are different. -/
def SameOutside (bytes bytes' : Region UInt8) (off len : ℕ) : Prop :=
  ∀ a, a < off ∨ off + len ≤ a → bytes' a = bytes a

theorem SameOutside.trans {bytes'' : Region UInt8} {off len : ℕ}
    (h : SameOutside bytes bytes' off len)
    (h' : SameOutside bytes' bytes'' off len) :
    SameOutside bytes bytes'' off len :=
  fun a ha => (h' a ha).trans (h a ha)

theorem sameOutside_write {off len pos : ℕ} {data : List UInt8}
    (hlow : off ≤ pos) (hhigh : pos + data.length ≤ off + len) :
    SameOutside bytes (bytes.write pos data) off len := by
  rintro a (hbelow | habove)
  · exact Region.write_apply_of_lt (by omega)
  · exact Region.write_apply_of_le (by omega)

/-- The rest of an element lies behind the pointer to its buffer and its fields,
in that order. -/
theorem layout (placement : PacketPlacement) (c : SizeClass) :
    placement.platform.bufferAt + placement.platform.pointerBytes =
        placement.platform.fieldsAt ∧
      placement.platform.fieldsAt + placement.platform.fieldsBytes =
        placement.platform.bufAt ∧
      placement.platform.bufAt + c.bytes.toNat = placement.stride c := by
  unfold PacketPlacement.stride Platform.packetBytes Platform.bufferAt
    Platform.fieldsAt Platform.fieldsBytes Platform.bufAt
  omega

/-- Reading another element gives what it did. -/
theorem SameOutside.read (h : SameOutside bytes bytes' p.value
      (placement.stride c)) (hp : placement.element c i = some p) {j : ℕ}
    (hq : placement.element d j = some q) (hne : q ≠ p) {off len : ℕ}
    (hin : off + len ≤ placement.stride d) :
    bytes'.read (q.value + off) len = bytes.read (q.value + off) len := by
  have hapart := apart_of_ne hp hq (Ne.symm hne)
  unfold Region.Apart at hapart
  refine Region.read_congr fun a hlow hhigh => h a ?_
  omega

/-! ## The table that memory holds -/

/-- The element at `p`, its buffer taken from its own `buf` on. -/
def tableOf (bytes : Region UInt8) : PacketTable placement :=
  fun p => decodePacket (bytes.shift (bufOf p)) (loadFields bytes p)

/-- Every element has the fields and the bytes of its record. -/
def StoredAs (bytes : Region UInt8) (records : PacketTable placement) : Prop :=
  ∀ c i p, placement.element c i = some p →
    (tableOf bytes p).AgreeIn c.bytes (records p)

/-- The pointer is to an element whose `_buffer` points to its own `buf`. -/
structure Owned (bytes : Region UInt8) (p : Address placement.platform) :
    Prop where
  element : ∃ c i, placement.element c i = some p
  buffer : loadBuffer bytes p = bufOf p

theorem Owned.loadPacket (h : Owned bytes p) :
    loadPacket bytes p = tableOf bytes p := by
  rw [PacketMemory.loadPacket, h.buffer]
  rfl

theorem storedAs_tableOf (bytes : Region UInt8) :
    StoredAs bytes (tableOf bytes : PacketTable placement) :=
  fun _ _ _ _ => ⟨rfl, rfl, rfl, rfl, rfl, rfl, fun _ _ => rfl⟩

/-- A packet in use is what its record says, up to the end of its buffer. -/
theorem StoredAs.agree (h : StoredAs bytes records) (howned : Owned bytes p) :
    (loadPacket bytes p).AgreeIn (placement.capacity p) (records p) := by
  obtain ⟨c, i, hp⟩ := howned.element
  rw [howned.loadPacket, capacity_of_element hp]
  exact h c i p hp

/-- Changing one element and its record. -/
theorem StoredAs.update (h : StoredAs bytes records)
    (hp : placement.element c i = some p)
    (hsame : SameOutside bytes bytes' p.value (placement.stride c))
    (hnew : (tableOf bytes' p).AgreeIn c.bytes v) :
    StoredAs bytes' (Function.update records p v) := by
  intro d k q hq
  by_cases hqp : q = p
  · subst hqp
    rw [Function.update_self, class_unique hq hp]
    exact hnew
  · have hlayout := layout placement d
    have hfields : loadFields bytes' q = loadFields bytes q :=
      hsame.read hp hq hqp (by omega)
    have hold := h d k q hq
    rw [tableOf] at hold
    rw [Function.update_of_ne hqp, tableOf, hfields]
    refine ⟨hold.immediateSend, hold.isSending, hold.size, hold.remainSize,
      hold.maxSize, hold.next, fun j hj => ?_⟩
    refine Eq.trans ?_ (hold.buffer j hj)
    have hapart := apart_of_ne hp hq (Ne.symm hqp)
    unfold Region.Apart at hapart
    refine hsame (bufOf q + j) ?_
    unfold bufOf
    omega

theorem Owned.of_ne (howned : Owned bytes q)
    (hp : placement.element c i = some p)
    (hsame : SameOutside bytes bytes' p.value (placement.stride c))
    (hne : q ≠ p) : Owned bytes' q := by
  obtain ⟨d, k, hq⟩ := howned.element
  refine ⟨⟨d, k, hq⟩, ?_⟩
  have hlayout := layout placement d
  rw [loadBuffer, hsame.read hp hq hne (by omega)]
  exact howned.buffer

/-! ## Storing a packet that ends within its buffer -/

/-- `v` leaves the memory behind the buffer of the packet at `p` as it is. -/
def Within (bytes : Region UInt8) (p : Address placement.platform)
    (v : PacketInterface (Address placement.platform)) : Prop :=
  ∀ j, (placement.capacity p).toNat ≤ j →
    v.buffer j = (loadPacket bytes p).buffer j

theorem sameOutside_storePacket (howned : Owned bytes p)
    (hp : placement.element c i = some p) (hwithin : Within bytes p v) :
    SameOutside bytes (storePacket bytes p v) p.value
      (placement.stride c) := by
  have hlayout := layout placement c
  have hgraft : SameOutside bytes
      (bytes.graft (loadBuffer bytes p) v.buffer) p.value
        (placement.stride c) := by
    intro a ha
    rw [howned.buffer]
    apply Region.graft_apply_of_eq
    intro hle
    rw [hwithin _ (by
      rw [capacity_of_element hp]
      unfold bufOf at hle ⊢
      omega), howned.loadPacket]
    rfl
  refine hgraft.trans (sameOutside_write (by omega) ?_)
  rw [encodePacket_length]
  omega

/-- The packet stored is there, in place and with its buffer. -/
theorem tableOf_storePacket (howned : Owned bytes p)
    (hagree : v.AgreeIn c.bytes v') :
    (tableOf (storePacket bytes p v) p).AgreeIn c.bytes v' := by
  have hlayout := layout placement c
  have hfields : loadFields (storePacket bytes p v) p = encodePacket
      (loadFields (bytes.graft (loadBuffer bytes p) v.buffer) p) v := by
    have hread := Region.read_write_self
      (bytes.graft (loadBuffer bytes p) v.buffer)
      (p.value + placement.platform.fieldsAt) (encodePacket
        (loadFields (bytes.graft (loadBuffer bytes p) v.buffer) p) v)
    rw [encodePacket_length] at hread
    exact hread
  rw [tableOf, hfields, decodePacket_encodePacket]
  refine ⟨hagree.immediateSend, hagree.isSending, hagree.size,
    hagree.remainSize, hagree.maxSize, hagree.next, fun j hj => ?_⟩
  rw [← hagree.buffer j hj]
  change storePacket bytes p v (bufOf p + j) = v.buffer j
  rw [storePacket, storeFields, Region.write_apply_of_le (by
    rw [encodePacket_length]
    unfold bufOf
    omega), howned.buffer, Region.graft_apply_add]

/-- Its `_buffer` stays. -/
theorem Owned.storePacket (howned : Owned bytes p) (hq : Owned bytes q)
    (hwithin : Within bytes p v) : Owned (storePacket bytes p v) q := by
  obtain ⟨c, i, hp⟩ := howned.element
  by_cases hqp : q = p
  · subst hqp
    refine ⟨howned.element, ?_⟩
    have hlayout := layout placement c
    have hread : (PacketMemory.storePacket bytes q v).read
        (q.value + placement.platform.bufferAt)
        placement.platform.pointerBytes =
      bytes.read (q.value + placement.platform.bufferAt)
        placement.platform.pointerBytes := by
      rw [PacketMemory.storePacket, storeFields,
        Region.read_write_before _ (by omega)]
      refine Region.read_congr fun a _ ha => ?_
      rw [howned.buffer]
      refine Region.graft_apply_of_lt ?_
      unfold bufOf
      omega
    rw [loadBuffer, hread]
    exact howned.buffer
  · exact hq.of_ne hp (sameOutside_storePacket howned hp hwithin) hqp

theorem StoredAs.storePacket (h : StoredAs bytes records)
    (howned : Owned bytes p) (hwithin : Within bytes p v)
    (hagree : v.AgreeIn (placement.capacity p) v') :
    StoredAs (storePacket bytes p v) (Function.update records p v') := by
  obtain ⟨c, i, hp⟩ := howned.element
  rw [capacity_of_element hp] at hagree
  exact h.update hp (sameOutside_storePacket howned hp hwithin)
    (tableOf_storePacket howned hagree)

/-! ## `Release()` -/

theorem bufOf_lt (hp : placement.element c i = some p) :
    bufOf p < 256 ^ placement.platform.pointerBytes := by
  obtain ⟨hi, hvalue⟩ := element_eq_some_iff.mp hp
  have hend := @element_end placement c i hi
  have hinside := placement.inside c
  have hlayout := layout placement c
  have hsome : 0 < c.bytes.toNat := by cases c <;> decide
  unfold PacketPlacement.stride at hend hlayout hvalue
  unfold bufOf
  omega

theorem sameOutside_storeBuffer (c : SizeClass)
    (p : Address placement.platform) (buffer : ℕ) :
    SameOutside bytes (storeBuffer bytes p buffer) p.value
      (placement.stride c) := by
  have hlayout := layout placement c
  apply sameOutside_write (by omega)
  rw [bytesOfNat_length]
  omega

theorem owned_storeBuffer (hp : placement.element c i = some p) :
    Owned (storeBuffer bytes p (bufOf p)) p := by
  refine ⟨⟨c, i, hp⟩, ?_⟩
  have hread := Region.read_write_self bytes
    (p.value + placement.platform.bufferAt)
    (bytesOfNat placement.platform.pointerBytes (bufOf p))
  rw [bytesOfNat_length] at hread
  exact (congrArg natOfBytes hread).trans
    (natOfBytes_bytesOfNat (bufOf_lt hp))

/-- Storing `_buffer` is no change of the fields or of the buffer. -/
theorem StoredAs.storeBuffer (h : StoredAs bytes records)
    (hp : placement.element c i = some p) (buffer : ℕ) :
    StoredAs (storeBuffer bytes p buffer) records := by
  have hlayout := layout placement c
  have hfields : loadFields (PacketMemory.storeBuffer bytes p buffer) p =
      loadFields bytes p := by
    refine Region.read_write_apart (Or.inl ?_)
    rw [bytesOfNat_length]
    omega
  have hold := h c i p hp
  rw [tableOf] at hold
  rw [← Function.update_eq_self p records]
  refine h.update hp (sameOutside_storeBuffer c p buffer) ?_
  rw [tableOf, hfields]
  refine ⟨hold.immediateSend, hold.isSending, hold.size, hold.remainSize,
    hold.maxSize, hold.next, fun j hj => ?_⟩
  refine Eq.trans ?_ (hold.buffer j hj)
  refine Region.write_apply_of_le ?_
  rw [bytesOfNat_length]
  unfold bufOf
  omega

theorem within_release (howned : Owned bytes p) :
    Within bytes p ((loadPacket bytes p).release (placement.capacity p)) := by
  obtain ⟨c, i, hp⟩ := howned.element
  intro j hj
  have hsome : 0 < c.bytes.toNat := by cases c <;> decide
  rw [capacity_of_element hp] at hj
  have hlength : ([0] : List UInt8).length = 1 := rfl
  exact @Region.write_apply_of_le _ (loadPacket bytes p).buffer 0 j [0]
    (by omega)

/-- `Release()` is the same on the memory and in the table, and leaves the packet
with its own buffer. -/
theorem StoredAs.release (h : StoredAs bytes records)
    (hp : placement.element c i = some p) :
    StoredAs (release c.bytes p bytes)
      (PacketRecords.release c.bytes p records) := by
  have howned := @owned_storeBuffer _ bytes _ _ _ hp
  have hstored := h.storeBuffer hp (bufOf p)
  have hagree := hstored.agree howned
  have hcapacity := capacity_of_element hp
  rw [PacketMemory.release, PacketRecords.release, ← hcapacity]
  exact hstored.storePacket howned (within_release howned) hagree.release

theorem owned_release (hp : placement.element c i = some p)
    (hq : q = p ∨ Owned bytes q) : Owned (release c.bytes p bytes) q := by
  have howned := @owned_storeBuffer _ bytes _ _ _ hp
  have hwithin := within_release howned
  rw [capacity_of_element hp] at hwithin
  refine howned.storePacket ?_ hwithin
  by_cases hqp : q = p
  · exact hqp ▸ howned
  · exact (hq.resolve_left hqp).of_ne hp
      (sameOutside_storeBuffer c p (bufOf p)) hqp

/-! ## The operations of the pools -/

/-- The cursors are the same, memory holds the table, and the packets `live` are
in use. -/
structure Mirrors (m : PacketMemory placement) (k : PacketRecords placement)
    (live : List (Address placement.platform)) : Prop where
  pools : m.pools = k.pools
  stored : StoredAs m.store k.store
  owned : ∀ p ∈ live, Owned m.store p

variable {m m' : PacketMemory placement} {k : PacketRecords placement}
  {live : List (Address placement.platform)}

/-- Whatever the memory holds, it holds a table of it. -/
theorem mirrors_tableOf (m : PacketMemory placement) :
    Mirrors m { store := tableOf m.store, pools := m.pools } [] where
  pools := rfl
  stored := storedAs_tableOf m.store
  owned := by simp

theorem Mirrors.agree (h : Mirrors m k live) (hp : p ∈ live) :
    (PacketPools.packet m p).AgreeIn (PacketPools.capacity
      (PacketMemory placement) p) (PacketPools.packet k p) :=
  h.stored.agree (h.owned p hp)

theorem Mirrors.assign (h : Mirrors m k live) (hp : p ∈ live)
    (hwithin : Within m.store p v)
    (hagree : v.AgreeIn (PacketPools.capacity (PacketMemory placement) p) v') :
    Mirrors (PacketPools.assign m p v) (PacketPools.assign k p v') live where
  pools := h.pools
  stored := h.stored.storePacket (h.owned p hp) hwithin hagree
  owned q hq := (h.owned p hp).storePacket (h.owned q hq) hwithin

theorem Mirrors.allocPacket {inSize : UInt32} (h : Mirrors m k live)
    (halloc : PacketPools.allocPacket m inSize = some (p, m')) :
    ∃ k', PacketPools.allocPacket k inSize = some (p, k') ∧
      Mirrors m' k' (live ++ [p]) := by
  obtain ⟨c, i, k', hp, halloc', hstore, hstore', hpools⟩ :=
    @PlacedPools.allocPacket_same _ _ _ release PacketRecords.release m m' k
      inSize p h.pools halloc
  refine ⟨k', halloc', hpools, ?_, fun q hq => ?_⟩
  · rw [hstore, hstore']
    exact h.stored.release hp
  · rw [hstore]
    apply owned_release hp
    rcases List.mem_append.mp hq with hq | hq
    · exact Or.inr (h.owned q hq)
    · exact Or.inl (List.mem_singleton.mp hq)

theorem Mirrors.freePacket (h : Mirrors m k live) (hp : p ∈ live) :
    Mirrors (PacketPools.freePacket m p) (PacketPools.freePacket k p)
      live := by
  obtain ⟨hpools, hstores⟩ := @PlacedPools.freePacket_same _ _ _ release
    PacketRecords.release m k h.pools (k.store p).maxSize p
  have hmax : (loadPacket m.store p).maxSize = (k.store p).maxSize :=
    (h.agree hp).maxSize
  change Mirrors
    (PlacedPools.freePacket release (loadPacket m.store p).maxSize m p)
    (PlacedPools.freePacket PacketRecords.release (k.store p).maxSize k p) live
  rw [hmax]
  rcases hstores with ⟨hstore, hstore'⟩ | ⟨c, i, hp', hstore, hstore'⟩
  · exact ⟨hpools, by rw [hstore, hstore']; exact h.stored,
      by rw [hstore]; exact h.owned⟩
  · refine ⟨hpools, ?_, fun q hq => ?_⟩
    · rw [hstore, hstore']
      exact h.stored.release hp'
    · rw [hstore]
      exact owned_release hp' (Or.inr (h.owned q hq))

theorem Mirrors.mono {live' : List (Address placement.platform)}
    (h : Mirrors m k live) (hsub : ∀ p ∈ live', p ∈ live) :
    Mirrors m k live' :=
  ⟨h.pools, h.stored, fun p hp => h.owned p (hsub p hp)⟩

end PacketMemory

end DokeviNet
