import DokeviNetwork.Packet.PacketMemory

/-!
# The packet pools on memory

The cursors of the seven pools, over a store that holds the packets.  The store
is either the memory itself or a table of records that says what each packet
should hold.  The code of `AllocPacket` and `FreePacket` is the same over both.
A table of records is a lawful set of pools; memory is not, as a store behind
the end of one buffer reaches the next packet.
-/

namespace DokeviNet

open LittleEndian PacketPlacement

/-- The cursors of the pools and the storage of their elements. -/
structure PlacedPools (placement : PacketPlacement) (S : Type*) where
  store : S
  pools : SizeClass → AtomicStaticPool Unit

/-- The pools with their elements in memory. -/
abbrev PacketMemory (placement : PacketPlacement) :=
  PlacedPools placement (Region UInt8)

/-- What the packet at each address holds. -/
abbrev PacketTable (placement : PacketPlacement) :=
  Address placement.platform → PacketInterface (Address placement.platform)

/-- The pools with their elements in a table. -/
abbrev PacketRecords (placement : PacketPlacement) :=
  PlacedPools placement (PacketTable placement)

namespace PlacedPools

variable {placement : PacketPlacement} {S : Type*}

/-- `InitPacketSelector`, on elements that hold whatever `store` says. -/
def initPacketSelector (store : S) : PlacedPools placement S where
  store := store
  pools := fun _ => AtomicStaticPool.init 1000 fun _ => ()

/-! ## The code of the pools -/

section

variable (release : UInt32 → Address placement.platform → S → S)

/-- `AllocPacket`, where `release` is `Release()`. -/
def allocPacket (m : PlacedPools placement S) (inSize : UInt32) :
    Option (Address placement.platform × PlacedPools placement S) :=
  if inSize > maxPacketBufSize then none
  else
    match sizeClassOf inSize.toNat with
    | none => none
    | some c =>
      let call := (m.pools c).alloc id
      (call.result.bind (placement.element c)).map fun p =>
        (p, { store := release c.bytes p m.store
              pools := Function.update m.pools c call.pool })

/-- `FreePacket` of a packet whose `_maxSize` is `size`.  The element that
`Free` finds for a pointer is the one it points to. -/
def freePacket (size : UInt32) (m : PlacedPools placement S)
    (inPacket : Address placement.platform) : PlacedPools placement S :=
  match sizeClassOf size.toNat with
  | none => m
  | some c =>
    let call := (m.pools c).free id
      ((placement.indexOf c inPacket).getD (m.pools c).queueSize.toNat)
    { store := if call.released.isEmpty then m.store
        else release c.bytes inPacket m.store
      pools := Function.update m.pools c call.pool }

end

/-! ## The same code on two stores -/

section

variable {T : Type*} {release : UInt32 → Address placement.platform → S → S}
  {release' : UInt32 → Address placement.platform → T → T}
  {m m' : PlacedPools placement S} {k : PlacedPools placement T}
  {inSize : UInt32} {p : Address placement.platform}

/-- Which packet `AllocPacket` hands out depends on the cursors alone. -/
theorem allocPacket_fst (hpools : m.pools = k.pools) :
    (allocPacket release m inSize).map Prod.fst =
      (allocPacket release' k inSize).map Prod.fst := by
  unfold allocPacket
  rw [hpools]
  split
  · rfl
  · split
    · rfl
    · simp only [Option.map_map]
      rfl

/-- `AllocPacket` runs `Release()` on the element that it hands out. -/
theorem allocPacket_same (hpools : m.pools = k.pools)
    (h : allocPacket release m inSize = some (p, m')) :
    ∃ c i k', placement.element c i = some p ∧
      allocPacket release' k inSize = some (p, k') ∧
      m'.store = release c.bytes p m.store ∧
      k'.store = release' c.bytes p k.store ∧ m'.pools = k'.pools := by
  unfold allocPacket at h ⊢
  rw [← hpools]
  split at h
  · cases h
  · next hsize =>
    rw [if_neg hsize]
    split at h
    · cases h
    · next c _ =>
      obtain ⟨q, hq, heq⟩ := Option.map_eq_some_iff.mp h
      obtain ⟨rfl, rfl⟩ := Prod.mk.inj heq
      obtain ⟨i, -, helement⟩ := Option.bind_eq_some_iff.mp hq
      simp only [hq, Option.map_some]
      exact ⟨c, i, _, helement, rfl, rfl, rfl, rfl⟩

/-- `FreePacket` leaves the elements alone, or runs `Release()` on the one that
it is given. -/
theorem freePacket_same (hpools : m.pools = k.pools) (size : UInt32)
    (p : Address placement.platform) :
    (freePacket release size m p).pools =
        (freePacket release' size k p).pools ∧
      ((freePacket release size m p).store = m.store ∧
          (freePacket release' size k p).store = k.store ∨
        ∃ c i, placement.element c i = some p ∧
          (freePacket release size m p).store = release c.bytes p m.store ∧
          (freePacket release' size k p).store =
            release' c.bytes p k.store) := by
  unfold freePacket
  rw [hpools]
  split
  · exact ⟨hpools, Or.inl ⟨rfl, rfl⟩⟩
  · next c _ =>
    refine ⟨rfl, ?_⟩
    cases hindex : placement.indexOf c p with
    | none =>
        refine Or.inl ?_
        simp only [Option.getD_none,
          AtomicStaticPool.free_unknown (Nat.lt_irrefl _), List.isEmpty_nil,
          if_true, and_self]
    | some i =>
        simp only [Option.getD_some]
        split
        · exact Or.inl ⟨rfl, rfl⟩
        · exact Or.inr ⟨c, i, indexOf_eq_some_iff.mp hindex, rfl, rfl⟩

end

end PlacedPools

/-! ## A table of records -/

namespace PacketRecords

variable {placement : PacketPlacement}

/-- `Release()` of the packet at `p`. -/
def release (SIZE : UInt32) (p : Address placement.platform)
    (records : PacketTable placement) : PacketTable placement :=
  Function.update records p ((records p).release SIZE)

instance : PacketPools (PacketRecords placement)
    (Address placement.platform) where
  packet k p := k.store p
  assign k p v := { k with store := Function.update k.store p v }
  capacity p := placement.capacity p
  allocPacket k inSize := PlacedPools.allocPacket release k inSize
  freePacket k p := PlacedPools.freePacket release (k.store p).maxSize k p

instance : LawfulPacketPools (PacketRecords placement)
    (Address placement.platform) where
  packet_assign k p q v := Function.update_apply k.store p v q
  packet_alloc {k k' inSize p} halloc q := by
    obtain ⟨c, i, -, helement, -, hstore, -⟩ :=
      @PlacedPools.allocPacket_same _ _ _ release release k k' k inSize p rfl
        halloc
    change k'.store q = if q = p then
      (k.store p).release (placement.capacity p) else k.store q
    rw [hstore, release, Function.update_apply, capacity_of_element helement]
  packet_free {k p q} hne := by
    change (PlacedPools.freePacket release (k.store p).maxSize k p).store q =
      k.store q
    rcases (@PlacedPools.freePacket_same _ _ _ release release k k rfl
      (k.store p).maxSize p).2 with ⟨hstore, -⟩ | ⟨c, i, -, hstore, -⟩
    · rw [hstore]
    · rw [hstore, release, Function.update_of_ne hne]

end PacketRecords

/-! ## Bytes -/

namespace PacketMemory

variable {placement : PacketPlacement}

/-- `_buffer` of the packet at `p`. -/
def loadBuffer (bytes : Region UInt8) (p : Address placement.platform) : ℕ :=
  natOfBytes (bytes.read (p.value + placement.platform.bufferAt)
    placement.platform.pointerBytes)

def storeBuffer (bytes : Region UInt8) (p : Address placement.platform)
    (buffer : ℕ) : Region UInt8 :=
  bytes.write (p.value + placement.platform.bufferAt)
    (bytesOfNat placement.platform.pointerBytes buffer)

/-- The other fields of the packet at `p`. -/
def loadFields (bytes : Region UInt8) (p : Address placement.platform) :
    List UInt8 :=
  bytes.read (p.value + placement.platform.fieldsAt)
    placement.platform.fieldsBytes

def storeFields (bytes : Region UInt8) (p : Address placement.platform)
    (v : PacketInterface (Address placement.platform)) : Region UInt8 :=
  bytes.write (p.value + placement.platform.fieldsAt)
    (encodePacket (loadFields bytes p) v)

/-- `&buf` of the packet at `p`. -/
def bufOf (p : Address placement.platform) : ℕ :=
  p.value + placement.platform.bufAt

def loadPacket (bytes : Region UInt8) (p : Address placement.platform) :
    PacketInterface (Address placement.platform) :=
  decodePacket (bytes.shift (loadBuffer bytes p)) (loadFields bytes p)

/-- Store what changes behind `_buffer`, then the fields. -/
def storePacket (bytes : Region UInt8) (p : Address placement.platform)
    (v : PacketInterface (Address placement.platform)) : Region UInt8 :=
  storeFields (bytes.graft (loadBuffer bytes p) v.buffer) p v

/-- `StaticSizePacket<SIZE>::Release` of the packet at `p`. -/
def release (SIZE : UInt32) (p : Address placement.platform)
    (bytes : Region UInt8) : Region UInt8 :=
  let bytes := storeBuffer bytes p (bufOf p)
  storePacket bytes p ((loadPacket bytes p).release SIZE)

instance : PacketPools (PacketMemory placement)
    (Address placement.platform) where
  packet m p := loadPacket m.store p
  assign m p v := { m with store := storePacket m.store p v }
  capacity p := placement.capacity p
  allocPacket m inSize := PlacedPools.allocPacket release m inSize
  freePacket m p :=
    PlacedPools.freePacket release (loadPacket m.store p).maxSize m p

end PacketMemory

end DokeviNet
