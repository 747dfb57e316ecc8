import DokeviNetwork.Packet.PacketInterface
import DokeviNetwork.Pool.AtomicStaticPool

/-!
# The seven packet pools

`PacketSelector` owns one pool for each packet size.  `AllocPacket` picks the pool by the
requested size and `FreePacket` by the packet's `_maxSize`, both with the same
chain of comparisons.
-/

namespace DokeviNet

/-- The pools `_packet64` to `_packet4096`. -/
inductive SizeClass
  | packet64
  | packet128
  | packet256
  | packet512
  | packet1024
  | packet2048
  | packet4096
  deriving DecidableEq, Repr

/-- The seven pools. -/
def SizeClass.all : List SizeClass :=
  [packet64, packet128, packet256, packet512, packet1024, packet2048,
    packet4096]

theorem SizeClass.mem_all (c : SizeClass) : c ∈ SizeClass.all := by
  cases c <;> decide

/-- The template argument `SIZE` of the packets in a pool. -/
def SizeClass.bytes : SizeClass → UInt32
  | packet64 => 64
  | packet128 => 128
  | packet256 => 256
  | packet512 => 512
  | packet1024 => 1024
  | packet2048 => 2048
  | packet4096 => 4096

/-- The comparisons of `AllocPacket` and `FreePacket`; `none` is their last
`else`. -/
def sizeClassOf (size : ℕ) : Option SizeClass :=
  if size ≤ 64 then some .packet64
  else if size > 64 ∧ size ≤ 128 then some .packet128
  else if size > 128 ∧ size ≤ 256 then some .packet256
  else if size > 256 ∧ size ≤ 512 then some .packet512
  else if size > 512 ∧ size ≤ 1024 then some .packet1024
  else if size > 1024 ∧ size ≤ 2048 then some .packet2048
  else if size > 2048 ∧ size ≤ 4096 then some .packet4096
  else none

theorem le_bytes_of_sizeClassOf {size : ℕ} {c : SizeClass}
    (h : sizeClassOf size = some c) : size ≤ c.bytes.toNat := by
  unfold sizeClassOf at h
  split_ifs at h <;> obtain rfl := Option.some.inj h <;>
    simp only [SizeClass.bytes, UInt32.reduceToNat] <;> omega

@[simp] theorem sizeClassOf_bytes (c : SizeClass) :
    sizeClassOf c.bytes.toNat = some c := by
  cases c <;> rfl

/-- A packet pointer: an element of one of the pools. -/
structure PacketId where
  pool : SizeClass
  index : ℕ
  deriving DecidableEq, Repr

/-- The static members of `PacketSelector`. -/
abbrev PacketSelector := SizeClass → AtomicStaticPool (PacketInterface PacketId)

namespace PacketSelector

/-- `InitPacketSelector`; the packets hold whatever their storage held. -/
def initPacketSelector (contents : PacketId → PacketInterface PacketId) :
    PacketSelector :=
  fun c => AtomicStaticPool.init 1000 fun i => contents ⟨c, i⟩

/-- The pools right after `InitPacketSelector`, on storage that holds zeros. -/
def zeroed : PacketSelector :=
  initPacketSelector fun _ =>
    { buffer := fun _ => 0, immediateSend := false, isSending := false
      size := 0, remainSize := 0, maxSize := 0, next := none }

/-- The packet a pointer points to. -/
def packet (sel : PacketSelector) (p : PacketId) : PacketInterface PacketId :=
  (sel p.pool).memory p.index

/-- Store a packet's new contents. -/
def assign (sel : PacketSelector) (p : PacketId)
    (v : PacketInterface PacketId) : PacketSelector :=
  Function.update sel p.pool
    { sel p.pool with memory := Function.update (sel p.pool).memory p.index v }

/-- The offset of a packet in the element array of a pool, outside the array for
a packet of another pool. -/
def elementOf (sel : PacketSelector) (c : SizeClass) (p : PacketId) : ℕ :=
  if p.pool = c then p.index else (sel c).queueSize.toNat

/-- `AllocPacket`; `none` is the null pointer. -/
def allocPacket (sel : PacketSelector) (inSize : UInt32) :
    Option (PacketId × PacketSelector) :=
  if inSize > maxPacketBufSize then none
  else
    match sizeClassOf inSize.toNat with
    | none => none
    | some c =>
      let call := (sel c).alloc (PacketInterface.release c.bytes)
      call.result.map fun i => (⟨c, i⟩, Function.update sel c call.pool)

/-- `FreePacket`. -/
def freePacket (sel : PacketSelector) (inPacket : PacketId) : PacketSelector :=
  match sizeClassOf (sel.packet inPacket).maxSize.toNat with
  | none => sel
  | some c =>
    Function.update sel c
      ((sel c).free (PacketInterface.release c.bytes)
        (sel.elementOf c inPacket)).pool

/-- The element a successful `AllocPacket` hands out is the one at the cursor
of the pool for that size, and that pool was not full. -/
theorem allocPacket_eq_some {sel sel' : PacketSelector} {inSize : UInt32}
    {p : PacketId} (h : sel.allocPacket inSize = some (p, sel')) :
    sizeClassOf inSize.toNat = some p.pool ∧
      p.index = (sel p.pool).used.toNat ∧
      (sel p.pool).used ≠ (sel p.pool).queueSize ∧
      sel' = Function.update sel p.pool
        { (sel p.pool).releaseElement (PacketInterface.release p.pool.bytes)
            p.index with used := (sel p.pool).used + 1 } := by
  unfold allocPacket at h
  split at h
  · cases h
  · split at h
    · cases h
    · next c hc =>
      by_cases hfull : (sel c).used = (sel c).queueSize
      · simp [AtomicStaticPool.alloc_full hfull] at h
      · simp only [AtomicStaticPool.alloc_next hfull, Option.map_some,
          Option.some.injEq, Prod.mk.injEq] at h
        obtain ⟨rfl, rfl⟩ := h
        exact ⟨hc, rfl, hfull, rfl⟩

/-- Freeing a packet whose `_maxSize` is that of its pool returns it there. -/
theorem freePacket_eq {sel : PacketSelector} {p : PacketId}
    (hmax : (sel.packet p).maxSize = p.pool.bytes)
    (hin : p.index < (sel p.pool).queueSize.toNat) :
    sel.freePacket p = Function.update sel p.pool
      { (sel p.pool).releaseElement (PacketInterface.release p.pool.bytes)
          p.index with used := (sel p.pool).used - 1 } := by
  simp [freePacket, hmax, elementOf, AtomicStaticPool.free_known hin]

theorem packet_update (sel : PacketSelector) (c : SizeClass)
    (pool : AtomicStaticPool (PacketInterface PacketId)) (q : PacketId) :
    packet (Function.update sel c pool) q =
      if q.pool = c then pool.memory q.index else sel.packet q := by
  unfold packet
  by_cases h : q.pool = c
  · subst h
    simp
  · simp [h]

instance : PacketPools PacketSelector PacketId where
  packet := packet
  assign := assign
  capacity p := p.pool.bytes
  allocPacket := allocPacket
  freePacket := freePacket

theorem packet_assign (sel : PacketSelector) (p q : PacketId)
    (v : PacketInterface PacketId) :
    (sel.assign p v).packet q = if q = p then v else sel.packet q := by
  rw [assign, packet_update]
  by_cases hpool : q.pool = p.pool
  · by_cases hindex : q.index = p.index
    · have hq : q = p := by
        cases q
        cases p
        simp_all
      simp [hq]
    · have hq : q ≠ p := fun h => hindex (h ▸ rfl)
      simp [hpool, hindex, hq, packet]
  · have hq : q ≠ p := fun h => hpool (h ▸ rfl)
    simp [hpool, hq]

/-- Releasing an element and moving the cursor changes that packet alone. -/
theorem packet_update_releaseElement (sel : PacketSelector) (p q : PacketId)
    (SIZE : UInt32) (used : UInt64) :
    packet (Function.update sel p.pool
        { (sel p.pool).releaseElement (PacketInterface.release SIZE)
            p.index with used := used }) q =
      if q = p then (sel.packet p).release SIZE else sel.packet q := by
  have h := sel.packet_assign p q ((sel.packet p).release SIZE)
  rw [assign, packet_update] at h
  rw [packet_update]
  exact h

instance : LawfulPacketPools PacketSelector PacketId where
  packet_assign := packet_assign
  packet_alloc {sel sel' inSize p} halloc q := by
    obtain ⟨-, -, -, rfl⟩ := allocPacket_eq_some halloc
    exact packet_update_releaseElement sel p q _ _
  packet_free {sel p q} hne := by
    change (sel.freePacket p).packet q = sel.packet q
    unfold freePacket
    split
    · rfl
    · next c _ =>
      rw [packet_update]
      by_cases hin : sel.elementOf c p < (sel c).queueSize.toNat
      · have hpool : p.pool = c := by
          by_contra hother
          simp [elementOf, hother] at hin
        subst hpool
        have hfree := packet_update_releaseElement sel p q p.pool.bytes
          ((sel p.pool).used - 1)
        rw [packet_update, if_neg hne] at hfree
        have helement : sel.elementOf p.pool p = p.index := by
          simp [elementOf]
        rw [helement] at hin ⊢
        rw [AtomicStaticPool.free_known hin]
        exact hfree
      · rw [AtomicStaticPool.free_unknown hin]
        split
        · next hq => rw [packet, hq]
        · rfl

end PacketSelector

end DokeviNet
