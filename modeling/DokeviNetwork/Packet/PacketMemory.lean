import DokeviNetwork.Packet.PacketSelector
import DokeviNetwork.Pool.ScalablePool
import DokeviNetwork.Support.LittleEndian

/-!
# The packets in memory

The elements of a pool are one array, `new T[_queueSize]`, and the buffer of a
`StaticSizePacket` is its last member: behind the buffer of one packet lie the
fields of the next.  Here the seven pools are bytes of one address space, and
a packet's buffer is all the memory from `_buffer` on, so that a store behind
its end changes whatever lies there.

The pointer to the virtual functions at the front of a packet is never read:
`Release()` is taken to be the one of the packet's class whatever lies there.
-/

namespace DokeviNet

open LittleEndian

/-! ## The layout of a packet -/

namespace Platform

/-- `sizeof(void*)`. -/
def pointerBytes : Platform → ℕ
  | win32 => 4
  | x64 => 8

variable (platform : Platform)

/-- The offset of `_buffer`, behind the pointer to the virtual functions. -/
def bufferAt : ℕ := platform.pointerBytes

/-- The offset of `_immediateSend`.  `_isSending`, two bytes of padding,
`_size`, `_remainSize`, `_maxSize` and `_next` follow. -/
def fieldsAt : ℕ := 2 * platform.pointerBytes

/-- The bytes from `_immediateSend` to the end of `_next`. -/
def fieldsBytes : ℕ := 16 + platform.pointerBytes

/-- The offset of `buf`. -/
def bufAt : ℕ := 3 * platform.pointerBytes + 16

/-- `sizeof(StaticSizePacket<SIZE>)`; no padding is needed behind `buf`. -/
def packetBytes (SIZE : UInt32) : ℕ := platform.bufAt + SIZE.toNat

end Platform

/-- A pointer that is not null. -/
structure Address (platform : Platform) where
  value : ℕ
  pos : 0 < value
  lt : value < 256 ^ platform.pointerBytes
  deriving DecidableEq

section

variable {platform : Platform}

/-- The pointer that the first bytes hold. -/
def addressOfBytes (bytes : List UInt8) : Option (Address platform) :=
  if hpos : 0 < natOfBytes (bytes.take platform.pointerBytes) then
    some
      { value := natOfBytes (bytes.take platform.pointerBytes)
        pos := hpos
        lt := lt_of_lt_of_le (natOfBytes_lt _)
          (Nat.pow_le_pow_right (by decide) (List.length_take_le _ _)) }
  else none

def bytesOfAddress (p : Option (Address platform)) : List UInt8 :=
  bytesOfNat platform.pointerBytes (p.elim 0 Address.value)

@[simp] theorem bytesOfAddress_length (p : Option (Address platform)) :
    (bytesOfAddress p).length = platform.pointerBytes :=
  bytesOfNat_length _ _

theorem addressOfBytes_bytesOfAddress (p : Option (Address platform)) :
    addressOfBytes (bytesOfAddress p) = p := by
  have htake : (bytesOfAddress p).take platform.pointerBytes =
      bytesOfAddress p := List.take_of_length_le (by simp)
  unfold addressOfBytes
  cases p with
  | none =>
      have hzero : natOfBytes (bytesOfAddress (none : Option (Address platform)))
          = 0 := natOfBytes_bytesOfNat (Nat.pos_of_ne_zero (by simp))
      simp only [htake, hzero, Nat.lt_irrefl, dite_false]
  | some a =>
      have hvalue : natOfBytes (bytesOfAddress (some a)) = a.value :=
        natOfBytes_bytesOfNat a.lt
      simp only [htake, hvalue, a.pos, dite_true]

/-- The byte of a `bool` that becomes `b`; one that is `b` already stays. -/
def byteOfBool (old : UInt8) (b : Bool) : UInt8 :=
  if (old != 0) = b then old else if b then 1 else 0

@[simp] theorem byteOfBool_ne_zero (old : UInt8) (b : Bool) :
    (byteOfBool old b != 0) = b := by
  unfold byteOfBool
  split
  · assumption
  · cases b <;> rfl

/-- A packet by the bytes from `_immediateSend` on. -/
def decodePacket (buffer : Region UInt8) (fields : List UInt8) :
    PacketInterface (Address platform) where
  buffer := buffer
  immediateSend := fields.getD 0 0 != 0
  isSending := fields.getD 1 0 != 0
  size := sizeOfBytes (fields.drop 4)
  remainSize := sizeOfBytes (fields.drop 8)
  maxSize := sizeOfBytes (fields.drop 12)
  next := addressOfBytes (fields.drop 16)

/-- The bytes from `_immediateSend` on after the fields have been stored over
`old`; the padding stays. -/
def encodePacket (old : List UInt8) (v : PacketInterface (Address platform)) :
    List UInt8 :=
  [byteOfBool (old.getD 0 0) v.immediateSend,
      byteOfBool (old.getD 1 0) v.isSending, old.getD 2 0, old.getD 3 0] ++
    (sizeBytes v.size ++ (sizeBytes v.remainSize ++
      (sizeBytes v.maxSize ++ bytesOfAddress v.next)))

@[simp] theorem encodePacket_length (old : List UInt8)
    (v : PacketInterface (Address platform)) :
    (encodePacket old v).length = platform.fieldsBytes := by
  simp only [encodePacket, List.length_append, List.length_cons,
    List.length_nil, sizeBytes_length, bytesOfAddress_length,
    Platform.fieldsBytes]
  omega

/-- What is stored is loaded again. -/
theorem decodePacket_encodePacket (buffer : Region UInt8) (old : List UInt8)
    (v : PacketInterface (Address platform)) :
    decodePacket buffer (encodePacket old v) = { v with buffer := buffer } := by
  have hsize : ∀ (n : UInt32) rest,
      sizeOfBytes (sizeBytes n ++ rest) = n := by
    intro n rest
    rw [sizeOfBytes_append _ (by rw [sizeBytes_length]),
      sizeOfBytes_sizeBytes]
  have himmediate := byteOfBool_ne_zero (old.getD 0 0) v.immediateSend
  have hsending := byteOfBool_ne_zero (old.getD 1 0) v.isSending
  have h4 : (encodePacket old v).drop 4 = sizeBytes v.size ++
      (sizeBytes v.remainSize ++ (sizeBytes v.maxSize ++
        bytesOfAddress v.next)) := rfl
  have h8 : (encodePacket old v).drop 8 = sizeBytes v.remainSize ++
      (sizeBytes v.maxSize ++ bytesOfAddress v.next) := rfl
  have h12 : (encodePacket old v).drop 12 =
      sizeBytes v.maxSize ++ bytesOfAddress v.next := rfl
  have h16 : (encodePacket old v).drop 16 = bytesOfAddress v.next := rfl
  simp only [decodePacket, h4, h8, h12, h16, hsize,
    addressOfBytes_bytesOfAddress, PacketInterface.mk.injEq, true_and,
    and_true]
  exact ⟨himmediate, hsending⟩

end

/-! ## Where the pools lie -/

/-- Where `InitPacketSelector` has put the arrays of 1000 packets each. -/
structure PacketPlacement where
  platform : Platform
  base : SizeClass → ℕ
  base_pos : ∀ c, 0 < base c
  inside : ∀ c, base c + 1000 * platform.packetBytes c.bytes ≤
    256 ^ platform.pointerBytes
  apart : ∀ c d, c ≠ d →
    Region.Apart (base c) (1000 * platform.packetBytes c.bytes)
      (base d) (1000 * platform.packetBytes d.bytes)

namespace PacketPlacement

variable (placement : PacketPlacement)

/-- `sizeof` of the packets of a pool. -/
def stride (c : SizeClass) : ℕ := placement.platform.packetBytes c.bytes

theorem stride_pos (c : SizeClass) : 0 < placement.stride c := by
  unfold stride Platform.packetBytes Platform.bufAt
  omega

/-- An element of a pool ends within its array. -/
theorem element_end {c : SizeClass} {i : ℕ} (hi : i < 1000) :
    i * placement.stride c + placement.stride c ≤
      1000 * placement.stride c := by
  rw [← Nat.succ_mul]
  exact Nat.mul_le_mul_right _ hi

/-- `&_memory[i]`, for an index of the array. -/
def element (c : SizeClass) (i : ℕ) : Option (Address placement.platform) :=
  if hi : i < 1000 then
    some
      { value := placement.base c + i * placement.stride c
        pos := Nat.add_pos_left (placement.base_pos c) _
        lt := by
          have hinside := placement.inside c
          have hend := @element_end placement c i hi
          have hpos := placement.stride_pos c
          unfold stride at hend hpos ⊢
          omega }
  else none

/-- The only index that a pointer can have in the array of a pool. -/
def indexAt (c : SizeClass) (p : Address placement.platform) : ℕ :=
  (p.value - placement.base c) / placement.stride c

/-- Look an element pointer up in `_memoryIndicate`. -/
def indexOf (c : SizeClass) (p : Address placement.platform) : Option ℕ :=
  if placement.element c (placement.indexAt c p) = some p then
    some (placement.indexAt c p)
  else none

variable {placement} {c d : SizeClass} {i j : ℕ}
  {p q : Address placement.platform}

theorem element_eq_some_iff :
    placement.element c i = some p ↔
      i < 1000 ∧ p.value = placement.base c + i * placement.stride c := by
  unfold element
  split
  · next hi =>
    cases p
    simp only [Option.some.injEq, Address.mk.injEq, hi, true_and, eq_comm]
  · next hi => simp [hi]

theorem indexOf_eq_some_iff :
    placement.indexOf c p = some i ↔ placement.element c i = some p := by
  unfold indexOf
  constructor
  · intro hfound
    split at hfound
    · next helement => exact Option.some.inj hfound ▸ helement
    · cases hfound
  · intro helement
    have hindex : placement.indexAt c p = i := by
      rw [indexAt, (element_eq_some_iff.mp helement).2,
        Nat.add_sub_cancel_left, Nat.mul_div_cancel _ (placement.stride_pos c)]
    rw [hindex, if_pos helement]

/-- The pool whose element a pointer is. -/
def classOf (placement : PacketPlacement) (p : Address placement.platform) :
    Option SizeClass :=
  SizeClass.all.find? fun c => (placement.indexOf c p).isSome

/-- `SIZE` of the packet a pointer points to. -/
def capacity (placement : PacketPlacement) (p : Address placement.platform) :
    UInt32 :=
  ((placement.classOf p).map SizeClass.bytes).getD 0

/-- Different elements do not overlap. -/
theorem apart_of_ne (hp : placement.element c i = some p)
    (hq : placement.element d j = some q) (hne : p ≠ q) :
    Region.Apart p.value (placement.stride c) q.value
      (placement.stride d) := by
  obtain ⟨hi, hpvalue⟩ := element_eq_some_iff.mp hp
  obtain ⟨hj, hqvalue⟩ := element_eq_some_iff.mp hq
  rw [hpvalue, hqvalue]
  by_cases hcd : c = d
  · subst hcd
    have hij : i ≠ j := by
      rintro rfl
      exact hne (Option.some.inj (hp.symm.trans hq))
    rcases Nat.lt_or_gt_of_ne hij with hlt | hgt
    · have hle := Nat.mul_le_mul_right (placement.stride c) hlt
      rw [Nat.succ_mul] at hle
      exact Or.inl (by omega)
    · have hle := Nat.mul_le_mul_right (placement.stride c) hgt
      rw [Nat.succ_mul] at hle
      exact Or.inr (by omega)
  · have hpend := @element_end placement c i hi
    have hqend := @element_end placement d j hj
    exact (placement.apart c d hcd).mono ⟨by omega, by
      unfold stride at hpend ⊢; omega⟩ ⟨by omega, by
      unfold stride at hqend ⊢; omega⟩

/-- No element belongs to two pools. -/
theorem class_unique (hp : placement.element c i = some p)
    (hp' : placement.element d j = some p) : c = d := by
  by_contra hcd
  obtain ⟨hi, hvalue⟩ := element_eq_some_iff.mp hp
  obtain ⟨hj, hvalue'⟩ := element_eq_some_iff.mp hp'
  have hend := @element_end placement c i hi
  have hend' := @element_end placement d j hj
  have hpos := placement.stride_pos c
  have hpos' := placement.stride_pos d
  have hapart := placement.apart c d hcd
  unfold Region.Apart at hapart
  unfold stride at *
  omega

theorem capacity_of_element (hp : placement.element c i = some p) :
    placement.capacity p = c.bytes := by
  have hfound : placement.classOf p = some c := by
    cases hclass : placement.classOf p with
    | none =>
        have hnone := List.find?_eq_none.mp hclass c (SizeClass.mem_all c)
        rw [indexOf_eq_some_iff.mpr hp] at hnone
        exact absurd rfl hnone
    | some d =>
        have hsome := List.find?_some hclass
        obtain ⟨j, hj⟩ := Option.isSome_iff_exists.mp hsome
        rw [class_unique hp (indexOf_eq_some_iff.mp hj)]
  rw [capacity, hfound]
  rfl

end PacketPlacement

end DokeviNet
