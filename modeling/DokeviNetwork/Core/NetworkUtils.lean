import DokeviNetwork.Support.Region
import DokeviNetwork.Support.Framing
import Mathlib.Algebra.Ring.Nat
import Mathlib.Tactic.Common
import Mathlib.Tactic.IntervalCases

/-!
# Byte arrays and the four-byte size

The helpers of `NetworkUtils` store and load an `unsigned int` at the front of a
byte array.  The target is x86, so the four bytes are in little-endian order.
-/

namespace DokeviNet

/-- `MAX_PACKET_BUF_SIZE` of `pch.h`. -/
def maxPacketBufSize : UInt32 := 4096

/-- The bytes of an `unsigned int` in memory. -/
def sizeBytes (n : UInt32) : List UInt8 :=
  [UInt8.ofNat n.toNat, UInt8.ofNat (n.toNat / 256),
    UInt8.ofNat (n.toNat / 65536), UInt8.ofNat (n.toNat / 16777216)]

/-- The `unsigned int` that the first four bytes of `s` hold. -/
def sizeOfBytes (s : List UInt8) : UInt32 :=
  UInt32.ofNat ((s.getD 0 0).toNat + 256 * (s.getD 1 0).toNat +
    65536 * (s.getD 2 0).toNat + 16777216 * (s.getD 3 0).toNat)

@[simp] theorem sizeBytes_length (n : UInt32) : (sizeBytes n).length = 4 := rfl

@[simp] theorem sizeOfBytes_sizeBytes (n : UInt32) :
    sizeOfBytes (sizeBytes n) = n := by
  have hlt : n.toNat < 4294967296 := n.toNat_lt
  apply UInt32.toNat_inj.mp
  simp only [sizeOfBytes, sizeBytes, List.getD_cons_zero,
    List.getD_cons_succ, UInt8.toNat_ofNat', UInt32.toNat_ofNat']
  omega

theorem sizeOfBytes_append {s : List UInt8} (t : List UInt8)
    (hs : 4 ≤ s.length) : sizeOfBytes (s ++ t) = sizeOfBytes s := by
  have hget : ∀ i < 4, (s ++ t).getD i 0 = s.getD i 0 := by
    intro i hi
    simp [List.getD_eq_getElem?_getD, List.getElem?_append_left
      (show i < s.length by omega)]
  simp only [sizeOfBytes, hget 0 (by omega), hget 1 (by omega),
    hget 2 (by omega), hget 3 (by omega)]

theorem sizeOfBytes_take {s : List UInt8} {k : ℕ} (hk : 4 ≤ k)
    (hs : 4 ≤ s.length) : sizeOfBytes (s.take k) = sizeOfBytes s := by
  rw [← sizeOfBytes_append (s.drop k) (by rw [List.length_take]; omega),
    List.take_append_drop]

/-- `NetworkUtils::SetSizeOnByteArrayFront` at offset `pos` of a byte array: store
the size there and return the position after it. -/
def setSizeOnByteArrayFront (inByteArray : Region UInt8) (pos : ℕ)
    (inSize : UInt32) : Region UInt8 × ℕ :=
  (inByteArray.write pos (sizeBytes inSize), pos + 4)

/-- `NetworkUtils::GetSizeInByteArray`. -/
def getSizeInByteArray (inByteArray : Region UInt8) : UInt32 :=
  sizeOfBytes (inByteArray.read 0 4)

theorem getSizeInByteArray_eq {m : Region UInt8} {n : ℕ} (hn : 4 ≤ n) :
    getSizeInByteArray m = sizeOfBytes (m.read 0 n) := by
  rw [getSizeInByteArray, ← sizeOfBytes_take (s := m.read 0 n) (k := 4)
    (by omega) (by simpa using hn), Region.read_take, Nat.min_eq_left hn]

/-- The 32-bit length at the front of a byte stream. -/
def lengthField (s : List UInt8) : ℕ := (sizeOfBytes s).toNat

theorem lengthField_headerOnly : Framing.HeaderOnly 4 lengthField := by
  intro s t hs
  rw [lengthField, lengthField, sizeOfBytes_append t hs]

end DokeviNet
