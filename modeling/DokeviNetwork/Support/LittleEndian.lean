import Mathlib.Data.Nat.Digits.Lemmas

/-!
# Numbers in memory

A number of `n` bytes lies in memory with its lowest byte first.  Reading the
bytes gives a number below `256 ^ n`, and every such number comes back from the
bytes that it is stored as.
-/

namespace LittleEndian

/-- The number that the bytes hold. -/
def natOfBytes (bytes : List UInt8) : ℕ :=
  Nat.ofDigits 256 (bytes.map UInt8.toNat)

/-- The lowest `n` bytes of a number. -/
def bytesOfNat : ℕ → ℕ → List UInt8
  | 0, _ => []
  | n + 1, v => UInt8.ofNat v :: bytesOfNat n (v / 256)

@[simp] theorem bytesOfNat_length (n v : ℕ) :
    (bytesOfNat n v).length = n := by
  induction n generalizing v with
  | zero => rfl
  | succ n ih => rw [bytesOfNat, List.length_cons, ih]

theorem natOfBytes_cons (b : UInt8) (bytes : List UInt8) :
    natOfBytes (b :: bytes) = b.toNat + 256 * natOfBytes bytes :=
  Nat.ofDigits_cons

theorem natOfBytes_lt (bytes : List UInt8) :
    natOfBytes bytes < 256 ^ bytes.length := by
  have hlt := Nat.ofDigits_lt_base_pow_length (b := 256)
    (l := bytes.map UInt8.toNat) (by decide)
  rw [List.length_map] at hlt
  apply hlt
  intro digit hdigit
  obtain ⟨b, -, rfl⟩ := List.mem_map.mp hdigit
  exact b.toNat_lt

/-- A number that fits comes back. -/
theorem natOfBytes_bytesOfNat {n v : ℕ} (hlt : v < 256 ^ n) :
    natOfBytes (bytesOfNat n v) = v := by
  induction n generalizing v with
  | zero =>
      have hzero : v = 0 := by simpa using hlt
      rw [hzero]
      rfl
  | succ n ih =>
      have hhigh : v / 256 < 256 ^ n := by
        rw [pow_succ] at hlt
        exact Nat.div_lt_of_lt_mul (by rw [Nat.mul_comm]; exact hlt)
      rw [bytesOfNat, natOfBytes_cons, ih hhigh, UInt8.toNat_ofNat']
      exact Nat.mod_add_div v 256

end LittleEndian
