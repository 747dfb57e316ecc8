import Mathlib.Data.Nat.ModEq

/-!
# Counters that wrap, reduced to slots

A counter runs freely below `M` and starts again at 0; what it counts is kept
in the `n` slots that the counter modulo `n` names.  As long as the counter does
not start again, `n` successive values name different slots.  Where it does, two
values whose distance is `M` modulo `n` name the same one.
-/

namespace WrappingCounter

variable {M n t d : ℕ}

/-- The slot of the `t`-th value of a counter below `M`. -/
def slot (M n t : ℕ) : ℕ := t % M % n

/-- Two values less than `n` apart share their slot only across the start of the
counter, and only at one distance. -/
theorem slot_add_eq_iff (hpos : 0 < d) (hlt : d < n) (hle : n ≤ M) :
    slot M n (t + d) = slot M n t ↔ d = M % n ∧ (t + d) % M < d := by
  have hM : 0 < M := by omega
  have ht := Nat.mod_lt t hM
  have hsum : (t + d) % M = (t % M + d) % M := (Nat.mod_add_mod t M d).symm
  unfold slot
  by_cases hwrap : t % M + d < M
  · -- the counter does not start again in between
    rw [hsum, Nat.mod_eq_of_lt hwrap]
    constructor
    · intro heq
      have hzero : d ≡ 0 [MOD n] := Nat.ModEq.add_left_cancel' (t % M) heq
      have hdvd := (Nat.modEq_zero_iff_dvd).mp hzero
      exact absurd (Nat.le_of_dvd hpos hdvd) (Nat.not_le_of_lt hlt)
    · rintro ⟨-, hless⟩
      omega
  · have hagain : (t % M + d) % M = t % M + d - M := by
      rw [Nat.mod_eq_sub_mod (Nat.le_of_not_lt hwrap),
        Nat.mod_eq_of_lt (by omega)]
    have hless : t % M + d - M < d := by omega
    rw [hsum, hagain, and_iff_left hless]
    have hback : t % M + d - M + M = t % M + d :=
      Nat.sub_add_cancel (Nat.le_of_not_lt hwrap)
    constructor
    · intro heq
      have hsame : t % M + d ≡ t % M + M [MOD n] :=
        hback ▸ Nat.ModEq.add_right M heq
      have hmod : d % n = M % n := Nat.ModEq.add_left_cancel' (t % M) hsame
      rwa [Nat.mod_eq_of_lt hlt] at hmod
    · intro heq
      have hmod : d ≡ M [MOD n] := by
        rw [heq]
        exact Nat.mod_modEq M n
      have hsame : t % M + d - M + M ≡ t % M + M [MOD n] :=
        hback.symm ▸ Nat.ModEq.add_left (t % M) hmod
      exact Nat.ModEq.add_right_cancel' M hsame

/-- The counter starts again one slot early. -/
theorem dvd_add_one_iff (hpos : 0 < n) : n ∣ M + 1 ↔ M % n + 1 = n := by
  obtain ⟨n, rfl⟩ := Nat.exists_eq_succ_of_ne_zero hpos.ne'
  rw [Nat.dvd_iff_mod_eq_zero, Nat.succ_mod_succ_eq_zero_iff]
  exact Nat.succ_inj.symm

/-! ## Counters of 32 bits -/

section

variable {x : UInt32} {k : ℕ}

/-- What a counter shows that has counted to `k`. -/
theorem toNat_add_one (hx : x.toNat = k % 2 ^ 32) :
    (x + 1).toNat = (k + 1) % 2 ^ 32 := by
  rw [UInt32.toNat_add, hx, UInt32.toNat_one, Nat.mod_add_mod]

theorem toNat_add_one_of_lt (hlt : x.toNat + 1 < 2 ^ 32) :
    (x + 1).toNat = x.toNat + 1 := by
  rw [UInt32.toNat_add, UInt32.toNat_one, Nat.mod_eq_of_lt hlt]

theorem toNat_sub_one (hpos : 0 < x.toNat) :
    (x - 1).toNat = x.toNat - 1 := by
  have hone : (1 : UInt32) ≤ x := by
    rw [UInt32.le_iff_toNat_le, UInt32.toNat_one]
    exact hpos
  rw [UInt32.toNat_sub_of_le _ _ hone, UInt32.toNat_one]

end

/-- A counter of 16 bits goes on to the next number exactly if it has room. -/
theorem toNat_add_one_iff (x : UInt16) :
    (x + 1).toNat = x.toNat + 1 ↔ x.toNat + 1 < 2 ^ 16 := by
  have hlt := x.toNat_lt
  rw [UInt16.toNat_add, UInt16.toNat_one]
  omega

/-- An `int` shows an `unsigned int` below `2 ^ 31` as it is, and no other. -/
theorem toInt_toInt32_iff (x : UInt32) :
    x.toInt32.toInt = x.toNat ↔ x.toNat < 2 ^ 31 := by
  have hlt := x.toNat_lt
  change x.toBitVec.toInt = x.toBitVec.toNat ↔ x.toBitVec.toNat < 2 ^ 31
  rw [BitVec.toInt_eq_toNat_cond]
  split
  · omega
  · omega

end WrappingCounter
