import DokeviNetwork.Pool.History
import Mathlib.Algebra.Group.Nat.Defs

/-!
# Which mistaken frees the pool rejects

`Free` looks its argument up among the addresses of the elements, so it
rejects a pointer that is not from the pool.  It does not know which elements
are out.  This module lets the caller free any pointer at any time and says
for which histories the pool nevertheless keeps its cursor in range.
-/

namespace DokeviNet

open LabelledRun

namespace PoolClient

variable {T : Type*} (release : T → T)

/-- One call with an arbitrary argument.  A pointer freed while it is not
outstanding leaves the outstanding ones as they are. -/
def anyCall (c : PoolClient T) : PoolOp → Option (PoolClient T)
  | .alloc =>
    some
      { pool := (c.pool.alloc release).pool
        outstanding :=
          c.outstanding ++ (c.pool.alloc release).result.toList }
  | .free p =>
    some
      { pool := (c.pool.free release p).pool
        outstanding := c.outstanding.erase p }

/-- The cursor is within the `n` elements before and after the call, `Alloc`
indexes one of them, and `Free` of a pointer that is not outstanding changes
neither the cursor nor an element. -/
def KeepsRange (n : UInt64) (c : PoolClient T) (op : PoolOp) : Prop :=
  c.pool.used ≤ n ∧
    match op with
    | .alloc =>
      (c.pool.alloc release).pool.used ≤ n ∧
        ∀ i ∈ (c.pool.alloc release).result, i < n.toNat
    | .free p =>
      (c.pool.free release p).pool.used ≤ n ∧
        (p ∉ c.outstanding →
          (c.pool.free release p).pool.used = c.pool.used ∧
            (c.pool.free release p).pool.memory = c.pool.memory)

/-- A pointer from the pool is freed only while it is outstanding. -/
def FreesOwn (n : UInt64) (c : PoolClient T) : PoolOp → Prop
  | .alloc => True
  | .free p => p ∈ c.outstanding ∨ ¬p < n.toNat

instance decidableFreesOwn (n : UInt64) (c : PoolClient T) :
    ∀ op, Decidable (FreesOwn n c op)
  | .alloc => isTrue trivial
  | .free _ => inferInstanceAs (Decidable (_ ∨ _))

variable {release}

/-- Apart from frees of foreign pointers, which change nothing, such a call
is one of a well-behaved caller. -/
theorem Tracks.anyCall {n : UInt64} {past : List PoolOp}
    {c c' : PoolClient T} {op : PoolOp} (h : Tracks n past c)
    (hown : FreesOwn n c op)
    (hcall : PoolClient.anyCall release c op = some c') :
    ∃ past', Tracks n past' c' := by
  cases op with
  | alloc =>
      have hstep : PoolClient.step release c .alloc = some c' := hcall
      exact ⟨past ++ [.alloc], h.step hstep⟩
  | free p =>
      by_cases hp : p ∈ c.outstanding
      · have hstep : PoolClient.step release c (.free p) = some c' := by
          rw [← hcall]
          simp [PoolClient.step, PoolClient.anyCall, hp]
        exact ⟨past ++ [.free p], h.step hstep⟩
      · have hforeign : ¬p < c.pool.queueSize.toNat := by
          rw [h.size]
          exact hown.resolve_left hp
        have hsame : c' = c := by
          rw [PoolClient.anyCall, AtomicStaticPool.free_unknown hforeign,
            List.erase_of_not_mem hp] at hcall
          exact (Option.some.inj hcall).symm
        exact ⟨past, hsame ▸ h⟩

theorem Tracks.used_le {n : UInt64} {past : List PoolOp}
    {c : PoolClient T} (h : Tracks n past c) : c.pool.used ≤ n := by
  rw [UInt64.le_iff_toNat_le, h.used]
  exact h.le

theorem Tracks.keepsRange {n : UInt64} {past : List PoolOp}
    {c : PoolClient T} {op : PoolOp} (h : Tracks n past c)
    (hown : FreesOwn n c op) : KeepsRange release n c op := by
  refine ⟨h.used_le, ?_⟩
  cases op with
  | alloc =>
      obtain ⟨past', hafter⟩ := @Tracks.anyCall T release _ _ _ _ _ h hown rfl
      refine ⟨hafter.used_le, ?_⟩
      intro i hi
      by_cases hfull : c.pool.used = c.pool.queueSize
      · simp [AtomicStaticPool.alloc_full hfull] at hi
      · have hbelow := (AtomicStaticPool.used_succ_toNat
          (by rw [h.size]; exact UInt64.le_iff_toNat_le.mp h.used_le)
          hfull).2
        obtain rfl : c.pool.used.toNat = i := by
          simpa [AtomicStaticPool.alloc_next hfull] using hi
        rw [← h.size]
        exact hbelow
  | free p =>
      obtain ⟨past', hafter⟩ := @Tracks.anyCall T release _ _ _ _ _ h hown rfl
      refine ⟨hafter.used_le, ?_⟩
      intro hp
      have hforeign : ¬p < c.pool.queueSize.toNat := by
        rw [h.size]
        exact hown.resolve_left hp
      rw [AtomicStaticPool.free_unknown hforeign]
      exact ⟨rfl, rfl⟩

theorem queueSize_anyCall {n : UInt64} {c c' : PoolClient T} {op : PoolOp}
    (h : c.pool.queueSize = n)
    (hcall : PoolClient.anyCall release c op = some c') :
    c'.pool.queueSize = n := by
  cases op with
  | alloc =>
      obtain rfl := Option.some.inj hcall
      by_cases hfull : c.pool.used = c.pool.queueSize
      · simp [AtomicStaticPool.alloc_full hfull, h]
      · simp [AtomicStaticPool.alloc_next hfull, h]
  | free p =>
      obtain rfl := Option.some.inj hcall
      by_cases hin : p < c.pool.queueSize.toNat
      · simp [AtomicStaticPool.free_known hin, h]
      · simp [AtomicStaticPool.free_unknown hin, h]

/-- The decrement always changes the cursor, by wrapping if need be. -/
theorem used_pred_ne (used : UInt64) : used - 1 ≠ used := by
  intro h
  have hnat := congrArg UInt64.toNat h
  rw [UInt64.toNat_sub, UInt64.toNat_one] at hnat
  have hlt := used.toNat_lt
  omega

/-- `Free` of an element that is not out moves the cursor all the same. -/
theorem freesOwn_of_keepsRange {n : UInt64} {c : PoolClient T} {op : PoolOp}
    (hsize : c.pool.queueSize = n) (h : KeepsRange release n c op) :
    FreesOwn n c op := by
  cases op with
  | alloc => trivial
  | free p =>
      by_cases hp : p ∈ c.outstanding
      · exact Or.inl hp
      · refine Or.inr fun hin => ?_
        have hused := (h.2.2 hp).1
        rw [AtomicStaticPool.free_known (by rw [hsize]; exact hin)] at hused
        exact absurd hused (used_pred_ne c.pool.used)

/-- The pool keeps its cursor in range and rejects every mistaken free exactly
in the histories that never free an element of the pool while it is not
out. -/
theorem keepsRange_iff_freesOwn (n : UInt64) (elements : ℕ → T)
    (ops : List PoolOp) :
    Along (anyCall release) (KeepsRange release n) (init n elements) ops ↔
      Along (anyCall release) (FreesOwn n) (init n elements) ops := by
  constructor
  · intro hkeeps
    have hsize : (init n elements).pool.queueSize = n := rfl
    exact along_of_invariant
      (fun _ _ _ hsize _ hcall => queueSize_anyCall hsize hcall)
      (fun _ _ hsize h => freesOwn_of_keepsRange hsize h) hsize hkeeps
  · intro hown
    have hkeep : ∀ (c : PoolClient T) op c', (∃ past, Tracks n past c) →
        FreesOwn n c op → anyCall release c op = some c' →
        ∃ past, Tracks n past c' := by
      rintro c op c' ⟨past, h⟩ hown hcall
      exact h.anyCall hown hcall
    refine along_of_invariant hkeep ?_ ⟨[], tracks_init n elements⟩ hown
    rintro c op ⟨past, h⟩ hown
    exact h.keepsRange hown

/-- A pointer freed twice wraps the cursor of a pool of one element, and the
next `Alloc` indexes far outside it. -/
theorem double_free_wraps :
    ¬Along (anyCall id) (KeepsRange id 1) (init 1 fun _ : ℕ => ())
        [.alloc, .free 0, .free 0] ∧
      ∃ c, run (anyCall id) (init 1 fun _ : ℕ => ())
          [.alloc, .free 0, .free 0] = some c ∧
        (c.pool.alloc id).result = some (2 ^ 64 - 1) := by
  constructor
  · intro hkeeps
    have hsecond := ((hkeeps.2 _ rfl).2 _ rfl).1
    have hown : FreesOwn 1 _ (.free 0) := freesOwn_of_keepsRange rfl hsecond
    exact absurd hown (by decide)
  · exact ⟨_, rfl, by decide⟩

end PoolClient

end DokeviNet
