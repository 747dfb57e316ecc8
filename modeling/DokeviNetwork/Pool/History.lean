import DokeviNetwork.Pool.AtomicStaticPool
import DokeviNetwork.Support.Run
import Mathlib.Data.List.Nodup

/-!
# Which pool histories hand out an element twice

The pool keeps no free list: `Alloc` hands out the element at the cursor, and
the cursor only counts the elements that are out.  A caller that frees in
another order than it allocated can therefore be handed an element that is
still out.  This module follows a well-behaved caller, which frees only what
it was given and has not freed since, and says for which call sequences that
never happens.
-/

namespace DokeviNet

open LabelledRun

/-- A call on the pool. -/
inductive PoolOp
  | alloc
  | free (inElement : ℕ)
  deriving DecidableEq

/-- A pool together with the pointers its caller was given and has not freed
since. -/
structure PoolClient (T : Type*) where
  pool : AtomicStaticPool T
  outstanding : List ℕ

namespace PoolClient

variable {T : Type*} (release : T → T)

def init (inSize : UInt64) (elements : ℕ → T) : PoolClient T where
  pool := AtomicStaticPool.init inSize elements
  outstanding := []

/-- One call of a caller that frees only outstanding pointers. -/
def step (c : PoolClient T) : PoolOp → Option (PoolClient T)
  | .alloc =>
    some
      { pool := (c.pool.alloc release).pool
        outstanding :=
          c.outstanding ++ (c.pool.alloc release).result.toList }
  | .free p =>
    if p ∈ c.outstanding then
      some
        { pool := (c.pool.free release p).pool
          outstanding := c.outstanding.erase p }
    else none

/-- The call returns no outstanding pointer, and runs `Release()` on no
outstanding element but the one it is given to free. -/
def Safe (c : PoolClient T) : PoolOp → Prop
  | .alloc =>
    (∀ p ∈ (c.pool.alloc release).result.toList, p ∉ c.outstanding) ∧
      ∀ i ∈ (c.pool.alloc release).released, i ∉ c.outstanding
  | .free p =>
    ∀ i ∈ (c.pool.free release p).released, i ∈ c.outstanding → i = p

instance decidableSafe (c : PoolClient T) : ∀ op, Decidable (Safe release c op)
  | .alloc => inferInstanceAs (Decidable (_ ∧ _))
  | .free p => inferInstanceAs (Decidable
      (∀ i ∈ (c.pool.free release p).released, i ∈ c.outstanding → i = p))

end PoolClient

/-! ## Counting along a call sequence -/

/-- How a call changes the number `k` of pointers that are out, on a pool of
`n` elements. -/
def heldStep (n k : ℕ) : PoolOp → ℕ
  | .alloc => if k < n then k + 1 else k
  | .free _ => k - 1

/-- How many pointers are out after the calls `ops`. -/
def heldAfter (n : ℕ) (ops : List PoolOp) : ℕ := ops.foldl (heldStep n) 0

/-- Some call to `Alloc` was made while `k` pointers were out, and `Free` has not
been called on element `k` since. -/
def Unreturned (n : ℕ) (ops : List PoolOp) (k : ℕ) : Prop :=
  ∃ pre mid, ops = pre ++ .alloc :: mid ∧ heldAfter n pre = k ∧ k < n ∧
    PoolOp.free k ∉ mid

/-- Whenever `Alloc` is called with `k < n` pointers out, element `k` has been
freed since every earlier `Alloc` that was called with `k` pointers out. -/
def ReusesOnlyReturned (n : ℕ) (ops : List PoolOp) : Prop :=
  ∀ pre post, ops = pre ++ .alloc :: post → heldAfter n pre < n →
    ¬Unreturned n pre (heldAfter n pre)

theorem heldAfter_alloc (n : ℕ) (ops : List PoolOp) :
    heldAfter n (ops ++ [.alloc]) =
      if heldAfter n ops < n then heldAfter n ops + 1 else heldAfter n ops := by
  rw [heldAfter, List.foldl_append]
  rfl

theorem heldAfter_free (n p : ℕ) (ops : List PoolOp) :
    heldAfter n (ops ++ [.free p]) = heldAfter n ops - 1 := by
  simp [heldAfter, heldStep]

theorem unreturned_alloc {n k : ℕ} {ops : List PoolOp} :
    Unreturned n (ops ++ [.alloc]) k ↔
      Unreturned n ops k ∨ heldAfter n ops = k ∧ k < n := by
  constructor
  · rintro ⟨pre, mid, heq, hheld, hk, hfree⟩
    rcases List.eq_nil_or_concat' mid with rfl | ⟨mid, op, rfl⟩
    · obtain ⟨rfl, -⟩ := List.append_inj' heq rfl
      exact Or.inr ⟨hheld, hk⟩
    · rw [← List.cons_append, ← List.append_assoc] at heq
      obtain ⟨rfl, -⟩ := List.append_inj' heq rfl
      exact Or.inl ⟨pre, mid, rfl, hheld, hk, fun h => hfree (by simp [h])⟩
  · rintro (⟨pre, mid, rfl, hheld, hk, hfree⟩ | ⟨hheld, hk⟩)
    · exact ⟨pre, mid ++ [.alloc], by simp, hheld, hk, by simpa using hfree⟩
    · exact ⟨ops, [], rfl, hheld, hk, by simp⟩

theorem unreturned_free {n k p : ℕ} {ops : List PoolOp} :
    Unreturned n (ops ++ [.free p]) k ↔ Unreturned n ops k ∧ k ≠ p := by
  constructor
  · rintro ⟨pre, mid, heq, hheld, hk, hfree⟩
    rcases List.eq_nil_or_concat' mid with rfl | ⟨mid, op, rfl⟩
    · obtain ⟨-, hop⟩ := List.append_inj' heq rfl
      simp at hop
    · rw [← List.cons_append, ← List.append_assoc] at heq
      obtain ⟨rfl, hop⟩ := List.append_inj' heq rfl
      obtain rfl := List.singleton_inj.mp hop
      refine ⟨⟨pre, mid, rfl, hheld, hk, fun h => hfree (by simp [h])⟩, ?_⟩
      rintro rfl
      exact hfree (by simp)
  · rintro ⟨⟨pre, mid, rfl, hheld, hk, hfree⟩, hne⟩
    refine ⟨pre, mid ++ [.free p], by simp, hheld, hk, ?_⟩
    simp [hfree, hne]

/-! ## The pool along a history -/

namespace PoolClient

variable {T : Type*} {release : T → T}

/-- What every history of a well-behaved caller keeps, safe or not: the cursor
counts the outstanding pointers, and none of them is forgotten. -/
structure Tracks (n : UInt64) (past : List PoolOp) (c : PoolClient T) :
    Prop where
  size : c.pool.queueSize = n
  used : c.pool.used.toNat = c.outstanding.length
  held : heldAfter n.toNat past = c.outstanding.length
  le : c.outstanding.length ≤ n.toNat
  inPool : ∀ p ∈ c.outstanding, p < n.toNat
  unreturned : ∀ k, Unreturned n.toNat past k → k ∈ c.outstanding

theorem tracks_init (n : UInt64) (elements : ℕ → T) :
    Tracks n [] (init n elements) where
  size := rfl
  used := rfl
  held := rfl
  le := Nat.zero_le _
  inPool := by simp [init]
  unreturned := by
    rintro k ⟨pre, mid, heq, -⟩
    simp at heq

theorem Tracks.full_iff {n : UInt64} {past : List PoolOp} {c : PoolClient T}
    (h : Tracks n past c) :
    c.pool.used = c.pool.queueSize ↔ ¬heldAfter n.toNat past < n.toNat := by
  have hle := h.le
  rw [← UInt64.toNat_inj, h.used, h.size, h.held]
  omega

/-- What a call of a well-behaved caller can do. -/
theorem step_cases {c c' : PoolClient T} {op : PoolOp}
    (hstep : PoolClient.step release c op = some c') :
    (op = .alloc ∧ c.pool.used = c.pool.queueSize ∧ c' = c) ∨
      (op = .alloc ∧ c.pool.used ≠ c.pool.queueSize ∧
        c' =
          { pool :=
              { c.pool.releaseElement release c.pool.used.toNat with
                used := c.pool.used + 1 }
            outstanding := c.outstanding ++ [c.pool.used.toNat] }) ∨
      ∃ p, op = .free p ∧ p ∈ c.outstanding ∧
        c' =
          { pool := (c.pool.free release p).pool
            outstanding := c.outstanding.erase p } := by
  cases op with
  | alloc =>
      obtain rfl := Option.some.inj hstep
      by_cases hfull : c.pool.used = c.pool.queueSize
      · refine Or.inl ⟨rfl, hfull, ?_⟩
        simp [AtomicStaticPool.alloc_full hfull]
      · refine Or.inr (Or.inl ⟨rfl, hfull, ?_⟩)
        simp [AtomicStaticPool.alloc_next hfull]
  | free p =>
      obtain ⟨hp, hstep⟩ := Option.ite_none_right_eq_some.mp hstep
      exact Or.inr (Or.inr ⟨p, rfl, hp, (Option.some.inj hstep).symm⟩)

/-- `Alloc` on a full pool. -/
theorem Tracks.full {n : UInt64} {past : List PoolOp} {c : PoolClient T}
    (h : Tracks n past c) (hfull : c.pool.used = c.pool.queueSize) :
    Tracks n (past ++ [.alloc]) c := by
  have hno := h.full_iff.mp hfull
  refine ⟨h.size, h.used, ?_, h.le, h.inPool, ?_⟩
  · rw [heldAfter_alloc, if_neg hno]
    exact h.held
  · intro k hk
    rcases unreturned_alloc.mp hk with hk | ⟨hk, hlt⟩
    · exact h.unreturned k hk
    · exact absurd (hk ▸ hlt) hno

/-- `Alloc` hands out the element at the cursor. -/
theorem Tracks.next {n : UInt64} {past : List PoolOp} {c : PoolClient T}
    (h : Tracks n past c) (hfull : c.pool.used ≠ c.pool.queueSize) :
    Tracks n (past ++ [.alloc])
      { pool :=
          { c.pool.releaseElement release c.pool.used.toNat with
            used := c.pool.used + 1 }
        outstanding := c.outstanding ++ [c.pool.used.toNat] } := by
  have hroom : heldAfter n.toNat past < n.toNat :=
    not_not.mp (mt h.full_iff.mpr hfull)
  have hbound : c.pool.used.toNat ≤ c.pool.queueSize.toNat := by
    rw [h.size, h.used]
    exact h.le
  obtain ⟨hsucc, hlt⟩ := AtomicStaticPool.used_succ_toNat hbound hfull
  refine ⟨h.size, ?_, ?_, ?_, ?_, ?_⟩
  · rw [hsucc, h.used]
    simp
  · rw [heldAfter_alloc, if_pos hroom, h.held]
    simp
  · rw [List.length_append, List.length_singleton, ← h.held]
    exact hroom
  · intro p hp
    rcases List.mem_append.mp hp with hp | hp
    · exact h.inPool p hp
    · rw [List.mem_singleton.mp hp, ← h.size]
      exact hlt
  · intro k hk
    rcases unreturned_alloc.mp hk with hk | ⟨hk, -⟩
    · exact List.mem_append_left _ (h.unreturned k hk)
    · apply List.mem_append_right
      rw [List.mem_singleton, ← hk, h.held, h.used]

/-- `Free` of an outstanding element. -/
theorem Tracks.freed {n : UInt64} {past : List PoolOp} {c : PoolClient T}
    (h : Tracks n past c) {p : ℕ} (hp : p ∈ c.outstanding) :
    Tracks n (past ++ [.free p])
      { pool := (c.pool.free release p).pool
        outstanding := c.outstanding.erase p } := by
  have hin : p < c.pool.queueSize.toNat := by
    rw [h.size]
    exact h.inPool p hp
  have hused := h.used
  have hlen := List.length_erase_of_mem hp
  have hpos : 0 < c.outstanding.length := List.length_pos_of_mem hp
  rw [AtomicStaticPool.free_known hin]
  refine ⟨h.size, ?_, ?_, ?_, ?_, ?_⟩
  · rw [AtomicStaticPool.used_pred_toNat (by omega), hlen, hused]
  · rw [heldAfter_free, h.held, hlen]
  · have hle := h.le
    simp only [hlen]
    omega
  · exact fun q hq => h.inPool q (List.mem_of_mem_erase hq)
  · intro k hk
    obtain ⟨hk, hne⟩ := unreturned_free.mp hk
    exact (List.mem_erase_of_ne hne).mpr (h.unreturned k hk)

theorem Tracks.step {n : UInt64} {past : List PoolOp} {c c' : PoolClient T}
    {op : PoolOp} (h : Tracks n past c)
    (hstep : PoolClient.step release c op = some c') :
    Tracks n (past ++ [op]) c' := by
  obtain ⟨rfl, hfull, rfl⟩ | ⟨rfl, hfull, rfl⟩ | ⟨p, rfl, hp, rfl⟩ :=
    step_cases hstep
  · exact h.full hfull
  · exact h.next hfull
  · exact h.freed hp

/-- As long as every call is safe the outstanding pointers are distinct, and
each of them is unreturned. -/
structure Distinct (n : UInt64) (past : List PoolOp) (c : PoolClient T) :
    Prop extends Tracks n past c where
  nodup : c.outstanding.Nodup
  known : ∀ k ∈ c.outstanding, Unreturned n.toNat past k

theorem Distinct.step {n : UInt64} {past : List PoolOp} {c c' : PoolClient T}
    {op : PoolOp} (h : Distinct n past c) (hsafe : Safe release c op)
    (hstep : PoolClient.step release c op = some c') :
    Distinct n (past ++ [op]) c' := by
  refine ⟨h.toTracks.step hstep, ?_, ?_⟩
  · obtain ⟨rfl, -, rfl⟩ | ⟨rfl, hfull, rfl⟩ | ⟨p, rfl, -, rfl⟩ :=
      step_cases hstep
    · exact h.nodup
    · have hnew : c.pool.used.toNat ∉ c.outstanding := by
        apply hsafe.1
        simp [AtomicStaticPool.alloc_next hfull]
      exact h.nodup.append (List.nodup_singleton _) (by simpa using hnew)
    · exact h.nodup.erase p
  · obtain ⟨rfl, -, rfl⟩ | ⟨rfl, hfull, rfl⟩ | ⟨p, rfl, -, rfl⟩ :=
      step_cases hstep
    · exact fun k hk => unreturned_alloc.mpr (Or.inl (h.known k hk))
    · intro k hk
      rw [unreturned_alloc]
      rcases List.mem_append.mp hk with hk | hk
      · exact Or.inl (h.known k hk)
      · have hroom := not_not.mp (mt h.full_iff.mpr hfull)
        have heq : heldAfter n.toNat past = k := by
          rw [List.mem_singleton.mp hk, h.held, h.used]
        exact Or.inr ⟨heq, heq ▸ hroom⟩
    · intro k hk
      rw [unreturned_free]
      obtain ⟨hne, hk⟩ := (h.nodup.mem_erase_iff).mp hk
      exact ⟨h.known k hk, hne⟩

theorem tracks_of_run {n : UInt64} {elements : ℕ → T} {ops : List PoolOp}
    {c : PoolClient T}
    (hrun : run (PoolClient.step release) (init n elements) ops = some c) :
    Tracks n ops c := by
  exact history_of_run (fun _ _ _ _ hinv hstep => Tracks.step hinv hstep)
    (tracks_init n elements) hrun

theorem distinct_of_run {n : UInt64} {elements : ℕ → T} {ops : List PoolOp}
    {c : PoolClient T}
    (hsafe : Along (PoolClient.step release) (Safe release)
      (init n elements) ops)
    (hrun : run (PoolClient.step release) (init n elements) ops = some c) :
    Distinct n ops c := by
  have hinit : Distinct n [] (init n elements) :=
    ⟨tracks_init n elements, List.nodup_nil, by simp [init]⟩
  exact history_of_along (fun _ _ _ _ hinv hs hstep =>
    Distinct.step hinv hs hstep) hinit hsafe hrun

/-- A free is always safe, and an alloc is exactly when the element whose
number is the count of outstanding pointers is not itself outstanding. -/
theorem Tracks.safe_iff {n : UInt64} {past : List PoolOp} {c : PoolClient T}
    (h : Tracks n past c) {op : PoolOp} :
    Safe release c op ↔
      (op = .alloc → heldAfter n.toNat past < n.toNat →
        heldAfter n.toNat past ∉ c.outstanding) := by
  cases op with
  | alloc =>
      have hheld : heldAfter n.toNat past = c.pool.used.toNat := by
        rw [h.held, h.used]
      by_cases hfull : c.pool.used = c.pool.queueSize
      · have hno := h.full_iff.mp hfull
        simp [Safe, AtomicStaticPool.alloc_full hfull, hno]
      · have hroom := not_not.mp (mt h.full_iff.mpr hfull)
        simp [Safe, AtomicStaticPool.alloc_next hfull, hheld, hheld ▸ hroom]
  | free p =>
      by_cases hin : p < c.pool.queueSize.toNat
      · simp [Safe, AtomicStaticPool.free_known hin]
      · simp [Safe, AtomicStaticPool.free_unknown hin]

/-- A history of a well-behaved caller is safe exactly when its call sequence
reuses only returned elements. -/
theorem safe_iff_reusesOnlyReturned (n : UInt64) (elements : ℕ → T)
    (ops : List PoolOp)
    (hvalid : (run (PoolClient.step release) (init n elements) ops).isSome) :
    Along (PoolClient.step release) (Safe release) (init n elements) ops ↔
      ReusesOnlyReturned n.toNat ops := by
  obtain ⟨final, hfinal⟩ := Option.isSome_iff_exists.mp hvalid
  constructor
  · rintro hsafe pre post rfl hroom hunreturned
    obtain ⟨c, hpre, -⟩ := exists_run_of_prefix hfinal
    have htracks := tracks_of_run hpre
    have hnot := htracks.safe_iff.mp (hsafe.at_step hpre) rfl hroom
    exact hnot (htracks.unreturned _ hunreturned)
  · intro hreuse
    apply along_of_prefixes
    rintro pre op post c rfl hsafe hpre
    have hdistinct := distinct_of_run hsafe hpre
    rw [hdistinct.safe_iff]
    rintro rfl hroom hmem
    exact hreuse pre post rfl hroom (hdistinct.known _ hmem)

/-- Freeing the older of two elements makes the next `Alloc` hand out, and
release, the newer one while it is still out. -/
theorem alloc_hands_out_outstanding :
    (run (PoolClient.step id) (init 1000 fun _ : ℕ => ())
        [.alloc, .alloc, .free 0, .alloc]).isSome ∧
      ¬Along (PoolClient.step id) (Safe id) (init 1000 fun _ : ℕ => ())
        [.alloc, .alloc, .free 0, .alloc] := by
  decide

/-- The rule at a history that frees the newest element first. -/
theorem safe_iff_reusesOnlyReturned_newest :
    Along (PoolClient.step id) (Safe id) (init 1000 fun _ : ℕ => ())
        [.alloc, .alloc, .free 1, .alloc] ↔
      ReusesOnlyReturned 1000 [.alloc, .alloc, .free 1, .alloc] :=
  safe_iff_reusesOnlyReturned 1000 (fun _ => ())
    [.alloc, .alloc, .free 1, .alloc] (by decide)

end PoolClient

end DokeviNet
