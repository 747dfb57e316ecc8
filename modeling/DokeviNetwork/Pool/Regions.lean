import DokeviNetwork.Pool.ScalablePool
import DokeviNetwork.Support.Wrap
import Mathlib.Data.List.Pairwise
import Mathlib.Tactic.Common

/-!
# The numbers and the regions of the growing pool

Every number that `Pop` takes, new or pushed back, is below `_allocIndex`, and
`_allocIndex` stays within the size of the current generation.  Every region
that is not freed is the one `_memCheckArray` has for its generation, the
generations are numbered without a repetition, and the current region has room
for `_size` bytes and a header for each of its numbers.
-/

namespace DokeviNet

open WrappingCounter

namespace ScalablePool

/-! ## Numbers -/

/-- Every number the pool knows has been handed out, and the numbers handed out
fit the current generation. -/
structure Numbered (pool : ScalablePool) : Prop where
  index_le : pool.allocIndex.toNat ≤ pool.allocSize.toNat
  generation : 2 ^ pool.curGeneration.toNat ≤ pool.allocSize.toNat
  free : ∀ i ∈ pool.freeIndex, i.toNat < pool.allocIndex.toNat
  used : ∀ p i, pool.usedIndex.lookup p = some i →
    i.toNat < pool.allocIndex.toNat

/-- The next generation has a number of blocks that an `unsigned int` holds. -/
def CanDouble (pool : ScalablePool) : Prop :=
  pool.freeIndex = [] → pool.allocIndex = pool.allocSize →
    2 * pool.allocSize.toNat < 2 ^ 32

section

variable {pool : ScalablePool}

theorem Numbered.curGeneration_lt (h : Numbered pool) :
    pool.curGeneration.toNat < 32 := by
  have hlt : 2 ^ pool.curGeneration.toNat < 2 ^ 32 :=
    Nat.lt_of_le_of_lt h.generation pool.allocSize.toNat_lt
  exact (Nat.pow_lt_pow_iff_right (by decide)).mp hlt

theorem Numbered.toNat_succ_generation (h : Numbered pool) :
    (pool.curGeneration + 1).toNat = pool.curGeneration.toNat + 1 := by
  have hlt := h.curGeneration_lt
  exact toNat_add_one_of_lt (by omega)

/-- The pool grows when there is no free number and every number of the
generation has been handed out. -/
theorem Numbered.grows_iff (h : Numbered pool) (hdouble : pool.CanDouble) :
    pool.grows = true ↔
      pool.freeIndex = [] ∧ pool.allocIndex = pool.allocSize := by
  have hle := h.index_le
  have hsize := pool.allocSize.toNat_lt
  simp only [grows, Bool.and_eq_true, List.isEmpty_iff, decide_eq_true_eq,
    gt_iff_lt, UInt32.lt_iff_toNat_lt, UInt32.toNat_add, UInt32.toNat_one]
  refine and_congr_right fun hfree => ⟨fun hlt => ?_, fun heq => ?_⟩
  · apply UInt32.toNat_inj.mp
    by_contra hne
    rw [Nat.mod_eq_of_lt (by omega)] at hlt
    omega
  · have hfits := hdouble hfree heq
    rw [heq, Nat.mod_eq_of_lt (by omega)]
    omega

theorem Numbered.toNat_succ_index (h : Numbered pool)
    (hdouble : pool.CanDouble) (hfree : pool.freeIndex = []) :
    (pool.allocIndex + 1).toNat = pool.allocIndex.toNat + 1 := by
  have hle := h.index_le
  have hsize := pool.allocSize.toNat_lt
  apply toNat_add_one_of_lt
  by_cases heq : pool.allocIndex = pool.allocSize
  · have hfits := hdouble hfree heq
    rw [heq]
    omega
  · have hne : pool.allocIndex.toNat ≠ pool.allocSize.toNat :=
      fun hne => heq (UInt32.toNat_inj.mp hne)
    omega

theorem Numbered.toNat_doubled (h : Numbered pool) (hdouble : pool.CanDouble)
    (hgrows : pool.grows = true) :
    (pool.allocSize * 2).toNat = 2 * pool.allocSize.toNat := by
  obtain ⟨hfree, heq⟩ := (h.grows_iff hdouble).mp hgrows
  have hfits := hdouble hfree heq
  have htwo : (2 : UInt32).toNat = 2 := rfl
  rw [UInt32.toNat_mul, htwo, Nat.mod_eq_of_lt (by omega), Nat.mul_comm]

/-! What the first part of `Pop` does in its three cases. -/

theorem takeIndex_of_free (hfree : pool.freeIndex ≠ []) (newData : ℕ) :
    pool.takeIndex newData =
      { pool with freeIndex := pool.freeIndex.dropLast } := by
  simp [takeIndex, hfree]

theorem takeIndex_of_fresh (hfree : pool.freeIndex = [])
    (hgrows : pool.grows = false) (newData : ℕ) :
    pool.takeIndex newData =
      { pool with allocIndex := pool.allocIndex + 1 } := by
  have hle : ¬pool.allocSize < pool.allocIndex + 1 := by
    simpa [grows, hfree] using hgrows
  simp [takeIndex, hfree, hle]

theorem takeIndex_of_grows (hgrows : pool.grows = true) (newData : ℕ) :
    pool.takeIndex newData =
      { pool with allocIndex := pool.allocIndex + 1 }.increaseSize newData := by
  simp only [grows, Bool.and_eq_true, decide_eq_true_eq] at hgrows
  simp [takeIndex, hgrows.1, hgrows.2]

/-- Without growth only the numbers change. -/
theorem Numbered.takeIndex_of_not_grows (h : Numbered pool)
    (hdouble : pool.CanDouble) (hgrows : pool.grows = false) (newData : ℕ) :
    ∃ freeIndex allocIndex, pool.allocIndex.toNat ≤ allocIndex.toNat ∧
      pool.takeIndex newData = { pool with freeIndex, allocIndex } := by
  by_cases hfree : pool.freeIndex = []
  · have hsucc := h.toNat_succ_index hdouble hfree
    exact ⟨_, _, by omega, takeIndex_of_fresh hfree hgrows newData⟩
  · exact ⟨_, _, le_rfl, takeIndex_of_free hfree newData⟩

theorem freeIndex_takeIndex (newData : ℕ) :
    (pool.takeIndex newData).freeIndex = pool.freeIndex.dropLast := by
  by_cases hfree : pool.freeIndex = []
  · cases hgrows : pool.grows with
    | false =>
        rw [takeIndex_of_fresh hfree hgrows]
        simp [hfree]
    | true =>
        rw [takeIndex_of_grows hgrows]
        simp [increaseSize, hfree]
  · rw [takeIndex_of_free hfree]

theorem allocIndex_takeIndex (hfree : pool.freeIndex = []) (newData : ℕ) :
    (pool.takeIndex newData).allocIndex = pool.allocIndex + 1 := by
  cases hgrows : pool.grows with
  | false => rw [takeIndex_of_fresh hfree hgrows]
  | true =>
      rw [takeIndex_of_grows hgrows]
      rfl

theorem nextIndex_of_free {i : UInt32}
    (hlast : pool.freeIndex.getLast? = some i) : pool.nextIndex = i := by
  simp [nextIndex, hlast]

theorem nextIndex_of_fresh (hfree : pool.freeIndex = []) :
    pool.nextIndex = pool.allocIndex := by
  simp [nextIndex, hfree]

/-- The numbers stay in bounds when a further one is handed out. -/
theorem Numbered.handOut (h : Numbered pool) (hdouble : pool.CanDouble)
    (hfree : pool.freeIndex = []) {allocSize curGeneration : UInt32}
    (hle : pool.allocIndex.toNat + 1 ≤ allocSize.toNat)
    (hgeneration : 2 ^ curGeneration.toNat ≤ allocSize.toNat) (data : ℕ)
    (memCheckArray : UInt32 → ℕ) (generationFree : UInt32 → UInt32) :
    Numbered { pool with
      data, allocSize, curGeneration, memCheckArray, generationFree
      allocIndex := pool.allocIndex + 1 } := by
  have hsucc := h.toNat_succ_index hdouble hfree
  refine ⟨?_, hgeneration, ?_, ?_⟩
  · exact hsucc ▸ hle
  · intro i hi
    rw [hfree] at hi
    cases hi
  · intro p i hp
    have hlt := h.used p i hp
    change i.toNat < (pool.allocIndex + 1).toNat
    omega

theorem Numbered.takeIndex (h : Numbered pool) (hdouble : pool.CanDouble)
    (newData : ℕ) :
    Numbered (pool.takeIndex newData) ∧
      pool.nextIndex.toNat < (pool.takeIndex newData).allocIndex.toNat := by
  by_cases hfree : pool.freeIndex = []
  · have hsucc := h.toNat_succ_index hdouble hfree
    have hnext := nextIndex_of_fresh hfree
    have hlt : pool.nextIndex.toNat < (pool.allocIndex + 1).toNat := by
      rw [hnext, hsucc]
      exact Nat.lt_succ_self _
    cases hgrows : pool.grows with
    | false =>
        rw [takeIndex_of_fresh hfree hgrows]
        refine ⟨h.handOut hdouble hfree ?_ h.generation _ _ _, hlt⟩
        have hne : pool.allocIndex ≠ pool.allocSize := by
          intro heq
          rw [(h.grows_iff hdouble).mpr ⟨hfree, heq⟩] at hgrows
          cases hgrows
        have hne' : pool.allocIndex.toNat ≠ pool.allocSize.toNat :=
          fun heq => hne (UInt32.toNat_inj.mp heq)
        exact Nat.lt_of_le_of_ne h.index_le hne'
    | true =>
        have hsize := h.toNat_doubled hdouble hgrows
        have hle := h.index_le
        have hgen := h.generation
        have hpos : 0 < 2 ^ pool.curGeneration.toNat := Nat.two_pow_pos _
        rw [takeIndex_of_grows hgrows]
        refine ⟨h.handOut hdouble hfree ?_ ?_ _ _ _, hlt⟩
        · rw [hsize]
          omega
        · rw [h.toNat_succ_generation, hsize, Nat.pow_succ]
          omega
  · have hlast := List.getLast?_eq_some_getLast hfree
    rw [takeIndex_of_free hfree, nextIndex_of_free hlast]
    refine ⟨⟨h.index_le, h.generation, ?_, h.used⟩, ?_⟩
    · exact fun i hi => h.free i (List.dropLast_subset _ hi)
    · exact h.free _ (List.getLast_mem hfree)

theorem Numbered.recordUse (h : Numbered pool) {allocIndex : UInt32}
    (hlt : allocIndex.toNat < pool.allocIndex.toNat) (allocMem : ℕ) :
    Numbered (pool.recordUse allocMem allocIndex) := by
  refine ⟨h.index_le, h.generation, h.free, ?_⟩
  intro p i hp
  by_cases heq : p = allocMem
  · subst heq
    have hsome : some allocIndex = some i :=
      (AList.lookup_insert _).symm.trans hp
    exact Option.some.inj hsome ▸ hlt
  · exact h.used p i ((AList.lookup_insert_ne heq).symm.trans hp)

theorem Numbered.pushedIndex_lt (h : Numbered pool)
    (hpos : 0 < pool.allocIndex.toNat) (p : ℕ) :
    (pool.pushedIndex p).toNat < pool.allocIndex.toNat := by
  unfold pushedIndex
  cases hp : pool.usedIndex.lookup p with
  | none => exact hpos
  | some i => exact h.used p i hp

theorem Numbered.push (h : Numbered pool) (hpos : 0 < pool.allocIndex.toNat)
    (p : ℕ) (inGeneration : UInt32) : Numbered (pool.push p inGeneration) := by
  refine ⟨h.index_le, h.generation, ?_, ?_⟩
  · intro i hi
    rcases List.mem_append.mp hi with hi | hi
    · exact h.free i hi
    · rw [List.mem_singleton.mp hi]
      exact h.pushedIndex_lt hpos p
  · intro q i hq
    by_cases heq : q = p
    · subst heq
      have hnone : none = some i := (AList.lookup_erase q _).symm.trans hq
      cases hnone
    · exact h.used q i ((AList.lookup_erase_ne heq).symm.trans hq)

theorem push_generationFree_self {g : UInt32} (hg : g ≠ pool.curGeneration)
    (p : ℕ) :
    (pool.push p g).generationFree g = pool.generationFree g - 1 := by
  simp [push, hg]

theorem push_generationFree_of_ne {g g' : UInt32} (hne : g ≠ g') (p : ℕ) :
    (pool.push p g').generationFree g = pool.generationFree g := by
  simp only [push]
  split
  · exact Function.update_of_ne hne _ _
  · rfl

theorem push_generationFree_cur (p : ℕ) (g : UInt32) :
    (pool.push p g).generationFree pool.curGeneration =
      pool.generationFree pool.curGeneration := by
  by_cases hg : pool.curGeneration = g
  · simp [push, hg]
  · exact push_generationFree_of_ne hg p

/-! ## Regions -/

/-- The regions are those of the generations up to the current one that are
not freed yet, and the current one has room for all its numbers. -/
structure Tracked (pool : ScalablePool) (regions : List HeapRegion) : Prop where
  current : ∃ r ∈ regions, r.generation = pool.curGeneration ∧
    r.base = pool.data ∧
      r.len = (pool.size.toNat + 12) * pool.allocSize.toNat
  nonempty : ∀ r ∈ regions, 0 < r.len
  base : ∀ r ∈ regions, r.base = pool.memCheckArray r.generation
  generation_le : ∀ r ∈ regions,
    r.generation.toNat ≤ pool.curGeneration.toNat
  apart : regions.Pairwise fun r r' => r.generation ≠ r'.generation ∧
    Region.Apart r.base r.len r'.base r'.len

variable {regions : List HeapRegion} {r r' : HeapRegion}

theorem Tracked.pairwise (h : Tracked pool regions) (hr : r ∈ regions)
    (hr' : r' ∈ regions) (hne : r ≠ r') :
    r.generation ≠ r'.generation ∧
      Region.Apart r.base r.len r'.base r'.len := by
  have hsymm : Std.Symm fun r r' : HeapRegion =>
      r.generation ≠ r'.generation ∧
        Region.Apart r.base r.len r'.base r'.len :=
    ⟨fun _ _ hrel => ⟨hrel.1.symm, hrel.2.symm⟩⟩
  exact h.apart.forall hr hr' hne

theorem Tracked.eq_of_generation (h : Tracked pool regions) (hr : r ∈ regions)
    (hr' : r' ∈ regions) (heq : r.generation = r'.generation) : r = r' := by
  by_contra hne
  exact (h.pairwise hr hr' hne).1 heq

theorem Tracked.apart_of_generation (h : Tracked pool regions)
    (hr : r ∈ regions) (hr' : r' ∈ regions)
    (hne : r.generation ≠ r'.generation) :
    Region.Apart r.base r.len r'.base r'.len :=
  (h.pairwise hr hr' fun heq => hne (congrArg _ heq)).2

/-- Regions of different generations start at different addresses. -/
theorem Tracked.base_ne (h : Tracked pool regions) (hr : r ∈ regions)
    (hr' : r' ∈ regions) (hne : r.generation ≠ r'.generation) :
    r.base ≠ r'.base := by
  have hapart := h.apart_of_generation hr hr' hne
  have hpos := h.nonempty r hr
  have hpos' := h.nonempty r' hr'
  unfold Region.Apart at hapart
  omega

/-- Freeing the region of an older generation leaves the others. -/
theorem Tracked.mem_filter (h : Tracked pool regions) (hr : r ∈ regions)
    (hr' : r' ∈ regions) (hne : r'.generation ≠ r.generation) :
    r' ∈ regions.filter fun s =>
      decide (s.base ≠ pool.memCheckArray r.generation) := by
  rw [List.mem_filter, decide_eq_true_eq, ← h.base r hr]
  exact ⟨hr', h.base_ne hr' hr hne⟩

theorem Tracked.filter (h : Tracked pool regions) (hr : r ∈ regions)
    (hne : r.generation ≠ pool.curGeneration) :
    Tracked pool (regions.filter fun s =>
      decide (s.base ≠ pool.memCheckArray r.generation)) := by
  have hsub : ∀ s ∈ regions.filter fun s =>
      decide (s.base ≠ pool.memCheckArray r.generation), s ∈ regions :=
    fun s hs => (List.mem_filter.mp hs).1
  obtain ⟨c, hc, hgen, hcur⟩ := h.current
  refine ⟨⟨c, ?_, hgen, hcur⟩, ?_, ?_, ?_, h.apart.filter _⟩
  · exact h.mem_filter hr hc (hgen ▸ hne.symm)
  · exact fun s hs => h.nonempty s (hsub s hs)
  · exact fun s hs => h.base s (hsub s hs)
  · exact fun s hs => h.generation_le s (hsub s hs)

/-- The region of a new generation joins the others. -/
theorem Tracked.grow (h : Tracked pool regions)
    (hsucc : (pool.curGeneration + 1).toNat = pool.curGeneration.toNat + 1)
    (hnew : r.generation = pool.curGeneration + 1)
    (hlen : r.len = (pool.size.toNat + 12) * (pool.allocSize * 2).toNat)
    (hpos : 0 < (pool.allocSize * 2).toNat)
    (hapart : ∀ s ∈ regions, Region.Apart s.base s.len r.base r.len) :
    Tracked (pool.increaseSize r.base) (regions ++ [r]) := by
  have hold : ∀ s ∈ regions, s.generation ≠ pool.curGeneration + 1 := by
    intro s hs heq
    have hle := h.generation_le s hs
    rw [heq, hsucc] at hle
    omega
  refine ⟨⟨r, by simp, hnew, rfl, hlen⟩, ?_, ?_, ?_, ?_⟩
  · intro s hs
    rcases List.mem_append.mp hs with hs | hs
    · exact h.nonempty s hs
    · rw [List.mem_singleton.mp hs, hlen]
      exact Nat.mul_pos (Nat.succ_pos _) hpos
  · intro s hs
    change s.base = Function.update pool.memCheckArray
      (pool.curGeneration + 1) r.base s.generation
    rcases List.mem_append.mp hs with hs | hs
    · rw [Function.update_of_ne (hold s hs)]
      exact h.base s hs
    · rw [List.mem_singleton.mp hs, hnew, Function.update_self]
  · intro s hs
    change s.generation.toNat ≤ (pool.curGeneration + 1).toNat
    rcases List.mem_append.mp hs with hs | hs
    · have hle := h.generation_le s hs
      omega
    · rw [List.mem_singleton.mp hs, hnew]
  · rw [List.pairwise_append]
    refine ⟨h.apart, List.pairwise_singleton _ _, ?_⟩
    intro s hs t ht
    rw [List.mem_singleton.mp ht]
    exact ⟨hnew ▸ hold s hs, hapart s hs⟩

end

end ScalablePool

/-! ## The first part of `Pop` -/

namespace PoolWorld

open ScalablePool

variable {platform : Platform} {w w' : PoolWorld} {newData : ℕ}

/-- Without growth the regions stay; with growth a new one joins them. -/
theorem takeIndex_cases (htake : w.takeIndex platform newData = some w') :
    (w.pool.grows = false ∧ w' = { w with pool := w.pool.takeIndex newData }) ∨
      (w.pool.grows = true ∧
        (∀ r ∈ w.regions, Region.Apart r.base r.len newData
          (w.newRegion platform newData).len) ∧
        w' = { w with
          pool := w.pool.takeIndex newData
          regions := w.regions ++ [w.newRegion platform newData] }) := by
  unfold PoolWorld.takeIndex at htake
  split at htake
  · next hgrows =>
    obtain ⟨hapart, htake⟩ := Option.ite_none_right_eq_some.mp htake
    exact Or.inr ⟨hgrows, hapart, (Option.some.inj htake).symm⟩
  · next hgrows =>
    refine Or.inl ⟨Bool.eq_false_iff.mpr hgrows, ?_⟩
    exact (Option.some.inj htake).symm

/-- The first part of `Pop` changes the pool and the regions only. -/
theorem takeIndex_frame (htake : w.takeIndex platform newData = some w') :
    w'.pool = w.pool.takeIndex newData ∧ w'.outstanding = w.outstanding := by
  obtain ⟨-, rfl⟩ | ⟨-, -, rfl⟩ := takeIndex_cases htake
  · exact ⟨rfl, rfl⟩
  · exact ⟨rfl, rfl⟩

/-- The next generation and its region have sizes that the types hold. -/
def CanGrow (platform : Platform) (w : PoolWorld) : Prop :=
  w.pool.freeIndex = [] → w.pool.allocIndex = w.pool.allocSize →
    2 * w.pool.allocSize.toNat < 2 ^ 32 ∧
      (w.pool.size.toNat + 12) * (2 * w.pool.allocSize.toNat) <
        platform.sizeMod

theorem CanGrow.canDouble (h : w.CanGrow platform) : w.pool.CanDouble :=
  fun hfree hfull => (h hfree hfull).1

theorem newRegion_len (h : Numbered w.pool) (hgrow : w.CanGrow platform)
    (hgrows : w.pool.grows = true) :
    (w.newRegion platform newData).len =
      (w.pool.size.toNat + 12) * (w.pool.allocSize * 2).toNat := by
  obtain ⟨hfree, hfull⟩ := (h.grows_iff hgrow.canDouble).mp hgrows
  have hroom := (hgrow hfree hfull).2
  rw [← h.toNat_doubled hgrow.canDouble hgrows] at hroom
  exact Nat.mod_eq_of_lt hroom

theorem doubled_pos (h : Numbered w.pool) (hgrow : w.CanGrow platform)
    (hgrows : w.pool.grows = true) : 0 < (w.pool.allocSize * 2).toNat := by
  have hpow := h.generation
  have htwo := Nat.two_pow_pos w.pool.curGeneration.toNat
  rw [h.toNat_doubled hgrow.canDouble hgrows]
  omega

theorem tracked_takeIndex (h : Numbered w.pool)
    (ht : Tracked w.pool w.regions) (hgrow : w.CanGrow platform)
    (htake : w.takeIndex platform newData = some w') :
    Tracked w'.pool w'.regions := by
  obtain ⟨hgrows, rfl⟩ | ⟨hgrows, hapart, rfl⟩ := takeIndex_cases htake
  · obtain ⟨freeIndex, allocIndex, -, hpool⟩ :=
      h.takeIndex_of_not_grows hgrow.canDouble hgrows newData
    rw [hpool]
    exact ⟨ht.current, ht.nonempty, ht.base, ht.generation_le, ht.apart⟩
  · have hnext := ht.grow h.toNat_succ_generation rfl
      (newRegion_len h hgrow hgrows) (doubled_pos h hgrow hgrows) hapart
    change Tracked (w.pool.takeIndex newData) _
    rw [takeIndex_of_grows hgrows]
    exact ⟨hnext.current, hnext.nonempty, hnext.base, hnext.generation_le,
      hnext.apart⟩

end PoolWorld

end DokeviNet
