import DokeviNetwork.Pool.Regions
import Mathlib.Data.List.Count

/-!
# Where the blocks of the growing pool lie

A block with number `i` starts `i` times the size the pool was made for behind
the base of its region, while the region has room for that size and a header
for every number.  So a block always lies in its region, also across growth,
and blocks of two generations never overlap.  Two blocks of one generation
overlap exactly if their numbers are too close, since the distance of
neighbours leaves out the header; and `Push` looks for a block under its
pointer where `Pop` entered its address, so that it puts back the number of
whatever block starts there, or 0.
-/

namespace DokeviNet

open ScalablePool

/-! ## Blocks -/

/-- A block has a number that has been handed out, and the region of its
generation holds it at the place of that number. -/
structure PoolBlock.Placed (b : PoolBlock) (pool : ScalablePool)
    (regions : List HeapRegion) : Prop where
  index_lt : b.index.toNat < pool.allocIndex.toNat
  region : ∃ r ∈ regions, r.generation = b.generation ∧
    b.addr = r.base + b.index.toNat * pool.size.toNat ∧
      b.index.toNat * pool.size.toNat + b.bytes ≤ r.len

/-- The blocks overlap nowhere in memory. -/
def PoolBlock.Apart (b b' : PoolBlock) : Prop :=
  Region.Apart b.addr b.bytes b'.addr b'.bytes

namespace PoolWorld

/-- The number of outstanding blocks of a generation. -/
def outstandingIn (w : PoolWorld) (g : UInt32) : ℕ :=
  w.outstanding.countP fun b => decide (b.generation = g)

/-- What holds after every step whose number is clear of the outstanding ones
and whose sizes fit. -/
structure Laid (w : PoolWorld) : Prop where
  numbered : Numbered w.pool
  tracked : Tracked w.pool w.regions
  placed : ∀ b ∈ w.outstanding, b.Placed w.pool w.regions
  disjoint : w.outstanding.Pairwise PoolBlock.Apart
  headers : ∀ b ∈ w.outstanding, w.memory.read b.addr 12 = b.header
  counted : ∀ g, g ≠ w.pool.curGeneration →
    w.outstandingIn g ≤ (w.pool.generationFree g).toNat
  countedCur : w.pool.generationFree w.pool.curGeneration =
    w.pool.allocSize

variable {w w' : PoolWorld} {b b' : PoolBlock}

theorem apart_of_ne (h : Laid w) (hb : b ∈ w.outstanding)
    (hb' : b' ∈ w.outstanding) (hne : b ≠ b') : b.Apart b' := by
  have hsymm : Std.Symm PoolBlock.Apart := ⟨fun _ _ hrel => hrel.symm⟩
  exact h.disjoint.forall hb hb' hne

theorem Laid.separate (h : Laid w) : Separate w := by
  refine ⟨h.disjoint, ?_, h.headers⟩
  intro b hb
  obtain ⟨r, hr, hgen, haddr, hroom⟩ := (h.placed b hb).region
  refine ⟨r, hr, hgen, hgen ▸ h.tracked.base r hr, ?_, ?_⟩
  · rw [haddr]
    exact Nat.le_add_right _ _
  · rw [haddr]
    omega

/-- Outstanding blocks of one generation have different numbers. -/
theorem Laid.index_ne (h : Laid w) (hb : b ∈ w.outstanding)
    (hb' : b' ∈ w.outstanding) (hgen : b.generation = b'.generation)
    (hapart : b.Apart b') : b.index.toNat ≠ b'.index.toNat := by
  intro heq
  obtain ⟨r, hr, hr_gen, haddr, -⟩ := (h.placed b hb).region
  obtain ⟨r', hr', hr'_gen, haddr', -⟩ := (h.placed b' hb').region
  have hregion : r = r' := h.tracked.eq_of_generation hr hr' (by
    rw [hr_gen, hr'_gen, hgen])
  have hsame : b.addr = b'.addr := by
    rw [haddr, haddr', hregion, heq]
  unfold PoolBlock.Apart Region.Apart PoolBlock.bytes at hapart
  omega

/-- A generation has at most as many outstanding blocks as numbers were handed
out. -/
theorem Laid.outstandingIn_le (h : Laid w) (g : UInt32) :
    w.outstandingIn g ≤ w.pool.allocIndex.toNat := by
  have hmem : ∀ b ∈ w.outstanding.filter (fun b => decide (b.generation = g)),
      b ∈ w.outstanding ∧ b.generation = g := by
    intro b hb
    simpa using hb
  have hnodup : ((w.outstanding.filter fun b =>
      decide (b.generation = g)).map fun b => b.index.toNat).Nodup := by
    rw [List.Nodup, List.pairwise_map]
    refine (h.disjoint.filter _).imp_of_mem fun {b b'} hb hb' hapart => ?_
    obtain ⟨hb, hgen⟩ := hmem b hb
    obtain ⟨hb', hgen'⟩ := hmem b' hb'
    exact h.index_ne hb hb' (hgen.trans hgen'.symm) hapart
  have hsub : ((w.outstanding.filter fun b =>
      decide (b.generation = g)).map fun b => b.index.toNat) ⊆
        List.range w.pool.allocIndex.toNat := by
    intro i hi
    obtain ⟨b, hb, rfl⟩ := List.mem_map.mp hi
    exact List.mem_range.mpr (h.placed b (hmem b hb).1).index_lt
  have hlen := (List.subperm_of_subset hnodup hsub).length_le
  rwa [List.length_map, List.length_range, ← List.countP_eq_length_filter]
    at hlen

/-! ## Taking a number -/

theorem Laid.withNumbers (h : Laid w) {freeIndex : List UInt32}
    {allocIndex : UInt32}
    (hnumbered : Numbered { w.pool with freeIndex, allocIndex })
    (hle : w.pool.allocIndex.toNat ≤ allocIndex.toNat) :
    Laid { w with pool := { w.pool with freeIndex, allocIndex } } := by
  have ht := h.tracked
  refine ⟨hnumbered, ?_, ?_, h.disjoint, h.headers, h.counted, h.countedCur⟩
  · exact ⟨ht.current, ht.nonempty, ht.base, ht.generation_le, ht.apart⟩
  · intro b hb
    obtain ⟨hlt, hregion⟩ := h.placed b hb
    exact ⟨Nat.lt_of_lt_of_le hlt hle, hregion⟩

theorem Laid.keepRegion (h : Laid w) (hdouble : w.pool.CanDouble)
    (hgrows : w.pool.grows = false) (newData : ℕ) :
    Laid { w with pool := w.pool.takeIndex newData } := by
  have hnumbered := (h.numbered.takeIndex hdouble newData).1
  obtain ⟨freeIndex, allocIndex, hle, htake⟩ :=
    h.numbered.takeIndex_of_not_grows hdouble hgrows newData
  rw [htake] at hnumbered ⊢
  exact h.withNumbers hnumbered hle

/-- When the numbers run out, the outstanding blocks of the generation that
ends are at most as many as `_generationFree` has for it. -/
theorem Laid.grow (h : Laid w) (hdouble : w.pool.CanDouble)
    (hgrows : w.pool.grows = true) {r : HeapRegion}
    (hnew : r.generation = w.pool.curGeneration + 1)
    (hlen : r.len = (w.pool.size.toNat + 12) * (w.pool.allocSize * 2).toNat)
    (hapart : ∀ s ∈ w.regions, Region.Apart s.base s.len r.base r.len) :
    Laid { w with
      pool := w.pool.takeIndex r.base
      regions := w.regions ++ [r] } := by
  have hnumbered := (h.numbered.takeIndex hdouble r.base).1
  have hsize := h.numbered.toNat_doubled hdouble hgrows
  have hpos : 0 < (w.pool.allocSize * 2).toNat := by
    have hpow := h.numbered.generation
    have htwo := Nat.two_pow_pos w.pool.curGeneration.toNat
    omega
  have ht := h.tracked.grow h.numbered.toNat_succ_generation hnew hlen hpos
    hapart
  obtain ⟨hfree, hfull⟩ := (h.numbered.grows_iff hdouble).mp hgrows
  have hsucc := h.numbered.toNat_succ_index hdouble hfree
  rw [takeIndex_of_grows hgrows] at hnumbered ⊢
  refine ⟨hnumbered, ?_, ?_, h.disjoint, h.headers, ?_, ?_⟩
  · exact ⟨ht.current, ht.nonempty, ht.base, ht.generation_le, ht.apart⟩
  · intro b hb
    obtain ⟨hlt, s, hs, hrest⟩ := h.placed b hb
    refine ⟨?_, s, List.mem_append_left _ hs, hrest⟩
    change b.index.toNat < (w.pool.allocIndex + 1).toNat
    omega
  · intro g hg
    change g ≠ w.pool.curGeneration + 1 at hg
    change w.outstandingIn g ≤ (Function.update w.pool.generationFree
      (w.pool.curGeneration + 1) (w.pool.allocSize * 2) g).toNat
    rw [Function.update_of_ne hg]
    by_cases hcur : g = w.pool.curGeneration
    · rw [hcur, h.countedCur, ← hfull]
      exact h.outstandingIn_le _
    · exact h.counted g hcur
  · exact Function.update_self _ _ _

/-- What the first part of `Pop` leaves to the second. -/
theorem Laid.takeIndex {platform : Platform} (h : Laid w) {newData : ℕ}
    {inSize thread : UInt32}
    (hfits : w.Fits platform (.pop inSize thread newData))
    (htake : w.takeIndex platform newData = some w') :
    Laid w' ∧ w'.pool.size = w.pool.size ∧
      w.pool.nextIndex.toNat < w'.pool.allocIndex.toNat ∧
      w'.outstanding = w.outstanding ∧
      ∀ b ∈ w.outstanding, b.generation = w'.pool.curGeneration →
        w.pool.grows = false ∧ b.generation = w.pool.curGeneration := by
  have hgrow : w.CanGrow platform := hfits.2
  have hnext := (h.numbered.takeIndex hgrow.canDouble newData).2
  obtain ⟨hgrows, rfl⟩ | ⟨hgrows, hapart, rfl⟩ := takeIndex_cases htake
  · have hlaid := h.keepRegion hgrow.canDouble hgrows newData
    obtain ⟨freeIndex, allocIndex, -, hpool⟩ :=
      h.numbered.takeIndex_of_not_grows hgrow.canDouble hgrows newData
    rw [hpool] at hlaid hnext ⊢
    exact ⟨hlaid, rfl, hnext, rfl, fun b hb hgen => ⟨hgrows, hgen⟩⟩
  · have hlen := @newRegion_len platform w newData h.numbered hgrow hgrows
    refine ⟨h.grow hgrow.canDouble hgrows rfl hlen hapart, ?_, hnext, rfl, ?_⟩
    · change (w.pool.takeIndex newData).size = w.pool.size
      rw [takeIndex_of_grows hgrows]
      rfl
    · intro b hb hgen
      obtain ⟨r, hr, hr_gen, -⟩ := (h.placed b hb).region
      have hle := h.tracked.generation_le r hr
      change b.generation = (w.pool.takeIndex newData).curGeneration at hgen
      rw [takeIndex_of_grows hgrows] at hgen
      change b.generation = w.pool.curGeneration + 1 at hgen
      rw [hr_gen, hgen, h.numbered.toNat_succ_generation] at hle
      omega

/-! ## Handing out a block -/

section

variable {allocIndex inSize thread : UInt32}

theorem newBlock_addr
    (hoffset : allocIndex.toNat * w.pool.size.toNat < 2 ^ 32) :
    (w.newBlock allocIndex inSize thread).addr =
      w.pool.data + allocIndex.toNat * w.pool.size.toNat := by
  change w.pool.data + (allocIndex * w.pool.size).toNat = _
  rw [UInt32.toNat_mul, Nat.mod_eq_of_lt hoffset]

/-- The new block lies in the current region. -/
theorem placed_newBlock (h : Numbered w.pool)
    (ht : Tracked w.pool w.regions)
    (hlt : allocIndex.toNat < w.pool.allocIndex.toNat)
    (hoffset : allocIndex.toNat * w.pool.size.toNat < 2 ^ 32)
    (hsize : inSize ≤ w.pool.size) :
    (w.newBlock allocIndex inSize thread).Placed w.pool w.regions := by
  obtain ⟨r, hr, hgen, hdata, hlen⟩ := ht.current
  refine ⟨hlt, r, hr, hgen, ?_, ?_⟩
  · rw [newBlock_addr hoffset, hdata]
    rfl
  · change allocIndex.toNat * w.pool.size.toNat + (12 + inSize.toNat) ≤ r.len
    have hle : inSize.toNat ≤ w.pool.size.toNat := hsize
    have hcount : allocIndex.toNat + 1 ≤ w.pool.allocSize.toNat :=
      Nat.lt_of_lt_of_le hlt h.index_le
    calc
      allocIndex.toNat * w.pool.size.toNat + (12 + inSize.toNat)
          ≤ (w.pool.size.toNat + 12) * (allocIndex.toNat + 1) := by
            rw [Nat.add_mul, Nat.mul_succ, Nat.mul_comm]
            omega
      _ ≤ r.len := by
            rw [hlen]
            exact Nat.mul_le_mul_left _ hcount

/-- Outstanding blocks of other generations never overlap the new block, and
those of its own generation do so exactly if the numbers are too close. -/
theorem Laid.apart_newBlock_iff (h : Laid w)
    (hlt : allocIndex.toNat < w.pool.allocIndex.toNat)
    (hoffset : allocIndex.toNat * w.pool.size.toNat < 2 ^ 32)
    (hsize : inSize ≤ w.pool.size) (hb : b ∈ w.outstanding) :
    b.Apart (w.newBlock allocIndex inSize thread) ↔
      (b.generation = w.pool.curGeneration →
        Region.FarApart w.pool.size.toNat b.index.toNat b.bytes
          allocIndex.toNat (12 + inSize.toNat)) := by
  obtain ⟨r, hr, hr_gen, haddr, hroom⟩ := (h.placed b hb).region
  by_cases hgen : b.generation = w.pool.curGeneration
  · obtain ⟨c, hc, hc_gen, hdata, -⟩ := h.tracked.current
    have hregion : r = c := h.tracked.eq_of_generation hr hc (by
      rw [hr_gen, hc_gen, hgen])
    have hiff := @Region.farApart_iff w.pool.data w.pool.size.toNat
      b.index.toNat b.bytes allocIndex.toNat (12 + inSize.toNat)
      (Nat.add_pos_left (by decide) _) (Nat.add_pos_left (by decide) _)
    rw [← hdata, ← hregion, ← haddr, hregion, hdata,
      ← newBlock_addr hoffset] at hiff
    rw [hiff]
    exact ⟨fun hapart _ => hapart, fun hapart => hapart hgen⟩
  · have hplaced : (w.newBlock allocIndex inSize thread).Placed w.pool
        w.regions := placed_newBlock h.numbered h.tracked hlt hoffset hsize
    obtain ⟨c, hc, hc_gen, hc_addr, hc_room⟩ := hplaced.region
    have hne : r.generation ≠ c.generation := by
      rw [hr_gen, hc_gen]
      exact hgen
    have hapart := h.tracked.apart_of_generation hr hc hne
    refine ⟨fun _ heq => absurd heq hgen, fun _ => hapart.mono ?_ ?_⟩
    · rw [haddr]
      omega
    · rw [hc_addr]
      omega

theorem Laid.place (h : Laid w)
    (hlt : allocIndex.toNat < w.pool.allocIndex.toNat)
    (hoffset : allocIndex.toNat * w.pool.size.toNat < 2 ^ 32)
    (hsize : inSize ≤ w.pool.size)
    (hapart : ∀ b ∈ w.outstanding,
      b.Apart (w.newBlock allocIndex inSize thread)) :
    Laid (w.place allocIndex inSize thread) := by
  have hplaced : (w.newBlock allocIndex inSize thread).Placed w.pool
      w.regions := placed_newBlock h.numbered h.tracked hlt hoffset hsize
  have ht := h.tracked
  refine ⟨h.numbered.recordUse hlt _, ?_, ?_, ?_, ?_, ?_, h.countedCur⟩
  · exact ⟨ht.current, ht.nonempty, ht.base, ht.generation_le, ht.apart⟩
  · intro b hb
    rcases List.mem_append.mp hb with hb | hb
    · obtain ⟨hindex, hregion⟩ := h.placed b hb
      exact ⟨hindex, hregion⟩
    · rw [List.mem_singleton.mp hb]
      exact ⟨hplaced.index_lt, hplaced.region⟩
  · refine List.pairwise_append.mpr ⟨h.disjoint, by simp, ?_⟩
    intro b hb b' hb'
    rw [List.mem_singleton.mp hb']
    exact hapart b hb
  · intro b hb
    rcases List.mem_append.mp hb with hb | hb
    · rw [← h.headers b hb]
      refine Region.read_write_apart ((hapart b hb).symm.mono ?_ ?_)
      · rw [PoolBlock.header_length, PoolBlock.bytes]
        omega
      · rw [PoolBlock.bytes]
        omega
    · rw [List.mem_singleton.mp hb]
      exact Region.read_write_self _ _ _
  · intro g hg
    have hcount : (w.place allocIndex inSize thread).outstandingIn g =
        w.outstandingIn g := by
      have hne : ¬(w.newBlock allocIndex inSize thread).generation = g :=
        fun heq => hg heq.symm
      simp [outstandingIn, PoolWorld.place, hne]
    rw [hcount]
    exact h.counted g hg

end

theorem Laid.pop {platform : Platform} (h : Laid w)
    {inSize thread : UInt32} {newData : ℕ}
    (hclear : w.Clear (.pop inSize thread newData))
    (hfits : w.Fits platform (.pop inSize thread newData))
    (hpop : w.pop platform inSize thread newData = some w') : Laid w' := by
  obtain ⟨hsize, hpop⟩ := Option.ite_none_right_eq_some.mp hpop
  obtain ⟨w₁, htake, rfl⟩ := Option.map_eq_some_iff.mp hpop
  obtain ⟨hlaid, hsame, hlt, hout, hgen⟩ := h.takeIndex hfits htake
  have hoffset := hfits.1
  rw [← hsame] at hoffset hsize
  refine hlaid.place hlt hoffset hsize ?_
  intro b hb
  rw [hlaid.apart_newBlock_iff hlt hoffset hsize hb]
  intro hcur
  rw [hout] at hb
  obtain ⟨hgrows, hcur⟩ := hgen b hb hcur
  rw [hsame] at hsize ⊢
  exact hclear hsize hgrows b hb hcur

/-! ## Giving a block back -/

theorem outstandingIn_pos (hb : b ∈ w.outstanding) :
    0 < w.outstandingIn b.generation :=
  List.countP_pos_iff.mpr ⟨b, hb, decide_eq_true rfl⟩

theorem countP_erase_generation (hb : b ∈ w.outstanding) (g : UInt32) :
    (w.outstanding.erase b).countP (fun b => decide (b.generation = g)) =
      if b.generation = g then w.outstandingIn g - 1
      else w.outstandingIn g := by
  rw [List.countP_erase]
  by_cases hg : b.generation = g
  · simp [hb, hg, outstandingIn]
  · simp [hg, outstandingIn]

/-- `_generationFree` of an older generation stays above its outstanding
blocks. -/
theorem Laid.counted_push (h : Laid w) (hb : b ∈ w.outstanding) {g : UInt32}
    (hg : g ≠ w.pool.curGeneration) :
    (w.outstanding.erase b).countP (fun b => decide (b.generation = g)) ≤
      ((w.pool.push b.pointer b.generation).generationFree g).toNat := by
  have hle := h.counted g hg
  rw [countP_erase_generation hb]
  by_cases heq : b.generation = g
  · have hpos := outstandingIn_pos hb
    rw [heq] at hpos
    rw [if_pos heq, heq, push_generationFree_self hg,
      WrappingCounter.toNat_sub_one (by omega)]
    exact Nat.sub_le_sub_right hle 1
  · rw [if_neg heq, push_generationFree_of_ne (Ne.symm heq)]
    exact hle

/-- A generation whose region is freed has no block left. -/
theorem Laid.generation_ne_of_frees (h : Laid w) (hb : b ∈ w.outstanding)
    (hfrees : w.pool.frees b.generation = true)
    (hb' : b' ∈ w.outstanding.erase b) : b'.generation ≠ b.generation := by
  obtain ⟨hold, hzero⟩ := of_decide_eq_true hfrees
  have hle := h.counted_push hb hold
  rw [push_generationFree_self hold, hzero, UInt32.toNat_zero,
    Nat.le_zero, List.countP_eq_zero] at hle
  simpa using hle b' hb'

theorem Laid.push (h : Laid w) (hpush : w.push b = some w') : Laid w' := by
  obtain ⟨hb, hpush⟩ := Option.ite_none_right_eq_some.mp hpush
  obtain rfl := Option.some.inj hpush
  have hsub : ∀ b' ∈ w.outstanding.erase b, b' ∈ w.outstanding :=
    fun b' hb' => List.erase_subset hb'
  have hpos : 0 < w.pool.allocIndex.toNat :=
    Nat.zero_lt_of_lt (h.placed b hb).index_lt
  obtain ⟨r, hr, hr_gen, -⟩ := (h.placed b hb).region
  -- the regions that are left are those of all other generations
  have htracked : Tracked w.pool (if w.pool.frees b.generation then
      w.regions.filter fun r =>
        decide (r.base ≠ w.pool.memCheckArray b.generation)
      else w.regions) := by
    split
    · next hfrees =>
      obtain ⟨hold, -⟩ := of_decide_eq_true hfrees
      rw [← hr_gen] at hold ⊢
      exact h.tracked.filter hr hold
    · exact h.tracked
  refine ⟨h.numbered.push hpos _ _, ?_, ?_, h.disjoint.erase _, ?_, ?_, ?_⟩
  · exact ⟨htracked.current, htracked.nonempty, htracked.base,
      htracked.generation_le, htracked.apart⟩
  · intro b' hb'
    obtain ⟨hlt, s, hs, hs_gen, hrest⟩ := h.placed b' (hsub b' hb')
    refine ⟨hlt, s, ?_, hs_gen, hrest⟩
    change s ∈ if w.pool.frees b.generation then _ else _
    split
    · next hfrees =>
      have hne := h.generation_ne_of_frees hb hfrees hb'
      rw [← hs_gen, ← hr_gen] at hne
      rw [← hr_gen]
      exact h.tracked.mem_filter hr hs hne
    · exact hs
  · exact fun b' hb' => h.headers b' (hsub b' hb')
  · exact fun g hg => h.counted_push hb hg
  · exact (push_generationFree_cur _ _).trans h.countedCur

/-- A write within the bytes of one block leaves every header alone. -/
theorem Laid.write (h : Laid w) {off : ℕ} {data : List UInt8}
    (hwrite : w.write b off data = some w') : Laid w' := by
  obtain ⟨⟨hb, hlen⟩, hwrite⟩ := Option.ite_none_right_eq_some.mp hwrite
  obtain rfl := Option.some.inj hwrite
  have ht := h.tracked
  refine ⟨h.numbered, ht, h.placed, h.disjoint, ?_, h.counted, h.countedCur⟩
  intro b' hb'
  rw [← h.headers b' hb']
  apply Region.read_write_apart
  by_cases heq : b' = b
  · subst heq
    exact Or.inr (Nat.le_add_right _ _)
  · refine (apart_of_ne h hb hb' (Ne.symm heq)).mono ?_ ?_
    · rw [PoolBlock.pointer, PoolBlock.bytes]
      omega
    · rw [PoolBlock.bytes]
      omega

theorem Laid.step {platform : Platform} (h : Laid w) {op : ScalableOp}
    (hclear : w.Clear op) (hfits : w.Fits platform op)
    (hstep : w.step platform op = some w') : Laid w' := by
  cases op with
  | pop inSize thread newData => exact h.pop hclear hfits hstep
  | push b => exact h.push hstep
  | write b off data => exact h.write hstep

/-! ## Runs -/

section

variable (platform : Platform) {inSize inAllocSize : UInt32} {data : ℕ}
  {memory : Region UInt8}

theorem laid_start (hcount : 0 < inAllocSize)
    (hfits : (inSize.toNat + 12) * inAllocSize.toNat < platform.sizeMod) :
    Laid (start platform inSize inAllocSize data memory) := by
  have hpos : 0 < inAllocSize.toNat := hcount
  have hlen : ScalablePool.regionSize platform inSize inAllocSize =
      (inSize.toNat + 12) * inAllocSize.toNat := Nat.mod_eq_of_lt hfits
  have hnil : ∀ b ∈ ([] : List PoolBlock), False := by simp
  refine ⟨⟨Nat.zero_le _, hpos, by simp [start, ScalablePool.init], ?_⟩, ?_,
    fun b hb => (hnil b hb).elim, List.Pairwise.nil,
    fun b hb => (hnil b hb).elim, fun g _ => Nat.zero_le _, ?_⟩
  · intro p i hp
    have hnone : none = some i := (AList.lookup_empty p).symm.trans hp
    cases hnone
  · refine ⟨⟨_, List.mem_singleton_self _, rfl, rfl, hlen⟩, ?_, ?_, ?_,
      List.pairwise_singleton _ _⟩
    · intro r hr
      rw [List.mem_singleton.mp hr, hlen]
      exact Nat.mul_pos (Nat.succ_pos _) hpos
    · intro r hr
      rw [List.mem_singleton.mp hr]
      simp [start, ScalablePool.init]
    · intro r hr
      rw [List.mem_singleton.mp hr]
      exact le_rfl
  · simp [start, ScalablePool.init]

variable {platform}

/-- A `Pop` after which the blocks do not overlap took a clear number. -/
theorem Laid.clear_of_separate (h : Laid w) {op : ScalableOp}
    (hfits : w.Fits platform op)
    (hafter : ∀ w', w.step platform op = some w' → Separate w') :
    w.Clear op := by
  cases op with
  | push b => trivial
  | write b off data => trivial
  | pop inSize thread newData =>
      intro hsize hgrows b hb hgen
      have htake : w.takeIndex platform newData =
          some { w with pool := w.pool.takeIndex newData } := by
        simp [PoolWorld.takeIndex, hgrows]
      have hpop : w.pop platform inSize thread newData =
          some (PoolWorld.place { w with pool := w.pool.takeIndex newData }
            w.pool.nextIndex inSize thread) := by
        rw [PoolWorld.pop, if_pos hsize, htake, Option.map_some]
      obtain ⟨hlaid, hsame, hlt, -, -⟩ := h.takeIndex hfits htake
      have hgrow : w.CanGrow platform := hfits.2
      obtain ⟨freeIndex, allocIndex, -, heq⟩ :=
        h.numbered.takeIndex_of_not_grows hgrow.canDouble hgrows newData
      have hdisjoint := (hafter _ hpop).disjoint
      have hapart := (List.pairwise_append.mp hdisjoint).2.2 b hb _
        (List.mem_singleton_self _)
      have hclear := (hlaid.apart_newBlock_iff hlt (hsame ▸ hfits.1)
        (hsame ▸ hsize) hb).mp hapart
      rw [heq] at hclear
      exact hclear hgen

/-- The call leaves room for the header in its block, and puts no number
back. -/
def LeavesRoom (inSize : UInt32) : ScalableOp → Prop
  | .pop n _ _ => 12 + n.toNat ≤ inSize.toNat
  | .push _ => False
  | .write _ _ _ => True

/-- What such calls keep: no number is free, and the blocks are no longer than
their distance. -/
structure Fresh (inSize : UInt32) (w : PoolWorld) : Prop where
  laid : Laid w
  size : w.pool.size = inSize
  free : w.pool.freeIndex = []
  bytes : ∀ b ∈ w.outstanding, b.bytes ≤ inSize.toNat

theorem Fresh.clear (h : Fresh inSize w) {op : ScalableOp}
    (hroom : LeavesRoom inSize op) : w.Clear op := by
  cases op with
  | push b => trivial
  | write b off data => trivial
  | pop n thread newData =>
      intro _ _ b hb _
      rw [nextIndex_of_fresh h.free, h.size]
      have hlt := (h.laid.placed b hb).index_lt
      refine Or.inl ⟨hlt, (h.bytes b hb).trans ?_⟩
      exact Nat.le_mul_of_pos_left _ (Nat.sub_pos_of_lt hlt)

theorem Fresh.step (h : Fresh inSize w) {op : ScalableOp}
    (hroom : LeavesRoom inSize op) (hfits : w.Fits platform op)
    (hstep : w.step platform op = some w') : Fresh inSize w' := by
  have hlaid := h.laid.step (h.clear hroom) hfits hstep
  cases op with
  | push b => exact hroom.elim
  | write b off data =>
      obtain ⟨-, hwrite⟩ := Option.ite_none_right_eq_some.mp hstep
      obtain rfl := Option.some.inj hwrite
      exact ⟨hlaid, h.size, h.free, h.bytes⟩
  | pop n thread newData =>
      obtain ⟨-, hpop⟩ := Option.ite_none_right_eq_some.mp hstep
      obtain ⟨w₁, htake, rfl⟩ := Option.map_eq_some_iff.mp hpop
      obtain ⟨-, hsame, -, hout, -⟩ := h.laid.takeIndex hfits htake
      refine ⟨hlaid, hsame.trans h.size, ?_, ?_⟩
      · change w₁.pool.freeIndex = []
        rw [(takeIndex_frame htake).1, freeIndex_takeIndex, h.free]
        rfl
      · intro b hb
        rcases List.mem_append.mp hb with hb | hb
        · exact h.bytes b (hout ▸ hb)
        · rw [List.mem_singleton.mp hb]
          exact hroom

/-- A caller that leaves room for the header in every block, and gives none
back, only gets clear numbers, however often the pool grows. -/
theorem clear_of_leavesRoom (hcount : 0 < inAllocSize)
    (hfits : (inSize.toNat + 12) * inAllocSize.toNat < platform.sizeMod)
    {ops : List ScalableOp} (hops : ∀ op ∈ ops, LeavesRoom inSize op)
    (halong : LabelledRun.Along (step platform) (Fits platform)
      (start platform inSize inAllocSize data memory) ops) :
    LabelledRun.Along (step platform) Clear
      (start platform inSize inAllocSize data memory) ops := by
  have hstart : Fresh inSize
      (start platform inSize inAllocSize data memory) :=
    ⟨laid_start platform hcount hfits, rfl, rfl, fun b hb => by cases hb⟩
  have hroom : LabelledRun.Along (step platform)
      (fun _ op => LeavesRoom inSize op)
      (start platform inSize inAllocSize data memory) ops :=
    LabelledRun.along_of_forall fun op hop _ => hops op hop
  exact LabelledRun.along_of_invariant
    (fun _ _ _ h hop hstep => Fresh.step h hop.1 hop.2 hstep)
    (fun _ _ h hop => Fresh.clear h hop.1) hstart (hroom.and halong)

/-- In a run whose numbers are clear and whose sizes fit, the outstanding
blocks never overlap, lie in their regions and keep their headers; and in a
run whose sizes fit and whose blocks never overlap, the numbers are clear. -/
theorem separate_of_clear (hcount : 0 < inAllocSize)
    (hfits : (inSize.toNat + 12) * inAllocSize.toNat < platform.sizeMod)
    (ops : List ScalableOp) :
    (LabelledRun.Along (step platform)
          (fun w op => w.Clear op ∧ w.Fits platform op)
          (start platform inSize inAllocSize data memory) ops →
        ∀ pre post w, ops = pre ++ post →
          LabelledRun.run (step platform)
            (start platform inSize inAllocSize data memory) pre = some w →
          Separate w) ∧
      (LabelledRun.Along (step platform) (Fits platform)
          (start platform inSize inAllocSize data memory) ops →
        (∀ pre post w, ops = pre ++ post →
          LabelledRun.run (step platform)
            (start platform inSize inAllocSize data memory) pre = some w →
          Separate w) →
        LabelledRun.Along (step platform) Clear
          (start platform inSize inAllocSize data memory) ops) := by
  have hstart : Laid (start platform inSize inAllocSize data memory) :=
    laid_start platform hcount hfits
  constructor
  · intro halong
    exact LabelledRun.throughout_of_along (fun _ h => Laid.separate h)
      (fun _ _ _ h hop => h.step hop.1 hop.2) hstart halong
  · intro hfits hseparate
    have hthroughout : LabelledRun.Throughout (step platform) Separate
        (start platform inSize inAllocSize data memory) ops := hseparate
    refine hthroughout.along ?_ ?_ hstart hfits
    · exact fun w op w' h hop hclear hstep => Laid.step h hclear hop hstep
    · exact fun w op h _ hop hafter => Laid.clear_of_separate h hop hafter

end

/-- Two blocks that fill the size the pool was made for. -/
def fullBlocks : List ScalableOp := [.pop 16 0 0, .pop 16 0 0]

/-- The second block is pushed while the first is out, and one more popped. -/
def pushThenPop : List ScalableOp :=
  [.pop 8 0 0, .pop 8 0 0,
    .push { addr := 1064, index := 1, inSize := 8, thread := 0
            generation := 0 },
    .pop 8 0 0]

/-- The second block starts in the bytes of the first; after the `Push` the
block that is still out is popped again. -/
theorem pops_overlap :
    (∃ w, LabelledRun.run (step .x64) (start .x64 16 2 1000 fun _ => 0)
        fullBlocks = some w ∧ ¬Separate w) ∧
      ∃ w, LabelledRun.run (step .x64) (start .x64 64 2 1000 fun _ => 0)
        pushThenPop = some w ∧ ¬Separate w := by
  constructor
  · refine ⟨_, rfl, fun h => ?_⟩
    exact absurd h.disjoint (by decide)
  · refine ⟨_, rfl, fun h => ?_⟩
    exact absurd h.disjoint (by decide)

/-- Two small blocks and one of the next generation; the first is pushed, and
the number 0 that is put back serves in the new region. -/
def smallBlocks : List ScalableOp :=
  let first : PoolBlock :=
    { addr := 1000, index := 0, inSize := 8, thread := 0, generation := 0 }
  [.pop 8 0 0, .pop 8 1 0, .pop 8 0 4000, .write first 0 [1, 2], .push first,
    .pop 8 1 0]

theorem separate_of_clear_smallBlocks :
    ∃ w, LabelledRun.run (step .x64) (start .x64 64 2 1000 fun _ => 0)
      smallBlocks = some w ∧ Separate w := by
  have hrun : LabelledRun.run (step .x64) (start .x64 64 2 1000 fun _ => 0)
      smallBlocks = some _ := rfl
  refine ⟨_, hrun, ?_⟩
  exact (separate_of_clear (by decide) (by decide)
    smallBlocks).1 (by decide) smallBlocks [] _ (List.append_nil _).symm hrun

end PoolWorld

end DokeviNet
