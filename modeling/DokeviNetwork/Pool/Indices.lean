import DokeviNetwork.Pool.Layout

/-!
# Which numbers the growing pool has out

`Pop` enters the address of a block in `_usedIndex`, `Push` looks the block up
under the pointer that `Pop` returned, twelve bytes behind.  Where no block
starts there, `operator[]` makes the number 0 up and the entry of the block
stays.  So the numbers and the counts agree with the blocks that are out as long
as nothing is pushed, and not after the first `Push`.
-/

namespace DokeviNet

open LabelledRun ScalablePool

namespace PoolWorld

/-- The numbers that are out or free are distinct and within the generation, and
both counts are that of the outstanding blocks. -/
structure Unique (w : PoolWorld) : Prop where
  distinct : (w.outstanding.map PoolBlock.index ++ w.pool.freeIndex).Nodup
  below : ∀ i ∈ w.outstanding.map PoolBlock.index ++ w.pool.freeIndex,
    i < w.pool.allocSize
  useSize : w.pool.useSize.toNat = w.outstanding.length
  usedIndex : w.pool.usedIndex.keys.length = w.outstanding.length

/-- `Push` puts back the number of its block. -/
def PutsBackOwn (w : PoolWorld) : ScalableCall → Prop
  | .pop _ _ _ => True
  | .push b => w.pool.pushedIndex b.pointer = b.index

/-- The offset of the block of a `Pop` does not overflow, and neither do the
sizes of the next generation. -/
def SizesFit (platform : Platform) (w : PoolWorld) : ScalableCall → Prop
  | .pop _ _ _ =>
    w.pool.nextIndex.toNat * w.pool.size.toNat < 2 ^ 32 ∧ w.CanGrow platform
  | .push _ => True

instance (w : PoolWorld) : ∀ c, Decidable (w.PutsBackOwn c)
  | .pop _ _ _ => isTrue trivial
  | .push _ => inferInstanceAs (Decidable (_ = _))

instance (platform : Platform) (w : PoolWorld) :
    ∀ c, Decidable (w.SizesFit platform c)
  | .pop _ _ _ => inferInstanceAs (Decidable (_ ∧ (_ → _ → _ ∧ _)))
  | .push _ => isTrue trivial

/-- Each entry of `_usedIndex` is the number of a block that starts there. -/
def Entered (w : PoolWorld) : Prop :=
  ∀ p i, w.pool.usedIndex.lookup p = some i →
    ∃ b ∈ w.outstanding, b.addr = p ∧ b.index = i

/-- A block starts at the place of its number, with room for a header. -/
def StartsIn (w : PoolWorld) (b : PoolBlock) : Prop :=
  PoolBlock.Placed { b with inSize := 0 } w.pool w.regions

/-- What holds before the first `Push`. -/
structure HandedOut (w : PoolWorld) : Prop where
  numbered : Numbered w.pool
  tracked : Tracked w.pool w.regions
  size : 0 < w.pool.size.toNat
  free : w.pool.freeIndex = []
  indices : w.outstanding.map (fun b => b.index.toNat) =
    List.range w.pool.allocIndex.toNat
  starts : ∀ b ∈ w.outstanding, w.StartsIn b
  keys : w.pool.usedIndex.keys.Perm (w.outstanding.map PoolBlock.addr)
  useSize : w.pool.useSize.toNat = w.outstanding.length

variable {platform : Platform} {w w' : PoolWorld} {b b' : PoolBlock}

theorem HandedOut.length (h : HandedOut w) :
    w.outstanding.length = w.pool.allocIndex.toNat := by
  have hlength := congrArg List.length h.indices
  rwa [List.length_map, List.length_range] at hlength

theorem HandedOut.unique (h : HandedOut w) : Unique w := by
  have hmap : (w.outstanding.map PoolBlock.index).map UInt32.toNat =
      List.range w.pool.allocIndex.toNat := by
    rw [List.map_map, ← h.indices]
    rfl
  have hnodup : ((w.outstanding.map PoolBlock.index).map
      UInt32.toNat).Nodup := by
    rw [hmap]
    exact List.nodup_range
  refine ⟨?_, ?_, h.useSize, ?_⟩
  · rw [h.free, List.append_nil]
    exact hnodup.of_map _
  · intro i hi
    rw [h.free, List.append_nil] at hi
    obtain ⟨b, hb, rfl⟩ := List.mem_map.mp hi
    exact Nat.lt_of_lt_of_le (h.starts b hb).index_lt h.numbered.index_le
  · rw [h.keys.length_eq, List.length_map]

/-! ## What a `Pop` enters -/

section

variable {allocIndex inSize thread : UInt32}

theorem Entered.place (h : Entered w) :
    Entered (w.place allocIndex inSize thread) := by
  intro p i hp
  change (w.pool.usedIndex.insert (w.pool.blockAddress allocIndex)
    allocIndex).lookup p = some i at hp
  by_cases heq : p = w.pool.blockAddress allocIndex
  · subst heq
    refine ⟨w.newBlock allocIndex inSize thread, by simp [PoolWorld.place], rfl,
      ?_⟩
    exact Option.some.inj ((AList.lookup_insert _).symm.trans hp)
  · obtain ⟨b, hb, haddr, hindex⟩ :=
      h p i ((AList.lookup_insert_ne heq).symm.trans hp)
    exact ⟨b, List.mem_append_left _ hb, haddr, hindex⟩

/-- The first part of `Pop` leaves the entries and the counts. -/
theorem takeIndex_used {newData : ℕ}
    (htake : w.takeIndex platform newData = some w') :
    w'.pool.usedIndex = w.pool.usedIndex ∧
      w'.pool.useSize = w.pool.useSize ∧ w'.pool.size = w.pool.size := by
  obtain ⟨hpool, -⟩ := takeIndex_frame htake
  rw [hpool, ScalablePool.takeIndex]
  split
  · dsimp only
    split
    · exact ⟨rfl, rfl, rfl⟩
    · exact ⟨rfl, rfl, rfl⟩
  · exact ⟨rfl, rfl, rfl⟩

theorem Entered.pop (h : Entered w) {newData : ℕ}
    (hcall : w.call platform (.pop inSize thread newData) = some w') :
    Entered w' := by
  obtain ⟨w₁, htake, rfl⟩ := Option.map_eq_some_iff.mp hcall
  obtain ⟨-, hout⟩ := takeIndex_frame htake
  obtain ⟨hused, -, -⟩ := takeIndex_used htake
  apply Entered.place
  intro p i hp
  rw [hused] at hp
  rw [hout]
  exact h p i hp

/-- No block that is out starts where a block with a further number does. -/
theorem addr_newBlock_ne (hn : Numbered w.pool)
    (ht : Tracked w.pool w.regions) (hsize : 0 < w.pool.size.toNat)
    (hlt : allocIndex.toNat < w.pool.allocIndex.toNat)
    (hoffset : allocIndex.toNat * w.pool.size.toNat < 2 ^ 32)
    (hb : w.StartsIn b) (hne : b.index.toNat ≠ allocIndex.toNat) :
    b.addr ≠ (w.newBlock allocIndex inSize thread).addr := by
  have hnew : PoolBlock.Placed (w.newBlock allocIndex 0 thread) w.pool
      w.regions := placed_newBlock hn ht hlt hoffset (Nat.zero_le _)
  obtain ⟨r, hr, -, haddr, hroom⟩ := hb.region
  obtain ⟨c, hc, -, hnew_addr, hnew_room⟩ := hnew.region
  change b.addr = r.base + b.index.toNat * w.pool.size.toNat at haddr
  change b.index.toNat * w.pool.size.toNat + 12 ≤ r.len at hroom
  change (w.newBlock allocIndex inSize thread).addr =
    c.base + allocIndex.toNat * w.pool.size.toNat at hnew_addr
  change allocIndex.toNat * w.pool.size.toNat + 12 ≤ c.len at hnew_room
  rw [haddr, hnew_addr]
  by_cases heq : r = c
  · intro hsame
    rw [heq] at hsame
    exact hne (Nat.eq_of_mul_eq_mul_right hsize (Nat.add_left_cancel hsame))
  · have hapart := (ht.pairwise hr hc heq).2
    unfold Region.Apart at hapart
    omega

/-- Without free numbers, a further one is handed out. -/
theorem HandedOut.toNat_allocIndex (h : HandedOut w)
    (hgrow : w.CanGrow platform) {newData : ℕ}
    (htake : w.takeIndex platform newData = some w') :
    w'.pool.allocIndex.toNat = w.pool.allocIndex.toNat + 1 := by
  obtain ⟨hpool, -⟩ := takeIndex_frame htake
  rw [hpool, allocIndex_takeIndex h.free]
  exact h.numbered.toNat_succ_index hgrow.canDouble h.free

/-- The blocks that are out stay where they are, below the new number. -/
theorem HandedOut.starts_takeIndex (h : HandedOut w)
    (hgrow : w.CanGrow platform) {newData : ℕ}
    (htake : w.takeIndex platform newData = some w')
    (hb : b ∈ w'.outstanding) :
    w'.StartsIn b ∧ b.index.toNat < w.pool.nextIndex.toNat := by
  obtain ⟨-, hout⟩ := takeIndex_frame htake
  obtain ⟨-, -, hsize⟩ := takeIndex_used htake
  rw [hout] at hb
  obtain ⟨hindex, r, hr, hgen, haddr, hroom⟩ := h.starts b hb
  refine ⟨⟨?_, r, ?_, hgen, hsize ▸ haddr, hsize ▸ hroom⟩, ?_⟩
  · rw [h.toNat_allocIndex hgrow htake]
    exact Nat.lt_succ_of_lt hindex
  · obtain ⟨-, rfl⟩ | ⟨-, -, rfl⟩ := takeIndex_cases htake
    · exact hr
    · exact List.mem_append_left _ hr
  · rw [nextIndex_of_fresh h.free]
    exact hindex

/-- An entry for a block that starts where none does. -/
theorem keys_place (hkeys : w.pool.usedIndex.keys.Perm
      (w.outstanding.map PoolBlock.addr))
    (hnew : ∀ b ∈ w.outstanding,
      b.addr ≠ (w.newBlock allocIndex inSize thread).addr) :
    (w.place allocIndex inSize thread).pool.usedIndex.keys.Perm
      ((w.place allocIndex inSize thread).outstanding.map PoolBlock.addr) := by
  have hnot : (w.newBlock allocIndex inSize thread).addr ∉
      w.pool.usedIndex.keys := by
    rw [hkeys.mem_iff]
    intro hmem
    obtain ⟨b, hb, haddr⟩ := List.mem_map.mp hmem
    exact hnew b hb haddr
  change (w.pool.usedIndex.insert _ _).keys.Perm
    ((w.outstanding ++ [_]).map PoolBlock.addr)
  rw [AList.keys_insert, List.map_append, List.erase_of_not_mem hnot]
  exact (hkeys.cons _).trans (List.perm_append_singleton _ _).symm

theorem useSize_place (hcount : w.pool.useSize.toNat = w.outstanding.length)
    (hlt : w.outstanding.length + 1 < 2 ^ 32) :
    (w.place allocIndex inSize thread).pool.useSize.toNat =
      (w.place allocIndex inSize thread).outstanding.length := by
  change (w.pool.useSize + 1).toNat = (w.outstanding ++ [_]).length
  rw [List.length_append, WrappingCounter.toNat_add_one_of_lt (hcount ▸ hlt),
    hcount]
  rfl

theorem HandedOut.pop (h : HandedOut w) {newData : ℕ}
    (hfits : w.SizesFit platform (.pop inSize thread newData))
    (hcall : w.call platform (.pop inSize thread newData) = some w') :
    HandedOut w' := by
  obtain ⟨w₁, htake, rfl⟩ := Option.map_eq_some_iff.mp hcall
  obtain ⟨hpool, hout⟩ := takeIndex_frame htake
  obtain ⟨hused, huse, hsize⟩ := takeIndex_used htake
  obtain ⟨hoffset, hgrow⟩ := hfits
  obtain ⟨hn, hlt⟩ := h.numbered.takeIndex hgrow.canDouble newData
  rw [← hpool] at hn hlt
  rw [← hsize] at hoffset
  have ht := tracked_takeIndex h.numbered h.tracked hgrow htake
  have hcount := h.toNat_allocIndex hgrow htake
  have hpos : 0 < w₁.pool.size.toNat := hsize ▸ h.size
  refine ⟨hn.recordUse hlt _, ?_, hpos, ?_, ?_, ?_, ?_, ?_⟩
  · exact ⟨ht.current, ht.nonempty, ht.base, ht.generation_le, ht.apart⟩
  · change w₁.pool.freeIndex = []
    rw [hpool, freeIndex_takeIndex, h.free]
    rfl
  · change (w₁.outstanding ++ [_]).map _ = List.range w₁.pool.allocIndex.toNat
    rw [List.map_append, hout, h.indices, hcount, List.range_succ,
      ← nextIndex_of_fresh h.free]
    rfl
  · intro b hb
    rcases List.mem_append.mp hb with hb | hb
    · obtain ⟨hindex, hregion⟩ := (h.starts_takeIndex hgrow htake hb).1
      exact ⟨hindex, hregion⟩
    · have hplaced : PoolBlock.Placed (w₁.newBlock w.pool.nextIndex 0 thread)
          w₁.pool w₁.regions :=
        placed_newBlock hn ht hlt hoffset (Nat.zero_le _)
      rw [List.mem_singleton.mp hb]
      exact ⟨hplaced.index_lt, hplaced.region⟩
  · refine keys_place ?_ ?_
    · rw [hused, hout]
      exact h.keys
    · intro b hb
      obtain ⟨hstarts, hne⟩ := h.starts_takeIndex hgrow htake hb
      exact addr_newBlock_ne hn ht hpos hlt hoffset hstarts hne.ne
  · have hbound := w₁.pool.allocIndex.toNat_lt
    refine useSize_place ?_ ?_
    · rw [huse, hout]
      exact h.useSize
    · rw [hout, h.length, ← hcount]
      exact hbound

end

/-! ## What a `Push` does to them -/

theorem addr_ne_pointer (b : PoolBlock) : b.addr ≠ b.pointer :=
  Nat.ne_of_lt (Nat.lt_add_of_pos_right (by decide))

/-- A `Push` that finds no entry leaves the entry of its block behind. -/
theorem not_unique_push (h : Entered w) (hunique : Unique w)
    (hown : w.PutsBackOwn (.push b)) (hpush : w.push b = some w') :
    ¬Unique w' := by
  obtain ⟨hb, hpush⟩ := Option.ite_none_right_eq_some.mp hpush
  obtain rfl := Option.some.inj hpush
  intro hafter
  change w.pool.pushedIndex b.pointer = b.index at hown
  cases hp : w.pool.usedIndex.lookup b.pointer with
  | some i =>
      -- the block that starts at the pointer has the number of `b`
      obtain ⟨b', hb', haddr, hindex⟩ := h _ _ hp
      rw [pushedIndex, hp, Option.getD_some] at hown
      have hnodup := (List.nodup_append.mp hunique.distinct).1
      have heq : b' = b :=
        List.inj_on_of_nodup_map hnodup hb' hb (hindex.trans hown)
      exact addr_ne_pointer b (heq ▸ haddr)
  | none =>
      have hnot : b.pointer ∉ w.pool.usedIndex.keys := by
        rw [← AList.mem_keys]
        exact AList.lookup_eq_none.mp hp
      have hkeys : (w.pool.usedIndex.erase b.pointer).keys =
          w.pool.usedIndex.keys := by
        rw [AList.keys_erase, List.erase_of_not_mem hnot]
      have hcount := hafter.usedIndex
      change (w.pool.usedIndex.erase b.pointer).keys.length =
        (w.outstanding.erase b).length at hcount
      have hpos := List.length_pos_of_mem hb
      have hbefore := hunique.usedIndex
      rw [hkeys, List.length_erase_of_mem hb] at hcount
      omega

/-! ## Runs -/

section

variable {inSize inAllocSize : UInt32} {data : ℕ} {memory : Region UInt8}

theorem entered_start :
    Entered (start platform inSize inAllocSize data memory) := by
  intro p i hp
  have hnone : none = some i := (AList.lookup_empty p).symm.trans hp
  cases hnone

theorem handedOut_start (hsize : 0 < inSize) (hcount : 0 < inAllocSize)
    (hfits : (inSize.toNat + 12) * inAllocSize.toNat < platform.sizeMod) :
    HandedOut (start platform inSize inAllocSize data memory) := by
  have hlaid : Laid (start platform inSize inAllocSize data memory) :=
    laid_start platform hcount hfits
  refine ⟨hlaid.numbered, hlaid.tracked, hsize, rfl, rfl, ?_, List.Perm.nil,
    rfl⟩
  intro b hb
  cases hb

/-- A run that keeps the numbers distinct, and puts back the number of each
block, has no `Push` in it; and where the sizes are positive and fit, a run
without a `Push` does so. -/
theorem unique_of_no_push {calls : List ScalableCall}
    (hrun : (run (call platform)
      (start platform inSize inAllocSize data memory) calls).isSome) :
    (Throughout (call platform) Unique
          (start platform inSize inAllocSize data memory) calls →
        Along (call platform) PutsBackOwn
          (start platform inSize inAllocSize data memory) calls →
        ∀ b, ScalableCall.push b ∉ calls) ∧
      (0 < inSize → 0 < inAllocSize →
        (inSize.toNat + 12) * inAllocSize.toNat < platform.sizeMod →
        Along (call platform) (SizesFit platform)
          (start platform inSize inAllocSize data memory) calls →
        (∀ b, ScalableCall.push b ∉ calls) →
        Throughout (call platform) Unique
            (start platform inSize inAllocSize data memory) calls ∧
          Along (call platform) PutsBackOwn
            (start platform inSize inAllocSize data memory) calls) := by
  obtain ⟨t, hrun⟩ := Option.isSome_iff_exists.mp hrun
  constructor
  · intro hunique hown b hb
    have hpops : Along (call platform) (fun _ c => ∀ b, c ≠ .push b)
        (start platform inSize inAllocSize data memory) calls := by
      refine hunique.along ?_ ?_ entered_start (hown.and (along_isSome hrun))
      · rintro w c w' h - hpop hcall
        cases c with
        | pop inSize thread newData => exact Entered.pop h hcall
        | push b => exact absurd rfl (hpop b)
      · rintro w c h hw ⟨hown, hsome⟩ hafter b rfl
        obtain ⟨w', hcall⟩ := Option.isSome_iff_exists.mp hsome
        exact not_unique_push h hw hown hcall (hafter w' hcall)
    exact hpops.forall_mem hrun _ hb b rfl
  · intro hsize hcount hroom hfits hpops
    have halong : Along (call platform)
        (fun w c => w.SizesFit platform c ∧ ∀ b, c ≠ .push b)
        (start platform inSize inAllocSize data memory) calls := by
      refine hfits.and (along_of_forall ?_)
      rintro c hc w b rfl
      exact hpops b hc
    constructor
    · refine throughout_of_along (fun w h => HandedOut.unique h) ?_
        (handedOut_start hsize hcount hroom) halong
      rintro w c w' h ⟨hfits, hpop⟩ hcall
      cases c with
      | pop inSize thread newData => exact h.pop hfits hcall
      | push b => exact absurd rfl (hpop b)
    · refine halong.mono ?_
      rintro w c ⟨-, hpop⟩
      cases c with
      | pop inSize thread newData => trivial
      | push b => exact absurd rfl (hpop b)

end

/-- Two blocks; the second is pushed and a third popped. -/
def secondPushed : List ScalableCall :=
  [.pop 8 0 0, .pop 8 0 0,
    .push { addr := 1064, index := 1, inSize := 8, thread := 0
            generation := 0 },
    .pop 8 0 0]

/-- `Push` puts back the number 0, which is out, instead of 1; the third block
gets it as well. -/
theorem number_handed_out_twice :
    ∃ w w', run (call .x64) (start .x64 64 2 1000 fun _ => 0)
        (secondPushed.take 2) = some w ∧
      run (call .x64) (start .x64 64 2 1000 fun _ => 0) secondPushed =
        some w' ∧
      ¬Along (call .x64) PutsBackOwn (start .x64 64 2 1000 fun _ => 0)
        secondPushed ∧
      Unique w ∧ ¬Unique w' := by
  refine ⟨_, _, rfl, rfl, ?_, ⟨by decide, ?_, rfl, rfl⟩, ?_⟩
  · exact fun h => absurd h (by decide)
  · change ∀ i ∈ ([0, 1] : List UInt32), i < 2
    simp
  · intro h
    exact absurd h.distinct (by decide)

/-- Three blocks, the third in the second region. -/
theorem unique_of_no_push_grown :
    ∃ w, run (call .x64) (start .x64 64 2 1000 fun _ => 0)
      [.pop 8 0 0, .pop 80 1 0, .pop 8 0 4000] = some w ∧ Unique w := by
  have hrun : run (call .x64) (start .x64 64 2 1000 fun _ => 0)
      [.pop 8 0 0, .pop 80 1 0, .pop 8 0 4000] = some _ := rfl
  refine ⟨_, hrun, ?_⟩
  exact ((unique_of_no_push (Option.isSome_of_eq_some hrun)).2 (by decide)
    (by decide) (by decide) (by decide) (by simp)).1 _ [] _
    (List.append_nil _).symm hrun

end PoolWorld

end DokeviNet
