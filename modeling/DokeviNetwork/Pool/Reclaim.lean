import DokeviNetwork.Pool.Layout
import Mathlib.Data.List.Nodup

/-!
# When the region of a superseded generation is freed

`_generationFree` of a generation starts with the number of its blocks, and
`Push` counts it down only once the generation is superseded.  All its numbers
are out then, but not all of them in blocks of that generation: the numbers of
blocks of older generations count as well, and are never given back to it.  So
the region is freed with its last block exactly if no older block was out when
the generation was superseded.
-/

namespace DokeviNet

open LabelledRun ScalablePool

/-- A pool with what happened to it: the generations blocks were popped in,
those whose regions were given to `free`, and the number of blocks of older
generations that were out when a generation was superseded. -/
structure PoolHistory where
  world : PoolWorld
  popped : List UInt32
  freed : List UInt32
  older : UInt32 → ℕ

namespace PoolHistory

/-- A pool after `Init`. -/
def start (platform : Platform) (inSize inAllocSize : UInt32) (data : ℕ)
    (memory : Region UInt8) : PoolHistory where
  world := PoolWorld.start platform inSize inAllocSize data memory
  popped := []
  freed := []
  older := fun _ => 0

/-- The blocks of generations before the current one that are out. -/
def olderOut (w : PoolWorld) : ℕ :=
  w.outstanding.countP fun b => decide (b.generation ≠ w.pool.curGeneration)

/-- The history after the first part of a `Pop`, which leaves `w`. -/
def take (h : PoolHistory) (w : PoolWorld) : PoolHistory :=
  { h with
    world := w
    older :=
      if h.world.pool.grows then
        Function.update h.older h.world.pool.curGeneration (olderOut h.world)
      else h.older }

/-- What a call, whose effect on the pool is `w`, adds to the history. -/
def record (h : PoolHistory) (w : PoolWorld) : ScalableCall → PoolHistory
  | .pop _ _ _ =>
    { h.take w with popped := h.popped ++ [w.pool.curGeneration] }
  | .push b =>
    { h with
      world := w
      freed :=
        if h.world.pool.frees b.generation then h.freed ++ [b.generation]
        else h.freed }

def call (platform : Platform) (h : PoolHistory) (c : ScalableCall) :
    Option PoolHistory :=
  (h.world.call platform c).map fun w' => h.record w' c

/-- The region of a superseded generation that blocks were popped in is gone
exactly if none of these is out, and was freed at most once. -/
def Reclaims (h : PoolHistory) : Prop :=
  ∀ g ∈ h.popped, g.toNat < h.world.pool.curGeneration.toNat →
    ((∀ r ∈ h.world.regions, r.generation ≠ g) ↔
        h.world.outstandingIn g = 0) ∧
      h.freed.count g ≤ 1

/-- The last block of a superseded generation is pushed only if no older block
was out when it was superseded. -/
def NoOlderOut (h : PoolHistory) : ScalableCall → Prop
  | .pop _ _ _ => True
  | .push b => b.generation ≠ h.world.pool.curGeneration →
      h.world.outstandingIn b.generation = 1 → h.older b.generation = 0

instance (h : PoolHistory) : ∀ c, Decidable (h.NoOlderOut c)
  | .pop _ _ _ => isTrue trivial
  | .push _ => inferInstanceAs (Decidable (_ → _ → _))

/-- The counters of the superseded generations, and which regions are gone. -/
structure Counted (h : PoolHistory) : Prop where
  numbered : Numbered h.world.pool
  tracked : Tracked h.world.pool h.world.regions
  generation_le : ∀ b ∈ h.world.outstanding,
    b.generation.toNat ≤ h.world.pool.curGeneration.toNat
  counted : ∀ g, g.toNat < h.world.pool.curGeneration.toNat →
    (h.world.pool.generationFree g).toNat =
      h.world.outstandingIn g + h.older g
  countedCur : h.world.pool.generationFree h.world.pool.curGeneration =
    h.world.pool.allocSize
  region : ∀ g, g.toNat ≤ h.world.pool.curGeneration.toNat →
    ((∀ r ∈ h.world.regions, r.generation ≠ g) ↔ g ∈ h.freed)
  freed : ∀ g, g ∈ h.freed ↔
    g.toNat < h.world.pool.curGeneration.toNat ∧
      h.world.outstandingIn g = 0 ∧ h.older g = 0
  nodup : h.freed.Nodup

/-- What holds after every run whose sizes fit: moreover every number is out or
free, blocks were popped in every superseded generation, and the block that took
the last free number is still out. -/
structure Accounted (h : PoolHistory) : Prop where
  counted : Counted h
  total : h.world.outstanding.length + h.world.pool.freeIndex.length =
    h.world.pool.allocIndex.toNat
  popped : ∀ g, g.toNat < h.world.pool.curGeneration.toNat → g ∈ h.popped
  current : 0 < h.world.pool.allocIndex.toNat →
    h.world.pool.curGeneration ∈ h.popped
  last : h.world.pool.freeIndex = [] → 0 < h.world.pool.allocIndex.toNat →
    0 < h.world.outstandingIn h.world.pool.curGeneration

/-- No older block was out when a generation whose blocks are all back was
superseded. -/
def Emptied (h : PoolHistory) : Prop :=
  ∀ g, g.toNat < h.world.pool.curGeneration.toNat →
    h.world.outstandingIn g = 0 → h.older g = 0

variable {platform : Platform} {h h' : PoolHistory} {b : PoolBlock}

theorem Accounted.reclaims_iff (ha : Accounted h) :
    Reclaims h ↔ Emptied h := by
  have hc := ha.counted
  constructor
  · intro hreclaims g hg hout
    have hgone := (hreclaims g (ha.popped g hg) hg).1.mpr hout
    have hfreed := (hc.region g hg.le).mp hgone
    exact ((hc.freed g).mp hfreed).2.2
  · intro hemptied g _ hg
    rw [hc.region g hg.le, hc.freed g]
    refine ⟨⟨fun hfreed => hfreed.2.1, fun hout => ?_⟩, ?_⟩
    · exact ⟨hg, hout, hemptied g hg hout⟩
    · exact List.nodup_iff_count_le_one.mp hc.nodup g

/-! ## What a `Pop` does to the counts -/

section

variable {w w' : PoolWorld} {newData : ℕ} {allocIndex inSize thread : UInt32}

theorem outstandingIn_place (g : UInt32) :
    (w.place allocIndex inSize thread).outstandingIn g =
      w.outstandingIn g + if w.pool.curGeneration = g then 1 else 0 := by
  change (w.outstanding ++ [w.newBlock allocIndex inSize thread]).countP _ = _
  rw [List.countP_append, List.countP_singleton]
  simp only [decide_eq_true_eq]
  rfl

theorem olderOut_add (w : PoolWorld) :
    w.outstandingIn w.pool.curGeneration + olderOut w =
      w.outstanding.length := by
  rw [List.length_eq_countP_add_countP fun b =>
    decide (b.generation = w.pool.curGeneration)]
  simp [PoolWorld.outstandingIn, olderOut]

/-- Taking a number keeps how many there are, out or free. -/
theorem total_takeIndex (hn : Numbered w.pool) (hgrow : w.CanGrow platform)
    (htotal : w.outstanding.length + w.pool.freeIndex.length =
      w.pool.allocIndex.toNat) (newData : ℕ) :
    w.outstanding.length + 1 + (w.pool.takeIndex newData).freeIndex.length =
      (w.pool.takeIndex newData).allocIndex.toNat := by
  rw [freeIndex_takeIndex, List.length_dropLast]
  by_cases hfree : w.pool.freeIndex = []
  · rw [hfree, List.length_nil] at htotal ⊢
    rw [allocIndex_takeIndex hfree, hn.toNat_succ_index hgrow.canDouble hfree]
    omega
  · have hpos := List.length_pos_iff.mpr hfree
    rw [takeIndex_of_free hfree]
    dsimp only
    omega

/-- When a generation is superseded, all its numbers are out. -/
theorem Accounted.outstanding_length (ha : Accounted h)
    (hgrow : h.world.CanGrow platform) (hgrows : h.world.pool.grows = true) :
    h.world.outstanding.length = h.world.pool.allocSize.toNat := by
  obtain ⟨hfree, hfull⟩ :=
    (ha.counted.numbered.grows_iff hgrow.canDouble).mp hgrows
  have htotal := ha.total
  rwa [hfree, hfull] at htotal

theorem Counted.place (hc : Counted h)
    (hlt : allocIndex.toNat < h.world.pool.allocIndex.toNat)
    (popped : List UInt32) :
    Counted { h with
      world := h.world.place allocIndex inSize thread
      popped := popped } := by
  have hold : ∀ g, g.toNat < h.world.pool.curGeneration.toNat →
      (h.world.place allocIndex inSize thread).outstandingIn g =
        h.world.outstandingIn g := by
    intro g hg
    have hne : h.world.pool.curGeneration ≠ g := by
      rintro rfl
      exact Nat.lt_irrefl _ hg
    rw [outstandingIn_place, if_neg hne, Nat.add_zero]
  have ht := hc.tracked
  refine ⟨hc.numbered.recordUse hlt _, ?_, ?_, ?_, hc.countedCur, hc.region, ?_,
    hc.nodup⟩
  · exact ⟨ht.current, ht.nonempty, ht.base, ht.generation_le, ht.apart⟩
  · intro b hb
    rcases List.mem_append.mp hb with hb | hb
    · exact hc.generation_le b hb
    · rw [List.mem_singleton.mp hb]
      exact le_rfl
  · intro g hg
    rw [hold g hg]
    exact hc.counted g hg
  · intro g
    rw [hc.freed g]
    refine and_congr_right fun hg => ?_
    rw [hold g hg]

theorem ne_of_toNat_lt {g g' : UInt32} (hlt : g.toNat < g'.toNat) : g ≠ g' :=
  fun heq => Nat.ne_of_lt hlt (congrArg _ heq)

/-- The superseded generations after growing. -/
theorem Counted.toNat_lt_succ_iff (hc : Counted h) (g : UInt32) :
    g.toNat < (h.world.pool.curGeneration + 1).toNat ↔
      g.toNat < h.world.pool.curGeneration.toNat ∨
        g = h.world.pool.curGeneration := by
  rw [hc.numbered.toNat_succ_generation, Nat.lt_succ_iff,
    Nat.le_iff_lt_or_eq, UInt32.toNat_inj]

/-- The generation that is superseded has as many numbers as blocks are out,
older ones included. -/
theorem Accounted.counted_grow (ha : Accounted h)
    (hgrow : h.world.CanGrow platform) (hgrows : h.world.pool.grows = true)
    (n : UInt32) {g : UInt32}
    (hg : g.toNat < (h.world.pool.curGeneration + 1).toNat) :
    (Function.update h.world.pool.generationFree
        (h.world.pool.curGeneration + 1) n g).toNat =
      h.world.outstandingIn g + Function.update h.older
        h.world.pool.curGeneration (olderOut h.world) g := by
  have hc := ha.counted
  rw [Function.update_of_ne (ne_of_toNat_lt hg)]
  rcases (hc.toNat_lt_succ_iff g).mp hg with hold | rfl
  · rw [Function.update_of_ne (ne_of_toNat_lt hold)]
    exact hc.counted g hold
  · rw [Function.update_self, hc.countedCur, olderOut_add,
      ha.outstanding_length hgrow hgrows]

/-- The generation that begins has its region, and was not freed. -/
theorem Counted.region_grow (hc : Counted h) {g : UInt32}
    (hg : g.toNat ≤ (h.world.pool.curGeneration + 1).toNat) :
    (∀ r ∈ h.world.regions ++ [h.world.newRegion platform newData],
      r.generation ≠ g) ↔ g ∈ h.freed := by
  rw [List.forall_mem_append, List.forall_mem_singleton]
  rcases Nat.lt_or_eq_of_le hg with hg | hg
  · have hle : g.toNat ≤ h.world.pool.curGeneration.toNat := by
      rcases (hc.toNat_lt_succ_iff g).mp hg with hold | rfl
      · exact hold.le
      · exact le_rfl
    rw [hc.region g hle]
    exact and_iff_left (ne_of_toNat_lt hg).symm
  · obtain rfl := UInt32.toNat_inj.mp hg
    refine ⟨fun hnone => absurd rfl hnone.2, fun hfreed => ?_⟩
    have hold := ((hc.freed _).mp hfreed).1
    exact absurd ((hc.toNat_lt_succ_iff _).mpr (Or.inl hold)) (Nat.lt_irrefl _)

/-- The generation that is superseded is not empty, or older blocks are out. -/
theorem Accounted.freed_grow (ha : Accounted h)
    (hgrow : h.world.CanGrow platform) (hgrows : h.world.pool.grows = true)
    (g : UInt32) :
    g ∈ h.freed ↔ g.toNat < (h.world.pool.curGeneration + 1).toNat ∧
      h.world.outstandingIn g = 0 ∧ Function.update h.older
        h.world.pool.curGeneration (olderOut h.world) g = 0 := by
  have hc := ha.counted
  rw [hc.freed g, hc.toNat_lt_succ_iff g]
  by_cases hcur : g = h.world.pool.curGeneration
  · subst hcur
    have hpos : 0 < h.world.pool.allocSize.toNat :=
      Nat.lt_of_lt_of_le (Nat.two_pow_pos _) hc.numbered.generation
    have hsum := olderOut_add h.world
    have hlength := ha.outstanding_length hgrow hgrows
    rw [Function.update_self]
    refine ⟨fun hfreed => absurd hfreed.1 (Nat.lt_irrefl _), ?_⟩
    rintro ⟨-, hzero, hnone⟩
    omega
  · rw [Function.update_of_ne hcur, or_iff_left hcur]

/-- Growing keeps the counts. -/
theorem Accounted.grow (ha : Accounted h) (hgrow : h.world.CanGrow platform)
    (hgrows : h.world.pool.grows = true)
    (hnumbered : Numbered (h.world.pool.takeIndex newData))
    (htracked : Tracked (h.world.pool.takeIndex newData)
      (h.world.regions ++ [h.world.newRegion platform newData])) :
    Counted (h.take { h.world with
      pool := h.world.pool.takeIndex newData
      regions := h.world.regions ++ [h.world.newRegion platform newData] }) := by
  have hc := ha.counted
  have hlt := hc.toNat_lt_succ_iff
  rw [takeIndex_of_grows hgrows] at hnumbered htracked ⊢
  rw [PoolHistory.take, if_pos hgrows]
  refine ⟨hnumbered, htracked, ?_, ?_, Function.update_self _ _ _, ?_, ?_,
    hc.nodup⟩
  · intro b hb
    rcases Nat.lt_or_eq_of_le (hc.generation_le b hb) with hlt_cur | hcur
    · exact ((hlt b.generation).mpr (Or.inl hlt_cur)).le
    · exact ((hlt b.generation).mpr (Or.inr (UInt32.toNat_inj.mp hcur))).le
  · exact fun g hg => ha.counted_grow hgrow hgrows _ hg
  · exact fun g hg => hc.region_grow hg
  · exact fun g => ha.freed_grow hgrow hgrows g

/-- The counts after the first part of `Pop`. -/
theorem Accounted.take (ha : Accounted h) (hgrow : h.world.CanGrow platform)
    (htake : h.world.takeIndex platform newData = some w) :
    Counted (h.take w) := by
  have hc := ha.counted
  have hnumbered := (hc.numbered.takeIndex hgrow.canDouble newData).1
  have htracked :=
    PoolWorld.tracked_takeIndex hc.numbered hc.tracked hgrow htake
  obtain ⟨hgrows, rfl⟩ | ⟨hgrows, -, rfl⟩ := PoolWorld.takeIndex_cases htake
  · obtain ⟨freeIndex, allocIndex, -, hpool⟩ :=
      hc.numbered.takeIndex_of_not_grows hgrow.canDouble hgrows newData
    rw [PoolHistory.take, if_neg (by simp [hgrows])]
    rw [hpool] at hnumbered htracked ⊢
    exact ⟨hnumbered, htracked, hc.generation_le, hc.counted, hc.countedCur,
      hc.region, hc.freed, hc.nodup⟩
  · exact ha.grow hgrow hgrows hnumbered htracked

/-- What a `Pop` does to the current generation and to the history. -/
theorem pop_cases (hn : Numbered h.world.pool)
    (hgrow : h.world.CanGrow platform)
    (htake : h.world.takeIndex platform newData = some w) :
    (h.world.pool.grows = false ∧
        w.pool.curGeneration = h.world.pool.curGeneration ∧
        (h.take w).older = h.older) ∨
      (h.world.pool.grows = true ∧
        w.pool.curGeneration = h.world.pool.curGeneration + 1 ∧
        (h.take w).older = Function.update h.older
          h.world.pool.curGeneration (olderOut h.world)) := by
  obtain ⟨hpool, -⟩ := PoolWorld.takeIndex_frame htake
  rw [hpool, PoolHistory.take]
  cases hgrows : h.world.pool.grows with
  | false =>
      obtain ⟨freeIndex, allocIndex, -, hsame⟩ :=
        hn.takeIndex_of_not_grows hgrow.canDouble hgrows newData
      rw [hsame]
      exact Or.inl ⟨rfl, rfl, rfl⟩
  | true =>
      rw [takeIndex_of_grows hgrows]
      exact Or.inr ⟨rfl, rfl, rfl⟩

theorem Accounted.pop (ha : Accounted h) (hgrow : h.world.CanGrow platform)
    (hcall : h.call platform (.pop inSize thread newData) = some h') :
    Accounted h' := by
  obtain ⟨w', hpop, rfl⟩ := Option.map_eq_some_iff.mp hcall
  obtain ⟨w, htake, rfl⟩ := Option.map_eq_some_iff.mp hpop
  have hcounted := ha.take hgrow htake
  have htotal := total_takeIndex ha.counted.numbered hgrow ha.total newData
  have hlt := (ha.counted.numbered.takeIndex hgrow.canDouble newData).2
  obtain ⟨hpool, hout⟩ := PoolWorld.takeIndex_frame htake
  rw [← hpool] at htotal hlt
  refine ⟨hcounted.place hlt _, ?_, ?_, ?_, ?_⟩
  · change (w.outstanding ++ [_]).length + w.pool.freeIndex.length = _
    rw [List.length_append, hout]
    exact htotal
  · intro g hg
    change g.toNat < w.pool.curGeneration.toNat at hg
    refine List.mem_append_left _ ?_
    obtain ⟨-, hcur, -⟩ | ⟨hgrows, hcur, -⟩ :=
      pop_cases ha.counted.numbered hgrow htake
    · exact ha.popped g (hcur ▸ hg)
    · rw [hcur] at hg
      rcases (ha.counted.toNat_lt_succ_iff g).mp hg with hold | rfl
      · exact ha.popped g hold
      · apply ha.current
        obtain ⟨-, hfull⟩ :=
          (ha.counted.numbered.grows_iff hgrow.canDouble).mp hgrows
        rw [hfull]
        exact Nat.lt_of_lt_of_le (Nat.two_pow_pos _)
          ha.counted.numbered.generation
  · intro _
    exact List.mem_append_right _ (List.mem_singleton_self _)
  · intro _ _
    have hnew : w.newBlock h.world.pool.nextIndex inSize thread ∈
        (w.place h.world.pool.nextIndex inSize thread).outstanding :=
      List.mem_append_right _ (List.mem_singleton_self _)
    exact PoolWorld.outstandingIn_pos hnew

end

/-! ## What a `Push` does to them -/

/-- The region of an outstanding block is not freed. -/
theorem Counted.exists_region (hc : Counted h) (hb : b ∈ h.world.outstanding) :
    b.generation ∉ h.freed ∧
      ∃ r ∈ h.world.regions, r.generation = b.generation := by
  have hnot : b.generation ∉ h.freed := by
    intro hfreed
    have hzero := ((hc.freed _).mp hfreed).2.1
    exact Nat.ne_of_gt (PoolWorld.outstandingIn_pos hb) hzero
  refine ⟨hnot, ?_⟩
  by_contra hnone
  push Not at hnone
  exact hnot ((hc.region _ (hc.generation_le b hb)).mp hnone)

/-- `Push` counts the generation of its block down, if it is superseded. -/
theorem Counted.counted_push (hc : Counted h) (hb : b ∈ h.world.outstanding)
    (hold : b.generation.toNat < h.world.pool.curGeneration.toNat) :
    (h.world.pool.generationFree b.generation - 1).toNat =
      h.world.outstandingIn b.generation - 1 + h.older b.generation := by
  have hpos := PoolWorld.outstandingIn_pos hb
  have hcounted := hc.counted _ hold
  rw [WrappingCounter.toNat_sub_one (by omega), hcounted]
  omega

/-- `Push` of the last block of a superseded generation frees its region
exactly if no older block was out when it was superseded. -/
theorem Counted.frees_iff (hc : Counted h) (hb : b ∈ h.world.outstanding) :
    h.world.pool.frees b.generation = true ↔
      b.generation.toNat < h.world.pool.curGeneration.toNat ∧
        h.world.outstandingIn b.generation = 1 ∧
          h.older b.generation = 0 := by
  have hpos := PoolWorld.outstandingIn_pos hb
  have hlt : b.generation ≠ h.world.pool.curGeneration ↔
      b.generation.toNat < h.world.pool.curGeneration.toNat := by
    rw [Nat.lt_iff_le_and_ne, and_iff_right (hc.generation_le b hb), Ne, Ne,
      UInt32.toNat_inj]
  rw [frees, decide_eq_true_eq, hlt]
  refine and_congr_right fun hold => ?_
  rw [← UInt32.toNat_inj, hc.counted_push hb hold, UInt32.toNat_zero]
  omega

/-- The regions that `Push` leaves. -/
theorem Counted.region_push (hc : Counted h) (hb : b ∈ h.world.outstanding)
    {w : PoolWorld} (hpush : h.world.push b = some w) :
    Tracked h.world.pool w.regions ∧
      ∀ g, g.toNat ≤ h.world.pool.curGeneration.toNat →
        ((∀ r ∈ w.regions, r.generation ≠ g) ↔
          g ∈ h.freed ∨ h.world.pool.frees b.generation = true ∧
            g = b.generation) := by
  obtain ⟨-, hpush⟩ := Option.ite_none_right_eq_some.mp hpush
  obtain rfl := Option.some.inj hpush
  obtain ⟨-, r, hr, hgen⟩ := hc.exists_region hb
  dsimp only
  split
  · next hfrees =>
    obtain ⟨hne, -⟩ := of_decide_eq_true hfrees
    rw [← hgen] at hne hfrees
    rw [← hgen]
    refine ⟨hc.tracked.filter hr hne, fun g hg => ?_⟩
    rw [← hc.region g hg, and_iff_right hfrees]
    constructor
    · intro hgone
      by_cases heq : g = r.generation
      · exact Or.inr heq
      · refine Or.inl fun s hs hs_gen => ?_
        exact hgone s (hc.tracked.mem_filter hr hs (hs_gen ▸ heq)) hs_gen
    · rintro (hgone | rfl) s hs
      · exact hgone s (List.mem_filter.mp hs).1
      · intro hs_gen
        have hbase := hc.tracked.base s (List.mem_filter.mp hs).1
        rw [hs_gen] at hbase
        exact of_decide_eq_true (List.mem_filter.mp hs).2 hbase
  · next hfrees =>
    refine ⟨hc.tracked, fun g hg => ?_⟩
    rw [hc.region g hg, or_iff_left (fun hboth => hfrees hboth.1)]

theorem mem_freed_push {w : PoolWorld} (g : UInt32) :
    g ∈ (h.record w (.push b)).freed ↔
      g ∈ h.freed ∨ h.world.pool.frees b.generation = true ∧
        g = b.generation := by
  simp only [record]
  split
  · next hfrees => simp [hfrees]
  · next hfrees => simp [hfrees]

/-- `Push` changes the pool, and takes the block from those that are out. -/
theorem push_frame {w w' : PoolWorld} (hpush : w.push b = some w') :
    b ∈ w.outstanding ∧ w'.pool = w.pool.push b.pointer b.generation ∧
      w'.outstanding = w.outstanding.erase b := by
  obtain ⟨hb, hpush⟩ := Option.ite_none_right_eq_some.mp hpush
  obtain rfl := Option.some.inj hpush
  exact ⟨hb, rfl, rfl⟩

/-- The blocks of each generation after a `Push`. -/
theorem outstandingIn_push {w w' : PoolWorld} (hpush : w.push b = some w')
    (g : UInt32) :
    w'.outstandingIn g =
      if b.generation = g then w.outstandingIn g - 1
      else w.outstandingIn g := by
  obtain ⟨hb, -, hout⟩ := push_frame hpush
  rw [PoolWorld.outstandingIn, hout]
  exact PoolWorld.countP_erase_generation hb g

theorem push_curGeneration {w w' : PoolWorld} (hpush : w.push b = some w') :
    w'.pool.curGeneration = w.pool.curGeneration := by
  obtain ⟨-, hpool, -⟩ := push_frame hpush
  rw [hpool]
  rfl

/-- `Push` counts its block out of a superseded generation. -/
theorem Counted.generationFree_push (hc : Counted h) {w : PoolWorld}
    (hpush : h.world.push b = some w) {g : UInt32}
    (hg : g.toNat < h.world.pool.curGeneration.toNat) :
    (w.pool.generationFree g).toNat = w.outstandingIn g + h.older g := by
  obtain ⟨hb, hpool, -⟩ := push_frame hpush
  rw [hpool, outstandingIn_push hpush g]
  split
  · next heq =>
    subst heq
    rw [push_generationFree_self (ne_of_toNat_lt hg)]
    exact hc.counted_push hb hg
  · next hne =>
    rw [push_generationFree_of_ne (Ne.symm hne)]
    exact hc.counted g hg

/-- The generations that are freed after a `Push`. -/
theorem Counted.freed_push (hc : Counted h) {w : PoolWorld}
    (hpush : h.world.push b = some w) (g : UInt32) :
    g ∈ (h.record w (.push b)).freed ↔
      g.toNat < h.world.pool.curGeneration.toNat ∧
        w.outstandingIn g = 0 ∧ h.older g = 0 := by
  obtain ⟨hb, -, -⟩ := push_frame hpush
  have hin := PoolWorld.outstandingIn_pos hb
  rw [mem_freed_push, hc.frees_iff hb, hc.freed g, outstandingIn_push hpush g]
  split
  · next heq =>
    subst heq
    rw [and_iff_left rfl]
    omega
  · next hne => rw [or_iff_left (fun hboth => hne hboth.2.symm)]

theorem Counted.push (hc : Counted h) (hpos : 0 < h.world.pool.allocIndex.toNat)
    {w : PoolWorld} (hpush : h.world.push b = some w) :
    Counted (h.record w (.push b)) := by
  obtain ⟨hb, hpool, hout⟩ := push_frame hpush
  obtain ⟨ht, hregion⟩ := hc.region_push hb hpush
  have hcur := push_curGeneration hpush
  refine ⟨?_, ?_, ?_, ?_, ?_, ?_, ?_, ?_⟩
  · exact hpool ▸ hc.numbered.push hpos _ _
  · rw [record, hpool]
    exact ⟨ht.current, ht.nonempty, ht.base, ht.generation_le, ht.apart⟩
  · intro b' hb'
    change b' ∈ w.outstanding at hb'
    rw [hout] at hb'
    exact hcur ▸ hc.generation_le b' (List.erase_subset hb')
  · exact fun g hg => hc.generationFree_push hpush (hcur ▸ hg)
  · change w.pool.generationFree w.pool.curGeneration = w.pool.allocSize
    rw [hcur, hpool]
    exact (push_generationFree_cur _ _).trans hc.countedCur
  · intro g hg
    rw [mem_freed_push]
    exact hregion g (hcur ▸ hg)
  · intro g
    rw [hc.freed_push hpush g, ← hcur]
    rfl
  · rw [record]
    dsimp only
    split
    · rw [← List.concat_eq_append]
      exact hc.nodup.concat (hc.exists_region hb).1
    · exact hc.nodup

theorem Accounted.push (ha : Accounted h)
    (hcall : h.call platform (.push b) = some h') : Accounted h' := by
  obtain ⟨w, hpush, rfl⟩ := Option.map_eq_some_iff.mp hcall
  obtain ⟨hb, hpool, hout⟩ := push_frame hpush
  have hlength := List.length_pos_of_mem hb
  have htotal := ha.total
  refine ⟨ha.counted.push (by omega) hpush, ?_, ?_, ?_, ?_⟩
  · change w.outstanding.length + w.pool.freeIndex.length =
      w.pool.allocIndex.toNat
    rw [hout, hpool, List.length_erase_of_mem hb]
    change _ + (h.world.pool.freeIndex ++ [_]).length =
      h.world.pool.allocIndex.toNat
    rw [List.length_append, List.length_singleton]
    omega
  · intro g hg
    change g.toNat < w.pool.curGeneration.toNat at hg
    rw [hpool] at hg
    exact ha.popped g hg
  · intro halloc
    change 0 < w.pool.allocIndex.toNat at halloc
    change w.pool.curGeneration ∈ h.popped
    rw [hpool] at halloc ⊢
    exact ha.current halloc
  · intro hnone
    change w.pool.freeIndex = [] at hnone
    rw [hpool] at hnone
    exact absurd hnone (List.append_ne_nil_of_right_ne_nil _ (by simp))

/-! ## Runs -/

/-- The size computations of a `Pop` that grows do not overflow. -/
def GrowthFits (platform : Platform) (h : PoolHistory) : ScalableCall → Prop
  | .pop _ _ _ => h.world.CanGrow platform
  | .push _ => True

instance (platform : Platform) (h : PoolHistory) :
    ∀ c, Decidable (h.GrowthFits platform c)
  | .pop _ _ _ => inferInstanceAs (Decidable (_ → _ → _ ∧ _))
  | .push _ => isTrue trivial

theorem Accounted.call {c : ScalableCall} (ha : Accounted h)
    (hfits : h.GrowthFits platform c) (hcall : h.call platform c = some h') :
    Accounted h' := by
  cases c with
  | pop inSize thread newData => exact ha.pop hfits hcall
  | push b => exact ha.push hcall

theorem Emptied.push_iff (he : Emptied h) (ha : Accounted h)
    (hcall : h.call platform (.push b) = some h') :
    Emptied h' ↔ h.NoOlderOut (.push b) := by
  obtain ⟨w, hpush, rfl⟩ := Option.map_eq_some_iff.mp hcall
  obtain ⟨hb, hpool, -⟩ := push_frame hpush
  have hpos := PoolWorld.outstandingIn_pos hb
  have hcount := outstandingIn_push hpush
  have hcur : w.pool.curGeneration = h.world.pool.curGeneration := by
    rw [hpool]
    rfl
  constructor
  · intro hafter hold hlast
    have hlt : b.generation.toNat < w.pool.curGeneration.toNat := by
      rw [hcur]
      exact Nat.lt_of_le_of_ne (ha.counted.generation_le b hb)
        fun heq => hold (UInt32.toNat_inj.mp heq)
    refine hafter b.generation hlt ?_
    change w.outstandingIn b.generation = 0
    rw [hcount, if_pos rfl, hlast]
  · intro hclean g hg hzero
    change g.toNat < w.pool.curGeneration.toNat at hg
    change w.outstandingIn g = 0 at hzero
    rw [hcur] at hg
    rw [hcount] at hzero
    split at hzero
    · next heq =>
      subst heq
      exact hclean (ne_of_toNat_lt hg) (by omega)
    · exact he g hg hzero

/-- A generation that `Pop` supersedes is not empty. -/
theorem Emptied.pop {inSize thread : UInt32} {newData : ℕ}
    (he : Emptied h) (ha : Accounted h) (hgrow : h.world.CanGrow platform)
    (hcall : h.call platform (.pop inSize thread newData) = some h') :
    Emptied h' := by
  obtain ⟨w', hpop, rfl⟩ := Option.map_eq_some_iff.mp hcall
  obtain ⟨w, htake, rfl⟩ := Option.map_eq_some_iff.mp hpop
  obtain ⟨-, hout⟩ := PoolWorld.takeIndex_frame htake
  have hsame : ∀ g, g.toNat < w.pool.curGeneration.toNat →
      (w.place h.world.pool.nextIndex inSize thread).outstandingIn g =
        h.world.outstandingIn g := by
    intro g hg
    rw [outstandingIn_place, if_neg (ne_of_toNat_lt hg).symm, Nat.add_zero,
      PoolWorld.outstandingIn, hout]
    rfl
  intro g hg hzero
  change g.toNat < w.pool.curGeneration.toNat at hg
  change (w.place h.world.pool.nextIndex inSize thread).outstandingIn g = 0
    at hzero
  change (h.take w).older g = 0
  rw [hsame g hg] at hzero
  obtain ⟨hgrows, hcur, holder⟩ | ⟨hgrows, hcur, holder⟩ :=
    pop_cases ha.counted.numbered hgrow htake
  · rw [holder]
    exact he g (hcur ▸ hg) hzero
  · rw [hcur] at hg
    rw [holder]
    rcases (ha.counted.toNat_lt_succ_iff g).mp hg with hold | rfl
    · rw [Function.update_of_ne (ne_of_toNat_lt hold)]
      exact he g hold hzero
    · obtain ⟨hfree, hfull⟩ :=
        (ha.counted.numbered.grows_iff hgrow.canDouble).mp hgrows
      have hpos : 0 < h.world.pool.allocIndex.toNat := by
        rw [hfull]
        exact Nat.lt_of_lt_of_le (Nat.two_pow_pos _)
          ha.counted.numbered.generation
      exact absurd hzero (Nat.ne_of_gt (ha.last hfree hpos))

/-- After a call no older block gets in the way of an empty generation exactly
if none did in the call. -/
theorem Emptied.call_iff {c : ScalableCall} (he : Emptied h)
    (ha : Accounted h) (hfits : h.GrowthFits platform c)
    (hcall : h.call platform c = some h') :
    Emptied h' ↔ h.NoOlderOut c := by
  cases c with
  | pop inSize thread newData => exact iff_of_true (he.pop ha hfits hcall) trivial
  | push b => exact he.push_iff ha hcall

section

variable {inSize inAllocSize : UInt32} {data : ℕ} {memory : Region UInt8}

theorem accounted_start (hcount : 0 < inAllocSize)
    (hfits : (inSize.toNat + 12) * inAllocSize.toNat < platform.sizeMod) :
    Accounted (start platform inSize inAllocSize data memory) := by
  have hlaid : PoolWorld.Laid
      (PoolWorld.start platform inSize inAllocSize data memory) :=
    PoolWorld.laid_start platform hcount hfits
  have hnot : ∀ g : UInt32, ¬g.toNat < (0 : UInt32).toNat :=
    fun g => Nat.not_lt_zero _
  refine ⟨⟨hlaid.numbered, hlaid.tracked, ?_, ?_, hlaid.countedCur, ?_, ?_,
    List.nodup_nil⟩, rfl, ?_, ?_, ?_⟩
  · intro b hb
    cases hb
  · exact fun g hg => absurd hg (hnot g)
  · intro g hg
    have hzero : (0 : UInt32) = g :=
      UInt32.toNat_inj.mp (Nat.le_zero.mp hg).symm
    constructor
    · exact fun hgone => absurd hzero (hgone _ (List.mem_singleton_self _))
    · intro hfreed
      cases hfreed
  · intro g
    constructor
    · intro hfreed
      cases hfreed
    · exact fun hall => absurd hall.1 (hnot g)
  · exact fun g hg => absurd hg (hnot g)
  · exact fun hpos => absurd hpos (Nat.lt_irrefl _)
  · exact fun _ hpos => absurd hpos (Nat.lt_irrefl _)

/-- In a run whose sizes fit, the regions of the superseded generations are
freed exactly when they are empty, if and only if a generation whose last block
comes back was superseded with no older block out. -/
theorem reclaims_iff_noOlderOut (hcount : 0 < inAllocSize)
    (hfits : (inSize.toNat + 12) * inAllocSize.toNat < platform.sizeMod)
    {calls : List ScalableCall}
    (hrun : (run (call platform)
      (start platform inSize inAllocSize data memory) calls).isSome)
    (halong : Along (call platform) (GrowthFits platform)
      (start platform inSize inAllocSize data memory) calls) :
    Throughout (call platform) Reclaims
        (start platform inSize inAllocSize data memory) calls ↔
      Along (call platform) NoOlderOut
        (start platform inSize inAllocSize data memory) calls := by
  obtain ⟨t, hrun⟩ := Option.isSome_iff_exists.mp hrun
  have hinit : Accounted (start platform inSize inAllocSize data memory) :=
    accounted_start hcount hfits
  have hemptied : Emptied (start platform inSize inAllocSize data memory) :=
    fun g hg => absurd hg (Nat.not_lt_zero _)
  have hboth : Accounted (start platform inSize inAllocSize data memory) ∧
      Emptied (start platform inSize inAllocSize data memory) :=
    ⟨hinit, hemptied⟩
  refine @throughout_iff_along PoolHistory ScalableCall (call platform) Reclaims
    (fun h => Accounted h ∧ Emptied h) _ _ _ _ _ ?_ ?_ ?_ hboth halong hrun
  · exact fun h ⟨ha, he⟩ => ha.reclaims_iff.mpr he
  · intro h c h' ⟨ha, he⟩ hgrowth hclean hcall
    exact ⟨ha.call hgrowth hcall, (he.call_iff ha hgrowth hcall).mpr hclean⟩
  · intro h c h' ⟨ha, he⟩ hgrowth hcall hreclaims
    have hafter := ha.call hgrowth hcall
    exact (he.call_iff ha hgrowth hcall).mp (hafter.reclaims_iff.mp hreclaims)

end

/-- A block of each of three generations; that of the second is pushed while
that of the first is out. -/
def middlePushed : List ScalableCall :=
  [.pop 8 0 0, .pop 8 0 4000, .pop 8 0 8000,
    .push { addr := 4064, index := 1, inSize := 8, thread := 0
            generation := 1 }]

/-- The second generation has no block out, and its region is not freed. -/
theorem middle_generation_leaked :
    ∃ h, run (call .x64) (start .x64 64 1 1000 fun _ => 0) middlePushed =
        some h ∧ h.world.outstandingIn 1 = 0 ∧
      h.world.regions.any (fun r => decide (r.generation = 1)) = true ∧
      ¬Reclaims h := by
  refine ⟨_, rfl, by decide, by decide, fun h => ?_⟩
  have hgone := (h 1 (by decide) (by decide)).1.mpr (by decide)
  exact hgone _ (List.mem_cons_of_mem _ (List.mem_cons_self ..)) rfl

/-- A block of each of two generations; the first is pushed. -/
def firstPushed : List ScalableCall :=
  [.pop 8 0 0, .pop 8 0 4000,
    .push { addr := 1000, index := 0, inSize := 8, thread := 0
            generation := 0 }]

theorem reclaims_firstPushed :
    Throughout (call .x64) Reclaims (start .x64 64 1 1000 fun _ => 0)
      firstPushed :=
  (reclaims_iff_noOlderOut (by decide) (by decide) (by decide)
    (by decide)).mpr (by decide)

end PoolHistory

end DokeviNet
