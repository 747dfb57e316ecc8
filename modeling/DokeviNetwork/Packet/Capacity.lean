import DokeviNetwork.Packet.Accounts
import DokeviNetwork.Support.Run

/-!
# Capacity accounting over mixed histories

Callers hold packets as handles: a pool may hand out the same packet twice, and
then two handles name it.  This module follows any sequence of `AllocPacket`
and of `FreePacket` on a handle not freed before, in any order and mixed across the
pools.  Two facts carry it: the counters agree with the handles, and every
packet that has a handle stores the size of its own pool in `_maxSize`.
-/

namespace DokeviNet

open LabelledRun

/-- A call on the packet pools. -/
inductive PacketOp
  | alloc (inSize : UInt32)
  | free (inPacket : PacketId)
  deriving DecidableEq

/-- The pools together with the handles that were returned and have not been
freed. -/
structure PacketClient where
  pools : PacketSelector
  handles : List PacketId

namespace PacketSelector

/-- `FreePacket` selects the pool `c` and finds the packet in it: neither the
last `else` nor the unknown-element branch of `Free` is taken. -/
def FreesInto (sel : PacketSelector) (p : PacketId) (c : SizeClass) : Prop :=
  sizeClassOf (sel.packet p).maxSize.toNat = some c ∧
    ((sel c).findElement (sel.elementOf c p)).isSome

/-- Every size that `AllocPacket` lets through has a pool. -/
theorem sizeClassOf_isSome {inSize : UInt32} (h : inSize ≤ maxPacketBufSize) :
    ∃ c, sizeClassOf inSize.toNat = some c := by
  have hle : inSize.toNat ≤ 4096 := UInt32.le_iff_toNat_le.mp h
  unfold sizeClassOf
  split_ifs
  any_goals exact ⟨_, rfl⟩
  omega

/-- The two causes for which `AllocPacket` returns the null pointer. -/
theorem allocPacket_eq_none_iff {sel : PacketSelector} {inSize : UInt32} :
    sel.allocPacket inSize = none ↔
      inSize > maxPacketBufSize ∨
        ∃ c, sizeClassOf inSize.toNat = some c ∧
          (sel c).used = (sel c).queueSize := by
  by_cases hmax : inSize > maxPacketBufSize
  · simp [allocPacket, hmax]
  · obtain ⟨c, hc⟩ := sizeClassOf_isSome (UInt32.not_lt.mp hmax)
    by_cases hfull : (sel c).used = (sel c).queueSize
    · simp [allocPacket, hmax, hc, AtomicStaticPool.alloc_full hfull, hfull]
    · simp [allocPacket, hmax, hc, AtomicStaticPool.alloc_next hfull, hfull]

end PacketSelector

namespace PacketClient

open PacketSelector

def init (contents : PacketId → PacketInterface PacketId) : PacketClient where
  pools := initPacketSelector contents
  handles := []

/-- One call; a packet that has no handle is not freed. -/
def step (s : PacketClient) : PacketOp → Option PacketClient
  | .alloc inSize =>
    match s.pools.allocPacket inSize with
    | none => some s
    | some (p, pools) => some { pools := pools, handles := s.handles ++ [p] }
  | .free p =>
    if p ∈ s.handles then
      some { pools := s.pools.freePacket p, handles := s.handles.erase p }
    else none

/-- What every history keeps. -/
structure Accounted (s : PacketClient) : Prop
    extends s.pools.Accounts s.handles where
  sizes : ∀ c, (s.pools c).queueSize = 1000
  maxSize : ∀ p ∈ s.handles, (s.pools.packet p).maxSize = p.pool.bytes

theorem accounted_init (contents : PacketId → PacketInterface PacketId) :
    (init contents).Accounted where
  toAccounts := accounts_init contents
  sizes _ := rfl
  maxSize := by simp [init]

/-- Releasing elements and moving cursors keeps the sizes of the pools. -/
theorem queueSize_update {sel : PacketSelector} {n : UInt64}
    (h : ∀ c, (sel c).queueSize = n) (p : PacketId) (SIZE : UInt32)
    (used : UInt64) (c : SizeClass) :
    (Function.update sel p.pool
      { (sel p.pool).releaseElement (PacketInterface.release SIZE)
          p.index with used := used } c).queueSize = n := by
  by_cases hc : c = p.pool
  · subst hc
    simp [h]
  · simp [hc, h]

/-- `Release()` on a packet of the pool it belongs to keeps `_maxSize` right,
also for a second handle that names the same packet. -/
theorem maxSize_update {sel : PacketSelector} {p q : PacketId}
    {used : UInt64}
    (h : q = p ∨ (sel.packet q).maxSize = q.pool.bytes) :
    (packet (Function.update sel p.pool
        { (sel p.pool).releaseElement (PacketInterface.release p.pool.bytes)
            p.index with used := used }) q).maxSize = q.pool.bytes := by
  rw [packet_update_releaseElement]
  split
  · next hq =>
    rw [hq]
    rfl
  · next hq => exact h.resolve_left hq

theorem Accounted.step {s s' : PacketClient} {op : PacketOp}
    (h : s.Accounted) (hstep : s.step op = some s') : s'.Accounted := by
  cases op with
  | alloc inSize =>
      simp only [PacketClient.step] at hstep
      split at hstep
      · exact Option.some.inj hstep ▸ h
      · next p pools halloc =>
        obtain rfl := Option.some.inj hstep
        have haccounts := h.toAccounts.alloc halloc
        obtain ⟨-, -, -, rfl⟩ := allocPacket_eq_some halloc
        refine ⟨haccounts, queueSize_update h.sizes p _ _, ?_⟩
        intro q hq
        apply maxSize_update
        rcases List.mem_append.mp hq with hq | hq
        · exact Or.inr (h.maxSize q hq)
        · exact Or.inl (List.mem_singleton.mp hq)
  | free p =>
      simp only [PacketClient.step] at hstep
      split at hstep
      · next hp =>
        obtain rfl := Option.some.inj hstep
        have haccounts := h.toAccounts.free hp (h.maxSize p hp)
        have heq := freePacket_eq (h.maxSize p hp) (h.known p hp)
        refine ⟨haccounts, ?_, ?_⟩
        · simp only [heq]
          exact queueSize_update h.sizes p _ _
        · intro q hq
          simp only [heq]
          exact maxSize_update
            (Or.inr (h.maxSize q (List.mem_of_mem_erase hq)))
      · cases hstep

/-- A handle is freed into the pool it came from. -/
theorem Accounted.freesInto {s : PacketClient} (h : s.Accounted)
    {p : PacketId} (hp : p ∈ s.handles) : s.pools.FreesInto p p.pool := by
  constructor
  · rw [h.maxSize p hp]
    exact sizeClassOf_bytes p.pool
  · simp [elementOf, AtomicStaticPool.findElement, h.known p hp]

/-- `AllocPacket` returns null exactly when the pool for the size has as many
handles as elements. -/
theorem Accounted.alloc_eq_none_iff {s : PacketClient} (h : s.Accounted)
    {inSize : UInt32} (hmax : inSize ≤ maxPacketBufSize) :
    s.pools.allocPacket inSize = none ↔
      ∃ c, sizeClassOf inSize.toNat = some c ∧
        s.handles.countP (fun p => p.pool = c) = 1000 := by
  have hnot : ¬inSize > maxPacketBufSize := UInt32.not_lt.mpr hmax
  have hfull : ∀ c, (s.pools c).used = (s.pools c).queueSize ↔
      s.handles.countP (fun p => p.pool = c) = 1000 := by
    intro c
    rw [← h.used c, h.sizes c, ← UInt64.toNat_inj]
    rfl
  simp only [allocPacket_eq_none_iff, hnot, false_or, hfull]

/-- A returned packet is large enough, and `FreePacket` would return it to the
pool it was taken from. -/
theorem Accounted.alloc_fits {s : PacketClient} (h : s.Accounted)
    {inSize : UInt32} {p : PacketId} {pools : PacketSelector}
    (halloc : s.pools.allocPacket inSize = some (p, pools)) :
    inSize ≤ (pools.packet p).maxSize ∧ pools.FreesInto p p.pool := by
  have hnext : s.step (.alloc inSize) =
      some { pools := pools, handles := s.handles ++ [p] } := by
    simp [PacketClient.step, halloc]
  have hafter := h.step hnext
  have hp : p ∈ s.handles ++ [p] := by simp
  have hclass := (allocPacket_eq_some halloc).1
  refine ⟨?_, hafter.freesInto hp⟩
  have hsize : (pools.packet p).maxSize = p.pool.bytes :=
    hafter.maxSize p hp
  rw [hsize, UInt32.le_iff_toNat_le]
  exact le_bytes_of_sizeClassOf hclass

/-- After every history of `AllocPacket` and `FreePacket`, the counters are
the numbers of handles, and the next call does what its pool has room for. -/
theorem capacity_accounting (contents : PacketId → PacketInterface PacketId)
    (ops : List PacketOp) (s : PacketClient)
    (hrun : run step (init contents) ops = some s) :
    (∀ c, (s.pools c).used.toNat = s.handles.countP fun p => p.pool = c) ∧
      (∀ inSize ≤ maxPacketBufSize,
        (s.pools.allocPacket inSize = none ↔
          ∃ c, sizeClassOf inSize.toNat = some c ∧
            s.handles.countP (fun p => p.pool = c) =
              (s.pools c).queueSize.toNat)) ∧
      (∀ inSize p pools, s.pools.allocPacket inSize = some (p, pools) →
        inSize ≤ (pools.packet p).maxSize ∧ pools.FreesInto p p.pool) ∧
      ∀ p ∈ s.handles, s.pools.FreesInto p p.pool := by
  have h : s.Accounted :=
    @history_of_run _ _ _ (fun _ s => s.Accounted) (fun _ _ _ _ hinv hstep =>
      hinv.step hstep) _ _ _ (accounted_init contents) hrun
  refine ⟨h.used, ?_, fun _ _ _ => h.alloc_fits, fun p => h.freesInto⟩
  intro inSize hmax
  rw [h.alloc_eq_none_iff hmax]
  simp only [h.sizes]
  rfl

/-- Two classes in use, the older packet of the first freed, and the newer one
then handed out a second time. -/
def mixedCalls : List PacketOp :=
  [.alloc 10, .alloc 60, .alloc 100, .free ⟨.packet64, 0⟩, .alloc 64]

theorem capacity_accounting_mixedCalls :
    ∃ s, run step (init fun p => zeroed.packet p) mixedCalls = some s ∧
      s.handles =
        [⟨.packet64, 1⟩, ⟨.packet128, 0⟩, ⟨.packet64, 1⟩] ∧
      (s.pools .packet64).used.toNat =
        s.handles.countP (fun p => p.pool = .packet64) := by
  have hrun : run step (init fun p => zeroed.packet p) mixedCalls =
      some _ := rfl
  exact ⟨_, hrun, rfl, (capacity_accounting _ mixedCalls _ hrun).1 _⟩

end PacketClient

end DokeviNet
