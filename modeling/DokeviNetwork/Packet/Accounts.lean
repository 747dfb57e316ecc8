import DokeviNetwork.Packet.PacketSelector
import Mathlib.Data.List.Count

/-!
# What the pools count

A pool only counts its outstanding packets.  The count is right as long as every
packet is freed once, into the pool it came from; which packets are handed out
plays no part.
-/

namespace DokeviNet

namespace SizeClass

end SizeClass

namespace PacketSelector

/-- The number of packets that the pools have out. -/
def outstanding (sel : PacketSelector) : ℕ :=
  (SizeClass.all.map fun c => (sel c).used.toNat).sum

/-- The counters of the pools agree with the packets `live`. -/
structure Accounts (sel : PacketSelector) (live : List PacketId) : Prop where
  used : ∀ c, (sel c).used.toNat = live.countP fun p => p.pool = c
  bounded : ∀ c, (sel c).used.toNat ≤ (sel c).queueSize.toNat
  known : ∀ p ∈ live, p.index < (sel p.pool).queueSize.toNat

theorem accounts_init (contents : PacketId → PacketInterface PacketId) :
    (initPacketSelector contents).Accounts [] where
  used _ := rfl
  bounded _ := Nat.zero_le _
  known := by simp

/-- Changes that keep all counters and sizes keep the accounts. -/
theorem Accounts.congr {sel sel' : PacketSelector} {live : List PacketId}
    (h : sel.Accounts live)
    (hused : ∀ c, (sel' c).used.toNat = (sel c).used.toNat)
    (hsize : ∀ c, (sel' c).queueSize.toNat = (sel c).queueSize.toNat) :
    sel'.Accounts live where
  used c := (hused c).trans (h.used c)
  bounded c := by
    rw [hused c, hsize c]
    exact h.bounded c
  known p hp := by
    rw [hsize p.pool]
    exact h.known p hp

theorem Accounts.alloc {sel sel' : PacketSelector} {live : List PacketId}
    {inSize : UInt32} {p : PacketId} (h : sel.Accounts live)
    (halloc : sel.allocPacket inSize = some (p, sel')) :
    sel'.Accounts (live ++ [p]) := by
  obtain ⟨-, hindex, hroom, rfl⟩ := allocPacket_eq_some halloc
  obtain ⟨hsucc, hbelow⟩ :=
    AtomicStaticPool.used_succ_toNat (h.bounded p.pool) hroom
  constructor
  · intro c
    rw [List.countP_append, ← h.used c]
    by_cases hc : c = p.pool
    · subst hc
      simp [hsucc]
    · simp [hc, Ne.symm hc]
  · intro c
    by_cases hc : c = p.pool
    · subst hc
      simp only [Function.update_self, hsucc,
        AtomicStaticPool.releaseElement_queueSize]
      exact hbelow
    · simpa [hc] using h.bounded c
  · intro q hq
    have hold : q.index < (sel q.pool).queueSize.toNat := by
      rcases List.mem_append.mp hq with hq | hq
      · exact h.known q hq
      · rw [List.mem_singleton.mp hq, hindex]
        exact hbelow
    by_cases hc : q.pool = p.pool
    · rw [hc] at hold ⊢
      simpa using hold
    · simpa [hc] using hold

theorem Accounts.free {sel : PacketSelector} {live : List PacketId}
    {p : PacketId} (h : sel.Accounts live) (hp : p ∈ live)
    (hmax : (sel.packet p).maxSize = p.pool.bytes) :
    (sel.freePacket p).Accounts (live.erase p) := by
  rw [freePacket_eq hmax (h.known p hp)]
  have hcount : 0 < live.countP fun q => q.pool = p.pool :=
    List.countP_pos_iff.mpr ⟨p, hp, by simp⟩
  have hpred : ((sel p.pool).used - 1).toNat = (sel p.pool).used.toNat - 1 :=
    AtomicStaticPool.used_pred_toNat (by rw [h.used]; exact hcount)
  constructor
  · intro c
    by_cases hc : c = p.pool
    · subst hc
      rw [List.countP_erase, if_pos (by simp [hp])]
      simp [hpred, h.used]
    · rw [List.countP_erase, if_neg (by simp [Ne.symm hc]), ← h.used c]
      simp [hc]
  · intro c
    have hbound := h.bounded c
    by_cases hc : c = p.pool
    · subst hc
      simp only [Function.update_self, hpred,
        AtomicStaticPool.releaseElement_queueSize]
      omega
    · simpa [hc] using hbound
  · intro q hq
    have hold := h.known q (List.mem_of_mem_erase hq)
    by_cases hc : q.pool = p.pool
    · rw [hc] at hold ⊢
      simpa using hold
    · simpa [hc] using hold

end PacketSelector

end DokeviNet
