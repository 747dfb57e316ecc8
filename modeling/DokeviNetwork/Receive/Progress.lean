import DokeviNetwork.Receive.Limits

/-!
# When the client's parser holds a packet back

`DeserializePacket` looks for a packet only while more than four bytes are
buffered, and takes a zero length field for a header not yet read.  Between two
calls it should hold no complete packet.  This module says, on the bytes
received, which streams and chunks ever leave one there.
-/

namespace DokeviNet

open Framing LabelledRun

/-- Cutting `t` into packets by their length fields reaches no length of zero,
and no point at which four bytes are left that make up a packet or less. -/
def KeepsMoving (t : List UInt8) : Prop :=
  ∀ rest, Reaches 4 lengthField t rest → 4 ≤ rest.length →
    lengthField rest ≠ 0 ∧ (rest.length = 4 → 4 < lengthField rest)

/-- A packet of which the parser takes no more than four bytes at a time, or
whose length is zero, is not among those it has taken. -/
theorem keepsMoving_of_splits {t rest : List UInt8}
    {frames : List (List UInt8)} (h : Splits 5 clientLength t frames rest)
    (hshort : ∀ f ∈ frames, f.length < 2 ^ 32)
    (hrest : rest.length < 4 ∨ rest.length < lengthField rest) :
    KeepsMoving t := by
  induction h with
  | @stuck s _ =>
      intro p hp hfour
      cases hp with
      | here => omega
      | later hhdr hlen => omega
  | @frame s frames rest hhdr hlen _ ih =>
      have hfirst : clientLength s < 2 ^ 32 := by
        have hlt := hshort (s.take (clientLength s)) List.mem_cons_self
        rwa [List.length_take, Nat.min_eq_left hlen] at hlt
      have hne : lengthField s ≠ 0 := by
        intro hzero
        rw [clientLength, if_pos hzero] at hfirst
        exact absurd hfirst (lt_irrefl _)
      have hsame : clientLength s = lengthField s := by
        rw [clientLength, if_neg hne]
      have htail : KeepsMoving (s.drop (clientLength s)) :=
        ih (fun f hf => hshort f (List.mem_cons_of_mem _ hf)) hrest
      intro p hp hfour
      cases hp with
      | here => exact ⟨hne, by omega⟩
      | later _ _ hreach =>
          rw [← hsame] at hreach
          exact htail p hreach hfour

namespace IndependentNetworkClient

/-- Fewer than four bytes are buffered, or fewer than the length field in front
asks for. -/
def DeliversAll (c : IndependentNetworkClient) : Prop :=
  c.curOffset < 4 ∨ c.curOffset < getSizeInByteArray c.packetBuffer

instance (c : IndependentNetworkClient) : Decidable c.DeliversAll :=
  inferInstanceAs (Decidable (_ ∨ _))

theorem deliversAll_iff {c : IndependentNetworkClient} :
    c.DeliversAll ↔
      c.pending.length < 4 ∨ c.pending.length < lengthField c.pending := by
  have hfew : c.curOffset < 4 ↔ c.curOffset.toNat < 4 :=
    UInt32.lt_iff_toNat_lt
  rw [DeliversAll, hfew, UInt32.lt_iff_toNat_lt, pending_length]
  by_cases hfour : 4 ≤ c.curOffset.toNat
  · rw [getSizeInByteArray_eq hfour, lengthField, pending]
  · simp [not_le.mp hfour]

/-- On a stream that keeps moving, the parser comes to rest with no complete
packet. -/
theorem Consistent.deliversAll {t : List UInt8}
    {c : IndependentNetworkClient} (h : Consistent t c) (hrest : c.AtRest)
    (hmoving : KeepsMoving t) : c.DeliversAll := by
  rw [deliversAll_iff]
  by_cases hfour : 4 ≤ c.pending.length
  · obtain ⟨hne, hmore⟩ := hmoving _ (h.taken.reaches Reaches.here) hfour
    rw [pending_length] at hfour hmore ⊢
    have hknown := h.known.1 hfour
    rcases hrest with hfew | hnone
    · exact Or.inr (by have := hmore (by omega); omega)
    · have hzero : c.bufferSize ≠ 0 := by
        intro hzero
        rw [← hknown, hzero] at hne
        exact hne rfl
      have hlarge : ¬c.bufferSize.toNat ≤ c.curOffset.toNat := fun hle =>
        hnone ⟨UInt32.le_iff_toNat_le.mpr hle, hzero⟩
      exact Or.inr (by omega)
  · exact Or.inl (not_le.mp hfour)

/-- If the parser rests with no complete packet, the stream kept moving. -/
theorem Orderly.keepsMoving {t : List UInt8} {c : IndependentNetworkClient}
    (h : Orderly t c) (hconsistent : Consistent t c) (hrest : c.AtRest)
    (hall : c.DeliversAll) : KeepsMoving t := by
  refine keepsMoving_of_splits (h.splits hrest) ?_ (deliversAll_iff.mp hall)
  intro f hf
  obtain ⟨call, hcall, rfl⟩ := List.mem_map.mp hf
  rw [← (hconsistent.calls call hcall).inSize]
  exact call.inSize.toNat_lt

/-- After each receive every complete packet has been handed over, exactly when
the bytes received up to each point keep moving. -/
theorem deliversAll_iff_keepsMoving {packetBuffer : Region UInt8}
    {chunks : List Chunk} {fuel : ℕ} (hfuel : passes ≤ fuel)
    (hroom : Along (IndependentNetworkClient.deserializePacket fuel) HasRoom
      (start packetBuffer) chunks) :
    (∀ pre post, chunks = pre ++ post →
      ∃ c, LabelledRun.run (IndependentNetworkClient.deserializePacket fuel)
          (start packetBuffer) pre = some c ∧
        c.DeliversAll ∧
        Splits 4 lengthField (received pre)
          (c.calls.map RecvHandlerCall.consumed) c.pending) ↔
      ∀ pre post, chunks = pre ++ post → KeepsMoving (received pre) := by
  have hreached : ∀ pre post, chunks = pre ++ post →
      ∃ c, LabelledRun.run (IndependentNetworkClient.deserializePacket fuel)
          (start packetBuffer) pre = some c ∧
        Consistent (received pre) c ∧ Orderly (received pre) c ∧
        c.AtRest := by
    rintro pre post rfl
    have hpre := (Along.append.mp hroom).1
    obtain ⟨c, hrun, hc, hrest⟩ := (consistent_start packetBuffer).run
      (Or.inl (by simp [start])) hpre hfuel
    refine ⟨c, hrun, hc, ?_, hrest⟩
    refine @history_of_along _ _ _ _ (fun past c => Orderly (received past) c)
      ?_ _ _ _ (orderly_start packetBuffer) hpre hrun
    intro past c chunk c' hc hroom hcall
    rw [received_append, received_singleton]
    exact (hc.of_deserializePacket hroom hcall).1
  constructor
  · intro hall pre post heq
    obtain ⟨c, hrun, hc, horderly, hrest⟩ := hreached pre post heq
    obtain ⟨c', hrun', hall', -⟩ := hall pre post heq
    obtain rfl : c' = c := Option.some.inj (hrun'.symm.trans hrun)
    exact horderly.keepsMoving hc hrest hall'
  · intro hmoving pre post heq
    obtain ⟨c, hrun, hc, horderly, hrest⟩ := hreached pre post heq
    have hall := hc.deliversAll hrest (hmoving pre post heq)
    exact ⟨c, hrun, hall, hc.taken.stuck (deliversAll_iff.mp hall)⟩

/-- A packet that is its header only, in one chunk. -/
def headerOnly : Chunk := { data := Region.ofList 0 [4, 0, 0, 0], size := 4 }

/-- A length field of zero, and behind it a packet of five bytes. -/
def zeroLength : Chunk :=
  { data := Region.ofList 0 [0, 0, 0, 0, 5, 0, 0, 0, 7], size := 9 }

/-- The parser keeps a complete packet of four bytes, and delivers nothing once
it has read a length of zero. -/
theorem headerOnly_held_back :
    ¬(∀ pre post, [headerOnly] = pre ++ post →
      ∃ c, LabelledRun.run (IndependentNetworkClient.deserializePacket passes)
          (start fun _ => 0) pre = some c ∧
        c.DeliversAll ∧
        Splits 4 lengthField (received pre)
          (c.calls.map RecvHandlerCall.consumed) c.pending) ∧
      ∃ c, LabelledRun.run (IndependentNetworkClient.deserializePacket passes)
          (start fun _ => 0) [zeroLength] = some c ∧
        c.calls.length = 0 ∧ ¬c.DeliversAll := by
  constructor
  · intro hall
    obtain ⟨c, hrun, hall', -⟩ := hall [headerOnly] [] rfl
    obtain rfl := Option.some.inj hrun
    exact absurd hall' (by decide)
  · exact ⟨_, rfl, rfl, by decide⟩

/-- A packet of five bytes. -/
def fiveBytes : Chunk :=
  { data := Region.ofList 0 [5, 0, 0, 0, 9], size := 5 }

theorem deliversAll_iff_keepsMoving_fiveBytes :
    ∃ c, LabelledRun.run (IndependentNetworkClient.deserializePacket passes)
        (start fun _ => 0) [fiveBytes] = some c ∧
      c.DeliversAll ∧
      Splits 4 lengthField [5, 0, 0, 0, 9]
        (c.calls.map RecvHandlerCall.consumed) c.pending := by
  have hroom : Along (IndependentNetworkClient.deserializePacket passes)
      HasRoom (start fun _ => 0) [fiveBytes] := by decide
  have hnone : KeepsMoving [] := by
    refine keepsMoving_of_splits (Splits.stuck (Or.inl (by decide))) ?_
      (Or.inl (by decide))
    simp
  have hone : KeepsMoving [5, 0, 0, 0, 9] := by
    refine keepsMoving_of_splits (Splits.frame (by decide) (by decide)
      (Splits.stuck (Or.inl (by decide)))) ?_ (Or.inl (by decide))
    decide
  refine (deliversAll_iff_keepsMoving (le_refl passes) hroom).mpr ?_
    [fiveBytes] [] rfl
  intro pre post heq
  cases pre with
  | nil => exact hnone
  | cons chunk pre =>
      obtain ⟨rfl, hpre⟩ := List.cons.inj heq
      obtain ⟨rfl, -⟩ := List.append_eq_nil_iff.mp hpre.symm
      exact hone

end IndependentNetworkClient

end DokeviNet
