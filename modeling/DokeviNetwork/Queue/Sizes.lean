import DokeviNetwork.Queue.Fifo

/-!
# The sizes of static queues that never fail

Whether a `Push` overwrites an element across the start of the tickets depends on how
many elements there are, by `2 ^ 32` modulo the size.  Where this is 0 or one
less than the size, no run that stays within the size does it.  For every other size
there is a run that does: it empties the queue again and again until the
tickets are about to start, and then holds as many elements.
-/

namespace DokeviNet

open LabelledRun WrappingCounter

namespace QueueClient

variable {T : Type*} {c c' : QueueClient T} {element : T}

/-- Every run that stays within the size is first in, first out. -/
def AlwaysFifo (T : Type*) (inSize : UInt32) : Prop :=
  ∀ (elements : ℕ → T) (ops : List (QueueOp T)),
    Along call WithinSize (start inSize elements) ops →
      Throughout call Fifo (start inSize elements) ops

/-- Of such a size, a run that stays within it never holds as many elements. -/
theorem WithinSize.notOverwritten
    (hsize : c.queue.queueSize.toNat ∣ 2 ^ 32 ∨
      c.queue.queueSize.toNat ∣ 2 ^ 32 + 1) {op : QueueOp T}
    (hlegal : c.WithinSize op) : c.NotOverwritten op := by
  cases op with
  | pop => trivial
  | push element =>
      have hlt : c.held.length + 1 < c.queue.queueSize.toNat := hlegal
      intro hgap hless
      rcases hsize with hdvd | hdvd
      · rw [Nat.mod_eq_zero_of_dvd hdvd] at hless
        exact absurd hless (Nat.not_lt_zero _)
      · have hlast := (dvd_add_one_iff (by omega)).mp hdvd
        omega

/-- What a call keeps where no element is overwritten. -/
theorem Ticketed.call {op : QueueOp T} (h : Ticketed c ∧ Stored c)
    (hlegal : c.WithinSize op) (hclean : c.NotOverwritten op)
    (hcall : c.call op = some c') : Ticketed c' ∧ Stored c' := by
  cases op with
  | push element =>
      have hfull := hlegal.not_full
      exact ⟨h.1.push hfull hcall,
        (h.1.stored_push_iff h.2 hfull hcall).mpr hclean⟩
  | pop => exact ⟨h.1.pop hlegal hcall, h.2.pop hlegal hcall⟩

theorem queueSize_call {op : QueueOp T} (hcall : c.call op = some c') :
    c'.queue.queueSize = c.queue.queueSize := by
  cases op with
  | push | pop =>
      obtain rfl := Option.some.inj hcall
      rfl

/-- Pushing the same element again and again, as long as there is room. -/
theorem run_pushes (h : Ticketed c) (element : T) {k : ℕ}
    (hroom : c.held.length + k < c.queue.queueSize.toNat) :
    Along call WithinSize c (List.replicate k (.push element)) ∧
      ∃ c', run call c (List.replicate k (.push element)) = some c' ∧
        Ticketed c' ∧ c'.held = c.held ++ List.replicate k element ∧
        c'.popped = c.popped ∧ c'.queue.queueSize = c.queue.queueSize := by
  induction k generalizing c with
  | zero => exact ⟨trivial, c, rfl, h, (List.append_nil _).symm, rfl, rfl⟩
  | succ k ih =>
      have hlegal : c.WithinSize (.push element) := by
        change c.held.length + 1 < _
        omega
      have hpush := @call_push T c element hlegal.not_full
      have hpushed := h.push hlegal.not_full hpush
      obtain ⟨halong, c', hrun, ht, hheld, hpopped, hsize⟩ := ih hpushed (by
        rw [List.length_append]
        change c.held.length + 1 + k < c.queue.queueSize.toNat
        omega)
      refine ⟨(along_cons_of_step hpush).mpr ⟨hlegal, halong⟩, c', ?_, ht, ?_,
        hpopped, hsize⟩
      · rw [List.replicate_succ, run_cons, hpush]
        exact hrun
      · rw [hheld, List.append_assoc]
        rfl

/-- Where the size does not fit the tickets, `2 ^ 32` modulo the size elements are
held when the tickets start again, and the next `Push` overwrites the
oldest. -/
theorem exists_overwritten {inSize : UInt32} (elements : ℕ → T) {a b : T}
    (hne : a ≠ b) (hgap : 0 < 2 ^ 32 % inSize.toNat)
    (hroom : 2 ^ 32 % inSize.toNat + 1 < inSize.toNat) :
    ∃ ops c, Along call WithinSize (start inSize elements)
        (ops ++ [.push b]) ∧
      run call (start inSize elements) ops = some c ∧ Ticketed c ∧
      ¬c.NotOverwritten (.push b) := by
  have hbound := inSize.toNat_lt
  generalize hlength : 2 ^ 32 % inSize.toNat = gap at hgap hroom
  have hinit : Ticketed (start inSize elements) :=
    ticketed_start (UInt32.le_iff_toNat_le.mpr (by
      rw [UInt32.toNat_one]
      omega)) elements
  obtain ⟨halong₁, c₁, hrun₁, h₁, hheld₁, hpopped₁, hsize₁⟩ :=
    run_rounds hinit rfl (show 1 < inSize.toNat by omega) a (2 ^ 32 - gap - 1)
  have hsize₁' : c₁.queue.queueSize = inSize := hsize₁
  obtain ⟨halong₂, c₂, hrun₂, h₂, hheld₂, hpopped₂, hsize₂⟩ :=
    run_pushes h₁ a (k := gap) (by
      rw [hheld₁, hsize₁', List.length_nil]
      omega)
  rw [hsize₁'] at hsize₂
  rw [hheld₁, List.nil_append] at hheld₂
  have hpopped : c₂.popped = 2 ^ 32 - gap - 1 := by
    rw [hpopped₂, hpopped₁]
    exact Nat.zero_add _
  refine ⟨rounds a (2 ^ 32 - gap - 1) ++ List.replicate gap (.push a), c₂,
    ?_, ?_, h₂, ?_⟩
  · rw [List.append_assoc]
    refine Along.append.mpr ⟨halong₁, fun s hs => ?_⟩
    obtain rfl := Option.some.inj (hrun₁.symm.trans hs)
    refine Along.append.mpr ⟨halong₂, fun s hs => ?_⟩
    obtain rfl := Option.some.inj (hrun₂.symm.trans hs)
    refine ⟨?_, fun _ _ => trivial⟩
    change c₂.held.length + 1 < c₂.queue.queueSize.toNat
    rw [hheld₂, hsize₂, List.length_replicate]
    exact hroom
  · rw [run_append, hrun₁]
    exact hrun₂
  · intro hclean
    have hsame := hclean (by
      rw [hsize₂, hheld₂, hlength, List.length_replicate]) (by
      have hstart : 2 ^ 32 - gap - 1 + gap + 1 = 2 ^ 32 := by omega
      rw [hsize₂, hheld₂, hlength, hpopped, List.length_replicate, hstart,
        Nat.mod_self]
      exact hgap)
    rw [hsize₂, hheld₂, hlength, List.length_replicate, Nat.sub_self,
      List.getElem?_replicate_of_lt hgap] at hsame
    exact hne (Option.some.inj hsame)

/-- A queue works for runs of any length exactly if its size divides `2 ^ 32` or
`2 ^ 32 + 1`. -/
theorem alwaysFifo_iff {T : Type*} [Nontrivial T] {inSize : UInt32}
    (hsize : 1 ≤ inSize) :
    AlwaysFifo T inSize ↔
      inSize.toNat ∣ 2 ^ 32 ∨ inSize.toNat ∣ 2 ^ 32 + 1 := by
  have hpos : 0 < inSize.toNat := UInt32.le_iff_toNat_le.mp hsize
  constructor
  · intro halways
    by_contra hnot
    obtain ⟨hnot₁, hnot₂⟩ := not_or.mp hnot
    rw [dvd_add_one_iff hpos] at hnot₂
    have hlt := Nat.mod_lt (2 ^ 32) hpos
    obtain ⟨a, b, hne⟩ := exists_pair_ne T
    obtain ⟨ops, c, halong, hrun, h, hover⟩ :=
      @exists_overwritten T inSize (fun _ => a) a b hne
        (Nat.pos_of_ne_zero fun hzero => hnot₁ (Nat.dvd_of_mod_eq_zero hzero))
        (by omega)
    have hfifo := halways (fun _ => a) _ halong
    have hlegal := halong.at_step hrun
    have hpush := @call_push T c b hlegal.not_full
    have hbefore := hfifo ops [.push b] c rfl hrun
    have hafter := hfifo (ops ++ [.push b]) [] _ (List.append_nil _).symm (by
      rw [run_append, hrun, Option.bind_some, run_cons, hpush]
      rfl)
    have hticketed := h.push hlegal.not_full hpush
    exact hover ((h.stored_push_iff (h.fifo_iff.mp hbefore) hlegal.not_full
      hpush).mp (hticketed.fifo_iff.mp hafter))
  · intro hdvd elements ops hlegal
    refine throughout_of_along (fun c (hinv : (Ticketed c ∧ Stored c) ∧
      c.queue.queueSize = inSize) => hinv.1.1.fifo_iff.mpr hinv.1.2) ?_
      ⟨⟨ticketed_start hsize elements,
        fun k hk => absurd hk (Nat.not_lt_zero k)⟩, rfl⟩ hlegal
    rintro c op c' ⟨hinv, hsame⟩ hlegal hcall
    refine ⟨Ticketed.call hinv hlegal ?_ hcall, ?_⟩
    · apply hlegal.notOverwritten
      rw [hsame]
      exact hdvd
    · rw [queueSize_call hcall, hsame]

/-- A size that divides `2 ^ 32 + 1`, and one that divides neither. -/
theorem alwaysFifo_641_and_not_1000 :
    AlwaysFifo Bool 641 ∧ ¬AlwaysFifo Bool 1000 := by
  refine ⟨(alwaysFifo_iff (by decide)).mpr (Or.inr ⟨6700417, rfl⟩), ?_⟩
  rw [alwaysFifo_iff (by decide)]
  decide

end QueueClient

end DokeviNet
