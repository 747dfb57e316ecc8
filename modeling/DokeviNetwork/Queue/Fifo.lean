import DokeviNetwork.Queue.AtomicStaticQueue
import DokeviNetwork.Support.Run
import DokeviNetwork.Support.Wrap

/-!
# When the static queue is first in, first out

The tickets of the elements in the queue are successive, so their slots are
distinct until the tickets start again at 0.  From then on an element may get
the slot of one that is still in the queue, `2 ^ 32` modulo the size before it.
-/

namespace DokeviNet

open LabelledRun WrappingCounter

/-- A call that changes the queue. -/
inductive QueueOp (T : Type*)
  | push (element : T)
  | pop
  deriving DecidableEq

/-- A queue with its history: the number of elements popped, and those pushed
and not popped since, oldest first. -/
structure QueueClient (T : Type*) where
  queue : AtomicStaticQueue T
  popped : ℕ
  held : List T

namespace QueueClient

variable {T : Type*}

/-- A queue after `Init`. -/
def start (inSize : UInt32) (elements : ℕ → T) : QueueClient T where
  queue := AtomicStaticQueue.init inSize elements
  popped := 0
  held := []

/-- The queue holds as many elements as it has slots. -/
def Full (c : QueueClient T) : Prop :=
  c.held.length = c.queue.queueSize.toNat

instance (c : QueueClient T) : Decidable c.Full :=
  inferInstanceAs (Decidable (_ = _))

/-- One call.  What a full queue is given is not held, and nothing is taken from
an empty one. -/
def call (c : QueueClient T) : QueueOp T → Option (QueueClient T)
  | .push element =>
    some
      { c with
        queue := (c.queue.push element).queue
        held := if c.Full then c.held else c.held ++ [element] }
  | .pop =>
    some
      { queue := c.queue.pop.queue
        popped := if c.held.isEmpty then c.popped else c.popped + 1
        held := c.held.tail }

/-- `IsEmpty` tells whether there is an element, and `Front` points to the
oldest one, now and after each `Pop` to come. -/
structure Fifo (c : QueueClient T) : Prop where
  isEmpty : c.queue.isEmpty = true ↔ c.held = []
  front : ∀ k (hk : k < c.held.length),
    (c.queue.afterPops k).frontElement = c.held[k]

/-- `Pop` is called on a queue with an element, and after `Push` there is still
room. -/
def WithinSize (c : QueueClient T) : QueueOp T → Prop
  | .push _ => c.held.length + 1 < c.queue.queueSize.toNat
  | .pop => c.held ≠ []

/-- A `Push` whose ticket is the first, the second, ... since the tickets
started again, and so on up to `2 ^ 32` modulo the size, does not find the
element as many places before it still in the queue, unless the two are equal. -/
def NotOverwritten (c : QueueClient T) : QueueOp T → Prop
  | .push element =>
    let gap := 2 ^ 32 % c.queue.queueSize.toNat
    gap ≤ c.held.length → (c.popped + c.held.length + 1) % 2 ^ 32 < gap →
      c.held[c.held.length - gap]? = some element
  | .pop => True

theorem not_isEmpty_iff (c : QueueClient T) :
    ¬c.held.isEmpty ↔ c.held ≠ [] := not_congr List.isEmpty_iff

instance (c : QueueClient T) : ∀ op, Decidable (c.WithinSize op)
  | .push _ => inferInstanceAs (Decidable (_ < _))
  | .pop => decidable_of_iff (¬c.held.isEmpty) c.not_isEmpty_iff

instance [DecidableEq T] (c : QueueClient T) :
    ∀ op, Decidable (c.NotOverwritten op)
  | .push _ => inferInstanceAs (Decidable (_ → _ → _ = _))
  | .pop => isTrue trivial

/-- The counters count the calls. -/
structure Ticketed (c : QueueClient T) : Prop where
  size : 0 < c.queue.queueSize.toNat
  le : c.held.length ≤ c.queue.queueSize.toNat
  front : c.queue.front.toNat = (c.popped + 1) % 2 ^ 32
  back : c.queue.back.toNat = (c.popped + c.held.length) % 2 ^ 32
  used : c.queue.used.toNat = c.held.length

/-- The slot of the element with a ticket. -/
def slotOf (c : QueueClient T) (ticket : ℕ) : ℕ :=
  slot (2 ^ 32) c.queue.queueSize.toNat ticket

/-- Each element lies in the slot of its ticket. -/
def Stored (c : QueueClient T) : Prop :=
  ∀ k (hk : k < c.held.length),
    c.queue.memory (c.slotOf (c.popped + 1 + k)) = c.held[k]

variable {c c' : QueueClient T} {element : T}

theorem Ticketed.fifo_iff (h : Ticketed c) : Fifo c ↔ Stored c := by
  have hfront : ∀ k, (c.queue.afterPops k).frontElement =
      c.queue.memory (c.slotOf (c.popped + 1 + k)) := by
    intro k
    rw [AtomicStaticQueue.frontElement_afterPops, h.front, Nat.mod_add_mod]
    rfl
  constructor
  · intro hfifo k hk
    rw [← hfront k]
    exact hfifo.front k hk
  · intro hstored
    refine ⟨?_, fun k hk => (hfront k).trans (hstored k hk)⟩
    rw [AtomicStaticQueue.isEmpty_iff, h.used, List.length_eq_zero_iff]

theorem ticketed_start {inSize : UInt32} (hsize : 1 ≤ inSize)
    (elements : ℕ → T) : Ticketed (start inSize elements) :=
  ⟨hsize, Nat.zero_le _, rfl, rfl, rfl⟩

/-! ## What a `Push` does -/

theorem call_push (hfull : ¬c.Full) :
    c.call (.push element) = some
      { c with
        queue := (c.queue.push element).queue
        held := c.held ++ [element] } := by
  rw [call, if_neg hfull]

theorem Ticketed.lt_size (h : Ticketed c) (hfull : ¬c.Full) :
    c.held.length < c.queue.queueSize.toNat :=
  Nat.lt_of_le_of_ne h.le hfull

theorem Ticketed.push (h : Ticketed c) (hfull : ¬c.Full)
    (hcall : c.call (.push element) = some c') : Ticketed c' := by
  rw [call_push hfull] at hcall
  obtain rfl := Option.some.inj hcall
  have hlt := h.lt_size hfull
  have hbound := c.queue.queueSize.toNat_lt
  refine ⟨h.size, ?_, h.front, ?_, ?_⟩
  · rw [List.length_append]
    exact hlt
  · rw [List.length_append]
    exact toNat_add_one h.back
  · have hused := h.used
    change (c.queue.used + 1).toNat = _
    rw [toNat_add_one_of_lt (by omega), hused, List.length_append]
    rfl

/-- The slots of two held elements, or of a held one and the next, are
different except across the start of the tickets. -/
theorem Ticketed.slot_next_iff (h : Ticketed c) (hfull : ¬c.Full) {k : ℕ}
    (hk : k < c.held.length) :
    c.slotOf (c.popped + c.held.length + 1) = c.slotOf (c.popped + 1 + k) ↔
      c.held.length - k = 2 ^ 32 % c.queue.queueSize.toNat ∧
        (c.popped + c.held.length + 1) % 2 ^ 32 < c.held.length - k := by
  have hlt := h.lt_size hfull
  have hbound := c.queue.queueSize.toNat_lt
  have hsplit : c.popped + c.held.length + 1 =
      c.popped + 1 + k + (c.held.length - k) := by omega
  rw [hsplit]
  exact slot_add_eq_iff (by omega) (by omega) hbound.le

theorem Ticketed.memory_push (h : Ticketed c) (hfull : ¬c.Full)
    (hcall : c.call (.push element) = some c') :
    c'.queue.memory = Function.update c.queue.memory
      (c.slotOf (c.popped + c.held.length + 1)) element := by
  rw [call_push hfull] at hcall
  obtain rfl := Option.some.inj hcall
  have hticket : ((c.queue.back + 1) % c.queue.queueSize).toNat =
      c.slotOf (c.popped + c.held.length + 1) := by
    rw [UInt32.toNat_mod, toNat_add_one h.back]
    rfl
  rw [← hticket]
  rfl

/-- `Push` leaves the elements in their slots exactly if it overwrites none of
them with another. -/
theorem Ticketed.stored_push_iff (h : Ticketed c) (hstored : Stored c)
    (hfull : ¬c.Full) (hcall : c.call (.push element) = some c') :
    Stored c' ↔ c.NotOverwritten (.push element) := by
  have hmemory := h.memory_push hfull hcall
  rw [call_push hfull] at hcall
  obtain rfl := Option.some.inj hcall
  have hlength : (c.held ++ [element]).length = c.held.length + 1 := by simp
  constructor
  · intro hafter hgap hless
    have hpos : 0 < 2 ^ 32 % c.queue.queueSize.toNat := Nat.zero_lt_of_lt hless
    have hk : c.held.length - 2 ^ 32 % c.queue.queueSize.toNat <
        c.held.length := Nat.sub_lt_self hpos hgap
    have hback := Nat.sub_sub_self hgap
    have hslot := (h.slot_next_iff hfull hk).mpr ⟨hback, hback.symm ▸ hless⟩
    have hk' : c.held.length - 2 ^ 32 % c.queue.queueSize.toNat <
        (c.held ++ [element]).length := by
      rw [hlength]
      exact Nat.lt_succ_of_lt hk
    have hget := hafter _ hk'
    rw [hmemory] at hget
    change Function.update c.queue.memory _ element (c.slotOf _) = _ at hget
    rw [← hslot, Function.update_self] at hget
    rw [List.getElem?_eq_getElem hk, hget, List.getElem_append_left hk]
  · intro hclean k hk
    rw [hmemory]
    change Function.update c.queue.memory _ element (c.slotOf _) = _
    rcases Nat.lt_or_eq_of_le (Nat.le_of_lt_succ (hlength ▸ hk)) with hk | rfl
    · rw [List.getElem_append_left hk]
      by_cases hslot : c.slotOf (c.popped + c.held.length + 1) =
          c.slotOf (c.popped + 1 + k)
      · obtain ⟨hgap, hless⟩ := (h.slot_next_iff hfull hk).mp hslot
        rw [hgap] at hless
        have hsame := hclean (by omega) hless
        rw [← hgap, Nat.sub_sub_self hk.le, List.getElem?_eq_getElem hk] at hsame
        rw [← hslot, Function.update_self]
        exact (Option.some.inj hsame).symm
      · rw [Function.update_of_ne (Ne.symm hslot)]
        exact hstored k hk
    · rw [Nat.add_right_comm, Function.update_self,
        List.getElem_append_right le_rfl]
      simp

/-! ## What a `Pop` does -/

theorem call_pop (hheld : c.held ≠ []) :
    c.call .pop = some
      { queue := c.queue.pop.queue
        popped := c.popped + 1
        held := c.held.tail } := by
  rw [call, if_neg (by simpa using hheld)]

theorem Ticketed.pop (h : Ticketed c) (hheld : c.held ≠ [])
    (hcall : c.call .pop = some c') : Ticketed c' := by
  rw [call_pop hheld] at hcall
  obtain rfl := Option.some.inj hcall
  have hpos := List.length_pos_iff.mpr hheld
  have hle := h.le
  refine ⟨h.size, ?_, ?_, ?_, ?_⟩
  · rw [List.length_tail]
    exact (Nat.sub_le _ _).trans hle
  · exact toNat_add_one h.front
  · change c.queue.back.toNat = _
    rw [h.back, List.length_tail, Nat.add_assoc, Nat.add_sub_of_le hpos]
  · change (c.queue.used - 1).toNat = _
    rw [toNat_sub_one (h.used ▸ hpos), h.used, List.length_tail]

theorem Stored.pop (hstored : Stored c) (hheld : c.held ≠ [])
    (hcall : c.call .pop = some c') : Stored c' := by
  rw [call_pop hheld] at hcall
  obtain rfl := Option.some.inj hcall
  intro k hk
  have hk' : k + 1 < c.held.length := by
    rw [List.length_tail] at hk
    omega
  rw [List.getElem_tail, ← hstored (k + 1) hk']
  change c.queue.memory (c.slotOf (c.popped + 1 + 1 + k)) = _
  congr 2
  omega

/-! ## Runs -/

theorem WithinSize.not_full (h : c.WithinSize (.push element)) : ¬c.Full := by
  intro hfull
  have hlt : c.held.length + 1 < c.queue.queueSize.toNat := h
  rw [Full] at hfull
  omega

theorem exists_call (c : QueueClient T) (op : QueueOp T) :
    ∃ c', c.call op = some c' := by
  cases op with
  | push element => exact ⟨_, rfl⟩
  | pop => exact ⟨_, rfl⟩

variable {inSize : UInt32} {elements : ℕ → T} {ops : List (QueueOp T)}

/-- A run that stays within the size is first in, first out exactly if no
`Push` in it overwrites an element that is still in the queue. -/
theorem fifo_iff_notOverwritten (hsize : 1 ≤ inSize)
    (hlegal : Along call WithinSize (start inSize elements) ops) :
    Throughout call Fifo (start inSize elements) ops ↔
      Along call NotOverwritten (start inSize elements) ops := by
  have hinit : Ticketed (start inSize elements) ∧
      Stored (start inSize elements) :=
    ⟨ticketed_start hsize elements, fun k hk => absurd hk (Nat.not_lt_zero k)⟩
  obtain ⟨t, hrun⟩ := exists_run exists_call (start inSize elements) ops
  refine throughout_iff_along (fun (c : QueueClient T)
    (h : Ticketed c ∧ Stored c) => h.1.fifo_iff.mpr h.2) ?_ ?_ hinit hlegal hrun
  · rintro c op c' ⟨hticketed, hstored⟩ hlegal hclean hcall
    cases op with
    | push element =>
        have hfull := hlegal.not_full
        exact ⟨hticketed.push hfull hcall,
          (hticketed.stored_push_iff hstored hfull hcall).mpr hclean⟩
    | pop => exact ⟨hticketed.pop hlegal hcall, hstored.pop hlegal hcall⟩
  · rintro c op c' ⟨hticketed, hstored⟩ hlegal hcall hfifo
    cases op with
    | push element =>
        have hfull := hlegal.not_full
        have hafter := hticketed.push hfull hcall
        exact (hticketed.stored_push_iff hstored hfull hcall).mp
          (hafter.fifo_iff.mp hfifo)
    | pop => trivial

/-- Two elements pushed and one popped, on three slots. -/
theorem fifo_threeSlots :
    Throughout call Fifo (start 3 fun _ => 0)
      [.push 1, .push 2, .pop, .push 3] :=
  (fifo_iff_notOverwritten (by decide) (by decide)).mpr (by decide)

/-- `k` times an element is pushed and popped. -/
def rounds (element : T) (k : ℕ) : List (QueueOp T) :=
  (List.replicate k [.push element, .pop]).flatten

/-- Rounds count the tickets up and leave the queue empty. -/
theorem run_rounds {c : QueueClient T} (h : Ticketed c) (hheld : c.held = [])
    (hroom : 1 < c.queue.queueSize.toNat) (element : T) (k : ℕ) :
    Along call WithinSize c (rounds element k) ∧
      ∃ c', run call c (rounds element k) = some c' ∧ Ticketed c' ∧
        c'.held = [] ∧ c'.popped = c.popped + k ∧
        c'.queue.queueSize = c.queue.queueSize := by
  induction k generalizing c with
  | zero => exact ⟨trivial, c, rfl, h, hheld, rfl, rfl⟩
  | succ k ih =>
      have hfull : ¬c.Full := by
        rw [Full, hheld, List.length_nil]
        omega
      have hpush := @call_push T c element hfull
      have hpushed := h.push hfull hpush
      have hpop := @call_pop T { c with
        queue := (c.queue.push element).queue
        held := c.held ++ [element] } (by simp)
      have hpopped := hpushed.pop (by simp) hpop
      obtain ⟨halong, c', hrun, ht, hnil, hcount, hsize⟩ :=
        ih hpopped (by simp [hheld]) hroom
      refine ⟨?_, c', ?_, ht, hnil, by simp [hcount]; omega, hsize⟩
      · refine (along_cons_of_step hpush).mpr ⟨?_, ?_⟩
        · change c.held.length + 1 < _
          rw [hheld]
          exact hroom
        · refine (along_cons_of_step hpop).mpr ⟨?_, halong⟩
          exact List.append_ne_nil_of_right_ne_nil _ (by simp)
      · change run call c (_ :: _ :: rounds element k) = _
        rw [run_cons, hpush, Option.bind_some, run_cons, hpop,
          Option.bind_some, hrun]

/-- On three slots the tickets before and after the start lie in the same. -/
theorem run_across_start {c : QueueClient Bool} (h : Ticketed c)
    (hheld : c.held = []) (hsize : c.queue.queueSize = 3)
    (hpopped : c.popped = 2 ^ 32 - 2) :
    Along call WithinSize c [.push false, .push true] ∧
      ∃ c', run call c [.push false, .push true] = some c' ∧
        c'.held = [false, true] ∧ c'.queue.frontElement = true := by
  have hthree : c.queue.queueSize.toNat = 3 := congrArg UInt32.toNat hsize
  have hfull : ¬c.Full := by
    rw [Full, hheld, hthree]
    decide
  have hpush := @call_push Bool c false hfull
  have hone := h.push hfull hpush
  rw [hheld, List.nil_append] at hpush hone
  generalize hc₁ : ({ c with
    queue := (c.queue.push false).queue
    held := [false] } : QueueClient Bool) = c₁ at hpush hone
  have hheld₁ : c₁.held = [false] := hc₁ ▸ rfl
  have hpopped₁ : c₁.popped = 2 ^ 32 - 2 := hc₁ ▸ hpopped
  have hthree₁ : c₁.queue.queueSize.toNat = 3 := hc₁ ▸ hthree
  have hfull₁ : ¬c₁.Full := by
    rw [Full, hheld₁, hthree₁]
    decide
  have hpush₁ := @call_push Bool c₁ true hfull₁
  have hmemory : (c₁.queue.push true).queue.memory = _ :=
    hone.memory_push hfull₁ hpush₁
  rw [hheld₁, hpopped₁, slotOf, hthree₁] at hmemory
  have hfront : (c₁.queue.push true).queue.frontElement = true := by
    rw [AtomicStaticQueue.frontElement, hmemory, UInt32.toNat_mod]
    change Function.update _ _ _ (c₁.queue.front.toNat %
      c₁.queue.queueSize.toNat) = _
    rw [hone.front, hthree₁, hpopped₁]
    exact Function.update_self _ _ _
  have hrun : run call c [.push false, .push true] = some
      { c₁ with
        queue := (c₁.queue.push true).queue
        held := c₁.held ++ [true] } := by
    rw [run_cons, hpush, Option.bind_some, run_cons, hpush₁]
    rfl
  refine ⟨?_, _, hrun, ?_, hfront⟩
  · refine (along_cons_of_step hpush).mpr ⟨?_, ?_, fun _ _ => trivial⟩
    · change c.held.length + 1 < c.queue.queueSize.toNat
      rw [hheld, hthree]
      decide
    · change c₁.held.length + 1 < c₁.queue.queueSize.toNat
      rw [hheld₁, hthree₁]
      decide
  · change c₁.held ++ [true] = _
    rw [hheld₁]
    rfl

/-- Three slots, and so many rounds that the next ticket but one is 0. -/
def wrappingRun : List (QueueOp Bool) :=
  rounds false (2 ^ 32 - 2) ++ [.push false, .push true]

/-- The second element gets the slot of the first, and `Front` points to it. -/
theorem front_overwritten :
    Along call WithinSize (start 3 fun _ => false) wrappingRun ∧
      ∃ c, run call (start 3 fun _ => false) wrappingRun = some c ∧
        c.held = [false, true] ∧ c.queue.frontElement = true := by
  have hstart : Ticketed (start 3 fun _ => false) :=
    ticketed_start (by decide) _
  obtain ⟨hrounds, c, hrun, h, hheld, hpopped, hsize⟩ :=
    run_rounds hstart rfl (by decide) false (2 ^ 32 - 2)
  obtain ⟨hlast, c', hrun', hc'⟩ :=
    run_across_start h hheld hsize (hpopped.trans (Nat.zero_add _))
  refine ⟨Along.append.mpr ⟨hrounds, ?_⟩, c', ?_, hc'⟩
  · intro s hs
    obtain rfl := Option.some.inj (hrun.symm.trans hs)
    exact hlast
  · rw [wrappingRun, run_append, hrun]
    exact hrun'

end QueueClient

end DokeviNet
