import DokeviNetwork.Queue.Fifo

/-!
# Calls the static queue should not get

`Push` takes a ticket, stores and counts before it looks at the count, so a
full queue is changed although it reports.  `Pop` compares an unsigned number
with 0, so an empty queue is changed and does not report.  No such call leaves
the queue alone.
-/

namespace DokeviNet

open LabelledRun WrappingCounter

namespace QueueClient

variable {T : Type*}

/-- The counters and the elements held are those of `c`. -/
structure Unchanged (c : QueueClient T) (queue : AtomicStaticQueue T) :
    Prop where
  front : queue.front = c.queue.front
  back : queue.back = c.queue.back
  used : queue.used = c.queue.used
  memory : ∀ k < c.held.length,
    queue.memory (c.slotOf (c.popped + 1 + k)) =
      c.queue.memory (c.slotOf (c.popped + 1 + k))

/-- A `Push` onto a full queue, and a `Pop` from an empty one, is reported and
leaves the queue as it is. -/
def Survives (c : QueueClient T) : QueueOp T → Prop
  | .push element => c.Full →
      (c.queue.push element).reported = true ∧
        c.Unchanged (c.queue.push element).queue
  | .pop => c.held = [] →
      c.queue.pop.reported = true ∧ c.Unchanged c.queue.pop.queue

/-- `IsEmpty`, `Front` and `GetUsedSize` are right. -/
structure StaysRight (c : QueueClient T) : Prop where
  fifo : Fifo c
  usedSize : c.queue.getUsedSize.toInt = c.held.length

/-- The queue has room for what is pushed, and an element for what is popped. -/
def Proper (c : QueueClient T) : QueueOp T → Prop
  | .push _ => ¬c.Full
  | .pop => c.held ≠ []

/-- An `int` holds the number of elements after a `Push`. -/
def Countable (c : QueueClient T) : QueueOp T → Prop
  | .push _ => c.held.length + 1 < 2 ^ 31
  | .pop => True

instance (c : QueueClient T) : ∀ op, Decidable (c.Proper op)
  | .push _ => inferInstanceAs (Decidable (¬c.Full))
  | .pop => decidable_of_iff (¬c.held.isEmpty) c.not_isEmpty_iff

instance (c : QueueClient T) : ∀ op, Decidable (c.Countable op)
  | .push _ => inferInstanceAs (Decidable (_ < _))
  | .pop => isTrue trivial

variable {c c' : QueueClient T} {op : QueueOp T}

theorem not_survives_push (hfull : c.Full) (element : T) :
    ¬c.Survives (.push element) := by
  intro h
  have hback : c.queue.back + 1 = c.queue.back := (h hfull).2.back
  have hzero : (1 : UInt32) = 0 := by
    rw [← UInt32.add_right_inj c.queue.back, hback, UInt32.add_zero]
  cases hzero

theorem not_survives_pop (hheld : c.held = []) : ¬c.Survives .pop := by
  intro h
  have hreported := (h hheld).1
  rw [AtomicStaticQueue.pop_not_reported] at hreported
  cases hreported

theorem proper_of_survives (h : c.Survives op) : c.Proper op := by
  cases op with
  | push element => exact fun hfull => not_survives_push hfull element h
  | pop => exact fun hheld => not_survives_pop hheld h

theorem Proper.survives (h : c.Proper op) : c.Survives op := by
  cases op with
  | push element => exact fun hfull => absurd hfull h
  | pop => exact fun hheld => absurd hheld h

/-- What holds as long as the calls are proper and overwrite nothing. -/
structure Sound (c : QueueClient T) : Prop where
  ticketed : Ticketed c
  stored : Stored c
  countable : c.held.length < 2 ^ 31

theorem Ticketed.staysRight_iff (h : Ticketed c) :
    StaysRight c ↔ Stored c ∧ c.held.length < 2 ^ 31 := by
  have hcount : c.queue.getUsedSize.toInt = c.held.length ↔
      c.held.length < 2 ^ 31 := by
    rw [← h.used]
    exact toInt_toInt32_iff c.queue.used
  rw [← h.fifo_iff, ← hcount]
  exact ⟨fun hright => ⟨hright.fifo, hright.usedSize⟩,
    fun hright => ⟨hright.1, hright.2⟩⟩

theorem Sound.staysRight (h : Sound c) : StaysRight c :=
  h.ticketed.staysRight_iff.mpr ⟨h.stored, h.countable⟩

/-- A proper call keeps the queue right exactly if it overwrites nothing and
leaves a number of elements that an `int` holds. -/
theorem Sound.call_iff (h : Sound c) (hproper : c.Proper op)
    (hcall : c.call op = some c') :
    Ticketed c' ∧
      (StaysRight c' ↔ c.NotOverwritten op ∧ c.Countable op) := by
  cases op with
  | push element =>
      have hticketed := h.ticketed.push hproper hcall
      refine ⟨hticketed, ?_⟩
      rw [hticketed.staysRight_iff,
        h.ticketed.stored_push_iff h.stored hproper hcall]
      rw [call_push hproper] at hcall
      obtain rfl := Option.some.inj hcall
      rw [List.length_append]
      rfl
  | pop =>
      have hticketed := h.ticketed.pop hproper hcall
      refine ⟨hticketed, iff_of_true ?_ ⟨trivial, trivial⟩⟩
      refine hticketed.staysRight_iff.mpr ⟨h.stored.pop hproper hcall, ?_⟩
      rw [call_pop hproper] at hcall
      obtain rfl := Option.some.inj hcall
      rw [List.length_tail]
      exact Nat.lt_of_le_of_lt (Nat.sub_le _ _) h.countable

variable {inSize : UInt32} {elements : ℕ → T} {ops : List (QueueOp T)}

theorem sound_start (hsize : 1 ≤ inSize) : Sound (start inSize elements) :=
  ⟨ticketed_start hsize elements, fun k hk => absurd hk (Nat.not_lt_zero k),
    Nat.two_pow_pos 31⟩

/-- Mistaken calls are reported and survived, and the queue stays right, in
exactly the runs without a mistaken call in which nothing is overwritten and
`int` holds the number of elements. -/
theorem survives_iff_proper (hsize : 1 ≤ inSize) :
    (Along call Survives (start inSize elements) ops ∧
        Throughout call StaysRight (start inSize elements) ops) ↔
      Along call (fun c op => c.Proper op ∧ c.NotOverwritten op ∧
        c.Countable op) (start inSize elements) ops := by
  have hinit : Sound (start inSize elements) := sound_start hsize
  obtain ⟨t, hrun⟩ := exists_run exists_call (start inSize elements) ops
  have hiff : Along call Proper (start inSize elements) ops →
      (Throughout call StaysRight (start inSize elements) ops ↔
        Along call (fun c op => c.NotOverwritten op ∧ c.Countable op)
          (start inSize elements) ops) := by
    intro hproper
    refine throughout_iff_along (fun (c : QueueClient T) (h : Sound c) =>
      h.staysRight) ?_ ?_ hinit hproper hrun
    · intro c op c' h hproper hclean hcall
      obtain ⟨hticketed, hright⟩ := h.call_iff hproper hcall
      obtain ⟨hstored, hcount⟩ :=
        hticketed.staysRight_iff.mp (hright.mpr hclean)
      exact ⟨hticketed, hstored, hcount⟩
    · intro c op c' h hproper hcall hright
      exact (h.call_iff hproper hcall).2.mp hright
  constructor
  · rintro ⟨hsurvives, hright⟩
    have hproper := hsurvives.mono fun c op => proper_of_survives
    exact hproper.and ((hiff hproper).mp hright)
  · intro hall
    have hproper := hall.mono fun c op h => h.1
    exact ⟨hproper.mono fun c op => Proper.survives,
      (hiff hproper).mpr (hall.mono fun c op h => h.2)⟩

/-- `Pop` from an empty queue is not reported, and afterwards the queue counts
elements; `Push` onto a full one is reported, and replaces the element. -/
theorem mistaken_calls_not_survived :
    (¬Along call Survives (start 1 fun _ => 0) [.pop] ∧
        ∃ c, run call (start 1 fun _ => 0) [.pop] = some c ∧
          c.held = [] ∧ c.queue.isEmpty = false) ∧
      ¬Along call Survives (start 1 fun _ => 0) [.push 5, .push 6] ∧
        ∃ c, run call (start 1 fun _ => 0) [.push 5, .push 6] = some c ∧
          c.held = [5] ∧ c.queue.frontElement = 6 := by
  refine ⟨⟨?_, _, rfl, rfl, rfl⟩, ?_, _, rfl, rfl, rfl⟩
  · exact fun h => not_survives_pop rfl h.1
  · exact fun h => not_survives_push (by decide) _ ((h.2 _ rfl).1)

/-- Two slots, filled and emptied. -/
theorem survives_fillAndEmpty :
    Along call Survives (start 2 fun _ => 0) [.push 5, .push 6, .pop, .pop] ∧
      Throughout call StaysRight (start 2 fun _ => 0)
        [.push 5, .push 6, .pop, .pop] :=
  (survives_iff_proper (by decide)).mpr (by decide)

end QueueClient

end DokeviNet
