import DokeviNetwork.Queue.AtomicStaticQueue
import DokeviNetwork.Support.Run
import DokeviNetwork.Support.Wrap
import Mathlib.Data.List.Count

/-!
# The static queue with many producers

Any number of pushes may be under way, and the consumer asks `IsEmpty` before
each `Front` and `Pop`.  `_used` counts the pushes that are finished, not those
of the lowest tickets: after a push overtook another, the queue is not empty and
its front may still be unwritten.  So the consumer gets what was pushed, in the
order of the tickets, exactly if each push has stored its element before the
consumer comes to its ticket.  Producers see to that, whatever the consumer does,
by counting a push only after those of the earlier tickets have stored.
-/

namespace DokeviNet

open LabelledRun WrappingCounter

/-- How far a `Push` has come. -/
inductive PushStage
  | taken
  | stored
  | counted
  deriving DecidableEq

/-- A `Push` that has its ticket: the value that `InterlockedIncrement`
returned, what it pushes, and how far it is. -/
structure PushCall (T : Type*) where
  index : UInt32
  element : T
  stage : PushStage

/-- How far the consumer is. -/
inductive ConsumerStage
  | idle
  | notEmpty
  | looked
  deriving DecidableEq

/-- A queue, the pushes in the order of their tickets, and the consumer: how
often it called `Pop`, and what `Front` pointed to each time. -/
structure SharedQueue (T : Type*) where
  queue : AtomicStaticQueue T
  pushes : List (PushCall T)
  popped : ℕ
  returned : List T
  consumer : ConsumerStage

/-- A step of the push with the given place in the order of tickets, or of the
consumer. -/
inductive QueueStep (T : Type*)
  | takeTicket (element : T)
  | store (i : ℕ)
  | count (i : ℕ)
  | isEmpty
  | front
  | pop

namespace SharedQueue

variable {T : Type*}

/-- A queue after `Init`. -/
def start (inSize : UInt32) (elements : ℕ → T) : SharedQueue T where
  queue := AtomicStaticQueue.init inSize elements
  pushes := []
  popped := 0
  returned := []
  consumer := .idle

/-- The push at place `i`, if it is at `stage`. -/
def pushAt (s : SharedQueue T) (i : ℕ) (stage : PushStage) :
    Option (PushCall T) :=
  s.pushes[i]?.filter fun p => decide (p.stage = stage)

/-- One step.  The consumer calls `Front`, and then `Pop`, only after `IsEmpty`
returned false. -/
def step (s : SharedQueue T) : QueueStep T → Option (SharedQueue T)
  | .takeTicket element =>
    some
      { s with
        queue := s.queue.takeTicket
        pushes := s.pushes ++
          [{ index := s.queue.takeTicket.back, element, stage := .taken }] }
  | .store i =>
    (s.pushAt i .taken).map fun p =>
      { s with
        queue := s.queue.store p.index p.element
        pushes := s.pushes.set i { p with stage := .stored } }
  | .count i =>
    (s.pushAt i .stored).map fun p =>
      { s with
        queue := s.queue.count.queue
        pushes := s.pushes.set i { p with stage := .counted } }
  | .isEmpty =>
    if s.consumer = .idle then
      some { s with consumer := if s.queue.isEmpty then .idle else .notEmpty }
    else none
  | .front =>
    if s.consumer = .notEmpty then
      some
        { s with
          returned := s.returned ++ [s.queue.frontElement]
          consumer := .looked }
    else none
  | .pop =>
    if s.consumer = .looked then
      some
        { s with
          queue := s.queue.pop.queue
          popped := s.popped + 1
          consumer := .idle }
    else none

/-- The number of calls of `Front`. -/
def looks (s : SharedQueue T) : ℕ :=
  s.popped + if s.consumer = .looked then 1 else 0

/-- `Front` has pointed to the elements of the first tickets, each once and in
order, and these were stored; if no push is under way and the queue is empty,
that is all there were. -/
structure Delivered (s : SharedQueue T) : Prop where
  order : s.returned = (s.pushes.map PushCall.element).take s.looks
  stored : ∀ p ∈ s.pushes.take s.looks, p.stage ≠ .taken
  complete : (∀ p ∈ s.pushes, p.stage = .counted) → s.queue.isEmpty = true →
    s.returned = s.pushes.map PushCall.element

/-- A ticket is taken only while fewer are out than the queue has slots. -/
def HasRoom (s : SharedQueue T) : QueueStep T → Prop
  | .takeTicket _ => s.pushes.length - s.popped < s.queue.queueSize.toNat
  | _ => True

/-- No ticket is taken that has the slot of one that is out: those are the
first since the tickets started again, up to `2 ^ 32` modulo the size. -/
def TicketsApart (s : SharedQueue T) : QueueStep T → Prop
  | .takeTicket _ =>
    let gap := 2 ^ 32 % s.queue.queueSize.toNat
    gap ≤ s.pushes.length - s.popped →
      gap ≤ (s.pushes.length + 1) % 2 ^ 32
  | _ => True

/-- When the consumer calls `Front`, the push of the next ticket has stored its
element. -/
def StoredBefore (s : SharedQueue T) : QueueStep T → Prop
  | .front => ∀ p, s.pushes[s.popped]? = some p → p.stage ≠ .taken
  | _ => True

instance (s : SharedQueue T) : ∀ l, Decidable (s.HasRoom l)
  | .takeTicket _ => inferInstanceAs (Decidable (_ < _))
  | .store _ | .count _ | .isEmpty | .front | .pop => isTrue trivial

instance (s : SharedQueue T) : ∀ l, Decidable (s.TicketsApart l)
  | .takeTicket _ => inferInstanceAs (Decidable (_ → _))
  | .store _ | .count _ | .isEmpty | .front | .pop => isTrue trivial

instance (s : SharedQueue T) : ∀ l, Decidable (s.StoredBefore l)
  | .front => decidable_of_iff
      (∀ p ∈ s.pushes[s.popped]?.toList, p.stage ≠ .taken)
      (by simp [StoredBefore])
  | .takeTicket _ | .store _ | .count _ | .isEmpty | .pop => isTrue trivial

/-- The slot of a ticket. -/
def slotOf (s : SharedQueue T) (ticket : ℕ) : ℕ :=
  slot (2 ^ 32) s.queue.queueSize.toNat ticket

/-- The counters count the steps, and the consumer found an element. -/
structure Counted (s : SharedQueue T) : Prop where
  size : 0 < s.queue.queueSize.toNat
  room : s.pushes.length ≤ s.popped + s.queue.queueSize.toNat
  back : s.queue.back.toNat = s.pushes.length % 2 ^ 32
  front : s.queue.front.toNat = (s.popped + 1) % 2 ^ 32
  used : s.popped + s.queue.used.toNat =
    s.pushes.countP fun p => decide (p.stage = .counted)
  index : ∀ i p, s.pushes[i]? = some p → p.index.toNat = (i + 1) % 2 ^ 32
  found : s.consumer ≠ .idle → 0 < s.queue.used.toNat

/-- The tickets that are out have slots of their own, and the elements stored
lie in them. -/
structure Laid (s : SharedQueue T) : Prop where
  apart : ∀ i j, s.popped ≤ i → i < j → j < s.pushes.length →
    s.slotOf (j + 1) ≠ s.slotOf (i + 1)
  memory : ∀ i p, s.popped ≤ i → s.pushes[i]? = some p → p.stage ≠ .taken →
    s.queue.memory (s.slotOf (i + 1)) = p.element

/-- What the consumer has seen. -/
structure Seen (s : SharedQueue T) : Prop where
  order : s.returned = (s.pushes.map PushCall.element).take s.looks
  stored : ∀ p ∈ s.pushes.take s.looks, p.stage ≠ .taken

variable {s s' : SharedQueue T} {i : ℕ}

theorem Counted.length_ge (h : Counted s) :
    s.popped + s.queue.used.toNat ≤ s.pushes.length :=
  h.used ▸ List.countP_le_length

/-- While the consumer has found an element, there is a next ticket. -/
theorem Counted.popped_lt (h : Counted s) (hconsumer : s.consumer ≠ .idle) :
    s.popped < s.pushes.length := by
  have hle := h.length_ge
  have hpos := h.found hconsumer
  omega

theorem Seen.delivered (h : Seen s) (hc : Counted s) : Delivered s := by
  refine ⟨h.order, h.stored, ?_⟩
  intro hall hempty
  have hused := s.queue.isEmpty_iff.mp hempty
  have hcount := hc.used
  have hlength : s.pushes.countP (fun p => decide (p.stage = .counted)) =
      s.pushes.length :=
    List.countP_eq_length.mpr fun p hp => decide_eq_true (hall p hp)
  rw [hlength, hused, Nat.add_zero] at hcount
  rw [h.order]
  apply List.take_of_length_le
  rw [List.length_map, ← hcount]
  exact Nat.le_add_right _ _

/-! ## A push goes on -/

section

variable {p p' : PushCall T} {stage stage' : PushStage} {j : ℕ}

theorem pushAt_eq_some (h : s.pushAt i stage = some p) :
    s.pushes[i]? = some p ∧ p.stage = stage := by
  obtain ⟨hget, hstage⟩ := Option.filter_eq_some_iff.mp h
  exact ⟨hget, of_decide_eq_true hstage⟩

theorem get_advanced
    (hget : (s.pushes.set i { p with stage := stage })[j]? = some p') :
    (j = i ∧ p' = { p with stage := stage }) ∨ s.pushes[j]? = some p' := by
  rw [List.getElem?_set] at hget
  split at hget
  · next heq =>
    obtain ⟨-, hset⟩ := Option.ite_none_right_eq_some.mp hget
    exact Or.inl ⟨heq.symm, (Option.some.inj hset).symm⟩
  · exact Or.inr hget

theorem map_element_advanced (hp : s.pushes[i]? = some p) :
    (s.pushes.set i { p with stage := stage }).map PushCall.element =
      s.pushes.map PushCall.element := by
  obtain ⟨hi, rfl⟩ := List.getElem?_eq_some_iff.mp hp
  have hmap : i < (s.pushes.map PushCall.element).length := by simpa using hi
  have hget : (s.pushes.map PushCall.element)[i] = s.pushes[i].element :=
    List.getElem_map _
  rw [List.map_set]
  change (s.pushes.map PushCall.element).set i s.pushes[i].element = _
  rw [← hget]
  exact List.set_getElem_self hmap

theorem stored_advanced (h : Seen s) (hstage : stage ≠ .taken) :
    ∀ q ∈ (s.pushes.set i { p with stage := stage }).take s.looks,
      q.stage ≠ .taken := by
  intro q hq
  rw [List.take_set] at hq
  rcases List.mem_or_eq_of_mem_set hq with hq | rfl
  · exact h.stored q hq
  · exact hstage

/-- The number of finished pushes grows with the last step of one. -/
theorem countP_advanced (hp : s.pushes[i]? = some p) (hstage : p.stage ≠ .counted) :
    (s.pushes.set i { p with stage := stage }).countP
        (fun p => decide (p.stage = .counted)) =
      (s.pushes.countP fun p => decide (p.stage = .counted)) +
        if stage = .counted then 1 else 0 := by
  obtain ⟨hi, rfl⟩ := List.getElem?_eq_some_iff.mp hp
  rw [List.countP_set hi]
  simp [hstage]

end

/-! ## What the steps keep -/

theorem Counted.takeTicket (h : Counted s) {element : T}
    (hroom : s.HasRoom (.takeTicket element))
    (hstep : s.step (.takeTicket element) = some s') : Counted s' := by
  obtain rfl := Option.some.inj hstep
  have hroom : s.pushes.length - s.popped < s.queue.queueSize.toNat := hroom
  have hback : s.queue.takeTicket.back.toNat =
      (s.pushes.length + 1) % 2 ^ 32 := toNat_add_one h.back
  refine ⟨h.size, ?_, ?_, h.front, ?_, ?_, h.found⟩
  · rw [List.length_append]
    change s.pushes.length + 1 ≤ s.popped + s.queue.queueSize.toNat
    omega
  · rw [List.length_append]
    exact hback
  · rw [List.countP_append]
    exact h.used
  · intro i p hp
    rw [List.getElem?_append] at hp
    split at hp
    · exact h.index i p hp
    · next hi =>
      have hlast := List.mem_of_getElem? hp
      have hlt := (List.getElem?_eq_some_iff.mp hp).1
      obtain rfl := List.mem_singleton.mp hlast
      rw [List.length_singleton] at hlt
      have heq : i = s.pushes.length := by omega
      rw [heq]
      exact hback

theorem Counted.index_advanced (h : Counted s) {p : PushCall T}
    {stage : PushStage} (hp : s.pushes[i]? = some p) :
    ∀ j q, (s.pushes.set i { p with stage := stage })[j]? = some q →
      q.index.toNat = (j + 1) % 2 ^ 32 := by
  intro j q hq
  obtain ⟨rfl, rfl⟩ | hq := get_advanced hq
  · exact h.index _ p hp
  · exact h.index _ _ hq

theorem Counted.store (h : Counted s) (hstep : s.step (.store i) = some s') :
    Counted s' := by
  obtain ⟨p, hp, rfl⟩ := Option.map_eq_some_iff.mp hstep
  obtain ⟨hget, hstage⟩ := pushAt_eq_some hp
  refine ⟨h.size, ?_, ?_, h.front, ?_, h.index_advanced hget, h.found⟩
  · rw [List.length_set]
    exact h.room
  · rw [List.length_set]
    exact h.back
  · rw [countP_advanced hget (by simp [hstage])]
    exact h.used

theorem Counted.count (h : Counted s) (hstep : s.step (.count i) = some s') :
    Counted s' := by
  obtain ⟨p, hp, rfl⟩ := Option.map_eq_some_iff.mp hstep
  obtain ⟨hget, hstage⟩ := pushAt_eq_some hp
  have hcount := @countP_advanced T s i p .counted hget (by simp [hstage])
  have hle : (s.pushes.set i { p with stage := .counted }).countP
      (fun p => decide (p.stage = .counted)) ≤ s.pushes.length :=
    List.countP_le_length.trans_eq List.length_set
  have hused : (s.queue.used + 1).toNat = s.queue.used.toNat + 1 := by
    have hroom := h.room
    have hbefore := h.used
    have hbound := s.queue.queueSize.toNat_lt
    rw [hcount, if_pos rfl] at hle
    exact toNat_add_one_of_lt (by omega)
  refine ⟨h.size, ?_, ?_, h.front, ?_, h.index_advanced hget, ?_⟩
  · rw [List.length_set]
    exact h.room
  · rw [List.length_set]
    exact h.back
  · rw [hcount, if_pos rfl, ← h.used]
    change s.popped + (s.queue.used + 1).toNat = _
    rw [hused, Nat.add_assoc]
  · intro _
    change 0 < (s.queue.used + 1).toNat
    omega

theorem Counted.isEmpty (h : Counted s) (hstep : s.step .isEmpty = some s') :
    Counted s' := by
  obtain ⟨-, hstep⟩ := Option.ite_none_right_eq_some.mp hstep
  obtain rfl := Option.some.inj hstep
  refine ⟨h.size, h.room, h.back, h.front, h.used, h.index, ?_⟩
  intro hconsumer
  apply Nat.pos_of_ne_zero
  intro hzero
  exact hconsumer (if_pos (s.queue.isEmpty_iff.mpr hzero))

theorem Counted.look (h : Counted s) (hstep : s.step .front = some s') :
    Counted s' := by
  obtain ⟨hconsumer, hstep⟩ := Option.ite_none_right_eq_some.mp hstep
  obtain rfl := Option.some.inj hstep
  exact ⟨h.size, h.room, h.back, h.front, h.used, h.index,
    fun _ => h.found (by simp [hconsumer])⟩

theorem Counted.pop (h : Counted s) (hstep : s.step .pop = some s') :
    Counted s' := by
  obtain ⟨hconsumer, hstep⟩ := Option.ite_none_right_eq_some.mp hstep
  obtain rfl := Option.some.inj hstep
  have hpos := h.found (by simp [hconsumer])
  have hroom := h.room
  refine ⟨h.size, ?_, h.back, ?_, ?_, h.index, fun hidle => absurd rfl hidle⟩
  · change s.pushes.length ≤ s.popped + 1 + s.queue.queueSize.toNat
    omega
  · exact toNat_add_one h.front
  · change s.popped + 1 + (s.queue.used - 1).toNat = _
    rw [toNat_sub_one hpos, ← h.used]
    omega

theorem Counted.step (h : Counted s) {l : QueueStep T} (hroom : s.HasRoom l)
    (hstep : s.step l = some s') : Counted s' := by
  cases l with
  | takeTicket element => exact h.takeTicket hroom hstep
  | store i => exact h.store hstep
  | count i => exact h.count hstep
  | isEmpty => exact h.isEmpty hstep
  | front => exact h.look hstep
  | pop => exact h.pop hstep

/-- A further ticket has a slot of its own. -/
theorem Laid.takeTicket (h : Laid s) {element : T}
    (hroom : s.HasRoom (.takeTicket element))
    (hapart : s.TicketsApart (.takeTicket element))
    (hstep : s.step (.takeTicket element) = some s') : Laid s' := by
  obtain rfl := Option.some.inj hstep
  have hroom : s.pushes.length - s.popped < s.queue.queueSize.toNat := hroom
  have hbound := s.queue.queueSize.toNat_lt
  constructor
  · intro i j hi hij hj
    rw [List.length_append, List.length_singleton] at hj
    rcases Nat.lt_or_eq_of_le (Nat.le_of_lt_succ hj) with hj | rfl
    · exact h.apart i j hi hij hj
    · change s.popped ≤ i at hi
      change s.slotOf (s.pushes.length + 1) ≠ s.slotOf (i + 1)
      have hsplit : s.pushes.length + 1 = i + 1 + (s.pushes.length - i) := by
        omega
      intro hslot
      rw [hsplit] at hslot
      obtain ⟨hgap, hless⟩ :=
        (slot_add_eq_iff (by omega) (by omega) hbound.le).mp hslot
      rw [← hsplit] at hless
      have hfar := hapart (by omega)
      omega
  · intro i p hi hp hstage
    rw [List.getElem?_append] at hp
    split at hp
    · exact h.memory i p hi hp hstage
    · have hlast := List.mem_singleton.mp (List.mem_of_getElem? hp)
      rw [hlast] at hstage
      exact absurd rfl hstage

/-- A push that has not stored its element is still out. -/
theorem Seen.popped_le (h : Seen s) {p : PushCall T}
    (hp : s.pushes[i]? = some p) (hstage : p.stage = .taken) :
    s.looks ≤ i := by
  by_contra hlt
  refine h.stored p ?_ hstage
  rw [List.mem_iff_getElem?]
  exact ⟨i, by rw [List.getElem?_take_of_lt (Nat.lt_of_not_le hlt), hp]⟩

theorem Laid.store (h : Laid s) (hc : Counted s) (hseen : Seen s)
    (hstep : s.step (.store i) = some s') : Laid s' := by
  obtain ⟨p, hp, rfl⟩ := Option.map_eq_some_iff.mp hstep
  obtain ⟨hget, hstage⟩ := pushAt_eq_some hp
  have hi : i < s.pushes.length := (List.getElem?_eq_some_iff.mp hget).1
  have hout : s.popped ≤ i :=
    (Nat.le_add_right _ _).trans (hseen.popped_le hget hstage)
  have hslot : (p.index % s.queue.queueSize).toNat = s.slotOf (i + 1) := by
    rw [UInt32.toNat_mod, hc.index i p hget]
    rfl
  refine ⟨?_, ?_⟩
  · intro j k hj hjk hk
    rw [List.length_set] at hk
    exact h.apart j k hj hjk hk
  · intro j q hj hq hstored
    change Function.update s.queue.memory (p.index % s.queue.queueSize).toNat
      p.element (s.slotOf (j + 1)) = q.element
    rw [hslot]
    by_cases heq : j = i
    · subst heq
      rw [List.getElem?_set_self hi] at hq
      rw [Function.update_self, ← Option.some.inj hq]
    · rw [List.getElem?_set_ne (Ne.symm heq)] at hq
      have hj_lt : j < s.pushes.length := (List.getElem?_eq_some_iff.mp hq).1
      have hne : s.slotOf (j + 1) ≠ s.slotOf (i + 1) := by
        rcases Nat.lt_or_gt_of_ne heq with hlt | hgt
        · exact (h.apart j i hj hlt hi).symm
        · exact h.apart i j hout hgt hj_lt
      rw [Function.update_of_ne hne]
      exact h.memory j q hj hq hstored

theorem Laid.count (h : Laid s) (hstep : s.step (.count i) = some s') :
    Laid s' := by
  obtain ⟨p, hp, rfl⟩ := Option.map_eq_some_iff.mp hstep
  obtain ⟨hget, hstored⟩ := pushAt_eq_some hp
  refine ⟨?_, ?_⟩
  · intro j k hj hjk hk
    rw [List.length_set] at hk
    exact h.apart j k hj hjk hk
  · intro j q hj hq hstage
    obtain ⟨rfl, rfl⟩ | hq := get_advanced hq
    · exact h.memory _ p hj hget (by simp [hstored])
    · exact h.memory j q hj hq hstage

theorem Laid.pop (h : Laid s) (hstep : s.step .pop = some s') : Laid s' := by
  obtain ⟨-, hstep⟩ := Option.ite_none_right_eq_some.mp hstep
  obtain rfl := Option.some.inj hstep
  refine ⟨?_, ?_⟩
  · intro i j hi hij hj
    exact h.apart i j (Nat.le_of_succ_le hi) hij hj
  · intro i p hi hp hstage
    exact h.memory i p (Nat.le_of_succ_le hi) hp hstage

/-- `Front` points to the element of the next ticket, if that is stored. -/
theorem Laid.frontElement (h : Laid s) (hc : Counted s) {p : PushCall T}
    (hp : s.pushes[s.popped]? = some p) (hstage : p.stage ≠ .taken) :
    s.queue.frontElement = p.element := by
  rw [← h.memory s.popped p le_rfl hp hstage, AtomicStaticQueue.frontElement,
    UInt32.toNat_mod, hc.front]
  rfl

theorem looks_of_ne (hconsumer : s.consumer ≠ .looked) :
    s.looks = s.popped := by
  rw [looks, if_neg hconsumer, Nat.add_zero]

/-- After `Front` the consumer has seen the next ticket exactly if that is
stored. -/
theorem Seen.look_iff (h : Seen s) (hl : Laid s) (hc : Counted s)
    (hstep : s.step .front = some s') : Seen s' ↔ s.StoredBefore .front := by
  obtain ⟨hconsumer, hstep⟩ := Option.ite_none_right_eq_some.mp hstep
  obtain rfl := Option.some.inj hstep
  have hlooks := @looks_of_ne T s (by simp [hconsumer])
  have hlt := hc.popped_lt (by simp [hconsumer])
  have hget : s.pushes[s.popped]? = some s.pushes[s.popped] :=
    List.getElem?_eq_getElem hlt
  have htake : s.pushes.take (s.popped + 1) =
      s.pushes.take s.popped ++ [s.pushes[s.popped]] := by
    rw [List.take_add_one, hget]
    rfl
  constructor
  · intro hseen p hp
    refine hseen.stored p ?_
    change p ∈ s.pushes.take (s.popped + 1)
    rw [hget] at hp
    rw [htake, ← Option.some.inj hp]
    exact List.mem_append_right _ (List.mem_singleton_self _)
  · intro hstored
    have hfront := hl.frontElement hc hget (hstored _ hget)
    constructor
    · change s.returned ++ [s.queue.frontElement] =
        (s.pushes.map PushCall.element).take (s.popped + 1)
      rw [← List.map_take, htake, hfront, h.order, hlooks, List.map_append,
        List.map_take]
      rfl
    · intro q hq
      change q ∈ s.pushes.take (s.popped + 1) at hq
      rw [htake] at hq
      rcases List.mem_append.mp hq with hq | hq
      · exact h.stored q (hlooks ▸ hq)
      · rw [List.mem_singleton.mp hq]
        exact hstored _ hget

theorem Counted.looks_le (hc : Counted s) :
    s.looks ≤ s.pushes.length := by
  by_cases hconsumer : s.consumer = .looked
  · have hlt := hc.popped_lt (by simp [hconsumer])
    rw [looks, if_pos hconsumer]
    exact hlt
  · rw [looks_of_ne hconsumer]
    exact (Nat.le_add_right _ _).trans hc.length_ge

/-- The steps of the pushes do not change what the consumer has seen. -/
theorem Seen.takeTicket (h : Seen s) (hc : Counted s) {element : T}
    (hstep : s.step (.takeTicket element) = some s') : Seen s' := by
  obtain rfl := Option.some.inj hstep
  have hle := hc.looks_le
  constructor
  · change s.returned = ((s.pushes ++ [_]).map PushCall.element).take s.looks
    rw [List.map_append, List.take_append_of_le_length (by simpa using hle)]
    exact h.order
  · intro p hp
    change p ∈ (s.pushes ++ [_]).take s.looks at hp
    rw [List.take_append_of_le_length hle] at hp
    exact h.stored p hp

theorem Seen.store (h : Seen s) (hstep : s.step (.store i) = some s') :
    Seen s' := by
  obtain ⟨p, hp, rfl⟩ := Option.map_eq_some_iff.mp hstep
  have hget := (pushAt_eq_some hp).1
  refine ⟨?_, stored_advanced h (by simp)⟩
  rw [map_element_advanced hget]
  exact h.order

theorem Seen.count (h : Seen s) (hstep : s.step (.count i) = some s') :
    Seen s' := by
  obtain ⟨p, hp, rfl⟩ := Option.map_eq_some_iff.mp hstep
  have hget := (pushAt_eq_some hp).1
  refine ⟨?_, stored_advanced h (by simp)⟩
  rw [map_element_advanced hget]
  exact h.order

theorem Seen.isEmpty (h : Seen s) (hstep : s.step .isEmpty = some s') :
    Seen s' := by
  obtain ⟨hidle, hstep⟩ := Option.ite_none_right_eq_some.mp hstep
  obtain rfl := Option.some.inj hstep
  have hlooks : s.looks = s.popped := looks_of_ne (by simp [hidle])
  have hafter : looks { s with
      consumer := if s.queue.isEmpty then .idle else .notEmpty } =
        s.popped := by
    apply looks_of_ne
    dsimp only
    split
    · simp
    · simp
  constructor
  · rw [hafter, ← hlooks]
    exact h.order
  · rw [hafter, ← hlooks]
    exact h.stored

theorem Laid.consumer (h : Laid s) {returned : List T}
    {consumer : ConsumerStage} : Laid { s with returned, consumer } :=
  ⟨h.apart, h.memory⟩

theorem Seen.pop (h : Seen s) (hstep : s.step .pop = some s') : Seen s' := by
  obtain ⟨hlooked, hstep⟩ := Option.ite_none_right_eq_some.mp hstep
  obtain rfl := Option.some.inj hstep
  have hlooks : s.looks = s.popped + 1 := by
    rw [looks, if_pos hlooked]
  exact ⟨hlooks ▸ h.order, hlooks ▸ h.stored⟩

/-! ## Runs -/

/-- What holds as long as the consumer is never early. -/
structure InOrder (s : SharedQueue T) : Prop where
  counted : Counted s
  laid : Laid s
  seen : Seen s

/-- Only a `Front` can show the consumer something else than the next
element. -/
theorem InOrder.seen_iff (h : InOrder s) {l : QueueStep T}
    (hstep : s.step l = some s') : Seen s' ↔ s.StoredBefore l := by
  cases l with
  | takeTicket element =>
      exact iff_of_true (h.seen.takeTicket h.counted hstep) trivial
  | store i => exact iff_of_true (h.seen.store hstep) trivial
  | count i => exact iff_of_true (h.seen.count hstep) trivial
  | isEmpty => exact iff_of_true (h.seen.isEmpty hstep) trivial
  | front => exact h.seen.look_iff h.laid h.counted hstep
  | pop => exact iff_of_true (h.seen.pop hstep) trivial

theorem InOrder.laid_step (h : InOrder s) {l : QueueStep T}
    (hroom : s.HasRoom l) (hapart : s.TicketsApart l)
    (hstep : s.step l = some s') : Laid s' := by
  cases l with
  | takeTicket element => exact h.laid.takeTicket hroom hapart hstep
  | store i => exact h.laid.store h.counted h.seen hstep
  | count i => exact h.laid.count hstep
  | isEmpty =>
      obtain ⟨-, hstep⟩ := Option.ite_none_right_eq_some.mp hstep
      exact Option.some.inj hstep ▸ h.laid.consumer
  | front =>
      obtain ⟨-, hstep⟩ := Option.ite_none_right_eq_some.mp hstep
      exact Option.some.inj hstep ▸ h.laid.consumer
  | pop => exact h.laid.pop hstep

theorem InOrder.step (h : InOrder s) {l : QueueStep T}
    (hwell : s.HasRoom l ∧ s.TicketsApart l) (hstored : s.StoredBefore l)
    (hstep : s.step l = some s') : InOrder s' :=
  ⟨h.counted.step hwell.1 hstep, h.laid_step hwell.1 hwell.2 hstep,
    (h.seen_iff hstep).mpr hstored⟩

variable {inSize : UInt32} {elements : ℕ → T} {steps : List (QueueStep T)}

theorem inOrder_start (hsize : 1 ≤ inSize) :
    InOrder (start inSize elements) := by
  refine ⟨⟨hsize, Nat.zero_le _, rfl, rfl, rfl, ?_, fun h => absurd rfl h⟩,
    ⟨?_, ?_⟩, rfl, ?_⟩
  · intro i p hp
    cases hp
  · intro i j _ _ hj
    exact absurd hj (Nat.not_lt_zero j)
  · intro i p _ hp
    cases hp
  · intro p hp
    cases hp

/-- In a run in which no ticket is taken that has the slot of one that is out,
the consumer gets what was pushed, each element once and in the order of the
tickets, exactly if it never calls `Front` before the push of the next ticket
has stored its element. -/
theorem delivered_iff_storedBefore (hsize : 1 ≤ inSize)
    (hrun : (run step (start inSize elements) steps).isSome)
    (halong : Along step (fun s l => s.HasRoom l ∧ s.TicketsApart l)
      (start inSize elements) steps) :
    Throughout step Delivered (start inSize elements) steps ↔
      Along step StoredBefore (start inSize elements) steps := by
  obtain ⟨t, hrun⟩ := Option.isSome_iff_exists.mp hrun
  have hinit : InOrder (start inSize elements) := inOrder_start hsize
  refine throughout_iff_along (fun (s : SharedQueue T) (h : InOrder s) =>
    h.seen.delivered h.counted) ?_ ?_ hinit halong hrun
  · intro s l s' h hwell hstored hstep
    exact h.step hwell hstored hstep
  · intro s l s' h _ hstep hdelivered
    exact (h.seen_iff hstep).mp ⟨hdelivered.order, hdelivered.stored⟩

/-- The push of the second ticket overtakes that of the first. -/
def overtaken : List (QueueStep ℕ) :=
  [.takeTicket 5, .takeTicket 6, .store 1, .count 1, .isEmpty, .front]

/-- The queue is not empty, and `Front` points to a slot that no push has
written. -/
theorem overtaken_not_delivered :
    ∃ s, run step (start 4 fun _ => 0) overtaken = some s ∧
      Along step HasRoom (start 4 fun _ => 0) overtaken ∧
      s.returned = [0] ∧ ¬Delivered s := by
  refine ⟨_, rfl, by decide, rfl, fun h => ?_⟩
  exact absurd h.order (by decide)

/-- Two pushes that overlap and finish in order, and the consumer. -/
theorem delivered_overlapping :
    Throughout step Delivered (start 4 fun _ => 0)
      [.takeTicket 5, .takeTicket 6, .store 1, .store 0, .count 1, .isEmpty,
        .front, .pop, .isEmpty, .count 0, .isEmpty, .front, .pop] :=
  (delivered_iff_storedBefore (by decide) (by decide) (by decide)).mpr
    (by decide)

/-! ## Producers that keep the order -/

/-- A push is counted only once those of the earlier tickets have stored. -/
def CountsInOrder (s : SharedQueue T) : QueueStep T → Prop
  | .count i => ∀ p ∈ s.pushes.take i, p.stage ≠ .taken
  | _ => True

/-- A push begins only once all others are finished. -/
def OneAtATime (s : SharedQueue T) : QueueStep T → Prop
  | .takeTicket _ => ∀ p ∈ s.pushes, p.stage = .counted
  | _ => True

/-- The pushes before a finished one have stored. -/
def StoredUpTo (s : SharedQueue T) : Prop :=
  ∀ (i j : ℕ) (p q : PushCall T), j < i → s.pushes[i]? = some p →
    p.stage = .counted → s.pushes[j]? = some q → q.stage ≠ .taken

/-- Only the last push is not finished. -/
def LastOpen (s : SharedQueue T) : Prop :=
  ∀ i p, i + 1 < s.pushes.length → s.pushes[i]? = some p → p.stage = .counted

theorem LastOpen.storedUpTo (h : LastOpen s) : StoredUpTo s := by
  intro i j p q hji hp _ hq
  have hi : i < s.pushes.length := (List.getElem?_eq_some_iff.mp hp).1
  rw [h j q (by omega) hq]
  simp

/-- The consumer finds the queue not empty only if a push has finished that it
has not come to, and then the next one has stored. -/
theorem StoredUpTo.storedBefore (h : StoredUpTo s) (hc : Counted s)
    {l : QueueStep T} (hstep : s.step l = some s') : s.StoredBefore l := by
  cases l with
  | takeTicket | store | count | isEmpty | pop => trivial
  | front =>
      obtain ⟨hconsumer, -⟩ := Option.ite_none_right_eq_some.mp hstep
      have hfound := hc.found (by simp [hconsumer])
      have hsplit := hc.used
      rw [← List.take_append_drop s.popped s.pushes, List.countP_append] at hsplit
      have hfirst : (s.pushes.take s.popped).countP
          (fun p => decide (p.stage = .counted)) ≤ s.popped :=
        List.countP_le_length.trans (List.length_take_le _ _)
      have hrest : 0 < (s.pushes.drop s.popped).countP
          fun p => decide (p.stage = .counted) := by omega
      obtain ⟨p, hp, hstage⟩ := List.countP_pos_iff.mp hrest
      obtain ⟨k, hk⟩ := List.mem_iff_getElem?.mp hp
      rw [List.getElem?_drop] at hk
      intro q hq
      rcases Nat.eq_zero_or_pos k with rfl | hpos
      · obtain rfl := Option.some.inj (hq.symm.trans hk)
        rw [of_decide_eq_true hstage]
        simp
      · apply h (s.popped + k) s.popped p q ?_ hk (of_decide_eq_true hstage) hq
        exact Nat.lt_add_of_pos_right hpos

theorem StoredUpTo.takeTicket (h : StoredUpTo s) {element : T}
    (hstep : s.step (.takeTicket element) = some s') : StoredUpTo s' := by
  obtain rfl := Option.some.inj hstep
  intro i j p q hji hp hstage hq
  rw [List.getElem?_append] at hp
  split at hp
  · next hi =>
    rw [List.getElem?_append_left (hji.trans hi)] at hq
    exact h i j p q hji hp hstage hq
  · have hlast := List.mem_singleton.mp (List.mem_of_getElem? hp)
    rw [hlast] at hstage
    cases hstage

theorem StoredUpTo.store (h : StoredUpTo s) (hstep : s.step (.store i) = some s') :
    StoredUpTo s' := by
  obtain ⟨_, hp, rfl⟩ := Option.map_eq_some_iff.mp hstep
  intro k j p q hjk hpk hstage hq
  obtain ⟨-, rfl⟩ | hpk := get_advanced hpk
  · cases hstage
  · obtain ⟨-, rfl⟩ | hq := get_advanced hq
    · simp
    · exact h k j p q hjk hpk hstage hq

theorem StoredUpTo.count (h : StoredUpTo s) (horder : s.CountsInOrder (.count i))
    (hstep : s.step (.count i) = some s') : StoredUpTo s' := by
  obtain ⟨_, hp, rfl⟩ := Option.map_eq_some_iff.mp hstep
  intro k j p q hjk hpk hstage hq
  obtain ⟨-, rfl⟩ | hold := get_advanced hq
  · simp
  · obtain ⟨rfl, -⟩ | hpk := get_advanced hpk
    · apply horder q
      rw [List.mem_iff_getElem?]
      exact ⟨j, by rw [List.getElem?_take_of_lt hjk, hold]⟩
    · exact h k j p q hjk hpk hstage hold

/-- The consumer does not change the pushes. -/
theorem pushes_of_consumer {l : QueueStep T} (hstep : s.step l = some s')
    (hl : l = .isEmpty ∨ l = .front ∨ l = .pop) : s'.pushes = s.pushes := by
  rcases hl with rfl | rfl | rfl
  all_goals
    obtain ⟨-, hstep⟩ := Option.ite_none_right_eq_some.mp hstep
    obtain rfl := Option.some.inj hstep
    rfl

theorem StoredUpTo.step (h : StoredUpTo s) {l : QueueStep T}
    (horder : s.CountsInOrder l) (hstep : s.step l = some s') :
    StoredUpTo s' := by
  cases l with
  | takeTicket element => exact h.takeTicket hstep
  | store i => exact h.store hstep
  | count i => exact h.count horder hstep
  | isEmpty | front | pop =>
      rw [StoredUpTo, pushes_of_consumer hstep (by simp)]
      exact h

theorem LastOpen.step (h : LastOpen s) {l : QueueStep T}
    (hone : s.OneAtATime l) (hstep : s.step l = some s') : LastOpen s' := by
  cases l with
  | takeTicket element =>
      obtain rfl := Option.some.inj hstep
      intro i p hi hp
      rw [List.length_append, List.length_singleton] at hi
      rw [List.getElem?_append_left (by omega)] at hp
      exact hone p (List.mem_of_getElem? hp)
  | store i =>
      obtain ⟨p, hp, rfl⟩ := Option.map_eq_some_iff.mp hstep
      obtain ⟨hget, hstage⟩ := pushAt_eq_some hp
      intro j q hj hq
      rw [List.length_set] at hj
      obtain ⟨rfl, -⟩ | hq := get_advanced hq
      · -- a push that is still to store is the last one
        have hcounted := h j p hj hget
        rw [hstage] at hcounted
        cases hcounted
      · exact h j q hj hq
  | count i =>
      obtain ⟨p, hp, rfl⟩ := Option.map_eq_some_iff.mp hstep
      intro j q hj hq
      rw [List.length_set] at hj
      obtain ⟨-, rfl⟩ | hq := get_advanced hq
      · rfl
      · exact h j q hj hq
  | isEmpty | front | pop =>
      rw [LastOpen, pushes_of_consumer hstep (by simp)]
      exact h

/-- Producers may overlap, if none of them counts its push before those of the
earlier tickets have stored: the consumer gets what was pushed whenever it
looks. -/
theorem delivered_of_countsInOrder (hsize : 1 ≤ inSize)
    (halong : Along step (fun s l => s.HasRoom l ∧ s.TicketsApart l)
      (start inSize elements) steps)
    (horder : Along step CountsInOrder (start inSize elements) steps) :
    Throughout step Delivered (start inSize elements) steps := by
  have hinit : InOrder (start inSize elements) ∧
      StoredUpTo (start inSize elements) := by
    refine ⟨inOrder_start hsize, ?_⟩
    intro i j p q _ hp
    cases hp
  have himp : ∀ s : SharedQueue T, InOrder s ∧ StoredUpTo s → Delivered s :=
    fun s h => h.1.seen.delivered h.1.counted
  refine throughout_of_along himp ?_ hinit (halong.and horder)
  rintro s l s' ⟨h, hupTo⟩ ⟨hwell, horder⟩ hstep
  exact ⟨h.step hwell (hupTo.storedBefore h.counted hstep) hstep,
    hupTo.step horder hstep⟩

/-- So with one producer, or with producers that exclude each other. -/
theorem delivered_of_oneAtATime (hsize : 1 ≤ inSize)
    (halong : Along step (fun s l => s.HasRoom l ∧ s.TicketsApart l)
      (start inSize elements) steps)
    (hone : Along step OneAtATime (start inSize elements) steps) :
    Throughout step Delivered (start inSize elements) steps := by
  have hinit : InOrder (start inSize elements) ∧
      LastOpen (start inSize elements) := by
    refine ⟨inOrder_start hsize, ?_⟩
    intro i p hi
    exact absurd hi (Nat.not_lt_zero _)
  have himp : ∀ s : SharedQueue T, InOrder s ∧ LastOpen s → Delivered s :=
    fun s h => h.1.seen.delivered h.1.counted
  refine throughout_of_along himp ?_ hinit (halong.and hone)
  rintro s l s' ⟨h, hlast⟩ ⟨hwell, hone⟩ hstep
  exact ⟨h.step hwell (hlast.storedUpTo.storedBefore h.counted hstep) hstep,
    hlast.step hone hstep⟩

end SharedQueue

end DokeviNet
