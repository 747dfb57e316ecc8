import Mathlib.Algebra.BigOperators.Group.Finset.Basic
import Mathlib.Algebra.Order.Group.Multiset
import Mathlib.Data.Fintype.Basic

/-!
# Workers with tasks on shared objects

Each of finitely many workers is idle or has a task on one of many objects.
Seen from one object there is only the multiset of the tasks on it, and one
worker's step replaces one task of that multiset.
-/

namespace Workers

/-- Changing one object of a family changes a sum over it by the difference. -/
theorem sum_update {ι α M : Type*} [DecidableEq ι] [AddCommMonoid M]
    (objects : Finset ι) (f : α → M) (g : ι → α) {i : ι} (hi : i ∈ objects)
    (a : α) :
    ∑ j ∈ objects, f (Function.update g i a j) + f (g i) =
      ∑ j ∈ objects, f (g j) + f a := by
  have hrest : ∑ j ∈ objects.erase i, f (Function.update g i a j) =
      ∑ j ∈ objects.erase i, f (g j) := by
    apply Finset.sum_congr rfl
    intro j hj
    rw [Function.update_of_ne (Finset.ne_of_mem_erase hj)]
  rw [← Finset.sum_erase_add _ _ hi, ← Finset.sum_erase_add _ _ hi, hrest,
    Function.update_self]
  exact add_right_comm _ _ _

variable {τ ι κ : Type*} [DecidableEq ι]

/-- The tasks of a worker that has at most one. -/
def ofOption : Option κ → Multiset κ
  | none => 0
  | some task => {task}

@[simp] theorem ofOption_none : ofOption (none : Option κ) = 0 := rfl

@[simp] theorem ofOption_some (task : κ) : ofOption (some task) = {task} := rfl

theorem countP_ofOption (p : κ → Bool) (task : Option κ) :
    (ofOption task).countP (fun task => p task = true) =
      if task.any p then 1 else 0 := by
  cases task with
  | none => rfl
  | some task =>
      rw [ofOption_some, ← Multiset.cons_zero, Multiset.countP_cons,
        Multiset.countP_zero, zero_add, Option.any_some]

/-- What one worker contributes to the tasks on an object. -/
def taskOn (object : ι) : Option (ι × κ) → Multiset κ
  | none => 0
  | some (other, task) => if other = object then {task} else 0

@[simp] theorem taskOn_none (object : ι) :
    taskOn object (none : Option (ι × κ)) = 0 := rfl

@[simp] theorem taskOn_self (object : ι) (task : κ) :
    taskOn object (some (object, task)) = {task} := by
  simp [taskOn]

theorem taskOn_map_self (object : ι) (task : Option κ) :
    taskOn object (task.map fun task => (object, task)) = ofOption task := by
  cases task <;> simp

theorem taskOn_map_of_ne {object other : ι} (task : Option κ)
    (hne : other ≠ object) :
    taskOn object (task.map fun task => (other, task)) = 0 := by
  cases task <;> simp [taskOn, hne]

theorem mem_taskOn {object : ι} {worker : Option (ι × κ)} {task : κ} :
    task ∈ taskOn object worker ↔ worker = some (object, task) := by
  cases worker with
  | none => simp
  | some held =>
      by_cases heq : held.1 = object
      · simp [taskOn, heq, Prod.ext_iff, eq_comm]
      · simp [taskOn, heq, Prod.ext_iff]

variable [Fintype τ]

/-- The tasks on an object. -/
def tasksOn (workers : τ → Option (ι × κ)) (object : ι) : Multiset κ :=
  ∑ t, taskOn object (workers t)

theorem mem_tasksOn {workers : τ → Option (ι × κ)} {object : ι} {task : κ} :
    task ∈ tasksOn workers object ↔
      ∃ t, workers t = some (object, task) := by
  simp [tasksOn, Multiset.mem_sum, mem_taskOn]

theorem tasksOn_eq_zero {workers : τ → Option (ι × κ)} {object : ι}
    (h : ∀ t task, workers t ≠ some (object, task)) :
    tasksOn workers object = 0 := by
  apply Multiset.eq_zero_of_forall_notMem
  intro task hmem
  obtain ⟨t, ht⟩ := mem_tasksOn.mp hmem
  exact h t task ht

variable [DecidableEq τ]

/-- The tasks of the other workers stay when one worker changes its own. -/
theorem exists_tasksOn_update (workers : τ → Option (ι × κ)) (t : τ)
    (object : ι) :
    ∃ rest, tasksOn workers object = taskOn object (workers t) + rest ∧
      ∀ worker, tasksOn (Function.update workers t worker) object =
        taskOn object worker + rest := by
  refine ⟨∑ u ∈ Finset.univ.erase t, taskOn object (workers u), ?_, ?_⟩
  · exact (Finset.add_sum_erase _ _ (Finset.mem_univ t)).symm
  · intro worker
    rw [tasksOn, ← Finset.add_sum_erase _ _ (Finset.mem_univ t),
      Function.update_self]
    congr 1
    apply Finset.sum_congr rfl
    intro u hu
    rw [Function.update_of_ne (Finset.ne_of_mem_erase hu)]

/-- One worker goes from one task on `object` to another. -/
theorem exists_tasksOn_self {workers : τ → Option (ι × κ)} {t : τ}
    {object : ι} {before : Option κ}
    (hbefore : workers t = before.map fun task => (object, task))
    (next : Option κ) :
    ∃ rest, tasksOn workers object = ofOption before + rest ∧
      tasksOn (Function.update workers t (next.map fun task => (object, task)))
        object = ofOption next + rest := by
  obtain ⟨rest, hrest, hupdate⟩ := exists_tasksOn_update workers t object
  refine ⟨rest, ?_, ?_⟩
  · rw [hrest, hbefore, taskOn_map_self]
  · rw [hupdate, taskOn_map_self]

/-- Nothing changes for the other objects. -/
theorem tasksOn_of_ne {workers : τ → Option (ι × κ)} {t : τ}
    {object other : ι} {before : Option κ}
    (hbefore : workers t = before.map fun task => (object, task))
    (next : Option κ) (hne : object ≠ other) :
    tasksOn (Function.update workers t (next.map fun task => (object, task)))
      other = tasksOn workers other := by
  obtain ⟨rest, hrest, hupdate⟩ := exists_tasksOn_update workers t other
  rw [hupdate, hrest, hbefore, taskOn_map_of_ne next hne,
    taskOn_map_of_ne before hne]

/-- Where at most one task of a kind is on an object, one worker has it. -/
theorem worker_eq_of_countP_le_one {workers : τ → Option (ι × κ)} {object : ι}
    (p : κ → Prop) [DecidablePred p]
    (hone : (tasksOn workers object).countP p ≤ 1) {t u : τ} {a b : κ}
    (ht : workers t = some (object, a)) (ha : p a)
    (hu : workers u = some (object, b)) (hb : p b) : t = u := by
  by_contra hne
  obtain ⟨rest, hrest, hupdate⟩ := exists_tasksOn_update workers t object
  have hmem : b ∈ rest := by
    have htasks := hupdate none
    rw [taskOn_none, zero_add] at htasks
    rw [← htasks, mem_tasksOn]
    exact ⟨u, by rwa [Function.update_of_ne (Ne.symm hne)]⟩
  have hpos : 0 < rest.countP p := Multiset.countP_pos.mpr ⟨b, hmem, hb⟩
  rw [hrest, ht, taskOn_self, Multiset.countP_add,
    ← Multiset.cons_zero, Multiset.countP_cons_of_pos _ ha] at hone
  omega

end Workers
