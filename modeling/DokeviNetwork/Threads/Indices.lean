import DokeviNetwork.Threads.ThreadManager
import DokeviNetwork.Support.Run
import Mathlib.Data.Finset.Card

/-!
# The indices of the threads

Threads register and ask for their index in any order.  An index identifies its
thread as long as a thread registers before it asks, registers once, and the
16-bit counters do not start again; in any other history two threads report the
same index, or the count of threads is wrong.
-/

namespace DokeviNet

open LabelledRun EntryMap WrappingCounter

/-- What a thread has learned about an index. -/
inductive IndexEvent (θ : Type*)
  | returned (id : θ) (index : ThreadIndex)
  | reported (id : θ) (index : ThreadIndex)
  deriving DecidableEq

/-- The manager, the threads that are registered, of which the main thread is
one, and the indices that were returned and reported so far. -/
structure ThreadIndices (θ : Type*) where
  manager : ThreadManager θ
  registered : Finset θ
  log : List (IndexEvent θ)

/-- The calls: both overloads of `RegisterThread`, and the two queries. -/
inductive IndexOp (θ : Type*)
  | registerThreadOf (inThread : θ) (inType : ThreadType)
  | registerThread (caller : θ) (inType : ThreadType)
  | getCurrentThreadIndex (caller : θ)
  | getCurrentThreadInfo (caller : θ)
  deriving DecidableEq

namespace ThreadIndices

variable {θ : Type*} [DecidableEq θ]

/-- After `Initialize`. -/
def start (mainThread : θ) : ThreadIndices θ where
  manager := .initializeBy mainThread
  registered := {mainThread}
  log := []

/-- The thread `id` is registered, and the index returned. -/
def register (s : ThreadIndices θ) (id : θ)
    (result : ThreadIndex × ThreadManager θ) : ThreadIndices θ where
  manager := result.2
  registered := insert id s.registered
  log := s.log ++ [.returned id result.1]

/-- The thread `id` reports its index. -/
def report (s : ThreadIndices θ) (id : θ) (index : ThreadIndex)
    (manager : ThreadManager θ) : ThreadIndices θ where
  manager := manager
  registered := s.registered
  log := s.log ++ [.reported id index]

def step (s : ThreadIndices θ) : IndexOp θ → Option (ThreadIndices θ)
  | .registerThreadOf inThread inType =>
    some (s.register inThread (s.manager.registerThreadOf inThread inType))
  | .registerThread caller inType =>
    some (s.register caller (s.manager.registerThread caller inType))
  | .getCurrentThreadIndex caller =>
    let (index, manager) := s.manager.getCurrentThreadIndex caller
    some (s.report caller index manager)
  | .getCurrentThreadInfo caller =>
    let (info, manager) := s.manager.getCurrentThreadInfo caller
    some (s.report caller info.index manager)

/-- A thread that has been given an index does not report another one later. -/
def Agree (first later : IndexEvent θ) : Prop :=
  ∀ id i j, first = .returned id i → later = .reported id j → i = j

/-- What the indices are for. -/
structure Identifies (mainThread : θ) (s : ThreadIndices θ) : Prop where
  agree : s.log.Pairwise Agree
  distinct : ∀ id id' i, .reported id i ∈ s.log → .reported id' i ∈ s.log →
    id = id'
  main : ∀ id, .reported id 0 ∈ s.log → id = mainThread
  count : s.manager.getThreadCount.toNat = s.registered.card

/-- A thread registers that has not registered and is not the main thread, while
the counters have room; a registered thread asks. -/
def Proper (s : ThreadIndices θ) : IndexOp θ → Prop
  | .registerThreadOf id _ | .registerThread id _ =>
    id ∉ s.registered ∧ s.registered.card + 1 < 2 ^ 16
  | .getCurrentThreadIndex id | .getCurrentThreadInfo id => id ∈ s.registered

/-- The id and the index of an event. -/
def entry : IndexEvent θ → θ × ThreadIndex
  | .returned id i => (id, i)
  | .reported id i => (id, i)

/-- What holds as long as the calls are proper. -/
structure Indexed (mainThread : θ) (s : ThreadIndices θ) : Prop where
  size : s.manager.size.toNat = s.registered.card
  counted : s.manager.count = s.manager.size
  main : s.manager.infoMap.lookup mainThread = some ThreadInfo.zero
  registered : ∀ id, id ∈ s.registered ↔ id ∈ s.manager.infoMap
  below : ∀ id info, s.manager.infoMap.lookup id = some info →
    info.index.toUInt16.toNat < s.registered.card
  injective : ∀ id id' info info', s.manager.infoMap.lookup id = some info →
    s.manager.infoMap.lookup id' = some info' → info.index = info'.index →
    id = id'
  log : ∀ event ∈ s.log, ∃ info,
    s.manager.infoMap.lookup (entry event).1 = some info ∧
      info.index = (entry event).2

variable {mainThread id : θ} {s s' : ThreadIndices θ} {l : IndexOp θ}

theorem Indexed.lookup_eq_none (h : Indexed mainThread s)
    (hid : id ∉ s.registered) : s.manager.infoMap.lookup id = none := by
  rw [AList.lookup_eq_none, ← h.registered]
  exact hid

theorem Indexed.exists_lookup (h : Indexed mainThread s)
    (hid : id ∈ s.registered) :
    ∃ info, s.manager.infoMap.lookup id = some info := by
  rw [← Option.isSome_iff_exists, AList.lookup_isSome, ← h.registered]
  exact hid

/-- While the calls are proper, the indices identify the threads. -/
theorem Indexed.identifies (h : Indexed mainThread s) :
    Identifies mainThread s where
  agree := by
    refine List.pairwise_of_forall_mem_list ?_
    rintro first hfirst later hlater id i j rfl rfl
    obtain ⟨info, hlookup, rfl⟩ := h.log _ hfirst
    obtain ⟨info', hlookup', rfl⟩ := h.log _ hlater
    have hsame : some info = some info' := hlookup.symm.trans hlookup'
    rw [Option.some.inj hsame]
  distinct := by
    intro id id' i hid hid'
    obtain ⟨info, hlookup, hi⟩ := h.log _ hid
    obtain ⟨info', hlookup', hi'⟩ := h.log _ hid'
    exact h.injective _ _ info info' hlookup hlookup' (hi.trans hi'.symm)
  main := by
    intro id hid
    obtain ⟨info, hlookup, hzero⟩ := h.log _ hid
    exact h.injective _ _ info _ hlookup h.main hzero
  count := h.size

/-- The next index is larger than all that are in use. -/
theorem Indexed.index_ne_count (h : Indexed mainThread s) {info : ThreadInfo}
    (hlookup : s.manager.infoMap.lookup id = some info) :
    info.index ≠ s.manager.count.toInt16 := by
  have hbelow := h.below id info hlookup
  intro heq
  rw [heq, UInt16.toUInt16_toInt16, h.counted, h.size] at hbelow
  exact lt_irrefl _ hbelow

/-- The entries after a new thread has registered. -/
theorem Indexed.lookup_register (h : Indexed mainThread s)
    (hid : id ∉ s.registered) (inType : ThreadType) (id' : θ) :
    (s.manager.register id inType).2.infoMap.lookup id' =
      if id' = id then
        some { index := s.manager.count.toInt16, type := inType }
      else s.manager.infoMap.lookup id' :=
  lookup_insertNew_of_none (h.lookup_eq_none hid) _ id'

/-- The index of a new thread is below the new count, and so are the others. -/
theorem Indexed.below_register (h : Indexed mainThread s)
    (hid : id ∉ s.registered) {inType : ThreadType} {id' : θ}
    {info : ThreadInfo}
    (hinfo : (s.manager.register id inType).2.infoMap.lookup id' = some info) :
    info.index.toUInt16.toNat < s.registered.card + 1 := by
  rw [h.lookup_register hid] at hinfo
  split at hinfo
  · obtain rfl := Option.some.inj hinfo
    rw [UInt16.toUInt16_toInt16, h.counted, h.size]
    exact Nat.lt_succ_self _
  · exact (h.below id' info hinfo).trans (Nat.lt_succ_self _)

/-- A new thread gets an index that no other thread has. -/
theorem Indexed.injective_register (h : Indexed mainThread s)
    (hid : id ∉ s.registered) {inType : ThreadType} {id₁ id₂ : θ}
    {info₁ info₂ : ThreadInfo}
    (h₁ : (s.manager.register id inType).2.infoMap.lookup id₁ = some info₁)
    (h₂ : (s.manager.register id inType).2.infoMap.lookup id₂ = some info₂)
    (heq : info₁.index = info₂.index) : id₁ = id₂ := by
  rw [h.lookup_register hid] at h₁ h₂
  split at h₁ <;> split at h₂
  · next hid₁ hid₂ => exact hid₁.trans hid₂.symm
  · obtain rfl := Option.some.inj h₁
    exact absurd heq.symm (h.index_ne_count h₂)
  · obtain rfl := Option.some.inj h₂
    exact absurd heq (h.index_ne_count h₁)
  · exact h.injective id₁ id₂ info₁ info₂ h₁ h₂ heq

/-- The registration of a new thread keeps the indices in order. -/
theorem Indexed.register (h : Indexed mainThread s) (hid : id ∉ s.registered)
    (hroom : s.registered.card + 1 < 2 ^ 16) (inType : ThreadType) :
    Indexed mainThread (s.register id (s.manager.register id inType)) := by
  have hcard := Finset.card_insert_of_notMem hid
  have hlookup := h.lookup_register hid inType
  have hne : ∀ id' info, s.manager.infoMap.lookup id' = some info →
      id' ≠ id := by
    rintro id' info hinfo rfl
    exact Option.some_ne_none _ (hinfo.symm.trans (h.lookup_eq_none hid))
  have hold : ∀ id' info, s.manager.infoMap.lookup id' = some info →
      (s.manager.register id inType).2.infoMap.lookup id' = some info := by
    intro id' info hinfo
    rw [hlookup, if_neg (hne id' info hinfo)]
    exact hinfo
  have hsize : (s.manager.size + 1).toNat = s.registered.card + 1 := by
    rw [← h.size]
    apply (toNat_add_one_iff _).mpr
    rw [h.size]
    exact hroom
  refine ⟨?_, ?_, hold _ _ h.main, ?_, ?_, ?_, ?_⟩
  · exact hsize.trans hcard.symm
  · exact congrArg (· + 1) h.counted
  · intro id'
    rw [← AList.lookup_isSome]
    change id' ∈ insert id s.registered ↔
      ((s.manager.register id inType).2.infoMap.lookup id').isSome = true
    rw [hlookup, Finset.mem_insert, h.registered]
    split
    · next heq => simp [heq]
    · next hne => rw [AList.lookup_isSome, or_iff_right hne]
  · intro id' info hinfo
    change _ < (insert id s.registered).card
    rw [hcard]
    exact h.below_register hid hinfo
  · exact fun _ _ _ _ h₁ h₂ => h.injective_register hid h₁ h₂
  · intro event hevent
    rcases List.mem_append.mp hevent with hpast | hlast
    · obtain ⟨info, hinfo, hindex⟩ := h.log event hpast
      exact ⟨info, hold _ _ hinfo, hindex⟩
    · rw [List.mem_singleton.mp hlast]
      exact ⟨_, (hlookup id).trans (if_pos rfl), rfl⟩

/-- A registered thread that asks is told its index, and nothing changes. -/
theorem Indexed.report (h : Indexed mainThread s) (hid : id ∈ s.registered) :
    Indexed mainThread (s.report id (s.manager.getCurrentThreadIndex id).1
      (s.manager.getCurrentThreadIndex id).2) := by
  obtain ⟨info, hlookup⟩ := h.exists_lookup hid
  have hsame : (s.manager.getCurrentThreadIndex id).2 = s.manager := by
    rw [ThreadManager.getCurrentThreadIndex, insertNew_of_lookup hlookup]
  have hindex : (s.manager.getCurrentThreadIndex id).1 = info.index := by
    rw [ThreadManager.getCurrentThreadIndex, subscript_of_lookup hlookup]
  rw [hsame, hindex]
  refine ⟨h.size, h.counted, h.main, h.registered, h.below, h.injective, ?_⟩
  intro event hevent
  rcases List.mem_append.mp hevent with hold | hlast
  · exact h.log event hold
  · rw [List.mem_singleton.mp hlast]
    exact ⟨info, hlookup, rfl⟩

theorem Indexed.step (h : Indexed mainThread s) (hproper : s.Proper l)
    (hstep : s.step l = some s') : Indexed mainThread s' := by
  cases l with
  | registerThreadOf id inType | registerThread id inType =>
      obtain rfl := Option.some.inj hstep
      exact h.register hproper.1 hproper.2 inType
  | getCurrentThreadIndex id | getCurrentThreadInfo id =>
      obtain rfl := Option.some.inj hstep
      exact h.report hproper

/-! ## What is not proper does harm -/

/-- If the count is right after a registration, the thread is a new one and the
counters had room. -/
theorem Indexed.of_register (h : Indexed mainThread s) {inType : ThreadType}
    (hafter : Identifies mainThread
      (s.register id (s.manager.register id inType))) :
    id ∉ s.registered ∧ s.registered.card + 1 < 2 ^ 16 := by
  have hcount : (s.manager.size + 1).toNat = (insert id s.registered).card :=
    hafter.count
  have hlt := s.manager.size.toNat_lt
  have hsize := h.size
  rw [UInt16.toNat_add, UInt16.toNat_one] at hcount
  by_cases hid : id ∈ s.registered
  · rw [Finset.insert_eq_of_mem hid] at hcount
    omega
  · rw [Finset.card_insert_of_notMem hid] at hcount
    exact ⟨hid, by omega⟩

/-- If only the main thread reports 0, the thread that asks has registered. -/
theorem Indexed.of_report (h : Indexed mainThread s)
    (hafter : Identifies mainThread
      (s.report id (s.manager.getCurrentThreadIndex id).1
        (s.manager.getCurrentThreadIndex id).2)) :
    id ∈ s.registered := by
  by_contra hid
  have hnone := h.lookup_eq_none hid
  have hzero : (s.manager.getCurrentThreadIndex id).1 = 0 := by
    rw [ThreadManager.getCurrentThreadIndex, subscript_of_lookup_none hnone]
    rfl
  have hmain : id = mainThread := by
    apply hafter.main id
    rw [hzero]
    exact List.mem_append_right _ (List.mem_singleton_self _)
  rw [hmain, h.main] at hnone
  exact Option.some_ne_none _ hnone

theorem Indexed.proper_of_step (h : Indexed mainThread s)
    (hstep : s.step l = some s') (hafter : Identifies mainThread s') :
    s.Proper l := by
  cases l with
  | registerThreadOf id inType | registerThread id inType =>
      obtain rfl := Option.some.inj hstep
      exact h.of_register hafter
  | getCurrentThreadIndex id | getCurrentThreadInfo id =>
      obtain rfl := Option.some.inj hstep
      exact h.of_report hafter

/-! ## Histories -/

theorem indexed_start (mainThread : θ) :
    Indexed mainThread (start mainThread) := by
  have hlookup : ∀ id, (start mainThread).manager.infoMap.lookup id =
      if id = mainThread then some ThreadInfo.zero else none := by
    exact lookup_insertNew_of_none (AList.lookup_empty mainThread) _
  refine ⟨?_, rfl, ?_, ?_, ?_, ?_, ?_⟩
  · exact (Finset.card_singleton mainThread).symm
  · rw [hlookup, if_pos rfl]
  · intro id
    rw [← AList.lookup_isSome, hlookup]
    change id ∈ {mainThread} ↔ _
    rw [Finset.mem_singleton]
    split
    · next heq => simp [heq]
    · next hne => simp [hne]
  · intro id info hinfo
    obtain ⟨-, hinfo⟩ :=
      Option.ite_none_right_eq_some.mp ((hlookup id).symm.trans hinfo)
    rw [← Option.some.inj hinfo]
    exact Finset.card_pos.mpr ⟨mainThread, Finset.mem_singleton_self _⟩
  · intro id id' info info' hinfo hinfo' _
    obtain ⟨hid, -⟩ :=
      Option.ite_none_right_eq_some.mp ((hlookup id).symm.trans hinfo)
    obtain ⟨hid', -⟩ :=
      Option.ite_none_right_eq_some.mp ((hlookup id').symm.trans hinfo')
    exact hid.trans hid'.symm
  · exact fun _ hevent => absurd hevent List.not_mem_nil

theorem exists_step (s : ThreadIndices θ) (l : IndexOp θ) :
    ∃ s', s.step l = some s' := by
  cases l <;> exact ⟨_, rfl⟩

/-- The indices identify the threads throughout a history exactly if the calls
of the history are proper. -/
theorem identifies_iff_proper (mainThread : θ) (ops : List (IndexOp θ)) :
    Throughout step (Identifies mainThread) (start mainThread) ops ↔
      Along step Proper (start mainThread) ops := by
  obtain ⟨t, hrun⟩ := exists_run exists_step (start mainThread) ops
  have hall : Along step (fun _ _ => True) (start mainThread) ops :=
    along_of_forall fun _ _ _ => trivial
  have hkeep : ∀ s l s', Indexed mainThread s → True → Proper s l →
      step s l = some s' → Indexed mainThread s' :=
    fun s l s' h _ hproper => h.step hproper
  have hneed : ∀ s l s', Indexed mainThread s → True → step s l = some s' →
      Identifies mainThread s' → Proper s l :=
    fun s l s' h _ hstep => h.proper_of_step hstep
  exact throughout_iff_along (fun s h => h.identifies) hkeep hneed
    (indexed_start mainThread) hall hrun

/-- A thread asks for its index, registers, and asks again. -/
def askedFirst : List (IndexOp ℕ) :=
  [.getCurrentThreadIndex 1, .registerThread 1 .ioTask,
    .getCurrentThreadIndex 1]

/-- A thread that asks before it registers reports the index of the main
thread, now and after it has been given another one. -/
theorem askedFirst_reports_zero :
    ∃ s, run step (start 0) askedFirst = some s ∧
      s.log = [.reported 1 0, .returned 1 1, .reported 1 0] ∧
      ¬Throughout step (Identifies 0) (start 0) askedFirst := by
  have hrun : run step (start 0) askedFirst = some _ := rfl
  refine ⟨_, hrun, by decide, ?_⟩
  intro h
  have hafter := h askedFirst [] _ (by simp) hrun
  exact absurd (hafter.main 1 (by decide)) (by decide)

end ThreadIndices

end DokeviNet
