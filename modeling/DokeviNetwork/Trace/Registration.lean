import DokeviNetwork.Trace.CrashReport
import DokeviNetwork.Support.Maps

/-!
# Threads that come and go

The tracer numbers the threads that open a scope and keeps the numbers by thread
id.  The system gives the id of a thread that has ended to a new one; then the
map keeps the number of the old thread, while the arrays of the new one are
stored under a new number.  The numbers only grow, and the arrays end.

A thread is known by how many threads had started before it, so that two
threads with the same id are told apart.
-/

namespace DokeviNet

open LabelledRun EntryMap

/-- The threads that run: which one has an id, and how many have started.  Each
of them has started, and has one id. -/
structure LiveThreads (θ : Type*) where
  current : θ → Option ℕ
  started : ℕ
  below : ∀ id t, current id = some t → t < started
  distinct : ∀ id id' t, current id = some t → current id' = some t → id = id'

namespace LiveThreads

variable {θ : Type*}

/-- No thread runs. -/
def empty : LiveThreads θ where
  current := fun _ => none
  started := 0
  below := nofun
  distinct := nofun

variable [DecidableEq θ]

theorem below_start (s : LiveThreads θ) (id id' : θ) (t : ℕ)
    (h : Function.update s.current id (some s.started) id' = some t) :
    t < s.started + 1 := by
  rw [Function.update_apply] at h
  split at h
  · rw [← Option.some.inj h]
    exact Nat.lt_succ_self _
  · exact (s.below id' t h).trans (Nat.lt_succ_self _)

theorem distinct_start (s : LiveThreads θ) (id id₁ id₂ : θ) (t : ℕ)
    (h₁ : Function.update s.current id (some s.started) id₁ = some t)
    (h₂ : Function.update s.current id (some s.started) id₂ = some t) :
    id₁ = id₂ := by
  rw [Function.update_apply] at h₁ h₂
  split at h₁ <;> split at h₂
  · next heq₁ heq₂ => exact heq₁.trans heq₂.symm
  · obtain rfl := Option.some.inj h₁
    exact absurd (s.below id₂ _ h₂) (lt_irrefl _)
  · obtain rfl := Option.some.inj h₂
    exact absurd (s.below id₁ _ h₁) (lt_irrefl _)
  · exact s.distinct id₁ id₂ t h₁ h₂

/-- A thread starts with an id that no running thread has. -/
def start (s : LiveThreads θ) (id : θ) : Option (LiveThreads θ) :=
  if s.current id = none then
    some
      { current := Function.update s.current id (some s.started)
        started := s.started + 1
        below := s.below_start id
        distinct := s.distinct_start id }
  else none

theorem current_of_exit (s : LiveThreads θ) {id id' : θ} {t : ℕ}
    (h : Function.update s.current id none id' = some t) :
    s.current id' = some t := by
  rw [Function.update_apply] at h
  exact (Option.ite_none_left_eq_some.mp h).2

theorem below_exit (s : LiveThreads θ) (id id' : θ) (t : ℕ)
    (h : Function.update s.current id none id' = some t) : t < s.started :=
  s.below id' t (s.current_of_exit h)

theorem distinct_exit (s : LiveThreads θ) (id id₁ id₂ : θ) (t : ℕ)
    (h₁ : Function.update s.current id none id₁ = some t)
    (h₂ : Function.update s.current id none id₂ = some t) : id₁ = id₂ :=
  s.distinct id₁ id₂ t (s.current_of_exit h₁) (s.current_of_exit h₂)

/-- The thread with an id ends. -/
def exit (s : LiveThreads θ) (id : θ) : Option (LiveThreads θ) :=
  if s.current id = none then none
  else
    some
      { current := Function.update s.current id none
        started := s.started
        below := s.below_exit id
        distinct := s.distinct_exit id }

end LiveThreads

/-- The tracer in a process: `_lastThreadId`, `_threadNumbers`, the thread to
whose `gStackFrames` and `gStackDepth` the pointers at an index point, the
threads with `gRegisteredStackFrame`, and the indices at which `RegisterThread`
has written so far. -/
structure TracedProcess (θ : Type*) where
  threads : LiveThreads θ
  lastThreadId : ℕ
  threadNumbers : AList fun _ : θ => ℕ
  recordStackFrames : ℕ → Option ℕ
  stackDepths : ℕ → Option ℕ
  registered : ℕ → Bool
  written : List ℕ

/-- A thread starts or ends, or the one with this id calls `InStackTrace`. -/
inductive ChurnOp (θ : Type*)
  | start (id : θ)
  | exit (id : θ)
  | inStackTrace (id : θ)
  deriving DecidableEq

namespace TracedProcess

variable {θ : Type*}

/-- No thread has started. -/
def new : TracedProcess θ where
  threads := .empty
  lastThreadId := 0
  threadNumbers := ∅
  recordStackFrames := fun _ => none
  stackDepths := fun _ => none
  registered := fun _ => false
  written := []

variable [DecidableEq θ]

/-- `RegisterThread`, called by the thread `t` with its id.  `LOG_CRITICAL`
returns. -/
def registerThread (s : TracedProcess θ) (id : θ) (t : ℕ) : TracedProcess θ :=
  let lastThreadId := s.lastThreadId + 1
  { s with
    registered := Function.update s.registered t true
    lastThreadId := lastThreadId
    threadNumbers := insertNew s.threadNumbers id lastThreadId
    recordStackFrames :=
      Function.update s.recordStackFrames lastThreadId (some t)
    stackDepths := Function.update s.stackDepths lastThreadId (some t)
    written := s.written ++ [lastThreadId] }

/-- The first part of `InStackTrace`. -/
def inStackTrace (s : TracedProcess θ) (id : θ) (t : ℕ) : TracedProcess θ :=
  if s.registered t then s else s.registerThread id t

def step (s : TracedProcess θ) : ChurnOp θ → Option (TracedProcess θ)
  | .start id => (s.threads.start id).map fun threads =>
    { s with threads := threads }
  | .exit id => (s.threads.exit id).map fun threads =>
    { s with threads := threads }
  | .inStackTrace id => (s.threads.current id).map fun t => s.inStackTrace id t

/-- The number of each running thread that has registered leads to its own
arrays, and no write was behind the arrays. -/
structure Tied (s : TracedProcess θ) : Prop where
  own : ∀ id t, s.threads.current id = some t → s.registered t = true →
    ∃ n, s.threadNumbers.lookup id = some n ∧
      s.recordStackFrames n = some t ∧ s.stackDepths n = some t
  inside : ∀ i ∈ s.written, i < maxStackCheckThreadNum

/-- A thread that registers has an id with which none has registered, and there
is an index left. -/
def Fits (s : TracedProcess θ) : ChurnOp θ → Prop
  | .start _ => True
  | .exit _ => True
  | .inStackTrace id => ∀ t ∈ s.threads.current id,
    s.registered t = false →
      id ∉ s.threadNumbers ∧ s.lastThreadId + 1 < maxStackCheckThreadNum

instance (s : TracedProcess θ) : ∀ l : ChurnOp θ, Decidable (s.Fits l)
  | .start _ => inferInstanceAs (Decidable True)
  | .exit _ => inferInstanceAs (Decidable True)
  | .inStackTrace id =>
    inferInstanceAs (Decidable (∀ t ∈ s.threads.current id,
      s.registered t = false →
        id ∉ s.threadNumbers ∧ s.lastThreadId + 1 < maxStackCheckThreadNum))

/-- What holds as long as the registrations fit. -/
structure Numbered (s : TracedProcess θ) : Prop where
  entries : ∀ id n, s.threadNumbers.lookup id = some n → n ≤ s.lastThreadId ∧
    ∃ t, s.registered t = true ∧ s.recordStackFrames n = some t ∧
      s.stackDepths n = some t
  started : ∀ t, s.registered t = true → t < s.threads.started
  tied : Tied s

variable {s s' : TracedProcess θ} {l : ChurnOp θ} {id : θ} {t : ℕ}

theorem numbered_new : Numbered (new : TracedProcess θ) where
  entries := by
    intro id n hlookup
    have hnone : none = some n := (AList.lookup_empty id).symm.trans hlookup
    exact absurd hnone nofun
  started := fun _ h => absurd h Bool.false_ne_true
  tied := ⟨nofun, fun _ h => absurd h List.not_mem_nil⟩

theorem Numbered.start (h : Numbered s) {threads : LiveThreads θ}
    (hstart : s.threads.start id = some threads) :
    Numbered { s with threads := threads } := by
  obtain ⟨-, hstart⟩ := Option.ite_none_right_eq_some.mp hstart
  obtain rfl := Option.some.inj hstart
  refine ⟨h.entries, ?_, ?_, h.tied.inside⟩
  · intro t ht
    exact (h.started t ht).trans (Nat.lt_succ_self _)
  · intro id' t hcurrent ht
    change Function.update s.threads.current id _ id' = some t at hcurrent
    rw [Function.update_apply] at hcurrent
    split at hcurrent
    · -- the new thread has not registered
      obtain rfl := Option.some.inj hcurrent
      exact absurd (h.started _ ht) (lt_irrefl _)
    · exact h.tied.own id' t hcurrent ht

theorem Numbered.exit (h : Numbered s) {threads : LiveThreads θ}
    (hexit : s.threads.exit id = some threads) :
    Numbered { s with threads := threads } := by
  obtain ⟨-, hexit⟩ := Option.ite_none_left_eq_some.mp hexit
  obtain rfl := Option.some.inj hexit
  refine ⟨h.entries, h.started, ?_, h.tied.inside⟩
  intro id' t hcurrent ht
  exact h.tied.own id' t (s.threads.current_of_exit hcurrent) ht

/-- A registration leaves the pointers at smaller indices alone. -/
theorem registerThread_arrays {n : ℕ} (hn : n ≤ s.lastThreadId) (id : θ)
    (t : ℕ) :
    (s.registerThread id t).recordStackFrames n = s.recordStackFrames n ∧
      (s.registerThread id t).stackDepths n = s.stackDepths n := by
  have hne : n ≠ s.lastThreadId + 1 := (Nat.lt_succ_of_le hn).ne
  exact ⟨Function.update_of_ne hne _ _, Function.update_of_ne hne _ _⟩

theorem registerThread_arrays_new (s : TracedProcess θ) (id : θ) (t : ℕ) :
    (s.registerThread id t).recordStackFrames (s.lastThreadId + 1) = some t ∧
      (s.registerThread id t).stackDepths (s.lastThreadId + 1) = some t :=
  ⟨Function.update_self _ _ _, Function.update_self _ _ _⟩

theorem registered_registerThread (s : TracedProcess θ) (id : θ) (t t' : ℕ) :
    (s.registerThread id t).registered t' = true ↔
      t' = t ∨ s.registered t' = true := by
  change Function.update s.registered t true t' = true ↔ _
  rw [Function.update_apply]
  split
  · next heq => simp [heq]
  · next hne => simp [hne]

/-- The number under which a thread registers with a new id. -/
theorem lookup_registerThread (hid : id ∉ s.threadNumbers) (t : ℕ) (id' : θ) :
    (s.registerThread id t).threadNumbers.lookup id' =
      if id' = id then some (s.lastThreadId + 1)
      else s.threadNumbers.lookup id' :=
  lookup_insertNew_of_none (AList.lookup_eq_none.mpr hid) _ id'

/-- An entry that is there keeps its number, and that its arrays. -/
theorem Numbered.keeps_registerThread (h : Numbered s) {id' : θ} {n t' : ℕ}
    (hid : id ∉ s.threadNumbers) (t : ℕ)
    (hn : s.threadNumbers.lookup id' = some n)
    (hframes : s.recordStackFrames n = some t')
    (hdepths : s.stackDepths n = some t') :
    (s.registerThread id t).threadNumbers.lookup id' = some n ∧
      (s.registerThread id t).recordStackFrames n = some t' ∧
      (s.registerThread id t).stackDepths n = some t' := by
  have hne : id' ≠ id := by
    rintro rfl
    exact hid (AList.lookup_isSome.mp (Option.isSome_of_eq_some hn))
  obtain ⟨hle, -⟩ := h.entries id' n hn
  obtain ⟨hframes', hdepths'⟩ := registerThread_arrays hle id t
  refine ⟨?_, hframes'.trans hframes, hdepths'.trans hdepths⟩
  rw [lookup_registerThread hid, if_neg hne]
  exact hn

/-- The new thread is tied to its own arrays, and the others stay so. -/
theorem Numbered.own_registerThread (h : Numbered s)
    (hcurrent : s.threads.current id = some t) (hid : id ∉ s.threadNumbers)
    {id' : θ} {t' : ℕ} (hcurrent' : s.threads.current id' = some t')
    (ht' : (s.registerThread id t).registered t' = true) :
    ∃ n, (s.registerThread id t).threadNumbers.lookup id' = some n ∧
      (s.registerThread id t).recordStackFrames n = some t' ∧
      (s.registerThread id t).stackDepths n = some t' := by
  rcases (s.registered_registerThread id t t').mp ht' with rfl | hold
  · obtain rfl := s.threads.distinct id' id t' hcurrent' hcurrent
    refine ⟨s.lastThreadId + 1, ?_, s.registerThread_arrays_new id' t'⟩
    rw [lookup_registerThread hid, if_pos rfl]
  · obtain ⟨n, hn, hframes, hdepths⟩ := h.tied.own id' t' hcurrent' hold
    exact ⟨n, h.keeps_registerThread hid t hn hframes hdepths⟩

theorem Numbered.registerThread (h : Numbered s)
    (hcurrent : s.threads.current id = some t)
    (hid : id ∉ s.threadNumbers)
    (hroom : s.lastThreadId + 1 < maxStackCheckThreadNum) :
    Numbered (s.registerThread id t) := by
  have hregistered := s.registered_registerThread id t
  refine ⟨?_, ?_, ?_, ?_⟩
  · intro id' n hn
    rw [lookup_registerThread hid] at hn
    split at hn
    · obtain rfl := Option.some.inj hn
      exact ⟨le_rfl, t, (hregistered t).mpr (Or.inl rfl),
        s.registerThread_arrays_new id t⟩
    · obtain ⟨hle, t', ht', hframes, hdepths⟩ := h.entries id' n hn
      have hkeeps := h.keeps_registerThread hid t hn hframes hdepths
      exact ⟨hle.trans (Nat.le_succ _), t', (hregistered t').mpr (Or.inr ht'),
        hkeeps.2⟩
  · intro t' ht'
    rcases (hregistered t').mp ht' with rfl | hold
    · exact s.threads.below id t' hcurrent
    · exact h.started t' hold
  · exact fun id' t' hcurrent' ht' =>
      h.own_registerThread hcurrent hid hcurrent' ht'
  · intro i hi
    rcases List.mem_append.mp hi with hold | hlast
    · exact h.tied.inside i hold
    · rw [List.mem_singleton.mp hlast]
      exact hroom

theorem Numbered.step (h : Numbered s) (hfits : s.Fits l)
    (hstep : s.step l = some s') : Numbered s' := by
  cases l with
  | start id =>
      obtain ⟨threads, hstart, rfl⟩ := Option.map_eq_some_iff.mp hstep
      exact h.start hstart
  | exit id =>
      obtain ⟨threads, hexit, rfl⟩ := Option.map_eq_some_iff.mp hstep
      exact h.exit hexit
  | inStackTrace id =>
      obtain ⟨t, hcurrent, rfl⟩ := Option.map_eq_some_iff.mp hstep
      rw [TracedProcess.inStackTrace]
      split
      · exact h
      · next hnew =>
        obtain ⟨hid, hroom⟩ := hfits t hcurrent (Bool.eq_false_iff.mpr hnew)
        exact h.registerThread hcurrent hid hroom

/-- A thread that registers with an id that is in the map is left with a number
that leads to the arrays of another thread. -/
theorem Numbered.not_mem_of_tied (h : Numbered s)
    (hcurrent : s.threads.current id = some t)
    (hnew : s.registered t = false)
    (htied : Tied (s.registerThread id t)) : id ∉ s.threadNumbers := by
  intro hid
  obtain ⟨n, hn⟩ := Option.isSome_iff_exists.mp (AList.lookup_isSome.mpr hid)
  obtain ⟨hle, t', ht', hframes, -⟩ := h.entries id n hn
  have hsame : (s.registerThread id t).threadNumbers = s.threadNumbers :=
    insertNew_of_lookup hn _
  obtain ⟨m, hm, hown, -⟩ := htied.own id t hcurrent
    ((s.registered_registerThread id t t).mpr (Or.inl rfl))
  rw [hsame, hn] at hm
  obtain rfl := Option.some.inj hm
  rw [(registerThread_arrays hle id t).1, hframes] at hown
  rw [Option.some.inj hown, hnew] at ht'
  exact Bool.false_ne_true ht'

theorem Numbered.fits_of_step (h : Numbered s) (hstep : s.step l = some s')
    (htied : Tied s') : s.Fits l := by
  cases l with
  | start id => trivial
  | exit id => trivial
  | inStackTrace id =>
      intro t hcurrent hnew
      obtain ⟨t', hcurrent', rfl⟩ := Option.map_eq_some_iff.mp hstep
      obtain rfl := Option.some.inj (hcurrent.symm.trans hcurrent')
      rw [TracedProcess.inStackTrace, hnew, if_neg Bool.false_ne_true] at htied
      refine ⟨h.not_mem_of_tied hcurrent hnew htied, ?_⟩
      exact htied.inside _ (List.mem_append_right _ (List.mem_singleton_self _))

/-- Each running thread that has registered is tied to its own arrays, and no
registration writes behind them, throughout a history exactly if no thread
registers with an id with which one has registered before, or when there is no
index left. -/
theorem tied_iff_fits {ops : List (ChurnOp θ)}
    (hrun : run step new ops = some s) :
    Throughout step Tied new ops ↔ Along step Fits new ops := by
  have hall : Along step (fun _ _ => True) (new : TracedProcess θ) ops :=
    along_of_forall fun _ _ _ => trivial
  have hkeep : ∀ (s : TracedProcess θ) l s', Numbered s → True → Fits s l →
      step s l = some s' → Numbered s' := fun s l s' h _ hfits => h.step hfits
  have hneed : ∀ (s : TracedProcess θ) l s', Numbered s → True →
      step s l = some s' → Tied s' → Fits s l :=
    fun s l s' h _ hstep => h.fits_of_step hstep
  exact throughout_iff_along (fun s h => h.tied) hkeep hneed numbered_new hall
    hrun

/-- A thread registers and ends, and a new one with its id opens a scope. -/
def reusedId : List (ChurnOp ℕ) :=
  [.start 7, .inStackTrace 7, .exit 7, .start 7, .inStackTrace 7]

/-- The number of the new thread is that of the old one, and leads to the arrays
of a thread that has ended. -/
theorem reusedId_not_tied :
    ∃ s, run step new reusedId = some s ∧ s.threads.current 7 = some 1 ∧
      s.registered 1 = true ∧ s.threadNumbers.lookup 7 = some 1 ∧
      s.recordStackFrames 1 = some 0 ∧ s.recordStackFrames 2 = some 1 ∧
      ¬Throughout step Tied new reusedId := by
  have hrun : run step new reusedId = some _ := rfl
  refine ⟨_, hrun, rfl, rfl, rfl, rfl, rfl, ?_⟩
  intro h
  obtain ⟨n, hn, hframes, -⟩ :=
    (h reusedId [] _ (by simp) hrun).own 7 1 rfl rfl
  obtain rfl := Option.some.inj hn
  exact absurd hframes (by decide)

/-- Two threads open scopes, and the first ends. -/
def twoThreads : List (ChurnOp ℕ) :=
  [.start 7, .inStackTrace 7, .start 8, .inStackTrace 8, .exit 7,
    .inStackTrace 8]

theorem tied_twoThreads :
    ∃ s, run step new twoThreads = some s ∧
      Throughout step Tied new twoThreads := by
  have hrun : run step new twoThreads = some _ := rfl
  exact ⟨_, hrun, (tied_iff_fits hrun).mpr (by decide)⟩

end TracedProcess

end DokeviNet
