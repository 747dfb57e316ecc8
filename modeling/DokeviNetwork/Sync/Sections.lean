import DokeviNetwork.Support.Run
import DokeviNetwork.Sync.Steps
import Mathlib.Data.List.Nodup

/-!
# Sections that do not nest

A thread whose sections do not nest passes through six phases: it is away, goes for
the mutex, has been granted it, is inside, releases it, clears the owner.  In
each it has one next step, and only the grant may have to wait.  Readers overwrite
the owner of each other, and the first of them to leave clears it, but that misleads
nobody: whoever starts an `Enter` is away, and no step of the others writes its
id.
-/

namespace DokeviNet

open LabelledRun

/-! ## Who has the mutex -/

/-- The threads that have the mutex, each for a section of its type. -/
inductive SharedMutex.HeldBy {τ : Type*} (inType : τ → SyncType) :
    SharedMutex → List τ → Prop
  | free : HeldBy inType .free []
  | shared {others : ℕ} {holders : List τ}
      (hlength : holders.length = others + 1)
      (hread : ∀ t ∈ holders, inType t = .read) :
      HeldBy inType (.shared others) holders
  | exclusive {t : τ} (hwrite : inType t = .write) :
      HeldBy inType .exclusive [t]

namespace SharedMutex.HeldBy

variable {τ : Type*} {inType inType' : τ → SyncType}
  {mutex mutex' : SharedMutex} {holders : List τ} {t : τ}

theorem acquire (h : HeldBy inType mutex holders)
    (hacquire : mutex.acquire (inType t) = some mutex') :
    HeldBy inType mutex' (t :: holders) := by
  generalize htype : inType t = ty at hacquire
  cases h with
  | free =>
      cases ty with
      | read =>
          obtain rfl := Option.some.inj hacquire
          refine shared rfl fun u hu => ?_
          rwa [List.mem_singleton.mp hu]
      | write =>
          obtain rfl := Option.some.inj hacquire
          exact exclusive htype
  | shared hlength hread =>
      cases ty with
      | read =>
          obtain rfl := Option.some.inj hacquire
          refine shared (by rw [List.length_cons, hlength]) fun u hu => ?_
          rcases List.mem_cons.mp hu with rfl | hu
          · exact htype
          · exact hread u hu
      | write => cases hacquire
  | exclusive => cases ty <;> cases hacquire

theorem exists_release [DecidableEq τ] (h : HeldBy inType mutex holders)
    (hmem : t ∈ holders) :
    ∃ mutex', mutex.release (inType t) = some mutex' ∧
      HeldBy inType mutex' (holders.erase t) := by
  cases h with
  | free => cases hmem
  | @shared others _ hlength hread =>
      have hlength' := List.length_erase_of_mem hmem
      rw [hlength, Nat.add_sub_cancel] at hlength'
      rw [hread t hmem]
      cases others with
      | zero =>
          rw [List.eq_nil_of_length_eq_zero hlength']
          exact ⟨_, rfl, free⟩
      | succ others =>
          refine ⟨_, rfl, shared hlength' fun u hu => ?_⟩
          exact hread u (List.mem_of_mem_erase hu)
  | exclusive hwrite =>
      obtain rfl := List.mem_singleton.mp hmem
      rw [hwrite, List.erase_cons_head]
      exact ⟨_, rfl, free⟩

/-- It matters only what those threads hold it for. -/
theorem congr (h : HeldBy inType mutex holders)
    (hsame : ∀ t ∈ holders, inType' t = inType t) :
    HeldBy inType' mutex holders := by
  cases h with
  | free => exact free
  | shared hlength hread =>
      exact shared hlength fun t ht => (hsame t ht).trans (hread t ht)
  | exclusive hwrite =>
      exact exclusive ((hsame _ (List.mem_singleton_self _)).trans hwrite)

theorem of_write (h : HeldBy inType mutex holders) (hmem : t ∈ holders)
    (hwrite : inType t = .write) : holders = [t] := by
  cases h with
  | free => cases hmem
  | shared _ hread =>
      rw [hread t hmem] at hwrite
      cases hwrite
  | exclusive => rw [List.mem_singleton.mp hmem]

/-- Only writers keep a reader from the mutex. -/
theorem acquire_or_waits (h : HeldBy inType mutex holders) (ty : SyncType) :
    (mutex.acquire ty).isSome ∨
      holders ≠ [] ∧ ∀ t ∈ holders, ty = .read → inType t = .write := by
  cases h with
  | free => cases ty <;> exact Or.inl rfl
  | shared hlength hread =>
      cases ty with
      | read => exact Or.inl rfl
      | write =>
          refine Or.inr ⟨fun hnil => ?_, fun _ _ hty => by cases hty⟩
          rw [hnil] at hlength
          cases hlength
  | exclusive hwrite =>
      refine Or.inr ⟨List.cons_ne_nil _ _, fun u hu _ => ?_⟩
      rw [List.mem_singleton.mp hu, hwrite]

end SharedMutex.HeldBy

/-! ## The phases of a section -/

/-- The thread whose step it is. -/
def SyncStep.thread {τ : Type*} : SyncStep τ → τ
  | .enter me _ | .leave me | .advance me => me

inductive SectionPhase
  | away
  | entering
  | granted
  | inside
  | unlocking
  | leaving
  deriving DecidableEq

namespace SectionPhase

/-- The thread in this phase of a section of the type. -/
def thread (inType : SyncType) : SectionPhase → SyncThread
  | .away => {}
  | .entering => { pc := .wantMutex inType }
  | .granted => { pc := .setOwner inType }
  | .inside => { sections := [{ inType, counted := false }] }
  | .unlocking => { pc := .unlock { inType, counted := false } }
  | .leaving => { pc := .clearOwner }

/-- The phase after this one. -/
def next : SectionPhase → SectionPhase
  | .away => .entering
  | .entering => .granted
  | .granted => .inside
  | .inside => .unlocking
  | .unlocking => .leaving
  | .leaving => .away

/-- What the thread does next. -/
def label {τ : Type*} (me : τ) (inType : SyncType) : SectionPhase → SyncStep τ
  | .away => .enter me inType
  | .inside => .leave me
  | .entering | .granted | .unlocking | .leaving => .advance me

/-- The steps that the thread still takes until it has released the mutex. -/
def left : SectionPhase → ℕ
  | .granted => 3
  | .inside => 2
  | .unlocking => 1
  | .away | .entering | .leaving => 0

/-- The thread holds the mutex. -/
def holds : SectionPhase → Bool
  | .granted | .inside | .unlocking => true
  | .away | .entering | .leaving => false

/-- Its id may stand in `_ownerThread`. -/
def mayOwn : SectionPhase → Bool
  | .inside | .unlocking | .leaving => true
  | .away | .entering | .granted => false

/-- Who holds the mutex after the next step of `me`. -/
def holdersAfter {τ : Type*} [DecidableEq τ] (me : τ) (holders : List τ) :
    SectionPhase → List τ
  | .entering => me :: holders
  | .unlocking => holders.erase me
  | .away | .granted | .inside | .leaving => holders

theorem thread_label {τ : Type*} (me : τ) (inType : SyncType)
    (phase : SectionPhase) : (phase.label me inType).thread = me := by
  cases phase <;> rfl

theorem left_pos {phase : SectionPhase} (hholds : phase.holds = true) :
    0 < phase.left ∧ phase ≠ .entering ∧ phase ≠ .away := by
  cases phase with
  | away | entering | leaving => cases hholds
  | granted | inside | unlocking => exact ⟨Nat.succ_pos _, by simp, by simp⟩

end SectionPhase

namespace SyncThreads

variable {τ : Type*}

/-- A thread enters only when it has no section open. -/
def Flat (s : SyncThreads τ) : SyncStep τ → Prop
  | .enter me _ => (s.threads me).sections = []
  | .leave _ | .advance _ => True

instance (s : SyncThreads τ) : DecidablePred s.Flat
  | .enter me _ => inferInstanceAs (Decidable ((s.threads me).sections = []))
  | .leave _ | .advance _ => isTrue trivial

/-- Every thread is in some phase of a section of some type, and `holders` have
the mutex. -/
structure Phased (s : SyncThreads τ) (phase : τ → SectionPhase)
    (inType : τ → SyncType) (holders : List τ) : Prop where
  threads : ∀ t, s.threads t = (phase t).thread (inType t)
  depth : s.sync.lockDepth = 0
  owner : ∀ t, s.sync.ownerThread = some t → (phase t).mayOwn = true
  nodup : holders.Nodup
  mem : ∀ t, t ∈ holders ↔ (phase t).holds = true
  mutex : s.sync.mutex.HeldBy inType holders

theorem phased_start (inType : τ → SyncType) :
    Phased ({} : SyncThreads τ) (fun _ => .away) inType [] where
  threads _ := rfl
  depth := rfl
  owner _ h := by cases h
  nodup := List.nodup_nil
  mem _ := by simp [SectionPhase.holds]
  mutex := SharedMutex.HeldBy.free

namespace Phased

variable [DecidableEq τ] {s s' : SyncThreads τ} {phase : τ → SectionPhase}
  {inType : τ → SyncType} {holders : List τ} {t : τ}

/-- A step of a thread that is in a section. -/
theorem after (h : Phased s phase inType holders) (next : SectionPhase)
    {sync : SyncSection τ} {holders' : List τ}
    (hdepth : sync.lockDepth = s.sync.lockDepth)
    (howner : ∀ u, sync.ownerThread = some u →
      (Function.update phase t next u).mayOwn = true)
    (hnodup : holders'.Nodup)
    (hself : t ∈ holders' ↔ next.holds = true)
    (hothers : ∀ u, u ≠ t → (u ∈ holders' ↔ u ∈ holders))
    (hmutex : sync.mutex.HeldBy inType holders') :
    Phased (s.after t sync (next.thread (inType t)))
      (Function.update phase t next) inType holders' := by
  refine ⟨fun u => ?_, hdepth.trans h.depth, howner, hnodup, fun u => ?_,
    hmutex⟩
  · by_cases hu : u = t
    · rw [hu, after_threads_self, Function.update_self]
    · rw [after_threads_of_ne _ _ _ hu, Function.update_of_ne hu, h.threads]
  · by_cases hu : u = t
    · rw [hu, Function.update_self]
      exact hself
    · rw [Function.update_of_ne hu, hothers u hu, h.mem]

/-- The owner is one of the threads that may own, if nobody new is written. -/
theorem owner_update (h : Phased s phase inType holders)
    (next : SectionPhase)
    (hnext : (phase t).mayOwn = true → next.mayOwn = true) (u : τ)
    (howner : s.sync.ownerThread = some u) :
    (Function.update phase t next u).mayOwn = true := by
  have hmay := h.owner u howner
  by_cases hu : u = t
  · rw [hu] at hmay
    rw [hu, Function.update_self]
    exact hnext hmay
  · rw [Function.update_of_ne hu]
    exact hmay

/-- A thread that is away starts a section of any type. -/
theorem enter (h : Phased s phase inType holders) (haway : phase t = .away)
    (ty : SyncType) :
    s.step (.enter t ty) =
        some (s.after t s.sync (SectionPhase.thread ty .entering)) ∧
      Phased (s.after t s.sync (SectionPhase.thread ty .entering))
        (Function.update phase t .entering) (Function.update inType t ty)
        holders := by
  have hthread := h.threads t
  rw [haway] at hthread
  have hnot : t ∉ holders := by
    rw [h.mem, haway]
    exact Bool.false_ne_true
  have howner : s.sync.ownerThread ≠ some t := by
    intro howner
    have hmay := h.owner t howner
    rw [haway] at hmay
    cases hmay
  have htypes : ∀ u, u ≠ t → Function.update inType t ty u = inType u :=
    fun u hu => Function.update_of_ne hu _ _
  refine ⟨by simp [step, hthread, howner, SectionPhase.thread], ?_⟩
  have hretyped : Phased s phase (Function.update inType t ty) holders := by
    refine ⟨fun u => ?_, h.depth, h.owner, h.nodup, h.mem,
      h.mutex.congr fun u hu => htypes u fun heq => hnot (heq ▸ hu)⟩
    by_cases hu : u = t
    · rw [hu, hthread, haway]
      rfl
    · rw [htypes u hu, h.threads]
  have hafter := hretyped.after (t := t) .entering rfl
    (hretyped.owner_update _ fun hmay => by rw [haway] at hmay; cases hmay)
    h.nodup (iff_of_false hnot Bool.false_ne_true) (fun _ _ => Iff.rfl)
    hretyped.mutex
  rwa [Function.update_self] at hafter

/-- A thread that is not away goes on; only the grant has to wait. -/
theorem goOn (h : Phased s phase inType holders) (haway : phase t ≠ .away)
    (hgrant : phase t = .entering →
      (s.sync.mutex.acquire (inType t)).isSome) :
    ∃ sync, s.step ((phase t).label t (inType t)) =
        some (s.after t sync ((phase t).next.thread (inType t))) ∧
      Phased (s.after t sync ((phase t).next.thread (inType t)))
        (Function.update phase t (phase t).next) inType
        ((phase t).holdersAfter t holders) := by
  have hthread := h.threads t
  have hmem := h.mem t
  have howns := h.owner_update (t := t) (phase t).next
  generalize hphase : phase t = p at haway hgrant hthread hmem howns ⊢
  cases p with
  | away => exact absurd rfl haway
  | entering =>
      obtain ⟨mutex, hacquire⟩ := Option.isSome_iff_exists.mp (hgrant rfl)
      have hnot : t ∉ holders := fun hin => by cases hmem.mp hin
      refine ⟨{ s.sync with mutex := mutex }, ?_, ?_⟩
      · simp [SectionPhase.label, SectionPhase.thread, SectionPhase.next, step,
          advance, hthread, hacquire]
      · refine h.after _ rfl (howns fun hmay => by cases hmay)
          (List.nodup_cons.mpr ⟨hnot, h.nodup⟩) (by simp [SectionPhase.next,
            SectionPhase.holds, SectionPhase.holdersAfter]) (fun u hu => ?_)
          (h.mutex.acquire hacquire)
        exact List.mem_cons.trans (or_iff_right hu)
  | granted =>
      refine ⟨{ s.sync with ownerThread := some t }, ?_, ?_⟩
      · simp [SectionPhase.label, SectionPhase.thread, SectionPhase.next, step,
          advance, hthread]
      · refine h.after _ rfl (fun u hu => ?_) h.nodup hmem (fun _ _ => Iff.rfl)
          h.mutex
        obtain rfl := Option.some.inj hu
        rw [Function.update_self]
        rfl
  | inside =>
      refine ⟨s.sync, ?_, ?_⟩
      · simp [SectionPhase.label, SectionPhase.thread, SectionPhase.next, step,
          hthread, h.depth]
      · exact h.after _ rfl (howns fun _ => rfl) h.nodup hmem
          (fun _ _ => Iff.rfl) h.mutex
  | unlocking =>
      obtain ⟨mutex, hrelease, hheld⟩ := h.mutex.exists_release (hmem.mpr rfl)
      refine ⟨{ s.sync with mutex := mutex }, ?_, ?_⟩
      · simp [SectionPhase.label, SectionPhase.thread, SectionPhase.next, step,
          advance, hthread, hrelease]
      · refine h.after _ rfl (howns fun _ => rfl) (h.nodup.erase t)
          (iff_of_false (h.nodup.not_mem_erase) Bool.false_ne_true)
          (fun u hu => List.mem_erase_of_ne hu) hheld
  | leaving =>
      refine ⟨{ s.sync with ownerThread := none }, ?_, ?_⟩
      · simp [SectionPhase.label, SectionPhase.thread, SectionPhase.next, step,
          advance, hthread]
      · exact h.after _ rfl (fun u hu => by cases hu) h.nodup hmem
          (fun _ _ => Iff.rfl) h.mutex

/-- Every step is the next one of the thread's phase. -/
theorem eq_label (h : Phased s phase inType holders) {l : SyncStep τ}
    (hflat : s.Flat l) (hstep : s.step l = some s') :
    (∃ t ty, phase t = .away ∧ l = .enter t ty) ∨
      phase l.thread ≠ .away ∧
        l = (phase l.thread).label l.thread (inType l.thread) ∧
        (phase l.thread = .entering →
          (s.sync.mutex.acquire (inType l.thread)).isSome) := by
  cases l with
  | enter t ty =>
      have hthread := h.threads t
      have hsections : (s.threads t).sections = [] := hflat
      refine Or.inl ⟨t, ty, ?_, rfl⟩
      simp only [step] at hstep
      split at hstep
      · next hpc =>
        rw [hthread] at hpc hsections
        cases hphase : phase t with
        | away => rfl
        | inside =>
            rw [hphase] at hsections
            cases hsections
        | entering | granted | unlocking | leaving =>
            rw [hphase] at hpc
            cases hpc
      · cases hstep
  | leave t =>
      have hthread := h.threads t
      refine Or.inr ?_
      simp only [step] at hstep
      split at hstep
      · next leaving rest hpc hsections =>
        rw [hthread] at hpc hsections
        cases hphase : phase t with
        | inside => simp [SyncStep.thread, hphase, SectionPhase.label]
        | away | entering | granted | unlocking | leaving =>
            rw [hphase] at hsections
            cases hsections
      · cases hstep
  | advance t =>
      have hthread := h.threads t
      refine Or.inr ?_
      cases hphase : phase t with
      | away | inside =>
          rw [hphase] at hthread
          simp [step, advance, hthread, SectionPhase.thread] at hstep
      | granted | unlocking | leaving =>
          simp [SyncStep.thread, hphase, SectionPhase.label]
      | entering =>
          rw [hphase] at hthread
          simp only [step, advance, hthread, SectionPhase.thread,
            Option.map_eq_some_iff] at hstep
          obtain ⟨mutex, hacquire, -⟩ := hstep
          simp [SyncStep.thread, hphase, SectionPhase.label, hacquire]

/-- The thread goes on to its next phase, if need be with a new type. -/
theorem of_step (h : Phased s phase inType holders) {l : SyncStep τ}
    (hflat : s.Flat l) (hstep : s.step l = some s') :
    ∃ ty holders', (phase l.thread ≠ .away → ty = inType l.thread) ∧
      l = (phase l.thread).label l.thread ty ∧
      s'.threads = Function.update s.threads l.thread
        ((phase l.thread).next.thread ty) ∧
      Phased s' (Function.update phase l.thread (phase l.thread).next)
        (Function.update inType l.thread ty) holders' := by
  rcases h.eq_label hflat hstep with ⟨t, ty, haway, rfl⟩ |
    ⟨haway, hlabel, hgrant⟩
  · obtain ⟨henter, h'⟩ := h.enter haway ty
    obtain rfl := Option.some.inj (henter.symm.trans hstep)
    refine ⟨ty, holders, fun hne => absurd haway hne, ?_, ?_, ?_⟩
    · change _ = (phase t).label t ty
      rw [haway]
      rfl
    · change _ = Function.update s.threads t ((phase t).next.thread ty)
      rw [haway]
      rfl
    · change Phased _ (Function.update phase t (phase t).next) _ holders
      rw [haway]
      exact h'
  · obtain ⟨sync, hnext, h'⟩ := h.goOn haway hgrant
    rw [← hlabel] at hnext
    obtain rfl := Option.some.inj (hnext.symm.trans hstep)
    refine ⟨inType l.thread, (phase l.thread).holdersAfter l.thread holders,
      fun _ => rfl, hlabel, rfl, ?_⟩
    rw [Function.update_eq_self]
    exact h'

/-- A thread gives the mutex back in the steps it has left, whatever the others
wait for. -/
theorem exists_release (h : Phased s phase inType holders)
    (hholds : (phase t).holds = true) :
    ∃ ls s' phase', (∀ l ∈ ls, l.thread = t) ∧ ls.length = (phase t).left ∧
      run step s ls = some s' ∧
      Phased s' phase' inType (holders.erase t) ∧
      ∀ u, u ≠ t → phase' u = phase u := by
  obtain ⟨hpos, hentering, haway⟩ := SectionPhase.left_pos hholds
  induction hleft : (phase t).left generalizing s phase with
  | zero => omega
  | succ n ih =>
      obtain ⟨sync, hstep, h'⟩ := h.goOn haway fun heq => absurd heq hentering
      have hothers : ∀ u, u ≠ t →
          Function.update phase t (phase t).next u = phase u :=
        fun u hu => Function.update_of_ne hu _ _
      by_cases hlast : phase t = .unlocking
      · rw [hlast] at hleft hstep h' hothers
        refine ⟨[(phase t).label t (inType t)], _, _, ?_, ?_, ?_, h', hothers⟩
        · intro l hl
          rw [List.mem_singleton.mp hl, SectionPhase.thread_label]
        · exact hleft
        · rw [hlast, run_cons, hstep]
          rfl
      · have hnext : (phase t).next.holds = true ∧ (phase t).next.left = n ∧
            (phase t).holdersAfter t holders = holders := by
          cases hphase : phase t with
          | away => exact absurd hphase haway
          | entering => exact absurd hphase hentering
          | unlocking => exact absurd hphase hlast
          | leaving =>
              rw [hphase] at hholds
              cases hholds
          | granted | inside =>
              rw [hphase] at hleft
              exact ⟨rfl, Nat.succ.inj hleft, rfl⟩
        obtain ⟨hholds', hleft', hsame⟩ := hnext
        obtain ⟨hpos', hentering', haway'⟩ := SectionPhase.left_pos hholds'
        rw [hsame] at h'
        have hself : Function.update phase t (phase t).next t = (phase t).next :=
          Function.update_self _ _ _
        obtain ⟨ls, s', phase', hthreads, hlength, hrun, hreleased, hkept⟩ :=
          ih h' (by rw [hself]; exact hholds') (by rw [hself]; exact hpos')
            (by rw [hself]; exact hentering') (by rw [hself]; exact haway')
            (by rw [hself, hleft'])
        refine ⟨(phase t).label t (inType t) :: ls, s', phase', ?_, ?_, ?_,
          hreleased, fun u hu => (hkept u hu).trans (hothers u hu)⟩
        · intro l hl
          rcases List.mem_cons.mp hl with rfl | hl
          · exact SectionPhase.thread_label t _ _
          · exact hthreads l hl
        · rw [List.length_cons, hlength]
        · rw [run_cons, hstep]
          exact hrun

/-- One after the other all that have the mutex give it back. -/
theorem exists_release_all (h : Phased s phase inType holders) :
    ∃ ls s' phase', (∀ l ∈ ls, l.thread ∈ holders) ∧
      (∀ u, (ls.countP fun l => l.thread = u) ≤ 3) ∧ run step s ls = some s' ∧
      Phased s' phase' inType [] ∧ ∀ u, u ∉ holders → phase' u = phase u := by
  induction holders generalizing s phase with
  | nil => exact ⟨[], s, phase, by simp, by simp, rfl, h, fun _ _ => rfl⟩
  | cons t holders ih =>
      obtain ⟨ls₁, s₁, phase₁, hthreads₁, hlength₁, hrun₁, h₁, hkept₁⟩ :=
        h.exists_release ((h.mem t).mp (List.mem_cons_self ..))
      rw [List.erase_cons_head] at h₁
      obtain ⟨ls₂, s₂, phase₂, hthreads₂, hcount₂, hrun₂, h₂, hkept₂⟩ :=
        ih h₁
      have hthree : (phase t).left ≤ 3 := by
        cases phase t <;> decide
      have hnotin : t ∉ holders := (List.nodup_cons.mp h.nodup).1
      refine ⟨ls₁ ++ ls₂, s₂, phase₂, ?_, ?_, ?_, h₂, fun u hu => ?_⟩
      · intro l hl
        rcases List.mem_append.mp hl with hl | hl
        · rw [hthreads₁ l hl]
          exact List.mem_cons_self ..
        · exact List.mem_cons_of_mem _ (hthreads₂ l hl)
      · intro u
        rw [List.countP_append]
        by_cases hu : u = t
        · -- the others' steps are not its own
          have hnone : (ls₂.countP fun l => l.thread = u) = 0 := by
            refine List.countP_eq_zero.mpr fun l hl heq => hnotin ?_
            rw [← hu, ← of_decide_eq_true heq]
            exact hthreads₂ l hl
          have hfirst := @List.countP_le_length _ (fun l => l.thread = u) ls₁
          omega
        · have hnone : (ls₁.countP fun l => l.thread = u) = 0 := by
            refine List.countP_eq_zero.mpr fun l hl heq => hu ?_
            rw [← of_decide_eq_true heq]
            exact hthreads₁ l hl
          rw [hnone, Nat.zero_add]
          exact hcount₂ u
      · rw [run_append, hrun₁]
        exact hrun₂
      · obtain ⟨hne, hnot⟩ := not_or.mp (mt List.mem_cons.mpr hu)
        rw [hkept₂ u hnot, hkept₁ u hne]

end Phased

/-! ## Readers and writers -/

/-- The thread has the mutex for a section of the type. -/
inductive Has (inType : SyncType) : SyncThread → Prop
  | granted : Has inType { pc := .setOwner inType }
  | inside : Has inType { sections := [{ inType, counted := false }] }
  | unlocking : Has inType { pc := .unlock { inType, counted := false } }

theorem has_thread {p : SectionPhase} {inType : SyncType} :
    Has inType (p.thread inType) ↔ p.holds = true := by
  constructor
  · intro h
    cases p with
    | away | entering | leaving => cases h
    | granted | inside | unlocking => rfl
  · intro h
    cases p with
    | away | entering | leaving => cases h
    | granted => exact Has.granted
    | inside => exact Has.inside
    | unlocking => exact Has.unlocking

variable [DecidableEq τ]

/-- The mutex goes to `t` after at most three steps of each thread that has it,
which nothing holds up.  A reader waits for writers only. -/
def Gets (s : SyncThreads τ) (t : τ) (inType : SyncType) : Prop :=
  ∃ (holders : List τ) (ls : List (SyncStep τ)) (s' : SyncThreads τ),
    holders.Nodup ∧
      (∀ u ∈ holders, u ≠ t ∧ ∃ ty, Has ty (s.threads u) ∧
        (inType = .read → ty = .write)) ∧
      (∀ l ∈ ls, l.thread ∈ holders) ∧
      (∀ u, (ls.countP fun l => l.thread = u) ≤ 3) ∧
      run step s ls = some s' ∧ s'.step (.advance t) ≠ none

/-- The lock is one for many readers or one writer, and nothing deadlocks. -/
structure ReadersWriter (s : SyncThreads τ) : Prop where
  /-- An open section has the mutex for its own type. -/
  opened : ∀ t, ∀ opened ∈ (s.threads t).sections,
    Has opened.inType (s.threads t)
  /-- A writer has it alone. -/
  alone : ∀ t u inType, Has .write (s.threads t) → Has inType (s.threads u) →
    u = t
  depth : s.sync.lockDepth = 0
  /-- A thread in a call that does not go for the mutex can take its next step. -/
  going : ∀ t, (s.threads t).pc ≠ .idle →
    (∀ inType, (s.threads t).pc ≠ .wantMutex inType) →
    s.step (.advance t) ≠ none
  waiting : ∀ t inType, (s.threads t).pc = .wantMutex inType → s.Gets t inType

namespace Phased

variable {s s' : SyncThreads τ} {phase : τ → SectionPhase}
  {inType : τ → SyncType} {holders : List τ} {t : τ}

/-- A thread that goes for the mutex is granted it once it is free for the type. -/
theorem granted (h : Phased s phase inType holders)
    (hentering : phase t = .entering)
    (hfree : (s.sync.mutex.acquire (inType t)).isSome) :
    s.step (.advance t) ≠ none := by
  obtain ⟨sync, hstep, -⟩ := h.goOn (by simp [hentering]) fun _ => hfree
  rw [hentering] at hstep
  exact Option.ne_none_iff_exists'.mpr ⟨_, hstep⟩

theorem going (h : Phased s phase inType holders)
    (hidle : (s.threads t).pc ≠ .idle)
    (hwant : ∀ inType, (s.threads t).pc ≠ .wantMutex inType) :
    s.step (.advance t) ≠ none := by
  rw [h.threads] at hidle
  have hentering : phase t ≠ .entering := by
    intro hentering
    apply hwant (inType t)
    rw [h.threads, hentering]
    rfl
  have haway : phase t ≠ .away := by
    intro haway
    rw [haway] at hidle
    exact hidle rfl
  obtain ⟨sync, hstep, -⟩ := h.goOn haway fun heq => absurd heq hentering
  cases hphase : phase t with
  | away => exact absurd hphase haway
  | entering => exact absurd hphase hentering
  | inside =>
      rw [hphase] at hidle
      exact absurd rfl hidle
  | granted | unlocking | leaving =>
      rw [hphase] at hstep
      exact Option.ne_none_iff_exists'.mpr ⟨_, hstep⟩

/-- A thread that goes for the mutex waits for those that have it. -/
theorem waiting (h : Phased s phase inType holders) {ty : SyncType}
    (hwant : (s.threads t).pc = .wantMutex ty) : s.Gets t ty := by
  obtain ⟨hentering, rfl⟩ : phase t = .entering ∧ inType t = ty := by
    rw [h.threads] at hwant
    cases hphase : phase t with
    | entering =>
        rw [hphase] at hwant
        exact ⟨rfl, SyncPc.wantMutex.inj hwant⟩
    | away | granted | inside | unlocking | leaving =>
        rw [hphase] at hwant
        cases hwant
  rcases h.mutex.acquire_or_waits (inType t) with hfree | ⟨-, hwriters⟩
  · refine ⟨[], [], s, List.nodup_nil, by simp, by simp, by simp, rfl, ?_⟩
    exact h.granted hentering hfree
  · have hnot : t ∉ holders := by
      rw [h.mem, hentering]
      exact Bool.false_ne_true
    obtain ⟨ls, s', phase', hthreads, hlength, hrun, h', hkept⟩ :=
      h.exists_release_all
    refine ⟨holders, ls, s', h.nodup, fun u hu => ⟨?_, inType u, ?_, ?_⟩,
      hthreads, hlength, hrun, ?_⟩
    · rintro rfl
      exact hnot hu
    · rw [h.threads, has_thread]
      exact (h.mem u).mp hu
    · exact hwriters u hu
    · apply h'.granted ((hkept t hnot).trans hentering)
      have hfree := h'.mutex.acquire_or_waits (inType t)
      exact hfree.resolve_right fun hwaits => hwaits.1 rfl

theorem readersWriter (h : Phased s phase inType holders) :
    s.ReadersWriter := by
  have hhas : ∀ {u ty}, Has ty (s.threads u) →
      (phase u).holds = true ∧ inType u = ty := by
    intro u ty hu
    have hthread := h.threads u
    cases hphase : phase u with
    | away | entering | leaving =>
        rw [hthread, hphase] at hu
        cases hu
    | granted | inside | unlocking =>
        rw [hthread, hphase] at hu
        cases hu
        exact ⟨rfl, rfl⟩
  refine ⟨fun t opened hmem => ?_, fun t u ty ht hu => ?_, h.depth,
    fun t => h.going, fun t ty => h.waiting⟩
  · rw [h.threads] at hmem ⊢
    cases hphase : phase t with
    | inside =>
        rw [hphase] at hmem
        rw [List.mem_singleton.mp hmem]
        exact Has.inside
    | away | entering | granted | unlocking | leaving =>
        rw [hphase] at hmem
        cases hmem
  · obtain ⟨hholds, hwrite⟩ := hhas ht
    have halone := h.mutex.of_write ((h.mem t).mpr hholds) hwrite
    have hmem := (h.mem u).mpr (hhas hu).1
    rw [halone] at hmem
    exact List.mem_singleton.mp hmem

end Phased

theorem exists_phased_of_run {s : SyncThreads τ} {steps : List (SyncStep τ)}
    (hflat : Along step Flat {} steps) (hrun : run step {} steps = some s) :
    ∃ phase inType holders, Phased s phase inType holders := by
  refine @invariant_of_along _ _ _ _
    (fun s => ∃ phase inType holders, Phased s phase inType holders) ?_
    _ _ _ ⟨_, _, _, phased_start fun _ => .write⟩ hflat hrun
  rintro s l s' ⟨phase, inType, holders, h⟩ hl hstep
  obtain ⟨ty, holders', -, -, -, h'⟩ := h.of_step hl hstep
  exact ⟨_, _, _, h'⟩

/-- Without nesting a `SyncSection` is a lock for many readers or one writer, and
never deadlocks. -/
theorem readersWriter_of_run {s : SyncThreads τ} {steps : List (SyncStep τ)}
    (hflat : Along step Flat {} steps) (hrun : run step {} steps = some s) :
    s.ReadersWriter := by
  obtain ⟨phase, inType, holders, h⟩ := exists_phased_of_run hflat hrun
  exact h.readersWriter

/-- Two readers, the first of which clears the owner of the second, and a
writer in `Enter`. -/
theorem readersWriter_twoReaders : ∃ s : SyncThreads (Fin 3),
    s.sync.ownerThread = none ∧ s.sync.mutex = .shared 0 ∧
      (s.threads 2).pc = .wantMutex .write ∧ s.ReadersWriter :=
  ⟨_, rfl, rfl, rfl, @readersWriter_of_run _ _ _ [.enter 0 .read, .advance 0,
    .advance 0, .enter 1 .read, .advance 1, .advance 1, .leave 0, .advance 0,
    .advance 0, .enter 2 .write] (by decide) rfl⟩

/-! ## Writers only -/

/-- A thread enters only for writing, and only when it has no section open. -/
def Plain (s : SyncThreads τ) : SyncStep τ → Prop
  | .enter me inType => inType = .write ∧ (s.threads me).sections = []
  | .leave _ | .advance _ => True

/-- Every thread is in some phase of a WRITE section. -/
def WritePhased (s : SyncThreads τ) (phase : τ → SectionPhase) : Prop :=
  ∃ holders, Phased s phase (fun _ => .write) holders

namespace WritePhased

variable {s s' : SyncThreads τ} {phase : τ → SectionPhase}

omit [DecidableEq τ] in
theorem threads (h : WritePhased s phase) (t : τ) :
    s.threads t = (phase t).thread .write := by
  obtain ⟨holders, h⟩ := h
  exact h.threads t

omit [DecidableEq τ] in
/-- One thread has the mutex. -/
theorem eq_of_holds (h : WritePhased s phase) {t u : τ}
    (ht : (phase t).holds = true) (hu : (phase u).holds = true) : t = u := by
  obtain ⟨holders, h⟩ := h
  have hmem := (h.mem t).mpr ht
  rw [h.mutex.of_write ((h.mem u).mpr hu) rfl] at hmem
  exact List.mem_singleton.mp hmem

/-- Where a thread goes for the mutex, it is granted it or another one has it. -/
theorem granted_or_held (h : WritePhased s phase) {t : τ}
    (hentering : phase t = .entering) :
    s.step (.advance t) ≠ none ∨ ∃ u, (phase u).holds = true := by
  obtain ⟨holders, h⟩ := h
  rcases h.mutex.acquire_or_waits .write with hfree | ⟨hne, -⟩
  · exact Or.inl (h.granted hentering hfree)
  · obtain ⟨u, hu⟩ := List.exists_mem_of_ne_nil holders hne
    exact Or.inr ⟨u, (h.mem u).mp hu⟩

/-- Only the grant has to wait. -/
theorem step_next (h : WritePhased s phase) {t : τ}
    (hentering : phase t ≠ .entering) :
    s.step ((phase t).label t .write) ≠ none := by
  obtain ⟨holders, h⟩ := h
  by_cases haway : phase t = .away
  · rw [haway]
    exact Option.ne_none_iff_exists'.mpr ⟨_, (h.enter haway .write).1⟩
  · obtain ⟨sync, hstep, -⟩ := h.goOn haway fun heq => absurd heq hentering
    exact Option.ne_none_iff_exists'.mpr ⟨_, hstep⟩

/-- The thread goes on to its next phase. -/
theorem of_step (h : WritePhased s phase) {l : SyncStep τ}
    (hplain : s.Plain l) (hstep : s.step l = some s') :
    l = (phase l.thread).label l.thread .write ∧
      s'.threads = Function.update s.threads l.thread
        ((phase l.thread).next.thread .write) ∧
      WritePhased s' (Function.update phase l.thread (phase l.thread).next) := by
  obtain ⟨holders, h⟩ := h
  have hflat : s.Flat l := by
    cases l with
    | enter => exact hplain.2
    | leave | advance => trivial
  obtain ⟨ty, holders', hsame, hlabel, hthreads, h'⟩ := h.of_step hflat hstep
  obtain rfl : ty = .write := by
    by_cases haway : phase l.thread = .away
    · rw [haway] at hlabel
      rw [hlabel] at hplain
      exact hplain.1
    · exact hsame haway
  rw [Function.update_eq_self] at h'
  exact ⟨hlabel, hthreads, holders', h'⟩

end WritePhased

omit [DecidableEq τ] in
theorem writePhased_start :
    WritePhased ({} : SyncThreads τ) fun _ => .away :=
  ⟨[], phased_start _⟩

end SyncThreads

end DokeviNet
