import DokeviNetwork.Sync.Steps
import Mathlib.Data.Fintype.Defs

/-!
# Whether a holder may enter again

`Enter` recognises a thread that is already inside by the one field
`_ownerThread`.  Every thread that takes the mutex overwrites it, a reader as well as
a writer, and every thread that has released the mutex clears it in a step of
its own.  A holder is recognised as long as no such write happens while it has a
section open.
-/

namespace DokeviNet

open LabelledRun

/-- A thread without an open section. -/
inductive Apart : SyncThread → Prop
  | idle : Apart { pc := .idle, sections := [] }
  | wantMutex (inType : SyncType) :
      Apart { pc := .wantMutex inType, sections := [] }
  | setOwner (inType : SyncType) :
      Apart { pc := .setOwner inType, sections := [] }
  | unlock (leaving : OpenSection) :
      Apart { pc := .unlock leaving, sections := [] }
  | clearOwner : Apart { pc := .clearOwner, sections := [] }

/-- A thread with open sections, and the depth while it has them. -/
inductive Within : SyncThread → ℤ → Prop
  | idle (newest : OpenSection) (rest : List OpenSection) :
      Within { pc := .idle, sections := newest :: rest } rest.length
  | wantDepth (inType : SyncType) (newest : OpenSection)
      (rest : List OpenSection) :
      Within { pc := .wantDepth inType, sections := newest :: rest }
        rest.length
  | decrement (leaving newest : OpenSection) (rest : List OpenSection) :
      Within { pc := .decrement leaving, sections := newest :: rest }
        (rest.length + 1)

/-- The next step writes `_ownerThread`. -/
def SyncPc.writesOwner : SyncPc → Bool
  | .setOwner _ => true
  | .clearOwner => true
  | _ => false

/-- The next step is `_lockDepth.fetch_add(1)`. -/
def SyncPc.countsUp : SyncPc → Bool
  | .wantDepth _ => true
  | _ => false

namespace Apart

variable {thread : SyncThread}

theorem sections_eq_nil (h : Apart thread) : thread.sections = [] := by
  cases h <;> rfl

theorem enter (h : Apart thread) (inType : SyncType) :
    Apart { thread with pc := .wantMutex inType } := by
  cases h <;> exact Apart.wantMutex inType

theorem acquired (h : Apart thread) (inType : SyncType) :
    Apart { thread with pc := .setOwner inType } := by
  cases h <;> exact Apart.setOwner inType

theorem released (h : Apart thread) :
    Apart { thread with pc := .clearOwner } := by
  cases h <;> exact Apart.clearOwner

theorem cleared (h : Apart thread) : Apart { thread with pc := .idle } := by
  cases h <;> exact Apart.idle

theorem own (h : Apart thread) (inType : SyncType) :
    Within
      { pc := .idle
        sections := { inType, counted := false } :: thread.sections } 0 := by
  rw [h.sections_eq_nil]
  exact Within.idle _ []

theorem not_counting (h : Apart thread) : thread.pc.countsUp = false := by
  cases h <;> rfl

theorem not_decrement (h : Apart thread) (leaving : OpenSection) :
    thread.pc ≠ .decrement leaving := by
  cases h <;> simp

end Apart

namespace Within

variable {thread : SyncThread} {depth : ℤ}

theorem sections_ne_nil (h : Within thread depth) : thread.sections ≠ [] := by
  cases h <;> simp

theorem not_apart (h : Within thread depth) : ¬Apart thread :=
  fun hapart => h.sections_ne_nil hapart.sections_eq_nil

/-- A thread with a section open neither takes the mutex nor releases it, and
it does not write the owner. -/
theorem pc_cases (h : Within thread depth) :
    thread.pc = .idle ∨ (∃ inType, thread.pc = .wantDepth inType) ∨
      ∃ leaving, thread.pc = .decrement leaving := by
  cases h <;> simp

theorem enter (h : Within thread depth) (hpc : thread.pc = .idle)
    (inType : SyncType) :
    Within { thread with pc := .wantDepth inType } depth := by
  cases h <;> cases hpc
  exact Within.wantDepth inType _ _

/-- A nested section is counted down, the outermost one is unlocked. -/
theorem leave (h : Within thread depth) (hpc : thread.pc = .idle)
    {leaving : OpenSection} {rest : List OpenSection}
    (hsections : thread.sections = leaving :: rest) :
    (0 < depth ∧
        Within { pc := .decrement leaving, sections := rest } depth) ∨
      (depth = 0 ∧ rest = []) := by
  cases h <;> cases hpc
  obtain ⟨rfl, rfl⟩ := List.cons.inj hsections
  next rest =>
    cases rest with
    | nil => exact Or.inr ⟨rfl, rfl⟩
    | cons newest rest =>
        refine Or.inl ⟨?_, ?_⟩
        · simp only [List.length_cons]
          omega
        · exact Within.decrement _ newest rest

theorem fetch_add (h : Within thread depth) {inType : SyncType}
    (hpc : thread.pc = .wantDepth inType) :
    Within
      { pc := .idle
        sections := { inType, counted := true } :: thread.sections }
      (depth + 1) := by
  cases h <;> cases hpc
  next newest rest =>
    exact Within.idle _ (newest :: rest)

theorem fetch_sub (h : Within thread depth) {leaving : OpenSection}
    (hpc : thread.pc = .decrement leaving) :
    0 < depth ∧ Within { thread with pc := .idle } (depth - 1) := by
  cases h <;> cases hpc
  next newest rest =>
    refine ⟨by omega, ?_⟩
    rw [Int.add_sub_cancel]
    exact Within.idle newest rest

end Within

namespace SyncThreads

variable {τ : Type*}

/-- `SyncSection::IsEntered` called by the thread `me`. -/
def IsEntered (s : SyncThreads τ) (me : τ) : Prop :=
  s.sync.ownerThread = some me

instance [DecidableEq τ] (s : SyncThreads τ) (me : τ) :
    Decidable (s.IsEntered me) :=
  inferInstanceAs (Decidable (s.sync.ownerThread = some me))

/-- A thread with a section open is recognised, and no `Enter` of it is on its
way to the mutex. -/
def Reentrant (s : SyncThreads τ) : Prop :=
  ∀ me, (s.threads me).sections ≠ [] →
    s.IsEntered me ∧
      ∀ inType, (s.threads me).pc ≠ .wantMutex inType ∧
        (s.threads me).pc ≠ .setOwner inType

/-- `_ownerThread` is written only while no other thread has a section open. -/
def OwnerFree (s : SyncThreads τ) : SyncStep τ → Prop
  | .advance me => (s.threads me).pc.writesOwner = true →
      ∀ other, other ≠ me → (s.threads other).sections = []
  | _ => True

/-- `_lockDepth` does not overflow. -/
def DepthFits (s : SyncThreads τ) : SyncStep τ → Prop
  | .advance me => (s.threads me).pc.countsUp = true →
      s.sync.lockDepth ≠ Int32.maxValue
  | _ => True

instance [Fintype τ] [DecidableEq τ] (s : SyncThreads τ) :
    ∀ l, Decidable (s.OwnerFree l)
  | .enter _ _ => inferInstanceAs (Decidable True)
  | .leave _ => inferInstanceAs (Decidable True)
  | .advance me => inferInstanceAs (Decidable
      ((s.threads me).pc.writesOwner = true →
        ∀ other, other ≠ me → (s.threads other).sections = []))

instance (s : SyncThreads τ) : ∀ l, Decidable (s.DepthFits l)
  | .enter _ _ => inferInstanceAs (Decidable True)
  | .leave _ => inferInstanceAs (Decidable True)
  | .advance me => inferInstanceAs (Decidable
      ((s.threads me).pc.countsUp = true →
        s.sync.lockDepth ≠ Int32.maxValue))

/-- At most one thread has sections open, and if one has, it is the owner and
the depth counts its nested sections. -/
inductive Owned (s : SyncThreads τ) : Prop
  | nobody (hdepth : s.sync.lockDepth.toInt = 0)
      (hapart : ∀ thread, Apart (s.threads thread))
      (howner : ∀ thread, s.sync.ownerThread = some thread →
        (s.threads thread).pc ≠ .idle)
  | holder (me : τ) (howner : s.sync.ownerThread = some me)
      (hwithin : Within (s.threads me) s.sync.lockDepth.toInt)
      (hapart : ∀ thread, thread ≠ me → Apart (s.threads thread))

theorem Owned.reentrant {s : SyncThreads τ} (h : Owned s) : s.Reentrant := by
  intro me hopen
  cases h with
  | nobody _ hapart _ => exact absurd (hapart me).sections_eq_nil hopen
  | holder holder howner hwithin hapart =>
      obtain rfl : me = holder := by
        by_contra hne
        exact hopen (hapart me hne).sections_eq_nil
      refine ⟨howner, fun inType => ?_⟩
      rcases hwithin.pc_cases with hpc | ⟨_, hpc⟩ | ⟨_, hpc⟩ <;>
        simp [hpc]

/-- A thread that is not apart is the one inside. -/
theorem Owned.within {s : SyncThreads τ} (h : Owned s) {me : τ}
    (hme : ¬Apart (s.threads me)) :
    s.sync.ownerThread = some me ∧
      Within (s.threads me) s.sync.lockDepth.toInt ∧
      ∀ thread, thread ≠ me → Apart (s.threads thread) := by
  cases h with
  | nobody _ hapart _ => exact absurd (hapart me) hme
  | holder holder howner hwithin hapart =>
      obtain rfl : me = holder := by
        by_contra hne
        exact hme (hapart me hne)
      exact ⟨howner, hwithin, hapart⟩

/-- A thread that takes or releases the mutex, or writes the owner, has no
section open. -/
theorem Owned.apart_of_pc {s : SyncThreads τ} (h : Owned s) {me : τ}
    {pc : SyncPc} (hpc : (s.threads me).pc = pc)
    (hne : pc ≠ .idle ∧ (∀ inType, pc ≠ .wantDepth inType) ∧
      ∀ leaving, pc ≠ .decrement leaving) : Apart (s.threads me) := by
  by_contra hme
  rcases (h.within hme).2.1.pc_cases with hidle | ⟨inType, hdepth⟩ |
    ⟨leaving, hdecrement⟩
  · exact hne.1 (hpc ▸ hidle)
  · exact hne.2.1 inType (hpc ▸ hdepth)
  · exact hne.2.2 leaving (hpc ▸ hdecrement)

/-- If all other threads have no section open and this one neither, nobody is
inside. -/
theorem Owned.apart {s : SyncThreads τ} (h : Owned s) {me : τ}
    (hme : Apart (s.threads me))
    (hfree : ∀ other, other ≠ me → (s.threads other).sections = []) :
    s.sync.lockDepth.toInt = 0 ∧ ∀ thread, Apart (s.threads thread) := by
  cases h with
  | nobody hdepth hapart _ => exact ⟨hdepth, hapart⟩
  | holder holder _ hwithin _ =>
      have hne : holder ≠ me := by
        rintro rfl
        exact hwithin.not_apart hme
      exact absurd (hfree holder hne) hwithin.sections_ne_nil

/-- An idle thread is the owner only if it is inside. -/
theorem Owned.not_owner {s : SyncThreads τ} (h : Owned s) {me : τ}
    (hme : Apart (s.threads me)) (hpc : (s.threads me).pc = .idle) :
    s.sync.ownerThread ≠ some me := by
  cases h with
  | nobody _ _ howner => exact fun heq => howner me heq hpc
  | holder holder howner hwithin _ =>
      intro heq
      rw [howner, Option.some.injEq] at heq
      exact hwithin.not_apart (heq ▸ hme)

variable [DecidableEq τ]

/-- A step of a thread apart that leaves owner and depth alone. -/
theorem Owned.step_apart {s : SyncThreads τ} (h : Owned s) {me : τ}
    {sync : SyncSection τ} {thread : SyncThread}
    (hme : Apart (s.threads me)) (hthread : Apart thread)
    (hpc : thread.pc ≠ .idle)
    (howner : sync.ownerThread = s.sync.ownerThread)
    (hdepth : sync.lockDepth = s.sync.lockDepth) :
    Owned (s.after me sync thread) := by
  have hafter : ∀ other, Apart (s.threads other) →
      Apart ((s.after me sync thread).threads other) :=
    fun other hother => of_after (fun _ => hthread) fun _ => hother
  cases h with
  | nobody hzero hapart hidle =>
      refine Owned.nobody ?_ (fun other => hafter other (hapart other)) ?_
      · rwa [after_sync, hdepth]
      · intro other hother
        rw [after_sync, howner] at hother
        exact @of_after τ _ (fun thread => thread.pc ≠ .idle) _ _ _ _ _
          (fun _ => hpc) fun _ => hidle other hother
  | holder holder hholder hwithin hapart =>
      have hne : holder ≠ me := by
        rintro rfl
        exact hwithin.not_apart hme
      refine Owned.holder holder (howner.trans hholder) ?_ ?_
      · rwa [after_sync, hdepth, after_threads_of_ne s sync thread hne]
      · exact fun other hother => hafter other (hapart other hother)

/-- A step after which `me` is inside. -/
theorem Owned.step_within {s : SyncThreads τ} {me : τ} {sync : SyncSection τ}
    {thread : SyncThread}
    (hapart : ∀ other, other ≠ me → Apart (s.threads other))
    (howner : sync.ownerThread = some me)
    (hwithin : Within thread sync.lockDepth.toInt) :
    Owned (s.after me sync thread) := by
  refine Owned.holder me howner ?_ ?_
  · simpa using hwithin
  · intro other hother
    rw [after_threads_of_ne s sync thread hother]
    exact hapart other hother

/-- A step after which nobody is inside. -/
theorem Owned.step_nobody {s : SyncThreads τ} {me : τ} {sync : SyncSection τ}
    {thread : SyncThread}
    (hapart : ∀ other, other ≠ me → Apart (s.threads other))
    (hthread : Apart thread) (hdepth : sync.lockDepth.toInt = 0)
    (howner : ∀ other, sync.ownerThread = some other →
      other = me ∧ thread.pc ≠ .idle) :
    Owned (s.after me sync thread) := by
  refine Owned.nobody hdepth ?_ ?_
  · exact fun other => of_after (fun _ => hthread) (hapart other)
  · intro other hother
    obtain ⟨rfl, hpc⟩ := howner other hother
    simpa using hpc

theorem Owned.enter {s s' : SyncThreads τ} {me : τ} {inType : SyncType}
    (h : Owned s) (hstep : s.step (.enter me inType) = some s') :
    Owned s' := by
  simp only [step] at hstep
  split at hstep
  · next hpc =>
    obtain rfl := Option.some.inj hstep
    by_cases hme : Apart (s.threads me)
    · rw [if_neg (h.not_owner hme hpc)]
      exact h.step_apart hme (hme.enter inType) (by simp) rfl rfl
    · obtain ⟨howner, hwithin, hapart⟩ := h.within hme
      rw [if_pos howner]
      exact Owned.step_within hapart howner (hwithin.enter hpc inType)
  · cases hstep

theorem Owned.leave {s s' : SyncThreads τ} {me : τ} (h : Owned s)
    (hstep : s.step (.leave me) = some s') : Owned s' := by
  simp only [step] at hstep
  split at hstep
  · next leaving rest hpc hsections =>
    obtain rfl := Option.some.inj hstep
    have hme : ¬Apart (s.threads me) := by
      intro hme
      rw [hme.sections_eq_nil] at hsections
      cases hsections
    obtain ⟨howner, hwithin, hapart⟩ := h.within hme
    rcases hwithin.leave hpc hsections with ⟨hpos, hnext⟩ | ⟨hzero, rfl⟩
    · rw [if_pos (lockDepth_pos_iff.mpr hpos)]
      exact Owned.step_within hapart howner hnext
    · rw [if_neg (by rw [lockDepth_pos_iff, hzero]; simp)]
      refine Owned.step_nobody hapart (Apart.unlock leaving) hzero ?_
      intro other hother
      rw [howner] at hother
      exact ⟨(Option.some.inj hother).symm, by simp⟩
  · cases hstep

theorem Owned.advance {s s' : SyncThreads τ} {me : τ} (h : Owned s)
    (hfree : s.OwnerFree (.advance me)) (hfits : s.DepthFits (.advance me))
    (hstep : s.step (.advance me) = some s') : Owned s' := by
  simp only [step, SyncThreads.advance] at hstep
  split at hstep
  · cases hstep
  · next inType hpc =>
    obtain rfl := Option.some.inj hstep
    have hme : ¬Apart (s.threads me) := by
      intro hme
      have := hme.not_counting
      rw [hpc] at this
      cases this
    obtain ⟨howner, hwithin, hapart⟩ := h.within hme
    have hmax : s.sync.lockDepth ≠ Int32.maxValue := hfits (by rw [hpc]; rfl)
    have hnext := hwithin.fetch_add hpc
    rw [← toInt_fetch_add hmax] at hnext
    exact Owned.step_within hapart howner hnext
  · next inType hpc =>
    obtain ⟨mutex, -, rfl⟩ := Option.map_eq_some_iff.mp hstep
    have hme := h.apart_of_pc hpc (by simp)
    exact h.step_apart hme (hme.acquired inType) (by simp) rfl rfl
  · next inType hpc =>
    obtain rfl := Option.some.inj hstep
    have hme := h.apart_of_pc hpc (by simp)
    obtain ⟨hzero, hapart⟩ := h.apart hme (hfree (by rw [hpc]; rfl))
    have hnext := hme.own inType
    rw [← hzero] at hnext
    exact Owned.step_within (fun other _ => hapart other) rfl hnext
  · next leaving hpc =>
    obtain rfl := Option.some.inj hstep
    have hme : ¬Apart (s.threads me) := fun hme =>
      hme.not_decrement leaving hpc
    obtain ⟨howner, hwithin, hapart⟩ := h.within hme
    obtain ⟨hpos, hnext⟩ := hwithin.fetch_sub hpc
    rw [← toInt_fetch_sub (lockDepth_pos_iff.mpr hpos)] at hnext
    exact Owned.step_within hapart howner hnext
  · next leaving hpc =>
    obtain ⟨mutex, -, rfl⟩ := Option.map_eq_some_iff.mp hstep
    have hme := h.apart_of_pc hpc (by simp)
    exact h.step_apart hme hme.released (by simp) rfl rfl
  · next hpc =>
    obtain rfl := Option.some.inj hstep
    have hme := h.apart_of_pc hpc (by simp)
    obtain ⟨hzero, hapart⟩ := h.apart hme (hfree (by rw [hpc]; rfl))
    refine Owned.step_nobody (fun other _ => hapart other) hme.cleared hzero ?_
    intro other hother
    cases hother

theorem Owned.step {s s' : SyncThreads τ} {l : SyncStep τ} (h : Owned s)
    (hfree : s.OwnerFree l) (hfits : s.DepthFits l)
    (hstep : s.step l = some s') : Owned s' := by
  cases l with
  | enter me inType => exact h.enter hstep
  | leave me => exact h.leave hstep
  | advance me => exact h.advance hfree hfits hstep

/-- A write of the owner is always made, and leaves no other thread
recognised. -/
theorem ownerFree_of_reentrant {s : SyncThreads τ} {me : τ}
    (hafter : ∀ s', s.step (.advance me) = some s' → s'.Reentrant) :
    s.OwnerFree (.advance me) := by
  intro hwrites other hne
  by_contra hopen
  cases hpc : (s.threads me).pc with
  | setOwner inType =>
      have hstep : s.step (.advance me) =
          some (s.after me { s.sync with ownerThread := some me }
            { pc := .idle
              sections := { inType, counted := false } ::
                (s.threads me).sections }) := by
        simp [SyncThreads.step, SyncThreads.advance, hpc]
      have howner := (hafter _ hstep other (by
        rwa [after_threads_of_ne s _ _ hne])).1
      exact hne (Option.some.inj howner).symm
  | clearOwner =>
      have hstep : s.step (.advance me) =
          some (s.after me { s.sync with ownerThread := none }
            { s.threads me with pc := .idle }) := by
        simp [SyncThreads.step, SyncThreads.advance, hpc]
      have howner := (hafter _ hstep other (by
        rwa [after_threads_of_ne s _ _ hne])).1
      cases howner
  | idle | wantDepth | wantMutex | decrement | unlock =>
      rw [hpc] at hwrites
      cases hwrites

/-- In a run whose writes of the owner are made while no other thread has a
section open, and whose depth does not overflow, a holder may always enter
again; and in every run in which it may, the owner is written in no other
way. -/
theorem reentrant_of_ownerFree (steps : List (SyncStep τ)) :
    (Along step (fun s l => s.OwnerFree l ∧ s.DepthFits l) {} steps →
        ∀ pre post s, steps = pre ++ post → run step {} pre = some s →
          s.Reentrant) ∧
      ((∀ pre post s, steps = pre ++ post → run step {} pre = some s →
          s.Reentrant) →
        Along step OwnerFree {} steps) := by
  constructor
  · intro halong
    have hinit : Owned ({} : SyncThreads τ) :=
      Owned.nobody Int32.toInt_zero (fun _ => Apart.idle) (by simp)
    exact throughout_of_along (fun _ h => Owned.reentrant h)
      (fun _ _ _ h hl => h.step hl.1 hl.2) hinit halong
  · intro hreentrant
    have hthroughout : Throughout step SyncThreads.Reentrant {} steps :=
      hreentrant
    refine hthroughout.along (fun _ _ _ _ _ _ _ => trivial) ?_ trivial
      (along_of_forall fun _ _ _ => trivial)
    intro s l _ _ _ hafter
    cases l with
    | enter => trivial
    | leave => trivial
    | advance me => exact ownerFree_of_reentrant hafter

/-- `false` and `true` both read; the second overwrites the owner, and the
first, still inside, then asks for the mutex it holds. -/
def overlappingReaders : List (SyncStep Bool) :=
  [.enter false .read, .advance false, .advance false,
    .enter true .read, .advance true, .advance true, .enter false .write]

/-- `false` has released the mutex and clears the owner once `true` is
inside. -/
def lateClear : List (SyncStep Bool) :=
  [.enter false .write, .advance false, .advance false, .leave false,
    .advance false, .enter true .write, .advance true, .advance true,
    .advance false]

/-- Neither holder is recognised, and the reader waits for itself. -/
theorem overlappingReaders_not_reentrant :
    (∃ s, run step {} overlappingReaders = some s ∧ ¬s.Reentrant ∧
        (s.threads false).pc = .wantMutex .write ∧
        s.step (.advance false) = none) ∧
      ∃ s, run step {} lateClear = some s ∧ ¬s.Reentrant := by
  constructor
  · refine ⟨_, rfl, fun h => ?_, rfl, rfl⟩
    exact absurd (h false (by decide)).1 (by decide)
  · refine ⟨_, rfl, fun h => ?_⟩
    exact absurd (h true (by decide)).1 (by decide)

/-- A thread that nests a WRITE section in a READ section. -/
def nestedEnter : List (SyncStep Bool) :=
  [.enter false .read, .advance false, .advance false, .enter false .write]

theorem reentrant_of_ownerFree_nestedEnter :
    ∃ s, run step {} nestedEnter = some s ∧ s.Reentrant := by
  have hrun : run step {} nestedEnter = some _ := rfl
  refine ⟨_, hrun, ?_⟩
  exact (reentrant_of_ownerFree nestedEnter).1 (by decide) nestedEnter [] _
    (List.append_nil _).symm hrun

end SyncThreads

end DokeviNet
