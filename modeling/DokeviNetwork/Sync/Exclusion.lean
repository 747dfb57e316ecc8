import DokeviNetwork.Sync.SyncSection
import Mathlib.Data.List.Basic
import Mathlib.Tactic.Ring

/-!
# When a SyncSection excludes writers

As long as no WRITE section is opened by re-entry on a mutex held in shared
mode, the open sections are what the mutex and the depth count: none on a free
mutex, READ sections on a shared one, and the sections of one thread above its
WRITE section on an exclusive one.
-/

namespace DokeviNet

open LabelledRun

namespace SyncSystem

variable {τ : Type*}

/-- The open sections as the mutex, the owner and the depth count them. -/
inductive Accounted : SyncSystem τ → Prop
  | free : Accounted {}
  | shared {others : ℕ} {ownerThread : Option τ} {lockDepth : Int32}
      {opened : List (τ × SyncType)} (hdepth : 0 ≤ lockDepth.toInt)
      (hcount : (opened.length : ℤ) = others + 1 + lockDepth.toInt)
      (hread : ∀ entry ∈ opened, entry.2 = .read) :
      Accounted
        { sync := { mutex := .shared others, ownerThread, lockDepth }
          opened }
  | exclusive {me : τ} {lockDepth : Int32} {nested : List (τ × SyncType)}
      (hcount : (nested.length : ℤ) = lockDepth.toInt)
      (hown : ∀ entry ∈ nested, entry.1 = me) :
      Accounted
        { sync := { mutex := .exclusive, ownerThread := some me, lockDepth }
          opened := nested ++ [(me, .write)] }

theorem owner_of_nested {me : τ} {nested : List (τ × SyncType)}
    (hown : ∀ entry ∈ nested, entry.1 = me) {entry : τ × SyncType}
    (hmem : entry ∈ nested ++ [(me, .write)]) : entry.1 = me := by
  rcases List.mem_append.mp hmem with hnested | hbottom
  · exact hown entry hnested
  · rw [List.mem_singleton.mp hbottom]

theorem Accounted.excludes {s : SyncSystem τ} (h : Accounted s) :
    s.Excludes := by
  intro opened hopened hwrite other hother
  cases h with
  | free => simp at hopened
  | shared _ _ hread =>
      rw [hread opened hopened] at hwrite
      cases hwrite
  | exclusive _ hown =>
      rw [owner_of_nested hown hopened, owner_of_nested hown hother]

/-! ## What each effect does to the count -/

theorem Accounted.reenter {s : SyncSystem τ} {me : τ} {inType : SyncType}
    (h : Accounted s) (howner : s.sync.ownerThread = some me)
    (hwrite : inType = .write → s.sync.mutex = .exclusive)
    (hmax : s.sync.lockDepth ≠ Int32.maxValue) :
    Accounted
      { sync := { s.sync with lockDepth := s.sync.lockDepth + 1 }
        opened := (me, inType) :: s.opened } := by
  have hadd := toInt_fetch_add hmax
  cases h with
  | free => cases howner
  | shared hdepth hcount hread =>
      have hnew : inType = .read := by
        cases inType with
        | read => rfl
        | write => cases hwrite rfl
      refine Accounted.shared ?_ ?_ ?_
      · rw [hadd]
        exact Int.add_nonneg hdepth (by decide)
      · rw [hadd, List.length_cons]
        push_cast
        omega
      · intro entry hentry
        rcases List.mem_cons.mp hentry with rfl | hold
        · exact hnew
        · exact hread entry hold
  | exclusive hcount hown =>
      obtain rfl := Option.some.inj howner
      refine @Accounted.exclusive τ _ _ (_ :: _) ?_ ?_
      · rw [hadd, List.length_cons]
        push_cast
        omega
      · intro entry hentry
        rcases List.mem_cons.mp hentry with rfl | hold
        · rfl
        · exact hown entry hold

theorem Accounted.acquire {s : SyncSystem τ} {me : τ} {inType : SyncType}
    {mutex : SharedMutex} (h : Accounted s)
    (hacquire : s.sync.mutex.acquire inType = some mutex) :
    Accounted
      { sync := { s.sync with mutex := mutex, ownerThread := some me }
        opened := (me, inType) :: s.opened } := by
  cases h with
  | free =>
      cases inType with
      | read =>
          obtain rfl := Option.some.inj hacquire
          refine Accounted.shared (by simp) (by simp) ?_
          intro entry hentry
          rw [List.mem_singleton.mp hentry]
      | write =>
          obtain rfl := Option.some.inj hacquire
          exact @Accounted.exclusive τ _ _ [] (by simp) (by simp)
  | shared hdepth hcount hread =>
      cases inType with
      | read =>
          obtain rfl := Option.some.inj hacquire
          refine Accounted.shared hdepth ?_ ?_
          · rw [List.length_cons]
            push_cast
            omega
          · intro entry hentry
            rcases List.mem_cons.mp hentry with rfl | hold
            · rfl
            · exact hread entry hold
      | write => simp at hacquire
  | exclusive _ _ => simp at hacquire

variable [DecidableEq τ]

theorem innermost_mem {s : SyncSystem τ} {me : τ} {newest : τ × SyncType}
    (hnewest : s.innermost me = some newest) :
    newest ∈ s.opened ∧ newest.1 = me := by
  refine ⟨List.mem_of_find?_eq_some hnewest, ?_⟩
  simpa using List.find?_some hnewest

theorem length_remaining {s : SyncSystem τ} {me : τ} {newest : τ × SyncType}
    (hnewest : s.innermost me = some newest) :
    (s.remaining me).length + 1 = s.opened.length := by
  obtain ⟨hmem, hme⟩ := innermost_mem hnewest
  rw [remaining, List.length_eraseP_of_mem hmem (by simpa using hme)]
  have hpos := List.length_pos_of_mem hmem
  omega

theorem mem_of_mem_remaining {s : SyncSystem τ} {me : τ} {entry : τ × SyncType}
    (hmem : entry ∈ s.remaining me) : entry ∈ s.opened :=
  List.mem_of_mem_eraseP hmem

theorem Accounted.decrement {s : SyncSystem τ} {me : τ} {newest : τ × SyncType}
    (h : Accounted s) (hnewest : s.innermost me = some newest)
    (hpos : 0 < s.sync.lockDepth) :
    Accounted
      { sync := { s.sync with lockDepth := s.sync.lockDepth - 1 }
        opened := s.remaining me } := by
  have hlength := length_remaining hnewest
  have hsub := toInt_fetch_sub hpos
  have hpos' := lockDepth_pos_iff.mp hpos
  cases h with
  | free => simp at hpos'
  | shared hdepth hcount hread =>
      refine Accounted.shared ?_ ?_ ?_
      · rw [hsub]
        omega
      · rw [hsub]
        dsimp only at hlength ⊢
        omega
      · intro entry hentry
        exact hread entry (mem_of_mem_remaining hentry)
  | @exclusive holder lockDepth nested hcount hown =>
      cases nested with
      | nil => simp [← hcount] at hpos'
      | cons top nested =>
          obtain ⟨hmem, hme⟩ := innermost_mem hnewest
          have hholder : holder = me := by
            rw [← owner_of_nested hown hmem, hme]
          have htop : top.1 = me := by
            rw [hown top (by simp), hholder]
          have hremaining :
              (top :: nested ++ [(holder, SyncType.write)]).eraseP
                (fun opened => opened.1 = me) =
              nested ++ [(holder, .write)] := by
            simp [htop]
          unfold remaining
          rw [hremaining]
          refine Accounted.exclusive ?_ ?_
          · rw [hsub, ← hcount, List.length_cons]
            push_cast
            ring
          · intro entry hentry
            exact hown entry (by simp [hentry])

theorem Accounted.release {s : SyncSystem τ} {me : τ} {newest : τ × SyncType}
    {mutex : SharedMutex} (h : Accounted s)
    (hnewest : s.innermost me = some newest)
    (hdepth : ¬ 0 < s.sync.lockDepth)
    (hrelease : s.sync.mutex.release newest.2 = some mutex) :
    Accounted
      { sync := { s.sync with mutex := mutex, ownerThread := none }
        opened := s.remaining me } := by
  obtain ⟨hmem, hme⟩ := innermost_mem hnewest
  have hlength := length_remaining hnewest
  have hlast : s.opened.length = 1 → s.remaining me = [] := by
    intro hone
    exact List.eq_nil_of_length_eq_zero (by omega)
  have hmem_remaining {entry : τ × SyncType} (h : entry ∈ s.remaining me) :=
    mem_of_mem_remaining h
  have hzero : s.sync.lockDepth.toInt = 0 → s.sync.lockDepth = 0 := by
    intro h
    rw [← Int32.toInt_inj, h, Int32.toInt_zero]
  rw [lockDepth_pos_iff] at hdepth
  generalize s.remaining me = remaining at *
  cases h with
  | free => simp at hmem
  | @shared others ownerThread lockDepth opened hnonneg hcount hread =>
      rw [hread newest hmem] at hrelease
      dsimp only at *
      cases others with
      | zero =>
          obtain rfl := Option.some.inj hrelease
          rw [hlast (by omega), hzero (by omega)]
          exact Accounted.free
      | succ others =>
          obtain rfl := Option.some.inj hrelease
          refine Accounted.shared hnonneg (by omega) ?_
          intro entry hentry
          exact hread entry (hmem_remaining hentry)
  | @exclusive holder lockDepth nested hcount hown =>
      dsimp only at *
      -- the depth is zero, so this is the `Leave` of the WRITE section
      have hnil : nested = [] := List.eq_nil_of_length_eq_zero (by omega)
      subst hnil
      obtain rfl : newest = (holder, .write) := by simpa using hmem
      obtain rfl := Option.some.inj hrelease
      rw [hlast rfl, hzero hcount.symm]
      exact Accounted.free

theorem Accounted.unlocksHeld {s : SyncSystem τ} (h : Accounted s) :
    s.UnlocksHeld := by
  intro me newest hnewest hdepth
  obtain ⟨hmem, hme⟩ := innermost_mem hnewest
  cases h with
  | free => simp at hmem
  | @shared others _ _ _ _ _ hread =>
      rw [hread newest hmem]
      exact SharedMutex.release_shared_isSome others
  | @exclusive _ _ nested hcount _ =>
      rw [lockDepth_pos_iff, ← hcount] at hdepth
      have hnil : nested = [] := List.eq_nil_of_length_eq_zero (by omega)
      subst hnil
      rw [List.mem_singleton.mp hmem]
      rfl

/-- A counted call keeps the count. -/
theorem Accounted.step {s s' : SyncSystem τ} {call : SyncCall τ}
    (h : Accounted s) (hcounted : s.Counted call)
    (hstep : s.step call = some s') : Accounted s' := by
  cases effect_of_step hstep with
  | reenter howner =>
      obtain ⟨hwrite, hmax⟩ := hcounted howner
      exact h.reenter howner hwrite hmax
  | acquire _ hacquire => exact h.acquire hacquire
  | decrement hnewest hdepth => exact h.decrement hnewest hdepth
  | release hnewest hdepth hrelease =>
      exact h.release hnewest hdepth hrelease

/-- In a run of properly nested calls that opens no WRITE section by re-entry
on a shared mutex, writers are excluded and no mutex is released in a mode it
is not held in. -/
theorem excludes_of_run {s : SyncSystem τ} {calls : List (SyncCall τ)}
    (halong : Along step Counted {} calls)
    (hrun : run step {} calls = some s) : s.Excludes ∧ s.UnlocksHeld := by
  have haccounted : Accounted s :=
    invariant_of_along (fun _ _ _ h hcounted => h.step hcounted)
      Accounted.free halong hrun
  exact ⟨haccounted.excludes, haccounted.unlocksHeld⟩

/-- One writer with a nested READ section, and a reader that comes after it. -/
theorem excludes_of_run_nestedRead :
    ∃ s : SyncSystem Bool, s.Excludes ∧ s.UnlocksHeld ∧
      s.opened = [(true, .read)] := by
  have hrun : run step ({} : SyncSystem Bool)
      [.enter false .write, .enter false .read, .leave false, .leave false,
        .enter true .read] =
      some
        { sync := { mutex := .shared 0, ownerThread := some true }
          opened := [(true, .read)] } := by decide
  obtain ⟨hexcludes, hheld⟩ := excludes_of_run (by decide) hrun
  exact ⟨_, hexcludes, hheld, rfl⟩

/-- No thread opens a WRITE section inside a READ section of its own. -/
def UpgradesNot (s : SyncSystem τ) : SyncCall τ → Prop
  | .enter me inType => inType = .write → (me, .read) ∉ s.opened
  | .leave _ => True

instance (s : SyncSystem τ) : ∀ call, Decidable (s.UpgradesNot call)
  | .enter me inType =>
      inferInstanceAs (Decidable (inType = .write → (me, .read) ∉ s.opened))
  | .leave _ => inferInstanceAs (Decidable True)

/-- `false` reads inside a READ section, `true` reads and leaves, which counts
down the depth of `false`; `true` stays the owner and its next WRITE section
does not reach the mutex. -/
theorem staleOwner_writes_beside_reader :
    ¬ ∀ (calls : List (SyncCall Bool)) (s : SyncSystem Bool),
      Along step UpgradesNot {} calls → run step {} calls = some s →
        s.Excludes ∧ s.UnlocksHeld := by
  intro h
  have hrun : run step ({} : SyncSystem Bool)
      [.enter false .read, .enter false .read, .enter true .read,
        .leave true, .enter true .write] =
      some
        { sync :=
            { mutex := .shared 1, ownerThread := some true, lockDepth := 1 }
          opened := [(true, .write), (false, .read), (false, .read)] } := by
    decide
  exact absurd (h _ _ (by decide) hrun).1 (by decide)

/-- The condition is needed: a WRITE section opened by re-entry on a shared
mutex does not keep a second thread out. -/
theorem reader_joins_upgrade {s : SyncSystem τ} {me other : τ} {others : ℕ}
    (hne : other ≠ me) (howner : s.sync.ownerThread = some me)
    (hmutex : s.sync.mutex = .shared others) :
    ∃ s', run step s [.enter me .write, .enter other .read] = some s' ∧
      ¬ s'.Excludes := by
  have hupgrade : step s (.enter me .write) = some
      { sync := { s.sync with lockDepth := s.sync.lockDepth + 1 }
        opened := (me, .write) :: s.opened } := by
    simp [step, SyncSection.enter, howner]
  refine ⟨{ sync :=
              { s.sync with
                mutex := .shared (others + 1)
                ownerThread := some other
                lockDepth := s.sync.lockDepth + 1 }
            opened := (other, .read) :: (me, .write) :: s.opened }, ?_, ?_⟩
  · rw [run_cons, hupgrade]
    simp [step, SyncSection.enter, howner, hmutex, SharedMutex.acquire,
      hne.symm]
  · intro hexcludes
    exact hne (hexcludes (me, .write) (by simp) rfl (other, .read) (by simp))

end SyncSystem

end DokeviNet
