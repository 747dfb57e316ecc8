import Mathlib.Data.List.Basic
import Mathlib.Data.List.Induction

/-!
# Finite runs of partial labelled steps

A step function takes a state and a label and either returns the next state or
gets stuck.  This module collects what every later run argument uses: running
a list of labels, a property required of each step of a run, and the
rules that carry an invariant along a run.  Nothing here mentions a particular
program.
-/

namespace LabelledRun

variable {σ ι : Type*}

/-- Take the steps labelled `ls` in order; `none` once one of them is stuck. -/
def run (step : σ → ι → Option σ) (s : σ) (ls : List ι) : Option σ :=
  ls.foldlM step s

@[simp] theorem run_nil (step : σ → ι → Option σ) (s : σ) :
    run step s [] = some s := rfl

@[simp] theorem run_cons (step : σ → ι → Option σ) (s : σ) (l : ι)
    (ls : List ι) :
    run step s (l :: ls) = (step s l).bind fun s' => run step s' ls := rfl

theorem run_append (step : σ → ι → Option σ) (s : σ) (ls ms : List ι) :
    run step s (ls ++ ms) =
      (run step s ls).bind fun s' => run step s' ms := by
  simp only [run, List.foldlM_append]
  rfl

/-- Every prefix of a run that reaches a state reaches one as well. -/
theorem exists_run_of_prefix {step : σ → ι → Option σ} {s t : σ}
    {ls ms : List ι} (hrun : run step s (ls ++ ms) = some t) :
    ∃ s', run step s ls = some s' ∧ run step s' ms = some t := by
  rw [run_append] at hrun
  exact Option.bind_eq_some_iff.mp hrun

/-- Steps that are never stuck make runs that are not. -/
theorem exists_run {step : σ → ι → Option σ}
    (hstep : ∀ s l, ∃ s', step s l = some s') (s : σ) (ls : List ι) :
    ∃ t, run step s ls = some t := by
  induction ls generalizing s with
  | nil => exact ⟨s, rfl⟩
  | cons l ls ih =>
      obtain ⟨s', hs'⟩ := hstep s l
      obtain ⟨t, ht⟩ := ih s'
      exact ⟨t, by simp [hs', ht]⟩

/-- `φ` holds of the state before each step of the run and of its label. -/
def Along (step : σ → ι → Option σ) (φ : σ → ι → Prop) : σ → List ι → Prop
  | _, [] => True
  | s, l :: ls => φ s l ∧ ∀ s', step s l = some s' → Along step φ s' ls

@[simp] theorem along_nil (step : σ → ι → Option σ) (φ : σ → ι → Prop) (s : σ) :
    Along step φ s [] := trivial

theorem along_cons {step : σ → ι → Option σ} {φ : σ → ι → Prop} {s : σ}
    {l : ι} {ls : List ι} :
    Along step φ s (l :: ls) ↔
      φ s l ∧ ∀ s', step s l = some s' → Along step φ s' ls := Iff.rfl

theorem along_cons_of_step {step : σ → ι → Option σ} {φ : σ → ι → Prop}
    {s s' : σ} {l : ι} {ls : List ι} (hstep : step s l = some s') :
    Along step φ s (l :: ls) ↔ φ s l ∧ Along step φ s' ls := by
  rw [along_cons]
  refine and_congr_right fun _ => ⟨fun h => h s' hstep, ?_⟩
  intro h t ht
  rw [hstep, Option.some.injEq] at ht
  exact ht ▸ h

instance decidableAlong (step : σ → ι → Option σ) (φ : σ → ι → Prop)
    [∀ s l, Decidable (φ s l)] :
    ∀ s ls, Decidable (Along step φ s ls)
  | _, [] => isTrue trivial
  | s, l :: ls =>
    match h : step s l with
    | none => decidable_of_iff (φ s l) (by simp [along_cons, h])
    | some s' =>
      have := decidableAlong step φ s' ls
      decidable_of_iff (φ s l ∧ Along step φ s' ls)
        (along_cons_of_step h).symm

theorem Along.append {step : σ → ι → Option σ} {φ : σ → ι → Prop} {s : σ}
    {ls ms : List ι} :
    Along step φ s (ls ++ ms) ↔
      Along step φ s ls ∧
        ∀ s', run step s ls = some s' → Along step φ s' ms := by
  induction ls generalizing s with
  | nil => simp
  | cons l ls ih =>
      simp only [List.cons_append, along_cons, run_cons, ih]
      constructor
      · rintro ⟨hφ, hrest⟩
        refine ⟨⟨hφ, fun s' hs' => (hrest s' hs').1⟩, ?_⟩
        intro t ht
        obtain ⟨s', hs', hrun⟩ := Option.bind_eq_some_iff.mp ht
        exact (hrest s' hs').2 t hrun
      · rintro ⟨⟨hφ, hls⟩, hms⟩
        refine ⟨hφ, fun s' hs' => ⟨hls s' hs', ?_⟩⟩
        intro t ht
        exact hms t (by simp [hs', ht])

/-- The step taken after any prefix of the run meets `φ`. -/
theorem Along.at_step {step : σ → ι → Option σ} {φ : σ → ι → Prop} {s s' : σ}
    {ls ms : List ι} {l : ι} (h : Along step φ s (ls ++ l :: ms))
    (hrun : run step s ls = some s') : φ s' l :=
  ((Along.append.mp h).2 s' hrun).1

theorem Along.mono {step : σ → ι → Option σ} {φ ψ : σ → ι → Prop} {s : σ}
    {ls : List ι} (h : Along step φ s ls) (himp : ∀ s l, φ s l → ψ s l) :
    Along step ψ s ls := by
  induction ls generalizing s with
  | nil => trivial
  | cons l ls ih => exact ⟨himp s l h.1, fun s' hs' => ih (h.2 s' hs')⟩

/-- What holds of the labels of a run in every state holds along it. -/
theorem along_of_forall {step : σ → ι → Option σ} {φ : σ → ι → Prop} {s : σ}
    {ls : List ι} (h : ∀ l ∈ ls, ∀ s, φ s l) : Along step φ s ls := by
  induction ls generalizing s with
  | nil => trivial
  | cons l ls ih =>
      refine ⟨h l (by simp) s, fun s' _ => ih ?_⟩
      intro l' hl'
      exact h l' (by simp [hl'])

/-- In a run that is not stuck, what holds along it of the labels holds of each
of them. -/
theorem Along.forall_mem {step : σ → ι → Option σ} {P : ι → Prop} {s t : σ}
    {ls : List ι} (h : Along step (fun _ l => P l) s ls)
    (hrun : run step s ls = some t) : ∀ l ∈ ls, P l := by
  induction ls generalizing s with
  | nil => simp
  | cons l ls ih =>
      obtain ⟨s', hstep, hrest⟩ := Option.bind_eq_some_iff.mp hrun
      intro l' hl'
      rcases List.mem_cons.mp hl' with rfl | hl'
      · exact h.1
      · exact ih (h.2 s' hstep) hrest l' hl'

/-- A run that is not stuck makes each of its steps. -/
theorem along_isSome {step : σ → ι → Option σ} {s t : σ} {ls : List ι}
    (hrun : run step s ls = some t) :
    Along step (fun s l => (step s l).isSome) s ls := by
  induction ls generalizing s with
  | nil => trivial
  | cons l ls ih =>
      obtain ⟨s', hstep, hrest⟩ := Option.bind_eq_some_iff.mp hrun
      exact (along_cons_of_step hstep).mpr
        ⟨Option.isSome_of_eq_some hstep, ih hrest⟩

theorem Along.and {step : σ → ι → Option σ} {φ ψ : σ → ι → Prop} {s : σ}
    {ls : List ι} (hφ : Along step φ s ls) (hψ : Along step ψ s ls) :
    Along step (fun s l => φ s l ∧ ψ s l) s ls := by
  induction ls generalizing s with
  | nil => trivial
  | cons l ls ih =>
      exact ⟨⟨hφ.1, hψ.1⟩, fun s' hs' => ih (hφ.2 s' hs') (hψ.2 s' hs')⟩

/-! ## Invariants along runs -/

theorem history_of_along_from {step : σ → ι → Option σ} {φ : σ → ι → Prop}
    {Inv : List ι → σ → Prop}
    (hkeep : ∀ past s l s', Inv past s → φ s l → step s l = some s' →
      Inv (past ++ [l]) s')
    {past : List ι} {s t : σ} {ls : List ι} (hinit : Inv past s)
    (halong : Along step φ s ls) (hrun : run step s ls = some t) :
    Inv (past ++ ls) t := by
  induction ls generalizing past s with
  | nil => simpa using (Option.some.inj hrun) ▸ hinit
  | cons l ls ih =>
      obtain ⟨s', hstep, hrest⟩ := Option.bind_eq_some_iff.mp hrun
      have hnext := hkeep past s l s' hinit halong.1 hstep
      simpa using ih hnext (halong.2 s' hstep) hrest

/-- An invariant of the state and of the labels seen so far, kept by every step
that meets `φ`, holds after the run. -/
theorem history_of_along {step : σ → ι → Option σ} {φ : σ → ι → Prop}
    {Inv : List ι → σ → Prop}
    (hkeep : ∀ past s l s', Inv past s → φ s l → step s l = some s' →
      Inv (past ++ [l]) s')
    {s t : σ} {ls : List ι} (hinit : Inv [] s)
    (halong : Along step φ s ls) (hrun : run step s ls = some t) :
    Inv ls t :=
  history_of_along_from hkeep hinit halong hrun

/-- The same rule for an invariant that does not look at the labels. -/
theorem invariant_of_along {step : σ → ι → Option σ} {φ : σ → ι → Prop}
    {Inv : σ → Prop}
    (hkeep : ∀ s l s', Inv s → φ s l → step s l = some s' → Inv s')
    {s t : σ} {ls : List ι} (hinit : Inv s)
    (halong : Along step φ s ls) (hrun : run step s ls = some t) : Inv t :=
  @history_of_along σ ι step φ (fun _ => Inv) (fun _ => hkeep) s t ls
    hinit halong hrun

/-- Under an invariant, what one step guarantees holds along the whole run. -/
theorem along_of_invariant {step : σ → ι → Option σ} {φ ψ : σ → ι → Prop}
    {Inv : σ → Prop}
    (hkeep : ∀ s l s', Inv s → φ s l → step s l = some s' → Inv s')
    (himp : ∀ s l, Inv s → φ s l → ψ s l)
    {s : σ} {ls : List ι} (hinit : Inv s) (halong : Along step φ s ls) :
    Along step ψ s ls := by
  induction ls generalizing s with
  | nil => trivial
  | cons l ls ih =>
      refine ⟨himp s l hinit halong.1, ?_⟩
      intro s' hs'
      exact ih (hkeep s l s' hinit halong.1 hs') (halong.2 s' hs')

/-- Under an invariant that the steps with `φ` keep, two properties that agree
hold along the same runs. -/
theorem along_congr {step : σ → ι → Option σ} {φ ψ : σ → ι → Prop}
    {Inv : σ → Prop}
    (hkeep : ∀ s l s', Inv s → φ s l → step s l = some s' → Inv s')
    (hiff : ∀ s l, Inv s → (ψ s l ↔ φ s l))
    {s : σ} {ls : List ι} (hinit : Inv s) :
    Along step ψ s ls ↔ Along step φ s ls := by
  induction ls generalizing s with
  | nil => exact Iff.rfl
  | cons l ls ih =>
      rw [along_cons, along_cons, hiff s l hinit]
      refine and_congr_right fun hφ => forall_congr' fun s' => ?_
      exact imp_congr_right fun hs' => ih (hkeep s l s' hinit hφ hs')

/-- To establish `φ` along a run it suffices to establish it for each step
from what it gives for the steps before. -/
theorem along_of_prefixes {step : σ → ι → Option σ} {φ : σ → ι → Prop} {s : σ}
    {ls : List ι}
    (h : ∀ pre l post s', ls = pre ++ l :: post → Along step φ s pre →
      run step s pre = some s' → φ s' l) : Along step φ s ls := by
  induction ls using List.reverseRecOn with
  | nil => trivial
  | append_singleton ls l ih =>
      have hls : Along step φ s ls := by
        apply ih
        intro pre l' post s' heq hpre hrun
        exact h pre l' (post ++ [l]) s' (by simp [heq]) hpre hrun
      refine Along.append.mpr ⟨hls, fun s' hrun => ⟨?_, fun _ _ => trivial⟩⟩
      exact h ls l [] s' (by simp) hls hrun

/-- An invariant of the state and of the labels seen so far that every step
keeps holds after the run. -/
theorem history_of_run {step : σ → ι → Option σ} {Inv : List ι → σ → Prop}
    (hkeep : ∀ past s l s', Inv past s → step s l = some s' →
      Inv (past ++ [l]) s')
    {s t : σ} {ls : List ι} (hinit : Inv [] s)
    (hrun : run step s ls = some t) : Inv ls t := by
  have halong : Along step (fun _ _ => True) s ls :=
    along_of_forall fun _ _ _ => trivial
  exact history_of_along (fun past s l s' h _ => hkeep past s l s' h) hinit
    halong hrun

/-! ## Properties of every state of a run -/

section

variable {step : σ → ι → Option σ} {P Inv : σ → Prop} {φ ψ : σ → ι → Prop}
  {s s' t : σ} {l : ι} {ls : List ι}

/-- `P` holds of every state of the run, of the first and the last as well. -/
def Throughout (step : σ → ι → Option σ) (P : σ → Prop) (s : σ)
    (ls : List ι) : Prop :=
  ∀ pre post t, ls = pre ++ post → run step s pre = some t → P t

theorem Throughout.first (h : Throughout step P s ls) : P s :=
  h [] ls s rfl rfl

theorem throughout_cons (hstep : step s l = some s') :
    Throughout step P s (l :: ls) ↔ P s ∧ Throughout step P s' ls := by
  constructor
  · intro h
    refine ⟨h.first, ?_⟩
    rintro pre post t rfl hrun
    exact h (l :: pre) post t rfl (by simpa [hstep] using hrun)
  · rintro ⟨hfirst, hrest⟩ pre post t heq hrun
    cases pre with
    | nil => exact Option.some.inj hrun ▸ hfirst
    | cons l' pre =>
        obtain ⟨rfl, hls⟩ := List.cons_eq_cons.mp heq
        refine hrest pre post t hls ?_
        simpa [hstep] using hrun

/-- What implies `P` and is kept by the steps that meet `φ` makes `P` hold
throughout the runs along which `φ` does. -/
theorem throughout_of_along (himp : ∀ s, Inv s → P s)
    (hkeep : ∀ s l s', Inv s → φ s l → step s l = some s' → Inv s')
    (hinit : Inv s) (halong : Along step φ s ls) :
    Throughout step P s ls := by
  rintro pre post t rfl hrun
  exact himp t
    (invariant_of_along hkeep hinit (Along.append.mp halong).1 hrun)

/-- If `P` holds throughout a run, then along it holds what each step needs for
`P` to hold after it. -/
theorem Throughout.along (h : Throughout step P s ls)
    (hkeep : ∀ s l s', Inv s → ψ s l → φ s l → step s l = some s' → Inv s')
    (hneed : ∀ s l, Inv s → P s → ψ s l →
      (∀ s', step s l = some s' → P s') → φ s l)
    (hinit : Inv s) (hψ : Along step ψ s ls) : Along step φ s ls := by
  induction ls generalizing s with
  | nil => trivial
  | cons l ls ih =>
      have hrest : ∀ s', step s l = some s' → Throughout step P s' ls :=
        fun s' hstep => ((throughout_cons hstep).mp h).2
      have hφ : φ s l :=
        hneed s l hinit h.first hψ.1 fun s' hstep => (hrest s' hstep).first
      refine ⟨hφ, fun s' hstep => ?_⟩
      exact ih (hrest s' hstep) (hkeep s l s' hinit hψ.1 hφ hstep)
        (hψ.2 s' hstep)

/-- If a step after which `P` holds meets `φ`, then `P` holds throughout a run
exactly if `φ` does along it. -/
theorem throughout_iff_along (himp : ∀ s, Inv s → P s)
    (hkeep : ∀ s l s', Inv s → ψ s l → φ s l → step s l = some s' → Inv s')
    (hneed : ∀ s l s', Inv s → ψ s l → step s l = some s' → P s' → φ s l)
    (hinit : Inv s) (hψ : Along step ψ s ls)
    (hrun : run step s ls = some t) :
    Throughout step P s ls ↔ Along step φ s ls := by
  constructor
  · intro h
    refine h.along (fun s l s' hinv hl => hkeep s l s' hinv hl.1) ?_ hinit
      (hψ.and (along_isSome hrun))
    rintro s l hinv - ⟨hl, hsome⟩ hafter
    obtain ⟨s', hstep⟩ := Option.isSome_iff_exists.mp hsome
    exact hneed s l s' hinv hl hstep (hafter s' hstep)
  · intro hφ
    exact throughout_of_along himp
      (fun s l s' hinv hl => hkeep s l s' hinv hl.1 hl.2) hinit (hψ.and hφ)

end

/-! ## Two runs side by side -/

section

variable {τ : Type*} {R : σ → τ → Prop} {step : σ → ι → Option σ}
  {step' : τ → ι → Option τ}

end

end LabelledRun
