import DokeviNetwork.Support.Run

/-!
# Runs that follow runs of another system

A label function says, for a step of one system, which step of another it stands
for, if any.  Where a relation between the states is kept by every such pair of
steps, each run of the first system is followed by one of the second, along the
labels that its steps stand for.
-/

namespace LabelledRun

variable {σ τ ι κ : Type*}

/-- The labels that the steps of a run stand for. -/
def trace (step : σ → ι → Option σ) (label : σ → ι → Option κ) :
    σ → List ι → List κ
  | _, [] => []
  | s, l :: ls =>
    (label s l).toList ++ ((step s l).elim [] fun s' => trace step label s' ls)

variable {step : σ → ι → Option σ} {label : σ → ι → Option κ}

@[simp] theorem trace_nil (s : σ) : trace step label s [] = [] := rfl

theorem trace_cons_of_step {s s' : σ} {l : ι} {ls : List ι}
    (hstep : step s l = some s') :
    trace step label s (l :: ls) =
      (label s l).toList ++ trace step label s' ls := by
  rw [trace, hstep, Option.elim_some]

/-- What is read off the labels of a run can be read off its own labels, if this
is so for each step. -/
theorem filterMap_trace {α : Type*} {f : ι → Option α} {g : κ → Option α}
    (hlabel : ∀ s l, (label s l).bind g = f l) {s t : σ} {ls : List ι}
    (hrun : run step s ls = some t) :
    (trace step label s ls).filterMap g = ls.filterMap f := by
  induction ls generalizing s with
  | nil => rfl
  | cons l ls ih =>
      obtain ⟨s', hstep, hrest⟩ := Option.bind_eq_some_iff.mp hrun
      have hfirst : (label s l).toList.filterMap g = (f l).toList := by
        rw [← hlabel s l]
        cases label s l with
        | none => rfl
        | some k => cases hg : g k <;> simp [hg]
      rw [trace_cons_of_step hstep, List.filterMap_append, ih hrest, hfirst,
        List.filterMap_cons]
      cases f l <;> rfl

/-- A relation that every step keeps, the other system making the step it stands
for or none, is kept by every run, and what the steps of the other system meet
holds along its run. -/
theorem exists_run_trace {step' : τ → κ → Option τ} {R : σ → τ → Prop}
    {φ : σ → ι → Prop} {ψ : τ → κ → Prop}
    (hsim : ∀ s t l s', R s t → φ s l → step s l = some s' →
      (∀ k ∈ label s l, ψ t k) ∧
        ∃ t', run step' t (label s l).toList = some t' ∧ R s' t')
    {s s' : σ} {t : τ} {ls : List ι} (hinit : R s t) (halong : Along step φ s ls)
    (hrun : run step s ls = some s') :
    ∃ t', run step' t (trace step label s ls) = some t' ∧ R s' t' ∧
      Along step' ψ t (trace step label s ls) := by
  induction ls generalizing s t with
  | nil => exact ⟨t, rfl, Option.some.inj hrun ▸ hinit, trivial⟩
  | cons l ls ih =>
      obtain ⟨s₁, hstep, hrest⟩ := Option.bind_eq_some_iff.mp hrun
      obtain ⟨hψ, t₁, hfirst, hrel⟩ := hsim s t l s₁ hinit halong.1 hstep
      obtain ⟨t', hrun', hrel', halong'⟩ :=
        ih hrel (halong.2 s₁ hstep) hrest
      rw [trace_cons_of_step hstep]
      refine ⟨t', by rw [run_append, hfirst]; exact hrun', hrel', ?_⟩
      refine Along.append.mpr ⟨?_, ?_⟩
      · cases hlabel : label s l with
        | none => trivial
        | some k => exact ⟨hψ k hlabel, fun _ _ => trivial⟩
      · intro t₂ hfirst'
        obtain rfl := Option.some.inj (hfirst.symm.trans hfirst')
        exact halong'

/-- Where each step that stands for one uses up some of what a state has left, and
no other one adds to it, a run stands for no more than its first state had
left. -/
theorem exists_left_of_along {φ : σ → ι → Prop} {Left : σ → ℕ → Prop}
    (hstep : ∀ s l s' n, Left s n → φ s l → step s l = some s' →
      ∃ n', Left s' n' ∧ n' + (label s l).toList.length ≤ n)
    {s t : σ} {ls : List ι} {n : ℕ} (hinit : Left s n)
    (halong : Along step φ s ls) (hrun : run step s ls = some t) :
    ∃ n', Left t n' ∧ n' + (trace step label s ls).length ≤ n := by
  induction ls generalizing s n with
  | nil => exact ⟨n, Option.some.inj hrun ▸ hinit, Nat.le_refl n⟩
  | cons l ls ih =>
      obtain ⟨s', hs', hrest⟩ := Option.bind_eq_some_iff.mp hrun
      obtain ⟨n', hleft, hle⟩ := hstep s l s' n hinit halong.1 hs'
      obtain ⟨n'', hleft', hle'⟩ := ih hleft (halong.2 s' hs') hrest
      refine ⟨n'', hleft', ?_⟩
      rw [trace_cons_of_step hs', List.length_append]
      omega

end LabelledRun
