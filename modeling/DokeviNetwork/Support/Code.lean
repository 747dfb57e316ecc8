import Mathlib.Data.List.Basic

/-!
# Code that runs statement by statement

A piece of code is a list of statements.  Executing the first one changes the
state and says which statements take its place, such as the branch of an `if`.
`Runs` follows code that nothing interrupts; the lemmas say how it goes on when
something else runs between two of its statements.
-/

namespace Code

variable {σ τ α : Type*}

/-- Run on its own from `s`, the code ends in `t`, and each of its statements is
one that `allowed` permits where it is executed. -/
inductive Runs (exec : σ → α → Option (σ × List α)) (allowed : σ → α → Prop) :
    σ → List α → σ → Prop
  | done (s : σ) : Runs exec allowed s [] s
  | step {s s' t : σ} {a : α} {pushed code : List α} (hallowed : allowed s a)
      (hexec : exec s a = some (s', pushed))
      (hrest : Runs exec allowed s' (pushed ++ code) t) :
      Runs exec allowed s (a :: code) t

variable {exec : σ → α → Option (σ × List α)} {allowed : σ → α → Prop}
  {s s' t : σ} {a : α} {code : List α}

theorem Runs.eq (h : Runs exec allowed s [] t) : t = s := by
  cases h
  rfl

/-- The first statement of code that runs can be executed, and the rest runs from
where it leads. -/
theorem Runs.exists_step (h : Runs exec allowed s (a :: code) t) :
    ∃ s' pushed, allowed s a ∧ exec s a = some (s', pushed) ∧
      Runs exec allowed s' (pushed ++ code) t := by
  cases h with
  | step hallowed hexec hrest => exact ⟨_, _, hallowed, hexec, hrest⟩

theorem Runs.forall_mem {p : α → Prop} (hp : ∀ s a, allowed s a → p a)
    (h : Runs exec allowed s code t) : ∀ a ∈ code, p a := by
  induction h with
  | done => simp
  | step hallowed _ _ ih =>
      intro a ha
      rcases List.mem_cons.mp ha with rfl | ha
      · exact hp _ _ hallowed
      · exact ih a (List.mem_append_right _ ha)

/-- What no statement changes, the code does not change. -/
theorem Runs.eq_of_frame {β : Type*} {f : σ → β}
    (hframe : ∀ s a s' pushed, allowed s a → exec s a = some (s', pushed) →
      f s' = f s)
    (h : Runs exec allowed s code t) : f t = f s := by
  induction h with
  | done s => rfl
  | step hallowed hexec _ ih =>
      exact ih.trans (hframe _ _ _ _ hallowed hexec)

/-- A relation that every statement keeps, in two states in which it does the
same, is kept by code. -/
theorem Runs.related {exec' : τ → α → Option (τ × List α)}
    {allowed' : τ → α → Prop} {R : σ → τ → Prop}
    (hsame : ∀ s x a s' pushed, R s x → allowed s a →
      exec s a = some (s', pushed) →
      allowed' x a ∧ ∃ x', exec' x a = some (x', pushed) ∧ R s' x')
    {x : τ} (hrel : R s x) (h : Runs exec allowed s code t) :
    ∃ y, Runs exec' allowed' x code y ∧ R t y := by
  induction h generalizing x with
  | done s => exact ⟨x, Runs.done x, hrel⟩
  | step hallowed hexec _ ih =>
      obtain ⟨hallowed', x', hexec', hrel'⟩ :=
        hsame _ x _ _ _ hrel hallowed hexec
      obtain ⟨y, hruns, hy⟩ := ih hrel'
      exact ⟨y, Runs.step hallowed' hexec' hruns, hy⟩

end Code
