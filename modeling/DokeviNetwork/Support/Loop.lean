import Mathlib.Order.Basic

/-!
# Loops with breaks

A loop body looks at the state and either asks for another pass or stops.
`loop` runs it with a bound on the number of passes, so a loop that does not end
runs out of fuel for every bound.  The rule for partial correctness asks for an
invariant, the rule for total correctness also for a variant that every further
pass decreases.
-/

/-- What one pass of a loop body does. -/
inductive Pass (σ : Type*)
  | again (s : σ)
  | stop (s : σ)

namespace Pass

variable {σ : Type*}

/-- Run the body until it stops, for at most `fuel` passes. -/
def loop (body : σ → Pass σ) : ℕ → σ → Option σ
  | 0, _ => none
  | fuel + 1, s =>
    match body s with
    | again s' => loop body fuel s'
    | stop s' => some s'

theorem loop_stop {body : σ → Pass σ} {s s' : σ} (h : body s = stop s')
    (fuel : ℕ) : loop body (fuel + 1) s = some s' := by
  simp [loop, h]

theorem loop_again {body : σ → Pass σ} {s s' : σ} (h : body s = again s')
    (fuel : ℕ) : loop body (fuel + 1) s = loop body fuel s' := by
  simp [loop, h]

/-- An invariant and a decreasing variant make the loop end, with any fuel
above the variant. -/
theorem loop_total {body : σ → Pass σ} {Inv Post : σ → Prop}
    {variant : σ → ℕ}
    (hagain : ∀ s s', Inv s → body s = again s' →
      Inv s' ∧ variant s' < variant s)
    (hstop : ∀ s s', Inv s → body s = stop s' → Post s')
    {fuel : ℕ} {s : σ} (hinit : Inv s) (hfuel : variant s < fuel) :
    ∃ t, loop body fuel s = some t ∧ Post t := by
  induction fuel generalizing s with
  | zero => exact absurd hfuel (Nat.not_lt_zero _)
  | succ fuel ih =>
      cases hbody : body s with
      | again s' =>
          obtain ⟨hinv, hless⟩ := hagain s s' hinit hbody
          rw [loop_again hbody]
          exact ih hinv (by omega)
      | stop s' =>
          exact ⟨s', loop_stop hbody fuel, hstop s s' hinit hbody⟩

/-- Where the loop ends, an invariant gives what every stop gives.  An invariant
under which no pass stops shows that the loop does not end. -/
theorem loop_partial {body : σ → Pass σ} {Inv Post : σ → Prop}
    (hagain : ∀ s s', Inv s → body s = again s' → Inv s')
    (hstop : ∀ s s', Inv s → body s = stop s' → Post s')
    {fuel : ℕ} {s t : σ} (hinit : Inv s) (hloop : loop body fuel s = some t) :
    Post t := by
  induction fuel generalizing s with
  | zero => simp [loop] at hloop
  | succ fuel ih =>
      cases hbody : body s with
      | again s' =>
          rw [loop_again hbody] at hloop
          exact ih (hagain s s' hinit hbody) hloop
      | stop s' =>
          rw [loop_stop hbody] at hloop
          exact Option.some.inj hloop ▸ hstop s s' hinit hbody

/-- The state in which a loop ends does not depend on the fuel. -/
theorem loop_unique {body : σ → Pass σ} {fuel fuel' : ℕ} {s t t' : σ}
    (h : loop body fuel s = some t) (h' : loop body fuel' s = some t') :
    t = t' := by
  induction fuel generalizing s fuel' with
  | zero => simp [loop] at h
  | succ fuel ih =>
      cases fuel' with
      | zero => simp [loop] at h'
      | succ fuel' =>
          cases hbody : body s with
          | again s' =>
              rw [loop_again hbody] at h h'
              exact ih h h'
          | stop s' =>
              rw [loop_stop hbody] at h h'
              exact Option.some.inj (h.symm.trans h')

/-- Two passes of the same kind: states that go on are related by `R`, states
that stop by `S`. -/
inductive Rel {τ : Type*} (R S : σ → τ → Prop) : Pass σ → Pass τ → Prop
  | again {s : σ} {t : τ} (h : R s t) : Rel R S (again s) (again t)
  | stop {s : σ} {t : τ} (h : S s t) : Rel R S (stop s) (stop t)

/-- Bodies that take related states to passes of the same kind make loops that
end together, in related states. -/
theorem loop_related {τ : Type*} {R S : σ → τ → Prop} {body : σ → Pass σ}
    {body' : τ → Pass τ} (hpass : ∀ s t, R s t → Rel R S (body s) (body' t))
    {s : σ} {t : τ} (h : R s t) (fuel : ℕ) :
    Option.Rel S (loop body fuel s) (loop body' fuel t) := by
  induction fuel generalizing s t with
  | zero => exact Option.Rel.none
  | succ fuel ih =>
      have hrel := hpass s t h
      rw [loop, loop]
      generalize body s = p, body' t = q at hrel ⊢
      cases hrel with
      | again hnext => exact ih hnext
      | stop hlast => exact Option.Rel.some hlast

end Pass
