import Mathlib.Algebra.BigOperators.Group.List.Basic
import Mathlib.Algebra.Ring.Nat
import Mathlib.Data.List.Chain
import Mathlib.Data.List.Forall2

/-!
# Relations between neighbours of a list

A relation between the neighbours of one list passes to a list related to it
element by element, and neighbours that are large together make the whole list
large.
-/

namespace List

variable {α β : Type*}

/-- Neighbours are related on one level as the elements they stand for are on
the other. -/
theorem Forall₂.isChain {T : α → β → Prop} {R : α → α → Prop}
    {S : β → β → Prop} (himp : ∀ a a' b b', T a b → T a' b' → S b b' → R a a')
    {l : List α} {u : List β} (h : Forall₂ T l u) (hchain : u.IsChain S) :
    l.IsChain R := by
  induction h with
  | nil => exact IsChain.nil
  | cons hab hrest ih =>
      refine isChain_cons.mpr ⟨?_, ih hchain.tail⟩
      intro a' ha'
      cases hrest with
      | nil => simp at ha'
      | @cons c d l u hcd hrest =>
          obtain rfl : c = a' := by simpa using ha'
          exact himp _ _ _ _ hab hcd (isChain_cons_cons.mp hchain).1

/-- If each element and the next one outweigh what `g` asks of the first, all
elements together outweigh half of what `g` asks of all but the last. -/
theorem IsChain.sum_dropLast_le {f g : α → ℕ} {l : List α}
    (h : l.IsChain fun a b => g a ≤ f a + f b) :
    (l.dropLast.map g).sum ≤ 2 * (l.map f).sum := by
  have hstrong : ∀ a, l.head? = some a →
      (l.dropLast.map g).sum + f a ≤ 2 * (l.map f).sum := by
    induction l with
    | nil => simp
    | cons a l ih =>
        intro b hb
        obtain rfl : a = b := by simpa using hb
        cases l with
        | nil =>
            simp only [dropLast_singleton, map_nil, sum_nil, map_cons, sum_cons]
            omega
        | cons c l =>
            have hac := (isChain_cons_cons.mp h).1
            have hrest := ih (isChain_cons_cons.mp h).2 c rfl
            simp only [dropLast_cons_cons, map_cons, sum_cons] at hrest ⊢
            omega
  cases l with
  | nil => simp
  | cons a l =>
      exact le_trans (Nat.le_add_right _ _) (hstrong a rfl)

end List
