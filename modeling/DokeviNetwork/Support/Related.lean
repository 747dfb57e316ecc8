import Mathlib.Data.List.Forall2

/-!
# Lists related element by element

A few rules for `List.Forall₂` that runs on two levels need: weakening the
relation on the elements that occur, splitting off the last pair, and reading
equal images as a relation.
-/

namespace List

variable {α β γ : Type*} {R S : α → β → Prop}

theorem Forall₂.imp_of_mem {l : List α} {u : List β} (h : Forall₂ R l u)
    (himp : ∀ a ∈ l, ∀ b, R a b → S a b) : Forall₂ S l u := by
  have hmem : Forall₂ (fun a b => a ∈ l ∧ R a b) l u :=
    (forall₂_and_left l u).mpr ⟨fun _ ha => ha, h⟩
  exact hmem.imp fun a b hab => himp a hab.1 b hab.2

theorem forall₂_concat_left_iff {l : List α} {a : α} {u : List β} :
    Forall₂ R (l ++ [a]) u ↔
      ∃ u' b, Forall₂ R l u' ∧ R a b ∧ u = u' ++ [b] := by
  induction l generalizing u with
  | nil => simp [forall₂_cons_left_iff]
  | cons c l ih =>
      simp only [cons_append, forall₂_cons_left_iff, ih]
      constructor
      · rintro ⟨d, v, hcd, ⟨u', b, hl, hab, rfl⟩, rfl⟩
        exact ⟨d :: u', b, ⟨d, u', hcd, hl, rfl⟩, hab, rfl⟩
      · rintro ⟨_, b, ⟨d, u', hcd, hl, rfl⟩, hab, rfl⟩
        exact ⟨d, u' ++ [b], hcd, ⟨u', b, hl, hab, rfl⟩, rfl⟩

theorem forall₂_map_eq_iff {f : α → γ} {g : β → γ} {l : List α} {u : List β} :
    Forall₂ (fun a b => f a = g b) l u ↔ l.map f = u.map g := by
  rw [← forall₂_eq_eq_eq, forall₂_map_left_iff, forall₂_map_right_iff]

end List
