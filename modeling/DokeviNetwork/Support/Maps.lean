import Mathlib.Data.List.AList

/-!
# Maps whose entries are created once

Two ways to put an entry into a finite map that leave an entry alone which is
already there: an insertion that is ignored then, and a subscript that
creates the entry with a default value if it is missing.
-/

namespace EntryMap

variable {α β : Type*} [DecidableEq α] {s : AList fun _ : α => β} {a a' : α}
  {b : β}

/-- Insert an entry unless there is one. -/
def insertNew (s : AList fun _ : α => β) (a : α) (b : β) :
    AList fun _ : α => β :=
  if a ∈ s then s else s.insert a b

/-- The value that the subscript `a` refers to, where `b` is the default. -/
def subscript (s : AList fun _ : α => β) (a : α) (b : β) : β :=
  (s.lookup a).getD b

theorem insertNew_of_lookup (h : s.lookup a = some b) (b' : β) :
    insertNew s a b' = s := by
  have hmem : a ∈ s := AList.lookup_isSome.mp (Option.isSome_of_eq_some h)
  exact if_pos hmem

theorem insertNew_of_lookup_none (h : s.lookup a = none) (b : β) :
    insertNew s a b = s.insert a b :=
  if_neg (AList.lookup_eq_none.mp h)

theorem subscript_of_lookup (h : s.lookup a = some b) (b' : β) :
    subscript s a b' = b := by
  rw [subscript, h, Option.getD_some]

theorem subscript_of_lookup_none (h : s.lookup a = none) (b : β) :
    subscript s a b = b := by
  rw [subscript, h, Option.getD_none]

/-- After the insertion the entry has the value that the subscript shows. -/
@[simp] theorem lookup_insertNew (s : AList fun _ : α => β) (a : α) (b : β) :
    (insertNew s a b).lookup a = some (subscript s a b) := by
  cases hlookup : s.lookup a with
  | none =>
      rw [insertNew_of_lookup_none hlookup, AList.lookup_insert,
        subscript_of_lookup_none hlookup]
  | some b' =>
      rw [insertNew_of_lookup hlookup, hlookup, subscript_of_lookup hlookup]

theorem lookup_insertNew_ne (h : a' ≠ a) (b : β) :
    (insertNew s a b).lookup a' = s.lookup a' := by
  rw [insertNew]
  split
  · rfl
  · exact AList.lookup_insert_ne h

/-- The entries after one has been inserted that was not there. -/
theorem lookup_insertNew_of_none (h : s.lookup a = none) (b : β) (a' : α) :
    (insertNew s a b).lookup a' = if a' = a then some b else s.lookup a' := by
  split
  · next heq => rw [heq, lookup_insertNew, subscript_of_lookup_none h]
  · next hne => exact lookup_insertNew_ne hne b

end EntryMap
