import Mathlib.Data.List.Basic
import Mathlib.Data.List.Nodup
import Mathlib.Logic.Relation

/-!
# Singly linked lists

`Follows next head nodes` says that starting at `head` and following `next`
visits exactly `nodes`, in order, and then stops.  The lemmas say what
appending at the tail and dropping the head do to such a list, and that
changes of `next` outside it do nothing.
-/

namespace Linked

variable {P : Type*}

/-- Following `next` from `head` visits `nodes` and then ends. -/
def Follows (next : P → Option P) : Option P → List P → Prop
  | head, [] => head = none
  | head, p :: nodes => head = some p ∧ Follows next (next p) nodes

@[simp] theorem follows_nil {next : P → Option P} {head : Option P} :
    Follows next head [] ↔ head = none := Iff.rfl

@[simp] theorem follows_cons {next : P → Option P} {head : Option P} {p : P}
    {nodes : List P} :
    Follows next head (p :: nodes) ↔
      head = some p ∧ Follows next (next p) nodes := Iff.rfl

theorem Follows.head_eq {next : P → Option P} {head : Option P}
    {nodes : List P} (h : Follows next head nodes) : head = nodes.head? := by
  cases nodes with
  | nil => simpa using h
  | cons p nodes => simpa using h.1

/-- The visited list is determined by `next` and the head. -/
theorem Follows.unique {next : P → Option P} {head : Option P}
    {nodes nodes' : List P} (h : Follows next head nodes)
    (h' : Follows next head nodes') : nodes = nodes' := by
  induction nodes generalizing head nodes' with
  | nil =>
      cases nodes' with
      | nil => rfl
      | cons p nodes' => simp_all
  | cons p nodes ih =>
      cases nodes' with
      | nil => simp_all
      | cons p' nodes' =>
          obtain ⟨rfl, hrest⟩ := h
          obtain ⟨heq, hrest'⟩ := h'
          obtain rfl := Option.some.inj heq
          rw [ih hrest hrest']

/-- Only the links of the visited nodes matter. -/
theorem Follows.congr {next next' : P → Option P} {head : Option P}
    {nodes : List P} (h : Follows next head nodes)
    (hsame : ∀ p ∈ nodes, next' p = next p) : Follows next' head nodes := by
  induction nodes generalizing head with
  | nil => exact h
  | cons p nodes ih =>
      refine ⟨h.1, ?_⟩
      rw [hsame p (by simp)]
      exact ih h.2 fun q hq => hsame q (by simp [hq])

/-- The last visited node links to nothing. -/
theorem Follows.next_last {next : P → Option P} {head : Option P}
    {front : List P} {last : P} (h : Follows next head (front ++ [last])) :
    next last = none := by
  induction front generalizing head with
  | nil => exact h.2
  | cons p front ih => exact ih h.2

theorem Follows.mem_next {next : P → Option P} {head : Option P}
    {nodes : List P} (h : Follows next head nodes) {p q : P} (hp : p ∈ nodes)
    (hq : next p = some q) : q ∈ nodes := by
  induction nodes generalizing head with
  | nil => cases hp
  | cons r nodes ih =>
      rcases List.mem_cons.mp hp with rfl | hp
      · have hhead : nodes.head? = some q := h.2.head_eq.symm.trans hq
        exact List.mem_cons_of_mem _ (List.mem_of_mem_head? hhead)
      · exact List.mem_cons_of_mem _ (ih h.2 hp)

/-- What can be reached from the head is visited. -/
theorem Follows.mem_of_reaches {next : P → Option P} {head p : P}
    {nodes : List P} (h : Follows next (some head) nodes)
    (hp : Relation.ReflTransGen (fun a b => next a = some b) head p) :
    p ∈ nodes := by
  induction hp with
  | refl => exact List.mem_of_mem_head? h.head_eq.symm
  | tail _ hstep ih => exact h.mem_next ih hstep

/-- Linking a new node behind the last one appends it to the visited list. -/
theorem Follows.link {next next' : P → Option P} {head : Option P}
    {front : List P} {last p : P} (h : Follows next head (front ++ [last]))
    (hfront : ∀ q ∈ front, next' q = next q)
    (hlast : next' last = some p) (hnew : next' p = none) :
    Follows next' head (front ++ [last] ++ [p]) := by
  induction front generalizing head with
  | nil => exact ⟨h.1, hlast, hnew⟩
  | cons q front ih =>
      refine ⟨h.1, ?_⟩
      rw [hfront q (by simp)]
      exact ih h.2 fun r hr => hfront r (by simp [hr])

end Linked
