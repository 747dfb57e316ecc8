import DokeviNetwork.Server.Threads
import DokeviNetwork.Support.Run
import DokeviNetwork.Support.Workers
import Mathlib.Algebra.BigOperators.Ring.Finset
import Mathlib.Algebra.Order.Ring.Int

/-!
# One socket of the server

Every event concerns one socket at most: seen from a socket, the server makes a
step of `TCPSocket.step`, with the tasks of all threads on that socket beside it,
or nothing.  What holds of a new socket and is kept by these steps therefore holds
of every socket in every run.
-/

namespace DokeviNet

open LabelledRun Workers

/-- The step of a socket that an event is, and the socket. -/
def IoEvent.socketStep {H P τ : Type*} (w : IoServer H P τ) :
    IoEvent τ → Option (ℕ × SocketStep)
  | .ends s c data => some (s, .ends c data)
  | .take _ s c => some (s, .take c)
  | .advance t ok =>
    (w.workers t).map fun held => (held.1, .advance held.2 ok)
  | _ => none

/-- The port on which an event creates sockets, with the outcomes of the `AcceptEx`
calls made for them. -/
def IoEvent.readies {H P τ : Type*} (w : IoServer H P τ) :
    IoEvent τ → ℕ × List Bool
  | .setListenPort inPort accepted => (inPort, accepted)
  | .advance t ok =>
    match w.workers t with
    | some (s, .rearm) =>
      ((w.sockets s).port,
        if (w.sockets s).port ∈ w.listenPorts then [ok] else [])
    | _ => (0, [])
  | _ => (0, [])

/-- The ports on which an event starts to listen. -/
def IoEvent.opens {τ : Type*} : IoEvent τ → List ℕ
  | .setListenPort inPort _ => [inPort]
  | _ => []

/-- What a step of a socket adds to `_clientSize`. -/
def SocketStep.counts : SocketStep → ℤ
  | .advance .count _ => 1
  | .advance .uncount _ => -1
  | _ => 0

/-! ## Sockets that come into being -/

namespace IoServer

variable {H P τ : Type*}

/-- `w'` is `w` with further sockets, one for each of the given outcomes of
`AcceptEx`. -/
structure Grows (w w' : IoServer H P τ) (inPort : ℕ) (accepted : List Bool) :
    Prop where
  workers : w'.workers = w.workers
  created : w'.created = w.created + accepted.length
  old : ∀ s, ¬ (w.created ≤ s ∧ s < w'.created) →
    w'.sockets s = w.sockets s
  fresh : ∀ s, w.created ≤ s → s < w'.created → ∃ outcome ∈ accepted,
    ∃ memory, w'.sockets s = TCPSocket.ready inPort outcome memory

theorem Grows.created_le {w w' : IoServer H P τ} {inPort : ℕ}
    {accepted : List Bool} (h : Grows w w' inPort accepted) :
    w.created ≤ w'.created := by
  rw [h.created]
  exact Nat.le_add_right _ _

theorem grows_of_same {w w' : IoServer H P τ} (inPort : ℕ)
    (hworkers : w'.workers = w.workers) (hcreated : w'.created = w.created)
    (hsockets : w'.sockets = w.sockets) : Grows w w' inPort [] := by
  refine ⟨hworkers, hcreated, fun s _ => by rw [hsockets], ?_⟩
  intro s hle hlt
  omega

theorem grows_readyAcceptEx {w : IoServer H P τ} {inPort : ℕ}
    (hport : inPort ∈ w.listenPorts) (accepted : Bool) :
    Grows w (w.readyAcceptEx inPort accepted) inPort [accepted] := by
  rw [readyAcceptEx, if_pos hport]
  refine ⟨rfl, rfl, ?_, ?_⟩
  · intro s hs
    exact Function.update_of_ne (by rintro rfl; simp at hs) _ _
  · intro s hle hlt
    obtain rfl : s = w.created := by
      dsimp only at hlt
      omega
    exact ⟨accepted, by simp, _, Function.update_self _ _ _⟩

theorem Grows.trans {w₁ w₂ w₃ : IoServer H P τ} {inPort : ℕ}
    {first second : List Bool} (h₁ : Grows w₁ w₂ inPort first)
    (h₂ : Grows w₂ w₃ inPort second) :
    Grows w₁ w₃ inPort (first ++ second) := by
  have hle₁ := h₁.created_le
  have hle₂ := h₂.created_le
  refine ⟨h₂.workers.trans h₁.workers, ?_, ?_, ?_⟩
  · rw [h₂.created, h₁.created, List.length_append, Nat.add_assoc]
  · intro s hs
    rw [h₂.old s (by omega), h₁.old s (by omega)]
  · intro s hle hlt
    by_cases hs : s < w₂.created
    · obtain ⟨outcome, hmem, memory, heq⟩ := h₁.fresh s hle hs
      exact ⟨outcome, List.mem_append_left _ hmem, memory,
        (h₂.old s (by omega)).trans heq⟩
    · obtain ⟨outcome, hmem, memory, heq⟩ :=
        h₂.fresh s (Nat.not_lt.mp hs) hlt
      exact ⟨outcome, List.mem_append_right _ hmem, memory, heq⟩

theorem readyAcceptEx_listenPorts (w : IoServer H P τ) (inPort : ℕ)
    (accepted : Bool) :
    (w.readyAcceptEx inPort accepted).listenPorts = w.listenPorts := by
  unfold readyAcceptEx
  split <;> rfl

theorem readyAcceptEx_clientSize (w : IoServer H P τ) (inPort : ℕ)
    (accepted : Bool) :
    (w.readyAcceptEx inPort accepted).clientSize = w.clientSize := by
  unfold readyAcceptEx
  split <;> rfl

/-- What `ReadyAcceptEx` leaves alone, the loop of `SetListenPort` does. -/
theorem foldl_readyAcceptEx {α : Type*} (f : IoServer H P τ → α)
    (hf : ∀ w inPort accepted, f (w.readyAcceptEx inPort accepted) = f w)
    (inPort : ℕ) (accepted : List Bool) (w : IoServer H P τ) :
    f (accepted.foldl (fun w accepted => w.readyAcceptEx inPort accepted) w) =
      f w := by
  induction accepted generalizing w with
  | nil => rfl
  | cons outcome accepted ih => rw [List.foldl_cons, ih, hf]

theorem grows_setListenPort (w : IoServer H P τ) (inPort : ℕ)
    (accepted : List Bool) :
    Grows w (w.setListenPort inPort accepted) inPort accepted := by
  have hfold : ∀ (done : List Bool) (w' : IoServer H P τ),
      inPort ∈ w'.listenPorts → Grows w w' inPort done →
      Grows w (accepted.foldl
        (fun w accepted => w.readyAcceptEx inPort accepted) w') inPort
        (done ++ accepted) := by
    induction accepted with
    | nil =>
        intro done w' _ h
        rwa [List.append_nil]
    | cons outcome accepted ih =>
        intro done w' hport h
        have hnext := ih (done ++ [outcome]) (w'.readyAcceptEx inPort outcome)
          (by rwa [readyAcceptEx_listenPorts])
          (h.trans (grows_readyAcceptEx hport outcome))
        simpa using hnext
  exact hfold [] _ (by simp) (grows_of_same inPort rfl rfl rfl)

/-- A sum over the sockets, with one term for each socket created. -/
theorem Grows.sum_sockets {w w' : IoServer H P τ} {inPort : ℕ}
    {accepted : List Bool} (h : Grows w w' inPort accepted) {f : TCPSocket → ℤ}
    {g : ℕ → ℤ} (hready : ∀ inPort outcome memory,
      f (TCPSocket.ready inPort outcome memory) = g inPort) :
    ∑ s ∈ Finset.range w'.created, f (w'.sockets s) =
      ∑ s ∈ Finset.range w.created, f (w.sockets s) +
        accepted.length * g inPort := by
  have hcreated := h.created
  rw [hcreated, Finset.sum_range_add]
  congr 1
  · apply Finset.sum_congr rfl
    intro s hs
    have hlt := Finset.mem_range.mp hs
    rw [h.old s (by omega)]
  · have hnew : ∀ i ∈ Finset.range accepted.length,
        f (w'.sockets (w.created + i)) = g inPort := by
      intro i hi
      have hlt := Finset.mem_range.mp hi
      obtain ⟨outcome, -, memory, hsocket⟩ :=
        h.fresh (w.created + i) (Nat.le_add_right _ _) (by omega)
      rw [hsocket, hready]
    rw [Finset.sum_congr rfl hnew, Finset.sum_const, Finset.card_range,
      nsmul_eq_mul]

/-! ## One socket of the server -/

/-- Sockets that do not exist yet are idle and no thread works on one. -/
structure WellNumbered (w : IoServer H P τ) : Prop where
  fresh : ∀ s, w.created ≤ s → ∃ inPort memory,
    w.sockets s = TCPSocket.ready inPort false memory
  workers : ∀ t s task, w.workers t = some (s, task) → s < w.created

theorem wellNumbered_start (pools : H) (clientSize : ℤ)
    (memory : ℕ → Region UInt8) :
    WellNumbered (start pools clientSize memory : IoServer H P τ) := by
  constructor
  · intro s _
    exact ⟨0, memory s, rfl⟩
  · intro t s task hworker
    cases hworker

section

variable [DecidableEq τ]

/-- What an event does to the sockets and to the IO threads. -/
inductive Effect (w : IoServer H P τ) (e : IoEvent τ) :
    IoServer H P τ → Prop
  | outside {w' : IoServer H P τ} (hlocal : e.socketStep w = none)
      (hgrows : Grows w w' (e.readies w).1 (e.readies w).2) :
      Effect w e w'
  | system {w' : IoServer H P τ} {s : ℕ} {l : SocketStep} {k : TCPSocket}
      (hs : s < w.created) (hlocal : e.socketStep w = some (s, l))
      (hreadies : e.readies w = (0, [])) (htask : l.task = none)
      (hstep : (w.sockets s).step l = some (k, none))
      (hsockets : w'.sockets = Function.update w.sockets s k)
      (hworkers : w'.workers = w.workers) (hcreated : w'.created = w.created) :
      Effect w e w'
  | thread {w' : IoServer H P τ} {s : ℕ} {t : τ} {l : SocketStep}
      {next : TCPSocket × Option Task} (hs : s < w.created)
      (hlocal : e.socketStep w = some (s, l))
      (hworker : w.workers t = l.task.map fun task => (s, task))
      (hstep : (w.sockets s).step l = some next)
      (hgrows : Grows (w.after t s next) w' (e.readies w).1 (e.readies w).2) :
      Effect w e w'

variable [PacketPools H P] [DecidableEq P]

theorem advance_grows {w w' : IoServer H P τ} {t : τ} {s : ℕ} {task : Task}
    {ok : Bool} (hworker : w.workers t = some (s, task))
    (hadvance : w.advance t s task ok = some w') :
    Grows (w.after t s ((w.sockets s).advance ok task)) w'
      ((IoEvent.advance t ok).readies w).1
      ((IoEvent.advance t ok).readies w).2 := by
  unfold advance at hadvance
  simp only [IoEvent.readies, hworker]
  split at hadvance
  · obtain rfl := Option.some.inj hadvance
    exact grows_of_same 0 rfl rfl rfl
  · obtain rfl := Option.some.inj hadvance
    exact grows_of_same 0 rfl rfl rfl
  · obtain rfl := Option.some.inj hadvance
    dsimp only
    split
    · next hport =>
        rw [← after_listenPorts w t s] at hport
        exact grows_readyAcceptEx hport ok
    · next hport =>
        rw [← after_listenPorts w t s] at hport
        rw [readyAcceptEx, if_neg hport]
        exact grows_of_same _ rfl rfl rfl
  · obtain ⟨io, -, rfl⟩ := Option.map_eq_some_iff.mp hadvance
    exact grows_of_same 0 rfl rfl rfl
  · next hrearm _ =>
      obtain rfl := Option.some.inj hadvance
      split
      · next heq =>
          cases heq
          exact absurd rfl hrearm
      · exact grows_of_same 0 rfl rfl rfl

/-- What an event does to the rest of the server. -/
structure Rest (w : IoServer H P τ) (e : IoEvent τ) (w' : IoServer H P τ) :
    Prop where
  clientSize : w'.clientSize =
    w.clientSize + (e.socketStep w).elim 0 fun at_ => at_.2.counts
  listenPorts : w'.listenPorts = e.opens ++ w.listenPorts

theorem rest_of_advance {w w' : IoServer H P τ} {t : τ} {s : ℕ} {task : Task}
    {ok : Bool} (hadvance : w.advance t s task ok = some w') :
    w'.clientSize = w.clientSize + (SocketStep.advance task ok).counts ∧
      w'.listenPorts = w.listenPorts := by
  unfold advance at hadvance
  split at hadvance
  · obtain rfl := Option.some.inj hadvance
    exact ⟨rfl, rfl⟩
  · obtain rfl := Option.some.inj hadvance
    exact ⟨rfl, rfl⟩
  · obtain rfl := Option.some.inj hadvance
    rw [readyAcceptEx_clientSize, readyAcceptEx_listenPorts]
    exact ⟨(add_zero _).symm, rfl⟩
  · obtain ⟨io, -, rfl⟩ := Option.map_eq_some_iff.mp hadvance
    exact ⟨(add_zero _).symm, rfl⟩
  · next hcount huncount _ _ =>
      obtain rfl := Option.some.inj hadvance
      have hcounts : (SocketStep.advance task ok).counts = 0 := by
        cases task with
        | count => exact absurd rfl hcount
        | uncount => exact absurd rfl huncount
        | _ => rfl
      rw [hcounts]
      exact ⟨(add_zero _).symm, rfl⟩

theorem rest_of_step {w w' : IoServer H P τ} {e : IoEvent τ}
    (hstep : w.step e = some w') : Rest w e w' := by
  cases e with
  | setListenPort inPort accepted =>
      obtain rfl := Option.some.inj hstep
      constructor
      · have hfold := foldl_readyAcceptEx (fun w => w.clientSize)
          readyAcceptEx_clientSize inPort accepted
          { w with listenPorts := inPort :: w.listenPorts }
        exact hfold.trans (add_zero _).symm
      · exact foldl_readyAcceptEx (fun w => w.listenPorts)
          readyAcceptEx_listenPorts inPort accepted _
  | send accepted s inData inLen inImmediateSend =>
      simp only [step] at hstep
      split at hstep
      · obtain ⟨io, -, rfl⟩ := Option.map_eq_some_iff.mp hstep
        exact ⟨(add_zero _).symm, rfl⟩
      · cases hstep
  | transmit s =>
      obtain ⟨io, -, rfl⟩ := Option.map_eq_some_iff.mp hstep
      exact ⟨(add_zero _).symm, rfl⟩
  | ends s c data =>
      simp only [step] at hstep
      split at hstep
      · obtain ⟨k, -, hio⟩ := Option.bind_eq_some_iff.mp hstep
        obtain ⟨io, -, rfl⟩ := Option.map_eq_some_iff.mp hio
        exact ⟨(add_zero _).symm, rfl⟩
      · cases hstep
  | take t s c =>
      simp only [step] at hstep
      split at hstep
      · obtain ⟨k, -, rfl⟩ := Option.map_eq_some_iff.mp hstep
        exact ⟨(add_zero _).symm, rfl⟩
      · cases hstep
  | advance t ok =>
      simp only [step] at hstep
      split at hstep
      · cases hstep
      · next s task hworker =>
          obtain ⟨hsize, hports⟩ := rest_of_advance hstep
          refine ⟨?_, hports⟩
          rw [IoEvent.socketStep, hworker]
          exact hsize

theorem effect_of_step {w w' : IoServer H P τ} {e : IoEvent τ}
    (hnum : WellNumbered w) (hstep : w.step e = some w') : Effect w e w' := by
  cases e with
  | setListenPort inPort accepted =>
      obtain rfl := Option.some.inj hstep
      exact Effect.outside rfl (grows_setListenPort w inPort accepted)
  | send accepted s inData inLen inImmediateSend =>
      simp only [step] at hstep
      split at hstep
      · obtain ⟨io, -, rfl⟩ := Option.map_eq_some_iff.mp hstep
        exact Effect.outside rfl (grows_of_same 0 rfl rfl rfl)
      · cases hstep
  | transmit s =>
      obtain ⟨io, -, rfl⟩ := Option.map_eq_some_iff.mp hstep
      exact Effect.outside rfl (grows_of_same 0 rfl rfl rfl)
  | ends s c data =>
      simp only [step] at hstep
      split at hstep
      · next hs =>
          obtain ⟨k, hk, hio⟩ := Option.bind_eq_some_iff.mp hstep
          obtain ⟨io, -, rfl⟩ := Option.map_eq_some_iff.mp hio
          refine Effect.system hs rfl rfl rfl ?_ rfl rfl rfl
          simp [TCPSocket.step, hk]
      · cases hstep
  | take t s c =>
      simp only [step] at hstep
      split at hstep
      · next hs =>
          obtain ⟨k, hk, rfl⟩ := Option.map_eq_some_iff.mp hstep
          refine Effect.thread hs.1 rfl (Option.isNone_iff_eq_none.mp hs.2) ?_
            (grows_of_same 0 rfl rfl rfl)
          simp [TCPSocket.step, hk]
      · cases hstep
  | advance t ok =>
      simp only [step] at hstep
      split at hstep
      · cases hstep
      · next s task hworker =>
          have hgrows := advance_grows hworker hstep
          have hlocal : (IoEvent.advance t ok).socketStep w =
              some (s, .advance task ok) := by
            simp [IoEvent.socketStep, hworker]
          exact Effect.thread (hnum.workers t s task hworker) hlocal hworker rfl
            hgrows

theorem WellNumbered.step {w w' : IoServer H P τ} {e : IoEvent τ}
    (hnum : WellNumbered w) (hstep : w.step e = some w') :
    WellNumbered w' := by
  cases effect_of_step hnum hstep with
  | outside _ hgrows =>
      have hle := hgrows.created_le
      constructor
      · intro s hs
        rw [hgrows.old s (by omega)]
        exact hnum.fresh s (by omega)
      · intro t s task hworker
        rw [hgrows.workers] at hworker
        exact (hnum.workers t s task hworker).trans_le hle
  | system hs₀ _ _ _ _ hsockets hworkers hcreated =>
      constructor
      · intro s hs
        rw [hsockets, Function.update_of_ne (by omega)]
        exact hnum.fresh s (by omega)
      · intro t s task hworker
        rw [hworkers] at hworker
        rw [hcreated]
        exact hnum.workers t s task hworker
  | @thread s₀ t _ next hs₀ _ _ _ hgrows =>
      have hle : w.created ≤ w'.created := hgrows.created_le
      constructor
      · intro s hs
        rw [hgrows.old s (by omega), after_sockets_of_ne w t next (by omega)]
        exact hnum.fresh s (by omega)
      · intro u s task hworker
        rw [hgrows.workers, after_workers] at hworker
        by_cases heq : u = t
        · subst heq
          rw [Function.update_self] at hworker
          obtain ⟨_, _, hpair⟩ := Option.map_eq_some_iff.mp hworker
          obtain rfl := (Prod.ext_iff.mp hpair).1
          exact hs₀.trans_le hle
        · rw [Function.update_of_ne heq] at hworker
          exact (hnum.workers u s task hworker).trans_le hle

end

section

variable [Fintype τ]

/-- The tasks of the IO threads on a socket. -/
def tasks (w : IoServer H P τ) (s : ℕ) : Multiset Task :=
  tasksOn w.workers s

theorem WellNumbered.tasks_eq_zero {w : IoServer H P τ} (hnum : WellNumbered w)
    {s : ℕ} (hs : w.created ≤ s) : w.tasks s = 0 := by
  apply tasksOn_eq_zero
  intro t task hworker
  exact absurd (hnum.workers t s task hworker) (Nat.not_lt.mpr hs)

/-- What an event does to a socket that exists after it. -/
inductive View (w : IoServer H P τ) (e : IoEvent τ) (w' : IoServer H P τ)
    (s : ℕ) : Prop
  | same (hold : s < w.created) (hsocket : w'.sockets s = w.sockets s)
      (htasks : w'.tasks s = w.tasks s)
  | step (hold : s < w.created) {l : SocketStep}
      {next : TCPSocket × Option Task} {rest : Multiset Task}
      (hlocal : e.socketStep w = some (s, l))
      (hstep : (w.sockets s).step l = some next)
      (hsocket : w'.sockets s = next.1)
      (hbefore : w.tasks s = ofOption l.task + rest)
      (hafter : w'.tasks s = ofOption next.2 + rest)
  | fresh {accepted : Bool} {memory : Region UInt8} (hnew : w.created ≤ s)
      (hmem : accepted ∈ (e.readies w).2)
      (hsocket : w'.sockets s =
        TCPSocket.ready (e.readies w).1 accepted memory)
      (htasks : w'.tasks s = 0)

variable [DecidableEq τ] [PacketPools H P] [DecidableEq P]

theorem view_of_step {w w' : IoServer H P τ} {e : IoEvent τ}
    (hnum : WellNumbered w) (hstep : w.step e = some w') {s : ℕ}
    (hs : s < w'.created) : View w e w' s := by
  have hnum' := hnum.step hstep
  cases effect_of_step hnum hstep with
  | outside hlocal hgrows =>
      by_cases hold : s < w.created
      · refine View.same hold (hgrows.old s (by omega)) ?_
        rw [tasks, hgrows.workers, tasks]
      · obtain ⟨accepted, hmem, memory, hsocket⟩ :=
          hgrows.fresh s (Nat.not_lt.mp hold) hs
        refine View.fresh (Nat.not_lt.mp hold) hmem hsocket ?_
        rw [tasks, hgrows.workers]
        exact hnum.tasks_eq_zero (Nat.not_lt.mp hold)
  | @system s₀ l k hs₀ hlocal _ htask hk hsockets hworkers hcreated =>
      have hold : s < w.created := hcreated ▸ hs
      have htasks : w'.tasks s = w.tasks s := by
        rw [tasks, hworkers, tasks]
      by_cases heq : s = s₀
      · subst heq
        have hbefore : w.tasks s = ofOption l.task + w.tasks s := by
          rw [htask, ofOption_none, zero_add]
        refine View.step hold hlocal hk ?_ hbefore ?_
        · rw [hsockets, Function.update_self]
        · rw [ofOption_none, zero_add, htasks]
      · refine View.same hold ?_ htasks
        rw [hsockets, Function.update_of_ne heq]
  | @thread s₀ t l next hs₀ hlocal hworker hk hgrows =>
      by_cases hold : s < w.created
      · have hsocket := hgrows.old s fun hnew =>
          absurd hold (Nat.not_lt.mpr hnew.1)
        by_cases heq : s = s₀
        · subst heq
          obtain ⟨rest, hbefore, hafter⟩ :=
            exists_tasksOn_self hworker next.2
          refine View.step hold hlocal hk ?_ hbefore ?_
          · rw [hsocket, after_sockets_self]
          · rw [tasks, hgrows.workers]
            exact hafter
        · refine View.same hold ?_ ?_
          · rw [hsocket, after_sockets_of_ne w t next heq]
          · rw [tasks, hgrows.workers]
            exact tasksOn_of_ne hworker next.2 (Ne.symm heq)
      · have hle := Nat.not_lt.mp hold
        obtain ⟨accepted, hmem, memory, hsocket⟩ := hgrows.fresh s hle hs
        refine View.fresh hle hmem hsocket ?_
        rw [tasks, hgrows.workers]
        have hne : s₀ ≠ s := by omega
        rw [after_workers, tasksOn_of_ne hworker next.2 hne]
        exact hnum.tasks_eq_zero hle

/-! ## Sums over the sockets -/

omit [Fintype τ] in
/-- How an event changes a sum over all sockets: `d` is the change that a step of
one socket makes. -/
theorem sum_sockets_of_step {f : TCPSocket → ℤ} {g : ℕ → ℤ}
    {d : TCPSocket → SocketStep → ℤ}
    (hready : ∀ inPort outcome memory,
      f (TCPSocket.ready inPort outcome memory) = g inPort)
    (hd : ∀ k l next, k.step l = some next → f next.1 = f k + d k l)
    {w w' : IoServer H P τ} {e : IoEvent τ} (hnum : WellNumbered w)
    (hstep : w.step e = some w') :
    ∑ s ∈ Finset.range w'.created, f (w'.sockets s) =
      ∑ s ∈ Finset.range w.created, f (w.sockets s) +
        ((e.socketStep w).elim 0 fun at_ => d (w.sockets at_.1) at_.2) +
        (e.readies w).2.length * g (e.readies w).1 := by
  have hupdate : ∀ s < w.created, ∀ l next,
      (w.sockets s).step l = some next →
      ∑ i ∈ Finset.range w.created,
          f (Function.update w.sockets s next.1 i) =
        ∑ i ∈ Finset.range w.created, f (w.sockets i) +
          d (w.sockets s) l := by
    intro s hs l next hk
    have hsum := sum_update (Finset.range w.created) f w.sockets
      (Finset.mem_range.mpr hs) next.1
    rw [hd _ _ _ hk] at hsum
    omega
  cases effect_of_step hnum hstep with
  | outside hlocal hgrows =>
      rw [hgrows.sum_sockets hready, hlocal, Option.elim_none, add_zero]
  | @system s l k hs hlocal hreadies _ hk hsockets _ hcreated =>
      rw [hreadies, hlocal, Option.elim_some, List.length_nil, Nat.cast_zero,
        zero_mul, add_zero, hcreated, hsockets]
      exact hupdate s hs l _ hk
  | @thread s t _ next hs hlocal _ hk hgrows =>
      rw [hgrows.sum_sockets hready, hlocal, Option.elim_some]
      congr 1
      exact hupdate s hs _ next hk

/-! ## Runs -/

/-- Conditions on the outcomes of `AcceptEx` and on the steps of sockets, as a
condition on the events of the server. -/
structure Meets (accepts : Bool → Prop)
    (allows : TCPSocket → Multiset Task → SocketStep → Prop)
    (w : IoServer H P τ) (e : IoEvent τ) : Prop where
  accepted : ∀ outcome ∈ (e.readies w).2, accepts outcome
  socket : ∀ at_ ∈ e.socketStep w,
    allows (w.sockets at_.1) (w.tasks at_.1) at_.2

instance (accepts : Bool → Prop) [DecidablePred accepts]
    (allows : TCPSocket → Multiset Task → SocketStep → Prop)
    [∀ k tasks l, Decidable (allows k tasks l)] (w : IoServer H P τ)
    (e : IoEvent τ) : Decidable (Meets accepts allows w e) :=
  decidable_of_iff ((∀ outcome ∈ (e.readies w).2, accepts outcome) ∧
      ∀ at_ ∈ e.socketStep w,
        allows (w.sockets at_.1) (w.tasks at_.1) at_.2)
    ⟨fun h => ⟨h.1, h.2⟩, fun h => ⟨h.accepted, h.socket⟩⟩

theorem along_meets_true (w : IoServer H P τ) (es : List (IoEvent τ)) :
    Along step (Meets (fun _ => True) fun _ _ _ => True) w es :=
  along_of_forall fun _ _ _ => ⟨fun _ _ => trivial, fun _ _ => trivial⟩

/-- What the sockets and the tasks on them keep. -/
structure EverySocket (holds : TCPSocket → Multiset Task → Prop)
    (w : IoServer H P τ) : Prop where
  numbered : WellNumbered w
  socket : ∀ s < w.created, holds (w.sockets s) (w.tasks s)

variable {accepts : Bool → Prop}
  {allows : TCPSocket → Multiset Task → SocketStep → Prop}
  {holds : TCPSocket → Multiset Task → Prop}

theorem EverySocket.step
    (hready : ∀ inPort outcome memory, accepts outcome →
      holds (TCPSocket.ready inPort outcome memory) 0)
    (hkeep : ∀ k l next rest, holds k (ofOption l.task + rest) →
      allows k (ofOption l.task + rest) l → k.step l = some next →
      holds next.1 (ofOption next.2 + rest))
    {w w' : IoServer H P τ} {e : IoEvent τ} (h : EverySocket holds w)
    (hmeets : Meets accepts allows w e) (hstep : w.step e = some w') :
    EverySocket holds w' := by
  refine ⟨h.numbered.step hstep, ?_⟩
  intro s hs
  cases view_of_step h.numbered hstep hs with
  | same hold hsocket htasks =>
      rw [hsocket, htasks]
      exact h.socket s hold
  | step hold hlocal hlstep hsocket hbefore hafter =>
      have hallows := hmeets.socket _ hlocal
      have hholds := h.socket s hold
      rw [hbefore] at hallows hholds
      rw [hsocket, hafter]
      exact hkeep _ _ _ _ hholds hallows hlstep
  | fresh _ hmem hsocket htasks =>
      rw [hsocket, htasks]
      exact hready _ _ _ (hmeets.accepted _ hmem)

/-- What holds of a new socket and is kept by the steps of a socket holds of every
socket of the server in every run. -/
theorem everySocket_of_run
    (hready : ∀ inPort outcome memory, accepts outcome →
      holds (TCPSocket.ready inPort outcome memory) 0)
    (hkeep : ∀ k l next rest, holds k (ofOption l.task + rest) →
      allows k (ofOption l.task + rest) l → k.step l = some next →
      holds next.1 (ofOption next.2 + rest))
    {pools : H} {clientSize : ℤ} {memory : ℕ → Region UInt8}
    {es : List (IoEvent τ)} {w : IoServer H P τ}
    (halong : Along step (Meets accepts allows)
      (start pools clientSize memory) es)
    (hrun : run step (start pools clientSize memory) es = some w) :
    EverySocket holds w := by
  have hinit : EverySocket holds
      (start pools clientSize memory : IoServer H P τ) :=
    ⟨wellNumbered_start pools clientSize memory, fun s hs => by cases hs⟩
  exact invariant_of_along
    (fun _ _ _ h hmeets hstep => h.step hready hkeep hmeets hstep) hinit halong
    hrun

end

end IoServer

end DokeviNet
