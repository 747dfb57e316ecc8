import DokeviNetwork.Support.Run
import Mathlib.Data.List.Perm.Basic
import Mathlib.Data.List.Range

/-!
# The socket and the thread of a client

`IndependentNetworkClient` owns a socket and a receive thread and keeps one
flag for both, `_disconnect`.  This module follows the calls of `Connect`,
`Wait` and `Disconnect` and the destructor, and counts what is opened and
closed, started and joined.  A join that the thread library would refuse, and
one through a pointer that was never set, are recorded like any other.
-/

namespace DokeviNet

open LabelledRun

/-- A socket handle of the system.  Handles are multiples of four. -/
structure SocketHandle where
  value : ℕ
  aligned : 4 ∣ value

/-- How a call of `Connect` goes: `socket()` fails, `connect()` fails on the new
socket, or both succeed. -/
inductive ConnectOutcome
  | noSocket
  | refused (socket : SocketHandle)
  | connected (socket : SocketHandle)

/-- A call on the client. -/
inductive LifecycleOp
  | connect (outcome : ConnectOutcome)
  | wait
  | disconnect

/-- `_disconnect`, `_listenSocket` and `_recvThread`, a pointer to one of the
threads started or `none` while it was never set.  The other fields are
history variables: the sockets opened, the arguments of `closesocket`, the
number of threads started and the threads joined. -/
structure ClientLifecycle where
  disconnectFlag : Bool
  listenSocket : Option SocketHandle
  recvThread : Option ℕ
  opened : List ℕ
  closed : List ℕ
  threads : ℕ
  joined : List (Option ℕ)

namespace ClientLifecycle

/-- A new object; the constructor does not set `_disconnect`. -/
def constructed (disconnectFlag : Bool) : ClientLifecycle where
  disconnectFlag := disconnectFlag
  listenSocket := none
  recvThread := none
  opened := []
  closed := []
  threads := 0
  joined := []

/-- `socket()` has returned `socket`. -/
def openSocket (s : ClientLifecycle) (socket : SocketHandle) :
    ClientLifecycle :=
  { s with
    listenSocket := some socket
    opened := s.opened ++ [socket.value] }

/-- `closesocket` on the handle `h`. -/
def closesocket (s : ClientLifecycle) (h : ℕ) : ClientLifecycle :=
  { s with closed := s.closed ++ [h] }

/-- `_recvThread->join()`. -/
def join (s : ClientLifecycle) : ClientLifecycle :=
  { s with joined := s.joined ++ [s.recvThread] }

/-- `Connect`. -/
def connect (s : ClientLifecycle) (outcome : ConnectOutcome) :
    ClientLifecycle :=
  let s := { s with disconnectFlag := false }
  match outcome with
  | .noSocket => { s with listenSocket := none }
  | .refused socket => (s.openSocket socket).closesocket socket.value
  | .connected socket =>
    { s.openSocket socket with
      recvThread := some s.threads
      threads := s.threads + 1 }

/-- `Wait`. -/
def wait (s : ClientLifecycle) : ClientLifecycle := s.join

/-- `Disconnect`.  What it passes to `closesocket` is `_disconnect`, by then
true, that is 1. -/
def disconnect (s : ClientLifecycle) : ClientLifecycle :=
  let s := { s with disconnectFlag := true }
  (s.closesocket s.disconnectFlag.toNat).join

/-- The destructor. -/
def destroyed (s : ClientLifecycle) : ClientLifecycle :=
  if s.disconnectFlag then s else s.disconnect

/-- One call; `Wait` and `Disconnect` only once a `Connect` has succeeded. -/
def step (s : ClientLifecycle) : LifecycleOp → Option ClientLifecycle
  | .connect outcome => some (s.connect outcome)
  | .wait => if s.threads = 0 then none else some s.wait
  | .disconnect => if s.threads = 0 then none else some s.disconnect

/-- Every socket opened was closed once and nothing else was; every thread
started was joined once and nothing else was. -/
def Balanced (s : ClientLifecycle) : Prop :=
  s.closed.Perm s.opened ∧ s.joined.Perm ((List.range s.threads).map some)

instance (s : ClientLifecycle) : Decidable s.Balanced :=
  inferInstanceAs (Decidable (_ ∧ _))

/-- What the calls leave: only handles are opened, and the flag is set by nobody
but `Disconnect`, which closes 1. -/
structure Follows (initial : Bool) (past : List LifecycleOp)
    (s : ClientLifecycle) : Prop where
  handles : ∀ h ∈ s.opened, 4 ∣ h
  fresh : past = [] → s = constructed initial
  flag : past ≠ [] → s.disconnectFlag = true → 1 ∈ s.closed

theorem follows_constructed (initial : Bool) :
    Follows initial [] (constructed initial) where
  handles := by simp [constructed]
  fresh _ := rfl
  flag h := absurd rfl h

theorem Follows.connect {initial : Bool} {past : List LifecycleOp}
    {s : ClientLifecycle} (h : Follows initial past s)
    (outcome : ConnectOutcome) :
    Follows initial (past ++ [.connect outcome]) (s.connect outcome) where
  handles := by
    cases outcome with
    | noSocket => exact h.handles
    | refused socket =>
        intro k hk
        rcases List.mem_append.mp hk with hk | hk
        · exact h.handles k hk
        · exact List.mem_singleton.mp hk ▸ socket.aligned
    | connected socket =>
        intro k hk
        rcases List.mem_append.mp hk with hk | hk
        · exact h.handles k hk
        · exact List.mem_singleton.mp hk ▸ socket.aligned
  fresh hnil := by simp at hnil
  flag _ hflag := by cases outcome <;> cases hflag

theorem Follows.wait {initial : Bool} {past : List LifecycleOp}
    {s : ClientLifecycle} (h : Follows initial past s)
    (hthreads : s.threads ≠ 0) :
    Follows initial (past ++ [.wait]) s.wait where
  handles := h.handles
  fresh hnil := by simp at hnil
  flag _ hflag := by
    refine h.flag ?_ hflag
    intro hnil
    rw [h.fresh hnil] at hthreads
    exact hthreads rfl

theorem Follows.disconnect {initial : Bool} {past : List LifecycleOp}
    {s : ClientLifecycle} (h : Follows initial past s) :
    Follows initial (past ++ [.disconnect]) s.disconnect where
  handles := h.handles
  fresh hnil := by simp at hnil
  flag _ _ := List.mem_append.mpr (Or.inr (by simp))

theorem Follows.step {initial : Bool} {past : List LifecycleOp}
    {s s' : ClientLifecycle} {op : LifecycleOp} (h : Follows initial past s)
    (hstep : s.step op = some s') : Follows initial (past ++ [op]) s' := by
  cases op with
  | connect outcome => exact Option.some.inj hstep ▸ h.connect outcome
  | wait =>
      simp only [ClientLifecycle.step] at hstep
      split at hstep
      · cases hstep
      · next hthreads => exact Option.some.inj hstep ▸ h.wait hthreads
  | disconnect =>
      simp only [ClientLifecycle.step] at hstep
      split at hstep
      · cases hstep
      · exact Option.some.inj hstep ▸ h.disconnect

/-- One is no handle, so what was closed is more than what was opened. -/
theorem not_balanced_of_one_mem {s : ClientLifecycle}
    (hhandles : ∀ h ∈ s.opened, 4 ∣ h) (hone : 1 ∈ s.closed) :
    ¬s.Balanced := by
  intro hbalanced
  have hdvd := hhandles 1 (hbalanced.1.mem_iff.mp hone)
  omega

/-- The resources balance only for an object that is never used, and whose
`_disconnect` happened to be true from the start. -/
theorem balanced_iff_unused {initial : Bool} {ops : List LifecycleOp}
    {s : ClientLifecycle}
    (hrun : run step (constructed initial) ops = some s) :
    s.destroyed.Balanced ↔ ops = [] ∧ initial = true := by
  have h : Follows initial ops s :=
    history_of_run (fun _ _ _ _ hinv hstep => Follows.step hinv hstep)
      (follows_constructed initial) hrun
  constructor
  · intro hbalanced
    cases hflag : s.disconnectFlag with
    | false =>
        rw [destroyed, if_neg (by simp [hflag])] at hbalanced
        have hclosed : 1 ∈ s.disconnect.closed :=
          List.mem_append.mpr (Or.inr (by simp))
        exact absurd hbalanced
          (@not_balanced_of_one_mem s.disconnect h.handles hclosed)
    | true =>
        rw [destroyed, if_pos hflag] at hbalanced
        have hnil : ops = [] := by
          by_contra hne
          exact not_balanced_of_one_mem h.handles (h.flag hne hflag) hbalanced
        refine ⟨hnil, ?_⟩
        rw [h.fresh hnil] at hflag
        exact hflag
  · rintro ⟨hnil, rfl⟩
    rw [h.fresh hnil]
    decide

/-- The socket 4 is opened and never closed; 1 is closed in its place. -/
theorem connect_disconnect_not_balanced :
    ∃ s, run step (constructed false)
        [.connect (.connected ⟨4, by decide⟩), .disconnect] = some s ∧
      s.destroyed.opened = [4] ∧ s.destroyed.closed = [1] ∧
      ¬s.destroyed.Balanced :=
  ⟨_, rfl, rfl, rfl, by decide⟩

/-- The rule for an object that is never used, and for one that is used as it
should be. -/
theorem balanced_iff_unused_constructed :
    (constructed true).destroyed.Balanced ∧
      ∃ s, run step (constructed true)
          [.connect (.connected ⟨4, by decide⟩), .wait, .disconnect] =
          some s ∧
        ¬s.destroyed.Balanced := by
  refine ⟨(@balanced_iff_unused true [] _ rfl).mpr ⟨rfl, rfl⟩, _, rfl, ?_⟩
  intro hbalanced
  have hused := (@balanced_iff_unused true
    [.connect (.connected ⟨4, by decide⟩), .wait, .disconnect] _ rfl).mp
      hbalanced
  cases hused.1

end ClientLifecycle

end DokeviNet
