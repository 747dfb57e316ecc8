import DokeviNetwork.Packet.PacketSelector
import DokeviNetwork.Server.Views

/-!
# Writes on one socket

A socket has a single `_sendOverlapped`.  What keeps it from being used twice is
again a token: the outstanding `WSASend`, its completion, and the call of
`OnWriteCallback` that handles it.  It exists only while `_sendingPacket` is set;
a failed write loses it.
-/

namespace DokeviNet

open LabelledRun Workers

/-- The thread is about to run `OnWriteCallback`. -/
def Task.isWritten : Task → Bool
  | .written => true
  | _ => false

/-- The step queues the completion of a `WSASend`. -/
def SocketStep.endsSend : SocketStep → Bool
  | .ends c _ => c.ioType == .send
  | _ => false

/-- The step runs `OnWriteCallback`. -/
def SocketStep.writes : SocketStep → Bool
  | .advance task _ => task.isWritten
  | _ => false

/-- The step is the end of a `WSASend` that failed: `ThreadTask` closes the socket
or does nothing. -/
def SocketStep.dropsSend : SocketStep → Bool
  | .take c => c.ioType == .send && c.error.isSome
  | _ => false

namespace TCPSocket

/-- The completions of `WSASend` that are queued or being handled. -/
def sendTokens (k : TCPSocket) (tasks : Multiset Task) : ℕ :=
  k.queue.countP (fun c => c.ioType == .send) +
    tasks.countP fun task => task.isWritten = true

/-- `OnWriteCallback` handles the completions of the `WSASend` calls that
succeeded. -/
theorem written_dispatch (c : Completion) :
    (if c.dispatch.any Task.isWritten then 1 else 0) +
        (SocketStep.take c).dropsSend.toNat =
      if c.ioType == .send then 1 else 0 := by
  obtain ⟨ioType, transferredSize, error⟩ := c
  cases error with
  | some err =>
      by_cases herr : err = 64 <;> cases ioType <;>
        simp [Completion.dispatch, SocketStep.dropsSend, Task.isWritten, herr]
  | none =>
      by_cases hsize : transferredSize = 0 <;> cases ioType <;>
        simp [Completion.dispatch, SocketStep.dropsSend, Task.isWritten, hsize]

/-- A completion makes a token, and `OnWriteCallback` uses it up, if the write did
not fail. -/
theorem sendTokens_step {k : TCPSocket} {l : SocketStep}
    {next : TCPSocket × Option Task} (hstep : k.step l = some next)
    (rest : Multiset Task) :
    next.1.sendTokens (ofOption next.2 + rest) + l.writes.toNat +
        l.dropsSend.toNat =
      k.sendTokens (ofOption l.task + rest) + l.endsSend.toNat := by
  simp only [sendTokens, Multiset.countP_add, countP_ofOption]
  generalize rest.countP (fun task => task.isWritten = true) = n
  cases change_of_step hstep with
  | acceptEnds hc _ =>
      simp [SocketStep.task, SocketStep.writes, SocketStep.endsSend,
        SocketStep.dropsSend, hc]
  | recvEnds hc _ =>
      simp [SocketStep.task, SocketStep.writes, SocketStep.endsSend,
        SocketStep.dropsSend, hc]
  | sendEnds hc =>
      simp [SocketStep.task, SocketStep.writes, SocketStep.endsSend,
        SocketStep.dropsSend, hc]
      omega
  | @take c hmem =>
      have herase := countP_erase_add (fun c => c.ioType == .send) hmem
      have hdispatch := written_dispatch c
      simp only [SocketStep.task, SocketStep.writes, SocketStep.endsSend,
        Option.any_none, Bool.false_eq_true, if_false, Bool.toNat_false]
      omega
  | mark hmark =>
      cases hmark <;>
        simp [SocketStep.task, SocketStep.writes, SocketStep.endsSend,
          SocketStep.dropsSend, Task.isWritten, note]
  | written =>
      change k.queue.countP _ + (0 + n) + 1 + 0 =
        k.queue.countP _ + (1 + n) + 0
      omega
  | arm | copy | handsOver | repost =>
      simp [SocketStep.task, SocketStep.writes, SocketStep.endsSend,
        SocketStep.dropsSend, Task.isWritten, note, wsaRecv, copyIn]
  | pass _ hnext =>
      rcases hnext with rfl | rfl <;>
        simp [SocketStep.task, SocketStep.writes, SocketStep.endsSend,
          SocketStep.dropsSend, Task.isWritten]
  | returns hnext =>
      rcases hnext with rfl | rfl <;>
        simp [SocketStep.task, SocketStep.writes, SocketStep.endsSend,
          SocketStep.dropsSend, Task.isWritten, note]

end TCPSocket

/-! ## The send half -/

section

variable {H P : Type*} [PacketPools H P]

/-- A packet is being sent. -/
def SendSide.busy (s : SendSide P) : Bool := s.sendingPacket.isSome

theorem serverSend_busy {accepted : Bool} {h : H} {s : SendSide P} {p : P}
    (hidle : s.posted = []) (hbusy : s.busy = true) :
    (serverSend accepted h s p).posted.length ≤
      (serverSend accepted h s p).busy.toNat := by
  have hstill : (serverSend accepted h s p).busy = true := hbusy
  rw [hstill]
  cases accepted <;> simp [serverSend, hidle]

/-- `Send` posts a `WSASend` only for a packet that it makes the first. -/
theorem send_busy [DecidableEq P] [LawfulPacketPools H P] {accepted : Bool}
    {h : H} {s : SendSide P} {inData : Region UInt8} {inLen : UInt32}
    {inImmediateSend : Bool} {call : SendCall H P}
    (hsend : send accepted h s inData inLen inImmediateSend = some call)
    {n : ℕ} (hn : s.posted.length + n ≤ s.busy.toNat) :
    call.socket.posted.length + n ≤ call.socket.busy.toNat := by
  cases send_effect hsend with
  | append _ _ _ _ hsocket _ _ =>
      rw [hsocket]
      exact hn
  | first _ _ hempty _ _ hsocket _ _ =>
      have hzero : s.posted.length + n = 0 := by
        simpa [SendSide.busy, hempty] using hn
      obtain ⟨hidle, rfl⟩ := Nat.add_eq_zero_iff.mp hzero
      rw [hsocket]
      exact serverSend_busy (List.length_eq_zero_iff.mp hidle) rfl
  | link _ _ hhead _ _ _ hsocket _ _ =>
      rw [hsocket]
      exact hn

/-- `OnWriteCallback` posts the next `WSASend` for the packet that it makes the
first. -/
theorem onWriteCallback_busy {accepted : Bool} {h : H} {s : SendSide P}
    {call : CallbackCall H P}
    (hcall : onWriteCallback accepted h s = some call)
    (hidle : s.posted = []) :
    call.socket.posted.length ≤ call.socket.busy.toNat := by
  obtain ⟨temp, -, rfl⟩ := Option.map_eq_some_iff.mp hcall
  split
  · exact serverSend_busy hidle rfl
  · simp [hidle]

end

/-- A `WSASend` that ends is no longer outstanding. -/
theorem SendSystem.ends_eq_some {H P : Type*} {io io' : SendSystem H P ℕ} {s : ℕ}
    {c : Completion} (h : io.ends s c = some io') :
    ∃ sock, io'.sockets = Function.update io.sockets s sock ∧
      (io.sockets s).posted.length = sock.posted.length + 1 ∧
      sock.sendingPacket = (io.sockets s).sendingPacket := by
  unfold SendSystem.ends at h
  split at h
  · cases h
  · next post posts hposted =>
    rw [hposted]
    split at h
    · obtain rfl := Option.some.inj h
      exact ⟨_, rfl, rfl, rfl⟩
    · obtain ⟨bytes, -, rfl⟩ := Option.map_eq_some_iff.mp h
      exact ⟨_, rfl, rfl, rfl⟩

/-! ## The server -/

namespace IoServer

variable {H P τ : Type*}

/-- The step of socket `s` that an event is. -/
def stepOn (w : IoServer H P τ) (e : IoEvent τ) (s : ℕ) : Option SocketStep :=
  (e.socketStep w).bind fun at_ => if at_.1 = s then some at_.2 else none

theorem stepOn_of_ne {w : IoServer H P τ} {e : IoEvent τ} {s other : ℕ}
    {l : SocketStep} (hlocal : e.socketStep w = some (other, l))
    (hne : other ≠ s) : w.stepOn e s = none := by
  simp [stepOn, hlocal, hne]

theorem stepOn_self {w : IoServer H P τ} {e : IoEvent τ} {s : ℕ}
    {l : SocketStep} (hlocal : e.socketStep w = some (s, l)) :
    w.stepOn e s = some l := by
  simp [stepOn, hlocal]

theorem stepOn_outside {w : IoServer H P τ} {e : IoEvent τ}
    (hlocal : e.socketStep w = none) (s : ℕ) : w.stepOn e s = none := by
  simp [stepOn, hlocal]

/-- What the one step of a socket that an event is does not do, the event does to
no socket. -/
theorem stepOn_any_eq_false {w : IoServer H P τ} {e : IoEvent τ} {s : ℕ}
    {l : SocketStep} (hlocal : e.socketStep w = some (s, l))
    {p : SocketStep → Bool} (hl : p l = false) (other : ℕ) :
    (w.stepOn e other).any p = false := by
  by_cases heq : s = other
  · subst heq
    rw [stepOn_self hlocal, Option.any_some, hl]
  · rw [stepOn_of_ne hlocal heq, Option.any_none]

theorem readyAcceptEx_io (w : IoServer H P τ) (inPort : ℕ) (accepted : Bool) :
    (w.readyAcceptEx inPort accepted).io = w.io := by
  unfold readyAcceptEx
  split <;> rfl

variable [PacketPools H P] [DecidableEq P] [DecidableEq τ]

/-- Only `OnWriteCallback` changes the send halves while a thread takes a step. -/
theorem io_of_advance {w w' : IoServer H P τ} {t : τ} {s : ℕ} {task : Task}
    {ok : Bool} (hadvance : w.advance t s task ok = some w')
    (htask : task ≠ .written) : w'.io = w.io := by
  unfold advance at hadvance
  split at hadvance
  · obtain rfl := Option.some.inj hadvance
    rfl
  · obtain rfl := Option.some.inj hadvance
    rfl
  · obtain rfl := Option.some.inj hadvance
    exact readyAcceptEx_io _ _ _
  · exact absurd rfl htask
  · obtain rfl := Option.some.inj hadvance
    rfl

/-- With the `n` tokens elsewhere, the `WSASend` of socket `s` is the only one, and
only while a packet is being sent. -/
def AtMostOne (w : IoServer H P τ) (s n : ℕ) : Prop :=
  (w.io.sockets s).posted.length + n ≤ (w.io.sockets s).busy.toNat

/-- Before an event: the completion that it queues is still a `WSASend`, and the
one that it handles is a token besides the `n`. -/
def AtMostOneBefore (w : IoServer H P τ) (e : IoEvent τ) (s n : ℕ) : Prop :=
  (w.io.sockets s).posted.length + n +
      ((w.stepOn e s).any SocketStep.writes).toNat ≤
    (w.io.sockets s).busy.toNat +
      ((w.stepOn e s).any SocketStep.endsSend).toNat

section

variable {w w' : IoServer H P τ} {e : IoEvent τ} {s n : ℕ}

omit [PacketPools H P] [DecidableEq P] [DecidableEq τ] in
/-- An event that leaves the send half alone. -/
theorem AtMostOneBefore.same (h : AtMostOneBefore w e s n)
    (hio : w'.io.sockets s = w.io.sockets s)
    (hends : (w.stepOn e s).any SocketStep.endsSend = false) :
    AtMostOne w' s n := by
  rw [AtMostOneBefore, hends, Bool.toNat_false] at h
  rw [AtMostOne, hio]
  omega

theorem AtMostOneBefore.send [LawfulPacketPools H P] {accepted : Bool} {s₀ : ℕ}
    {inData : Region UInt8} {inLen : UInt32} {inImmediateSend : Bool}
    (h : AtMostOneBefore w (.send accepted s₀ inData inLen inImmediateSend) s n)
    (hstep : w.step (.send accepted s₀ inData inLen inImmediateSend) = some w') :
    AtMostOne w' s n := by
  simp only [step] at hstep
  split at hstep
  · obtain ⟨io, hio, rfl⟩ := Option.map_eq_some_iff.mp hstep
    obtain ⟨call, hcall, rfl⟩ := SendSystem.send_eq_some hio
    by_cases heq : s = s₀
    · subst heq
      simp only [AtMostOne, Function.update_self]
      exact send_busy hcall h
    · exact h.same (Function.update_of_ne heq _ _) rfl
  · cases hstep

theorem AtMostOneBefore.transmit {s₀ : ℕ}
    (h : AtMostOneBefore w (.transmit s₀) s n)
    (hstep : w.step (.transmit s₀) = some w') : AtMostOne w' s n := by
  obtain ⟨io, hio, rfl⟩ := Option.map_eq_some_iff.mp hstep
  obtain ⟨post, posts, hposted, -, rfl⟩ := SendSystem.transmit_eq_some hio
  by_cases heq : s = s₀
  · subst heq
    rw [AtMostOneBefore, hposted] at h
    simp only [AtMostOne, Function.update_self]
    exact h
  · exact h.same (Function.update_of_ne heq _ _) rfl

/-- The `WSASend` that ends is the one that the completion was before. -/
theorem AtMostOneBefore.ends {s₀ : ℕ} {c : Completion} {data : Region UInt8}
    (h : AtMostOneBefore w (.ends s₀ c data) s n)
    (hstep : w.step (.ends s₀ c data) = some w') : AtMostOne w' s n := by
  have hlocal : (IoEvent.ends s₀ c data : IoEvent τ).socketStep w =
      some (s₀, .ends c data) := rfl
  simp only [step] at hstep
  split at hstep
  · obtain ⟨k, -, hmap⟩ := Option.bind_eq_some_iff.mp hstep
    obtain ⟨io, hio, rfl⟩ := Option.map_eq_some_iff.mp hmap
    split at hio
    · next hc =>
      obtain ⟨sock, hsockets, hlength, hsending⟩ := SendSystem.ends_eq_some hio
      by_cases heq : s = s₀
      · subst heq
        have hbusy : sock.busy = (w.io.sockets s).busy := by
          rw [SendSide.busy, hsending, SendSide.busy]
        rw [AtMostOneBefore, stepOn_self hlocal] at h
        simp [SocketStep.writes, SocketStep.endsSend, hc] at h
        simp only [AtMostOne, hsockets, Function.update_self, hbusy]
        omega
      · apply h.same
        · simp only [hsockets]
          exact Function.update_of_ne heq _ _
        · rw [stepOn_of_ne hlocal (Ne.symm heq)]
          rfl
    · next hc =>
      obtain rfl := Option.some.inj hio
      apply h.same rfl
      apply stepOn_any_eq_false hlocal
      simp [SocketStep.endsSend, hc]
  · cases hstep

theorem AtMostOneBefore.take {t : τ} {s₀ : ℕ} {c : Completion}
    (h : AtMostOneBefore w (.take t s₀ c) s n)
    (hstep : w.step (.take t s₀ c) = some w') : AtMostOne w' s n := by
  simp only [step] at hstep
  split at hstep
  · obtain ⟨k, -, rfl⟩ := Option.map_eq_some_iff.mp hstep
    apply h.same rfl
    exact stepOn_any_eq_false rfl rfl s
  · cases hstep

/-- `OnWriteCallback` uses up its token before it posts the next `WSASend`. -/
theorem AtMostOneBefore.written {t : τ} {ok : Bool} {s₀ : ℕ}
    (h : AtMostOneBefore w (.advance t ok) s n)
    (hlocal : (IoEvent.advance t ok).socketStep w =
      some (s₀, .advance .written ok))
    (hadvance : w.advance t s₀ .written ok = some w') : AtMostOne w' s n := by
  obtain ⟨io, hio, rfl⟩ := Option.map_eq_some_iff.mp hadvance
  obtain ⟨call, hcall, rfl⟩ := SendSystem.onWriteCallback_eq_some hio
  by_cases heq : s₀ = s
  · subst heq
    rw [AtMostOneBefore, stepOn_self hlocal] at h
    simp [SocketStep.writes, Task.isWritten, SocketStep.endsSend] at h
    have hbusy := Bool.toNat_le (w.io.sockets s₀).busy
    have hidle : (w.io.sockets s₀).posted = [] :=
      List.length_eq_zero_iff.mp (by omega)
    have hafter := onWriteCallback_busy hcall hidle
    simp only [AtMostOne, Function.update_self]
    omega
  · apply h.same (Function.update_of_ne (Ne.symm heq) _ _)
    rw [stepOn_of_ne hlocal heq]
    rfl

theorem AtMostOneBefore.advance {t : τ} {ok : Bool}
    (h : AtMostOneBefore w (.advance t ok) s n)
    (hstep : w.step (.advance t ok) = some w') : AtMostOne w' s n := by
  simp only [step] at hstep
  split at hstep
  · cases hstep
  · next s₀ task hworker =>
    have hlocal : (IoEvent.advance t ok).socketStep w =
        some (s₀, .advance task ok) := by
      simp [IoEvent.socketStep, hworker]
    by_cases htask : task = .written
    · subst htask
      exact h.written hlocal hstep
    · apply h.same
      · rw [io_of_advance hstep htask]
      · exact stepOn_any_eq_false hlocal rfl s

/-- What an event does to the `WSASend` of a socket, whatever tokens it leaves
elsewhere. -/
theorem AtMostOneBefore.step [LawfulPacketPools H P]
    (h : AtMostOneBefore w e s n) (hstep : w.step e = some w') :
    AtMostOne w' s n := by
  cases e with
  | setListenPort inPort accepted =>
      obtain rfl := Option.some.inj hstep
      have hio := foldl_readyAcceptEx (fun w => w.io) readyAcceptEx_io inPort
        accepted { w with listenPorts := inPort :: w.listenPorts }
      exact h.same (congrFun (congrArg SendSystem.sockets hio) s) rfl
  | send accepted s₀ inData inLen inImmediateSend => exact h.send hstep
  | transmit s₀ => exact h.transmit hstep
  | ends s₀ c data => exact h.ends hstep
  | take t s₀ c => exact h.take hstep
  | advance t ok => exact h.advance hstep

end

variable [Fintype τ]

omit [DecidableEq τ] [PacketPools H P] [DecidableEq P] in
/-- New sockets have no tokens. -/
theorem Grows.sendTokens_eq {w w' : IoServer H P τ} {inPort : ℕ}
    {accepted : List Bool} (h : Grows w w' inPort accepted) {s : ℕ}
    (hnone : w.created ≤ s → (w.sockets s).sendTokens (w.tasks s) = 0) :
    (w'.sockets s).sendTokens (w'.tasks s) =
      (w.sockets s).sendTokens (w.tasks s) := by
  have htasks : w'.tasks s = w.tasks s := by
    rw [tasks, h.workers, tasks]
  rw [htasks]
  by_cases hnew : w.created ≤ s ∧ s < w'.created
  · obtain ⟨outcome, -, memory, hsocket⟩ := h.fresh s hnew.1 hnew.2
    have hzero := hnone hnew.1
    rw [TCPSocket.sendTokens, Nat.add_eq_zero_iff] at hzero
    rw [hsocket, TCPSocket.sendTokens, TCPSocket.sendTokens, hzero.1, hzero.2]
    rfl
  · rw [h.old s hnew]

omit [DecidableEq τ] [PacketPools H P] [DecidableEq P] in
theorem WellNumbered.sendTokens_eq_zero {w : IoServer H P τ}
    (hnum : WellNumbered w) {s : ℕ} (hs : w.created ≤ s) :
    (w.sockets s).sendTokens (w.tasks s) = 0 := by
  obtain ⟨inPort, memory, hsocket⟩ := hnum.fresh s hs
  rw [hnum.tasks_eq_zero hs, hsocket]
  rfl

/-- A queued completion makes a token of a socket, and `OnWriteCallback` uses it
up, or it is dropped; no other event changes them. -/
theorem sendTokens_of_step {w w' : IoServer H P τ} {e : IoEvent τ}
    (hnum : WellNumbered w) (hstep : w.step e = some w') (s : ℕ) :
    (w'.sockets s).sendTokens (w'.tasks s) +
        ((w.stepOn e s).any SocketStep.writes).toNat +
        ((w.stepOn e s).any SocketStep.dropsSend).toNat =
      (w.sockets s).sendTokens (w.tasks s) +
        ((w.stepOn e s).any SocketStep.endsSend).toNat := by
  cases effect_of_step hnum hstep with
  | outside hlocal hgrows =>
      rw [stepOn_outside hlocal,
        hgrows.sendTokens_eq fun hs => hnum.sendTokens_eq_zero hs]
      rfl
  | @system s₀ l k _ hlocal _ htask hk hsockets hworkers _ =>
      have htasks : w'.tasks s = w.tasks s := by
        rw [tasks, hworkers, tasks]
      rw [htasks, hsockets]
      by_cases heq : s₀ = s
      · subst heq
        have htokens := TCPSocket.sendTokens_step hk (w.tasks s₀)
        rw [htask, ofOption_none, zero_add] at htokens
        rw [stepOn_self hlocal, Function.update_self]
        exact htokens
      · rw [stepOn_of_ne hlocal heq, Function.update_of_ne (Ne.symm heq)]
        rfl
  | @thread s₀ t l next hs₀ hlocal hworker hk hgrows =>
      by_cases heq : s₀ = s
      · subst heq
        obtain ⟨rest, hbefore, hafter⟩ := exists_tasksOn_self hworker next.2
        have htokens := TCPSocket.sendTokens_step hk rest
        have htasks : w.tasks s₀ = ofOption l.task + rest := hbefore
        have htasks' : (w.after t s₀ next).tasks s₀ =
            ofOption next.2 + rest := hafter
        have hold : ¬ (w.after t s₀ next).created ≤ s₀ := Nat.not_le.mpr hs₀
        rw [hgrows.sendTokens_eq fun hs => absurd hs hold, after_sockets_self,
          htasks', stepOn_self hlocal, htasks]
        exact htokens
      · have htasks : (w.after t s₀ next).tasks s = w.tasks s :=
          tasksOn_of_ne hworker next.2 heq
        have hnone : (w.after t s₀ next).created ≤ s →
            ((w.after t s₀ next).sockets s).sendTokens
              ((w.after t s₀ next).tasks s) = 0 := by
          intro hs
          rw [after_sockets_of_ne w t next (Ne.symm heq), htasks]
          exact hnum.sendTokens_eq_zero hs
        rw [hgrows.sendTokens_eq hnone,
          after_sockets_of_ne w t next (Ne.symm heq), htasks,
          stepOn_of_ne hlocal heq]
        rfl

/-- The token of every socket: there is at most one, and only while a packet is
being sent. -/
structure OneWrite (w : IoServer H P τ) : Prop where
  numbered : WellNumbered w
  token : ∀ s, (w.io.sockets s).posted.length +
    (w.sockets s).sendTokens (w.tasks s) ≤ (w.io.sockets s).busy.toNat

theorem OneWrite.step [LawfulPacketPools H P] {w w' : IoServer H P τ}
    {e : IoEvent τ} (h : OneWrite w) (hstep : w.step e = some w') :
    OneWrite w' := by
  refine ⟨h.numbered.step hstep, fun s => ?_⟩
  have hbefore : AtMostOneBefore w e s
      ((w'.sockets s).sendTokens (w'.tasks s)) := by
    have htokens := sendTokens_of_step h.numbered hstep s
    have hone := h.token s
    rw [AtMostOneBefore]
    omega
  exact hbefore.step hstep

omit [DecidableEq τ] [PacketPools H P] [DecidableEq P] in
theorem oneWrite_start (pools : H) (clientSize : ℤ)
    (memory : ℕ → Region UInt8) :
    OneWrite (start pools clientSize memory : IoServer H P τ) := by
  refine ⟨wellNumbered_start pools clientSize memory, fun s => ?_⟩
  have htasks : (start pools clientSize memory : IoServer H P τ).tasks s = 0 :=
    (wellNumbered_start pools clientSize memory).tasks_eq_zero (Nat.zero_le s)
  rw [htasks]
  simp [start, SendSystem.start, TCPSocket.sendTokens, TCPSocket.ready]

/-- A write on socket `0` completes while the application sends again. -/
def secondWrite : List (IoEvent Bool) :=
  [.setListenPort 80 [true], .send true 0 (Region.ofList 0 [1]) 1 true,
    .transmit 0, .ends 0 (.done .send 5) (Region.ofList 0 []),
    .send true 0 (Region.ofList 0 [2]) 1 true, .take true 0 (.done .send 5)]

end IoServer

end DokeviNet
