import DokeviNetwork.Server.Frames
import DokeviNetwork.Server.Sends
import DokeviNetwork.Support.Simulation

/-!
# What the IO threads have left to do

A completion of a socket leads to so many steps of a thread: those of its handler,
and for a receive three for each frame that it may complete.  Nothing that the
threads do queues another completion, so once the system ends no more operations
on a socket they come to an end of it, however they interleave, and then they have
handled all that was queued.
-/

namespace DokeviNet

open Framing LabelledRun Workers

/-! ## How much is left -/

/-- A header, a call and a return for each byte at most. -/
def RecvSide.work (s : RecvSide) : ℕ := s.variant + s.recvSize.toNat

/-- The steps of a thread from this one to the end of the handler, without those
that `RecvSide.work` stands for. -/
def Task.work : Task → ℕ
  | .connect => 5
  | .arm => 4
  | .greet => 3
  | .greeting => 2
  | .count => 1
  | .copy inSize => 3 * inSize.toNat + 3
  | .parse => 2
  | .handle | .repost | .written => 1
  | .close _ => 5
  | .rearm => 4
  | .dismiss => 3
  | .dismissing => 2
  | .uncount => 1

/-- What a thread without a task has left is nothing. -/
def Task.workOf (task : Option Task) : ℕ := task.elim 0 Task.work

/-- The thread that takes the completion, and its handler. -/
def Completion.work (c : Completion) : ℕ := Task.workOf c.dispatch + 1

namespace RecvSide

variable {s s' : RecvSide}

theorem not_handsOver_of_recvLen (hstep : s.recvStep = .recvLen) :
    ¬s.HandsOver := by
  intro hhands
  rw [hhands.1] at hstep
  cases hstep

/-- A pass that hands a packet over pays for the call and the return, and any
other that asks for a further one for itself. -/
theorem work_of_again (hpass : s.pass = .again s')
    (hpos : s.recvStep = .recvBody → s.packetSize ≠ 0) :
    s'.work + 1 + (if s.HandsOver then 1 else 0) ≤ s.work := by
  cases again_of_pass hpass with
  | header hstep hsize =>
      rw [if_neg (not_handsOver_of_recvLen hstep)]
      simp only [work, variant, hstep, if_true, reduceCtorEq, if_false]
      omega
  | packet hstep hsize hmore =>
      have hover := UInt32.toNat_sub_of_le _ _ hsize
      have hle := UInt32.le_iff_toNat_le.mp hsize
      have hne : s.packetSize.toNat ≠ 0 := fun heq =>
        hpos hstep (UInt32.toNat_inj.mp heq)
      rw [if_pos ⟨hstep, hsize⟩]
      simp only [work, variant, hstep, hover, if_true, reduceCtorEq, if_false]
      omega

theorem work_of_stop (hpass : s.pass = .stop s')
    (hpos : s.recvStep = .recvBody → s.packetSize ≠ 0) :
    s'.work + (if s.HandsOver then 2 else 0) ≤ s.work := by
  cases stop_of_pass hpass with
  | noHeader hstep hsize =>
      rw [if_neg (not_handsOver_of_recvLen hstep), Nat.add_zero]
  | noPacket hstep hsize =>
      have hhands : ¬s.HandsOver := fun hhands =>
        hsize (UInt32.le_iff_toNat_le.mp hhands.2)
      rw [if_neg hhands, Nat.add_zero]
  | lastPacket hstep hsize hnone =>
      have hle := UInt32.le_iff_toNat_le.mp hsize
      have hne : s.packetSize.toNat ≠ 0 := fun heq =>
        hpos hstep (UInt32.toNat_inj.mp heq)
      rw [if_pos ⟨hstep, hsize⟩]
      simp only [work, variant, hstep, if_true, reduceCtorEq, if_false,
        UInt32.toNat_zero]
      omega

theorem work_copyIn (s : RecvSide) (recvBuf : Chunk) :
    (s.copyIn recvBuf).work ≤ s.work + 3 * recvBuf.size.toNat := by
  have hsize : (s.recvSize + recvBuf.size).toNat ≤
      s.recvSize.toNat + recvBuf.size.toNat := by
    rw [UInt32.toNat_add]
    exact Nat.mod_le _ _
  change 2 * (s.recvSize + recvBuf.size).toNat +
      (if s.recvStep = .recvLen then 1 else 0) +
        (s.recvSize + recvBuf.size).toNat ≤
    2 * s.recvSize.toNat + (if s.recvStep = .recvLen then 1 else 0) +
      s.recvSize.toNat + _
  omega

end RecvSide

namespace TCPSocket

/-- What the threads have left to do for a socket. -/
def work (k : TCPSocket) (tasks : Multiset Task) : ℕ :=
  k.recv.work + (k.queue.map Completion.work).sum + (tasks.map Task.work).sum

theorem work_ofOption_add (k : TCPSocket) (task : Option Task)
    (rest : Multiset Task) :
    k.work (ofOption task + rest) = k.work rest + Task.workOf task := by
  rw [work, work, Multiset.map_add, Multiset.sum_add]
  cases task with
  | none => simp [Task.workOf]
  | some task =>
      simp only [ofOption_some, Multiset.map_singleton, Multiset.sum_singleton,
        Task.workOf, Option.elim_some]
      omega

variable {k : TCPSocket} {rest : Multiset Task}

/-- A pass of the loop, with the return from `PacketHandler` if it hands a packet
over. -/
theorem work_parse {next : TCPSocket × Option Task} (hparse : k.parse = next)
    (hpos : k.recv.recvStep = .recvBody → k.recv.packetSize ≠ 0) :
    next.1.work rest + Task.workOf next.2 +
        (if k.recv.HandsOver then 1 else 0) ≤ k.work rest + 1 := by
  subst hparse
  have hwork : ∀ recv : RecvSide,
      work { k with recv := recv } rest + k.recv.work =
        k.work rest + recv.work := by
    intro recv
    simp only [work]
    omega
  unfold parse
  split
  · next recv hpass =>
      have hle := RecvSide.work_of_again hpass hpos
      have hsame := hwork recv
      simp only [Task.workOf, Option.elim_some, Task.work]
      omega
  · next recv hpass =>
      have hle := RecvSide.work_of_stop hpass hpos
      have hsame := hwork recv
      simp only [Task.workOf, Option.elim_some, Task.work]
      by_cases hhands : k.recv.HandsOver
      · rw [if_pos hhands] at hle ⊢
        omega
      · rw [if_neg hhands] at hle ⊢
        omega

theorem Mark.workOf_lt {task : Task} {ok : Bool} {e : SocketEvent}
    {next : Option Task} (hmark : Mark task ok e next) :
    Task.workOf next < task.work := by
  cases hmark <;> exact Nat.le_of_ble_eq_true rfl

/-- Every step of a thread uses some of it up. -/
theorem work_step {l : SocketStep} {next : TCPSocket × Option Task}
    (hstep : k.step l = some next) (hends : ∀ c data, l ≠ .ends c data)
    (hpos : k.recv.recvStep = .recvBody → k.recv.packetSize ≠ 0)
    (hhands : ∀ ok, l = .advance .handle ok → k.recv.HandsOver) :
    next.1.work (ofOption next.2 + rest) + 1 ≤
      k.work (ofOption l.task + rest) := by
  rw [work_ofOption_add, work_ofOption_add]
  cases change_of_step hstep with
  | acceptEnds | recvEnds | sendEnds => exact absurd rfl (hends _ _)
  | @take c hmem =>
      have hsum := ((List.perm_cons_erase hmem).map Completion.work).sum_eq
      rw [List.map_cons, List.sum_cons, Completion.work] at hsum
      simp only [work, hsum, SocketStep.task]
      change _ ≤ _ + 0
      omega
  | mark hmark =>
      exact Nat.add_le_add_left hmark.workOf_lt _
  | arm | handsOver | repost | written => exact Nat.le_refl _
  | @copy ok inSize =>
      have hrecv := k.recv.work_copyIn { data := k.recvBuf, size := inSize }
      change (k.copyIn inSize).recv.work ≤ _ + 3 * inSize.toNat at hrecv
      change (k.copyIn inSize).recv.work +
          (k.queue.map Completion.work).sum + (rest.map Task.work).sum + 2 + 1 ≤
        k.recv.work + (k.queue.map Completion.work).sum +
          (rest.map Task.work).sum + (3 * inSize.toNat + 3)
      omega
  | @pass ok recv next hnot =>
      have hparse : k.parse = ({ k with recv := recv }, some next) := by
        have hadvance := Option.some.inj hstep
        rwa [advance, if_neg hnot] at hadvance
      have hle := @work_parse k rest _ hparse hpos
      rw [if_neg hnot] at hle
      exact Nat.add_le_add_right hle 1
  | @returns ok recv next =>
      have hparse : (k.note .packetReturns).parse =
          ({ k.note .packetReturns with recv := recv }, some next) :=
        Option.some.inj hstep
      have hle := @work_parse (k.note .packetReturns) rest _ hparse hpos
      rw [if_pos (show (k.note .packetReturns).recv.HandsOver from
        hhands ok rfl)] at hle
      exact hle

theorem delivered_step {l : SocketStep} {next : TCPSocket × Option Task}
    (hstep : k.step l = some next) (hends : ∀ c data, l ≠ .ends c data) :
    next.1.delivered = k.delivered := by
  cases change_of_step hstep with
  | acceptEnds | recvEnds | sendEnds => exact absurd rfl (hends _ _)
  | take | mark | arm | copy | handsOver | pass | returns | repost
  | written => rfl

end TCPSocket

/-! ## The threads of the server -/

/-- The event is no end of an operation on socket `s`. -/
def IoEvent.Spares {τ : Type*} (s : ℕ) : IoEvent τ → Prop
  | .ends other _ _ => other ≠ s
  | _ => True

instance {τ : Type*} (s : ℕ) : DecidablePred (IoEvent.Spares (τ := τ) s)
  | .ends _ _ _ => inferInstanceAs (Decidable (_ ≠ _))
  | .setListenPort _ _ | .send _ _ _ _ _ | .transmit _ | .take _ _ _ |
    .advance _ _ => .isTrue trivial

namespace IoServer

variable {H P τ : Type*}

theorem stepOn_ne_ends {w : IoServer H P τ} {e : IoEvent τ} {s : ℕ}
    (h : e.Spares s) (c : Completion) (data : Region UInt8) :
    w.stepOn e s ≠ some (.ends c data) := by
  intro heq
  obtain ⟨⟨other, l⟩, hlocal, hif⟩ := Option.bind_eq_some_iff.mp heq
  split at hif
  · next hother =>
      obtain rfl := Option.some.inj hif
      cases e with
      | ends =>
          cases hlocal
          exact h hother
      | advance t ok =>
          obtain ⟨held, -, hpair⟩ := Option.map_eq_some_iff.mp hlocal
          cases hpair
      | setListenPort | send | transmit | take => cases hlocal
  · cases hif

section

variable [Fintype τ]

/-- What an event does to an old socket, given the step that it is for it. -/
inductive OnSocket (w w' : IoServer H P τ) (s : ℕ) : Option SocketStep → Prop
  | other (hsocket : w'.sockets s = w.sockets s)
      (htasks : w'.tasks s = w.tasks s) : OnSocket w w' s none
  | step {l : SocketStep} {next : TCPSocket × Option Task}
      {rest : Multiset Task} (hstep : (w.sockets s).step l = some next)
      (hsocket : w'.sockets s = next.1)
      (hbefore : w.tasks s = ofOption l.task + rest)
      (hafter : w'.tasks s = ofOption next.2 + rest) :
      OnSocket w w' s (some l)

/-- What the threads have left to do for socket `s`. -/
def work (w : IoServer H P τ) (s : ℕ) : ℕ := (w.sockets s).work (w.tasks s)

variable [DecidableEq τ] [PacketPools H P] [DecidableEq P]

theorem onSocket_of_step {w w' : IoServer H P τ} {e : IoEvent τ}
    (hnum : WellNumbered w) (hstep : w.step e = some w') {s : ℕ}
    (hs : s < w.created) : OnSocket w w' s (w.stepOn e s) := by
  have hold : ∀ {m : ℕ}, ¬(w.created ≤ s ∧ s < m) := fun hnew =>
    absurd hs (Nat.not_lt.mpr hnew.1)
  cases effect_of_step hnum hstep with
  | outside hlocal hgrows =>
      rw [stepOn_outside hlocal]
      refine OnSocket.other (hgrows.old s hold) ?_
      rw [tasks, hgrows.workers, tasks]
  | @system s₀ l k hs₀ hlocal _ htask hk hsockets hworkers _ =>
      have htasks : w'.tasks s = w.tasks s := by
        rw [tasks, hworkers, tasks]
      by_cases heq : s₀ = s
      · subst heq
        have hbefore : w.tasks s₀ = ofOption l.task + w.tasks s₀ := by
          rw [htask, ofOption_none, zero_add]
        rw [stepOn_self hlocal]
        refine OnSocket.step hk ?_ hbefore ?_
        · rw [hsockets, Function.update_self]
        · rw [ofOption_none, zero_add, htasks]
      · rw [stepOn_of_ne hlocal heq]
        refine OnSocket.other ?_ htasks
        rw [hsockets, Function.update_of_ne (Ne.symm heq)]
  | @thread s₀ t l next hs₀ hlocal hworker hk hgrows =>
      have hsocket := hgrows.old s hold
      by_cases heq : s₀ = s
      · subst heq
        obtain ⟨rest, hbefore, hafter⟩ := exists_tasksOn_self hworker next.2
        rw [stepOn_self hlocal]
        refine OnSocket.step hk ?_ hbefore ?_
        · rw [hsocket, after_sockets_self]
        · rw [tasks, hgrows.workers]
          exact hafter
      · rw [stepOn_of_ne hlocal heq]
        refine OnSocket.other ?_ ?_
        · rw [hsocket, after_sockets_of_ne w t next (Ne.symm heq)]
        · rw [tasks, hgrows.workers]
          exact tasksOn_of_ne hworker next.2 heq

omit [Fintype τ] in
theorem created_le_of_step {w w' : IoServer H P τ} {e : IoEvent τ}
    (hnum : WellNumbered w) (hstep : w.step e = some w') :
    w.created ≤ w'.created := by
  cases effect_of_step hnum hstep with
  | outside _ hgrows => exact hgrows.created_le
  | system _ _ _ _ _ _ _ hcreated => exact hcreated.ge
  | thread _ _ _ _ hgrows => exact hgrows.created_le

/-- Socket `s`, to which `chunks` have been delivered, with `n` steps left. -/
structure Winding (w : IoServer H P τ) (s : ℕ) (chunks : List Chunk) (n : ℕ) :
    Prop where
  every : EverySocket TCPSocket.Framed w
  old : s < w.created
  delivered : (w.sockets s).delivered = chunks
  left : w.work s = n

omit [PacketPools H P] [DecidableEq P] in
/-- The packet that is awaited has a length, as all that were delivered have. -/
theorem Winding.packetSize_ne_zero {w : IoServer H P τ} {s : ℕ}
    {chunks : List Chunk} {n : ℕ} (h : w.Winding s chunks n)
    (hpos : ∀ n, Reads 4 lengthField (received chunks) n → n ≠ 0)
    (hbody : (w.sockets s).recv.recvStep = .recvBody) :
    (w.sockets s).recv.packetSize ≠ 0 := by
  have hframed := h.every.socket s h.old
  obtain ⟨more, hdelivered⟩ := (serialised_of_inTransit hframed.transit).order
  have hread := (hframed.consistent.taken.reads
    (hframed.consistent.reads_packetSize hbody)).append lengthField_headerOnly
      (received more)
  intro hzero
  refine hpos _ ?_ (UInt32.toNat_inj.mpr hzero)
  rw [← h.delivered, ← hdelivered, received, List.flatMap_append]
  exact hread

theorem Winding.step {w w' : IoServer H P τ} {e : IoEvent τ} {s : ℕ}
    {chunks : List Chunk} {n : ℕ} (h : w.Winding s chunks n)
    (hpos : ∀ n, Reads 4 lengthField (received chunks) n → n ≠ 0)
    (hmeets : Meets (fun _ => True) TCPSocket.CopiesFit w e)
    (hspares : e.Spares s) (hstep : w.step e = some w') :
    ∃ n', w'.Winding s chunks n' ∧ n' + (w.stepOn e s).toList.length ≤ n := by
  have hevery : EverySocket TCPSocket.Framed w' :=
    h.every.step (fun _ _ _ _ => TCPSocket.framed_ready _ _ _)
      (fun _ _ _ _ h hfits hstep => h.step hfits hstep) hmeets hstep
  have hold : s < w'.created :=
    h.old.trans_le (created_le_of_step h.every.numbered hstep)
  have hends := stepOn_ne_ends (w := w) hspares
  have hon := onSocket_of_step h.every.numbered hstep h.old
  generalize w.stepOn e s = l at hends hon ⊢
  cases hon with
  | other hsocket htasks =>
      refine ⟨n, ⟨hevery, hold, ?_, ?_⟩, Nat.le_refl n⟩
      · rw [hsocket, h.delivered]
      · rw [work, hsocket, htasks]
        exact h.left
  | @step l next rest hk hsocket hbefore hafter =>
      have hspared : ∀ c data, l ≠ .ends c data := fun c data heq =>
        hends c data (congrArg some heq)
      have hhands : ∀ ok, l = .advance .handle ok →
          (w.sockets s).recv.HandsOver := by
        intro ok heq
        apply (h.every.socket s h.old).hands
        rw [hbefore, heq]
        simp [SocketStep.task]
      have hless := @TCPSocket.work_step _ rest _ _ hk hspared
        (h.packetSize_ne_zero hpos) hhands
      refine ⟨w'.work s, ⟨hevery, hold, ?_, rfl⟩, ?_⟩
      · rw [hsocket, TCPSocket.delivered_step hk hspared, h.delivered]
      · rw [← h.left, work, work, hsocket, hafter, hbefore]
        exact hless

/-! ## To the end -/

end

end IoServer

end DokeviNet
