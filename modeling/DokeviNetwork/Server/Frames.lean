import DokeviNetwork.Server.Receives

/-!
# What the handlers are given, whatever thread calls them

The loop of `RecvPacket` is cut into its passes here, and a pass that calls
`PacketHandler` into the call and the return, so that other threads and the system
come between them.  What keeps the loop right all the same is the token of the
socket: the chunk that is copied is the one delivered next, and nobody else is in
the loop.
-/

namespace DokeviNet

open Framing LabelledRun Workers

/-- The task is a pass of the loop of `RecvPacket`. -/
def Task.inLoop : Task → Bool
  | .parse | .handle => true
  | _ => false

theorem Task.holdsToken_of_inLoop {task : Task} (h : task.inLoop = true) :
    task.holdsToken = true := by
  unfold Task.inLoop at h
  split at h
  · rfl
  · rfl
  · cases h

/-- A thread that takes a completion has yet to copy what it brought. -/
theorem Completion.not_inLoop_of_dispatch {c : Completion} :
    ∀ task ∈ c.dispatch, task.inLoop = false := by
  intro task h
  unfold Completion.dispatch at h
  split at h
  · split at h <;> cases h
    rfl
  · split at h
    · cases h
      rfl
    · split at h <;> cases h <;> rfl
    · cases h
      rfl

/-- A thread that is not in the loop and does not enter it changes nothing
there. -/
theorem Task.inLoop_swap {before after : Option Task} {rest : Multiset Task}
    (hbefore : ∀ task ∈ before, task.inLoop = false)
    (hafter : ∀ task ∈ after, task.inLoop = false) (task : Task)
    (htask : task.inLoop = true) :
    task ∈ ofOption after + rest ↔ task ∈ ofOption before + rest := by
  have hout : ∀ held : Option Task, (∀ task ∈ held, task.inLoop = false) →
      task ∉ ofOption held := by
    intro held hheld hmem
    cases held with
    | none => cases hmem
    | some other =>
        rw [Multiset.mem_singleton.mp hmem, hheld other rfl] at htask
        cases htask
  rw [Multiset.mem_add, Multiset.mem_add, or_iff_right (hout _ hafter),
    or_iff_right (hout _ hbefore)]

namespace TCPSocket

open RecvSide

/-- What is copied fits behind what `_packetBuf` holds. -/
def CopiesFit (k : TCPSocket) (_ : Multiset Task) : SocketStep → Prop
  | .advance (.copy inSize) _ =>
    k.recv.HasRoom { data := k.recvBuf, size := inSize }
  | _ => True

instance (k : TCPSocket) (tasks : Multiset Task) :
    DecidablePred (k.CopiesFit tasks)
  | .advance (.copy _) _ => inferInstanceAs (Decidable (k.recv.HasRoom _))
  | .ends _ _ | .take _ | .advance .connect _ | .advance .arm _ |
    .advance .greet _ | .advance .greeting _ | .advance .count _ |
    .advance .parse _ | .advance .handle _ | .advance .repost _ |
    .advance .written _ | .advance (.close _) _ | .advance .rearm _ |
    .advance .dismiss _ | .advance .dismissing _ | .advance .uncount _ =>
    .isTrue trivial

theorem fill_recv (k : TCPSocket) (c : Completion) (data : Region UInt8) :
    (k.fill c data).recv = k.recv := by
  unfold fill
  split <;> rfl

theorem fill_appended (k : TCPSocket) (c : Completion) (data : Region UInt8) :
    (k.fill c data).appended = k.appended := by
  unfold fill
  split <;> rfl

/-- What the receive half and the threads in the loop agree on. -/
structure Framed (k : TCPSocket) (tasks : Multiset Task) : Prop where
  transit : InTransit k tasks
  consistent : Consistent (received k.appended) k.recv
  settled : (∀ task ∈ tasks, task.inLoop = false) →
    Settled (received k.appended) k.recv
  hands : .handle ∈ tasks → k.recv.HandsOver

theorem framed_ready (inPort : ℕ) (accepted : Bool) (memory : Region UInt8) :
    Framed (ready inPort accepted memory) 0 where
  transit := inTransit_ready inPort accepted memory
  consistent := (settled_start memory 0).consistent
  settled _ := settled_start memory 0
  hands h := absurd h (Multiset.notMem_zero _)

/-- Steps outside the loop that leave the receive half alone. -/
theorem Framed.same {k k' : TCPSocket} {tasks tasks' : Multiset Task}
    (h : Framed k tasks) (htransit : InTransit k' tasks')
    (hrecv : k'.recv = k.recv) (happended : k'.appended = k.appended)
    (htasks : ∀ task, task.inLoop = true → (task ∈ tasks' ↔ task ∈ tasks)) :
    Framed k' tasks' := by
  refine ⟨htransit, ?_, ?_, ?_⟩
  · rw [happended, hrecv]
    exact h.consistent
  · intro hnone
    rw [happended, hrecv]
    apply h.settled
    intro task hmem
    by_contra hloop
    rw [Bool.not_eq_false] at hloop
    rw [hnone task ((htasks task hloop).mpr hmem)] at hloop
    cases hloop
  · intro hhandle
    rw [hrecv]
    exact h.hands ((htasks .handle rfl).mp hhandle)

/-- The thread in the loop is the only one there. -/
theorem Framed.alone {k : TCPSocket} {task : Task} {rest : Multiset Task}
    (h : Framed k ({task} + rest)) (htask : task.holdsToken = true) :
    ∀ other ∈ rest, other.inLoop = false := by
  intro other hother
  by_contra hloop
  have htoken := Task.holdsToken_of_inLoop (eq_true_of_ne_false hloop)
  rw [(alone_of_task h.transit.one htask).2 other hother] at htoken
  cases htoken

/-- A pass of the loop, by a thread that is alone in it. -/
theorem Framed.parse {k : TCPSocket} {next : TCPSocket × Option Task}
    {rest : Multiset Task}
    (hconsistent : Consistent (received k.appended) k.recv)
    (hrest : ∀ task ∈ rest, task.inLoop = false) (hparse : k.parse = next)
    (htransit : InTransit next.1 (ofOption next.2 + rest)) :
    Framed next.1 (ofOption next.2 + rest) := by
  unfold TCPSocket.parse at hparse
  split at hparse
  · next recv hpass =>
      subst hparse
      refine ⟨htransit, hconsistent.keeps hpass, ?_, ?_⟩
      · intro hnone
        cases hnone .parse (by simp)
      · intro hhandle
        cases hrest .handle (by simpa using hhandle)
  · next recv hpass =>
      subst hparse
      have hsettled := hconsistent.stop hpass
      refine ⟨htransit, hsettled.consistent, fun _ => hsettled, ?_⟩
      intro hhandle
      cases hrest .handle (by simpa using hhandle)

/-- The chunk that was delivered last goes behind what is pending. -/
theorem Framed.copy {k : TCPSocket} {inSize : UInt32} {rest : Multiset Task}
    (h : Framed k ({.copy inSize} + rest))
    (hroom : k.recv.HasRoom { data := k.recvBuf, size := inSize })
    (htransit : InTransit (k.copyIn inSize) ({.parse} + rest)) :
    Framed (k.copyIn inSize) ({.parse} + rest) := by
  have hrest := h.alone rfl
  have hsettled : Settled (received k.appended) k.recv := by
    apply h.settled
    intro task hmem
    rcases Multiset.mem_add.mp hmem with hcopy | hother
    · rw [Multiset.mem_singleton.mp hcopy]
      rfl
    · exact hrest task hother
  refine ⟨htransit, ?_, ?_, ?_⟩
  · have hcopied := hsettled.copyIn hroom
    have hreceived : received (k.copyIn inSize).appended =
        received k.appended ++
          Chunk.bytes { data := k.recvBuf, size := inSize } := by
      simp [copyIn, received]
    rw [hreceived]
    exact hcopied
  · intro hnone
    cases hnone .parse (by simp)
  · intro hhandle
    cases hrest .handle (by simpa using hhandle)

theorem Framed.step {k : TCPSocket} {l : SocketStep}
    {next : TCPSocket × Option Task} {rest : Multiset Task}
    (h : Framed k (ofOption l.task + rest))
    (hfits : k.CopiesFit (ofOption l.task + rest) l)
    (hstep : k.step l = some next) :
    Framed next.1 (ofOption next.2 + rest) := by
  have htransit := h.transit.step hstep
  cases change_of_step hstep with
  | acceptEnds => exact h.same htransit rfl rfl fun _ _ => Iff.rfl
  | recvEnds =>
      exact h.same htransit (fill_recv k _ _) (fill_appended k _ _)
        fun _ _ => Iff.rfl
  | sendEnds => exact h.same htransit rfl rfl fun _ _ => Iff.rfl
  | @take c =>
      apply h.same htransit rfl rfl
      exact Task.inLoop_swap (by simp [SocketStep.task])
        Completion.not_inLoop_of_dispatch
  | mark hmark =>
      apply h.same htransit rfl rfl
      apply Task.inLoop_swap <;> cases hmark <;>
        simp [SocketStep.task, Task.inLoop]
  | arm =>
      apply h.same htransit rfl rfl
      apply Task.inLoop_swap <;> simp [SocketStep.task, Task.inLoop]
  | copy => exact h.copy hfits htransit
  | handsOver hhands =>
      refine ⟨htransit, h.consistent, ?_, fun _ => hhands⟩
      intro hnone
      cases hnone .handle (by simp)
  | pass hhands =>
      have hparse := Option.some.inj hstep
      rw [advance, if_neg hhands] at hparse
      exact Framed.parse h.consistent (h.alone rfl) hparse htransit
  | returns =>
      have hparse := Option.some.inj hstep
      rw [advance] at hparse
      have hconsistent : Consistent (received (k.note .packetReturns).appended)
          (k.note .packetReturns).recv := h.consistent
      exact Framed.parse hconsistent (h.alone rfl) hparse htransit
  | repost =>
      apply h.same htransit rfl rfl
      apply Task.inLoop_swap <;> simp [SocketStep.task, Task.inLoop]
  | written =>
      apply h.same htransit rfl rfl
      apply Task.inLoop_swap <;> simp [SocketStep.task, Task.inLoop]

/-- The bytes that the calls of `PacketHandler` that have returned were given. -/
def packets (k : TCPSocket) : List (List UInt8) :=
  k.recv.calls.map PacketHandlerCall.bytes

end TCPSocket

namespace IoServer

variable {H P τ : Type*} [Fintype τ]

/-- Frames taken off what has been copied are taken off what was delivered. -/
theorem Serialised.taken {w : IoServer H P τ} {s : ℕ} (h : w.Serialised s)
    {frames : List (List UInt8)} {pending : List UInt8}
    (htaken : Taken 4 lengthField (received (w.sockets s).appended) frames
      pending) :
    ∃ rest,
      Taken 4 lengthField (received (w.sockets s).delivered) frames rest := by
  obtain ⟨chunks, hdelivered⟩ := h.order
  refine ⟨pending ++ received chunks, ?_⟩
  rw [← hdelivered, received, List.flatMap_append]
  exact htaken.append lengthField_headerOnly _

/-- What `PacketHandler` is given for socket `s`. -/
structure HandsOverFrames (w : IoServer H P τ) (s : ℕ) : Prop where
  /-- Frames off the front of what was delivered, in their order. -/
  taken : ∃ rest, Taken 4 lengthField (received (w.sockets s).delivered)
    (w.sockets s).packets rest
  /-- A handler that has not returned has the next one. -/
  running : ∀ t, w.workers t = some (s, .handle) →
    ∃ rest, Taken 4 lengthField (received (w.sockets s).delivered)
      ((w.sockets s).packets ++
        [(w.sockets s).recv.packetBuf.read 0
          (w.sockets s).recv.packetSize.toNat]) rest
  /-- All of each had arrived. -/
  whole : ∀ call ∈ (w.sockets s).recv.calls, call.inSize ≤ call.recvSize
  /-- With nothing to copy and nobody in the loop, all complete frames. -/
  drained : (∀ c ∈ (w.sockets s).queue, c.loaded = false) →
    (∀ t inSize, w.workers t ≠ some (s, .copy inSize)) →
    (∀ t task, w.workers t = some (s, task) → task.inLoop = false) →
    Splits 4 lengthField (received (w.sockets s).delivered)
      (w.sockets s).packets (w.sockets s).recv.pending

variable [DecidableEq τ]

theorem handsOverFrames_of_framed {w : IoServer H P τ} {s : ℕ}
    (h : TCPSocket.Framed (w.sockets s) (w.tasks s)) :
    w.HandsOverFrames s := by
  have hserialised := serialised_of_inTransit h.transit
  refine ⟨hserialised.taken h.consistent.taken, ?_, h.consistent.whole, ?_⟩
  · intro t ht
    obtain ⟨hstep, hsize⟩ := h.hands (mem_tasksOn.mpr ⟨t, ht⟩)
    exact hserialised.taken (h.consistent.taken_packet hstep hsize)
  · intro hqueue hcopy hloop
    have hcopied : (w.sockets s).delivered = (w.sockets s).appended := by
      apply h.transit.copied hqueue
      intro inSize hmem
      obtain ⟨t, ht⟩ := mem_tasksOn.mp hmem
      exact hcopy t inSize ht
    have hsettled : RecvSide.Settled (received (w.sockets s).appended)
        (w.sockets s).recv := by
      apply h.settled
      intro task hmem
      obtain ⟨t, ht⟩ := mem_tasksOn.mp hmem
      exact hloop t task ht
    rw [hcopied]
    exact hsettled.taken.stuck hsettled.stuck

variable [PacketPools H P] [DecidableEq P]

/-- In every reachable state, and whatever thread calls it, `PacketHandler` has been
given the frames of the bytes that were delivered, one after the other. -/
theorem handsOverFrames_of_run {pools : H} {clientSize : ℤ}
    {memory : ℕ → Region UInt8} {es : List (IoEvent τ)} {w : IoServer H P τ}
    (halong : Along step (Meets (fun _ => True) TCPSocket.CopiesFit)
      (start pools clientSize memory) es)
    (hrun : run step (start pools clientSize memory) es = some w) {s : ℕ}
    (hs : s < w.created) : w.HandsOverFrames s := by
  have hevery : EverySocket TCPSocket.Framed w :=
    everySocket_of_run (fun _ _ _ _ => TCPSocket.framed_ready _ _ _)
      (fun _ _ _ _ h hfits hstep => h.step hfits hstep) halong hrun
  exact handsOverFrames_of_framed (hevery.socket s hs)

/-- Socket `0` connects on one thread.  The other splits a chunk of one frame and
three bytes of the next and hands the frame over. -/
def frameAndRemainder : List (IoEvent Bool) :=
  [.setListenPort 80 [true],
    .ends 0 (.done .accept 0) (Region.ofList 0 []),
    .take false 0 (.done .accept 0), .advance false true, .advance false true,
    .ends 0 (.done .recv 8) (Region.ofList 0 [5, 0, 0, 0, 7, 6, 0, 0]),
    .take true 0 (.done .recv 8), .advance true true, .advance true true,
    .advance true true, .advance false true, .advance true true,
    .advance true true]

theorem handsOverFrames_of_run_frameAndRemainder :
    ∃ w, run step (start PacketSelector.zeroed 0 fun _ => Region.ofList 0 [])
        frameAndRemainder = some w ∧
      (w.sockets 0).packets = [[5, 0, 0, 0, 7]] ∧
      (w.sockets 0).recv.pending = [6, 0, 0] ∧ w.HandsOverFrames 0 := by
  have hrun : run step
      (start PacketSelector.zeroed 0 fun _ => Region.ofList 0 [])
      frameAndRemainder = some _ := rfl
  have halong : Along step (Meets (fun _ => True) TCPSocket.CopiesFit)
      (start PacketSelector.zeroed 0 fun _ => Region.ofList 0 [])
      frameAndRemainder := by decide
  exact ⟨_, hrun, by decide, by decide,
    handsOverFrames_of_run halong hrun (by decide)⟩

end IoServer

end DokeviNet
