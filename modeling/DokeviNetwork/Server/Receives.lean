import DokeviNetwork.Packet.PacketSelector
import DokeviNetwork.Server.Views

/-!
# Receives on one socket

`RecvPacket` takes no lock.  What keeps two threads out of it is a token that
every socket is created with: the outstanding `AcceptEx`, then its completion, the
`WSARecv` posted by `ConnectHanadler`, the completion of that, the call of
`RecvPacket` that handles it, and the `WSARecv` that this call posts last.
-/

namespace DokeviNet

open LabelledRun Workers

namespace Task

/-- The task belongs to a call of `RecvPacket` that has not posted its `WSARecv`. -/
def inRecvPacket : Task → Bool
  | .arm | .parse | .handle | .repost | .copy _ => true
  | _ => false

/-- The thread holds the token of its socket. -/
def holdsToken (task : Task) : Bool :=
  task == .connect || task.inRecvPacket

end Task

namespace Completion

/-- The completion stands for the token of its socket. -/
def isToken (c : Completion) : Bool :=
  c.ioType != .send

/-- A receive that brought something. -/
def loaded (c : Completion) : Bool :=
  c.ioType == .recv && c.error.isNone && c.transferredSize != 0

end Completion

namespace TCPSocket

/-- The tokens of a socket that no thread holds. -/
def freeTokens (k : TCPSocket) : ℕ :=
  k.accepting.toNat + k.receiving + k.queue.countP Completion.isToken

/-- The tokens of a socket, wherever they are. -/
def tokens (k : TCPSocket) (tasks : Multiset Task) : ℕ :=
  k.freeTokens + tasks.countP fun task => task.holdsToken = true

theorem freeTokens_fill (k : TCPSocket) (c : Completion)
    (data : Region UInt8) (receiving : ℕ) (queue : List Completion) :
    freeTokens { k.fill c data with receiving := receiving, queue := queue } =
      freeTokens { k with receiving := receiving, queue := queue } := by
  unfold fill
  split <;> rfl

theorem freeTokens_wsaRecv_le (k : TCPSocket) (accepted : Bool) :
    (k.wsaRecv accepted).freeTokens ≤ k.freeTokens + 1 := by
  have hreceiving : (k.wsaRecv accepted).receiving ≤ k.receiving + 1 := by
    cases accepted <;> simp [wsaRecv]
  change k.accepting.toNat + (k.wsaRecv accepted).receiving +
    k.queue.countP Completion.isToken ≤ _
  rw [freeTokens]
  omega

@[simp] theorem freeTokens_note (k : TCPSocket) (e : SocketEvent) :
    (k.note e).freeTokens = k.freeTokens := rfl

@[simp] theorem freeTokens_copyIn (k : TCPSocket) (inSize : UInt32) :
    (k.copyIn inSize).freeTokens = k.freeTokens := rfl

/-- The token of a completion goes to the thread that takes it, or is lost. -/
theorem any_dispatch (c : Completion) :
    c.dispatch.any Task.holdsToken = true → c.isToken = true := by
  unfold Completion.dispatch Completion.isToken
  split
  · split <;> simp [Task.holdsToken, Task.inRecvPacket]
  · split <;> simp_all [Task.holdsToken, Task.inRecvPacket]

/-- No step makes a token. -/
theorem tokens_step {k : TCPSocket} {l : SocketStep}
    {next : TCPSocket × Option Task} {rest : Multiset Task}
    (hstep : k.step l = some next) :
    next.1.tokens (ofOption next.2 + rest) ≤
      k.tokens (ofOption l.task + rest) := by
  simp only [tokens, Multiset.countP_add, countP_ofOption]
  generalize rest.countP (fun task => task.holdsToken = true) = n
  cases change_of_step hstep with
  | acceptEnds hc haccepting =>
      simp [freeTokens, Completion.isToken, hc, haccepting, SocketStep.task]
      omega
  | recvEnds hc hreceiving =>
      rw [freeTokens_fill]
      simp [freeTokens, Completion.isToken, hc, SocketStep.task]
      omega
  | sendEnds hc => simp [freeTokens, Completion.isToken, hc, SocketStep.task]
  | @take c hmem =>
      have herase := countP_erase_add Completion.isToken hmem
      have hdispatch := any_dispatch c
      simp only [freeTokens, SocketStep.task, Option.any_none]
      split <;> simp_all <;> omega
  | mark hmark =>
      cases hmark <;>
        simp [SocketStep.task, Task.holdsToken, Task.inRecvPacket]
  | @arm ok =>
      have hrecv := k.freeTokens_wsaRecv_le ok
      simp [SocketStep.task, Task.holdsToken, Task.inRecvPacket]
      omega
  | copy => simp [SocketStep.task, Task.holdsToken, Task.inRecvPacket]
  | handsOver => simp [SocketStep.task, Task.holdsToken, Task.inRecvPacket]
  | pass _ hnext =>
      rcases hnext with rfl | rfl <;>
        simp [freeTokens, SocketStep.task, Task.holdsToken, Task.inRecvPacket]
  | returns hnext =>
      rcases hnext with rfl | rfl <;>
        simp [freeTokens, note, SocketStep.task, Task.holdsToken,
          Task.inRecvPacket]
  | @repost ok =>
      have hrecv := k.freeTokens_wsaRecv_le ok
      simp [SocketStep.task, Task.holdsToken, Task.inRecvPacket]
      omega
  | written => simp [SocketStep.task, Task.holdsToken, Task.inRecvPacket]

/-- Where the token is, no other can be. -/
theorem alone_of_receiving {k : TCPSocket} {tasks : Multiset Task}
    (hone : k.tokens tasks ≤ 1) (hreceiving : k.receiving ≠ 0) :
    (∀ c ∈ k.queue, c.isToken = false) ∧
      ∀ task ∈ tasks, task.holdsToken = false := by
  rw [tokens, freeTokens] at hone
  constructor
  · simpa using List.countP_eq_zero.mp
      (show k.queue.countP Completion.isToken = 0 by omega)
  · simpa using Multiset.countP_eq_zero.mp
      (show tasks.countP (fun task => task.holdsToken = true) = 0 by omega)

theorem alone_of_task {k : TCPSocket} {task : Task} {rest : Multiset Task}
    (hone : k.tokens ({task} + rest) ≤ 1) (htask : task.holdsToken = true) :
    (∀ c ∈ k.queue, c.isToken = false) ∧
      ∀ other ∈ rest, other.holdsToken = false := by
  rw [tokens, freeTokens, Multiset.countP_add, ← ofOption_some,
    countP_ofOption, Option.any_some, if_pos htask] at hone
  constructor
  · simpa using List.countP_eq_zero.mp
      (show k.queue.countP Completion.isToken = 0 by omega)
  · simpa using Multiset.countP_eq_zero.mp
      (show rest.countP (fun task => task.holdsToken = true) = 0 by omega)

theorem alone_of_queued {k : TCPSocket} {tasks : Multiset Task}
    {c : Completion} (hone : k.tokens tasks ≤ 1) (hmem : c ∈ k.queue)
    (hc : c.isToken = true) :
    (∀ other ∈ k.queue.erase c, other.isToken = false) ∧
      ∀ task ∈ tasks, task.holdsToken = false := by
  have herase := countP_erase_add Completion.isToken hmem
  rw [if_pos hc] at herase
  rw [tokens, freeTokens] at hone
  constructor
  · simpa using List.countP_eq_zero.mp
      (show (k.queue.erase c).countP Completion.isToken = 0 by omega)
  · simpa using Multiset.countP_eq_zero.mp
      (show tasks.countP (fun task => task.holdsToken = true) = 0 by omega)

/-- The chunk in `_recvBuf`, of the given size, is the only one delivered and not
copied. -/
def Filled (k : TCPSocket) (size : UInt32) : Prop :=
  k.delivered = k.appended ++ [{ data := k.recvBuf, size := size }]

/-- There is one token, and what has been delivered has been copied, or is in
`_recvBuf` and on its way to be copied. -/
structure InTransit (k : TCPSocket) (tasks : Multiset Task) : Prop where
  one : k.tokens tasks ≤ 1
  queued : ∀ c ∈ k.queue, c.loaded = true → k.Filled c.transferredSize
  copying : ∀ inSize, .copy inSize ∈ tasks → k.Filled inSize
  copied : (∀ c ∈ k.queue, c.loaded = false) →
    (∀ inSize, .copy inSize ∉ tasks) → k.delivered = k.appended

theorem isToken_of_loaded {c : Completion} (h : c.loaded = true) :
    c.isToken = true := by
  unfold Completion.loaded at h
  unfold Completion.isToken
  simp_all

theorem loaded_of_not_isToken {c : Completion} (h : c.isToken = false) :
    c.loaded = false := by
  by_contra hloaded
  rw [isToken_of_loaded (eq_true_of_ne_false hloaded)] at h
  cases h

theorem dispatch_of_loaded {c : Completion} (h : c.loaded = true) :
    c.dispatch = some (.copy c.transferredSize) := by
  unfold Completion.loaded at h
  unfold Completion.dispatch
  simp_all

/-- Only what a receive brought is copied. -/
theorem dispatch_ne_copy {c : Completion} (h : c.loaded = false)
    (inSize : UInt32) : .copy inSize ∉ ofOption c.dispatch := by
  unfold Completion.loaded at h
  unfold Completion.dispatch
  split
  · split <;> simp
  · split
    · simp
    · split <;> simp_all
    · simp

theorem fill_of_loaded (k : TCPSocket) {c : Completion} (data : Region UInt8)
    (h : c.loaded = true) :
    k.fill c data =
      { k with
        recvBuf := data
        delivered := k.delivered ++ [{ data, size := c.transferredSize }] } := by
  unfold Completion.loaded at h
  rw [fill, if_pos (by simp_all)]

theorem fill_of_not_loaded (k : TCPSocket) {c : Completion}
    (data : Region UInt8) (hc : c.ioType = .recv) (h : c.loaded = false) :
    k.fill c data = k := by
  unfold Completion.loaded at h
  rw [fill, if_neg (by simp_all)]

theorem not_mem_of_not_holdsToken {tasks : Multiset Task}
    (h : ∀ task ∈ tasks, task.holdsToken = false) (inSize : UInt32) :
    .copy inSize ∉ tasks := by
  intro hmem
  cases h _ hmem

theorem inTransit_ready (inPort : ℕ) (accepted : Bool)
    (memory : Region UInt8) : InTransit (ready inPort accepted memory) 0 := by
  refine ⟨?_, by simp [ready], by simp, fun _ _ => rfl⟩
  cases accepted <;> simp [tokens, freeTokens, ready]

/-- Steps that leave the received bytes alone. -/
theorem InTransit.same {k k' : TCPSocket} {tasks tasks' : Multiset Task}
    (h : InTransit k tasks) (hone : k'.tokens tasks' ≤ 1)
    (hqueue : ∀ c, c.loaded = true → (c ∈ k'.queue ↔ c ∈ k.queue))
    (hbuf : k'.recvBuf = k.recvBuf) (hdelivered : k'.delivered = k.delivered)
    (happended : k'.appended = k.appended)
    (htasks : ∀ inSize, .copy inSize ∈ tasks' ↔ .copy inSize ∈ tasks) :
    InTransit k' tasks' := by
  refine ⟨hone, ?_, ?_, ?_⟩
  · intro c hc hloaded
    rw [Filled, hbuf, hdelivered, happended]
    exact h.queued c ((hqueue c hloaded).mp hc) hloaded
  · intro inSize hmem
    rw [Filled, hbuf, hdelivered, happended]
    exact h.copying inSize ((htasks inSize).mp hmem)
  · intro hnone hcopy
    rw [hdelivered, happended]
    refine h.copied ?_ fun inSize hmem => hcopy inSize ((htasks _).mpr hmem)
    intro c hc
    by_contra hloaded
    rw [Bool.not_eq_false] at hloaded
    rw [hnone c ((hqueue c hloaded).mpr hc)] at hloaded
    cases hloaded

/-- Queueing a completion that brought nothing. -/
theorem loaded_mem_append {queue : List Completion} {c : Completion}
    (hc : c.loaded = false) (other : Completion) (hother : other.loaded = true) :
    other ∈ queue ++ [c] ↔ other ∈ queue := by
  have hne : other ≠ c := by
    rintro rfl
    rw [hc] at hother
    cases hother
  simp [hne]

theorem InTransit.recvEnds {k : TCPSocket} {tasks : Multiset Task}
    {c : Completion} {data : Region UInt8} (h : InTransit k tasks)
    (hc : c.ioType = .recv) (hreceiving : k.receiving ≠ 0)
    (hone : tokens
      { k.fill c data with
        receiving := k.receiving - 1
        queue := k.queue ++ [c] } tasks ≤ 1) :
    InTransit
      { k.fill c data with
        receiving := k.receiving - 1
        queue := k.queue ++ [c] } tasks := by
  obtain ⟨hqueue, htasks⟩ := alone_of_receiving h.one hreceiving
  cases hloaded : c.loaded with
  | false =>
      rw [fill_of_not_loaded k data hc hloaded] at hone ⊢
      exact h.same hone (loaded_mem_append hloaded) rfl rfl rfl
        fun _ => Iff.rfl
  | true =>
      -- nothing is on its way, so the buffer may be overwritten
      have hcopied := h.copied
        (fun other hother => loaded_of_not_isToken (hqueue other hother))
        (not_mem_of_not_holdsToken htasks)
      rw [fill_of_loaded k data hloaded] at hone ⊢
      refine ⟨hone, ?_, ?_, ?_⟩
      · intro other hother hload
        rcases List.mem_append.mp hother with hold | hnew
        · rw [loaded_of_not_isToken (hqueue other hold)] at hload
          cases hload
        · rw [List.mem_singleton.mp hnew, Filled, hcopied]
      · intro inSize hmem
        exact absurd hmem (not_mem_of_not_holdsToken htasks inSize)
      · intro hnone
        rw [hnone c (by simp)] at hloaded
        cases hloaded

theorem InTransit.take {k : TCPSocket} {rest : Multiset Task} {c : Completion}
    (h : InTransit k rest) (hmem : c ∈ k.queue) {log : List SocketEvent}
    (hone : tokens { k with queue := k.queue.erase c, log := log }
      (ofOption c.dispatch + rest) ≤ 1) :
    InTransit { k with queue := k.queue.erase c, log := log }
      (ofOption c.dispatch + rest) := by
  cases hloaded : c.loaded with
  | false =>
      refine h.same hone ?_ rfl rfl rfl ?_
      · intro other hother
        have hne : other ≠ c := by
          rintro rfl
          rw [hloaded] at hother
          cases hother
        exact List.mem_erase_of_ne hne
      · intro inSize
        simp [dispatch_ne_copy hloaded inSize]
  | true =>
      obtain ⟨hqueue, htasks⟩ :=
        alone_of_queued h.one hmem (isToken_of_loaded hloaded)
      rw [dispatch_of_loaded hloaded] at hone ⊢
      refine ⟨hone, ?_, ?_, ?_⟩
      · intro other hother hload
        rw [loaded_of_not_isToken (hqueue other hother)] at hload
        cases hload
      · intro inSize hcopy
        rcases Multiset.mem_add.mp hcopy with hnew | hold
        · obtain rfl := Task.copy.inj (Multiset.mem_singleton.mp hnew)
          exact h.queued c hmem hloaded
        · exact absurd hold (not_mem_of_not_holdsToken htasks inSize)
      · intro _ hcopy
        exact absurd (by simp) (hcopy c.transferredSize)

theorem InTransit.copy {k : TCPSocket} {rest : Multiset Task} {inSize : UInt32}
    (h : InTransit k ({.copy inSize} + rest))
    (hone : (k.copyIn inSize).tokens ({.parse} + rest) ≤ 1) :
    InTransit (k.copyIn inSize) ({.parse} + rest) := by
  obtain ⟨hqueue, htasks⟩ := alone_of_task h.one rfl
  refine ⟨hone, ?_, ?_, ?_⟩
  · intro c hc hload
    rw [loaded_of_not_isToken (hqueue c hc)] at hload
    cases hload
  · intro other hcopy
    rcases Multiset.mem_add.mp hcopy with hnew | hold
    · cases Multiset.mem_singleton.mp hnew
    · exact absurd hold (not_mem_of_not_holdsToken htasks other)
  · intro _ _
    exact h.copying inSize (by simp)

theorem InTransit.step {k : TCPSocket} {l : SocketStep}
    {next : TCPSocket × Option Task} {rest : Multiset Task}
    (h : InTransit k (ofOption l.task + rest)) (hstep : k.step l = some next) :
    InTransit next.1 (ofOption next.2 + rest) := by
  have hone : next.1.tokens (ofOption next.2 + rest) ≤ 1 :=
    (tokens_step hstep).trans h.one
  cases change_of_step hstep with
  | acceptEnds hc _ =>
      refine h.same hone (loaded_mem_append ?_) rfl rfl rfl fun _ => Iff.rfl
      simp [Completion.loaded, hc]
  | recvEnds hc hreceiving => exact h.recvEnds hc hreceiving hone
  | sendEnds hc =>
      refine h.same hone (loaded_mem_append ?_) rfl rfl rfl fun _ => Iff.rfl
      simp [Completion.loaded, hc]
  | take hmem =>
      simp only [SocketStep.task, ofOption_none, zero_add] at h
      exact h.take hmem hone
  | mark hmark =>
      refine h.same hone (fun _ _ => Iff.rfl) rfl rfl rfl ?_
      cases hmark <;> simp [SocketStep.task]
  | arm =>
      exact h.same hone (fun _ _ => Iff.rfl) rfl rfl rfl
        (by simp [SocketStep.task])
  | copy => exact h.copy hone
  | handsOver =>
      exact h.same hone (fun _ _ => Iff.rfl) rfl rfl rfl
        (by simp [SocketStep.task])
  | pass _ hnext =>
      refine h.same hone (fun _ _ => Iff.rfl) rfl rfl rfl ?_
      rcases hnext with rfl | rfl <;> simp [SocketStep.task]
  | returns hnext =>
      refine h.same hone (fun _ _ => Iff.rfl) rfl rfl rfl ?_
      rcases hnext with rfl | rfl <;> simp [SocketStep.task]
  | repost =>
      exact h.same hone (fun _ _ => Iff.rfl) rfl rfl rfl
        (by simp [SocketStep.task])
  | written =>
      exact h.same hone (fun _ _ => Iff.rfl) rfl rfl rfl
        (by simp [SocketStep.task])

end TCPSocket

namespace IoServer

variable {H P τ : Type*} [Fintype τ] [DecidableEq τ]

/-- The receives of socket `s` follow one another. -/
structure Serialised (w : IoServer H P τ) (s : ℕ) : Prop where
  /-- One `WSARecv`, queued receive or call of `RecvPacket` at most. -/
  one : (w.sockets s).receiving +
      (w.sockets s).queue.countP (fun c => c.ioType == .recv) +
      (w.tasks s).countP (fun task => task.inRecvPacket = true) ≤ 1
  /-- Two threads are never in `RecvPacket` for it. -/
  alone : ∀ t u one other, w.workers t = some (s, one) →
    w.workers u = some (s, other) → one.inRecvPacket = true →
    other.inRecvPacket = true → t = u
  /-- `_recvBuf` holds what was delivered last until it has been copied. -/
  queued : ∀ c ∈ (w.sockets s).queue, c.loaded = true →
    (w.sockets s).Filled c.transferredSize
  copying : ∀ t inSize, w.workers t = some (s, .copy inSize) →
    (w.sockets s).Filled inSize
  /-- The chunks are copied in the order of their delivery. -/
  order : (w.sockets s).appended <+: (w.sockets s).delivered

variable [PacketPools H P] [DecidableEq P]

omit [PacketPools H P] [DecidableEq P] in
theorem serialised_of_inTransit {w : IoServer H P τ} {s : ℕ}
    (h : TCPSocket.InTransit (w.sockets s) (w.tasks s)) : w.Serialised s := by
  have hqueue : (w.sockets s).queue.countP (fun c => c.ioType == .recv) ≤
      (w.sockets s).queue.countP Completion.isToken := by
    apply List.countP_mono_left
    intro c _ hc
    rw [Completion.isToken, eq_of_beq hc]
    rfl
  have htasks : (w.tasks s).countP (fun task => task.inRecvPacket = true) ≤
      (w.tasks s).countP (fun task => task.holdsToken = true) := by
    rw [Multiset.countP_eq_card_filter, Multiset.countP_eq_card_filter]
    refine Multiset.card_le_card (Multiset.monotone_filter_right _ ?_)
    intro task htask
    simp [Task.holdsToken, htask]
  have hone := h.one
  rw [TCPSocket.tokens, TCPSocket.freeTokens] at hone
  refine ⟨by omega, ?_, h.queued, ?_, ?_⟩
  · intro t u one other ht hu hin hin'
    exact worker_eq_of_countP_le_one (fun task => task.inRecvPacket = true)
      (show _ ≤ 1 by change (w.tasks s).countP _ ≤ 1; omega) ht hin hu hin'
  · intro t inSize ht
    exact h.copying inSize (mem_tasksOn.mpr ⟨t, ht⟩)
  · by_cases hqueued : ∃ c ∈ (w.sockets s).queue, c.loaded = true
    · obtain ⟨c, hmem, hloaded⟩ := hqueued
      rw [h.queued c hmem hloaded]
      exact List.prefix_append _ _
    · by_cases hcopying : ∃ inSize, .copy inSize ∈ w.tasks s
      · obtain ⟨inSize, hmem⟩ := hcopying
        rw [h.copying inSize hmem]
        exact List.prefix_append _ _
      · rw [h.copied (by simpa using hqueued) (by simpa using hcopying)]

/-- Receives are serialised in every reachable state. -/
theorem serialised_of_run {pools : H} {clientSize : ℤ}
    {memory : ℕ → Region UInt8} {es : List (IoEvent τ)} {w : IoServer H P τ}
    (hrun : run step (start pools clientSize memory) es = some w) {s : ℕ}
    (hs : s < w.created) : w.Serialised s := by
  have hevery : EverySocket TCPSocket.InTransit w :=
    everySocket_of_run (fun _ _ _ _ => TCPSocket.inTransit_ready _ _ _)
      (fun _ _ _ _ h _ hstep => h.step hstep) (along_meets_true _ es) hrun
  exact serialised_of_inTransit (hevery.socket s hs)

/-- One thread connects socket `0`, the other copies what it received first. -/
def firstReceive : List (IoEvent Bool) :=
  [.setListenPort 80 [true],
    .ends 0 (.done .accept 0) (Region.ofList 0 []),
    .take false 0 (.done .accept 0), .advance false true, .advance false true,
    .ends 0 (.done .recv 5) (Region.ofList 0 [5, 0, 0, 0, 7]),
    .take true 0 (.done .recv 5), .advance true true]

theorem serialised_of_run_firstReceive :
    ∃ w, run step (start PacketSelector.zeroed 0 fun _ => Region.ofList 0 [])
        firstReceive = some w ∧
      w.workers true = some (0, .parse) ∧ w.Serialised 0 := by
  have hrun : run step
      (start PacketSelector.zeroed 0 fun _ => Region.ofList 0 [])
      firstReceive = some _ := rfl
  exact ⟨_, hrun, rfl, serialised_of_run hrun (by decide)⟩

end IoServer

end DokeviNet
