import DokeviNetwork.SendQueue.Trails
import DokeviNetwork.Server.Sends
import DokeviNetwork.Support.Simulation

/-!
# The server's threads send what the send queues do

`SendSystem` takes a completed write off a socket and runs `OnWriteCallback` in one
step.  On the server, a completion is queued, a thread takes it, and only then
runs `OnWriteCallback`, while the application sends and other threads work.  As
each socket has one write at a time, nothing can tell the two apart: every run of
the server is followed by one of `SendSystem` that completes a write where the
server runs `OnWriteCallback`.
-/

namespace DokeviNet

open PacketPools Linked LabelledRun Workers

/-! ## Writes that do not fail -/

namespace TCPSocket

/-- No completion of a failed write is queued. -/
def Clean (k : TCPSocket) (_ : Multiset Task) : Prop :=
  ∀ c ∈ k.queue, c.ioType = .send → c.error = none

/-- A write that ends does not fail. -/
def EndsWell (_ : TCPSocket) (_ : Multiset Task) : SocketStep → Prop
  | .ends c _ => c.ioType = .send → c.error = none
  | _ => True

/-- What is queued was queued before, or has just ended. -/
theorem mem_queue_step {k : TCPSocket} {l : SocketStep}
    {next : TCPSocket × Option Task} (hstep : k.step l = some next)
    {c : Completion} (hc : c ∈ next.1.queue) :
    c ∈ k.queue ∨ ∃ data, l = .ends c data := by
  cases change_of_step hstep with
  | @acceptEnds other data | @recvEnds other data | @sendEnds other data =>
      rcases List.mem_append.mp hc with hold | hnew
      · exact Or.inl hold
      · obtain rfl := List.mem_singleton.mp hnew
        exact Or.inr ⟨data, rfl⟩
  | take => exact Or.inl (List.mem_of_mem_erase hc)
  | mark | arm | copy | handsOver | pass | returns | repost | written =>
      exact Or.inl hc

theorem Clean.step {k : TCPSocket} {l : SocketStep}
    {next : TCPSocket × Option Task} {tasks tasks' : Multiset Task}
    (h : k.Clean tasks) (hends : k.EndsWell tasks l)
    (hstep : k.step l = some next) : next.1.Clean tasks' := by
  intro c hc
  rcases mem_queue_step hstep hc with hold | ⟨data, rfl⟩
  · exact h c hold
  · exact hends

end TCPSocket

/-! ## The server -/

/-- What a server event is for the send queues. -/
def IoEvent.sendEvent {H P τ : Type*} (w : IoServer H P τ) :
    IoEvent τ → Option (SendEvent ℕ)
  | .send _ s inData inLen inImmediateSend =>
    some (.send s inData inLen inImmediateSend)
  | .transmit s => some (.transmit s)
  | .advance t _ =>
    match w.workers t with
    | some (s, .written) => some (.complete s)
    | _ => none
  | _ => none

/-- The frame that is sent on socket `s`. -/
def IoEvent.frame {τ : Type*} (s : ℕ) : IoEvent τ → Option Frame
  | .send _ other inData inLen inImmediateSend =>
    if other = s then some (Frame.ofData inData inLen inImmediateSend) else none
  | _ => none

/-- The frames that the application of the server sends on socket `s`. -/
def framesSent {τ : Type*} (s : ℕ) (es : List (IoEvent τ)) : List Frame :=
  es.filterMap (IoEvent.frame s)

namespace IoServer

variable {H P τ : Type*}

/-- A thread runs `OnWriteCallback`. -/
def writing (w : IoServer H P τ) (t : τ) : Bool :=
  (w.workers t).any fun held => held.2.isWritten

/-- No write fails, neither when it is posted nor later. -/
def NoWriteFails (w : IoServer H P τ) : IoEvent τ → Prop
  | .send accepted _ _ _ _ => accepted = true
  | .ends _ c _ => c.ioType = .send → c.error = none
  | .advance t ok => w.writing t = true → ok = true
  | _ => True

instance (w : IoServer H P τ) : DecidablePred w.NoWriteFails
  | .send accepted _ _ _ _ => inferInstanceAs (Decidable (accepted = true))
  | .ends _ c _ => inferInstanceAs (Decidable (c.ioType = .send → _))
  | .advance t _ => inferInstanceAs (Decidable (w.writing t = true → _))
  | .setListenPort _ _ | .transmit _ | .take _ _ _ => isTrue trivial

variable [PacketPools H P] [DecidableEq P]

/-- No write fails, packets are handed out fresh and payloads fit them. -/
structure SendsWell (w : IoServer H P τ) (e : IoEvent τ) : Prop where
  succeeds : w.NoWriteFails e
  fresh : ∀ e' ∈ e.sendEvent w, w.io.Fresh e'
  fits : ∀ e' ∈ e.sendEvent w, w.io.Fits e'

instance (w : IoServer H P τ) (e : IoEvent τ) : Decidable (w.SendsWell e) :=
  decidable_of_iff (w.NoWriteFails e ∧ (∀ e' ∈ e.sendEvent w, w.io.Fresh e') ∧
      ∀ e' ∈ e.sendEvent w, w.io.Fits e')
    ⟨fun h => ⟨h.1, h.2.1, h.2.2⟩, fun h => ⟨h.succeeds, h.fresh, h.fits⟩⟩

variable [Fintype τ]

variable [DecidableEq τ]

theorem clean_step {w w' : IoServer H P τ} {e : IoEvent τ}
    (hclean : EverySocket TCPSocket.Clean w) (hstep : w.step e = some w')
    (hsucceeds : w.NoWriteFails e) : EverySocket TCPSocket.Clean w' := by
  have hready : ∀ inPort outcome memory, True →
      (TCPSocket.ready inPort outcome memory).Clean 0 :=
    fun _ _ _ _ c hc => absurd hc List.not_mem_nil
  have hmeets : Meets (fun _ => True) TCPSocket.EndsWell w e := by
    refine ⟨fun _ _ => trivial, ?_⟩
    intro at_ hat
    cases e with
    | ends s c data =>
        obtain rfl := Option.some.inj hat
        exact hsucceeds
    | take t s c =>
        obtain rfl := Option.some.inj hat
        trivial
    | advance t ok =>
        obtain ⟨held, -, rfl⟩ := Option.map_eq_some_iff.mp hat
        trivial
    | setListenPort | send | transmit => cases hat
  exact hclean.step hready (fun _ _ _ _ hk hl hlstep => hk.step hl hlstep) hmeets
    hstep

/-- Of clean sockets, no completion of a write is dropped. -/
theorem dropsSend_eq_false {w w' : IoServer H P τ} {e : IoEvent τ}
    (hclean : EverySocket TCPSocket.Clean w) (hstep : w.step e = some w')
    (s : ℕ) : (w.stepOn e s).any SocketStep.dropsSend = false := by
  cases e with
  | take t s₀ c =>
      simp only [step] at hstep
      split at hstep
      · next hs =>
        obtain ⟨k, htake, -⟩ := Option.map_eq_some_iff.mp hstep
        rw [TCPSocket.take] at htake
        split at htake
        · next hmem =>
          have hc := hclean.socket s₀ hs.1 c hmem
          apply stepOn_any_eq_false rfl
          by_cases htype : c.ioType = .send
          · simp [SocketStep.dropsSend, hc htype]
          · simp [SocketStep.dropsSend, htype]
        · cases htake
      · cases hstep
  | ends s₀ c data => exact stepOn_any_eq_false rfl rfl s
  | advance t ok =>
      cases hworker : w.workers t with
      | none => simp [stepOn, IoEvent.socketStep, hworker]
      | some held =>
          have hlocal : (IoEvent.advance t ok).socketStep w =
              some (held.1, .advance held.2 ok) := by
            simp [IoEvent.socketStep, hworker]
          exact stepOn_any_eq_false hlocal rfl s
  | setListenPort | send | transmit => rfl

/-- `v` has the send queues of the server `w`. -/
structure Tracks (w : IoServer H P τ) (v : SendSystem H P ℕ) : Prop where
  one : OneWrite w
  clean : EverySocket TCPSocket.Clean w
  pools : v.pools = w.io.pools
  live : v.live = w.io.live
  trails : ∀ s, Trails (w.io.sockets s)
    ((w.sockets s).sendTokens (w.tasks s)) (v.sockets s)

/-- Completions are made where writes end, and used up where `OnWriteCallback`
runs. -/
theorem tokens_of_step {w w' : IoServer H P τ} {e : IoEvent τ}
    (hnum : WellNumbered w) (hclean : EverySocket TCPSocket.Clean w)
    (hstep : w.step e = some w') (s : ℕ) :
    (w'.sockets s).sendTokens (w'.tasks s) +
        ((w.stepOn e s).any SocketStep.writes).toNat =
      (w.sockets s).sendTokens (w.tasks s) +
        ((w.stepOn e s).any SocketStep.endsSend).toNat := by
  have htokens := sendTokens_of_step hnum hstep s
  rw [dropsSend_eq_false hclean hstep s] at htokens
  exact htokens

omit [PacketPools H P] [DecidableEq P] [DecidableEq τ] in
/-- Where a write is outstanding, none waits for `OnWriteCallback`. -/
theorem Tracks.level {w : IoServer H P τ} {v : SendSystem H P ℕ}
    (h : Tracks w v) {s : ℕ} (hposted : (w.io.sockets s).posted ≠ []) :
    (w.sockets s).sendTokens (w.tasks s) = 0 ∧
      v.sockets s = w.io.sockets s :=
  (h.trails s).of_posted hposted

variable [LawfulPacketPools H P]

section

variable {w w' : IoServer H P τ} {v : SendSystem H P ℕ} {e : IoEvent τ}

/-- Events that leave the send halves alone. -/
theorem Tracks.same (h : Tracks w v) (hsucceeds : w.NoWriteFails e)
    (hstep : w.step e = some w') (hio : w'.io = w.io)
    (hwrites : ∀ s, (w.stepOn e s).any SocketStep.writes = false)
    (hends : ∀ s, (w.stepOn e s).any SocketStep.endsSend = false) :
    Tracks w' v := by
  refine ⟨h.one.step hstep, clean_step h.clean hstep hsucceeds, ?_, ?_, ?_⟩
  · rw [h.pools, hio]
  · rw [h.live, hio]
  · intro s
    have htokens := tokens_of_step h.one.numbered h.clean hstep s
    rw [hwrites, hends] at htokens
    rw [hio, show (w'.sockets s).sendTokens (w'.tasks s) = _ from htokens]
    exact h.trails s

/-- An application sends. -/
theorem Tracks.send (h : Tracks w v) {s : ℕ} {inData : Region UInt8}
    {inLen : UInt32} {inImmediateSend : Bool}
    (hstep : w.step (.send true s inData inLen inImmediateSend) = some w') :
    ∃ v', v.step (.send s inData inLen inImmediateSend) = some v' ∧
      Tracks w' v' := by
  have hone := h.one.step hstep
  have hclean := clean_step h.clean hstep rfl
  have htokens := tokens_of_step h.one.numbered h.clean hstep
  simp only [IoServer.step] at hstep
  split at hstep
  · obtain ⟨io, hio, rfl⟩ := Option.map_eq_some_iff.mp hstep
    obtain ⟨call, hcall, rfl⟩ := SendSystem.send_eq_some hio
    have hbusy : (w.sockets s).sendTokens (w.tasks s) ≠ 0 →
        (w.io.sockets s).sendingPacket ≠ none := by
      intro hne hnone
      have htoken := h.one.token s
      rw [SendSide.busy, hnone, Option.isSome_none, Bool.toNat_false] at htoken
      omega
    obtain ⟨call', hcall', hpools, hallocated, htrails⟩ :=
      (h.trails s).send hbusy hcall
    refine ⟨{ pools := call'.pools
              sockets := Function.update v.sockets s call'.socket
              live := v.live ++ call'.allocated.toList }, ?_, ?_⟩
    · rw [← h.pools] at hcall'
      simp [SendSystem.step, SendSystem.send, hcall']
    · refine ⟨hone, hclean, hpools, ?_, ?_⟩
      · simp [h.live, hallocated]
      · intro other
        have hsame := htokens other
        rw [stepOn_outside rfl] at hsame
        simp only [Option.any_none, Bool.toNat_false, add_zero] at hsame
        dsimp only
        rw [hsame]
        by_cases heq : other = s
        · subst heq
          rw [Function.update_self, Function.update_self]
          exact htrails
        · rw [Function.update_of_ne heq, Function.update_of_ne heq]
          exact h.trails other
  · cases hstep

/-- The system transmits. -/
theorem Tracks.transmit (h : Tracks w v) {s : ℕ}
    (hstep : w.step (.transmit s) = some w') :
    ∃ v', v.step (.transmit s) = some v' ∧ Tracks w' v' := by
  have hone := h.one.step hstep
  have hclean := clean_step h.clean hstep trivial
  have htokens := tokens_of_step h.one.numbered h.clean hstep
  obtain ⟨io, hio, rfl⟩ := Option.map_eq_some_iff.mp hstep
  obtain ⟨post, posts, hposted, hnone, rfl⟩ := SendSystem.transmit_eq_some hio
  obtain ⟨hzero, hsocket⟩ := h.level (s := s) (by rw [hposted]; simp)
  refine ⟨{ v with
    sockets := Function.update v.sockets s { v.sockets s with
      posted := { post with
        transmitted := some ((packet v.pools post.packet).buffer.read 0
          post.len.toNat) } :: posts } }, ?_, ?_⟩
  · simp [SendSystem.step, SendSystem.transmit, hsocket, hposted, hnone]
  · refine ⟨hone, hclean, h.pools, h.live, ?_⟩
    intro other
    have hsame := htokens other
    rw [stepOn_outside rfl] at hsame
    simp only [Option.any_none, Bool.toNat_false, add_zero] at hsame
    dsimp only
    rw [hsame]
    by_cases heq : other = s
    · subst heq
      rw [Function.update_self, Function.update_self, hzero, hsocket, h.pools]
      exact Trails.level
    · rw [Function.update_of_ne heq, Function.update_of_ne heq]
      exact h.trails other

/-- A write ends: its completion is queued. -/
theorem Tracks.ends (h : Tracks w v) {s : ℕ} {c : Completion}
    {data : Region UInt8} (hc : c.ioType = .send) (herror : c.error = none)
    (hstep : w.step (.ends s c data) = some w') : Tracks w' v := by
  have hone := h.one.step hstep
  have hclean := clean_step h.clean hstep fun _ => herror
  have htokens := tokens_of_step h.one.numbered h.clean hstep
  have hlocal : (IoEvent.ends s c data : IoEvent τ).socketStep w =
      some (s, .ends c data) := rfl
  simp only [IoServer.step, if_pos hc] at hstep
  split at hstep
  · obtain ⟨k, -, hmap⟩ := Option.bind_eq_some_iff.mp hstep
    obtain ⟨io, hio, rfl⟩ := Option.map_eq_some_iff.mp hmap
    rw [SendSystem.ends] at hio
    split at hio
    · cases hio
    · next post posts hposted =>
      rw [herror, Option.isSome_none, if_neg Bool.false_ne_true] at hio
      obtain ⟨bytes, hbytes, rfl⟩ := Option.map_eq_some_iff.mp hio
      obtain ⟨hzero, hsocket⟩ := h.level (s := s) (by rw [hposted]; simp)
      have htoken := h.one.token s
      have hbusy := Bool.toNat_le (w.io.sockets s).busy
      rw [hposted, List.length_cons] at htoken
      obtain rfl : posts = [] := List.length_eq_zero_iff.mp (by omega)
      refine ⟨hone, hclean, h.pools, h.live, ?_⟩
      intro other
      have hnext := htokens other
      dsimp only at hnext ⊢
      by_cases heq : other = s
      · subst heq
        rw [stepOn_self hlocal, hzero] at hnext
        have hends : (SocketStep.ends c data).endsSend = true := by
          simp [SocketStep.endsSend, hc]
        rw [Option.any_some, Option.any_some, hends] at hnext
        have hafter : TCPSocket.sendTokens _ _ = 1 := hnext
        rw [hafter, Function.update_self, hsocket]
        exact trails_of_ended hbytes hposted
      · rw [stepOn_of_ne hlocal (Ne.symm heq)] at hnext
        simp only [Option.any_none, Bool.toNat_false, add_zero] at hnext
        rw [hnext, Function.update_of_ne heq]
        exact h.trails other
  · cases hstep

/-- A thread runs `OnWriteCallback`. -/
theorem Tracks.written (h : Tracks w v) {t : τ} {s : ℕ}
    (hworker : w.workers t = some (s, .written))
    (hstep : w.step (.advance t true) = some w') :
    ∃ v', v.step (.complete s) = some v' ∧ Tracks w' v' := by
  have hone := h.one.step hstep
  have hclean := clean_step h.clean hstep fun _ => rfl
  have htokens := tokens_of_step h.one.numbered h.clean hstep
  have hlocal : (IoEvent.advance t true).socketStep w =
      some (s, .advance .written true) := by
    simp [IoEvent.socketStep, hworker]
  have hused := htokens s
  have htoken := h.one.token s
  have hbusy := Bool.toNat_le (w.io.sockets s).busy
  rw [stepOn_self hlocal] at hused
  have hcount : (w'.sockets s).sendTokens (w'.tasks s) + 1 =
      (w.sockets s).sendTokens (w.tasks s) := hused
  have hbefore : (w.sockets s).sendTokens (w.tasks s) = 1 := by omega
  have hafter : (w'.sockets s).sendTokens (w'.tasks s) = 0 := by omega
  have htrails := h.trails s
  rw [hbefore] at htrails
  obtain ⟨post, bytes, hpost, hposted, hsame⟩ := htrails.of_one
  simp only [IoServer.step, hworker] at hstep
  obtain ⟨io, hio, rfl⟩ := Option.map_eq_some_iff.mp hstep
  obtain ⟨call, hcall, rfl⟩ := SendSystem.onWriteCallback_eq_some hio
  refine ⟨{ pools := call.pools
            sockets := Function.update v.sockets s call.socket
            live := v.live.erase call.freed }, ?_, ?_⟩
  · rw [← h.pools] at hcall
    simp [SendSystem.step, SendSystem.complete, hposted, hpost, hsame,
      SendSystem.onWriteCallback, hcall]
  · refine ⟨hone, hclean, rfl, by rw [h.live], ?_⟩
    intro other
    dsimp only
    by_cases heq : other = s
    · subst heq
      rw [Function.update_self, Function.update_self, hafter]
      exact Trails.level
    · have hother := htokens other
      rw [stepOn_of_ne hlocal (Ne.symm heq)] at hother
      simp only [Option.any_none, Bool.toNat_false, add_zero] at hother
      rw [hother, Function.update_of_ne heq, Function.update_of_ne heq]
      exact h.trails other

/-- A thread takes the next step of its handler. -/
theorem Tracks.advance (h : Tracks w v) {t : τ} {ok : Bool}
    (hsucceeds : w.NoWriteFails (.advance t ok))
    (hstep : w.step (.advance t ok) = some w') :
    ∃ v', run SendSystem.step v
        ((IoEvent.advance t ok).sendEvent w).toList = some v' ∧
      Tracks w' v' := by
  cases hworker : w.workers t with
  | none =>
      simp only [IoServer.step, hworker] at hstep
      cases hstep
  | some held =>
      obtain ⟨s, task⟩ := held
      have hlocal : (IoEvent.advance t ok).socketStep w =
          some (s, .advance task ok) := by
        simp [IoEvent.socketStep, hworker]
      by_cases htask : task = .written
      · subst htask
        obtain rfl : ok = true := hsucceeds (by
          simp [writing, hworker, Task.isWritten])
        obtain ⟨v', hv, htracks⟩ := h.written hworker hstep
        refine ⟨v', ?_, htracks⟩
        simp [IoEvent.sendEvent, hworker, hv]
      · have hevent : (IoEvent.advance t ok).sendEvent w = none := by
          simp only [IoEvent.sendEvent, hworker]
          cases task <;> first | rfl | exact absurd rfl htask
        rw [hevent]
        refine ⟨v, rfl, h.same hsucceeds hstep ?_ ?_ ?_⟩
        · have hadvance : w.advance t s task ok = some w' := by
            simpa only [IoServer.step, hworker] using hstep
          exact io_of_advance hadvance htask
        · apply stepOn_any_eq_false hlocal
          cases task <;> first | rfl | exact absurd rfl htask
        · exact stepOn_any_eq_false hlocal rfl

/-- Each event of the server is the event it stands for, or none. -/
theorem Tracks.step (h : Tracks w v) (hwell : w.SendsWell e)
    (hstep : w.step e = some w') :
    ∃ v', run SendSystem.step v (e.sendEvent w).toList = some v' ∧
      Tracks w' v' := by
  have hone : ∀ {e' : SendEvent ℕ}, e.sendEvent w = some e' →
      (∃ v', v.step e' = some v' ∧ Tracks w' v') →
      ∃ v', run SendSystem.step v (e.sendEvent w).toList = some v' ∧
        Tracks w' v' := by
    rintro e' he ⟨v', hv, htracks⟩
    exact ⟨v', by rw [he]; simp [hv], htracks⟩
  have hsucceeds := hwell.succeeds
  cases e with
  | send accepted s inData inLen inImmediateSend =>
      obtain rfl : accepted = true := hsucceeds
      exact hone rfl (h.send hstep)
  | transmit s => exact hone rfl (h.transmit hstep)
  | setListenPort inPort accepted =>
      refine ⟨v, rfl, h.same hsucceeds hstep ?_ (fun _ => rfl) fun _ => rfl⟩
      obtain rfl := Option.some.inj hstep
      exact foldl_readyAcceptEx (fun w => w.io) readyAcceptEx_io inPort
        accepted { w with listenPorts := inPort :: w.listenPorts }
  | take t s c =>
      refine ⟨v, rfl, h.same hsucceeds hstep ?_ ?_ ?_⟩
      · simp only [IoServer.step] at hstep
        split at hstep
        · obtain ⟨k, -, rfl⟩ := Option.map_eq_some_iff.mp hstep
          rfl
        · cases hstep
      · exact stepOn_any_eq_false rfl rfl
      · exact stepOn_any_eq_false rfl rfl
  | ends s c data =>
      refine ⟨v, rfl, ?_⟩
      by_cases hc : c.ioType = .send
      · exact h.ends hc (hsucceeds hc) hstep
      · apply h.same hsucceeds hstep
        · simp only [IoServer.step, if_neg hc] at hstep
          split at hstep
          · obtain ⟨k, -, hmap⟩ := Option.bind_eq_some_iff.mp hstep
            obtain ⟨io, hio, rfl⟩ := Option.map_eq_some_iff.mp hmap
            exact (Option.some.inj hio).symm
          · cases hstep
        · exact stepOn_any_eq_false rfl rfl
        · apply stepOn_any_eq_false rfl
          simp [SocketStep.endsSend, hc]
  | advance t ok => exact h.advance hsucceeds hstep

end

omit [PacketPools H P] [DecidableEq P] [Fintype τ] [DecidableEq τ]
  [LawfulPacketPools H P] in
/-- The sends of the server are the sends of its send queues. -/
theorem frame_sendEvent (s : ℕ) (w : IoServer H P τ) (e : IoEvent τ) :
    (e.sendEvent w).bind (fun e' => (e'.on s).bind fun
      | .send f => some f
      | .complete => none) = e.frame s := by
  cases e with
  | send accepted other inData inLen inImmediateSend =>
      by_cases heq : other = s <;>
        simp [IoEvent.sendEvent, IoEvent.frame, SendEvent.on, heq]
  | advance t ok =>
      simp only [IoEvent.sendEvent, IoEvent.frame]
      split
      · next other _ => by_cases heq : other = s <;> simp [SendEvent.on, heq]
      · rfl
  | setListenPort | transmit | ends | take => rfl

/-- The bytes that leave socket `s`, on which `frames` were sent. -/
structure Streams (w : IoServer H P τ) (s : ℕ) (frames : List Frame) : Prop where
  /-- What has been given to `WSASend` and what waits behind it. -/
  queued : ∃ queue,
    Follows (fun p => (packet w.io.pools p).next)
      (w.io.sockets s).sendingPacket queue ∧
    (w.io.sockets s).handed.flatten ++
        queue.tail.flatMap (contents w.io.pools) =
      frames.flatMap Frame.bytes
  /-- What is on the wire is whole frames, in the order of the sends. -/
  wire : ∃ sent, sent <+: frames ∧
    (w.io.sockets s).wire = sent.flatMap Frame.bytes
  /-- With nothing left to send it is all of them. -/
  all : (w.io.sockets s).sendingPacket = none →
    (w.io.sockets s).wire = frames.flatMap Frame.bytes

/-- The events of the send queues that a run of the server stands for. -/
def sendEvents (w : IoServer H P τ) (es : List (IoEvent τ)) :
    List (SendEvent ℕ) :=
  trace step (fun w e => e.sendEvent w) w es

omit [Fintype τ] [LawfulPacketPools H P] in
theorem framesOn_sendEvents {w w' : IoServer H P τ}
    {es : List (IoEvent τ)} (hrun : run step w es = some w') (s : ℕ) :
    framesOn s (w.sendEvents es) = framesSent s es := by
  rw [sendEvents, framesOn, ParcelQueue.newFrames, eventsOn, List.filterMap_filterMap]
  exact filterMap_trace (frame_sendEvent s) hrun

omit [PacketPools H P] [DecidableEq P] [DecidableEq τ]
  [LawfulPacketPools H P] in
theorem tracks_start (pools : H) (clientSize : ℤ)
    (memory : ℕ → Region UInt8) :
    Tracks (start pools clientSize memory : IoServer H P τ)
      (SendSystem.start pools) where
  one := oneWrite_start pools clientSize memory
  clean := ⟨wellNumbered_start pools clientSize memory,
    fun _ hs => absurd hs (Nat.not_lt_zero _)⟩
  pools := rfl
  live := rfl
  trails s := by
    rw [(wellNumbered_start pools clientSize memory).sendTokens_eq_zero
      (Nat.zero_le s)]
    exact Trails.level

omit [DecidableEq P] [DecidableEq τ] [LawfulPacketPools H P] in
/-- What the server's sends meet, those that follow them meet. -/
theorem Tracks.suits {w : IoServer H P τ} {v : SendSystem H P ℕ}
    (h : Tracks w v) {e : SendEvent ℕ} (hfresh : w.io.Fresh e)
    (hfits : w.io.Fits e) : v.Fresh e ∧ v.Fits e := by
  cases e with
  | send s inData inLen inImmediateSend =>
      have hlast := (h.trails s).lastPacket
      have hcoalesces : coalesces v.pools (v.sockets s) inLen
          inImmediateSend = coalesces w.io.pools (w.io.sockets s) inLen
            inImmediateSend := by
        rw [coalesces, coalesces, hlast, h.pools]
      simp only [SendSystem.Fresh, SendSystem.SendsFresh, SendSystem.Fits,
        SendSystem.SendFits] at hfresh hfits ⊢
      rw [hcoalesces, hlast, h.pools, h.live]
      exact ⟨hfresh, hfits⟩
  | transmit | complete => exact ⟨trivial, trivial⟩

/-- A run of the server is followed by one of its send queues, which meets what
the server's sends meet. -/
theorem exists_tracks_of_run {pools : H} {clientSize : ℤ}
    {memory : ℕ → Region UInt8} {es : List (IoEvent τ)} {w : IoServer H P τ}
    (hwell : Along step SendsWell (start pools clientSize memory) es)
    (hrun : run step (start pools clientSize memory) es = some w) :
    ∃ v, run SendSystem.step (SendSystem.start pools)
        ((start pools clientSize memory).sendEvents es) = some v ∧
      Tracks w v ∧
      Along SendSystem.step (fun v e => v.Fresh e ∧ v.Fits e)
        (SendSystem.start pools)
        ((start pools clientSize memory).sendEvents es) := by
  apply exists_run_trace ?_ (tracks_start pools clientSize memory) hwell hrun
  intro w v e w' htracks hwell hstep
  refine ⟨?_, htracks.step hwell hstep⟩
  intro e' he
  exact htracks.suits (hwell.fresh e' he) (hwell.fits e' he)

/-- While no write fails, whatever the threads do, the server is followed by the
send queues, and every socket sends what the application gave it: whole frames, in
order and once. -/
theorem streams_of_run {pools : H} {clientSize : ℤ} {memory : ℕ → Region UInt8}
    {es : List (IoEvent τ)} {w : IoServer H P τ}
    (hwell : Along step SendsWell (start pools clientSize memory) es)
    (hrun : run step (start pools clientSize memory) es = some w) :
    (∃ v, run SendSystem.step (SendSystem.start pools)
        ((start pools clientSize memory).sendEvents es) = some v ∧
      Tracks w v) ∧
    ∀ s, w.Streams s (framesSent s es) := by
  obtain ⟨v, hrun', htracks, halong⟩ := exists_tracks_of_run hwell hrun
  refine ⟨⟨v, hrun', htracks⟩, ?_⟩
  intro s
  obtain ⟨queue, parcels, hc, hframes⟩ := exists_carrying_of_run
    (halong.mono fun _ _ h => h.1)
    (halong.mono fun _ _ h => SendSystem.Fits.room h.2) hrun'
  have hsettled : SendSettled w.io.pools (w.io.sockets s)
      ((w.sockets s).sendTokens (w.tasks s)) (queue s) (framesSent s es) := by
    rw [← htracks.pools]
    exact ⟨hc.queues s, hc.flight s, hc.holds s, htracks.trails s,
      (hframes s).trans (framesOn_sendEvents hrun s)⟩
  exact ⟨⟨queue s, hsettled.shape.linked, hsettled.stream⟩, hsettled.wire,
    hsettled.all⟩

/-- Both writes complete, each handled by a thread of its own. -/
theorem streams_of_run_secondWrite :
    ∃ w, run IoServer.step
        (start PacketSelector.zeroed 0 fun _ => Region.ofList 0 [])
        (secondWrite ++ [.advance true true, .transmit 0,
          .ends 0 (.done .send 5) (Region.ofList 0 []),
          .take false 0 (.done .send 5), .advance false true]) = some w ∧
      (w.io.sockets 0).wire = [1, 0, 0, 0, 1, 1, 0, 0, 0, 2] := by
  have hrun : run IoServer.step
      (start PacketSelector.zeroed 0 fun _ => Region.ofList 0 [])
      (secondWrite ++ [.advance true true, .transmit 0,
        .ends 0 (.done .send 5) (Region.ofList 0 []),
        .take false 0 (.done .send 5), .advance false true]) = some _ := rfl
  have hwell : Along step SendsWell
      (start PacketSelector.zeroed 0 fun _ => Region.ofList 0 [])
      (secondWrite ++ [.advance true true, .transmit 0,
        .ends 0 (.done .send 5) (Region.ofList 0 []),
        .take false 0 (.done .send 5), .advance false true]) := by decide
  exact ⟨_, hrun, ((streams_of_run hwell hrun).2 0).all rfl⟩

end IoServer

end DokeviNet
