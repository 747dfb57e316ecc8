import DokeviNetwork.Client.SendPacket
import DokeviNetwork.Server.Frames

/-!
# From `SendPacket` to `PacketHandler`

Any number of clients, one for each socket of the server, send packets over
connections that neither lose nor reorder bytes, and the IO threads of the server
receive them.  What the application of a client sends is what the handlers of the
server are given, once and in the same order.
-/

namespace DokeviNet

open Framing LabelledRun Workers

/-! ## One packet -/

section

variable {results : ℕ → SendResult} {packet : List UInt8} {j off : ℕ}

/-- No call fails before the packet is complete. -/
theorem Repeats.finishes (h : Repeats results packet j off)
    (haccepted : acceptedBytes results j = off) {k : ℕ} (hk : j ≤ k)
    (herror : results k = .socketError) :
    ∃ i ≤ k, Finishes results packet.length i := by
  induction h with
  | @last j off count hresult hsum =>
      have hne : j ≠ k := by
        rintro rfl
        rw [hresult] at herror
        cases herror
      refine ⟨j + 1, by omega, Or.inr ?_⟩
      rw [acceptedBytes, haccepted, hresult]
      exact hsum.ge
  | @more j off count hresult hsum _ _ ih =>
      have hne : j ≠ k := by
        rintro rfl
        rw [hresult] at herror
        cases herror
      apply ih _ (by omega)
      rw [acceptedBytes, haccepted, hresult, SendResult.count]

theorem Repeats.sent_eq {s : SendLoop} (h : Repeats results packet 0 0)
    (honce : SentOnce results packet s) : s.sent = packet := by
  apply honce.whole
  intro herror
  obtain ⟨i, hi, hfinishes⟩ := h.finishes rfl (Nat.zero_le _) herror
  have hcalls : 0 < s.calls := by
    by_contra hzero
    have hfinish := honce.finishes
    rw [Nat.eq_zero_of_not_pos hzero] at hfinish
    exact hfinish
  exact honce.first i (by omega) hfinishes

end

namespace Message

/-- The loop of `SendPacket` on a message. -/
def sendLoop (fuel : ℕ) (results : ℕ → SendResult) (m : Message) :
    Option SendLoop :=
  sendPacketLoop fuel results m.protocol (Region.ofList 0 m.payload)
    (UInt32.ofNat m.payload.length)

theorem sent_of_repeats {m : Message} {results : ℕ → SendResult} {fuel : ℕ}
    {s : SendLoop} (hrepeats : Repeats results m.bytes 0 0)
    (hloop : m.sendLoop fuel results = some s) : s.sent = m.bytes := by
  have hfits : m.payload.length ≤ 4088 := m.fits
  have hlength := m.bytes_length
  have hsmall : m.bytes.length ≤ maxPacketBufSize.toNat := by
    rw [hlength]
    exact Nat.add_le_add_right hfits 8
  have hstart : Sending results m.bytes 0
      { sendCount := 0, calls := 0, sent := [] } :=
    sending_start (by omega)
  obtain ⟨fuel', t, hloop', honce⟩ := hrepeats.sentOnce hstart rfl
    (sendPacket_length _ _ _).symm hsmall
  obtain rfl := Pass.loop_unique hloop hloop'
  exact hrepeats.sent_eq honce

end Message

/-! ## Clients and server -/

/-- The clients with the server.  `sent s` is what the socket of the client whose
connection is socket `s` of the server has taken. -/
structure Uplink (H P τ : Type*) where
  sent : ℕ → List UInt8
  server : IoServer H P τ

/-- The application of a client sends a message, `results` being what the calls of
`send` return, or something happens on the server. -/
inductive UplinkEvent (τ : Type*)
  | sendPacket (s : ℕ) (results : ℕ → SendResult) (m : Message)
  | server (e : IoEvent τ)

namespace UplinkEvent

variable {τ : Type*}

/-- The message that is sent on the connection of socket `s`. -/
def message (s : ℕ) : UplinkEvent τ → Option Message
  | .sendPacket other _ m => if other = s then some m else none
  | .server _ => none

/-- What happens on the server. -/
def onServer : UplinkEvent τ → Option (IoEvent τ)
  | .sendPacket _ _ _ => none
  | .server e => some e

end UplinkEvent

/-- The messages that a client sends. -/
def messagesOn {τ : Type*} (s : ℕ) (es : List (UplinkEvent τ)) :
    List Message :=
  es.filterMap (UplinkEvent.message s)

namespace Uplink

variable {H P τ : Type*}

def start (pools : H) (clientSize : ℤ) (memory : ℕ → Region UInt8) :
    Uplink H P τ where
  sent _ := []
  server := IoServer.start pools clientSize memory

/-- What has been delivered on a connection is the first part of what was sent. -/
def InOrder (sent : ℕ → List UInt8) (server : IoServer H P τ) : Prop :=
  ∀ s < server.created, received (server.sockets s).delivered <+: sent s

instance (sent : ℕ → List UInt8) (server : IoServer H P τ) :
    Decidable (InOrder sent server) :=
  inferInstanceAs (Decidable (∀ s < server.created, _))

variable [PacketPools H P] [DecidableEq P] [DecidableEq τ]

/-- One event.  The network delivers only what was sent, in the order in which it
was. -/
def step (fuel : ℕ) (w : Uplink H P τ) : UplinkEvent τ → Option (Uplink H P τ)
  | .sendPacket s results m =>
    (m.sendLoop fuel results).map fun loop =>
      { w with
        sent := Function.update w.sent s (w.sent s ++ loop.sent) }
  | .server e =>
    (w.server.step e).bind fun server =>
      if InOrder w.sent server then some { w with server := server } else none

variable [Fintype τ]

/-- The calls of `send` take the packet once. -/
def TakenOnce (e : UplinkEvent τ) : Prop :=
  ∀ s results m, e = .sendPacket s results m → Repeats results m.bytes 0 0

/-- What the server copies fits behind what it holds. -/
def Fits (w : Uplink H P τ) (e : UplinkEvent τ) : Prop :=
  ∀ e' ∈ e.onServer,
    IoServer.Meets (fun _ => True) TCPSocket.CopiesFit w.server e'

instance (w : Uplink H P τ) (e : UplinkEvent τ) : Decidable (w.Fits e) :=
  inferInstanceAs (Decidable (∀ e' ∈ e.onServer, _))

/-- What the clients have sent, and what the server did on its own. -/
structure Delivers (pools : H) (clientSize : ℤ) (memory : ℕ → Region UInt8)
    (past : List (UplinkEvent τ)) (w : Uplink H P τ) : Prop where
  sent : ∀ s, w.sent s = (messagesOn s past).flatMap Message.bytes
  order : InOrder w.sent w.server
  run : LabelledRun.run IoServer.step (IoServer.start pools clientSize memory)
    (past.filterMap UplinkEvent.onServer) = some w.server
  fits : Along IoServer.step
    (IoServer.Meets (fun _ => True) TCPSocket.CopiesFit)
    (IoServer.start pools clientSize memory)
    (past.filterMap UplinkEvent.onServer)

variable {pools : H} {clientSize : ℤ} {memory : ℕ → Region UInt8}

theorem Delivers.step {fuel : ℕ} {past : List (UplinkEvent τ)}
    {w w' : Uplink H P τ} {e : UplinkEvent τ}
    (h : Delivers pools clientSize memory past w) (honce : TakenOnce e)
    (hfits : w.Fits e) (hstep : w.step fuel e = some w') :
    Delivers pools clientSize memory (past ++ [e]) w' := by
  cases e with
  | sendPacket s results m =>
      obtain ⟨loop, hloop, rfl⟩ := Option.map_eq_some_iff.mp hstep
      have hsent := Message.sent_of_repeats (honce s results m rfl) hloop
      have hevents : (past ++ [UplinkEvent.sendPacket s results m]).filterMap
          UplinkEvent.onServer = past.filterMap UplinkEvent.onServer := by
        simp [UplinkEvent.onServer]
      refine ⟨?_, ?_, by rw [hevents]; exact h.run,
        by rw [hevents]; exact h.fits⟩
      · intro other
        have hbefore := h.sent other
        rw [messagesOn] at hbefore
        rw [messagesOn, List.filterMap_append, List.flatMap_append, ← hbefore]
        by_cases heq : other = s
        · subst heq
          simp [UplinkEvent.message, hsent]
        · simp [UplinkEvent.message, heq, Ne.symm heq]
      · intro other hother
        apply (h.order other hother).trans
        by_cases heq : other = s
        · subst heq
          simp
        · simp [heq]
  | server e =>
      obtain ⟨server, hserver, hguard⟩ := Option.bind_eq_some_iff.mp hstep
      split at hguard
      · next horder =>
          obtain rfl := Option.some.inj hguard
          have hevents : (past ++ [UplinkEvent.server e]).filterMap
              UplinkEvent.onServer =
                past.filterMap UplinkEvent.onServer ++ [e] := by
            simp [UplinkEvent.onServer]
          refine ⟨?_, horder, ?_, ?_⟩
          · intro s
            have hmessages : messagesOn s (past ++ [UplinkEvent.server e]) =
                messagesOn s past := by
              simp [messagesOn, UplinkEvent.message]
            rw [hmessages]
            exact h.sent s
          · rw [hevents, run_append, h.run]
            simp [hserver]
          · rw [hevents, Along.append]
            refine ⟨h.fits, ?_⟩
            intro w' hrun
            obtain rfl := Option.some.inj (h.run.symm.trans hrun)
            exact ⟨hfits e rfl, fun _ _ => trivial⟩
      · cases hguard

/-- What the handlers of the server are given of the messages of a client. -/
structure HandsOver (w : Uplink H P τ) (s : ℕ) (messages : List Message) :
    Prop where
  /-- The first of them, in their order, each once. -/
  first : (w.server.sockets s).packets <+: messages.map Message.bytes
  /-- A handler that has not returned has the next one. -/
  running : ∀ t, w.server.workers t = some (s, .handle) →
    (w.server.sockets s).packets ++
      [(w.server.sockets s).recv.packetBuf.read 0
        (w.server.sockets s).recv.packetSize.toNat] <+:
      messages.map Message.bytes
  /-- All of them, once all has arrived and nobody is busy with it. -/
  all : received (w.server.sockets s).delivered = w.sent s →
    (∀ c ∈ (w.server.sockets s).queue, c.loaded = false) →
    (∀ t inSize, w.server.workers t ≠ some (s, .copy inSize)) →
    (∀ t task, w.server.workers t = some (s, task) → task.inLoop = false) →
    (w.server.sockets s).packets = messages.map Message.bytes

omit [PacketPools H P] [DecidableEq P] [DecidableEq τ] [Fintype τ] in
theorem handsOver_of_frames {w : Uplink H P τ} {s : ℕ}
    {messages : List Message} (hframes : w.server.HandsOverFrames s)
    (hsent : w.sent s = messages.flatMap Message.bytes)
    (hbegin : received (w.server.sockets s).delivered <+: w.sent s) :
    w.HandsOver s messages := by
  rw [hsent] at hbegin
  have hsplits := splits_messages messages
  constructor
  · obtain ⟨rest, htaken⟩ := hframes.taken
    exact htaken.prefix_of_splits lengthField_headerOnly hbegin hsplits
  · intro t ht
    obtain ⟨rest, htaken⟩ := hframes.running t ht
    exact htaken.prefix_of_splits lengthField_headerOnly hbegin hsplits
  · intro hall hqueue hcopy hloop
    have hdrained := hframes.drained hqueue hcopy hloop
    rw [hall, hsent] at hdrained
    exact (hdrained.unique hsplits).1

/-- Messages sent with `SendPacket` reach `PacketHandler` once, in the order in which
they were sent, whatever the threads of the server do. -/
theorem handsOver_of_run {fuel : ℕ} {es : List (UplinkEvent τ)}
    {w : Uplink H P τ} (honce : ∀ e ∈ es, TakenOnce e)
    (hfits : Along (step fuel) Fits (start pools clientSize memory) es)
    (hrun : run (step fuel) (start pools clientSize memory) es = some w)
    {s : ℕ} (hs : s < w.server.created) :
    w.HandsOver s (messagesOn s es) := by
  have hstart : Delivers pools clientSize memory []
      (start pools clientSize memory : Uplink H P τ) :=
    ⟨fun _ => rfl, fun _ hs => absurd hs (Nat.not_lt_zero _), rfl, trivial⟩
  have halong : Along (step fuel) (fun _ e => TakenOnce e)
      (start pools clientSize memory : Uplink H P τ) es :=
    along_of_forall fun e he _ => honce e he
  have hdelivers : Delivers pools clientSize memory es w :=
    history_of_along (fun _ _ _ _ h hφ hstep => h.step hφ.1 hφ.2 hstep) hstart
      (halong.and hfits) hrun
  have hframes : w.server.HandsOverFrames s :=
    IoServer.handsOverFrames_of_run hdelivers.fits hdelivers.run hs
  exact handsOver_of_frames hframes (hdelivers.sent s) (hdelivers.order s hs)

/-- A client connects and sends two messages, `[7]` with protocol 1 and `[]` with
protocol 2.  The first chunk holds one of them and a part of the other, which the
second chunk completes.  Another thread is in `ConnectedHandler` meanwhile. -/
def twoMessages : List (UplinkEvent Bool) :=
  [.server (.setListenPort 80 [true]),
    .sendPacket 0 (fun _ => .accepted 9) ⟨1, [7], Nat.le_of_ble_eq_true rfl⟩,
    .server (.ends 0 (.done .accept 0) (Region.ofList 0 [])),
    .server (.take false 0 (.done .accept 0)),
    .server (.advance false true), .server (.advance false true),
    .sendPacket 0 (fun _ => .accepted 8) ⟨2, [], Nat.le_of_ble_eq_true rfl⟩,
    .server (.ends 0 (.done .recv 10)
      (Region.ofList 0 [9, 0, 0, 0, 1, 0, 0, 0, 7, 8])),
    .server (.advance false true), .server (.take true 0 (.done .recv 10)),
    .server (.advance true true), .server (.advance true true),
    .server (.advance true true), .server (.advance true true),
    .server (.advance true true), .server (.advance true true),
    .server (.ends 0 (.done .recv 7)
      (Region.ofList 0 [0, 0, 0, 2, 0, 0, 0])),
    .server (.take true 0 (.done .recv 7)), .server (.advance true true),
    .server (.advance true true), .server (.advance true true),
    .server (.advance true true)]

theorem handsOver_of_run_twoMessages :
    ∃ w, run (step 1) (start PacketSelector.zeroed 0 fun _ => Region.ofList 0 [])
        twoMessages = some w ∧
      (w.server.sockets 0).packets =
        [[9, 0, 0, 0, 1, 0, 0, 0, 7], [8, 0, 0, 0, 2, 0, 0, 0]] ∧
      w.HandsOver 0 (messagesOn 0 twoMessages) := by
  have hrun : run (step 1)
      (start PacketSelector.zeroed 0 fun _ => Region.ofList 0 [])
      twoMessages = some _ := rfl
  have hfits : Along (step 1) Fits
      (start PacketSelector.zeroed 0 fun _ => Region.ofList 0 [])
      twoMessages := by decide
  have honce : ∀ e ∈ twoMessages, TakenOnce e := by
    intro e he s results m heq
    subst heq
    simp only [twoMessages, List.mem_cons, reduceCtorEq, List.not_mem_nil,
      UplinkEvent.sendPacket.injEq, false_or, or_false] at he
    obtain ⟨-, rfl, rfl⟩ | ⟨-, rfl, rfl⟩ := he
    · exact Repeats.last rfl (by decide) (by decide)
    · exact Repeats.last rfl (by decide) (by decide)
  exact ⟨_, hrun, by decide, handsOver_of_run honce hfits hrun (by decide)⟩

end Uplink

end DokeviNet
