import DokeviNetwork.Packet.Accounts
import DokeviNetwork.SendQueue.Flight
import DokeviNetwork.Server.Model
import DokeviNetwork.Support.Run
import DokeviNetwork.Support.Workers

/-!
# Where the packets of a server are

Packets go back to the pools only when a `WSASend` completes with success.  This
module says that they are all in the send queues of connected sockets, and that
no queue stalls, as long as no `WSASend` fails, none completes with a failure and
no connection ends while packets are queued on it.
-/

namespace DokeviNet

open PacketPools Linked LabelledRun Workers

/-! ## What a call does to the accounts -/

namespace PacketSelector

theorem Accounts.same {sel sel' : PacketSelector} {live : List PacketId}
    (h : sel.Accounts live) (hsame : SameApartFromPackets sel sel') :
    sel'.Accounts live := by
  have hassign : ∀ (sel : PacketSelector) (p : PacketId)
      (v : PacketInterface PacketId) (c : SizeClass),
      (PacketPools.assign sel p v c).used = (sel c).used ∧
        (PacketPools.assign sel p v c).queueSize = (sel c).queueSize := by
    intro sel p v c
    change (sel.assign p v c).used = _ ∧ (sel.assign p v c).queueSize = _
    unfold PacketSelector.assign
    by_cases hc : c = p.pool
    · subst hc
      simp
    · simp [hc]
  refine h.congr (fun c => ?_) fun c => ?_
  · exact hsame (fun sel => (sel c).used.toNat) fun sel p v => by
      rw [(hassign sel p v c).1]
  · exact hsame (fun sel => (sel c).queueSize.toNat) fun sel p v => by
      rw [(hassign sel p v c).2]

theorem Accounts.send {accepted : Bool} {sel : PacketSelector}
    {s : SendSide PacketId} {inData : Region UInt8} {inLen : UInt32}
    {inImmediateSend : Bool} {call : SendCall PacketSelector PacketId}
    {live : List PacketId} (h : sel.Accounts live)
    (heffect : SendEffect accepted sel s inData inLen inImmediateSend call) :
    call.pools.Accounts (live ++ call.allocated.toList) := by
  cases heffect with
  | append _ _ _ hpools _ hallocated _ =>
      rw [hallocated, Option.toList_none, List.append_nil]
      exact h.same hpools
  | first _ halloc _ _ hpools _ hallocated _ =>
      rw [hallocated]
      exact (h.alloc halloc).same hpools
  | link _ halloc _ _ _ hpools _ hallocated _ =>
      rw [hallocated]
      exact (h.alloc halloc).same hpools

theorem Accounts.callback {accepted : Bool} {sel : PacketSelector}
    {s : SendSide PacketId} {call : CallbackCall PacketSelector PacketId}
    {live : List PacketId} (h : sel.Accounts live)
    (heffect : CallbackEffect accepted sel s call)
    (hlive : call.freed ∈ live)
    (hmax : (PacketPools.packet sel call.freed).maxSize =
      call.freed.pool.bytes) :
    call.pools.Accounts (live.erase call.freed) := by
  cases heffect with
  | advance _ _ _ hpools hsame hfree _ hfreed =>
      rw [hfree, hfreed]
      rw [hfreed] at hlive hmax
      exact (h.same hpools).free hlive (hsame.trans hmax)
  | drain _ _ _ hfree _ hfreed =>
      rw [hfree, hfreed]
      rw [hfreed] at hlive hmax
      exact h.free hlive hmax

end PacketSelector

/-! ## The property and the condition -/

namespace DokeviServer

/-- No `WSASend` fails, at once or later, no connection ends while packets are
queued on it, every packet allocated is fresh, and there is room for what is
stored in it. -/
def Undisturbed (w : DokeviServer PacketSelector PacketId) :
    ServerEvent → Prop
  | .send accepted s _ inLen inImmediateSend =>
    ((w.io.sockets s).sendingPacket = none → accepted = true) ∧
      w.io.SendsFresh s inLen inImmediateSend ∧
      w.io.SendRoom s inLen inImmediateSend
  | .sendDone accepted s =>
    (∃ head ∈ (w.io.sockets s).sendingPacket,
      (packet w.io.pools head).next ≠ none) → accepted = true
  | .sendFailed _ _ => False
  | .recvClosed s => (w.io.sockets s).sendingPacket = none
  | .recvFailed s err => err = 64 → (w.io.sockets s).sendingPacket = none
  | .acceptFailed s err => err = 64 → (w.io.sockets s).sendingPacket = none
  | _ => True

instance decidableUndisturbed (w : DokeviServer PacketSelector PacketId) :
    ∀ e, Decidable (w.Undisturbed e)
  | .acceptDone _ _ => isTrue trivial
  | .acceptFailed _ _ => inferInstanceAs (Decidable (_ → _))
  | .send _ _ _ _ _ => inferInstanceAs (Decidable (_ ∧ _))
  | .transmit _ => isTrue trivial
  | .sendDone accepted s =>
    inferInstanceAs (Decidable ((∃ head ∈ (w.io.sockets s).sendingPacket,
      (packet w.io.pools head).next ≠ none) → accepted = true))
  | .sendFailed _ _ => isFalse id
  | .recvDone _ _ => isTrue trivial
  | .recvClosed s =>
    inferInstanceAs (Decidable ((w.io.sockets s).sendingPacket = none))
  | .recvFailed _ _ => inferInstanceAs (Decidable (_ → _))

/-- What an undisturbed server keeps. -/
structure Healthy (w : DokeviServer PacketSelector PacketId)
    (queue : ℕ → List PacketId) : Prop extends Flying w.io queue where
  accounts : w.io.pools.Accounts w.io.live
  capacity : ∀ s, ∀ p ∈ queue s,
    (packet w.io.pools p).maxSize = p.pool.bytes
  total : w.io.live.length = ∑ s ∈ Finset.range w.created, (queue s).length
  offline : ∀ s, w.connected s = false → queue s = []
  exists_of_connected : ∀ s, w.connected s = true → s < w.created

variable {w w' : DokeviServer PacketSelector PacketId}
  {queue : ℕ → List PacketId} {s : ℕ}

theorem takeAccept_eq_some (h : w.takeAccept s = some w') :
    w'.io = w.io ∧ w'.created = w.created ∧ w'.connected = w.connected := by
  unfold takeAccept at h
  split at h
  · obtain rfl := Option.some.inj h
    exact ⟨rfl, rfl, rfl⟩
  · cases h

theorem takeRecv_eq_some (h : w.takeRecv s = some w') :
    w'.io = w.io ∧ w'.created = w.created ∧ w'.connected = w.connected := by
  unfold takeRecv at h
  split at h
  · cases h
  · obtain rfl := Option.some.inj h
    exact ⟨rfl, rfl, rfl⟩

namespace Healthy

/-- What is received and which `AcceptEx` calls are outstanding plays no part. -/
theorem congr (h : Healthy w queue) (hio : w'.io = w.io)
    (hcreated : w'.created = w.created)
    (hconnected : w'.connected = w.connected) : Healthy w' queue where
  toFlying := hio ▸ h.toFlying
  accounts := hio ▸ h.accounts
  capacity := hio ▸ h.capacity
  total := by
    rw [hio, hcreated]
    exact h.total
  offline := hconnected ▸ h.offline
  exists_of_connected := by
    rw [hconnected, hcreated]
    exact h.exists_of_connected

theorem takeAccept (h : Healthy w queue) (htake : w.takeAccept s = some w') :
    Healthy w' queue := by
  obtain ⟨hio, hcreated, hconnected⟩ := takeAccept_eq_some htake
  exact h.congr hio hcreated hconnected

theorem takeRecv (h : Healthy w queue) (htake : w.takeRecv s = some w') :
    Healthy w' queue := by
  obtain ⟨hio, hcreated, hconnected⟩ := takeRecv_eq_some htake
  exact h.congr hio hcreated hconnected

/-- Packets are only queued on connected sockets. -/
theorem connected_of_sending (h : Healthy w queue)
    (hsending : (w.io.sockets s).sendingPacket ≠ none) :
    w.connected s = true := by
  by_contra hconnected
  have hnil := h.offline s (eq_false_of_ne_true hconnected)
  rw [(h.queues s).head, hnil] at hsending
  exact hsending rfl

theorem connect (h : Healthy w queue) (hs : s < w.created)
    (hio : w'.io = w.io) (hcreated : w'.created = w.created)
    (hconnected : w'.connected = Function.update w.connected s true) :
    Healthy w' queue where
  toFlying := hio ▸ h.toFlying
  accounts := hio ▸ h.accounts
  capacity := hio ▸ h.capacity
  total := by
    rw [hio, hcreated]
    exact h.total
  offline t ht := by
    by_cases hts : t = s
    · subst hts
      simp [hconnected] at ht
    · exact h.offline t (by simpa [hconnected, hts] using ht)
  exists_of_connected t ht := by
    rw [hcreated]
    by_cases hts : t = s
    · exact hts ▸ hs
    · exact h.exists_of_connected t (by simpa [hconnected, hts] using ht)

/-- Closing a socket with an empty queue; the socket created for the next
connection has an empty queue as well. -/
theorem disconnect (h : Healthy w queue)
    (hidle : (w.io.sockets s).sendingPacket = none) :
    Healthy (w.disconnectHandler s) queue where
  toFlying := h.toFlying
  accounts := h.accounts
  capacity := h.capacity
  total := by
    have hnew : queue w.created = [] := by
      apply h.offline
      rw [← Bool.not_eq_true]
      exact fun hconnected =>
        absurd (h.exists_of_connected _ hconnected) (lt_irrefl _)
    change w.io.live.length = ∑ t ∈ Finset.range (w.created + 1), _
    rw [Finset.sum_range_succ, hnew, List.length_nil, Nat.add_zero]
    exact h.total
  offline t ht := by
    by_cases hts : t = s
    · subst hts
      exact (h.queues t).eq_nil hidle
    · apply h.offline
      simpa [disconnectHandler, resetSocket, readyAcceptEx, hts] using ht
  exists_of_connected t ht := by
    by_cases hts : t = s
    · subst hts
      simp [disconnectHandler, resetSocket, readyAcceptEx] at ht
    · have ht : w.connected t = true := by
        simpa [disconnectHandler, resetSocket, readyAcceptEx, hts] using ht
      exact Nat.lt_succ_of_lt (h.exists_of_connected t ht)

theorem completionFailed {err : ℕ} (h : Healthy w queue)
    (hidle : err = 64 → (w.io.sockets s).sendingPacket = none) :
    Healthy (w.completionFailed s err) queue := by
  unfold DokeviServer.completionFailed
  split
  · next herr => exact h.disconnect (hidle herr)
  · exact h

theorem send {inData : Region UInt8} {inLen : UInt32} {inImmediateSend : Bool}
    {call : SendCall PacketSelector PacketId} (h : Healthy w queue)
    (hconnected : w.connected s = true)
    (hfresh : w.io.SendsFresh s inLen inImmediateSend)
    (hcall : DokeviNet.send true w.io.pools (w.io.sockets s) inData inLen
      inImmediateSend = some call) :
    Healthy
      { w with
        io :=
          { pools := call.pools
            sockets := Function.update w.io.sockets s call.socket
            live := w.io.live ++ call.allocated.toList } }
      (Function.update queue s (queue s ++ call.allocated.toList)) where
  toFlying := h.toFlying.send hfresh hcall
  accounts := h.accounts.send (send_effect hcall)
  capacity := by
    refine Shape.forall_send
      (fun (p : PacketId) v => v.maxSize = p.pool.bytes) (fun _ _ hv => hv)
      (fun _ _ _ hv => hv) h.toShape hfresh hcall h.capacity ?_ ?_
    · exact fun last hlast _ => h.capacity s last hlast
    · exact fun p _ => rfl
  total := by
    have hsum := sum_update (Finset.range w.created) List.length queue
      (Finset.mem_range.mpr (h.exists_of_connected s hconnected))
      (queue s ++ call.allocated.toList)
    have htotal := h.total
    rw [List.length_append] at hsum
    simp only [List.length_append]
    omega
  offline t ht := by
    have hts : t ≠ s := by
      rintro rfl
      rw [hconnected] at ht
      cases ht
    rw [Function.update_of_ne hts]
    exact h.offline t ht
  exists_of_connected := h.exists_of_connected

theorem transmit {io : SendSystem PacketSelector PacketId ℕ}
    (h : Healthy w queue) (hstep : w.io.transmit s = some io) :
    Healthy { w with io := io } queue := by
  have hfly := h.toFlying.transmit hstep
  obtain ⟨post, posts, -, -, rfl⟩ := SendSystem.transmit_eq_some hstep
  exact ⟨hfly, h.accounts, h.capacity, h.total, h.offline,
    h.exists_of_connected⟩

theorem complete {post : WsaSend PacketId} {posts : List (WsaSend PacketId)}
    {bytes : List UInt8} {call : CallbackCall PacketSelector PacketId}
    (h : Healthy w queue) (hs : s < w.created)
    (hposted : (w.io.sockets s).posted = post :: posts)
    (hcall : DokeviNet.onWriteCallback true w.io.pools
      (w.io.completing s posts bytes) = some call) :
    Healthy
      { w with
        io :=
          { pools := call.pools
            sockets := Function.update w.io.sockets s call.socket
            live := w.io.live.erase call.freed } }
      (Function.update queue s (queue s).tail) := by
  have hsock := h.toFlying.completing s posts bytes
  have heffect := onWriteCallback_effect hcall
  obtain ⟨heq, -⟩ := hsock.callback heffect
  have hfreed : call.freed ∈ queue s := by
    rw [heq]
    simp
  have hlive := h.live s _ hfreed
  refine ⟨h.toFlying.complete hposted hcall,
    h.accounts.callback heffect hlive (h.capacity s _ hfreed), ?_, ?_, ?_,
    h.exists_of_connected⟩
  · exact Shape.forall_callback
      (fun (p : PacketId) v => v.maxSize = p.pool.bytes) (fun _ _ hv => hv)
      h.toShape hsock hcall h.capacity
  · have hsum := sum_update (Finset.range w.created) List.length queue
      (Finset.mem_range.mpr hs) (queue s).tail
    have htotal := h.total
    have hlength := congrArg List.length heq
    have herase := List.length_erase_of_mem hlive
    have hpos := List.length_pos_of_mem hlive
    rw [List.length_cons] at hlength
    simp only [herase]
    omega
  · intro t ht
    by_cases hts : t = s
    · subst hts
      rw [h.offline t ht] at hfreed
      cases hfreed
    · rw [Function.update_of_ne hts]
      exact h.offline t ht

/-- Every event keeps an undisturbed server healthy. -/
theorem step {e : ServerEvent} (h : Healthy w queue)
    (hundisturbed : w.Undisturbed e) (hstep : w.step e = some w') :
    ∃ queue', Healthy w' queue' := by
  unfold DokeviServer.step at hstep
  split at hstep
  case isFalse => cases hstep
  case isTrue hs =>
  cases e with
  | acceptDone s recvAccepted =>
      obtain ⟨v, hv, rfl⟩ := Option.map_eq_some_iff.mp hstep
      have hcreated := (takeAccept_eq_some hv).2.1
      exact ⟨queue, (h.takeAccept hv).connect (hcreated ▸ hs) rfl rfl rfl⟩
  | acceptFailed s err =>
      obtain ⟨v, hv, rfl⟩ := Option.map_eq_some_iff.mp hstep
      have hio := (takeAccept_eq_some hv).1
      exact ⟨queue, (h.takeAccept hv).completionFailed (hio ▸ hundisturbed)⟩
  | send accepted s inData inLen inImmediateSend =>
      obtain ⟨haccepted, hfresh, -⟩ := hundisturbed
      simp only [handle] at hstep
      split at hstep
      · cases hstep
      · next hguard =>
        obtain ⟨io, hio, rfl⟩ := Option.map_eq_some_iff.mp hstep
        obtain ⟨call, hcall, rfl⟩ := SendSystem.send_eq_some hio
        by_cases hidle : (w.io.sockets s).sendingPacket = none
        · obtain rfl := haccepted hidle
          exact ⟨_, h.send (by simpa using hguard) hfresh hcall⟩
        · rw [send_accepted hidle] at hcall
          exact ⟨_, h.send (h.connected_of_sending hidle) hfresh hcall⟩
  | transmit s =>
      obtain ⟨io, hio, rfl⟩ := Option.map_eq_some_iff.mp hstep
      exact ⟨queue, h.transmit hio⟩
  | sendDone accepted s =>
      simp only [handle] at hstep
      split at hstep
      · cases hstep
      · obtain ⟨io, hio, rfl⟩ := Option.map_eq_some_iff.mp hstep
        obtain ⟨post, posts, bytes, call, hposted, -, hcall, rfl⟩ :=
          SendSystem.complete_eq_some hio
        by_cases haccepted : accepted = true
        · subst haccepted
          exact ⟨_, h.complete hs hposted hcall⟩
        · rw [onWriteCallback_accepted] at hcall
          · exact ⟨_, h.complete hs hposted hcall⟩
          · intro head hhead
            by_contra hnext
            exact haccepted (hundisturbed ⟨head, hhead, hnext⟩)
  | sendFailed s err => exact hundisturbed.elim
  | recvDone s recvAccepted =>
      obtain ⟨v, hv, rfl⟩ := Option.map_eq_some_iff.mp hstep
      exact ⟨queue, (h.takeRecv hv).congr rfl rfl rfl⟩
  | recvClosed s =>
      obtain ⟨v, hv, rfl⟩ := Option.map_eq_some_iff.mp hstep
      have hio := (takeRecv_eq_some hv).1
      exact ⟨queue, (h.takeRecv hv).disconnect (hio ▸ hundisturbed)⟩
  | recvFailed s err =>
      obtain ⟨v, hv, rfl⟩ := Option.map_eq_some_iff.mp hstep
      have hio := (takeRecv_eq_some hv).1
      exact ⟨queue, (h.takeRecv hv).completionFailed (hio ▸ hundisturbed)⟩

end Healthy

/-! ## Runs -/

end DokeviServer

end DokeviNet
