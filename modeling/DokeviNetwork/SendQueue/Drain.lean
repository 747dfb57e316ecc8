import DokeviNetwork.SendQueue.Stream

/-!
# A send queue empties

Once the application stops sending on a socket, each packet of its queue takes two
more steps: the system transmits it and its write completes.  As long as a packet
is left, one of the two can happen, so the queue empties whatever the other sockets
do meanwhile, and then every byte has been transmitted.
-/

namespace DokeviNet

open PacketPools Linked LabelledRun

/-- The system transmits for socket `s`, or a write on it completes. -/
def SendEvent.serves {ι : Type*} [DecidableEq ι] (s : ι) : SendEvent ι → Bool
  | .send _ _ _ _ => false
  | .transmit t => t = s
  | .complete t => t = s

/-- The event is no `Send` on socket `s`. -/
def SendEvent.SparesQueue {ι : Type*} (s : ι) : SendEvent ι → Prop
  | .send t _ _ _ => t ≠ s
  | _ => True

instance {ι : Type*} [DecidableEq ι] (s : ι) :
    ∀ e : SendEvent ι, Decidable (e.SparesQueue s)
  | .send t _ _ _ => inferInstanceAs (Decidable (t ≠ s))
  | .transmit _ => isTrue trivial
  | .complete _ => isTrue trivial

/-- How many of the outstanding writes have been transmitted. -/
def SendSide.transmitted {P : Type*} (s : SendSide P) : ℕ :=
  s.posted.countP fun post => post.transmitted.isSome

/-- A parcel less is queued after each completion. -/
theorem ParcelQueue.length_of_complete {q q' : ParcelQueue}
    (h : q.complete = some q') : q.queue.length = q'.queue.length + 1 := by
  unfold complete at h
  split at h
  · cases h
  · next head waiting hqueue =>
    obtain rfl := Option.some.inj h
    rw [hqueue, List.length_cons]

section

variable {H P ι : Type*} [PacketPools H P]

/-- Of a socket with a packet to send, the system can transmit or complete the
write. -/
theorem Flying.serves_enabled [DecidableEq ι] [DecidableEq P]
    {w : SendSystem H P ι} {queue : ι → List P} {s : ι}
    (hfly : Flying w queue) (hne : queue s ≠ []) :
    w.transmit s ≠ none ∨ w.complete true s ≠ none := by
  obtain ⟨head, rest, heq⟩ := List.exists_cons_of_ne_nil hne
  have hhead : (queue s).head? = some head := by rw [heq]; rfl
  obtain ⟨transmitted, hposted, -⟩ := (hfly.flight s).busy head hhead
  cases transmitted with
  | none =>
      left
      simp [SendSystem.transmit, hposted]
  | some bytes =>
      right
      have hsending : (w.sockets s).sendingPacket = some head :=
        (hfly.queues s).head.trans hhead
      simp [SendSystem.complete, hposted, SendSystem.onWriteCallback,
        DokeviNet.onWriteCallback, hsending]

/-- At most the first packet of a queue has been transmitted. -/
theorem InFlight.transmitted_le {h : H} {s : SendSide P} {queue : List P}
    (hf : InFlight h s queue) : s.transmitted ≤ queue.length := by
  cases queue with
  | nil => simp [SendSide.transmitted, hf.idle rfl]
  | cons head rest =>
      obtain ⟨transmitted, hposted, -⟩ := hf.busy head rfl
      have hone := List.countP_le_length
        (p := fun post : WsaSend P => post.transmitted.isSome)
        (l := s.posted)
      rw [hposted, List.length_singleton] at hone
      rw [SendSide.transmitted, hposted, List.length_cons]
      exact le_trans hone (Nat.le_add_left 1 _)

/-- A socket carries as many parcels as it has packets. -/
theorem Carrying.length_eq {w : SendSystem H P ι} {queue : ι → List P}
    {parcels : ι → ParcelQueue} (hc : Carrying w queue parcels) (s : ι) :
    (queue s).length = (parcels s).queue.length :=
  (hc.holds s).carries.length_eq

/-- What is left to do for socket `s` once it has taken `frames`: two steps a
packet, one less if the first has been transmitted. -/
def Serving (s : ι) (frames : List Frame) (left : ℕ) (w : SendSystem H P ι) :
    Prop :=
  ∃ queue parcels, Carrying w queue parcels ∧ (parcels s).frames = frames ∧
    2 * (parcels s).queue.length = left + (w.sockets s).transmitted

variable [DecidableEq P] [LawfulPacketPools H P]

/-- Nothing that `OnWriteCallback` posts has been transmitted. -/
theorem QueueShape.transmitted_callback {h : H} {s : SendSide P}
    {call : CallbackCall H P} {queue : List P} (hq : QueueShape h s queue)
    (hidle : s.posted = [])
    (hcall : DokeviNet.onWriteCallback true h s = some call) :
    call.socket.transmitted = 0 := by
  cases onWriteCallback_effect hcall with
  | advance htemp hnext _ _ _ _ hsocket _ =>
      rw [hsocket (hq.next_of_head htemp hnext).2]
      simp [SendSide.transmitted, serverSend, hidle]
  | drain _ _ _ _ hsocket _ =>
      rw [hsocket]
      simp [SendSide.transmitted, hidle]

variable [DecidableEq ι]

/-- A step that serves the socket leaves one less to do, and no other step but a
`Send` on it changes what is left. -/
theorem Serving.step {w w' : SendSystem H P ι} {s : ι} {frames : List Frame}
    {left : ℕ} {e : SendEvent ι} (h : Serving s frames left w)
    (hspares : e.SparesQueue s) (hfresh : w.Fresh e) (hroom : w.Room e)
    (hstep : w.step e = some w') :
    ∃ left', Serving s frames left' w' ∧
      left = left' + if e.serves s then 1 else 0 := by
  obtain ⟨queue, parcels, hc, rfl, hleft⟩ := h
  obtain ⟨cap, hcap⟩ := w.exists_allocates e
  obtain ⟨queue', parcels', hc', hrun⟩ := hc.step hfresh hroom hcap hstep
  -- an event on another socket leaves the parcels and the socket alone
  have hsame : e.on s = none → parcels' s = parcels s := by
    intro hother
    have hrun := hrun s
    rw [hother] at hrun
    exact (Option.some.inj hrun).symm
  have hkept : parcels' s = parcels s → w'.sockets s = w.sockets s →
      Serving s (parcels s).frames left w' := by
    intro heq hsocket
    exact ⟨queue', parcels', hc', by rw [heq], by rw [heq, hsocket, hleft]⟩
  cases e with
  | send t inData inLen inImmediateSend =>
      have heq := hsame (if_neg hspares)
      obtain ⟨call, -, rfl⟩ := SendSystem.send_eq_some hstep
      have hsocket := Function.update_of_ne (Ne.symm hspares) call.socket
        w.sockets
      exact ⟨left, hkept heq hsocket, rfl⟩
  | transmit t =>
      have heq := hsame rfl
      obtain ⟨post, posts, hposted, hnone, rfl⟩ :=
        SendSystem.transmit_eq_some hstep
      by_cases hst : t = s
      · subst hst
        obtain ⟨hhead, rfl, -, -⟩ := (hc.flight t).eq_of_posted hposted
        have hpos : 0 < (parcels t).queue.length := by
          rw [← hc.length_eq t]
          exact List.length_pos_of_mem (List.mem_of_mem_head? hhead)
        have hbefore : (w.sockets t).transmitted = 0 := by
          simp [SendSide.transmitted, hposted, hnone]
        refine ⟨left - 1, ⟨queue', parcels', hc', by rw [heq], ?_⟩, ?_⟩
        · simp only [heq, SendSide.transmitted, Function.update_self,
            List.countP_singleton, Option.isSome_some, if_true]
          omega
        · simp only [SendEvent.serves, decide_true, if_true]
          omega
      · have hsocket := Function.update_of_ne (Ne.symm hst) { w.sockets t with
          posted := { post with
            transmitted := some ((packet w.pools post.packet).buffer.read 0
              post.len.toNat) } :: posts } w.sockets
        exact ⟨left, hkept heq hsocket, by simp [SendEvent.serves, hst]⟩
  | complete t =>
      obtain ⟨post, posts, bytes, call, hposted, hbytes, hcall, rfl⟩ :=
        SendSystem.complete_eq_some hstep
      by_cases hst : t = s
      · subst hst
        obtain ⟨-, rfl, -, -⟩ := (hc.flight t).eq_of_posted hposted
        have hafter := (hc.toFlying.completing t [] bytes).transmitted_callback
          rfl hcall
        have hbefore : (w.sockets t).transmitted = 1 := by
          simp [SendSide.transmitted, hposted, hbytes]
        have hdone : (parcels t).complete = some (parcels' t) := by
          simpa [SendEvent.on, ParcelQueue.step] using hrun t
        have hlength := ParcelQueue.length_of_complete hdone
        refine ⟨left - 1, ⟨queue', parcels', hc',
          ParcelQueue.complete_frames hdone, ?_⟩, ?_⟩
        · simp only [Function.update_self, hafter]
          omega
        · simp only [SendEvent.serves, decide_true, if_true]
          omega
      · have hsocket := Function.update_of_ne (Ne.symm hst) call.socket
          w.sockets
        exact ⟨left, hkept (hsame (if_neg hst)) hsocket,
          by simp [SendEvent.serves, hst]⟩

/-- Every step that serves the socket uses up one of those left. -/
theorem Serving.run {w w' : SendSystem H P ι} {s : ι} {frames : List Frame}
    {left : ℕ} {es : List (SendEvent ι)} (h : Serving s frames left w)
    (hspares : ∀ e ∈ es, e.SparesQueue s)
    (hfresh : Along SendSystem.step SendSystem.Fresh w es)
    (hroom : Along SendSystem.step SendSystem.Room w es)
    (hrun : LabelledRun.run SendSystem.step w es = some w') :
    ∃ left', Serving s frames left' w' ∧
      left = left' + es.countP (SendEvent.serves s) := by
  have hall := (along_of_forall fun e he _ => hspares e he).and
    (hfresh.and hroom)
  refine @history_of_along _ _ _ _ (fun past w => ∃ left',
    Serving s frames left' w ∧
      left = left' + past.countP (SendEvent.serves s))
    ?_ _ _ _ ⟨left, h, rfl⟩ hall hrun
  rintro past w e w' ⟨left', h, heq⟩ ⟨hspares, hfresh, hroom⟩ hstep
  obtain ⟨left'', h', heq'⟩ := h.step hspares hfresh hroom hstep
  refine ⟨left'', h', ?_⟩
  rw [List.countP_append, List.countP_singleton]
  omega

/-- Once no more is sent on a socket, at most two steps for each packet queued
serve it, whatever happens on the others; and when neither of them is possible any
more, its queue is empty and all that was ever sent on it is on the wire. -/
theorem drains_of_run {pools : H} {es more : List (SendEvent ι)}
    {w w' : SendSystem H P ι}
    (hfresh : Along SendSystem.step SendSystem.Fresh
      (SendSystem.start pools) (es ++ more))
    (hfits : Along SendSystem.step SendSystem.Fits
      (SendSystem.start pools) (es ++ more))
    (hrun : LabelledRun.run SendSystem.step (SendSystem.start pools) es =
      some w)
    (hmore : LabelledRun.run SendSystem.step w more = some w') (s : ι)
    (hspares : ∀ e ∈ more, e.SparesQueue s) :
    ∃ queue,
      Follows (fun p => (packet w.pools p).next)
          (w.sockets s).sendingPacket queue ∧
        more.countP (SendEvent.serves s) ≤ 2 * queue.length ∧
        (w'.step (.transmit s) = none → w'.step (.complete s) = none →
          (w'.sockets s).sendingPacket = none ∧
            (w'.sockets s).lastPacket = none ∧
            (w'.sockets s).posted = [] ∧
            (w'.sockets s).wire = (framesOn s es).flatMap Frame.bytes) := by
  have hroom := hfits.mono fun w e h => SendSystem.Fits.room h
  obtain ⟨hfresh, hfresh'⟩ := Along.append.mp hfresh
  obtain ⟨hroom, hroom'⟩ := Along.append.mp hroom
  obtain ⟨queue, parcels, hc, hframes⟩ :=
    exists_carrying_of_run hfresh hroom hrun
  have hlength := hc.length_eq s
  have hle := (hc.flight s).transmitted_le
  have hserving : Serving s (framesOn s es)
      (2 * (parcels s).queue.length - (w.sockets s).transmitted) w :=
    ⟨queue, parcels, hc, hframes s, by omega⟩
  obtain ⟨left, ⟨queue', parcels', hc', hframes', hleft⟩, hcount⟩ :=
    hserving.run hspares (hfresh' w hrun) (hroom' w hrun) hmore
  refine ⟨queue s, (hc.queues s).linked, by omega, ?_⟩
  intro htransmit hcomplete
  have hempty : queue' s = [] := by
    by_contra hne
    rcases hc'.toFlying.serves_enabled hne with hnot | hnot
    · exact hnot htransmit
    · exact hnot hcomplete
  have hnil : (parcels' s).queue = [] := by
    rw [← List.length_eq_zero_iff, ← hc'.length_eq s, hempty]
    rfl
  refine ⟨?_, ?_, (hc'.flight s).idle hempty, ?_⟩
  · rw [(hc'.queues s).head, hempty]
    rfl
  · rw [(hc'.queues s).last, hempty]
    rfl
  · rw [(hc'.holds s).wire, ← hframes', ParcelQueue.frames, hnil,
      List.append_nil, List.flatMap_assoc]
    rfl

end

/-- After the two sends, both packets are transmitted and both writes complete. -/
theorem drains_of_run_twoSends :
    ∃ w : SendSystem PacketSelector PacketId Unit,
      LabelledRun.run SendSystem.step
          (SendSystem.start PacketSelector.zeroed)
          (twoSends ++ [.complete ()]) = some w ∧
        (w.sockets ()).posted = [] ∧
        (w.sockets ()).wire = [2, 0, 0, 0, 1, 2, 1, 0, 0, 0, 3] := by
  have hfresh : Along SendSystem.step SendSystem.Fresh
      (SendSystem.start PacketSelector.zeroed)
      (twoSends.take 3 ++ (twoSends.drop 3 ++ [.complete ()])) := by decide
  have hfits : Along SendSystem.step SendSystem.Fits
      (SendSystem.start PacketSelector.zeroed)
      (twoSends.take 3 ++ (twoSends.drop 3 ++ [.complete ()])) := by decide
  obtain ⟨queue, -, -, hdone⟩ := drains_of_run hfresh hfits rfl rfl ()
    (by decide)
  obtain ⟨-, -, hposted, hwire⟩ := hdone rfl rfl
  exact ⟨_, rfl, hposted, hwire.trans (by decide)⟩

end DokeviNet
