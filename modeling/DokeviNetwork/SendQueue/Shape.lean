import DokeviNetwork.SendQueue.Effect
import DokeviNetwork.Support.Linked

/-!
# The pointer structure of the send queues

`QueueShape` says of one socket that its two pointers and the `_next` links
describe a given list of packets, of which the head alone is marked as being
sent.  `Shape` says it of all sockets at once and adds that no packet is on two
queues.  Both survive every `Send` that is given a fresh packet and every
`OnWriteCallback`; the payload lengths play no part.
-/

namespace DokeviNet

open PacketPools Linked

section

variable {H P : Type*} [PacketPools H P]

/-- The pointers of socket `s` describe the queue `queue`. -/
structure QueueShape (h : H) (s : SendSide P) (queue : List P) : Prop where
  linked : Follows (fun p => (packet h p).next) s.sendingPacket queue
  last : s.lastPacket = queue.getLast?
  nodup : queue.Nodup
  sending : ∀ p ∈ queue,
    ((packet h p).isSending = true ↔ queue.head? = some p)

theorem QueueShape.head {h : H} {s : SendSide P} {queue : List P}
    (hq : QueueShape h s queue) : s.sendingPacket = queue.head? :=
  hq.linked.head_eq

theorem QueueShape.eq_nil {h : H} {s : SendSide P} {queue : List P}
    (hq : QueueShape h s queue) (hempty : s.sendingPacket = none) :
    queue = [] := by
  rw [hq.head, List.head?_eq_none_iff] at hempty
  exact hempty

theorem QueueShape.eq_append_last {h : H} {s : SendSide P} {queue : List P}
    {last : P} (hq : QueueShape h s queue) (hlast : s.lastPacket = some last) :
    ∃ front, queue = front ++ [last] := by
  rw [hq.last] at hlast
  exact List.getLast?_eq_some_iff.mp hlast

theorem QueueShape.last_mem {h : H} {s : SendSide P} {queue : List P}
    {last : P} (hq : QueueShape h s queue) (hlast : s.lastPacket = some last) :
    last ∈ queue := by
  obtain ⟨front, rfl⟩ := hq.eq_append_last hlast
  simp

theorem QueueShape.last_not_mem_front {h : H} {s : SendSide P}
    {front : List P} {last : P} (hq : QueueShape h s (front ++ [last])) :
    last ∉ front := by
  intro hmem
  have hnodup := hq.nodup
  rw [List.nodup_append] at hnodup
  exact hnodup.2.2 last hmem last (by simp) rfl

theorem QueueShape.eq_cons {h : H} {s : SendSide P} {queue : List P}
    {temp : P} (hq : QueueShape h s queue)
    (htemp : s.sendingPacket = some temp) :
    ∃ rest, queue = temp :: rest := by
  rw [hq.head] at htemp
  exact ⟨queue.tail, List.eq_cons_of_mem_head? htemp⟩

/-- The packet behind the head is another one. -/
theorem QueueShape.next_of_head {h : H} {s : SendSide P} {queue : List P}
    {temp next : P} (hq : QueueShape h s queue)
    (htemp : s.sendingPacket = some temp)
    (hnext : (packet h temp).next = some next) :
    queue.tail.head? = some next ∧ next ≠ temp := by
  obtain ⟨rest, rfl⟩ := hq.eq_cons htemp
  have hhead : rest.head? = some next := hq.linked.2.head_eq.symm.trans hnext
  refine ⟨hhead, ?_⟩
  rintro rfl
  exact (List.nodup_cons.mp hq.nodup).1 (List.mem_of_mem_head? hhead)

/-- A packet of the queue that is not being sent is not its head. -/
theorem QueueShape.ne_head {h : H} {s : SendSide P} {queue : List P} {p : P}
    (hq : QueueShape h s queue) (hp : p ∈ queue)
    (hsending : (packet h p).isSending = false) : queue.head? ≠ some p := by
  intro hhead
  rw [(hq.sending p hp).mpr hhead] at hsending
  cases hsending

/-- Only the links and marks of the queue's own packets matter. -/
theorem QueueShape.congr {h h' : H} {s s' : SendSide P} {queue : List P}
    (hq : QueueShape h s queue)
    (hhead : s'.sendingPacket = s.sendingPacket)
    (hlast : s'.lastPacket = s.lastPacket)
    (hnext : ∀ p ∈ queue, (packet h' p).next = (packet h p).next)
    (hsending : ∀ p ∈ queue, (packet h' p).isSending = (packet h p).isSending) :
    QueueShape h' s' queue where
  linked := hhead ▸ hq.linked.congr hnext
  last := hlast ▸ hq.last
  nodup := hq.nodup
  sending p hp := by
    rw [hsending p hp]
    exact hq.sending p hp

/-- A new packet behind the last one of the queue. -/
theorem QueueShape.link {h h' : H} {s : SendSide P} {queue : List P}
    {p last : P} (hq : QueueShape h s queue)
    (hlast : s.lastPacket = some last) (hnew : p ∉ queue)
    (hnext : ∀ q ∈ queue, q ≠ last → (packet h' q).next = (packet h q).next)
    (hlinked : (packet h' last).next = some p)
    (hend : (packet h' p).next = none)
    (hsame : ∀ q ∈ queue, (packet h' q).isSending = (packet h q).isSending)
    (hsending : (packet h' p).isSending = false) :
    QueueShape h' { s with lastPacket := some p } (queue ++ [p]) := by
  obtain ⟨front, rfl⟩ := hq.eq_append_last hlast
  have hnotin := hq.last_not_mem_front
  refine ⟨?_, by simp, ?_, ?_⟩
  · refine Follows.link hq.linked ?_ hlinked hend
    intro q hqmem
    have hqlast : q ≠ last := fun heq => hnotin (heq ▸ hqmem)
    exact hnext q (by simp [hqmem]) hqlast
  · exact hq.nodup.append (by simp) (by simpa using hnew)
  · intro q hqmem
    rw [List.head?_append_of_ne_nil _ (by simp)]
    rcases List.mem_append.mp hqmem with hold | hq'
    · rw [hsame q hold]
      exact hq.sending q hold
    · obtain rfl : q = p := by simpa using hq'
      have hhead : (front ++ [last]).head? ≠ some q := fun heq =>
        hnew (List.mem_of_mem_head? heq)
      simp only [hsending, Bool.false_eq_true, false_iff]
      exact hhead

variable {ι : Type*}

/-- The queues of all sockets, pairwise disjoint and made of live packets. -/
structure Shape (w : SendSystem H P ι) (queue : ι → List P) : Prop where
  queues : ∀ s, QueueShape w.pools (w.sockets s) (queue s)
  disjoint : ∀ s t, s ≠ t → List.Disjoint (queue s) (queue t)
  live : ∀ s, ∀ p ∈ queue s, p ∈ w.live

theorem shape_start (pools : H) :
    Shape (SendSystem.start pools : SendSystem H P ι) fun _ => [] where
  queues _ := ⟨rfl, rfl, List.nodup_nil, by simp⟩
  disjoint _ _ _ := List.disjoint_nil_left _
  live := by simp

variable [DecidableEq P]

theorem QueueShape.send {accepted : Bool} {h : H} {s : SendSide P}
    {inData : Region UInt8} {inLen : UInt32} {inImmediateSend : Bool}
    {call : SendCall H P} {queue : List P} (hq : QueueShape h s queue)
    (heffect : SendEffect accepted h s inData inLen inImmediateSend call)
    (hfresh : ∀ p ∈ call.allocated, p ∉ queue) :
    QueueShape call.pools call.socket (queue ++ call.allocated.toList) := by
  cases heffect with
  | @append last hlast hcoalesces hpackets _ hsocket hallocated _ =>
      rw [hallocated, hsocket, Option.toList_none, List.append_nil]
      refine hq.congr rfl rfl ?_ ?_
      · intro p _
        rw [hpackets p]
        split
        · next heq => rw [heq, PacketInterface.append_next]
        · rfl
      · intro p _
        rw [hpackets p]
        split
        · next heq => rw [heq, PacketInterface.append_isSending]
        · rfl
  | @first p _ _ _ hempty hpackets _ hsocket hallocated _ =>
      obtain rfl := hq.eq_nil hempty
      rw [hallocated, hsocket]
      refine ⟨⟨rfl, ?_⟩, rfl, by simp, ?_⟩
      · simp [hpackets p, freshPacket]
      · intro q hq'
        obtain rfl : q = p := by simpa using hq'
        simp [hpackets q]
  | @link p head last _ _ _ _ hlast hpackets _ hsocket hallocated _ =>
      have hnew : p ∉ queue := hfresh p (by simp [hallocated])
      have hmem := hq.last_mem hlast
      have hne : p ≠ last := fun heq => hnew (heq ▸ hmem)
      have hpackets := hpackets hne
      rw [hallocated, hsocket, Option.toList_some]
      have hother : ∀ q ∈ queue, q ≠ p := fun q hqmem heq =>
        hnew (heq ▸ hqmem)
      apply hq.link hlast hnew
      · intro q hqmem hqlast
        rw [hpackets q, if_neg hqlast, if_neg (hother q hqmem)]
      · simp [hpackets last]
      · simp [hpackets p, hne, freshPacket]
      · intro q hqmem
        rw [hpackets q, if_neg (hother q hqmem)]
        split
        · next heq => rw [heq, PacketInterface.linkTo_isSending]
        · rfl
      · simp [hpackets p, hne, freshPacket]

theorem QueueShape.callback {accepted : Bool} {h : H} {s : SendSide P}
    {call : CallbackCall H P} {queue : List P} (hq : QueueShape h s queue)
    (heffect : CallbackEffect accepted h s call) :
    queue = call.freed :: queue.tail ∧
      QueueShape call.pools call.socket queue.tail := by
  cases heffect with
  | @advance temp next _ htemp hnext hpackets _ _ _ hsocket hfreed =>
      obtain ⟨hhead, hne⟩ := hq.next_of_head htemp hnext
      obtain ⟨rest, rfl⟩ := hq.eq_cons htemp
      have hnotin : temp ∉ rest := (List.nodup_cons.mp hq.nodup).1
      have hrest : Follows (fun p => (packet h p).next) (some next) rest := by
        rw [← hnext]
        exact hq.linked.2
      cases rest with
      | nil => cases hhead
      | cons q rest =>
        obtain rfl : next = q := (Option.some.inj hhead).symm
        rw [hfreed, hsocket hne]
        have hold : ∀ q ∈ next :: rest, packet call.pools q =
            if q = next then (packet h next).markSending
            else packet h q := fun q hmem =>
          hpackets q fun heq => hnotin (heq ▸ hmem)
        refine ⟨rfl, ?_, ?_, (List.nodup_cons.mp hq.nodup).2, ?_⟩
        · apply hrest.congr
          intro q hmem
          rw [hold q hmem]
          split
          · next heq => rw [heq, PacketInterface.markSending_next]
          · rfl
        · have hlast := hq.last
          rw [List.getLast?_cons_cons] at hlast
          simpa [serverSend] using hlast
        · intro q hmem
          have hmem' : q ∈ next :: rest := hmem
          rw [hold q hmem']
          by_cases heq : q = next
          · simp [heq]
          · have hbefore := hq.sending q (List.mem_cons_of_mem _ hmem')
            have hqtemp : temp ≠ q := fun h => hnotin (h ▸ hmem')
            simp only [if_neg heq, hbefore, List.head?_cons, List.tail_cons,
              Option.some.injEq, hqtemp, false_iff]
            exact fun h => heq h.symm
  | @drain temp htemp hnext hpackets _ hsocket hfreed =>
      obtain ⟨rest, rfl⟩ := hq.eq_cons htemp
      have hrest : Follows (fun p => (packet h p).next) none rest := by
        rw [← hnext]
        exact hq.linked.2
      obtain rfl : rest = [] := by
        cases rest with
        | nil => rfl
        | cons q rest => simp at hrest
      rw [hfreed, hsocket]
      exact ⟨rfl, rfl, rfl, List.nodup_nil, by simp⟩

/-- The packets behind the freed one are what they were, the new head being
marked. -/
theorem QueueShape.callback_packet {accepted : Bool} {h : H} {s : SendSide P}
    {call : CallbackCall H P} {queue : List P} (hq : QueueShape h s queue)
    (heffect : CallbackEffect accepted h s call) {p : P}
    (hp : p ∈ queue.tail) :
    packet call.pools p = packet h p ∨
      packet call.pools p = (packet h p).markSending := by
  have hne : p ≠ call.freed := by
    rintro rfl
    have hnodup := hq.nodup
    rw [(hq.callback heffect).1] at hnodup
    exact (List.nodup_cons.mp hnodup).1 hp
  cases heffect with
  | advance _ _ hpackets _ _ _ _ hfreed =>
      rw [hpackets p (hfreed ▸ hne)]
      split
      · next heq =>
        subst heq
        exact Or.inr rfl
      · exact Or.inl rfl
  | drain _ _ hpackets _ _ hfreed =>
      exact Or.inl (hpackets p (hfreed ▸ hne))

/-! ## All sockets at once -/

variable [LawfulPacketPools H P]

namespace Shape

variable {w : SendSystem H P ι} {queue : ι → List P} {s : ι}
  {accepted : Bool}

/-- A packet allocated fresh is on no queue. -/
theorem fresh_not_mem {inData : Region UInt8} {inLen : UInt32}
    {inImmediateSend : Bool} {call : SendCall H P} (hshape : Shape w queue)
    (hfresh : w.SendsFresh s inLen inImmediateSend)
    (hcall : DokeviNet.send accepted w.pools (w.sockets s) inData inLen
      inImmediateSend = some call) :
    ∀ p ∈ call.allocated, p ∉ w.live ∧ ∀ t, p ∉ queue t := by
  intro p hp
  obtain ⟨hcoalesces, hget⟩ := (send_effect hcall).of_allocated hp
  have hlive : p ∉ w.live := hfresh hcoalesces p hget
  exact ⟨hlive, fun t hmem => hlive (hshape.live t p hmem)⟩

/-- A `Send` on one socket leaves the packets of every other queue alone. -/
theorem send_frame {inData : Region UInt8} {inLen : UInt32}
    {inImmediateSend : Bool} {call : SendCall H P} (hshape : Shape w queue)
    (hfresh : w.SendsFresh s inLen inImmediateSend)
    (hcall : DokeviNet.send accepted w.pools (w.sockets s) inData inLen
      inImmediateSend = some call)
    {t : ι} (hts : t ≠ s) {p : P} (hp : p ∈ queue t) :
    packet call.pools p = packet w.pools p := by
  have hnew := hshape.fresh_not_mem hfresh hcall
  have hother : ∀ q ∈ queue s, p ≠ q := fun q hq heq =>
    hshape.disjoint t s hts hp (heq ▸ hq)
  have hmemLast : ∀ last, (w.sockets s).lastPacket = some last →
      last ∈ queue s := fun last hlast => (hshape.queues s).last_mem hlast
  cases send_effect hcall with
  | append hlast _ hpackets _ _ _ _ =>
      rw [hpackets p, if_neg (hother _ (hmemLast _ hlast))]
  | @first new _ _ _ _ hpackets _ _ hallocated _ =>
      have hne : p ≠ new := by
        rintro rfl
        exact (hnew p hallocated).2 t hp
      rw [hpackets p, if_neg hne]
  | @link new _ last _ _ _ _ hlast hpackets _ _ hallocated _ =>
      have hne : p ≠ new := by
        rintro rfl
        exact (hnew p hallocated).2 t hp
      have hnewLast : new ≠ last := by
        rintro rfl
        exact (hnew new hallocated).2 s (hmemLast new hlast)
      rw [hpackets hnewLast p, if_neg (hother last (hmemLast last hlast)),
        if_neg hne]

/-- An `OnWriteCallback` on one socket leaves the packets of every other queue
alone. -/
theorem callback_frame {sock : SendSide P} {call : CallbackCall H P}
    (hshape : Shape w queue) (hsock : QueueShape w.pools sock (queue s))
    (hcall : DokeviNet.onWriteCallback accepted w.pools sock = some call)
    {t : ι} (hts : t ≠ s) {p : P} (hp : p ∈ queue t) :
    packet call.pools p = packet w.pools p := by
  have hother : ∀ q ∈ queue s, p ≠ q := fun q hq heq =>
    hshape.disjoint t s hts hp (heq ▸ hq)
  cases onWriteCallback_effect hcall with
  | advance htemp hnext hpackets _ _ _ _ _ =>
      obtain ⟨rest, heq⟩ := hsock.eq_cons htemp
      have hrest := (heq ▸ hsock.linked).2
      have hnextMem := List.mem_of_mem_head? (hrest.head_eq.symm.trans hnext)
      rw [hpackets p (hother _ (by simp [heq])),
        if_neg (hother _ (by simp [heq, hnextMem]))]
  | drain htemp _ hpackets _ _ _ =>
      obtain ⟨rest, heq⟩ := hsock.eq_cons htemp
      exact hpackets p (hother _ (by simp [heq]))

variable [DecidableEq ι]

theorem send {inData : Region UInt8} {inLen : UInt32} {inImmediateSend : Bool}
    {call : SendCall H P} (hshape : Shape w queue)
    (hfresh : w.SendsFresh s inLen inImmediateSend)
    (hcall : DokeviNet.send accepted w.pools (w.sockets s) inData inLen
      inImmediateSend = some call) :
    Shape
      { pools := call.pools
        sockets := Function.update w.sockets s call.socket
        live := w.live ++ call.allocated.toList }
      (Function.update queue s (queue s ++ call.allocated.toList)) := by
  have hnew := hshape.fresh_not_mem hfresh hcall
  constructor
  · intro t
    by_cases hts : t = s
    · subst hts
      simpa using (hshape.queues t).send (send_effect hcall)
        fun p hp => (hnew p hp).2 t
    · simp only [Function.update_of_ne hts]
      refine (hshape.queues t).congr rfl rfl ?_ ?_ <;> intro p hp <;>
        rw [hshape.send_frame hfresh hcall hts hp]
  · intro t u htu
    have hextra : ∀ v, v ≠ s →
        List.Disjoint (queue s ++ call.allocated.toList) (queue v) := by
      intro v hvs p hp hpv
      rcases List.mem_append.mp hp with hp | hp
      · exact hshape.disjoint s v (Ne.symm hvs) hp hpv
      · exact (hnew p (by simpa using hp)).2 v hpv
    by_cases hts : t = s
    · subst hts
      simpa [Function.update_of_ne (Ne.symm htu)] using
        hextra u (Ne.symm htu)
    · by_cases hus : u = s
      · subst hus
        simpa [Function.update_of_ne hts] using List.disjoint_symm (hextra t hts)
      · simpa [Function.update_of_ne hts, Function.update_of_ne hus] using
          hshape.disjoint t u htu
  · intro t p hp
    by_cases hts : t = s
    · subst hts
      simp only [Function.update_self, List.mem_append] at hp ⊢
      exact hp.imp_left (hshape.live t p)
    · simp only [Function.update_of_ne hts] at hp
      simp [hshape.live t p hp]

/-- `sock` is the socket as the completion finds it; it may differ from
`w.sockets s` in what the system holds for it. -/
theorem callback {sock : SendSide P} {call : CallbackCall H P}
    (hshape : Shape w queue) (hsock : QueueShape w.pools sock (queue s))
    (hcall : DokeviNet.onWriteCallback accepted w.pools sock = some call) :
    Shape
      { pools := call.pools
        sockets := Function.update w.sockets s call.socket
        live := w.live.erase call.freed }
      (Function.update queue s (queue s).tail) := by
  obtain ⟨heq, htail⟩ := hsock.callback (onWriteCallback_effect hcall)
  have hsub : ∀ p ∈ (queue s).tail, p ∈ queue s := fun p hp =>
    List.mem_of_mem_tail hp
  have hfreed : call.freed ∈ queue s := by
    rw [heq]
    simp
  constructor
  · intro t
    by_cases hts : t = s
    · subst hts
      simpa using htail
    · simp only [Function.update_of_ne hts]
      refine (hshape.queues t).congr rfl rfl ?_ ?_ <;> intro p hp <;>
        rw [hshape.callback_frame hsock hcall hts hp]
  · intro t u htu
    by_cases hts : t = s
    · subst hts
      simp only [Function.update_self, Function.update_of_ne (Ne.symm htu)]
      exact fun p hp hpu => hshape.disjoint t u htu (hsub p hp) hpu
    · by_cases hus : u = s
      · subst hus
        simp only [Function.update_self, Function.update_of_ne hts]
        exact fun p hp hpu => hshape.disjoint t u htu hp (hsub p hpu)
      · simpa [Function.update_of_ne hts, Function.update_of_ne hus] using
          hshape.disjoint t u htu
  · intro t p hp
    have hne : p ≠ call.freed ∧ p ∈ w.live := by
      by_cases hts : t = s
      · subst hts
        simp only [Function.update_self] at hp
        refine ⟨?_, hshape.live t p (hsub p hp)⟩
        rintro rfl
        have hnodup := hsock.nodup
        rw [heq] at hnodup
        exact (List.nodup_cons.mp hnodup).1 hp
      · simp only [Function.update_of_ne hts] at hp
        refine ⟨?_, hshape.live t p hp⟩
        rintro rfl
        exact hshape.disjoint t s hts hp hfreed
    exact (List.mem_erase_of_ne hne.1).mpr hne.2

/-! ## Properties of the queued packets -/

variable (φ : P → PacketInterface P → Prop)

/-- A property of packets that ignores links and marks survives a `Send` if
it survives appending to the last packet and holds of a packet just filled. -/
theorem forall_send {inData : Region UInt8} {inLen : UInt32}
    {inImmediateSend : Bool} {call : SendCall H P}
    (hmark : ∀ p v, φ p v → φ p v.markSending)
    (hlink : ∀ p v q, φ p v → φ p (v.linkTo q)) (hshape : Shape w queue)
    (hfresh : w.SendsFresh s inLen inImmediateSend)
    (hcall : DokeviNet.send accepted w.pools (w.sockets s) inData inLen
      inImmediateSend = some call)
    (hold : ∀ t, ∀ p ∈ queue t, φ p (packet w.pools p))
    (happend : ∀ last ∈ queue s,
      totalPacketSize inLen ≤ (packet w.pools last).remainSize →
      φ last ((packet w.pools last).append inData inLen))
    (hnew : ∀ p ∈ call.allocated,
      φ p (freshPacket w.pools p inData inLen inImmediateSend)) (t : ι) :
    ∀ p ∈ Function.update queue s (queue s ++ call.allocated.toList) t,
      φ p (packet call.pools p) := by
  intro p hp
  by_cases hts : t = s
  · subst hts
    rw [Function.update_self, List.mem_append] at hp
    have hnotin := hshape.fresh_not_mem hfresh hcall
    cases send_effect hcall with
    | @append last hlast hcoalesces hpackets _ _ hallocated _ =>
        have hp : p ∈ queue t := by simpa [hallocated] using hp
        obtain ⟨-, -, hroom, -⟩ :=
          (coalesces_iff_of_last hlast).mp hcoalesces
        rw [hpackets p]
        split
        · next heq =>
          subst heq
          exact happend p hp hroom
        · exact hold t p hp
    | @first new _ _ _ hempty hpackets _ _ hallocated _ =>
        have hnil := (hshape.queues t).eq_nil hempty
        obtain rfl : p = new := by simpa [hnil, hallocated] using hp
        rw [hpackets p, if_pos rfl]
        exact hmark _ _ (hnew p (by simp [hallocated]))
    | @link new _ last _ _ _ _ hlast hpackets _ _ hallocated _ =>
        have hlastMem := (hshape.queues t).last_mem hlast
        have hne : new ≠ last := by
          rintro rfl
          exact (hnotin new (by simp [hallocated])).2 t hlastMem
        rw [hpackets hne p]
        split
        · next heq =>
          subst heq
          exact hlink _ _ _ (hold t p hlastMem)
        · next hpLast =>
          split
          · next heq =>
            subst heq
            exact hnew p (by simp [hallocated])
          · next hpNew =>
            rcases hp with hp | hp
            · exact hold t p hp
            · exact absurd (by simpa [hallocated] using hp) hpNew
  · rw [Function.update_of_ne hts] at hp
    rw [hshape.send_frame hfresh hcall hts hp]
    exact hold t p hp

/-- Such a property survives every `OnWriteCallback`. -/
theorem forall_callback {sock : SendSide P} {call : CallbackCall H P}
    (hmark : ∀ p v, φ p v → φ p v.markSending) (hshape : Shape w queue)
    (hsock : QueueShape w.pools sock (queue s))
    (hcall : DokeviNet.onWriteCallback accepted w.pools sock = some call)
    (hold : ∀ t, ∀ p ∈ queue t, φ p (packet w.pools p)) (t : ι) :
    ∀ p ∈ Function.update queue s (queue s).tail t,
      φ p (packet call.pools p) := by
  intro p hp
  by_cases hts : t = s
  · subst hts
    rw [Function.update_self] at hp
    have hmem := hold t p (List.mem_of_mem_tail hp)
    rcases hsock.callback_packet (onWriteCallback_effect hcall) hp with
      hsame | hmarked
    · exact hsame ▸ hmem
    · exact hmarked ▸ hmark _ _ hmem
  · rw [Function.update_of_ne hts] at hp
    rw [hshape.callback_frame hsock hcall hts hp]
    exact hold t p hp

end Shape

end

end DokeviNet
