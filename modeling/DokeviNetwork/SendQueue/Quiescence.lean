import DokeviNetwork.SendQueue.Interleaved
import DokeviNetwork.Support.Simulation

/-!
# What was sent gets on the wire

Once no more calls of `Send` begin on a socket, only so many steps are left on it:
those of the calls that are running, and for each packet that is left the two of
its write and those of its `OnWriteCallback`.  As long as one is left some thread
or the system can take it, so in the end every frame is on the wire.
-/

namespace DokeviNet

open PacketPools LabelledRun Workers

/-! ## How much is left -/

/-- The steps of a section that a writer has left in the lock. -/
def SyncThread.work (thread : SyncThread) : ℕ :=
  match thread.pc with
  | .wantMutex _ => 5
  | .setOwner _ => 4
  | .idle => if thread.sections = [] then 0 else 3
  | .unlock _ => 2
  | .clearOwner => 1
  | .wantDepth _ | .decrement _ => 0

/-- How much a phase has left after its next step. -/
theorem SectionPhase.work_next {phase : SectionPhase} (haway : phase ≠ .away) :
    (phase.next.thread .write).work + 1 = (phase.thread .write).work := by
  cases phase with
  | away => exact absurd rfl haway
  | entering | granted | inside | unlocking | leaving => rfl

namespace SendStmt

variable {P : Type*}

/-- At most so many steps follow from a statement: those of the statements it
leads to, the two of a write, and for a packet those of its `OnWriteCallback`. -/
def work : SendStmt P → ℕ
  | .testLast _ _ _ => 28
  | .alloc _ _ _ => 27
  | .takeSending => 8
  | .testSending _ => 7
  | .testNext => 6
  | .serverSend => 3
  | .storeSize _ _ _ _ => 2
  | .store _ _ | .setSending _ | .setLast _ | .setLastToSending
  | .advanceSending | .free _ => 1

/-- The work of what is left of a call. -/
def codeWork (code : Option (List (SendStmt P))) : ℕ :=
  code.elim 0 fun code => (code.map work).sum

end SendStmt

/-- The steps of the outstanding writes. -/
def SendSide.writesLeft {P : Type*} (s : SendSide P) : ℕ :=
  (s.posted.map fun post => if post.transmitted.isSome then 1 else 2).sum

theorem SendStmt.work_exec {H P : Type*} [PacketPools H P] [DecidableEq P]
    {m m' : SendMemory H P} {a : SendStmt P} {pushed : List (SendStmt P)}
    (hexec : a.exec true m = some (m', pushed)) :
    (pushed.map work).sum + m'.socket.writesLeft + 14 * a.isAlloc.toNat + 1 ≤
      a.work + m.socket.writesLeft := by
  have hle : (pushed.map work).sum + 14 * a.isAlloc.toNat + 1 ≤ a.work →
      m'.socket.writesLeft = m.socket.writesLeft →
      (pushed.map work).sum + m'.socket.writesLeft + 14 * a.isAlloc.toNat +
        1 ≤ a.work + m.socket.writesLeft := by omega
  cases a with
  | testLast | testSending =>
      obtain ⟨rfl, rfl⟩ := Prod.mk.inj (Option.some.inj hexec)
      refine hle ?_ rfl
      split <;> exact Nat.le_of_ble_eq_true rfl
  | setSending | setLast | setLastToSending | free =>
      obtain ⟨rfl, rfl⟩ := Prod.mk.inj (Option.some.inj hexec)
      exact hle (Nat.le_refl 1) rfl
  | testNext =>
      obtain ⟨p, -, heq⟩ := Option.map_eq_some_iff.mp hexec
      obtain ⟨rfl, rfl⟩ := Prod.mk.inj heq
      refine hle ?_ rfl
      split <;> exact Nat.le_of_ble_eq_true rfl
  | serverSend =>
      obtain ⟨p, -, heq⟩ := Option.map_eq_some_iff.mp hexec
      obtain ⟨rfl, rfl⟩ := Prod.mk.inj heq
      have hwrites : (DokeviNet.serverSend true m.pools m.socket p).writesLeft =
          m.socket.writesLeft + 2 := by
        simp [DokeviNet.serverSend, SendSide.writesLeft]
      change 0 + (DokeviNet.serverSend true m.pools m.socket p).writesLeft +
        14 * 0 + 1 ≤ 3 + m.socket.writesLeft
      omega
  | storeSize | store | alloc | takeSending | advanceSending =>
      obtain ⟨p, -, heq⟩ := Option.map_eq_some_iff.mp hexec
      obtain ⟨rfl, rfl⟩ := Prod.mk.inj heq
      exact hle (Nat.le_of_ble_eq_true rfl) rfl

/-- What the calls on a socket have left. -/
def callsWork {P τ : Type*} [Fintype τ] (lock : SyncThreads τ)
    (codes : τ → Option (List (SendStmt P))) : ℕ :=
  ∑ t, ((lock.threads t).work + SendStmt.codeWork (codes t))

theorem callsWork_update {P τ : Type*} [Fintype τ] [DecidableEq τ]
    {lock lock' : SyncThreads τ} {t : τ} {thread : SyncThread}
    (hthreads : lock'.threads = Function.update lock.threads t thread)
    (codes : τ → Option (List (SendStmt P)))
    (code : Option (List (SendStmt P))) :
    callsWork lock' (Function.update codes t code) +
        ((lock.threads t).work + SendStmt.codeWork (codes t)) =
      callsWork lock codes + (thread.work + SendStmt.codeWork code) := by
  have hsum := sum_update Finset.univ
    (fun x : SyncThread × Option (List (SendStmt P)) =>
      x.1.work + SendStmt.codeWork x.2)
    (fun t => (lock.threads t, codes t)) (Finset.mem_univ t) (thread, code)
  rw [callsWork, callsWork, ← hsum]
  congr 1
  apply Finset.sum_congr rfl
  intro u _
  by_cases hu : u = t
  · rw [hthreads, hu, Function.update_self, Function.update_self,
      Function.update_self]
  · rw [hthreads, Function.update_of_ne hu, Function.update_of_ne hu,
      Function.update_of_ne hu]

namespace SendThreads

variable {H P ι τ : Type*} [DecidableEq ι] [Fintype τ]

/-- What the calls and the writes of a socket have left. -/
def work (w : SendThreads H P ι τ) (s : ι) : ℕ :=
  callsWork (w.locks s) (fun t => w.codeOn t s) + (w.sockets s).writesLeft

/-- At most `m` steps are left on socket `s`: the packets for which no
`OnWriteCallback` has begun need one, of 14 steps. -/
def Left (w : SendThreads H P ι τ) (owned : ι → List P)
    (body : ι → List (SendStmt P)) (s : ι) (m : ℕ) : Prop :=
  ∃ k, (owned s).length =
      k + w.handling s + (SendStmt.onlyFrees (body s)).toNat ∧
    w.work s + 14 * k = m

/-- The event is a step on socket `s`. -/
def concerns (w : SendThreads H P ι τ) (s : ι) : ThreadEvent ι τ → Bool
  | .send _ r _ _ _ | .callback _ r | .transmit r | .ends r => r = s
  | .advance t => (w.codeOn t s).isSome

/-- The step, if it is one on socket `s`. -/
def stepOn (s : ι) (w : SendThreads H P ι τ) (e : ThreadEvent ι τ) :
    Option (ThreadEvent ι τ) :=
  if w.concerns s e then some e else none

end SendThreads

/-- The event is no `Send` on socket `s`. -/
def ThreadEvent.Spares {ι τ : Type*} (s : ι) : ThreadEvent ι τ → Prop
  | .send _ r _ _ _ => r ≠ s
  | .callback _ _ | .advance _ | .transmit _ | .ends _ => True

instance {ι τ : Type*} [DecidableEq ι] (s : ι) :
    ∀ e : ThreadEvent ι τ, Decidable (e.Spares s)
  | .send _ r _ _ _ => inferInstanceAs (Decidable (r ≠ s))
  | .callback _ _ | .advance _ | .transmit _ | .ends _ => isTrue trivial

namespace SendThreads

variable {H P ι τ : Type*} [DecidableEq ι] [Fintype τ] [PacketPools H P]
  [DecidableEq P]

section

variable {w w' : SendThreads H P ι τ} {phase : ι → τ → SectionPhase}
  {owned owned' : ι → List P} {body body' : ι → List (SendStmt P)} {r s : ι}
  {m : ℕ}

omit [PacketPools H P] [DecidableEq P] in
/-- Elsewhere nothing is used up. -/
theorem Left.elsewhere (h : Left w owned body r m)
    (helsewhere : Elsewhere w w' s) (hr : r ≠ s) (howned : owned' r = owned r)
    (hbody : SendStmt.onlyFrees (body' r) = SendStmt.onlyFrees (body r)) :
    Left w' owned' body' r m := by
  obtain ⟨k, hlength, rfl⟩ := h
  refine ⟨k, ?_, ?_⟩
  · rw [howned, helsewhere.handling r hr, hbody, hlength]
  · simp only [work, helsewhere.lock r hr, helsewhere.codes r hr,
      helsewhere.socket r hr]

omit [Fintype τ] [PacketPools H P] [DecidableEq P] in
theorem stepOn_le (e : ThreadEvent ι τ) :
    (stepOn r w e).toList.length ≤ 1 := by
  unfold stepOn
  split <;> simp

variable [DecidableEq τ] {t : τ} {before : Option (List (SendStmt P))}

omit [PacketPools H P] [DecidableEq P] in
/-- What a step of thread `t` uses up. -/
theorem work_after {lock : SyncThreads τ} {thread : SyncThread}
    (hbefore : w.calls t = before.map fun code => (s, code))
    (hthreads : lock.threads =
      Function.update (w.locks s).threads t thread)
    (x : SendMemory H P) (next : Option (List (SendStmt P))) (c : ℕ)
    (taken : List (τ × Frame)) :
    (w.after t s x lock next c taken).work s +
        (((w.locks s).threads t).work + SendStmt.codeWork before) +
          (w.sockets s).writesLeft =
      w.work s + (thread.work + SendStmt.codeWork next) +
        x.socket.writesLeft := by
  have hcalls : (w.after t s x lock next c taken).calls =
      Function.update w.calls t (next.map fun code => (s, code)) := rfl
  have hupdate := callsWork_update hthreads (fun u => w.codeOn u s) next
  rw [← codeOn_update hcalls, codeOn_of_map hbefore] at hupdate
  have hlock : (w.after t s x lock next c taken).locks s = lock :=
    Function.update_self _ _ _
  have hsocket : (w.after t s x lock next c taken).sockets s = x.socket :=
    Function.update_self _ _ _
  rw [work, work, hlock, hsocket]
  omega

/-- The `OnWriteCallback` of a packet begins. -/
theorem Sections.left_callback (h : Sections w phase owned body)
    {lock : SyncThreads τ} {c : ℕ} (hcall : w.calls t = none)
    (hlock : (w.locks s).step (.enter t .write) = some lock)
    (hcompleted : w.completed s = c + 1) (hleft : Left w owned body s m) :
    ∃ m', Left (w.after t s (w.memory s) lock (some SendStmt.ofCallback) c
      (w.taken s)) owned body s m' ∧ m' + 1 ≤ m := by
  obtain ⟨k, hlength, rfl⟩ := hleft
  have hs := h.socket s
  have hbefore : w.calls t =
      (none : Option (List (SendStmt P))).map fun code => (s, code) := hcall
  have haway := hs.away (codeOn_of_map hbefore)
  have hthreads := (hs.lock.of_step (hs.plain_enter haway) hlock).2.1
  change lock.threads =
    Function.update _ t ((phase s t).next.thread .write) at hthreads
  rw [haway] at hthreads
  have hwork := work_after hbefore hthreads (w.memory s)
    (some SendStmt.ofCallback) c (w.taken s)
  have hcalls : (w.after t s (w.memory s) lock (some SendStmt.ofCallback) c
      (w.taken s)).calls = Function.update w.calls t
        ((some SendStmt.ofCallback).map fun code => (s, code)) := rfl
  have hhandling := handling_update hbefore hcalls
  have hcount := hs.stage.count
  have hbefore' : ((w.locks s).threads t).work = 0 := by
    rw [hs.lock.threads, haway]
    rfl
  generalize w.after t s (w.memory s) lock (some SendStmt.ofCallback) c
    (w.taken s) = w' at hwork hhandling ⊢
  have hafter : w'.work s = w.work s + 13 := by
    rw [hbefore'] at hwork
    exact Nat.add_right_cancel hwork
  have hone : w'.handling s = w.handling s + 1 := hhandling
  rw [tokens] at hcount
  refine ⟨w'.work s + 14 * (k - 1), ⟨k - 1, ?_, rfl⟩, ?_⟩
  · omega
  · omega

/-- A step of the lock. -/
theorem Sections.left_lockStep (h : Sections w phase owned body)
    {code : List (SendStmt P)} {l : SyncStep τ} {lock : SyncThreads τ}
    (hcall : w.calls t = some (s, code))
    (hl : l = .advance t ∨ l = .leave t ∧ code = [])
    (hlock : (w.locks s).step l = some lock) (hleft : Left w owned body s m)
    (hbody : SendStmt.onlyFrees (body' s) = SendStmt.onlyFrees (body s)) :
    ∃ m', Left (w.after t s (w.memory s) lock
      (if lock.threads t = {} then none else some code) (w.completed s)
      (w.taken s)) owned body' s m' ∧ m' + 1 ≤ m := by
  obtain ⟨k, hlength, rfl⟩ := hleft
  have hs := h.socket s
  have hbefore : w.calls t = (some code).map fun code => (s, code) := hcall
  have hplain : (w.locks s).Plain l := by
    rcases hl with rfl | ⟨rfl, -⟩ <;> trivial
  have hthread : l.thread = t := by
    rcases hl with rfl | ⟨rfl, -⟩ <;> rfl
  obtain ⟨hlabel, hthreads, -⟩ := hs.lock.of_step hplain hlock
  rw [hthread] at hlabel hthreads
  have haway : phase s t ≠ .away := by
    intro haway
    rw [haway] at hlabel
    rcases hl with rfl | ⟨rfl, -⟩ <;> cases hlabel
  have hnext := SectionPhase.work_next haway
  rw [← hs.lock.threads] at hnext
  have hdone := (h.lockStep hcall hl hlock).1
  generalize hcode : (if lock.threads t = {} then none else some code) = next
  have hsame : SendStmt.codeWork next = SendStmt.codeWork (some code) ∧
      (next.any SendStmt.completing) = SendStmt.completing code := by
    by_cases hthread : lock.threads t = {}
    · rw [← hcode, if_pos hthread, hdone hthread]
      exact ⟨rfl, rfl⟩
    · rw [← hcode, if_neg hthread]
      exact ⟨rfl, rfl⟩
  have hwork := work_after hbefore hthreads (w.memory s) next (w.completed s)
    (w.taken s)
  have hcalls : (w.after t s (w.memory s) lock next (w.completed s)
      (w.taken s)).calls = Function.update w.calls t
        (next.map fun code => (s, code)) := rfl
  have hhandling := handling_update hbefore hcalls
  generalize w.after t s (w.memory s) lock next (w.completed s) (w.taken s) =
    w' at hwork hhandling ⊢
  rw [hsame.1] at hwork
  rw [hsame.2] at hhandling
  have hafter : w'.work s + 1 = w.work s := by
    change _ + (w.sockets s).writesLeft = _ + (w.sockets s).writesLeft at hwork
    omega
  have hone : w'.handling s = w.handling s := Nat.add_right_cancel hhandling
  refine ⟨w'.work s + 14 * k, ⟨k, ?_, rfl⟩, ?_⟩
  · rw [hone, hbody, hlength]
  · omega

/-- A statement of a body. -/
theorem Left.exec (hleft : Left w owned body s m) {a : SendStmt P}
    {rest pushed : List (SendStmt P)} {x : SendMemory H P} {packets : List P}
    {taken : List (τ × Frame)}
    (hcall : w.calls t = some (s, a :: rest)) (hbody : body s = a :: rest)
    (hexec : a.exec true (w.memory s) = some (x, pushed))
    (hbalances : SendStage.Balances (owned s) packets a rest
      (pushed ++ rest)) :
    ∃ m', Left (w.after t s x (w.locks s) (some (pushed ++ rest))
      (w.completed s) taken) (Function.update owned s packets)
      (Function.update body s (pushed ++ rest)) s m' ∧ m' + 1 ≤ m := by
  obtain ⟨k, hlength, rfl⟩ := hleft
  have hbefore : w.calls t = (some (a :: rest)).map fun code => (s, code) :=
    hcall
  have hthreads : (w.locks s).threads = Function.update (w.locks s).threads t
      ((w.locks s).threads t) := (Function.update_eq_self _ _).symm
  have hwork := work_after hbefore hthreads x (some (pushed ++ rest))
    (w.completed s) taken
  have hcalls : (w.after t s x (w.locks s) (some (pushed ++ rest))
      (w.completed s) taken).calls = Function.update w.calls t
        ((some (pushed ++ rest)).map fun code => (s, code)) := rfl
  have hhandling := handling_update hbefore hcalls
  have hexec' := SendStmt.work_exec hexec
  have hcount := hbalances.count
  have hcodes : SendStmt.codeWork (some (pushed ++ rest)) + a.work =
      (pushed.map SendStmt.work).sum +
        SendStmt.codeWork (some (a :: rest)) := by
    simp only [SendStmt.codeWork, Option.elim_some, List.map_append,
      List.sum_append, List.map_cons, List.sum_cons]
    omega
  generalize w.after t s x (w.locks s) (some (pushed ++ rest)) (w.completed s)
    taken = w' at hwork hhandling ⊢
  rw [Option.any_some, Option.any_some] at hhandling
  rw [hbody] at hlength
  refine ⟨w'.work s + 14 * (k + a.isAlloc.toNat),
    ⟨k + a.isAlloc.toNat, ?_, rfl⟩, ?_⟩
  · rw [Function.update_self, Function.update_self]
    omega
  · change _ + x.socket.writesLeft + _ + 1 ≤ _ + (w.sockets s).writesLeft
      at hexec'
    omega

omit [DecidableEq τ] [PacketPools H P] [DecidableEq P] in
/-- The system goes on with a write. -/
theorem Left.withWrites (h : Left w owned body s m)
    {posted : List (WsaSend P)} {wire : List UInt8}
    (hwrites : { w.sockets s with
      posted := posted, wire := wire }.writesLeft + 1 =
        (w.sockets s).writesLeft) (c : ℕ) :
    ∃ m', Left (w.withWrites s posted wire c) owned body s m' ∧
      m' + 1 ≤ m := by
  obtain ⟨k, hlength, rfl⟩ := h
  have hsocket : (w.withWrites s posted wire c).sockets s =
      { w.sockets s with posted := posted, wire := wire } :=
    Function.update_self _ _ _
  have hwork : (w.withWrites s posted wire c).work s + 1 = w.work s := by
    rw [work, work, hsocket, Nat.add_assoc, hwrites]
    rfl
  exact ⟨_, ⟨k, hlength, rfl⟩, by omega⟩

omit [DecidableEq τ] [PacketPools H P] [DecidableEq P] in
/-- A step on socket `s` uses up one there and nothing elsewhere. -/
theorem Left.step (h : Left w owned body r m) (helsewhere : Elsewhere w w' s)
    {e : ThreadEvent ι τ} (hconcerns : r ≠ s → w.concerns r e = false)
    (howned : r ≠ s → owned' r = owned r)
    (hbody : r ≠ s →
      SendStmt.onlyFrees (body' r) = SendStmt.onlyFrees (body r))
    (hon : r = s → ∃ m', Left w' owned' body' r m' ∧ m' + 1 ≤ m) :
    ∃ m', Left w' owned' body' r m' ∧
      m' + (stepOn r w e).toList.length ≤ m := by
  by_cases hr : r = s
  · obtain ⟨m', hleft, hle⟩ := hon hr
    exact ⟨m', hleft, (Nat.add_le_add_left (stepOn_le e) m').trans hle⟩
  · refine ⟨m, h.elsewhere helsewhere hr (howned hr) (hbody hr), ?_⟩
    rw [stepOn, hconcerns hr]
    exact Nat.le_refl m

/-- Every step on the socket uses up at least one. -/
theorem Sections.left_step [LawfulPacketPools H P] {e : ThreadEvent ι τ}
    (h : Sections w phase owned body) (hsuits : w.Suits e)
    (hstep : Stepped w e w') (hspares : e.Spares r)
    (hleft : Left w owned body r m) :
    ∃ phase' owned' body', Sections w' phase' owned' body' ∧
      ∃ m', Left w' owned' body' r m' ∧
        m' + (stepOn r w e).toList.length ≤ m := by
  cases hstep with
  | @send t s inData inLen inImmediateSend lock hcall hlock =>
      obtain ⟨phase', h'⟩ := h.begins hcall
        (SendStmt.Begins.send inData inLen inImmediateSend) hlock rfl
      refine ⟨phase', owned, body, h', hleft.step (elsewhere_after
        none hcall _ _ _ _ _) ?_ (fun _ => rfl) (fun _ => rfl) ?_⟩
      · exact fun hr => decide_eq_false hr.symm
      · exact fun hr => absurd hr.symm hspares
  | @callback t s lock c hcall hlock hcompleted =>
      obtain ⟨phase', h'⟩ :=
        h.begins hcall SendStmt.Begins.callback hlock hcompleted.symm
      refine ⟨phase', owned, body, h', hleft.step (elsewhere_after
        none hcall _ _ _ _ _) ?_ (fun _ => rfl) (fun _ => rfl) ?_⟩
      · exact fun hr => decide_eq_false hr.symm
      · rintro rfl
        exact h.left_callback hcall hlock hcompleted hleft
  | @lock t s code l lock hcall hl hlock =>
      obtain ⟨-, phase', body', h', hbody⟩ := h.lockStep hcall hl hlock
      refine ⟨phase', owned, body', h', hleft.step (elsewhere_after
        (some code) hcall _ _ _ _ _) ?_ (fun _ => rfl)
        (fun _ => hbody r) ?_⟩
      · intro hr
        rw [concerns, codeOn_of_map_of_ne hr (some code) hcall]
        rfl
      · rintro rfl
        exact h.left_lockStep hcall hl hlock hleft (hbody r)
  | @body t s a rest pushed x hcall hpc hexec =>
      have hin : w.inBody t = true := by simp [inBody, hcall, hpc]
      obtain ⟨hbody, packets, hbalances, h'⟩ :=
        h.exec hcall hpc (hsuits hin _ hcall a rfl) hexec
      refine ⟨_, _, _, h', hleft.step (elsewhere_after
        (some (a :: rest)) hcall _ _ _ _ _) ?_
        (fun hr => Function.update_of_ne hr _ _)
        (fun hr => congrArg _ (Function.update_of_ne hr _ _)) ?_⟩
      · intro hr
        rw [concerns, codeOn_of_map_of_ne hr (some (a :: rest)) hcall]
        rfl
      · rintro rfl
        exact hleft.exec hcall hbody hexec hbalances
  | @transmit s post posts hposted hnone =>
      have h' := h.withWrites ((h.socket s).stage.transmit hposted)
      refine ⟨phase, owned, body, h', hleft.step (elsewhere_withWrites _ _ _)
        ?_ (fun _ => rfl) (fun _ => rfl) ?_⟩
      · exact fun hr => decide_eq_false hr.symm
      · rintro rfl
        refine hleft.withWrites ?_ _
        simp only [SendSide.writesLeft, hposted, hnone, List.map_cons,
          List.sum_cons, Option.isSome_some, Option.isSome_none, if_true,
          Bool.false_eq_true, if_false]
        omega
  | @ends s post posts bytes hposted hbytes =>
      have hended := (h.socket s).stage.ends hposted hbytes
      rw [tokens, Nat.add_right_comm] at hended
      refine ⟨phase, owned, body, h.withWrites hended, hleft.step
        (elsewhere_withWrites _ _ _) ?_ (fun _ => rfl) (fun _ => rfl) ?_⟩
      · exact fun hr => decide_eq_false hr.symm
      · rintro rfl
        refine hleft.withWrites ?_ _
        simp only [SendSide.writesLeft, hposted, hbytes, List.map_cons,
          List.sum_cons, Option.isSome_some, if_true]
        omega

end

/-! ## When nothing is left -/

section

variable [DecidableEq τ] {w w' : SendThreads H P ι τ}
  {phase : ι → τ → SectionPhase} {owned : ι → List P}
  {body : ι → List (SendStmt P)} {s : ι}

omit [Fintype τ] in
/-- No step is possible on socket `s` but the start of a `Send`. -/
def Stuck (w : SendThreads H P ι τ) (s : ι) : Prop :=
  ∀ e : ThreadEvent ι τ, e.Spares s → w.concerns s e = true → w.step e = none

omit [Fintype τ] [DecidableEq ι] [DecidableEq τ] in
/-- No call on socket `s` asks `AllocPacket` for a packet that it does not
have. -/
def Supplied (w : SendThreads H P ι τ) (s : ι) : Prop :=
  ∀ t code inData inLen inImmediateSend, w.calls t = some (s, code) →
    code.head? = some (.alloc inData inLen inImmediateSend) →
    allocPacket w.pools inLen ≠ none

/-- All that was sent on socket `s` is on the wire. -/
structure AllSent (es : List (ThreadEvent ι τ)) (w : SendThreads H P ι τ)
    (s : ι) : Prop where
  calls : ∀ t code, w.calls t ≠ some (s, code)
  sendingPacket : (w.sockets s).sendingPacket = none
  posted : (w.sockets s).posted = []
  /-- Each thread's frames are in, in the order of its calls. -/
  order : ∀ t, w.takenBy t s = es.filterMap (sentBy t s)
  wire : (w.sockets s).wire =
    ((w.taken s).map Prod.snd).flatMap Frame.bytes

omit [Fintype τ] in
/-- With no call, no write and no completion nothing is possible. -/
theorem stuck_of_idle (hidle : ∀ t, w.calls t = none)
    (hcompleted : w.completed s = 0) (hposted : (w.sockets s).posted = []) :
    w.Stuck s := by
  intro e hspares hconcerns
  cases e with
  | send => exact absurd (of_decide_eq_true hconcerns) hspares
  | callback =>
      obtain rfl := of_decide_eq_true hconcerns
      rw [step, hcompleted]
      rfl
  | advance t =>
      rw [step, hidle]
      rfl
  | transmit | ends =>
      obtain rfl := of_decide_eq_true hconcerns
      rw [step, hposted]

variable [LawfulPacketPools H P]

theorem Stuck.no_call (hstuck : w.Stuck s) (h : Sections w phase owned body)
    (hsupplied : w.Supplied s) (t : τ) (code : List (SendStmt P)) :
    w.calls t ≠ some (s, code) := by
  have hconcerns : ∀ {t code}, w.calls t = some (s, code) →
      w.step (.advance t) = none := by
    intro t code hcall
    apply hstuck (.advance t) trivial
    rw [concerns, codeOn_eq_some_iff.mpr hcall]
    rfl
  -- whoever has the mutex does not wait for it
  have hgoes : ∀ {t code}, w.calls t = some (s, code) →
      ((w.locks s).threads t).pc = .wantMutex .write := by
    intro t code hcall
    rcases h.goes hcall with hgo | ⟨hwant, -⟩ | ⟨_, _, _, hhead, hnone⟩
    · exact absurd (hconcerns hcall) hgo
    · exact hwant
    · exact absurd hnone (hsupplied t code _ _ _ hcall hhead)
  intro hcall
  rcases h.goes hcall with hgo | ⟨-, u, code', -, hcall', hmutex⟩ |
    ⟨_, _, _, hhead, hnone⟩
  · exact hgo (hconcerns hcall)
  · have hwant := hgoes hcall'
    generalize (w.locks s).threads u = thread at hmutex hwant
    cases hmutex <;> cases hwant
  · exact hsupplied t code _ _ _ hcall hhead hnone

omit [Fintype τ] [LawfulPacketPools H P] in
theorem Stuck.posted (hstuck : w.Stuck s) : (w.sockets s).posted = [] := by
  have htransmit := hstuck (.transmit s) trivial (decide_eq_true rfl)
  have hends := hstuck (.ends s) trivial (decide_eq_true rfl)
  cases hposted : (w.sockets s).posted with
  | nil => rfl
  | cons post posts =>
      cases hbytes : post.transmitted with
      | none => simp [step, hposted, hbytes] at htransmit
      | some bytes => simp [step, hposted, hbytes] at hends

omit [LawfulPacketPools H P] in
theorem Stuck.completed (hstuck : w.Stuck s) (h : Sections w phase owned body)
    {t : τ} (hidle : w.calls t = none) : w.completed s = 0 := by
  have hs := h.socket s
  have hcallback := hstuck (.callback t s) trivial (decide_eq_true rfl)
  have haway := hs.away (t := t) (by rw [codeOn, hidle]; rfl)
  have henter := hs.lock.step_next (t := t) (by simp [haway])
  rw [haway, SectionPhase.label] at henter
  by_contra hne
  simp [step, begins, hidle, henter, Nat.pos_of_ne_zero hne] at hcallback

theorem Stuck.allSent (hstuck : w.Stuck s) (h : Sections w phase owned body)
    {es : List (ThreadEvent ι τ)} (horder : InOrder es w)
    (hsupplied : w.Supplied s) (hidle : ∃ t, w.calls t = none) :
    w.AllSent es s := by
  have hcalls := hstuck.no_call h hsupplied
  have hs := h.socket s
  have hbody : body s = [] := by
    apply hs.outside
    intro t hinside
    exact hcalls t _ (codeOn_eq_some_iff.mp (hs.inside t hinside))
  have htokens : w.tokens s = 0 := by
    obtain ⟨t, hidle⟩ := hidle
    rw [tokens, hstuck.completed h hidle, handling, tasksOn_eq_zero hcalls]
    rfl
  have hstage := hs.stage
  rw [hbody, htokens] at hstage
  have hsettled := hstage.settled
  have hnone := hsettled.sendingPacket_eq_none hstuck.posted
  refine ⟨hcalls, hnone, hstuck.posted, fun t => ?_, hsettled.all hnone⟩
  have hpending : w.codeOn t s = none := by
    cases hcode : w.codeOn t s with
    | none => rfl
    | some code => exact absurd (codeOn_eq_some_iff.mp hcode) (hcalls t code)
  rw [← horder.order t s, hpending]
  exact (List.append_nil _).symm

omit [DecidableEq τ] [LawfulPacketPools H P] in
/-- At first the packets handed out bound what is left. -/
theorem Sections.exists_left (h : Sections w phase owned body) (s : ι) :
    ∃ m, Left w owned body s m ∧ m ≤ w.work s + 14 * w.live.length := by
  have hstage := (h.socket s).stage
  have hcount := hstage.count
  have hlive : (owned s).length ≤ w.live.length :=
    (hstage.nodup.subperm (h.live s)).length_le
  rw [tokens] at hcount
  refine ⟨_, ⟨(owned s).length - w.handling s -
    (SendStmt.onlyFrees (body s)).toNat, ?_, rfl⟩, ?_⟩
  · omega
  · omega

/-- Once no more `Send`s begin on a socket, only so many steps happen on it,
whatever the threads do and in whatever order; and when none is possible any
more, every frame is on the wire. -/
theorem allSent_of_run {pools : H} {es more : List (ThreadEvent ι τ)}
    (hsuits : Along SendThreads.step Suits (start pools) (es ++ more))
    (hrun : run SendThreads.step (start pools) es = some w)
    (hmore : run SendThreads.step w more = some w')
    (hspares : ∀ e ∈ more, e.Spares s) :
    (trace SendThreads.step (stepOn s) w more).length ≤
        w.work s + 14 * w.live.length ∧
      (w'.Stuck s → w'.Supplied s → (∃ t, w'.calls t = none) →
        w'.AllSent (es ++ more) s) := by
  obtain ⟨hsuits₁, hsuits₂⟩ := Along.append.mp hsuits
  obtain ⟨⟨phase, owned, body, h⟩, -⟩ := kept_of_run hsuits₁ hrun
  have hrun' : run SendThreads.step (start pools) (es ++ more) = some w' := by
    rw [run_append, hrun]
    exact hmore
  obtain ⟨⟨phase', owned', body', h'⟩, horder⟩ := kept_of_run hsuits hrun'
  refine ⟨?_, fun hstuck hsupplied hidle =>
    hstuck.allSent h' horder hsupplied hidle⟩
  have hkeep : ∀ (w : SendThreads H P ι τ) (e : ThreadEvent ι τ)
      (w' : SendThreads H P ι τ) (m : ℕ),
      (∃ phase owned body, Sections w phase owned body ∧
        Left w owned body s m) → (w.Suits e ∧ e.Spares s) →
      w.step e = some w' →
      ∃ m', (∃ phase owned body, Sections w' phase owned body ∧
        Left w' owned body s m') ∧ m' + (stepOn s w e).toList.length ≤ m := by
    rintro w e w' m ⟨phase, owned, body, h, hleft⟩ ⟨hsuits, hspares⟩ hstep
    obtain ⟨phase', owned', body', h', m', hleft', hle⟩ :=
      h.left_step hsuits (stepped_of_step hstep) hspares hleft
    exact ⟨m', ⟨phase', owned', body', h', hleft'⟩, hle⟩
  obtain ⟨m, hleft, hm⟩ := h.exists_left s
  obtain ⟨m', -, hle⟩ := exists_left_of_along hkeep ⟨_, _, _, h, hleft⟩
    ((hsuits₂ w hrun).and (along_of_forall fun e he _ => hspares e he)) hmore
  omega

end

/-- Two threads send; one of them has written while the other one waits for the
mutex. -/
def twoSend : List (ThreadEvent Unit Bool) :=
  [.send false () (Region.ofList 0 [1]) 1 false,
    .send true () (Region.ofList 0 [2]) 1 false] ++
    List.replicate 15 (.advance true)

/-- Both calls end, and then the two writes, each with its callback. -/
def twoCallbacks : List (ThreadEvent Unit Bool) :=
  List.replicate 2 (.advance true) ++ List.replicate 15 (.advance false) ++
    [.transmit (), .ends (), .callback false ()] ++
    List.replicate 11 (.advance false) ++
    [.transmit (), .ends (), .callback true ()] ++
    List.replicate 10 (.advance true)

theorem allSent_of_run_twoCallbacks :
    ∃ w w', run step (start PacketSelector.zeroed) twoSend = some w ∧
      run step w twoCallbacks = some w' ∧
      (trace step (stepOn ()) w twoCallbacks).length ≤ 51 ∧
      w'.AllSent (twoSend ++ twoCallbacks) () ∧
      (w'.sockets ()).wire = [1, 0, 0, 0, 2, 1, 0, 0, 0, 1] := by
  have hboth : ((run step (start PacketSelector.zeroed) twoSend).any fun w =>
      w.work () + 14 * w.live.length == 51 &&
        (run step w twoCallbacks).any fun w' =>
          (w'.calls false).isNone && (w'.calls true).isNone &&
            w'.completed () == 0 && (w'.sockets ()).posted.isEmpty &&
            (w'.sockets ()).wire == [1, 0, 0, 0, 2, 1, 0, 0, 0, 1]) = true := by
    decide +kernel
  have hsuits : Along step Suits (start PacketSelector.zeroed)
      (twoSend ++ twoCallbacks) := by decide +kernel
  have hspares : ∀ e ∈ twoCallbacks, e.Spares () := by decide
  obtain ⟨w, hrun, hboth⟩ := (Option.any_eq_true _ _).mp hboth
  obtain ⟨hwork, hboth⟩ := Bool.and_eq_true_iff.mp hboth
  obtain ⟨w', hmore, hends⟩ := (Option.any_eq_true _ _).mp hboth
  simp only [Bool.and_eq_true, Option.isNone_iff_eq_none, beq_iff_eq,
    List.isEmpty_iff] at hwork hends
  obtain ⟨⟨⟨⟨hfalse, htrue⟩, hcompleted⟩, hposted⟩, hwire⟩ := hends
  have hidle : ∀ t, w'.calls t = none := by
    intro t
    cases t with
    | false => exact hfalse
    | true => exact htrue
  obtain ⟨hbound, hall⟩ := allSent_of_run hsuits hrun hmore hspares
  refine ⟨w, w', hrun, hmore, hwork ▸ hbound, hall ?_ ?_ ⟨true, htrue⟩, hwire⟩
  · exact stuck_of_idle hidle hcompleted hposted
  · intro t code _ _ _ hcall
    rw [hidle] at hcall
    cases hcall

end SendThreads

end DokeviNet
