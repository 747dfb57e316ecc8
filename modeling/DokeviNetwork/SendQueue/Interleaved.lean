import DokeviNetwork.SendQueue.Threads

/-!
# The send queues under any interleaving

What one thread does on one socket the others do not see: they go through
other packets.  So every socket sends what it would if each call were one step.
-/

namespace DokeviNet

open PacketPools Linked LabelledRun Workers

namespace SendThreads

variable {H P ι τ : Type*} [DecidableEq ι]

/-! ## All sockets -/

/-- The completions that threads in `OnWriteCallback` have not handled yet. -/
def handling [Fintype τ] (w : SendThreads H P ι τ) (s : ι) : ℕ :=
  (tasksOn w.calls s).countP fun code => SendStmt.completing code = true

/-- The completions of socket `s` that are yet to be handled. -/
def tokens [Fintype τ] (w : SendThreads H P ι τ) (s : ι) : ℕ :=
  w.completed s + w.handling s

section

variable {w w' : SendThreads H P ι τ} {t : τ} {s : ι}
  {before next : Option (List (SendStmt P))}

theorem codeOn_of_map (hbefore : w.calls t = before.map fun code => (s, code)) :
    w.codeOn t s = before := by
  rw [codeOn, hbefore]
  cases before <;> simp

theorem codeOn_of_map_of_ne {r : ι} (hr : r ≠ s)
    (before : Option (List (SendStmt P)))
    (hbefore : w.calls t = before.map fun code => (s, code)) :
    w.codeOn t r = none := by
  rw [codeOn, hbefore]
  cases before <;> simp [hr.symm]

theorem codeOn_eq_some_iff {code : List (SendStmt P)} :
    w.codeOn t s = some code ↔ w.calls t = some (s, code) := by
  rw [codeOn, Option.bind_eq_some_iff]
  constructor
  · rintro ⟨call, hcall, heq⟩
    split at heq
    · next hs =>
      obtain rfl := Option.some.inj heq
      rw [hcall, ← hs]
    · cases heq
  · exact fun hcall => ⟨_, hcall, if_pos rfl⟩

variable [DecidableEq τ]

theorem codeOn_update
    (hcalls : w'.calls =
      Function.update w.calls t (next.map fun code => (s, code))) :
    (fun u => w'.codeOn u s) =
      Function.update (fun u => w.codeOn u s) t next := by
  funext u
  by_cases hu : u = t
  · rw [hu, Function.update_self]
    apply codeOn_of_map
    rw [hcalls, Function.update_self]
  · rw [Function.update_of_ne hu, codeOn, hcalls, Function.update_of_ne hu]
    rfl

theorem codeOn_update_of_ne {r : ι} (hr : r ≠ s)
    (hbefore : w.calls t = before.map fun code => (s, code))
    (hcalls : w'.calls =
      Function.update w.calls t (next.map fun code => (s, code))) (u : τ) :
    w'.codeOn u r = w.codeOn u r := by
  by_cases hu : u = t
  · have hafter := congrFun hcalls t
    rw [Function.update_self] at hafter
    rw [hu, codeOn_of_map_of_ne hr before hbefore,
      codeOn_of_map_of_ne hr next hafter]
  · rw [codeOn, hcalls, Function.update_of_ne hu]
    rfl

variable [Fintype τ]

/-- A call that goes on handles its completion with the step that takes the packet
off the queue. -/
theorem handling_update
    (hbefore : w.calls t = before.map fun code => (s, code))
    (hcalls : w'.calls =
      Function.update w.calls t (next.map fun code => (s, code))) :
    w'.handling s + (before.any SendStmt.completing).toNat =
      w.handling s + (next.any SendStmt.completing).toNat := by
  obtain ⟨rest, hrest, hupdate⟩ := exists_tasksOn_self hbefore next
  rw [handling, handling, hcalls, hupdate, hrest, Multiset.countP_add,
    Multiset.countP_add, countP_ofOption, countP_ofOption]
  simp only [Bool.toNat, Bool.cond_eq_ite]
  omega

omit [DecidableEq τ] in
/-- A completion that is being handled counts. -/
theorem completing_le_handling {code : List (SendStmt P)}
    (hcall : w.calls t = some (s, code)) :
    (SendStmt.completing code).toNat ≤ w.handling s := by
  cases hcode : SendStmt.completing code with
  | false => exact Nat.zero_le _
  | true =>
      have hmem : code ∈ tasksOn w.calls s := mem_tasksOn.mpr ⟨t, hcall⟩
      exact Multiset.countP_pos.mpr ⟨code, hmem, hcode⟩

end

variable [PacketPools H P] [DecidableEq P]

/-- Every socket is in order, and they share no packet. -/
structure Sections [Fintype τ] (w : SendThreads H P ι τ)
    (phase : ι → τ → SectionPhase) (owned : ι → List P)
    (body : ι → List (SendStmt P)) : Prop where
  socket : ∀ s, OnSocket (w.memory s) (w.locks s) (fun t => w.codeOn t s)
    (w.tokens s) (phase s) (owned s) (body s) ((w.taken s).map Prod.snd)
  live : ∀ s, ∀ p ∈ owned s, p ∈ w.live
  disjoint : ∀ s s', s ≠ s' → (owned s).Disjoint (owned s')

/-- Only the fields of socket `s` differ, and what goes with them. -/
structure Elsewhere [Fintype τ] (w w' : SendThreads H P ι τ) (s : ι) :
    Prop where
  socket : ∀ r, r ≠ s → w'.sockets r = w.sockets r
  lock : ∀ r, r ≠ s → w'.locks r = w.locks r
  codes : ∀ r, r ≠ s → ∀ t, w'.codeOn t r = w.codeOn t r
  completed : ∀ r, r ≠ s → w'.completed r = w.completed r
  handling : ∀ r, r ≠ s → w'.handling r = w.handling r
  taken : ∀ r, r ≠ s → w'.taken r = w.taken r

namespace Sections

variable [Fintype τ] {w w' : SendThreads H P ι τ} {phase : ι → τ → SectionPhase}
  {owned : ι → List P} {body : ι → List (SendStmt P)}

/-- The packets of the other sockets are not among those of socket `s`. -/
theorem notMem (h : Sections w phase owned body) {r s : ι} (hr : r ≠ s)
    {p : P} (hp : p ∈ owned r) {x : SendMemory H P} {owned' : List P}
    (hmoves : Moves (w.memory s) x (owned s) owned') :
    p ∉ owned s ∧ p ∉ owned' := by
  have hs : p ∉ owned s := fun hmem => h.disjoint r s hr hp hmem
  refine ⟨hs, fun hmem => ?_⟩
  rcases hmoves.fresh p hmem with hold | hfresh
  · exact hs hold
  · exact hfresh (h.live r p hp)

/-- What happens on one socket, the others do not see. -/
theorem update (h : Sections w phase owned body) {s : ι}
    (helsewhere : Elsewhere w w' s) {phase' : τ → SectionPhase}
    {owned' : List P} {body' : List (SendStmt P)}
    (hmoves : Moves (w.memory s) (w'.memory s) (owned s) owned')
    (hsocket : OnSocket (w'.memory s) (w'.locks s) (fun t => w'.codeOn t s)
      (w'.tokens s) phase' owned' body' ((w'.taken s).map Prod.snd)) :
    Sections w' (Function.update phase s phase')
      (Function.update owned s owned') (Function.update body s body') := by
  refine ⟨fun r => ?_, fun r => ?_, fun r r' hne => ?_⟩
  · by_cases hr : r = s
    · subst hr
      simpa only [Function.update_self] using hsocket
    · simp only [Function.update_of_ne hr, helsewhere.lock r hr,
        helsewhere.codes r hr, tokens, helsewhere.completed r hr,
        helsewhere.handling r hr, helsewhere.taken r hr]
      refine (h.socket r).congr (helsewhere.socket r hr) fun p hp => ?_
      obtain ⟨hs, hs'⟩ := h.notMem hr hp hmoves
      exact hmoves.packets p hs hs'
  · by_cases hr : r = s
    · rw [hr, Function.update_self]
      exact hmoves.live
    · rw [Function.update_of_ne hr]
      intro p hp
      exact hmoves.kept p (h.live r p hp) (h.notMem hr hp hmoves).1
  · by_cases hr : r = s
    · subst hr
      rw [Function.update_self, Function.update_of_ne hne.symm]
      exact fun p hp hmem => (h.notMem hne.symm hmem hmoves).2 hp
    · rw [Function.update_of_ne hr]
      by_cases hr' : r' = s
      · subst hr'
        rw [Function.update_self]
        exact fun p hp hmem => (h.notMem hr hp hmoves).2 hmem
      · rw [Function.update_of_ne hr']
        exact h.disjoint r r' hne

variable [DecidableEq τ] {t : τ} {s : ι} {before : Option (List (SendStmt P))}
  {x : SendMemory H P} {lock : SyncThreads τ}

omit [PacketPools H P] [DecidableEq P] in
theorem elsewhere_after (before : Option (List (SendStmt P)))
    (hbefore : w.calls t = before.map fun code => (s, code))
    (x : SendMemory H P) (lock : SyncThreads τ)
    (next : Option (List (SendStmt P))) (c : ℕ) (taken : List (τ × Frame)) :
    Elsewhere w (w.after t s x lock next c taken) s where
  socket r hr := Function.update_of_ne hr _ _
  lock r hr := Function.update_of_ne hr _ _
  codes r hr := codeOn_update_of_ne hr hbefore rfl
  completed r hr := Function.update_of_ne hr _ _
  handling r hr := by
    rw [handling, handling, SendThreads.after,
      tasksOn_of_ne hbefore next hr.symm]
  taken r hr := Function.update_of_ne hr _ _

/-- A step of thread `t` on socket `s`. -/
theorem after (h : Sections w phase owned body)
    (hbefore : w.calls t = before.map fun code => (s, code))
    (next : Option (List (SendStmt P))) (c : ℕ) (taken : List (τ × Frame))
    {n : ℕ} {phase' : τ → SectionPhase} {owned' : List P}
    {body' : List (SendStmt P)}
    (hmoves : Moves (w.memory s) x (owned s) owned')
    (hsocket : OnSocket x lock
      (Function.update (fun u => w.codeOn u s) t next) n phase' owned' body'
      (taken.map Prod.snd))
    (hn : n + (before.any SendStmt.completing).toNat =
      c + w.handling s + (next.any SendStmt.completing).toNat) :
    Sections (w.after t s x lock next c taken)
      (Function.update phase s phase') (Function.update owned s owned')
      (Function.update body s body') := by
  have hcalls : (w.after t s x lock next c taken).calls =
      Function.update w.calls t (next.map fun code => (s, code)) := rfl
  have hhandling := handling_update hbefore hcalls
  have hmemory : (w.after t s x lock next c taken).memory s = x := by
    simp [memory, SendThreads.after]
  have hcompleted : (w.after t s x lock next c taken).completed s = c :=
    Function.update_self _ _ _
  obtain rfl : n = (w.after t s x lock next c taken).tokens s := by
    rw [tokens, hcompleted]
    omega
  refine h.update (elsewhere_after before hbefore x lock next c taken)
    (hmemory.symm ▸ hmoves) ?_
  rw [hmemory, codeOn_update hcalls]
  simpa [SendThreads.after] using hsocket

/-- A thread starts a call; `c` completions are left to be handled by others. -/
theorem begins (h : Sections w phase owned body) (hcall : w.calls t = none)
    {code : List (SendStmt P)} (hbegins : SendStmt.Begins code)
    (hlock : (w.locks s).step (.enter t .write) = some lock) {c : ℕ}
    (hc : c + (SendStmt.completing code).toNat = w.completed s) :
    ∃ phase', Sections (w.after t s (w.memory s) lock (some code) c (w.taken s))
      phase' owned body := by
  have hbefore : w.calls t =
      (none : Option (List (SendStmt P))).map fun code => (s, code) := hcall
  obtain ⟨phase', h'⟩ :=
    (h.socket s).enter (codeOn_of_map hbefore) hbegins hlock
  have hn : w.tokens s + 0 =
      c + w.handling s + (SendStmt.completing code).toNat := by
    rw [tokens]
    omega
  have hafter := h.after hbefore (some code) c (w.taken s)
    (SendStage.moves_of_eq rfl rfl (h.live s)) h' hn
  rw [Function.update_eq_self, Function.update_eq_self] at hafter
  exact ⟨_, hafter⟩

/-- `Enter` goes on, or `Leave`. -/
theorem lockStep (h : Sections w phase owned body) {code : List (SendStmt P)}
    (hcall : w.calls t = some (s, code)) {l : SyncStep τ}
    (hl : l = .advance t ∨ l = .leave t ∧ code = [])
    (hlock : (w.locks s).step l = some lock) :
    (lock.threads t = {} → code = []) ∧ ∃ phase' body',
      Sections (w.after t s (w.memory s) lock
        (if lock.threads t = {} then none else some code) (w.completed s)
        (w.taken s)) phase' owned body' ∧
      ∀ r, SendStmt.onlyFrees (body' r) = SendStmt.onlyFrees (body r) := by
  have hbefore : w.calls t = (some code).map fun code => (s, code) := hcall
  obtain ⟨hdone, phase', body', hfrees, h'⟩ :=
    (h.socket s).lockStep (codeOn_of_map hbefore) hl hlock
  have hn : w.tokens s + ((some code).any SendStmt.completing).toNat =
      w.completed s + w.handling s +
        ((if lock.threads t = {} then none else some code).any
          SendStmt.completing).toNat := by
    by_cases hthread : lock.threads t = {}
    · rw [if_pos hthread, hdone hthread]
      rfl
    · rw [if_neg hthread, tokens]
  have hafter := h.after hbefore _ (w.completed s) (w.taken s)
    (SendStage.moves_of_eq rfl rfl (h.live s)) h' hn
  rw [Function.update_eq_self] at hafter
  refine ⟨hdone, _, _, hafter, fun r => ?_⟩
  by_cases hr : r = s
  · rw [hr, Function.update_self, hfrees]
  · rw [Function.update_of_ne hr]

/-- A statement of the body. -/
theorem exec [LawfulPacketPools H P] (h : Sections w phase owned body)
    {a : SendStmt P} {rest pushed : List (SendStmt P)}
    (hcall : w.calls t = some (s, a :: rest))
    (hpc : ((w.locks s).threads t).pc = .idle) (hsuits : a.Suits (w.memory s))
    (hexec : a.exec true (w.memory s) = some (x, pushed)) :
    body s = a :: rest ∧ ∃ owned',
      SendStage.Balances (owned s) owned' a rest (pushed ++ rest) ∧
      Sections (w.after t s x (w.locks s) (some (pushed ++ rest))
          (w.completed s)
          (w.taken s ++ a.takes.toList.map fun frame => (t, frame)))
        phase (Function.update owned s owned')
        (Function.update body s (pushed ++ rest)) := by
  have hbefore : w.calls t = (some (a :: rest)).map fun code => (s, code) :=
    hcall
  have hcount : (SendStmt.completing (a :: rest)).toNat ≤ w.tokens s :=
    (completing_le_handling hcall).trans (Nat.le_add_left _ _)
  obtain ⟨n, hn⟩ : ∃ n, n + (SendStmt.completing (a :: rest)).toNat =
      w.tokens s + (SendStmt.completing (pushed ++ rest)).toNat :=
    ⟨w.tokens s - (SendStmt.completing (a :: rest)).toNat +
      (SendStmt.completing (pushed ++ rest)).toNat, by omega⟩
  obtain ⟨hbody, owned', hmoves, hbalances, h'⟩ :=
    (h.socket s).exec (codeOn_of_map hbefore) hpc (h.live s) hsuits hexec hn
      hcount
  have hafter := h.after hbefore (some (pushed ++ rest)) (w.completed s)
    (w.taken s ++ a.takes.toList.map fun frame => (t, frame)) hmoves
    (by simpa using h') hn
  rw [Function.update_eq_self] at hafter
  exact ⟨hbody, owned', hbalances, hafter⟩

omit [DecidableEq τ] [PacketPools H P] [DecidableEq P] in
theorem elsewhere_withWrites (posted : List (WsaSend P)) (wire : List UInt8)
    (c : ℕ) : Elsewhere w (w.withWrites s posted wire c) s where
  socket _ hr := Function.update_of_ne hr _ _
  lock _ _ := rfl
  codes _ _ _ := rfl
  completed _ hr := Function.update_of_ne hr _ _
  handling _ _ := rfl
  taken _ _ := rfl

omit [DecidableEq τ] in
/-- The system takes the bytes of a write or ends it. -/
theorem withWrites (h : Sections w phase owned body)
    {posted : List (WsaSend P)} {wire : List UInt8} {c : ℕ}
    (hstage : SendStage ((w.memory s).withWrites posted wire)
      (c + w.handling s) (owned s) (body s) ((w.taken s).map Prod.snd)) :
    Sections (w.withWrites s posted wire c) phase owned body := by
  have hs := h.socket s
  have hmemory : (w.withWrites s posted wire c).memory s =
      (w.memory s).withWrites posted wire := by
    simp [memory, SendThreads.withWrites, SendMemory.withWrites]
  have htokens : (w.withWrites s posted wire c).tokens s =
      c + w.handling s :=
    congrArg (· + w.handling s) (Function.update_self _ _ _)
  rw [← hmemory, ← htokens] at hstage
  have hupdate := h.update (elsewhere_withWrites posted wire c)
    (SendStage.moves_of_eq rfl rfl (h.live s))
    ⟨hs.lock, hs.position, hs.inside, hs.outside, hstage⟩
  simpa only [Function.update_eq_self] using hupdate

theorem step [LawfulPacketPools H P] {e : ThreadEvent ι τ}
    (h : Sections w phase owned body) (hsuits : w.Suits e)
    (hstep : Stepped w e w') :
    ∃ phase' owned' body', Sections w' phase' owned' body' := by
  cases hstep with
  | send hcall hlock =>
      obtain ⟨phase', h'⟩ := h.begins hcall (SendStmt.Begins.send _ _ _) hlock rfl
      exact ⟨phase', owned, body, h'⟩
  | callback hcall hlock hcompleted =>
      obtain ⟨phase', h'⟩ :=
        h.begins hcall SendStmt.Begins.callback hlock hcompleted.symm
      exact ⟨phase', owned, body, h'⟩
  | lock hcall hl hlock =>
      obtain ⟨-, phase', body', h', -⟩ := h.lockStep hcall hl hlock
      exact ⟨phase', owned, body', h'⟩
  | @body t s a rest pushed x hcall hpc hexec =>
      have hbody : w.inBody t = true := by simp [inBody, hcall, hpc]
      obtain ⟨-, owned', -, h'⟩ :=
        h.exec hcall hpc (hsuits hbody _ hcall a rfl) hexec
      exact ⟨_, _, _, h'⟩
  | transmit hposted =>
      exact ⟨_, _, _, h.withWrites ((h.socket _).stage.transmit hposted)⟩
  | ends hposted hbytes =>
      have hended := (h.socket _).stage.ends hposted hbytes
      rw [tokens, Nat.add_right_comm] at hended
      exact ⟨_, _, _, h.withWrites hended⟩

/-- A thread in a call goes on, unless another one has the mutex of the socket or
`AllocPacket` has no packet left. -/
theorem goes [LawfulPacketPools H P] (h : Sections w phase owned body)
    {code : List (SendStmt P)} (hcall : w.calls t = some (s, code)) :
    w.step (.advance t) ≠ none ∨
      (((w.locks s).threads t).pc = .wantMutex .write ∧ ∃ u code', u ≠ t ∧
        w.calls u = some (s, code') ∧
        SyncThreads.Has .write ((w.locks s).threads u)) ∨
      ∃ inData inLen inImmediateSend,
        code.head? = some (.alloc inData inLen inImmediateSend) ∧
        allocPacket w.pools inLen = none := by
  have hcount : (SendStmt.completing code).toNat ≤ w.tokens s :=
    (completing_le_handling hcall).trans (Nat.le_add_left _ _)
  have hs := h.socket s
  have hcode := codeOn_eq_some_iff.mpr hcall
  rcases hs.goes_or_waits hcode with ⟨hinside, rfl⟩ | ⟨hpc, hlock⟩ |
    ⟨hwant, u, code', hne, hcode', hmutex⟩
  · have hpc : ((w.locks s).threads t).pc = .idle := by
      rw [hs.lock.threads, hinside]
      rfl
    have hstage := hs.stage
    generalize body s = code at hcall hcount hstage
    cases code with
    | nil =>
        refine Or.inl ?_
        have hnext := hs.lock.step_next (t := t) (by simp [hinside])
        rw [hinside, SectionPhase.label] at hnext
        simp [SendThreads.step, hcall, hpc, SendThreads.lockStep, hnext]
    | cons a rest =>
        refine or_iff_not_imp_right.mpr fun hno => ?_
        have hexec := hstage.exec_ne_none hcount
          fun inData inLen inImmediateSend ha hnone =>
            hno (Or.inr ⟨inData, inLen, inImmediateSend,
              congrArg some ha, hnone⟩)
        simpa [SendThreads.step, hcall, hpc, SendThreads.bodyStep] using hexec
  · refine Or.inl ?_
    simpa [SendThreads.step, hcall, hpc, SendThreads.lockStep] using hlock
  · refine Or.inr (Or.inl ⟨hwant, u, code', hne, ?_, hmutex⟩)
    exact codeOn_eq_some_iff.mp hcode'

end Sections

theorem sections_start [Fintype τ] (pools : H) :
    Sections (start pools : SendThreads H P ι τ) (fun _ _ => .away)
      (fun _ => []) fun _ => [] := by
  have hc := carrying_start (ι := ι) (P := P) pools
  refine ⟨fun s => ?_, by simp, by simp⟩
  have htokens : (start pools : SendThreads H P ι τ).tokens s = 0 := by
    have hnone : tasksOn (start pools : SendThreads H P ι τ).calls s = 0 :=
      tasksOn_eq_zero fun _ _ heq => by cases heq
    rw [tokens, handling, hnone]
    rfl
  rw [htokens]
  refine ⟨SyncThreads.writePhased_start, fun _ => Position.away, by simp,
    fun _ => rfl, SendStage.outside (Or.inl rfl) ?_⟩
  exact ⟨hc.queues s, hc.flight s, hc.holds s, Trails.level, rfl⟩

end SendThreads

/-! ## The order of the sends -/

namespace SendThreads

variable {H P ι τ : Type*} [DecidableEq ι]

/-- The frame that the thread is about to get in. -/
def pending (code : Option (List (SendStmt P))) : Option Frame :=
  (code.bind List.head?).bind SendStmt.takes

section

variable [DecidableEq τ]

/-- The frame of a `send` of thread `t` on socket `s`. -/
def sentBy (t : τ) (s : ι) : ThreadEvent ι τ → Option Frame
  | .send u r inData inLen inImmediateSend =>
    if u = t ∧ r = s then some (Frame.ofData inData inLen inImmediateSend)
    else none
  | .callback _ _ | .advance _ | .transmit _ | .ends _ => none

/-- The frames of thread `t` on socket `s` that are in, in their order. -/
def takenBy (w : SendThreads H P ι τ) (t : τ) (s : ι) : List Frame :=
  (w.taken s).filterMap fun (u, frame) => if u = t then some frame else none

/-- Each thread's frames are in, or about to be, in the order of its calls. -/
structure InOrder (es : List (ThreadEvent ι τ)) (w : SendThreads H P ι τ) :
    Prop where
  once : ∀ t s a rest, w.calls t = some (s, a :: rest) →
    ∀ b ∈ rest, b.takes = none
  order : ∀ t s, w.takenBy t s ++ (pending (w.codeOn t s)).toList =
    es.filterMap (sentBy t s)

namespace InOrder

variable {w w' : SendThreads H P ι τ} {t : τ} {s : ι}
  {es : List (ThreadEvent ι τ)} {before : Option (List (SendStmt P))}

omit [DecidableEq ι] in
theorem takenBy_self {frames : List Frame}
    (htaken : w'.taken s = w.taken s ++ frames.map fun frame => (t, frame)) :
    w'.takenBy t s = w.takenBy t s ++ frames := by
  rw [takenBy, htaken, List.filterMap_append, takenBy, List.filterMap_map]
  congr 1
  exact (List.filterMap_congr fun frame _ => if_pos rfl).trans
    List.filterMap_some

omit [DecidableEq ι] in
theorem takenBy_of_ne {u : τ} (hu : u ≠ t) {frames : List Frame}
    (htaken : w'.taken s = w.taken s ++ frames.map fun frame => (t, frame)) :
    w'.takenBy u s = w.takenBy u s := by
  rw [takenBy, htaken, List.filterMap_append, takenBy, List.filterMap_map]
  apply List.append_right_eq_self.mpr
  exact List.filterMap_eq_nil_iff.mpr fun frame _ => if_neg hu.symm

/-- A step of thread `t` on socket `s`, which gets in `frames`. -/
theorem after (h : InOrder es w)
    (hbefore : w.calls t = before.map fun code => (s, code))
    (x : SendMemory H P) (lock : SyncThreads τ)
    (next : Option (List (SendStmt P))) (c : ℕ) (frames : List Frame)
    {e : ThreadEvent ι τ}
    (hsent : ∀ u r, ¬(t = u ∧ s = r) → sentBy u r e = none)
    (hbalance : frames ++ (pending next).toList =
      (pending before).toList ++ (sentBy t s e).toList)
    (honce : ∀ a rest, next = some (a :: rest) → ∀ b ∈ rest, b.takes = none) :
    InOrder (es ++ [e]) (w.after t s x lock next c
      (w.taken s ++ frames.map fun frame => (t, frame))) := by
  generalize hw : w.after t s x lock next c
    (w.taken s ++ frames.map fun frame => (t, frame)) = w'
  have hcalls : w'.calls =
      Function.update w.calls t (next.map fun code => (s, code)) := by
    rw [← hw]
    rfl
  have htaken : w'.taken = Function.update w.taken s
      (w.taken s ++ frames.map fun frame => (t, frame)) := by
    rw [← hw]
    rfl
  refine ⟨fun u r a rest hcall => ?_, fun u r => ?_⟩
  · rw [hcalls] at hcall
    by_cases hu : u = t
    · rw [hu, Function.update_self] at hcall
      obtain ⟨code, hnext, heq⟩ := Option.map_eq_some_iff.mp hcall
      obtain ⟨rfl, rfl⟩ := Prod.mk.inj heq
      exact honce a rest hnext
    · rw [Function.update_of_ne hu] at hcall
      exact h.once u r a rest hcall
  · have horder := h.order u r
    have hlast : [e].filterMap (sentBy u r) = (sentBy u r e).toList := by
      cases hframe : sentBy u r e <;> simp [hframe]
    rw [List.filterMap_append, ← horder, hlast]
    by_cases hr : r = s
    · subst hr
      have htaken' := (congrFun htaken r).trans (Function.update_self _ _ _)
      have hcodes := congrFun (codeOn_update hcalls) u
      by_cases hu : u = t
      · subst hu
        rw [takenBy_self htaken', hcodes, Function.update_self,
          codeOn_of_map hbefore, List.append_assoc, List.append_assoc, hbalance]
      · rw [takenBy_of_ne hu htaken', hcodes, Function.update_of_ne hu,
          hsent u r fun heq => hu heq.1.symm, Option.toList_none,
          List.append_nil]
    · have htaken' := (congrFun htaken r).trans (Function.update_of_ne hr _ _)
      rw [takenBy, htaken', codeOn_update_of_ne hr hbefore hcalls,
        hsent u r fun heq => hr heq.2.symm, Option.toList_none, List.append_nil]
      rfl

/-- A step of thread `t` on socket `s` that gets in nothing. -/
theorem after_nil (h : InOrder es w)
    (hbefore : w.calls t = before.map fun code => (s, code))
    (x : SendMemory H P) (lock : SyncThreads τ)
    (next : Option (List (SendStmt P))) (c : ℕ) {e : ThreadEvent ι τ}
    (hsent : ∀ u r, ¬(t = u ∧ s = r) → sentBy u r e = none)
    (hbalance : (pending next).toList =
      (pending before).toList ++ (sentBy t s e).toList)
    (honce : ∀ a rest, next = some (a :: rest) → ∀ b ∈ rest, b.takes = none) :
    InOrder (es ++ [e]) (w.after t s x lock next c (w.taken s)) := by
  have hafter := h.after hbefore x lock next c [] hsent hbalance honce
  rwa [List.map_nil, List.append_nil] at hafter

/-- The system takes the bytes of a write or ends it. -/
theorem withWrites (h : InOrder es w) (posted : List (WsaSend P))
    (wire : List UInt8) (c : ℕ) {e : ThreadEvent ι τ}
    (hsent : ∀ u r, sentBy u r e = none) :
    InOrder (es ++ [e]) (w.withWrites s posted wire c) := by
  refine ⟨h.once, fun u r => ?_⟩
  have hlast : [e].filterMap (sentBy u r) = [] := by simp [hsent]
  rw [List.filterMap_append, hlast, List.append_nil]
  exact h.order u r

theorem step [PacketPools H P] [DecidableEq P] [Fintype τ]
    {phase : ι → τ → SectionPhase} {owned : ι → List P}
    {body : ι → List (SendStmt P)} (h : InOrder es w)
    (hsections : Sections w phase owned body) {e : ThreadEvent ι τ}
    (hstep : Stepped w e w') : InOrder (es ++ [e]) w' := by
  cases hstep with
  | @send t s inData inLen inImmediateSend lock hcall =>
      have hbefore : w.calls t =
          (none : Option (List (SendStmt P))).map fun code => (s, code) :=
        hcall
      refine h.after_nil hbefore _ lock _ _ (fun u r hne => if_neg hne) ?_ ?_
      · rw [sentBy, if_pos ⟨rfl, rfl⟩]
        rfl
      · rintro a rest hcode b hb
        cases hcode
        cases hb
  | @callback t s lock c hcall =>
      have hbefore : w.calls t =
          (none : Option (List (SendStmt P))).map fun code => (s, code) :=
        hcall
      refine h.after_nil hbefore _ lock _ _ (fun _ _ _ => rfl) rfl ?_
      rintro a rest hcode b hb
      cases hcode
      cases hb
  | @lock t s code l lock hcall hl hlock =>
      have hbefore : w.calls t = (some code).map fun code => (s, code) := hcall
      refine h.after_nil hbefore _ lock _ _ (fun _ _ _ => rfl) ?_ ?_
      · by_cases hdone : lock.threads t = {}
        · rw [if_pos hdone, (hsections.lockStep hcall hl hlock).1 hdone]
          rfl
        · rw [if_neg hdone, sentBy, Option.toList_none, List.append_nil]
      · intro a rest hcode
        by_cases hdone : lock.threads t = {}
        · rw [if_pos hdone] at hcode
          cases hcode
        · rw [if_neg hdone] at hcode
          obtain rfl := Option.some.inj hcode
          exact h.once t s a rest hcall
  | @body t s a rest pushed x hcall hpc hexec =>
      have hbefore : w.calls t = (some (a :: rest)).map fun code => (s, code) :=
        hcall
      have hnone : ∀ b ∈ pushed ++ rest, b.takes = none := by
        intro b hb
        rcases List.mem_append.mp hb with hb | hb
        · exact SendStmt.takes_of_exec hexec b hb
        · exact h.once t s a rest hcall b hb
      refine h.after hbefore x _ _ _ a.takes.toList (fun _ _ _ => rfl) ?_ ?_
      · have hnext : pending (some (pushed ++ rest)) = none := by
          rw [pending, Option.bind_some]
          cases hhead : (pushed ++ rest).head? with
          | none => rfl
          | some b => exact hnone b (List.mem_of_mem_head? hhead)
        rw [hnext]
        rfl
      · intro b code hcode c hc
        rw [Option.some.inj hcode] at hnone
        exact hnone c (List.mem_cons_of_mem b hc)
  | transmit => exact h.withWrites _ _ _ fun _ _ => rfl
  | ends => exact h.withWrites _ _ _ fun _ _ => rfl

end InOrder

end

theorem inOrder_start [DecidableEq τ] (pools : H) :
    InOrder [] (start pools : SendThreads H P ι τ) := by
  constructor
  · rintro t s a rest hcall
    cases hcall
  · exact fun _ _ => rfl

/-! ## Every run -/

section

variable [DecidableEq τ] [PacketPools H P] [DecidableEq P]

/-- What holds of socket `s` after the events `es`, wherever the threads
stand. -/
structure SendsInOrder (es : List (ThreadEvent ι τ)) (w : SendThreads H P ι τ)
    (s : ι) : Prop where
  /-- The frames of each thread are in, but for one, in the order of its calls. -/
  order : ∀ t, w.takenBy t s ++ (pending (w.codeOn t s)).toList =
    es.filterMap (sentBy t s)
  /-- What is on the wire is whole frames, in the order in which they are in. -/
  wire : ∃ sent, sent <+: (w.taken s).map Prod.snd ∧
    (w.sockets s).wire = sent.flatMap Frame.bytes
  /-- With no thread in a body, what has been given to `WSASend` and what waits
  behind it are all of them. -/
  queued : (∀ t code, w.calls t = some (s, code) → w.inBody t = true →
      code = []) →
    ∃ queue,
      Follows (fun p => (packet w.pools p).next) (w.sockets s).sendingPacket
        queue ∧
      (w.sockets s).handed.flatten ++ queue.tail.flatMap (contents w.pools) =
        ((w.taken s).map Prod.snd).flatMap Frame.bytes
  /-- A thread in a call goes on, unless another one has the mutex of the socket
  or `AllocPacket` has no packet left. -/
  goes : ∀ t code, w.calls t = some (s, code) →
    w.step (.advance t) ≠ none ∨
      (((w.locks s).threads t).pc = .wantMutex .write ∧ ∃ u code', u ≠ t ∧
        w.calls u = some (s, code') ∧
        SyncThreads.Has .write ((w.locks s).threads u)) ∨
      ∃ inData inLen inImmediateSend,
        code.head? = some (.alloc inData inLen inImmediateSend) ∧
        allocPacket w.pools inLen = none

variable [LawfulPacketPools H P] [Fintype τ]

theorem kept_of_run {pools : H} {es : List (ThreadEvent ι τ)}
    {w : SendThreads H P ι τ} (hsuits : Along step Suits (start pools) es)
    (hrun : run step (start pools) es = some w) :
    (∃ phase owned body, Sections w phase owned body) ∧ InOrder es w := by
  refine @history_of_along _ _ _ _ (fun past w =>
    (∃ phase owned body, Sections w phase owned body) ∧ InOrder past w) ?_ _ _ _
    ⟨⟨_, _, _, sections_start pools⟩, inOrder_start pools⟩ hsuits hrun
  rintro past w e w' ⟨⟨phase, owned, body, h⟩, horder⟩ hsuits hstep
  have hstepped := stepped_of_step hstep
  exact ⟨h.step hsuits hstepped, horder.step h hstepped⟩

/-- However the threads interleave between the steps of `Enter`, `Leave` and the
statements of `Send` and `OnWriteCallback`, every socket sends whole frames, each
thread's in the order of its calls. -/
theorem sendsInOrder_of_run {pools : H} {es : List (ThreadEvent ι τ)}
    {w : SendThreads H P ι τ} (hsuits : Along step Suits (start pools) es)
    (hrun : run step (start pools) es = some w) (s : ι) :
    w.SendsInOrder es s := by
  obtain ⟨⟨phase, owned, body, h⟩, horder⟩ := kept_of_run hsuits hrun
  have hs := h.socket s
  refine ⟨fun t => horder.order t s, hs.stage.wire, fun hidle => ?_,
    fun _ _ hcall => h.goes hcall⟩
  have hnil : body s = [] := by
    by_cases hinside : ∃ t, phase s t = .inside
    · obtain ⟨t, hinside⟩ := hinside
      have hcall := codeOn_eq_some_iff.mp (hs.inside t hinside)
      refine hidle t _ hcall ?_
      simp [inBody, hcall, hs.lock.threads, hinside, SectionPhase.thread]
    · exact hs.outside (not_exists.mp hinside)
  have hsettled := (hnil ▸ hs.stage).settled
  exact ⟨owned s, hsettled.shape.linked, hsettled.stream⟩

end

/-- One thread sends while another one waits for the mutex; its write ends before it
has left. -/
def sendsAndWaits : List (ThreadEvent Unit Bool) :=
  [.send false () (Region.ofList 0 [1]) 1 false,
    .send true () (Region.ofList 0 [2]) 1 false] ++
    List.replicate 15 (.advance true) ++ [.transmit (), .ends ()]

theorem sendsInOrder_of_run_sendsAndWaits :
    ∃ w, run step (start PacketSelector.zeroed) sendsAndWaits = some w ∧
      w.SendsInOrder sendsAndWaits () ∧
      (w.sockets ()).wire = [1, 0, 0, 0, 2] ∧ w.takenBy false () = [] := by
  have hrun : run step (start PacketSelector.zeroed) sendsAndWaits =
    some _ := rfl
  have hsuits : Along step Suits (start PacketSelector.zeroed)
      sendsAndWaits := by decide
  exact ⟨_, hrun, sendsInOrder_of_run hsuits hrun (), rfl, rfl⟩

end SendThreads

end DokeviNet
