import DokeviNetwork.SendQueue.Sections
import DokeviNetwork.Support.Workers
import DokeviNetwork.Sync.Sections

/-!
# Threads on the send queues

Any number of threads call `Send` and `OnWriteCallback` on any number of sockets.
Every call is a section under the `SyncSection` of its socket, and between two
steps of a thread, of `Enter`, of `Leave` or of the body, any other threads and the
system may go on.  `OnSocket` says what then holds of one socket.
-/

namespace DokeviNet

open PacketPools Linked LabelledRun Workers

/-- The sockets on shared pools, their locks, and what each thread has left of the
call it is in.  `completed` counts the completions for which `OnWriteCallback`
has yet to be called.  `taken` is a history variable: the frames of the `Send`
calls, with the threads, in the order in which their bodies began. -/
structure SendThreads (H P ι τ : Type*) where
  pools : H
  sockets : ι → SendSide P
  live : List P
  completed : ι → ℕ
  locks : ι → SyncThreads τ
  calls : τ → Option (ι × List (SendStmt P))
  taken : ι → List (τ × Frame)

/-- A thread calls `Send` or `OnWriteCallback` or goes on with the call it is in;
the system takes the bytes of a write, or ends it. -/
inductive ThreadEvent (ι τ : Type*)
  | send (t : τ) (s : ι) (inData : Region UInt8) (inLen : UInt32)
      (inImmediateSend : Bool)
  | callback (t : τ) (s : ι)
  | advance (t : τ)
  | transmit (s : ι)
  | ends (s : ι)

namespace SendThreads

variable {H P ι τ : Type*}

/-- Pools as given, empty queues and no calls. -/
def start (pools : H) : SendThreads H P ι τ where
  pools := pools
  sockets := fun _ =>
    { sendingPacket := none, lastPacket := none, posted := [], handed := []
      wire := [] }
  live := []
  completed := fun _ => 0
  locks := fun _ => {}
  calls := fun _ => none
  taken := fun _ => []

/-- What a section on socket `s` works on. -/
def memory (w : SendThreads H P ι τ) (s : ι) : SendMemory H P where
  pools := w.pools
  socket := w.sockets s
  live := w.live

/-- The thread's call on socket `s`. -/
def codeOn [DecidableEq ι] (w : SendThreads H P ι τ) (t : τ) (s : ι) :
    Option (List (SendStmt P)) :=
  (w.calls t).bind fun call => if call.1 = s then some call.2 else none

variable [DecidableEq ι] [DecidableEq τ]

/-- The state after a step of thread `t` on socket `s`. -/
def after (w : SendThreads H P ι τ) (t : τ) (s : ι) (x : SendMemory H P)
    (lock : SyncThreads τ) (code : Option (List (SendStmt P))) (completed : ℕ)
    (taken : List (τ × Frame)) : SendThreads H P ι τ where
  pools := x.pools
  sockets := Function.update w.sockets s x.socket
  live := x.live
  completed := Function.update w.completed s completed
  locks := Function.update w.locks s lock
  calls := Function.update w.calls t (code.map fun code => (s, code))
  taken := Function.update w.taken s taken

/-- A call of `t` on socket `s`, which begins with `Enter`. -/
def begins (w : SendThreads H P ι τ) (t : τ) (s : ι) (code : List (SendStmt P))
    (completed : ℕ) : Option (SendThreads H P ι τ) :=
  if w.calls t = none then
    ((w.locks s).step (.enter t .write)).map fun lock =>
      w.after t s (w.memory s) lock (some code) completed (w.taken s)
  else none

theorem begins_eq_some {w w' : SendThreads H P ι τ} {t : τ} {s : ι}
    {code : List (SendStmt P)} {c : ℕ} (hstep : w.begins t s code c = some w') :
    w.calls t = none ∧ ∃ lock,
      (w.locks s).step (.enter t .write) = some lock ∧
        w' = w.after t s (w.memory s) lock (some code) c (w.taken s) := by
  rw [begins] at hstep
  split at hstep
  · next hnone =>
    obtain ⟨lock, hlock, rfl⟩ := Option.map_eq_some_iff.mp hstep
    exact ⟨hnone, lock, hlock, rfl⟩
  · cases hstep

/-- A step of `Enter` or `Leave`; after the last one of `Leave` the call is
over. -/
def lockStep (w : SendThreads H P ι τ) (t : τ) (s : ι)
    (code : List (SendStmt P)) (l : SyncStep τ) :
    Option (SendThreads H P ι τ) :=
  ((w.locks s).step l).map fun lock =>
    w.after t s (w.memory s) lock
      (if lock.threads t = {} then none else some code) (w.completed s)
      (w.taken s)

/-- The state after the system has changed the outstanding writes of socket
`s`. -/
def withWrites (w : SendThreads H P ι τ) (s : ι) (posted : List (WsaSend P))
    (wire : List UInt8) (completed : ℕ) : SendThreads H P ι τ :=
  { w with
    sockets := Function.update w.sockets s
      { w.sockets s with posted := posted, wire := wire }
    completed := Function.update w.completed s completed }

variable [PacketPools H P] [DecidableEq P]

/-- The first statement of what is left of the body. -/
def bodyStep (w : SendThreads H P ι τ) (t : τ) (s : ι) (a : SendStmt P)
    (rest : List (SendStmt P)) : Option (SendThreads H P ι τ) :=
  (a.exec true (w.memory s)).map fun (x, pushed) =>
    w.after t s x (w.locks s) (some (pushed ++ rest)) (w.completed s)
      (w.taken s ++ a.takes.toList.map fun frame => (t, frame))

def step (w : SendThreads H P ι τ) :
    ThreadEvent ι τ → Option (SendThreads H P ι τ)
  | .send t s inData inLen inImmediateSend =>
    w.begins t s (SendStmt.ofSend inData inLen inImmediateSend) (w.completed s)
  | .callback t s =>
    if 0 < w.completed s then
      w.begins t s SendStmt.ofCallback (w.completed s - 1)
    else none
  | .advance t =>
    (w.calls t).bind fun (s, code) =>
      if ((w.locks s).threads t).pc = .idle then
        match code with
        | [] => w.lockStep t s [] (.leave t)
        | a :: rest => w.bodyStep t s a rest
      else w.lockStep t s code (.advance t)
  | .transmit s =>
    match (w.sockets s).posted with
    | [] => none
    | post :: posts =>
      if post.transmitted.isSome then none
      else
        let bytes := (packet w.pools post.packet).buffer.read 0 post.len.toNat
        some (w.withWrites s ({ post with transmitted := some bytes } :: posts)
          (w.sockets s).wire (w.completed s))
  | .ends s =>
    match (w.sockets s).posted with
    | [] => none
    | post :: posts =>
      post.transmitted.map fun bytes =>
        w.withWrites s posts ((w.sockets s).wire ++ bytes) (w.completed s + 1)

/-- The thread is in the body of its call. -/
def inBody (w : SendThreads H P ι τ) (t : τ) : Bool :=
  (w.calls t).any fun call => ((w.locks call.1).threads t).pc = .idle

/-- A packet taken is fresh, and payloads fit. -/
def Suits (w : SendThreads H P ι τ) : ThreadEvent ι τ → Prop
  | .advance t => w.inBody t = true →
    ∀ call ∈ w.calls t, ∀ a ∈ call.2.head?, a.Suits (w.memory call.1)
  | _ => True

instance (w : SendThreads H P ι τ) : DecidablePred w.Suits
  | .advance t => inferInstanceAs (Decidable (w.inBody t = true →
    ∀ call ∈ w.calls t, ∀ a ∈ call.2.head?, a.Suits (w.memory call.1)))
  | .send _ _ _ _ _ | .callback _ _ | .transmit _ | .ends _ => isTrue trivial

/-- What a step can do. -/
inductive Stepped (w : SendThreads H P ι τ) :
    ThreadEvent ι τ → SendThreads H P ι τ → Prop
  | send {t : τ} {s : ι} {inData : Region UInt8} {inLen : UInt32}
      {inImmediateSend : Bool} {lock : SyncThreads τ}
      (hcall : w.calls t = none)
      (hlock : (w.locks s).step (.enter t .write) = some lock) :
      Stepped w (.send t s inData inLen inImmediateSend)
        (w.after t s (w.memory s) lock
          (some (SendStmt.ofSend inData inLen inImmediateSend)) (w.completed s)
          (w.taken s))
  | callback {t : τ} {s : ι} {lock : SyncThreads τ} {c : ℕ}
      (hcall : w.calls t = none)
      (hlock : (w.locks s).step (.enter t .write) = some lock)
      (hcompleted : w.completed s = c + 1) :
      Stepped w (.callback t s)
        (w.after t s (w.memory s) lock (some SendStmt.ofCallback) c
          (w.taken s))
  /-- a step of `Enter` or `Leave` -/
  | lock {t : τ} {s : ι} {code : List (SendStmt P)} {l : SyncStep τ}
      {lock : SyncThreads τ} (hcall : w.calls t = some (s, code))
      (hl : l = .advance t ∨ l = .leave t ∧ code = [])
      (hlock : (w.locks s).step l = some lock) :
      Stepped w (.advance t)
        (w.after t s (w.memory s) lock
          (if lock.threads t = {} then none else some code) (w.completed s)
          (w.taken s))
  /-- a statement of a body -/
  | body {t : τ} {s : ι} {a : SendStmt P} {rest pushed : List (SendStmt P)}
      {x : SendMemory H P} (hcall : w.calls t = some (s, a :: rest))
      (hpc : ((w.locks s).threads t).pc = .idle)
      (hexec : a.exec true (w.memory s) = some (x, pushed)) :
      Stepped w (.advance t)
        (w.after t s x (w.locks s) (some (pushed ++ rest)) (w.completed s)
          (w.taken s ++ a.takes.toList.map fun frame => (t, frame)))
  | transmit {s : ι} {post : WsaSend P} {posts : List (WsaSend P)}
      (hposted : (w.sockets s).posted = post :: posts)
      (hnone : post.transmitted = none) :
      Stepped w (.transmit s)
        (w.withWrites s
          ({ post with
            transmitted := some ((packet w.pools post.packet).buffer.read 0
              post.len.toNat) } :: posts)
          (w.sockets s).wire (w.completed s))
  | ends {s : ι} {post : WsaSend P} {posts : List (WsaSend P)}
      {bytes : List UInt8} (hposted : (w.sockets s).posted = post :: posts)
      (hbytes : post.transmitted = some bytes) :
      Stepped w (.ends s)
        (w.withWrites s posts ((w.sockets s).wire ++ bytes)
          (w.completed s + 1))

theorem stepped_of_step {w w' : SendThreads H P ι τ} {e : ThreadEvent ι τ}
    (hstep : w.step e = some w') : Stepped w e w' := by
  cases e with
  | send t s =>
      obtain ⟨hcall, lock, hlock, rfl⟩ := begins_eq_some hstep
      exact Stepped.send hcall hlock
  | callback t s =>
      simp only [step] at hstep
      split at hstep
      · next hpos =>
        obtain ⟨hcall, lock, hlock, rfl⟩ := begins_eq_some hstep
        exact Stepped.callback hcall hlock (Nat.sub_add_cancel hpos).symm
      · cases hstep
  | advance t =>
      obtain ⟨⟨s, code⟩, hcall, hstep⟩ := Option.bind_eq_some_iff.mp hstep
      dsimp only at hstep
      split at hstep
      · next hpc =>
        cases code with
        | nil =>
            obtain ⟨lock, hlock, rfl⟩ := Option.map_eq_some_iff.mp hstep
            exact Stepped.lock hcall (Or.inr ⟨rfl, rfl⟩) hlock
        | cons a rest =>
            obtain ⟨⟨x, pushed⟩, hexec, rfl⟩ :=
              Option.map_eq_some_iff.mp hstep
            exact Stepped.body hcall hpc hexec
      · obtain ⟨lock, hlock, rfl⟩ := Option.map_eq_some_iff.mp hstep
        exact Stepped.lock hcall (Or.inl rfl) hlock
  | transmit s =>
      simp only [step] at hstep
      split at hstep
      · cases hstep
      · next post posts hposted =>
        split at hstep
        · cases hstep
        · next hnone =>
          obtain rfl := Option.some.inj hstep
          exact Stepped.transmit hposted (Option.not_isSome_iff_eq_none.mp hnone)
  | ends s =>
      simp only [step] at hstep
      split at hstep
      · cases hstep
      · next post posts hposted =>
        obtain ⟨bytes, hbytes, rfl⟩ := Option.map_eq_some_iff.mp hstep
        exact Stepped.ends hposted hbytes

/-! ## One socket -/

end SendThreads

section

open SendStmt SectionPhase

/-- What is left of a thread's call, by the phase of its section. -/
inductive Position {P : Type*} : Option (List (SendStmt P)) → SectionPhase → Prop
  | away : Position none .away
  | entering {code : List (SendStmt P)} (hbegins : Begins code) :
      Position (some code) .entering
  | granted {code : List (SendStmt P)} (hbegins : Begins code) :
      Position (some code) .granted
  | inside (code : List (SendStmt P)) : Position (some code) .inside
  | unlocking : Position (some []) .unlocking
  | leaving : Position (some []) .leaving

variable {H P τ : Type*} [PacketPools H P] [DecidableEq P]

/-- The threads on one socket: their phases in its lock, the packets it owns and
the rest of the body that a thread is in. -/
structure OnSocket (x : SendMemory H P) (lock : SyncThreads τ)
    (codes : τ → Option (List (SendStmt P))) (n : ℕ) (phase : τ → SectionPhase)
    (owned : List P) (body : List (SendStmt P)) (frames : List Frame) :
    Prop where
  lock : lock.WritePhased phase
  position : ∀ t, Position (codes t) (phase t)
  inside : ∀ t, phase t = .inside → codes t = some body
  outside : (∀ t, phase t ≠ .inside) → body = []
  stage : SendStage x n owned body frames

namespace OnSocket

variable {x x' : SendMemory H P} {lock lock' : SyncThreads τ}
  {codes : τ → Option (List (SendStmt P))} {n : ℕ} {phase : τ → SectionPhase}
  {owned : List P} {body : List (SendStmt P)} {frames : List Frame}

section

variable [DecidableEq τ]

theorem position_update (h : OnSocket x lock codes n phase owned body frames)
    {t : τ} {code : Option (List (SendStmt P))} {next : SectionPhase}
    (hposition : Position code next) (u : τ) :
    Position (Function.update codes t code u)
      (Function.update phase t next u) := by
  by_cases hu : u = t
  · rw [hu, Function.update_self, Function.update_self]
    exact hposition
  · rw [Function.update_of_ne hu, Function.update_of_ne hu]
    exact h.position u

omit [DecidableEq τ] in
/-- While a thread holds the mutex, no other one is in a body. -/
theorem not_inside (h : OnSocket x lock codes n phase owned body frames)
    {t u : τ} (hholds : (phase t).holds = true) (hu : u ≠ t) :
    phase u ≠ .inside := by
  intro hinside
  exact hu (h.lock.eq_of_holds (by rw [hinside]; rfl) hholds)

/-- A thread that has been granted the mutex begins its body. -/
theorem granted (h : OnSocket x lock codes n phase owned body frames) {t : τ}
    (hphase : phase t = .granted)
    (hlock : lock'.WritePhased (Function.update phase t .inside)) :
    ∃ code, codes t = some code ∧ onlyFrees code = onlyFrees body ∧
      OnSocket x lock' codes n (Function.update phase t .inside) owned code
        frames := by
  have hnobody : ∀ u, phase u ≠ .inside := by
    intro u
    by_cases hu : u = t
    · rw [hu, hphase]
      simp
    · exact h.not_inside (by rw [hphase]; rfl) hu
  have hposition := h.position t
  have hstage := h.stage
  rw [h.outside hnobody] at hstage ⊢
  rw [hphase] at hposition
  generalize hcode : codes t = code at hposition
  cases hposition with
  | @granted code hbegins =>
      have hfrees : onlyFrees code = false := by cases hbegins <;> rfl
      refine ⟨code, rfl, hfrees, hlock, fun u => ?_, fun u hu => ?_,
        fun hout => ?_, hstage.begins hbegins⟩
      · have hupdate := h.position_update (t := t) (Position.inside code) u
        rwa [← hcode, Function.update_eq_self] at hupdate
      · by_cases heq : u = t
        · rw [heq, hcode]
        · rw [Function.update_of_ne heq] at hu
          exact absurd hu (hnobody u)
      · exact absurd (Function.update_self t _ phase) (hout t)

/-- Any other step of the lock leaves the bodies alone. -/
theorem passes (h : OnSocket x lock codes n phase owned body frames) {t : τ}
    {p : SectionPhase} (hphase : phase t = p) (hp : p ≠ .granted)
    (hlock : lock'.WritePhased (Function.update phase t p.next))
    {code : Option (List (SendStmt P))} (hposition : Position code p.next)
    (hleave : p = .inside → codes t = some []) :
    ∃ phase', OnSocket x lock' (Function.update codes t code) n phase' owned
      body frames := by
  have hnext : p.next ≠ .inside := by
    cases p with
    | granted => exact absurd rfl hp
    | away | entering | inside | unlocking | leaving => simp [SectionPhase.next]
  refine ⟨_, hlock, h.position_update hposition, fun u hu => ?_,
    fun hout => ?_, h.stage⟩
  · by_cases heq : u = t
    · rw [heq, Function.update_self] at hu
      exact absurd hu hnext
    · rw [Function.update_of_ne heq] at hu ⊢
      exact h.inside u hu
  · by_cases hinside : p = .inside
    · exact Option.some.inj
        ((h.inside t (hphase.trans hinside)).symm.trans (hleave hinside))
    · refine h.outside fun u => ?_
      by_cases heq : u = t
      · rw [heq, hphase]
        exact hinside
      · have hu := hout u
        rwa [Function.update_of_ne heq] at hu

omit [DecidableEq τ] in
theorem away (h : OnSocket x lock codes n phase owned body frames) {t : τ}
    (hcode : codes t = none) : phase t = .away := by
  have hposition := h.position t
  rw [hcode] at hposition
  generalize phase t = p at hposition
  cases hposition
  rfl

omit [DecidableEq τ] in
/-- `Enter` of a thread that is away neither nests nor finds itself the owner. -/
theorem plain_enter (h : OnSocket x lock codes n phase owned body frames)
    {t : τ} (haway : phase t = .away) : lock.Plain (.enter t .write) := by
  refine ⟨rfl, ?_⟩
  rw [h.lock.threads, haway]
  rfl

/-- `Enter` at the start of a call. -/
theorem enter (h : OnSocket x lock codes n phase owned body frames) {t : τ}
    (hcode : codes t = none) {code : List (SendStmt P)} (hbegins : Begins code)
    (hstep : lock.step (.enter t .write) = some lock') :
    ∃ phase', OnSocket x lock' (Function.update codes t (some code)) n phase'
      owned body frames := by
  have haway := h.away hcode
  have hlock := (h.lock.of_step (h.plain_enter haway) hstep).2.2
  change lock'.WritePhased (Function.update phase t (phase t).next) at hlock
  rw [haway] at hlock
  exact h.passes haway (by simp) hlock (Position.entering hbegins) (by simp)

/-- A later step of `Enter`, or a step of `Leave`. -/
theorem lockStep (h : OnSocket x lock codes n phase owned body frames) {t : τ}
    {code : List (SendStmt P)} (hcode : codes t = some code) {l : SyncStep τ}
    (hl : l = .advance t ∨ l = .leave t ∧ code = [])
    (hstep : lock.step l = some lock') :
    (lock'.threads t = {} → code = []) ∧
      ∃ phase' body', onlyFrees body' = onlyFrees body ∧
        OnSocket x lock'
          (Function.update codes t
            (if lock'.threads t = {} then none else some code))
          n phase' owned body' frames := by
  have hplain : lock.Plain l := by
    rcases hl with rfl | ⟨rfl, -⟩ <;> trivial
  obtain rfl : l.thread = t := by
    rcases hl with rfl | ⟨rfl, -⟩ <;> rfl
  obtain ⟨hlabel, -, hlock⟩ := h.lock.of_step hplain hstep
  generalize l.thread = t at hcode hl hlabel hlock ⊢
  have hposition := h.position t
  have hthread := hlock.threads t
  rw [hcode] at hposition
  rw [Function.update_self] at hthread
  generalize hphase : phase t = p at hlabel hlock hposition hthread
  rw [hthread]
  cases hposition with
  | entering hbegins =>
      refine ⟨fun heq => (by cases heq), ?_⟩
      obtain ⟨phase', h'⟩ := h.passes hphase (by simp) hlock
        (Position.granted hbegins) (by simp)
      exact ⟨phase', body, rfl, h'⟩
  | granted hbegins =>
      refine ⟨fun heq => (by cases heq), ?_⟩
      obtain ⟨code', -, hfrees, h'⟩ := h.granted hphase hlock
      have hsame : Function.update codes t (some code) = codes := by
        rw [← hcode, Function.update_eq_self]
      rw [← hsame] at h'
      exact ⟨_, code', hfrees, h'⟩
  | inside =>
      rcases hl with rfl | ⟨rfl, rfl⟩
      · cases hlabel
      · refine ⟨fun _ => rfl, ?_⟩
        obtain ⟨phase', h'⟩ := h.passes hphase (by simp) hlock
          Position.unlocking fun _ => hcode
        exact ⟨phase', body, rfl, h'⟩
  | unlocking =>
      refine ⟨fun _ => rfl, ?_⟩
      obtain ⟨phase', h'⟩ := h.passes hphase (by simp) hlock Position.leaving
        (by simp)
      exact ⟨phase', body, rfl, h'⟩
  | leaving =>
      refine ⟨fun _ => rfl, ?_⟩
      obtain ⟨phase', h'⟩ := h.passes hphase (by simp) hlock Position.away
        (by simp)
      exact ⟨phase', body, rfl, h'⟩

/-- A statement of a body. -/
theorem exec [LawfulPacketPools H P]
    (h : OnSocket x lock codes n phase owned body frames) {t : τ}
    {a : SendStmt P} {pushed rest : List (SendStmt P)} {n' : ℕ}
    (hcode : codes t = some (a :: rest)) (hpc : (lock.threads t).pc = .idle)
    (hlive : ∀ p ∈ owned, p ∈ x.live) (hsuits : a.Suits x)
    (hexec : a.exec true x = some (x', pushed))
    (hn : n' + (completing (a :: rest)).toNat =
      n + (completing (pushed ++ rest)).toNat)
    (hcount : (completing (a :: rest)).toNat ≤ n) :
    body = a :: rest ∧ ∃ owned', Moves x x' owned owned' ∧
      SendStage.Balances owned owned' a rest (pushed ++ rest) ∧
      OnSocket x' lock (Function.update codes t (some (pushed ++ rest))) n'
        phase owned' (pushed ++ rest) (frames ++ a.takes.toList) := by
  have hinside : phase t = .inside := by
    have hposition := h.position t
    rw [h.lock.threads] at hpc
    rw [hcode] at hposition
    generalize phase t = p at hpc hposition
    cases hposition with
    | inside => rfl
    | entering | granted => cases hpc
  obtain rfl : a :: rest = body :=
    Option.some.inj (hcode.symm.trans (h.inside t hinside))
  obtain ⟨owned', hmoves, hbalances, hstage⟩ :=
    h.stage.exec hlive hsuits hexec hn hcount
  refine ⟨rfl, owned', hmoves, hbalances, h.lock, fun u => ?_,
    fun u hu => ?_, fun hout => ?_, hstage⟩
  · have hupdate := h.position_update (t := t)
      (Position.inside (pushed ++ rest)) u
    rwa [← hinside, Function.update_eq_self] at hupdate
  · by_cases heq : u = t
    · rw [heq, Function.update_self]
    · exact absurd hu (h.not_inside (by rw [hinside]; rfl) heq)
  · exact absurd hinside (hout t)

/-- A thread that is not in a body waits for one that has the mutex, or goes on. -/
theorem goes_or_waits (h : OnSocket x lock codes n phase owned body frames)
    {t : τ} {code : List (SendStmt P)} (hcode : codes t = some code) :
    (phase t = .inside ∧ code = body) ∨
      ((lock.threads t).pc ≠ .idle ∧ lock.step (.advance t) ≠ none) ∨
      ((lock.threads t).pc = .wantMutex .write ∧ ∃ u code', u ≠ t ∧
        codes u = some code' ∧ SyncThreads.Has .write (lock.threads u)) := by
  have hposition := h.position t
  have hthread := h.lock.threads t
  have hstep := @SyncThreads.WritePhased.step_next _ _ _ _ h.lock t
  rw [hcode] at hposition
  generalize hphase : phase t = p at hposition hthread hstep
  rw [hthread]
  cases hposition with
  | inside =>
      refine Or.inl ⟨rfl, ?_⟩
      exact Option.some.inj (hcode.symm.trans (h.inside t hphase))
  | granted | unlocking | leaving =>
      refine Or.inr (Or.inl ⟨by simp [SectionPhase.thread], ?_⟩)
      exact hstep (by simp)
  | entering =>
      rcases h.lock.granted_or_held hphase with hgranted | ⟨u, hholds⟩
      · refine Or.inr (Or.inl ⟨by simp [SectionPhase.thread], ?_⟩)
        exact hgranted
      · refine Or.inr (Or.inr ⟨rfl, u, ?_⟩)
        have hne : u ≠ t := by
          rintro rfl
          rw [hphase] at hholds
          cases hholds
        have hposition := h.position u
        rw [h.lock.threads u, SyncThreads.has_thread]
        generalize codes u = code', phase u = q at hposition hholds
        cases hposition with
        | away | entering | leaving => cases hholds
        | granted | inside | unlocking => exact ⟨_, hne, rfl, hholds⟩

end

/-- What others do on other sockets. -/
theorem congr (h : OnSocket x lock codes n phase owned body frames)
    (hsocket : x'.socket = x.socket)
    (hsame : ∀ p ∈ owned, packet x'.pools p = packet x.pools p) :
    OnSocket x' lock codes n phase owned body frames :=
  ⟨h.lock, h.position, h.inside, h.outside, h.stage.congr hsocket hsame⟩

end OnSocket

end

end DokeviNet
