import DokeviNetwork.Receive.DeserializePacket

/-!
# The receive loop of the client

`IndependentNetworkClient::RecvPacket` runs in a thread of its own.  Before
each `recv` it tests `_disconnect`, which only `Disconnect` sets, and it
breaks when `recv` returns -1.  Any other result, 0 included, goes to
`DeserializePacket`, which copies it behind what `_packetBuffer` holds without
a test: what a copy past the end, into `_curOffset` and `_bufferSize`, leads to
is not followed.  The tests and the results are numbered from 0.
-/

namespace DokeviNet

/-- What `recv` returns: -1, or the bytes received, none once the peer has
closed the connection. -/
inductive RecvResult
  | socketError
  | received (chunk : Chunk)

/-- `receiveBytes` is positive. -/
def RecvResult.IsData : RecvResult → Prop
  | .socketError => False
  | .received chunk => chunk.size ≠ 0

/-- `recv` has returned 0: the peer has closed the connection. -/
def RecvResult.IsClose : RecvResult → Prop
  | .socketError => False
  | .received chunk => chunk.size = 0

/-- The parser, how many calls of `recv` the loop has made, and whether
something received went past the end of `_packetBuffer`. -/
structure RecvLoop where
  client : IndependentNetworkClient
  recvs : ℕ
  overrun : Bool

namespace IndependentNetworkClient

/-- The loop of `DeserializePacket` ends for every buffer and `_bufferSize`: each
pass takes something off `_curOffset`. -/
theorem deserializePacket_isSome (c : IndependentNetworkClient)
    (chunk : Chunk) {fuel : ℕ} (hfuel : 2 ^ 32 ≤ fuel) :
    (c.deserializePacket fuel chunk).isSome := by
  rw [deserializePacket_eq_loop]
  split
  · rfl
  · have hlt : (c.copyIn chunk).curOffset.toNat < fuel :=
      lt_of_lt_of_le (c.copyIn chunk).curOffset.toNat_lt hfuel
    obtain ⟨c', hloop, -⟩ := @Pass.loop_total _ pass (fun _ => True)
      (fun _ => True) (fun v => v.curOffset.toNat)
      (fun v v' _ hpass => ⟨trivial, curOffset_lt_of_again hpass⟩)
      (fun _ _ _ _ => trivial) _ _ trivial hlt
    exact Option.isSome_of_mem hloop

/-- `DeserializePacket` without a bound on its passes. -/
def deserialized (c : IndependentNetworkClient) (chunk : Chunk) :
    IndependentNetworkClient :=
  (c.deserializePacket (2 ^ 32) chunk).get
    (c.deserializePacket_isSome chunk (le_refl _))

/-- One pass of the loop in `RecvPacket`; an overrun is where the model stops. -/
def recvPass (disconnect : ℕ → Bool) (results : ℕ → RecvResult)
    (s : RecvLoop) : Pass RecvLoop :=
  if disconnect s.recvs then .stop s
  else
    match results s.recvs with
    | .socketError => .stop { s with recvs := s.recvs + 1 }
    | .received chunk =>
      if s.client.HasRoom chunk then
        .again { s with
          client := s.client.deserialized chunk
          recvs := s.recvs + 1 }
      else .stop { s with recvs := s.recvs + 1, overrun := true }

/-- `RecvPacket`. -/
def recvPacket (disconnect : ℕ → Bool) (results : ℕ → RecvResult) (fuel : ℕ)
    (c : IndependentNetworkClient) : Option RecvLoop :=
  Pass.loop (recvPass disconnect results) fuel
    { client := c, recvs := 0, overrun := false }

/-- The parser when `DeserializePacket` has been given the first `k` results. -/
def clientAfter (results : ℕ → RecvResult) (c : IndependentNetworkClient) :
    ℕ → IndependentNetworkClient
  | 0 => c
  | k + 1 =>
    match results k with
    | .socketError => clientAfter results c k
    | .received chunk => (clientAfter results c k).deserialized chunk

/-- Test number `i` finds the flag clear and call number `i` does not fail, for
every `i` below `k`. -/
def OpenUntil (disconnect : ℕ → Bool) (results : ℕ → RecvResult) (k : ℕ) :
    Prop :=
  ∀ i < k, disconnect i = false ∧ results i ≠ .socketError

/-- Whatever the loop receives fits behind what `_packetBuffer` holds then. -/
def FitsBuffer (disconnect : ℕ → Bool) (results : ℕ → RecvResult)
    (c : IndependentNetworkClient) : Prop :=
  ∀ k chunk, OpenUntil disconnect results k → disconnect k = false →
    results k = .received chunk → (clientAfter results c k).HasRoom chunk

/-- The first result that is not data has number `n`; it is an error, or the
peer has closed the connection and `recv` returns 0 from then on. -/
def EndsAt (results : ℕ → RecvResult) (n : ℕ) : Prop :=
  (∀ i < n, (results i).IsData) ∧
    (results n = .socketError ∨ ∀ i, n ≤ i → (results i).IsClose)

/-- The loop returns without a call of `recv` after the one numbered `n`, and
every call of `DeserializePacket` ends, from any parser that has room. -/
def EndsWithConnection (disconnect : ℕ → Bool) (results : ℕ → RecvResult)
    (n : ℕ) (c : IndependentNetworkClient) : Prop :=
  (∃ fuel s, c.recvPacket disconnect results fuel = some s ∧
      s.overrun = false ∧ s.recvs ≤ n + 1) ∧
    ∀ (c : IndependentNetworkClient) (chunk : Chunk), c.HasRoom chunk →
      ∃ fuel, (c.deserializePacket fuel chunk).isSome

/-! ## What a pass can do -/

variable {disconnect : ℕ → Bool} {results : ℕ → RecvResult}
  {c : IndependentNetworkClient}

/-- The loop goes on after data and after a close alike. -/
theorem of_recvPass_again {s s' : RecvLoop}
    (hpass : recvPass disconnect results s = .again s') :
    disconnect s.recvs = false ∧
      ∃ chunk, results s.recvs = .received chunk ∧
        s' = { s with
          client := s.client.deserialized chunk
          recvs := s.recvs + 1 } := by
  unfold recvPass at hpass
  split at hpass
  · cases hpass
  · next hflag =>
    split at hpass
    · cases hpass
    · next chunk hresult =>
      split at hpass
      · obtain rfl := Pass.again.inj hpass
        exact ⟨eq_false_of_ne_true hflag, chunk, hresult, rfl⟩
      · cases hpass

/-- The loop stops at the flag, at an error, or where what it has received does
not fit. -/
theorem of_recvPass_stop {s s' : RecvLoop}
    (hpass : recvPass disconnect results s = .stop s') :
    (disconnect s.recvs = true ∧ s' = s) ∨
      (disconnect s.recvs = false ∧ results s.recvs = .socketError ∧
        s' = { s with recvs := s.recvs + 1 }) ∨
      (disconnect s.recvs = false ∧
        (∃ chunk, results s.recvs = .received chunk ∧
          ¬s.client.HasRoom chunk) ∧
        s' = { s with recvs := s.recvs + 1, overrun := true }) := by
  unfold recvPass at hpass
  split at hpass
  · next hflag =>
    obtain rfl := Pass.stop.inj hpass
    exact Or.inl ⟨hflag, rfl⟩
  · next hflag =>
    split at hpass
    · next hresult =>
      obtain rfl := Pass.stop.inj hpass
      exact Or.inr (Or.inl ⟨eq_false_of_ne_true hflag, hresult, rfl⟩)
    · next chunk hresult =>
      split at hpass
      · cases hpass
      · next hroom =>
        obtain rfl := Pass.stop.inj hpass
        exact Or.inr (Or.inr ⟨eq_false_of_ne_true hflag,
          ⟨chunk, hresult, hroom⟩, rfl⟩)

/-- What every pass finds: no test so far has found the flag set, no call has
failed, and everything received has gone to the parser. -/
structure StillOpen (disconnect : ℕ → Bool) (results : ℕ → RecvResult)
    (c : IndependentNetworkClient) (s : RecvLoop) : Prop where
  isOpen : OpenUntil disconnect results s.recvs
  client : s.client = clientAfter results c s.recvs
  overrun : s.overrun = false

theorem StillOpen.again {s s' : RecvLoop}
    (h : StillOpen disconnect results c s)
    (hpass : recvPass disconnect results s = .again s') :
    StillOpen disconnect results c s' := by
  obtain ⟨hflag, chunk, hresult, rfl⟩ := of_recvPass_again hpass
  constructor
  · intro i hi
    rcases Nat.lt_succ_iff_lt_or_eq.mp hi with hi | rfl
    · exact h.isOpen i hi
    · exact ⟨hflag, by simp [hresult]⟩
  · simp only [clientAfter, hresult, h.client]
  · exact h.overrun

/-- If what is received fits, the loop stops at the flag or at an error. -/
theorem StillOpen.stop {s s' : RecvLoop}
    (h : StillOpen disconnect results c s)
    (hroom : FitsBuffer disconnect results c)
    (hpass : recvPass disconnect results s = .stop s') :
    s'.overrun = false ∧
      ((disconnect s.recvs = true ∧ s'.recvs = s.recvs) ∨
        (disconnect s.recvs = false ∧ s'.recvs = s.recvs + 1)) := by
  rcases of_recvPass_stop hpass with
    ⟨hflag, rfl⟩ | ⟨hflag, -, rfl⟩ | ⟨hflag, ⟨chunk, hresult, hfull⟩, -⟩
  · exact ⟨h.overrun, Or.inl ⟨hflag, rfl⟩⟩
  · exact ⟨h.overrun, Or.inr ⟨hflag, rfl⟩⟩
  · have hfits := hroom s.recvs chunk h.isOpen hflag hresult
    rw [← h.client] at hfits
    exact absurd hfits hfull

/-- If the last result is an error, or the flag is seen in time, the loop
ends. -/
theorem recvPacket_ends {n : ℕ} (hroom : FitsBuffer disconnect results c)
    (hstops : results n = .socketError ∨
      ∃ k ≤ n + 1, disconnect k = true) :
    ∃ s, c.recvPacket disconnect results (n + 3) = some s ∧
      s.overrun = false ∧ s.recvs ≤ n + 1 := by
  -- a pass numbered `n + 1` comes after no error, so it finds the flag set
  have hlast : ∀ s, StillOpen disconnect results c s → s.recvs = n + 1 →
      disconnect s.recvs = true := by
    intro s hopen hrecvs
    rcases hstops with herror | ⟨k, hk, hflag⟩
    · exact absurd herror (hopen.isOpen n (by omega)).2
    · rcases Nat.lt_or_eq_of_le hk with hk | rfl
      · have hclear := (hopen.isOpen k (by omega)).1
        rw [hflag] at hclear
        cases hclear
      · rw [hrecvs]
        exact hflag
  have hbelow : ∀ s, StillOpen disconnect results c s → s.recvs ≤ n + 1 →
      disconnect s.recvs = false → s.recvs < n + 1 := by
    intro s hopen hle hflag
    refine lt_of_le_of_ne hle fun hrecvs => ?_
    rw [hlast s hopen hrecvs] at hflag
    cases hflag
  refine @Pass.loop_total _ (recvPass disconnect results)
    (fun s => StillOpen disconnect results c s ∧ s.recvs ≤ n + 1)
    (fun s => s.overrun = false ∧ s.recvs ≤ n + 1)
    (fun s => n + 2 - s.recvs) ?_ ?_ _ _
    ⟨⟨fun i hi => absurd hi (Nat.not_lt_zero i), rfl, rfl⟩, Nat.zero_le _⟩
    (by simp)
  · rintro s s' ⟨hopen, hle⟩ hpass
    obtain ⟨hflag, chunk, -, rfl⟩ := of_recvPass_again hpass
    have hlt := hbelow s hopen hle hflag
    refine ⟨⟨hopen.again hpass, hlt⟩, ?_⟩
    change n + 2 - (s.recvs + 1) < n + 2 - s.recvs
    omega
  · rintro s s' ⟨hopen, hle⟩ hpass
    obtain ⟨hroom', ⟨-, hrecvs⟩ | ⟨hflag, hrecvs⟩⟩ := hopen.stop hroom hpass
    · exact ⟨hroom', hrecvs ▸ hle⟩
    · exact ⟨hroom', hrecvs ▸ hbelow s hopen hle hflag⟩

/-- Where the loop ends, it has found the flag set or `recv` has failed. -/
theorem of_recvPacket {fuel : ℕ} {s : RecvLoop}
    (hloop : c.recvPacket disconnect results fuel = some s)
    (hfits : s.overrun = false) :
    disconnect s.recvs = true ∨
      ∃ k, s.recvs = k + 1 ∧ results k = .socketError := by
  refine @Pass.loop_partial _ (recvPass disconnect results) (fun _ => True)
    (fun s => s.overrun = false → disconnect s.recvs = true ∨
      ∃ k, s.recvs = k + 1 ∧ results k = .socketError)
    (fun _ _ _ _ => trivial) ?_ _ _ _ trivial hloop hfits
  intro v v' _ hpass hv
  rcases of_recvPass_stop hpass with
    ⟨hflag, rfl⟩ | ⟨-, hresult, rfl⟩ | ⟨-, -, rfl⟩
  · exact Or.inl hflag
  · exact Or.inr ⟨v.recvs, rfl, hresult⟩
  · cases hv

/-- Where everything received fits, the receive loop ends with its connection
exactly when the connection ends with an error, or the flag is set so early
that the test after the first result without data, or one before it, finds it
set. -/
theorem endsWithConnection_iff {n : ℕ} (hends : EndsAt results n)
    (hroom : FitsBuffer disconnect results c) :
    EndsWithConnection disconnect results n c ↔
      results n = .socketError ∨ ∃ k ≤ n + 1, disconnect k = true := by
  constructor
  · rintro ⟨⟨fuel, s, hloop, hfits, hle⟩, -⟩
    rcases of_recvPacket hloop hfits with hflag | ⟨k, hrecvs, hresult⟩
    · exact Or.inr ⟨s.recvs, hle, hflag⟩
    · rcases Nat.lt_or_eq_of_le (by omega : k ≤ n) with hk | rfl
      · have hdata := hends.1 k hk
        rw [hresult] at hdata
        exact hdata.elim
      · exact Or.inl hresult
  · intro hstops
    obtain ⟨s, hloop, hs⟩ := recvPacket_ends hroom hstops
    refine ⟨⟨_, s, hloop, hs⟩, fun c chunk _ => ⟨2 ^ 32, ?_⟩⟩
    exact c.deserializePacket_isSome chunk (le_refl _)

/-- The peer closes at once, and nobody disconnects. -/
def closedAtOnce : ℕ → RecvResult :=
  fun _ => .received { data := fun _ => 0, size := 0 }

/-- With nothing buffered and nothing received, the parser only looks at its
counters. -/
theorem clientAfter_closedAtOnce (k : ℕ) :
    (clientAfter closedAtOnce (start fun _ => 0) k).curOffset = 0 := by
  induction k with
  | zero => rfl
  | succ k ih =>
      have hcopied : ((clientAfter closedAtOnce (start fun _ => 0) k).copyIn
          { data := fun _ => 0, size := 0 }).curOffset = 0 := by
        rw [copyIn, readSize_curOffset, ih]
        rfl
      have hcall := deserializePacket_eq_loop (2 ^ 32)
        (clientAfter closedAtOnce (start fun _ => 0) k)
        { data := fun _ => 0, size := 0 }
      rw [if_pos (hcopied.trans_le (by decide))] at hcall
      change (deserialized (clientAfter closedAtOnce (start fun _ => 0) k)
        { data := fun _ => 0, size := 0 }).curOffset = 0
      rw [deserialized, Option.get_of_eq_some _ hcall, hcopied]

/-- The loop goes on calling `recv` on the closed connection for ever, though
nothing it receives takes any room. -/
theorem closedAtOnce_never_ends :
    EndsAt closedAtOnce 0 ∧
      FitsBuffer (fun _ => false) closedAtOnce (start fun _ => 0) ∧
      ¬EndsWithConnection (fun _ => false) closedAtOnce 0
        (start fun _ => 0) := by
  refine ⟨⟨fun i hi => absurd hi (Nat.not_lt_zero i),
    Or.inr fun _ _ => rfl⟩, ?_, ?_⟩
  · intro k chunk _ _ hresult
    obtain rfl := RecvResult.received.inj hresult
    rw [HasRoom, clientAfter_closedAtOnce]
    exact Nat.zero_le _
  · rintro ⟨⟨fuel, s, hloop, hfits, -⟩, -⟩
    rcases of_recvPacket hloop hfits with hflag | ⟨k, -, hresult⟩
    · cases hflag
    · cases hresult

/-- One byte of data, and then an error. -/
def oneByteThenError (i : ℕ) : RecvResult :=
  if i = 0 then .received { data := fun _ => 0, size := 1 } else .socketError

theorem endsWithConnection_iff_oneByte :
    EndsWithConnection (fun _ => false) oneByteThenError 1
      (start fun _ => 0) := by
  refine (endsWithConnection_iff ⟨?_, Or.inl rfl⟩ ?_).mpr (Or.inl rfl)
  · intro i hi
    obtain rfl : i = 0 := by omega
    exact fun hsize => absurd hsize (by decide)
  · intro k chunk _ _ hresult
    cases k with
    | zero =>
      obtain rfl := RecvResult.received.inj hresult
      change 0 + 1 ≤ 4096
      omega
    | succ k => cases hresult

end IndependentNetworkClient

end DokeviNet
