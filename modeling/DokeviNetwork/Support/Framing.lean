import Mathlib.Data.List.Basic

/-!
# Length-prefixed framing

A stream is cut into frames by a length field in the first `hdr` cells of what is
left: the frame has that many cells, header included.  `Splits` is the one-shot
splitter as a relation, and its derivations are exactly its terminating runs.
`Taken` is what an incremental receiver has done so far.  It survives further
input, and once no complete frame is left it is the result of the one-shot
splitter, so the frames do not depend on how the stream arrived.
-/

namespace Framing

variable {α : Type*}

/-- Splitting `s` yields `frames` and leaves `rest`, which starts no complete
frame. -/
inductive Splits (hdr : ℕ) (len : List α → ℕ) :
    List α → List (List α) → List α → Prop
  | stuck {s : List α} (h : s.length < hdr ∨ s.length < len s) :
      Splits hdr len s [] s
  | frame {s : List α} {frames : List (List α)} {rest : List α}
      (hhdr : hdr ≤ s.length) (hlen : len s ≤ s.length)
      (htail : Splits hdr len (s.drop (len s)) frames rest) :
      Splits hdr len s (s.take (len s) :: frames) rest

/-- The splitter reads the length field `n` somewhere in `s`. -/
inductive Reads (hdr : ℕ) (len : List α → ℕ) : List α → ℕ → Prop
  | here {s : List α} (hhdr : hdr ≤ s.length) : Reads hdr len s (len s)
  | later {s : List α} {n : ℕ} (hhdr : hdr ≤ s.length)
      (hlen : len s ≤ s.length) (htail : Reads hdr len (s.drop (len s)) n) :
      Reads hdr len s n

/-- Cutting frames off the front of `s` leaves `rest` at some point. -/
inductive Reaches (hdr : ℕ) (len : List α → ℕ) : List α → List α → Prop
  | here {s : List α} : Reaches hdr len s s
  | later {s rest : List α} (hhdr : hdr ≤ s.length) (hlen : len s ≤ s.length)
      (htail : Reaches hdr len (s.drop (len s)) rest) : Reaches hdr len s rest

/-- The length field is read off the first `hdr` cells alone. -/
def HeaderOnly (hdr : ℕ) (len : List α → ℕ) : Prop :=
  ∀ s t : List α, hdr ≤ s.length → len (s ++ t) = len s

section

variable {hdr : ℕ} {len : List α → ℕ}

theorem Splits.unique {s rest rest' : List α} {frames frames' : List (List α)}
    (h : Splits hdr len s frames rest)
    (h' : Splits hdr len s frames' rest') :
    frames = frames' ∧ rest = rest' := by
  induction h generalizing frames' rest' with
  | stuck hstuck =>
      cases h' with
      | stuck => exact ⟨rfl, rfl⟩
      | frame hhdr hlen => omega
  | frame hhdr hlen _ ih =>
      cases h' with
      | stuck hstuck => omega
      | frame _ _ htail' =>
          obtain ⟨rfl, rfl⟩ := ih htail'
          exact ⟨rfl, rfl⟩

/-- What is read in a prefix is read in the whole stream. -/
theorem Reads.append (hheader : HeaderOnly hdr len) {s : List α} {n : ℕ}
    (h : Reads hdr len s n) (t : List α) : Reads hdr len (s ++ t) n := by
  induction h with
  | @here s hhdr =>
      rw [← hheader s t hhdr]
      exact Reads.here (by rw [List.length_append]; omega)
  | @later s n hhdr hlen _ ih =>
      have hsame : len (s ++ t) = len s := hheader s t hhdr
      refine Reads.later ?_ ?_ ?_
      · rw [List.length_append]
        omega
      · rw [hsame, List.length_append]
        omega
      · rw [hsame, List.drop_append_of_le_length hlen]
        exact ih

/-- The length fields read are those of the frames, and the one that the rest
starts with. -/
theorem Splits.reads_cases {s rest : List α} {frames : List (List α)} {n : ℕ}
    (h : Splits hdr len s frames rest) (hread : Reads hdr len s n) :
    (∃ f ∈ frames, f.length = n) ∨ hdr ≤ rest.length := by
  induction h with
  | stuck hstuck =>
      cases hread with
      | here hhdr => exact Or.inr hhdr
      | later hhdr => exact Or.inr hhdr
  | @frame s frames rest hhdr hlen _ ih =>
      cases hread with
      | here =>
          refine Or.inl ⟨_, List.mem_cons_self, ?_⟩
          rw [List.length_take, Nat.min_eq_left hlen]
      | later _ _ hread =>
          rcases ih hread with ⟨f, hf, hn⟩ | hrest
          · exact Or.inl ⟨f, List.mem_cons_of_mem _ hf, hn⟩
          · exact Or.inr hrest

/-- The splitter only ends on streams in which it reads no zero. -/
theorem Splits.reads_ne_zero {s rest : List α} {frames : List (List α)} {n : ℕ}
    (h : Splits hdr len s frames rest) (hread : Reads hdr len s n) : n ≠ 0 := by
  induction h with
  | stuck hstuck =>
      cases hread with
      | here => omega
      | later => omega
  | @frame s frames rest hhdr hlen _ ih =>
      cases hread with
      | here =>
          intro hzero
          have hsame : s.drop (len s) = s := by rw [hzero, List.drop_zero]
          rw [hsame] at ih
          exact ih (Reads.here hhdr) hzero
      | later _ _ hread => exact ih hread

/-! ## Splitting one frame at a time -/

/-- A receiver of `s` has taken `frames` off its front and still has the cells
`pending`. -/
inductive Taken (hdr : ℕ) (len : List α → ℕ) (s : List α) :
    List (List α) → List α → Prop
  | none : Taken hdr len s [] s
  | frame {frames : List (List α)} {pending : List α}
      (hbefore : Taken hdr len s frames pending)
      (hhdr : hdr ≤ pending.length) (hlen : len pending ≤ pending.length) :
      Taken hdr len s (frames ++ [pending.take (len pending)])
        (pending.drop (len pending))

/-- Further input goes behind what is pending. -/
theorem Taken.append (hheader : HeaderOnly hdr len) {s pending : List α}
    {frames : List (List α)} (h : Taken hdr len s frames pending)
    (t : List α) : Taken hdr len (s ++ t) frames (pending ++ t) := by
  induction h with
  | none => exact Taken.none
  | @frame frames pending _ hhdr hlen ih =>
      have hsame : len (pending ++ t) = len pending := hheader pending t hhdr
      have hnext := Taken.frame ih
        (by rw [List.length_append]; omega)
        (by rw [hsame, List.length_append]; omega)
      rwa [hsame, List.take_append_of_le_length hlen,
        List.drop_append_of_le_length hlen] at hnext

/-- To split `s` it remains to split what is pending. -/
theorem Taken.splits {s pending rest : List α} {frames more : List (List α)}
    (h : Taken hdr len s frames pending)
    (hmore : Splits hdr len pending more rest) :
    Splits hdr len s (frames ++ more) rest := by
  induction h generalizing more with
  | none => exact hmore
  | @frame frames pending _ hhdr hlen ih =>
      rw [List.append_assoc]
      exact ih (Splits.frame hhdr hlen hmore)

/-- What is read in the pending cells is read in the stream. -/
theorem Taken.reads {s pending : List α} {frames : List (List α)} {n : ℕ}
    (h : Taken hdr len s frames pending) (hread : Reads hdr len pending n) :
    Reads hdr len s n := by
  induction h with
  | none => exact hread
  | frame _ hhdr hlen ih => exact ih (Reads.later hhdr hlen hread)

/-- What the pending cells reach, the stream reaches. -/
theorem Taken.reaches {s pending rest : List α} {frames : List (List α)}
    (h : Taken hdr len s frames pending)
    (hreach : Reaches hdr len pending rest) : Reaches hdr len s rest := by
  induction h with
  | none => exact hreach
  | frame _ hhdr hlen ih => exact ih (Reaches.later hhdr hlen hreach)

/-- What has been taken and what is pending make up the stream. -/
theorem Taken.flatten_append {s pending : List α} {frames : List (List α)}
    (h : Taken hdr len s frames pending) : frames.flatten ++ pending = s := by
  induction h with
  | none => rfl
  | @frame frames pending _ hhdr hlen ih =>
      rw [List.flatten_append, List.flatten_singleton, List.append_assoc,
        List.take_append_drop]
      exact ih

/-- The frames taken are all there are once no complete frame is pending. -/
theorem Taken.stuck {s pending : List α} {frames : List (List α)}
    (h : Taken hdr len s frames pending)
    (hstuck : pending.length < hdr ∨ pending.length < len pending) :
    Splits hdr len s frames pending := by
  simpa using h.splits (Splits.stuck hstuck)

/-- What has been taken off a stream is the first part of all its frames, and the
rest of them are those of what is pending. -/
theorem Taken.exists_splits {s pending rest : List α}
    {frames all : List (List α)} (h : Taken hdr len s frames pending)
    (hall : Splits hdr len s all rest) :
    ∃ more, all = frames ++ more ∧ Splits hdr len pending more rest := by
  induction h with
  | none => exact ⟨all, rfl, hall⟩
  | @frame frames pending _ hhdr hlen ih =>
      obtain ⟨more, rfl, hmore⟩ := ih
      cases hmore with
      | stuck hstuck => omega
      | @frame _ tail _ _ _ htail =>
          exact ⟨tail, by rw [List.append_assoc, List.singleton_append], htail⟩

/-- A receiver of the first part of a stream has taken the first of its frames. -/
theorem Taken.prefix_of_splits (hheader : HeaderOnly hdr len)
    {s stream pending rest : List α} {frames all : List (List α)}
    (h : Taken hdr len s frames pending) (hbegin : s <+: stream)
    (hall : Splits hdr len stream all rest) : frames <+: all := by
  obtain ⟨t, rfl⟩ := hbegin
  obtain ⟨more, hmore, -⟩ := (h.append hheader t).exists_splits hall
  exact ⟨more, hmore.symm⟩

/-- Frames that carry their own length split back into themselves. -/
theorem splits_flatten (hheader : HeaderOnly hdr len) (hpos : 0 < hdr)
    {frames : List (List α)}
    (hframes : ∀ f ∈ frames, hdr ≤ f.length ∧ len f = f.length) :
    Splits hdr len frames.flatten frames [] := by
  induction frames with
  | nil => exact Splits.stuck (Or.inl (by simpa using hpos))
  | cons f frames ih =>
      obtain ⟨hhdr, hlen⟩ := hframes f (by simp)
      have hsame : len (f ++ frames.flatten) = f.length := by
        rw [hheader f _ hhdr, hlen]
      have htail : Splits hdr len
          ((f ++ frames.flatten).drop (len (f ++ frames.flatten)))
          frames [] := by
        rw [hsame, List.drop_left]
        exact ih fun g hg => hframes g (by simp [hg])
      have hstep := Splits.frame
        (by rw [List.length_append]; omega)
        (by rw [hsame, List.length_append]; omega) htail
      rwa [hsame, List.take_left] at hstep

end

end Framing
