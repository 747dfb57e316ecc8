import DokeviNetwork.Core.NetworkUtils
import DokeviNetwork.Support.Run

/-!
# What a send queue is for

A socket delivers frames.  It groups them into parcels, each of which fits one
packet and is given to the network as a whole, and it has one parcel with the
network at a time.  A frame that asks for immediate sending travels alone.
There are no pointers here, no shared pools and no other sockets.
-/

namespace DokeviNet

/-- One `Send`: the payload and whether it asks for immediate sending. -/
structure Frame where
  inLen : UInt32
  payload : List UInt8
  immediate : Bool
  length_payload : payload.length = inLen.toNat

/-- The bytes a frame puts on the stream: its length, then its payload. -/
def Frame.bytes (f : Frame) : List UInt8 := sizeBytes f.inLen ++ f.payload

theorem Frame.bytes_length (f : Frame) :
    f.bytes.length = f.inLen.toNat + 4 := by
  rw [Frame.bytes, List.length_append, sizeBytes_length, f.length_payload,
    Nat.add_comm]

/-- The frame of a `Send` of `inLen` bytes at `inData`. -/
def Frame.ofData (inData : Region UInt8) (inLen : UInt32)
    (inImmediateSend : Bool) : Frame where
  inLen := inLen
  payload := inData.read 0 inLen.toNat
  immediate := inImmediateSend
  length_payload := Region.read_length inData 0 inLen.toNat

/-- The frames that share a packet of `capacity` bytes. -/
structure Parcel where
  frames : List Frame
  capacity : ℕ
  fits : (frames.flatMap Frame.bytes).length ≤ capacity
  alone : ∀ f ∈ frames, f.immediate = true → frames = [f]

namespace Parcel

/-- The bytes given to the network for a parcel. -/
def bytes (p : Parcel) : List UInt8 := p.frames.flatMap Frame.bytes

/-- A parcel for one frame. -/
def single (f : Frame) (capacity : ℕ) (hfits : f.bytes.length ≤ capacity) :
    Parcel where
  frames := [f]
  capacity := capacity
  fits := by simpa using hfits
  alone g hg _ := by rw [List.mem_singleton.mp hg]

/-- Neither the frame nor those already inside travel alone, and it fits. -/
def CanTake (p : Parcel) (f : Frame) : Prop :=
  f.immediate = false ∧ (∀ g ∈ p.frames, g.immediate = false) ∧
    p.bytes.length + f.bytes.length ≤ p.capacity

instance (p : Parcel) (f : Frame) : Decidable (p.CanTake f) :=
  inferInstanceAs (Decidable (_ ∧ _))

/-- A parcel with one more frame. -/
def push (p : Parcel) (f : Frame) (h : p.CanTake f) : Parcel where
  frames := p.frames ++ [f]
  capacity := p.capacity
  fits := by
    rw [List.flatMap_append, List.length_append, List.flatMap_singleton]
    exact h.2.2
  alone g hg himmediate := by
    rcases List.mem_append.mp hg with hg | hg
    · rw [h.2.1 g hg] at himmediate
      cases himmediate
    · rw [List.mem_singleton.mp hg, h.1] at himmediate
      cases himmediate

@[simp] theorem single_bytes {f : Frame} {capacity : ℕ}
    (hfits : f.bytes.length ≤ capacity) :
    (single f capacity hfits).bytes = f.bytes := by
  simp [bytes, single]

@[simp] theorem push_bytes {p : Parcel} {f : Frame} (h : p.CanTake f) :
    (p.push f h).bytes = p.bytes ++ f.bytes := by
  simp [bytes, push]

end Parcel

/-- A frame joins the last waiting parcel if that can take it, and gets a parcel
of its own behind the others if not. -/
def enqueue (f : Frame) (capacity : ℕ) : List Parcel → Option (List Parcel)
  | [] =>
    if h : f.bytes.length ≤ capacity then some [Parcel.single f capacity h]
    else none
  | [last] =>
    if h : last.CanTake f then some [last.push f h]
    else (enqueue f capacity []).map (last :: ·)
  | p :: q :: waiting =>
    (enqueue f capacity (q :: waiting)).map (p :: ·)

theorem enqueue_take {f : Frame} {capacity : ℕ} {front : List Parcel}
    {last : Parcel} (h : last.CanTake f) :
    enqueue f capacity (front ++ [last]) = some (front ++ [last.push f h]) := by
  induction front with
  | nil => simp [enqueue, h]
  | cons p front ih =>
      cases front with
      | nil => simpa [enqueue] using ih
      | cons q front => simpa [enqueue] using ih

theorem enqueue_single {f : Frame} {capacity : ℕ} {waiting : List Parcel}
    (hno : ∀ last, waiting.getLast? = some last → ¬last.CanTake f)
    (hfits : f.bytes.length ≤ capacity) :
    enqueue f capacity waiting =
      some (waiting ++ [Parcel.single f capacity hfits]) := by
  induction waiting with
  | nil => simp [enqueue, hfits]
  | cons p waiting ih =>
      cases waiting with
      | nil => simp [enqueue, hfits, hno p rfl]
      | cons q waiting =>
          have hrest := ih fun last hlast => hno last (by simpa using hlast)
          simp [enqueue, hrest]

/-- Whichever way it goes, the frame is behind all others. -/
theorem enqueue_frames {f : Frame} {capacity : ℕ} {waiting after : List Parcel}
    (h : enqueue f capacity waiting = some after) :
    after.flatMap Parcel.frames = waiting.flatMap Parcel.frames ++ [f] := by
  induction waiting generalizing after with
  | nil =>
      by_cases hfits : f.bytes.length ≤ capacity
      · simp only [enqueue, hfits, dite_true, Option.some.injEq] at h
        simp [← h, Parcel.single]
      · simp [enqueue, hfits] at h
  | cons p waiting ih =>
      cases waiting with
      | nil =>
          by_cases htake : p.CanTake f
          · simp only [enqueue, htake, dite_true, Option.some.injEq] at h
            simp [← h, Parcel.push]
          · simp only [enqueue, htake, dite_false] at h
            obtain ⟨rest, hrest, rfl⟩ := Option.map_eq_some_iff.mp h
            simpa using ih hrest
      | cons q waiting =>
          obtain ⟨rest, hrest, rfl⟩ := Option.map_eq_some_iff.mp h
          simpa using ih hrest

/-- A socket: the parcels whose sending is complete, and those behind them, of
which the first is with the network. -/
structure ParcelQueue where
  sent : List Parcel
  queue : List Parcel

/-- What the queue does on its own account. -/
inductive QueueEvent
  | send (f : Frame)
  | complete

namespace ParcelQueue

def empty : ParcelQueue where
  sent := []
  queue := []

/-- The parcels given to the network so far. -/
def handed (q : ParcelQueue) : List Parcel := q.sent ++ q.queue.head?.toList

/-- All frames taken so far, in order. -/
def frames (q : ParcelQueue) : List Frame :=
  (q.sent ++ q.queue).flatMap Parcel.frames

/-- Take a frame; the parcel with the network is closed. -/
def send (q : ParcelQueue) (f : Frame) (capacity : ℕ) : Option ParcelQueue :=
  match q.queue with
  | [] => (enqueue f capacity []).map fun queue => { q with queue := queue }
  | head :: waiting =>
    (enqueue f capacity waiting).map fun waiting =>
      { q with queue := head :: waiting }

/-- The parcel with the network is sent. -/
def complete (q : ParcelQueue) : Option ParcelQueue :=
  match q.queue with
  | [] => none
  | head :: waiting => some { sent := q.sent ++ [head], queue := waiting }

/-- One event, on packets whose capacity is a function of the payload's
length. -/
def step (capacity : UInt32 → ℕ) (q : ParcelQueue) :
    QueueEvent → Option ParcelQueue
  | .send f => q.send f (capacity f.inLen)
  | .complete => q.complete

theorem handed_append_tail (q : ParcelQueue) :
    q.handed ++ q.queue.tail = q.sent ++ q.queue := by
  rw [handed, List.append_assoc]
  cases q.queue <;> rfl

/-- A frame is taken behind all frames taken before. -/
theorem send_frames {q q' : ParcelQueue} {f : Frame} {capacity : ℕ}
    (h : q.send f capacity = some q') : q'.frames = q.frames ++ [f] := by
  unfold send at h
  split at h
  · next hqueue =>
    obtain ⟨queue, hqueue', rfl⟩ := Option.map_eq_some_iff.mp h
    simp [frames, hqueue, enqueue_frames hqueue']
  · next head waiting hqueue =>
    obtain ⟨waiting', hwaiting, rfl⟩ := Option.map_eq_some_iff.mp h
    simp [frames, hqueue, enqueue_frames hwaiting]

/-- Completing changes no frame. -/
theorem complete_frames {q q' : ParcelQueue} (h : q.complete = some q') :
    q'.frames = q.frames := by
  unfold complete at h
  split at h
  · cases h
  · next head waiting hqueue =>
    obtain rfl := Option.some.inj h
    simp [frames, hqueue]

/-- The frames that the events bring. -/
def newFrames (events : List QueueEvent) : List Frame :=
  events.filterMap fun
    | .send f => some f
    | .complete => none

theorem newFrames_append (events more : List QueueEvent) :
    newFrames (events ++ more) = newFrames events ++ newFrames more :=
  List.filterMap_append

/-- Whatever the capacities, the frames are those that were brought, in
order. -/
theorem run_frames {capacity : UInt32 → ℕ} {q q' : ParcelQueue}
    {events : List QueueEvent}
    (hrun : LabelledRun.run (step capacity) q events = some q') :
    q'.frames = q.frames ++ newFrames events := by
  induction events generalizing q with
  | nil => simp [newFrames, Option.some.inj hrun]
  | cons event events ih =>
      obtain ⟨next, hstep, hrest⟩ := Option.bind_eq_some_iff.mp hrun
      rw [ih hrest]
      cases event with
      | send f =>
          rw [send_frames hstep]
          simp [newFrames]
      | complete =>
          rw [complete_frames hstep]
          simp [newFrames]

end ParcelQueue

end DokeviNet
