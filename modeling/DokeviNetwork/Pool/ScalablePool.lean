import DokeviNetwork.Core.NetworkUtils
import DokeviNetwork.Support.Run
import Mathlib.Data.List.AList
import Mathlib.Logic.Function.Basic

/-!
# The growing pool of raw blocks

`ScalablePool` hands out blocks of memory, each a header of three `int`s and
then the bytes of the caller.  It numbers the blocks: new numbers come from
`_allocIndex`, pushed back ones from `_freeIndex`.  When the numbers run out
it allocates a region twice as large, a new generation, and leaves the blocks
that are out in the regions of the older ones.

Addresses are numbers.  Where `malloc` puts a region is up to the system, as
long as it overlaps no region that is still allocated; it does not fail.
`size_t` has the width of the platform, `unsigned int` has 32 bits on both.
-/

namespace DokeviNet

/-- The platforms the project is built for. -/
inductive Platform
  | win32
  | x64
  deriving DecidableEq

/-- One more than the largest `size_t`. -/
def Platform.sizeMod : Platform → ℕ
  | win32 => 2 ^ 32
  | x64 => 2 ^ 64

/-- The fields of `ScalablePool`.  The last entry of `freeIndex` is the back of
the vector.  The maps of the generations hold 0 where the code has stored
nothing. -/
structure ScalablePool where
  data : ℕ
  size : UInt32
  allocSize : UInt32
  allocIndex : UInt32
  useSize : UInt32
  freeIndex : List UInt32
  usedIndex : AList fun _ : ℕ => UInt32
  memCheckArray : UInt32 → ℕ
  generationFree : UInt32 → UInt32
  curGeneration : UInt32

namespace ScalablePool

/-- The argument of `malloc` for a region of `allocSize` blocks. -/
def regionSize (platform : Platform) (size allocSize : UInt32) : ℕ :=
  ((size.toNat + 4 * 3) * allocSize.toNat) % platform.sizeMod

/-- `Init`, on a new object; `data` is what `malloc` returns. -/
def init (inSize inAllocSize : UInt32) (data : ℕ) : ScalablePool where
  data := data
  size := inSize
  allocSize := inAllocSize
  allocIndex := 0
  useSize := 0
  freeIndex := []
  usedIndex := ∅
  memCheckArray := Function.update (fun _ => 0) 0 data
  generationFree := Function.update (fun _ => 0) 0 inAllocSize
  curGeneration := 0

/-- `IncreaseSize`; `newData` is what `malloc` returns. -/
def increaseSize (pool : ScalablePool) (newData : ℕ) : ScalablePool :=
  let allocSize := pool.allocSize * 2
  let curGeneration := pool.curGeneration + 1
  { pool with
    data := newData
    allocSize := allocSize
    curGeneration := curGeneration
    memCheckArray := Function.update pool.memCheckArray curGeneration newData
    generationFree :=
      Function.update pool.generationFree curGeneration allocSize }

/-- The number `Pop` gives to the next block. -/
def nextIndex (pool : ScalablePool) : UInt32 :=
  pool.freeIndex.getLast?.getD pool.allocIndex

/-- `Pop` calls `IncreaseSize`. -/
def grows (pool : ScalablePool) : Bool :=
  pool.freeIndex.isEmpty && decide (pool.allocIndex + 1 > pool.allocSize)

/-- The first part of `Pop`: take a number, and grow if there are none left. -/
def takeIndex (pool : ScalablePool) (newData : ℕ) : ScalablePool :=
  if pool.freeIndex.isEmpty then
    let pool := { pool with allocIndex := pool.allocIndex + 1 }
    if pool.allocIndex > pool.allocSize then pool.increaseSize newData
    else pool
  else { pool with freeIndex := pool.freeIndex.dropLast }

/-- `_data + (allocIndex * _size)`; the product is one of `unsigned int`s. -/
def blockAddress (pool : ScalablePool) (allocIndex : UInt32) : ℕ :=
  pool.data + (allocIndex * pool.size).toNat

/-- The bookkeeping of `Pop` for the block at `allocMem`. -/
def recordUse (pool : ScalablePool) (allocMem : ℕ) (allocIndex : UInt32) :
    ScalablePool :=
  { pool with
    usedIndex := pool.usedIndex.insert allocMem allocIndex
    useSize := pool.useSize + 1 }

/-- What `Push` puts on `_freeIndex`; a pointer that is not in `_usedIndex` is
entered there with 0. -/
def pushedIndex (pool : ScalablePool) (inFreePtr : ℕ) : UInt32 :=
  (pool.usedIndex.lookup inFreePtr).getD 0

/-- `Push`, without the call of `free`. -/
def push (pool : ScalablePool) (inFreePtr : ℕ) (inGeneration : UInt32) :
    ScalablePool :=
  { pool with
    freeIndex := pool.freeIndex ++ [pool.pushedIndex inFreePtr]
    usedIndex := pool.usedIndex.erase inFreePtr
    generationFree :=
      if inGeneration ≠ pool.curGeneration then
        Function.update pool.generationFree inGeneration
          (pool.generationFree inGeneration - 1)
      else pool.generationFree
    useSize := pool.useSize - 1 }

/-- `Push` frees the region of the generation. -/
def frees (pool : ScalablePool) (inGeneration : UInt32) : Bool :=
  decide (inGeneration ≠ pool.curGeneration ∧
    pool.generationFree inGeneration - 1 = 0)

end ScalablePool

/-- A region that `malloc` returned, and the generation it was asked for. -/
structure HeapRegion where
  generation : UInt32
  base : ℕ
  len : ℕ

/-- A block that `Pop` returned: its address, its number, and its header. -/
structure PoolBlock where
  addr : ℕ
  index : UInt32
  inSize : UInt32
  thread : UInt32
  generation : UInt32
  deriving DecidableEq

namespace PoolBlock

/-- The three `int`s in front of a block. -/
def header (b : PoolBlock) : List UInt8 :=
  sizeBytes b.inSize ++ sizeBytes b.thread ++ sizeBytes b.generation

/-- The bytes of a block, its header included. -/
def bytes (b : PoolBlock) : ℕ := 12 + b.inSize.toNat

/-- The pointer that `Pop` returns. -/
def pointer (b : PoolBlock) : ℕ := b.addr + 12

@[simp] theorem header_length (b : PoolBlock) : b.header.length = 12 := rfl

end PoolBlock

/-- A pool, the memory, the regions allocated, and as a history variable the
blocks popped and not pushed since. -/
structure PoolWorld where
  pool : ScalablePool
  memory : Region UInt8
  regions : List HeapRegion
  outstanding : List PoolBlock

/-- A call on the pool, or a write of a caller to its block.  `newData` is
where `malloc` puts the new region if the call needs one. -/
inductive ScalableOp
  | pop (inSize thread : UInt32) (newData : ℕ)
  | push (b : PoolBlock)
  | write (b : PoolBlock) (off : ℕ) (data : List UInt8)

/-- A call on the pool.  A `Pop` may be given any size; what its caller writes
is not followed. -/
inductive ScalableCall
  | pop (inSize thread : UInt32) (newData : ℕ)
  | push (b : PoolBlock)
  deriving DecidableEq

namespace PoolWorld

variable (platform : Platform)

/-- A pool after `Init`. -/
def start (inSize inAllocSize : UInt32) (data : ℕ) (memory : Region UInt8) :
    PoolWorld where
  pool := ScalablePool.init inSize inAllocSize data
  memory := memory
  regions :=
    [{ generation := 0, base := data
       len := ScalablePool.regionSize platform inSize inAllocSize }]
  outstanding := []

/-- The region that `malloc` returns to `IncreaseSize`. -/
def newRegion (w : PoolWorld) (newData : ℕ) : HeapRegion where
  generation := w.pool.curGeneration + 1
  base := newData
  len := ScalablePool.regionSize platform w.pool.size (w.pool.allocSize * 2)

/-- The first part of `Pop`, with the call of `malloc`; `none` if the system
could not have put a region at `newData`. -/
def takeIndex (w : PoolWorld) (newData : ℕ) : Option PoolWorld :=
  if w.pool.grows then
    if ∀ r ∈ w.regions, Region.Apart r.base r.len newData
        (w.newRegion platform newData).len then
      some { w with
        pool := w.pool.takeIndex newData
        regions := w.regions ++ [w.newRegion platform newData] }
    else none
  else some { w with pool := w.pool.takeIndex newData }

/-- The block with the given number in the current generation. -/
def newBlock (w : PoolWorld) (allocIndex inSize thread : UInt32) :
    PoolBlock where
  addr := w.pool.blockAddress allocIndex
  index := allocIndex
  inSize := inSize
  thread := thread
  generation := w.pool.curGeneration

/-- The second part of `Pop`: the header is stored at the block's address. -/
def place (w : PoolWorld) (allocIndex inSize thread : UInt32) : PoolWorld :=
  let b := w.newBlock allocIndex inSize thread
  { w with
    pool := w.pool.recordUse b.addr allocIndex
    memory := w.memory.write b.addr b.header
    outstanding := w.outstanding ++ [b] }

/-- `Pop` of at most the size the pool was made for. -/
def pop (w : PoolWorld) (inSize thread : UInt32) (newData : ℕ) :
    Option PoolWorld :=
  if inSize ≤ w.pool.size then
    (w.takeIndex platform newData).map fun w' =>
      w'.place w.pool.nextIndex inSize thread
  else none

/-- `Push` of an outstanding block with the generation it was popped in. -/
def push (w : PoolWorld) (b : PoolBlock) : Option PoolWorld :=
  if b ∈ w.outstanding then
    some { w with
      pool := w.pool.push b.pointer b.generation
      regions :=
        if w.pool.frees b.generation then
          w.regions.filter fun r =>
            decide (r.base ≠ w.pool.memCheckArray b.generation)
        else w.regions
      outstanding := w.outstanding.erase b }
  else none

/-- A write within the bytes of the caller of an outstanding block. -/
def write (w : PoolWorld) (b : PoolBlock) (off : ℕ) (data : List UInt8) :
    Option PoolWorld :=
  if b ∈ w.outstanding ∧ off + data.length ≤ b.inSize.toNat then
    some { w with memory := w.memory.write (b.pointer + off) data }
  else none

def step (w : PoolWorld) : ScalableOp → Option PoolWorld
  | .pop inSize thread newData => w.pop platform inSize thread newData
  | .push b => w.push b
  | .write b off data => w.write b off data

/-- The outstanding blocks do not overlap, each lies in the region of its
generation, and each header is as `Pop` stored it. -/
structure Separate (w : PoolWorld) : Prop where
  disjoint : w.outstanding.Pairwise fun b b' =>
    Region.Apart b.addr b.bytes b'.addr b'.bytes
  inside : ∀ b ∈ w.outstanding, ∃ r ∈ w.regions,
    r.generation = b.generation ∧
      r.base = w.pool.memCheckArray b.generation ∧
      r.base ≤ b.addr ∧ b.addr + b.bytes ≤ r.base + r.len
  headers : ∀ b ∈ w.outstanding, w.memory.read b.addr 12 = b.header

/-- A `Pop` that does not grow takes a number that is far enough from those
of the outstanding blocks of the generation, counting the header of the
lower one. -/
def Clear (w : PoolWorld) : ScalableOp → Prop
  | .pop inSize _ _ => inSize ≤ w.pool.size → w.pool.grows = false →
      ∀ b ∈ w.outstanding, b.generation = w.pool.curGeneration →
        Region.FarApart w.pool.size.toNat b.index.toNat b.bytes
          w.pool.nextIndex.toNat (12 + inSize.toNat)
  | _ => True

/-- The size computations of `Pop` do not overflow: neither the offset of the
block, nor the number of blocks of the next generation and its size. -/
def Fits (w : PoolWorld) : ScalableOp → Prop
  | .pop _ _ _ =>
    w.pool.nextIndex.toNat * w.pool.size.toNat < 2 ^ 32 ∧
      (w.pool.freeIndex = [] → w.pool.allocIndex = w.pool.allocSize →
        2 * w.pool.allocSize.toNat < 2 ^ 32 ∧
          (w.pool.size.toNat + 12) * (2 * w.pool.allocSize.toNat) <
            platform.sizeMod)
  | _ => True

instance (w : PoolWorld) : ∀ op, Decidable (w.Clear op)
  | .pop _ _ _ => inferInstanceAs (Decidable (_ → _ → ∀ b ∈ w.outstanding,
      b.generation = w.pool.curGeneration → Region.FarApart _ _ _ _ _))
  | .push _ => isTrue trivial
  | .write _ _ _ => isTrue trivial

instance (w : PoolWorld) : ∀ op, Decidable (w.Fits platform op)
  | .pop _ _ _ => inferInstanceAs (Decidable (_ ∧ (_ → _ → _ ∧ _)))
  | .push _ => isTrue trivial
  | .write _ _ _ => isTrue trivial

/-- One call, with a `Pop` of any size. -/
def call (w : PoolWorld) : ScalableCall → Option PoolWorld
  | .pop inSize thread newData =>
    (w.takeIndex platform newData).map fun w' =>
      w'.place w.pool.nextIndex inSize thread
  | .push b => w.push b

end PoolWorld

end DokeviNet
