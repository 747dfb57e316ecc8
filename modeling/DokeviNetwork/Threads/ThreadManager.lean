import DokeviNetwork.Support.Maps
import DokeviNetwork.Support.Wrap
import Mathlib.Tactic.Common

/-!
# The manager of the threads

`ThreadManager` numbers the threads that register and keeps the thread objects
that `TaskRun` makes.  The numbers count up in 16 bits and are stored in a
signed `short`; `_infoMap` has them by thread id.  A registration does not
replace an entry that is there, and a query makes one if there is none.

A thread object is known by its address, a number that is not 0.  The thread
that calls a function is given by its id.
-/

namespace DokeviNet

open EntryMap

/-- `ThreadInfo::THREAD_TYPE`. -/
inductive ThreadType
  | mainThread
  | ioTask
  deriving DecidableEq

/-- `ThreadIndex`. -/
abbrev ThreadIndex := Int16

structure ThreadInfo where
  index : ThreadIndex
  type : ThreadType
  deriving DecidableEq

/-- The `ThreadInfo` that the subscript of a map creates, with all fields 0. -/
def ThreadInfo.zero : ThreadInfo where
  index := 0
  type := .mainThread

/-- The fields of `ThreadManager`. -/
structure ThreadManager (θ : Type*) where
  curThread : UInt16
  count : UInt16
  size : UInt16
  mainThreadId : θ
  infoMap : AList fun _ : θ => ThreadInfo
  threadPool : List ℕ
  released : Bool

namespace ThreadManager

variable {θ : Type*} [DecidableEq θ]

/-- `Initialize`, called by the main thread on a new manager. -/
def initializeBy (mainThread : θ) : ThreadManager θ where
  curThread := 0
  count := 1
  size := 1
  mainThreadId := mainThread
  infoMap := insertNew ∅ mainThread { index := 0, type := .mainThread }
  threadPool := []
  released := false

/-- `TaskRun`; `taskThread` is the address of the new thread object. -/
def taskRun (m : ThreadManager θ) (taskThread : ℕ) : ThreadManager θ :=
  { m with threadPool := m.threadPool ++ [taskThread] }

/-- What both overloads of `RegisterThread` do with the id of a thread: the
index that they return, and the manager afterwards. -/
def register (m : ThreadManager θ) (id : θ) (inType : ThreadType) :
    ThreadIndex × ThreadManager θ :=
  let info : ThreadInfo := { index := m.count.toInt16, type := inType }
  (info.index,
    { m with
      count := m.count + 1
      infoMap := insertNew m.infoMap id info
      size := m.size + 1 })

/-- `RegisterThread` with a thread object, which runs the thread `inThread`. -/
def registerThreadOf (m : ThreadManager θ) (inThread : θ)
    (inType : ThreadType) : ThreadIndex × ThreadManager θ :=
  m.register inThread inType

/-- `RegisterThread` for the calling thread. -/
def registerThread (m : ThreadManager θ) (caller : θ) (inType : ThreadType) :
    ThreadIndex × ThreadManager θ :=
  m.register caller inType

/-- `RemoveThread`; `threadSize` is the size of a thread object.  `none` where
the pool has no front. -/
def removeThread (threadSize : ℕ) (m : ThreadManager θ) (caller : θ) :
    Option (ThreadManager θ) :=
  m.threadPool.head?.map fun front =>
    let loop := (subscript m.infoMap caller ThreadInfo.zero).index.toInt
    -- `iter` is a pointer to a thread object, and so is `iter++`
    let iter := front + loop.toNat * threadSize
    { m with
      infoMap := insertNew m.infoMap caller ThreadInfo.zero
      threadPool := m.threadPool.filter (· ≠ iter)
      size := m.size - 1 }

/-- `GetCurrentThreadInfo`. -/
def getCurrentThreadInfo (m : ThreadManager θ) (caller : θ) :
    ThreadInfo × ThreadManager θ :=
  (subscript m.infoMap caller ThreadInfo.zero,
    { m with infoMap := insertNew m.infoMap caller ThreadInfo.zero })

/-- `GetCurrentThreadIndex`. -/
def getCurrentThreadIndex (m : ThreadManager θ) (caller : θ) :
    ThreadIndex × ThreadManager θ :=
  ((subscript m.infoMap caller ThreadInfo.zero).index,
    { m with infoMap := insertNew m.infoMap caller ThreadInfo.zero })

/-- `GetThreadCount`. -/
def getThreadCount (m : ThreadManager θ) : UInt16 := m.size

end ThreadManager

end DokeviNet
