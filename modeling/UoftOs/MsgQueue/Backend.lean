import UoftOs.MsgQueue.RingBuffer

/-!
# The queue backend

`struct mq_backend` with the operations on its reference counts. Mutexes and
condition variables belong to the models of the running system; `N` is the type
of the waiting nodes that the waiter list links.

## Implementation notes

`refs`, `readers` and `writers` are natural numbers where the source has `size_t`.
They are the same below 2^64 open handles, and no queue can have more. A count
that is 0 stays 0 when it is taken down, where the source goes on from 2^64 - 1;
this takes more closes than opens, and the source then closes a handle that is
not open.
-/

namespace UoftOs.MsgQueue

/-- The C type `int`. -/
abbrev CInt := BitVec 32

/-- `x & mask` used as a condition. -/
def hasAny (x mask : CInt) : Bool := x &&& mask != 0

def msgQueueReader : CInt := 0x01
def msgQueueWriter : CInt := 0x02
def msgQueueNonblock : CInt := 0x04

def allFlags : CInt := msgQueueReader ||| msgQueueWriter ||| msgQueueNonblock

def mqpollReadable : CInt := 0x01
def mqpollWritable : CInt := 0x02
def mqpollNoreaders : CInt := 0x04
def mqpollNowriters : CInt := 0x08

/-- The values of `errno` the queue sets. -/
inductive Errno where
  | EAGAIN | EBADF | EINVAL | EMSGSIZE | ENOMEM | EPIPE
  deriving DecidableEq, Repr

/-- Message queue implementation backend. -/
structure MqBackend (N : Type) where
  /-- Ring buffer for storing the messages. -/
  buffer : RingBuffer
  refs : Nat
  /-- Number of handles open for reads. -/
  readers : Nat
  /-- Number of handles open for writes. -/
  writers : Nat
  /-- Set to true when all the reader handles have been closed. -/
  noReaders : Bool
  /-- Set to true when all the writer handles have been closed. -/
  noWriters : Bool
  queueEvent : CInt
  queueListHead : List N
  deriving DecidableEq

variable {N : Type}

/-- `mq_init`; `queue_event` is not initialised and keeps its stale value. -/
def mqInit [Build] (answer : Option (Nat → UInt8)) (capacity : UInt64) (staleEvent : CInt) :
    Except Fault (Option (MqBackend N)) := do
  match ← ringBufferInit answer capacity with
  | none => return none
  | some buffer => return some {
      buffer, refs := 0, readers := 0, writers := 0, noReaders := false, noWriters := false,
      queueEvent := staleEvent, queueListHead := [] }

/-- `mq_open`, without the handle it makes. -/
def mqOpen (mq : MqBackend N) (flags : CInt) : MqBackend N :=
  let mq := { mq with refs := mq.refs + 1 }
  let mq := if hasAny flags msgQueueReader then
    { mq with readers := mq.readers + 1, noReaders := false } else mq
  if hasAny flags msgQueueWriter then
    { mq with writers := mq.writers + 1, noWriters := false } else mq

/-- `mq_close`: whether this was the last handle. -/
def mqClose [Build] (mq : MqBackend N) (flags : CInt) : Except Fault (Bool × MqBackend N) := do
  cAssert (mq.refs != 0)
  cAssert (decide (mq.refs ≥ mq.readers))
  cAssert (decide (mq.refs ≥ mq.writers))
  let mq := if hasAny flags msgQueueReader then
    { mq with readers := mq.readers - 1, noReaders := mq.readers - 1 == 0 || mq.noReaders } else mq
  let mq := if hasAny flags msgQueueWriter then
    { mq with writers := mq.writers - 1, noWriters := mq.writers - 1 == 0 || mq.noWriters } else mq
  let mq := { mq with refs := mq.refs - 1 }
  if mq.refs == 0 then
    cAssert (mq.readers == 0)
    cAssert (mq.writers == 0)
    return (true, mq)
  return (false, mq)

/-- `msg_queue_create`. `block` is the answer of `malloc` for the backend, the
stale `queue_event` in it; the result is the backend after `mq_open`. -/
def msgQueueCreate [Build] (block : Option CInt) (answer : Option (Nat → UInt8))
    (capacity : UInt64) (flags : CInt) : Except Fault (Except Errno (MqBackend N)) := do
  if hasAny flags (~~~allFlags) then
    return .error .EINVAL
  -- Refuse to create a message queue without capacity for at least one message.
  if capacity < 8 + 1 then
    return .error .EINVAL
  match block with
  | none => return .error .ENOMEM
  | some staleEvent =>
      match ← mqInit answer capacity staleEvent with
      | none => return .error .ENOMEM
      | some mq => return .ok (mqOpen mq flags)

end UoftOs.MsgQueue
