import UoftOs.Lib.Frames
import UoftOs.MsgQueue.Backend

/-!
# Reads, writes, opens and closes as atomic segments

Between `mutex_lock`, `cond_wait` and `mutex_unlock` a thread works on the
backend alone. Each function below is the code of one such segment: what it
leaves, which condition variables it notifies, and how the thread goes on.

## Implementation notes

No thread polls in this model, so the waiter list is empty and `helper_wakeup`
has nothing to do. The answers of the ring operations, which the code ignores,
are recorded. `buffer` lists the bytes a writer passes.

A read that finds its buffer too short unlocks in the size check, goes on, and
unlocks again at its end. `drain` is one segment all the same and the second
unlock is left out. Results about one call, or about calls one after the other,
do not depend on this. Results about interleaved calls are for runs in which no
read finds a message longer than its buffer.
-/

namespace UoftOs.MsgQueue

open Lib.Frames

/-- The two condition variables of a backend. -/
inductive Cond where
  | spaceFull
  | spaceEmpty
  deriving DecidableEq, Repr

inductive Notify where
  | signal (c : Cond)
  | broadcast (c : Cond)
  deriving DecidableEq, Repr

/-- How a thread goes on after a segment. -/
inductive Next where
  /-- The function returns `value`. -/
  | ret (value : Int) (errno : Option Errno)
  /-- The thread is in `cond_wait`; its loop test comes next. -/
  | wait (c : Cond)
  /-- A read has released the mutex in its size check but goes on to drain the message. -/
  | drain (msgHead : UInt64)
  deriving DecidableEq, Repr

/-- The effect of one segment. -/
structure Segment (N : Type) where
  mq : MqBackend N
  notify : List Notify
  /-- The bytes stored in the caller's buffer. -/
  stored : List UInt8
  /-- The answers of the ring operations that the code ignores. -/
  ringOk : List Bool
  next : Next
  deriving DecidableEq

variable {N : Type}

/-- A segment that leaves the ring alone and notifies nobody. -/
def Segment.quiet (mq : MqBackend N) (next : Next) : Segment N :=
  { mq, notify := [], stored := [], ringOk := [], next }

/-- `sizeof(size_t)` -/
def sizeofSizeT : UInt64 := 8

/-- The `size_t` in memory. -/
def sizeBytes (n : UInt64) : List UInt8 := leBytes 8 n.toNat

def sizeValue (bs : List UInt8) : UInt64 := UInt64.ofNat (leValue bs)

section Read
variable [Build]

/-- The events after a message has left the ring. -/
def readEvents (mq : MqBackend N) : MqBackend N :=
  let mq := if ringBufferUsed mq.buffer == 0 && !mq.noWriters then
    { mq with queueEvent := mq.queueEvent &&& ~~~mqpollReadable } else mq
  { mq with queueEvent := mq.queueEvent ||| mqpollWritable }

/-- `msg_queue_read` from the first `ring_buffer_read` to its return. -/
def readDrain (mq : MqBackend N) (msgHead : UInt64) : Except Fault (Segment N) := do
  let (header, buffer) ← ringBufferRead mq.buffer sizeofSizeT
  let msgHead := (header.map sizeValue).getD msgHead
  let (body, buffer) ← ringBufferRead buffer msgHead
  return { mq := readEvents { mq with buffer }, notify := [.signal .spaceFull],
           stored := body.getD [], ringOk := [header.isSome, body.isSome],
           next := .ret msgHead.toBitVec.toInt none }

/-- `msg_queue_read` behind its wait loop; `msgHead` is the uninitialised local. -/
def readAfterWait (mq : MqBackend N) (length msgHead : UInt64) : Except Fault (Segment N) := do
  if ringBufferUsed mq.buffer == 0 && mq.noWriters then
    let mq := { mq with queueEvent := mq.queueEvent ||| mqpollNowriters }
    return .quiet mq (.ret 0 none)
  let (header, _) ← ringBufferPeek mq.buffer sizeofSizeT
  let msgHead := (header.map sizeValue).getD msgHead
  if length < msgHead then
    return { Segment.quiet mq (.drain msgHead) with ringOk := [header.isSome] }
  let seg ← readDrain mq msgHead
  return { seg with ringOk := header.isSome :: seg.ringOk }

/-- `msg_queue_read` from the test of its wait loop on. -/
def readLoop (mq : MqBackend N) (flags : CInt) (length msgHead : UInt64) :
    Except Fault (Segment N) :=
  if !mq.noWriters && ringBufferUsed mq.buffer == 0 then
    if hasAny flags msgQueueNonblock then .ok (.quiet mq (.ret (-1) (some .EAGAIN)))
    else .ok (.quiet mq (.wait .spaceEmpty))
  else readAfterWait mq length msgHead

/-- The first segment of `msg_queue_read`. -/
def msgQueueRead (mq : MqBackend N) (flags : CInt) (length msgHead : UInt64) :
    Except Fault (Segment N) :=
  if !hasAny flags msgQueueReader then .ok (.quiet mq (.ret (-1) (some .EBADF)))
  else if mq.noWriters && ringBufferUsed mq.buffer == 0 then
    .ok (.quiet { mq with queueEvent := mq.queueEvent ||| mqpollNowriters } (.ret 0 none))
  else readLoop mq flags length msgHead

end Read

section Write
variable [Build]

/-- The events after a message has entered the ring. -/
def writeEvents (mq : MqBackend N) : MqBackend N :=
  let mq := if ringBufferFree mq.buffer == 0 && !mq.noReaders then
    { mq with queueEvent := mq.queueEvent &&& ~~~mqpollWritable } else mq
  { mq with queueEvent := mq.queueEvent ||| mqpollReadable }

/-- `msg_queue_write` from the test of its wait loop on. -/
def writeLoop (mq : MqBackend N) (flags : CInt) (buffer : List UInt8) (length : UInt64) :
    Except Fault (Segment N) := do
  if ringBufferFree mq.buffer < length + sizeofSizeT then
    return .quiet mq (.wait .spaceFull)
  let (ok₁, ring) ← ringBufferWrite mq.buffer (sizeBytes length) sizeofSizeT
  let (ok₂, ring) ← ringBufferWrite ring buffer length
  let mq := { mq with buffer := ring }
  let seg : Segment N :=
    { mq, notify := [.signal .spaceEmpty], stored := [], ringOk := [ok₁, ok₂], next := .ret 0 none }
  -- The flag is tested only here, after the message is in the ring.
  if hasAny flags msgQueueNonblock then
    return { seg with next := .ret (-1) (some .EAGAIN) }
  return { seg with mq := writeEvents mq }

/-- The first segment of `msg_queue_write`. -/
def msgQueueWrite (mq : MqBackend N) (flags : CInt) (buffer : List UInt8) (length : UInt64) :
    Except Fault (Segment N) :=
  if !hasAny flags msgQueueWriter then .ok (.quiet mq (.ret (-1) (some .EBADF)))
  else if length == 0 then .ok (.quiet mq (.ret (-1) (some .EINVAL)))
  else if mq.noReaders then .ok (.quiet mq (.ret (-1) (some .EPIPE)))
  else if mq.buffer.size ≤ length + sizeofSizeT then
    .ok (.quiet mq (.ret (-1) (some .EMSGSIZE)))
  else writeLoop mq flags buffer length

end Write

/-- A read or write with the caller's arguments. `msgHead` is what the stack holds
in the local of `msg_queue_read` before it is set. -/
inductive Call where
  | read (length msgHead : UInt64)
  | write (buffer : List UInt8) (length : UInt64)
  deriving DecidableEq

namespace Call

/-- The condition variable the call waits on. -/
def cond : Call → Cond
  | read .. => .spaceEmpty
  | write .. => .spaceFull

/-- A writer passes as many bytes as it announces. -/
def WellPassed : Call → Prop
  | read .. => True
  | write buffer length => buffer.length = length.toNat

/-- What the call has checked of its arguments when it comes to its wait loop. -/
def Started (flags : CInt) : Call → Prop
  | read .. => hasAny flags msgQueueReader = true
  | write _ length => hasAny flags msgQueueWriter = true ∧ length ≠ 0

variable [Build] (mq : MqBackend N) (flags : CInt)

def first : Call → Except Fault (Segment N)
  | read length msgHead => msgQueueRead mq flags length msgHead
  | write buffer length => msgQueueWrite mq flags buffer length

def loop : Call → Except Fault (Segment N)
  | read length msgHead => readLoop mq flags length msgHead
  | write buffer length => writeLoop mq flags buffer length

end Call

/-- The critical section of `msg_queue_open`; the new handle carries `flags`. -/
def msgQueueOpen (mq : MqBackend N) (flags : CInt) : Except Errno (MqBackend N) :=
  if hasAny flags (~~~allFlags) then .error .EINVAL else .ok (mqOpen mq flags)

/-- `msg_queue_close` of a handle with `flags`: the backend, or `none` when the
last handle is gone and the queue destroyed, and the notifications. -/
def msgQueueClose [Build] (mq : MqBackend N) (flags : CInt) :
    Except Fault (Option (MqBackend N) × List Notify) := do
  let (last, mq) ← mqClose mq flags
  if last then
    return (none, [])
  let (mq, full) := if mq.noReaders then
    ({ mq with queueEvent := mq.queueEvent ||| mqpollWritable ||| mqpollNoreaders },
      [Notify.broadcast .spaceFull]) else (mq, [])
  let (mq, empty) := if mq.noWriters then
    ({ mq with queueEvent := mq.queueEvent ||| mqpollReadable ||| mqpollNowriters },
      [Notify.broadcast .spaceEmpty]) else (mq, [])
  return (some mq, full ++ empty)

end UoftOs.MsgQueue
