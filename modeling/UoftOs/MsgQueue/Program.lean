import UoftOs.Lib.Threads
import UoftOs.MsgQueue.Segments

/-!
# The queue functions, statement by statement

The program of a thread that opens, closes, reads, writes or polls any queues.
`Pc` names the statements of `msg_queue.c`, with the locals live there, and
`code` says what each one does. Nothing here assumes that a mutex protects
anything.

## Implementation notes

`Q` is the type of backends. A handle is a backend with its flags. The bytes
that a read delivers are left out; the ring operations are complete. The body
of `mq_destroy` is left out.

`poll_mutex` and `is_ready` are initialised for entry 0 of a poll call only;
those of its other nodes hold what `malloc` returned. Here they are a free mutex
and a condition variable without sleepers. `list_add_tail` and `list_del` are one
step each; `ListStores` has their stores one by one, and follows this program as long
as no read unlocks early. An array has fewer than 2^32 entries, which is as far as the
`unsigned int` indices of the loops count.
-/

namespace UoftOs.MsgQueue

open Lib.Threads

/-- A `waiting_node`: entry `index` of the array that the poll call `poll` has allocated. -/
structure Node where
  poll : Nat
  index : Nat
  events : CInt
  deriving DecidableEq, Repr

/-- `mq->mutex`, and `poll_mutex` of a node. -/
inductive Mutex (Q : Type) where
  | queue (q : Q)
  | poll (poll index : Nat)
  deriving DecidableEq

/-- `space_full` and `space_empty` of a backend, and `is_ready` of a node. -/
inductive CondId (Q : Type) where
  | space (q : Q) (c : Cond)
  | ready (poll index : Nat)
  deriving DecidableEq

/-- `msg_queue_pollfd`; the queue is `none` when it is `MSG_QUEUE_NULL`. -/
structure PollFd (Q : Type) where
  queue : Option (Q × CInt)
  events : CInt
  revents : CInt

section Poll
variable {Q : Type}

/-- The argument checks on one entry of the array. -/
def pollFdValid (fd : PollFd Q) : Bool :=
  match fd.queue with
  | none => true
  | some (_, flags) =>
      !(fd.events == 0 ||
        hasAny fd.events mqpollReadable && !hasAny flags msgQueueReader ||
        hasAny fd.events mqpollWritable && !hasAny flags msgQueueWriter)

/-- The argument checks of `msg_queue_poll`; they refuse an array without queues. -/
def pollValid (fds : List (PollFd Q)) : Bool :=
  fds.all pollFdValid && fds.any fun fd => fd.queue.isSome

/-- The first entry with a queue, counting indices from `i`. -/
def firstQueue : List (PollFd Q) → Nat → Option (Nat × Q)
  | [], _ => none
  | fd :: fds, i =>
      match fd.queue with
      | some (q, _) => some (i, q)
      | none => firstQueue fds (i + 1)

/-- The first index from `i` on whose queue is not null, with its backend: how the
loops of `msg_queue_poll` skip null entries. -/
def nextEntry (fds : List (PollFd Q)) (i : Nat) : Option (Nat × Q) := firstQueue (fds.drop i) i

/-- The body of `helper_count` for an entry with a queue whose `queue_event` is `event`:
the new `revents`, and whether the entry counts as ready. -/
def countEntry (fd : PollFd Q) (event : CInt) : PollFd Q × Bool :=
  let revents := event &&& fd.events
  let ready := decide (0 < revents.toInt)
  match fd.queue with
  | some (_, flags) =>
      if hasAny flags (msgQueueReader ||| msgQueueWriter) then
        ({ fd with revents := revents ||| (event &&& (mqpollNowriters ||| mqpollNoreaders)) },
          ready)
      else ({ fd with revents }, ready)
  | none => (fd, false)

end Poll

/-- A poll call past its checks: its array of nodes and its `fds`. -/
structure PollCall (Q : Type) where
  id : Nat
  fds : List (PollFd Q)

/-- A read past its handle check. -/
structure ReadCall (Q : Type) where
  q : Q
  flags : CInt
  length : UInt64
  msgHead : UInt64

structure WriteCall (Q : Type) where
  q : Q
  flags : CInt
  buffer : List UInt8
  length : UInt64

/-- `helper_wakeup` on `q`, with what its caller returns afterwards; `early` when the
caller is a read that has unlocked in its size check. -/
structure Wakeup (Q : Type) where
  q : Q
  value : Int
  early : Bool

/-- The statements of the program. -/
inductive Pc (Q : Type) where
  | done (value : Int)
  | openLock (q : Q) (flags : CInt)
  | openTouch (q : Q) (flags : CInt)
  | openUnlock (q : Q)
  | closeLock (q : Q) (flags : CInt)
  | closeTouch (q : Q) (flags : CInt)
  | closeLast (q : Q)
  | closeDestroy (q : Q)
  | closeNoReaders (q : Q)
  | closeWakeWriters (q : Q)
  | closeNoWriters (q : Q)
  | closeWakeReaders (q : Q)
  | closeUnlock (q : Q)
  | wakeStart (w : Wakeup Q)
  | wakeTest (w : Wakeup Q) (n : Node)
  | wakeLock (w : Wakeup Q) (n : Node)
  | wakeSignal (w : Wakeup Q) (n : Node)
  | wakeUnlock (w : Wakeup Q) (n : Node)
  | wakeNext (w : Wakeup Q) (n : Node)
  | wakeDone (w : Wakeup Q)
  | readLock (c : ReadCall Q)
  | readEof (c : ReadCall Q)
  | readTest (c : ReadCall Q)
  | readAgain (c : ReadCall Q)
  | readWait (c : ReadCall Q)
  | readEmpty (c : ReadCall Q)
  | readPeek (c : ReadCall Q)
  | readTooSmall (c : ReadCall Q)
  | readHeader (c : ReadCall Q) (early : Bool)
  | readBody (c : ReadCall Q) (early : Bool)
  | readSignal (c : ReadCall Q) (early : Bool)
  | readEvents (c : ReadCall Q) (early : Bool)
  | writeLock (c : WriteCall Q)
  | writeCheck (c : WriteCall Q)
  | writeTest (c : WriteCall Q)
  | writeWait (c : WriteCall Q)
  | writeHeader (c : WriteCall Q)
  | writeBody (c : WriteCall Q)
  | writeSignal (c : WriteCall Q)
  | writeEvents (c : WriteCall Q)
  | writeRefuse (c : WriteCall Q)
  | pollAlloc (fds : List (PollFd Q))
  | pollLock (c : PollCall Q)
  | pollRegister (c : PollCall Q) (i : Nat) (q : Q)
  | pollLink (c : PollCall Q) (i : Nat) (q : Q)
  | pollLinked (c : PollCall Q) (i : Nat) (q : Q)
  | pollCount (c : PollCall Q) (again : Bool) (numReady : Nat) (i : Nat) (q : Q)
  | pollWait (c : PollCall Q)
  | pollUnlock (c : PollCall Q) (numReady : Nat)
  | pollUnregister (c : PollCall Q) (numReady : Nat) (i : Nat) (q : Q)
  | pollUnlink (c : PollCall Q) (numReady : Nat) (i : Nat) (q : Q)
  | pollUnlinked (c : PollCall Q) (numReady : Nat) (i : Nat) (q : Q)
  | pollUnlockAgain (c : PollCall Q) (numReady : Nat)

section Code
variable {Q : Type}

/-- From index `i` on, the turns of `helper_count`, then what follows it in
`msg_queue_poll`. -/
def countFrom (c : PollCall Q) (again : Bool) (numReady i : Nat) : Pc Q :=
  match nextEntry c.fds i with
  | some (j, q) => .pollCount c again numReady j q
  | none => if !again && numReady == 0 then .pollWait c else .pollUnlock c numReady

/-- From index `i` on, the turns of the registration loop, then `helper_count`. -/
def registerFrom (c : PollCall Q) (i : Nat) : Pc Q :=
  match nextEntry c.fds i with
  | some (j, q) => .pollRegister c j q
  | none => countFrom c false 0 0

/-- From index `i` on, the turns of the loop that unlinks the nodes, then the end. -/
def unregisterFrom (c : PollCall Q) (numReady i : Nat) : Pc Q :=
  match nextEntry c.fds i with
  | some (j, q) => .pollUnregister c numReady j q
  | none => .pollUnlockAgain c numReady

/-- The node of entry `i`. -/
def nodeOf (c : PollCall Q) (i : Nat) : Node :=
  ⟨c.id, i, ((c.fds[i]?).map PollFd.events).getD 0⟩

/-- One turn of `helper_count`. -/
def countAt (c : PollCall Q) (numReady i : Nat) (event : CInt) : PollCall Q × Nat :=
  match c.fds[i]? with
  | some fd =>
      let (fd, ready) := countEntry fd event
      ({ c with fds := c.fds.set i fd }, if ready then numReady + 1 else numReady)
  | none => (c, numReady)

/-- `list_for_each`: the node after `n`, if any; `n` has to be linked. -/
def nextNode (nodes : List Node) (n : Node) : Except Fault (Option Node) :=
  match nodes.dropWhile (· != n) with
  | [] => .error .outOfBounds
  | _ :: rest => .ok rest.head?

variable [Build]

/-- The program. -/
def code : Pc Q → Instr (Pc Q) (Mutex Q) (CondId Q) Q (MqBackend Node) Fault
  | .done _ => .stop
  -- msg_queue_open
  | .openLock q flags => .lock (.queue q) (.openTouch q flags)
  | .openTouch q flags => .access q fun mq => .ok (mqOpen mq flags, .openUnlock q)
  | .openUnlock q => .unlock (.queue q) (.done 0)
  -- msg_queue_close
  | .closeLock q flags => .lock (.queue q) (.closeTouch q flags)
  | .closeTouch q flags => .access q fun mq => do
      let (last, mq) ← mqClose mq flags
      return (mq, if last then .closeLast q else .closeNoReaders q)
  | .closeLast q => .unlock (.queue q) (.closeDestroy q)
  | .closeDestroy _ => .goto (.done 0)
  | .closeNoReaders q => .access q fun mq =>
      if mq.noReaders then
        .ok ({ mq with queueEvent := mq.queueEvent ||| mqpollWritable ||| mqpollNoreaders },
          .closeWakeWriters q)
      else .ok (mq, .closeNoWriters q)
  | .closeWakeWriters q => .broadcast (.space q .spaceFull) (.closeNoWriters q)
  | .closeNoWriters q => .access q fun mq =>
      if mq.noWriters then
        .ok ({ mq with queueEvent := mq.queueEvent ||| mqpollReadable ||| mqpollNowriters },
          .closeWakeReaders q)
      else .ok (mq, .closeUnlock q)
  | .closeWakeReaders q => .broadcast (.space q .spaceEmpty) (.closeUnlock q)
  | .closeUnlock q => .unlock (.queue q) (.done 0)
  -- helper_wakeup, and the unlock and return behind each of its calls
  | .wakeStart w => .access w.q fun mq =>
      .ok (mq, match mq.queueListHead.head? with
        | some n => .wakeTest w n
        | none => .wakeDone w)
  | .wakeTest w n => .access w.q fun mq =>
      .ok (mq, if hasAny n.events mq.queueEvent then .wakeLock w n else .wakeNext w n)
  | .wakeLock w n => .lock (.poll n.poll n.index) (.wakeSignal w n)
  | .wakeSignal w n => .signal (.ready n.poll n.index) (.wakeUnlock w n)
  | .wakeUnlock w n => .unlock (.poll n.poll n.index) (.wakeNext w n)
  | .wakeNext w n => .access w.q fun mq => do
      match ← nextNode mq.queueListHead n with
      | some n' => return (mq, .wakeTest w n')
      | none => return (mq, .wakeDone w)
  | .wakeDone w => .unlock (.queue w.q) (.done w.value)
  -- msg_queue_read
  | .readLock c => .lock (.queue c.q) (.readEof c)
  | .readEof c => .access c.q fun mq =>
      if mq.noWriters && ringBufferUsed mq.buffer == 0 then
        .ok ({ mq with queueEvent := mq.queueEvent ||| mqpollNowriters }, .wakeStart ⟨c.q, 0, false⟩)
      else .ok (mq, .readTest c)
  | .readTest c => .access c.q fun mq =>
      if !mq.noWriters && ringBufferUsed mq.buffer == 0 then
        .ok (mq, if hasAny c.flags msgQueueNonblock then .readAgain c else .readWait c)
      else .ok (mq, .readEmpty c)
  | .readAgain c => .unlock (.queue c.q) (.done (-1))
  | .readWait c => .wait (.space c.q .spaceEmpty) (.queue c.q) (.readTest c)
  | .readEmpty c => .access c.q fun mq =>
      if ringBufferUsed mq.buffer == 0 && mq.noWriters then
        .ok ({ mq with queueEvent := mq.queueEvent ||| mqpollNowriters }, .wakeStart ⟨c.q, 0, false⟩)
      else .ok (mq, .readPeek c)
  | .readPeek c => .access c.q fun mq => do
      let (header, buffer) ← ringBufferPeek mq.buffer sizeofSizeT
      let c := { c with msgHead := (header.map sizeValue).getD c.msgHead }
      return ({ mq with buffer }, if c.length < c.msgHead then .readTooSmall c else .readHeader c false)
  -- The mutex is released here, and the read goes on.
  | .readTooSmall c => .unlock (.queue c.q) (.readHeader c true)
  | .readHeader c early => .access c.q fun mq => do
      let (header, buffer) ← ringBufferRead mq.buffer sizeofSizeT
      return ({ mq with buffer },
        .readBody { c with msgHead := (header.map sizeValue).getD c.msgHead } early)
  | .readBody c early => .access c.q fun mq => do
      let (_, buffer) ← ringBufferRead mq.buffer c.msgHead
      return ({ mq with buffer }, .readSignal c early)
  | .readSignal c early => .signal (.space c.q .spaceFull) (.readEvents c early)
  | .readEvents c early => .access c.q fun mq =>
      .ok (readEvents mq, .wakeStart ⟨c.q, c.msgHead.toBitVec.toInt, early⟩)
  -- msg_queue_write
  | .writeLock c => .lock (.queue c.q) (.writeCheck c)
  | .writeCheck c => .access c.q fun mq =>
      .ok (mq, if mq.noReaders then .writeRefuse c
        else if mq.buffer.size ≤ c.length + sizeofSizeT then .writeRefuse c else .writeTest c)
  | .writeTest c => .access c.q fun mq =>
      .ok (mq, if ringBufferFree mq.buffer < c.length + sizeofSizeT then .writeWait c
        else .writeHeader c)
  | .writeWait c => .wait (.space c.q .spaceFull) (.queue c.q) (.writeTest c)
  | .writeHeader c => .access c.q fun mq => do
      let (_, buffer) ← ringBufferWrite mq.buffer (sizeBytes c.length) sizeofSizeT
      return ({ mq with buffer }, .writeBody c)
  | .writeBody c => .access c.q fun mq => do
      let (_, buffer) ← ringBufferWrite mq.buffer c.buffer c.length
      return ({ mq with buffer }, .writeSignal c)
  | .writeSignal c => .signal (.space c.q .spaceEmpty)
      (if hasAny c.flags msgQueueNonblock then .writeRefuse c else .writeEvents c)
  | .writeEvents c => .access c.q fun mq => .ok (writeEvents mq, .wakeStart ⟨c.q, 0, false⟩)
  | .writeRefuse c => .unlock (.queue c.q) (.done (-1))
  -- msg_queue_poll, with helper_count
  | .pollAlloc fds => .alloc fun
      | some id => .pollLock ⟨id, fds⟩
      | none => .done (-1)
  | .pollLock c => .lock (.poll c.id 0) (registerFrom c 0)
  | .pollRegister c i q => .lock (.queue q) (.pollLink c i q)
  | .pollLink c i q => .access q fun mq =>
      .ok ({ mq with queueListHead := mq.queueListHead ++ [nodeOf c i] }, .pollLinked c i q)
  | .pollLinked c i q => .unlock (.queue q) (registerFrom c (i + 1))
  | .pollCount c again numReady i q => .access q fun mq =>
      let (c, numReady) := countAt c numReady i mq.queueEvent
      .ok (mq, countFrom c again numReady (i + 1))
  | .pollWait c => .wait (.ready c.id 0) (.poll c.id 0) (countFrom c true 0 0)
  | .pollUnlock c numReady => .unlock (.poll c.id 0) (unregisterFrom c numReady 0)
  | .pollUnregister c numReady i q => .lock (.queue q) (.pollUnlink c numReady i q)
  | .pollUnlink c numReady i q => .access q fun mq =>
      .ok ({ mq with queueListHead := mq.queueListHead.erase (nodeOf c i) },
        .pollUnlinked c numReady i q)
  | .pollUnlinked c numReady i q => .unlock (.queue q) (unregisterFrom c numReady (i + 1))
  | .pollUnlockAgain c numReady => .unlock (.poll c.id 0) (.done numReady)

/-- A call with the arguments of its caller. `msgHead` is the uninitialised local of
`msg_queue_read`. -/
inductive Entry (Q : Type) where
  | open (q : Q) (flags : CInt)
  | close (q : Q) (flags : CInt)
  | read (q : Q) (flags : CInt) (length msgHead : UInt64)
  | write (q : Q) (flags : CInt) (buffer : List UInt8) (length : UInt64)
  | poll (fds : List (PollFd Q))

/-- The checks of a call before it touches anything shared. -/
def Entry.start : Entry Q → Pc Q
  | .open q flags => if hasAny flags (~~~allFlags) then .done (-1) else .openLock q flags
  | .close q flags => .closeLock q flags
  | .read q flags length msgHead =>
      if !hasAny flags msgQueueReader then .done (-1)
      else .readLock ⟨q, flags, length, msgHead⟩
  | .write q flags buffer length =>
      if !hasAny flags msgQueueWriter then .done (-1)
      else if length == 0 then .done (-1)
      else .writeLock ⟨q, flags, buffer, length⟩
  | .poll fds =>
      let fds := fds.map fun fd => { fd with revents := 0 }
      if pollValid fds then .pollAlloc fds else .done (-1)

def IsEntry (pc : Pc Q) : Prop := ∃ e : Entry Q, pc = e.start

end Code

end UoftOs.MsgQueue
