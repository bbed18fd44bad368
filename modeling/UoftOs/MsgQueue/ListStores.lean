import UoftOs.MsgQueue.Remainders

/-!
# The waiter lists, store by store

The program of `Program` with the statements of `list_entry_init`, `list_add_tail` and
`list_del` one by one on the pointers of the entries, and with the loop of `helper_wakeup`
following these pointers. Nothing here assumes that a mutex protects a list.

## Implementation notes

The entry of a node is used on one queue, the one of its place in the array, so each queue
has the pointers of its own entries. The validator of a list is left out. Following `NULL`
is a fault.
-/

namespace UoftOs.MsgQueue

open Lib.Threads

/-- The address of an entry: the list head of the queue, or the entry of a node. -/
inductive EntryPtr where
  | null
  | head
  | node (n : Node)
  deriving DecidableEq

/-- The fields of an entry. -/
structure EntryLinks where
  next : EntryPtr
  prev : EntryPtr

abbrev Entries := EntryPtr → EntryLinks

def Entries.setNext (es : Entries) (entry value : EntryPtr) : Entries :=
  Function.update es entry { es entry with next := value }

def Entries.setPrev (es : Entries) (entry value : EntryPtr) : Entries :=
  Function.update es entry { es entry with prev := value }

/-- The backend with the entries of its list instead of the list. -/
structure LinkedBackend where
  mq : MqBackend Empty
  entries : Entries

namespace LinkedBackend

def setNext (b : LinkedBackend) (entry value : EntryPtr) : Except Fault LinkedBackend :=
  if entry = .null then .error .outOfBounds
  else .ok { b with entries := b.entries.setNext entry value }

def setPrev (b : LinkedBackend) (entry value : EntryPtr) : Except Fault LinkedBackend :=
  if entry = .null then .error .outOfBounds
  else .ok { b with entries := b.entries.setPrev entry value }

end LinkedBackend

/-- The backend as the statements see it that leave the list alone. -/
def MqBackend.listless (mq : MqBackend Empty) : MqBackend Node :=
  { buffer := mq.buffer, refs := mq.refs, readers := mq.readers, writers := mq.writers
    noReaders := mq.noReaders, noWriters := mq.noWriters, queueEvent := mq.queueEvent
    queueListHead := [] }

/-- The statements: those of `Program`, and between the first and the last store of a list
operation the others. -/
inductive ListPc (Q : Type) where
  | stmt (pc : Pc Q)
  | entryInitPrev (c : PollCall Q) (i : Nat) (q : Q)
  | addTail (c : PollCall Q) (i : Nat) (q : Q)
  | insertNextPrev (c : PollCall Q) (i : Nat) (q : Q) (prev : EntryPtr)
  | insertNext (c : PollCall Q) (i : Nat) (q : Q) (prev : EntryPtr)
  | insertPrev (c : PollCall Q) (i : Nat) (q : Q) (prev : EntryPtr)
  | insertPrevNext (c : PollCall Q) (i : Nat) (q : Q) (prev : EntryPtr)
  | delNext (c : PollCall Q) (numReady : Nat) (i : Nat) (q : Q)
  | delInitNext (c : PollCall Q) (numReady : Nat) (i : Nat) (q : Q)
  | delInitPrev (c : PollCall Q) (numReady : Nat) (i : Nat) (q : Q)

section Code
variable {Q : Type}

/-- A statement that leaves the list alone. -/
def liftInstr : Instr (Pc Q) (Mutex Q) (CondId Q) Q (MqBackend Node) Fault →
    Instr (ListPc Q) (Mutex Q) (CondId Q) Q LinkedBackend Fault
  | .lock m next => .lock m (.stmt next)
  | .unlock m next => .unlock m (.stmt next)
  | .wait c m next => .wait c m (.stmt next)
  | .signal c next => .signal c (.stmt next)
  | .broadcast c next => .broadcast c (.stmt next)
  | .access q f => .access q fun b => do
      let (mq, next) ← f b.mq.listless
      return ({ b with mq := mq.unlinked }, .stmt next)
  | .alloc next => .alloc fun o => .stmt (next o)
  | .goto next => .goto (.stmt next)
  | .stop => .stop

/-- `list_for_each` at the entry `pos`. -/
def listVisit (w : Wakeup Q) : EntryPtr → Except Fault (ListPc Q)
  | .null => .error .outOfBounds
  | .head => .ok (.stmt (.wakeDone w))
  | .node n => .ok (.stmt (.wakeTest w n))

variable [Build]

/-- The program. -/
def listCode : ListPc Q → Instr (ListPc Q) (Mutex Q) (CondId Q) Q LinkedBackend Fault
  -- list_entry_init and list_add_tail
  | .stmt (.pollLink c i q) => .access q fun b => do
      return (← b.setNext (.node (nodeOf c i)) .null, .entryInitPrev c i q)
  | .entryInitPrev c i q => .access q fun b => do
      return (← b.setPrev (.node (nodeOf c i)) .null, .addTail c i q)
  | .addTail c i q => .access q fun b =>
      .ok (b, .insertNextPrev c i q (b.entries .head).prev)
  | .insertNextPrev c i q prev => .access q fun b => do
      return (← b.setPrev .head (.node (nodeOf c i)), .insertNext c i q prev)
  | .insertNext c i q prev => .access q fun b => do
      return (← b.setNext (.node (nodeOf c i)) .head, .insertPrev c i q prev)
  | .insertPrev c i q prev => .access q fun b => do
      return (← b.setPrev (.node (nodeOf c i)) prev, .insertPrevNext c i q prev)
  | .insertPrevNext c i q prev => .access q fun b => do
      return (← b.setNext prev (.node (nodeOf c i)), .stmt (.pollLinked c i q))
  -- list_del
  | .stmt (.pollUnlink c numReady i q) => .access q fun b => do
      let entry := b.entries (.node (nodeOf c i))
      return (← b.setPrev entry.next entry.prev, .delNext c numReady i q)
  | .delNext c numReady i q => .access q fun b => do
      let entry := b.entries (.node (nodeOf c i))
      return (← b.setNext entry.prev entry.next, .delInitNext c numReady i q)
  | .delInitNext c numReady i q => .access q fun b => do
      return (← b.setNext (.node (nodeOf c i)) .null, .delInitPrev c numReady i q)
  | .delInitPrev c numReady i q => .access q fun b => do
      return (← b.setPrev (.node (nodeOf c i)) .null, .stmt (.pollUnlinked c numReady i q))
  -- list_for_each in helper_wakeup
  | .stmt (.wakeStart w) => .access w.q fun b => do
      return (b, ← listVisit w (b.entries .head).next)
  | .stmt (.wakeNext w n) => .access w.q fun b => do
      return (b, ← listVisit w (b.entries (.node n)).next)
  | .stmt pc => liftInstr (code pc)

end Code

end UoftOs.MsgQueue
