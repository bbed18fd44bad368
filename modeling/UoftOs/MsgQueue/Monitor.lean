import Mathlib.Logic.Function.Basic
import UoftOs.Lib.CondVar
import UoftOs.Lib.Transition
import UoftOs.MsgQueue.Handles

/-!
# Many threads on one queue

Threads of any type `T` read, write, open and close one queue. A step is one
atomic segment of one thread. A thread asleep on a condition variable may
resume without having been woken.

## Implementation notes

An open handle has a number, so that two handles with equal flags stay apart. A
handle is closed only when no call in progress uses it. A fault aborts the
process: no step follows.

The end of a read is one step even when its buffer is too short and the source
unlocks within it (`drain` in `Segments`). Runs in which this happens are in the
machine of `Program`, statement by statement.
-/

namespace UoftOs.MsgQueue

open Lib

/-- Where a call in progress stands between its segments. -/
inductive Status where
  | waiting
  | draining (msgHead : UInt64)
  deriving DecidableEq

structure Pending where
  handle : HandleId
  call : Call
  status : Status

/-- One queue, its open handles and the threads that use it. -/
structure Queue (T : Type) where
  /-- The backend, until the last handle is closed. -/
  mq : Option (MqBackend Empty)
  handles : Finset HandleId
  flags : HandleId → CInt
  calls : T → Option Pending
  conds : Cond → CondVar T
  aborted : Bool

namespace Queue

variable {T : Type} [DecidableEq T]

/-- The queue that `msg_queue_create` hands out, with its first handle. -/
def created (mq : MqBackend Empty) (flags : CInt) : Queue T where
  mq := some mq
  handles := {0}
  flags := fun _ => flags
  calls := fun _ => none
  conds := fun _ => CondVar.empty
  aborted := false

/-- The notifications of a segment, in order. -/
inductive Notified : List Notify → (Cond → CondVar T) → (Cond → CondVar T) → Prop
  | nil (k) : Notified [] k k
  | signal {c ns k v k'} (h : CondVar.Signal (k c) v)
      (rest : Notified ns (Function.update k c v) k') : Notified (.signal c :: ns) k k'
  | broadcast {c ns k k'} (rest : Notified ns (Function.update k c (k c).broadcast) k') :
      Notified (.broadcast c :: ns) k k'

/-- Thread `t` executes a segment of the call `c` through the handle `h`, with the
given result; `k` are the condition variables once it runs. -/
inductive Begins [Build] (s : Queue T) (mq : MqBackend Empty) (t : T) (h : HandleId) (c : Call) :
    Except Fault (Segment Empty) → (Cond → CondVar T) → Prop
  | first (hc : s.calls t = none) (hh : h ∈ s.handles) (hp : c.WellPassed) :
      Begins s mq t h c (c.first mq (s.flags h)) s.conds
  | resume (hc : s.calls t = some ⟨h, c, .waiting⟩) :
      Begins s mq t h c (c.loop mq (s.flags h))
        (Function.update s.conds c.cond ((s.conds c.cond).resume t))
  | drain {msgHead} (hc : s.calls t = some ⟨h, c, .draining msgHead⟩) :
      Begins s mq t h c (readDrain mq msgHead) s.conds

/-- Where the call stands after a segment. -/
def pendingAfter (h : HandleId) (c : Call) : Next → Option Pending
  | .ret _ _ => none
  | .wait _ => some ⟨h, c, .waiting⟩
  | .drain msgHead => some ⟨h, c, .draining msgHead⟩

/-- The sleepers after a segment of thread `t`. -/
def condsAfter (t : T) (k : Cond → CondVar T) : Next → Cond → CondVar T
  | .wait c => Function.update k c ((k c).sleep t)
  | .ret _ _ => k
  | .drain _ => k

/-- The queue after thread `t` has executed the segment `seg`. -/
def finish (s : Queue T) (t : T) (h : HandleId) (c : Call) (seg : Segment Empty)
    (k : Cond → CondVar T) : Queue T :=
  { s with
    mq := some seg.mq
    calls := Function.update s.calls t (pendingAfter h c seg.next)
    conds := condsAfter t k seg.next }

/-- What a step does. -/
inductive Label (T : Type) where
  | segment (t : T) (h : HandleId) (c : Call) (seg : Segment Empty)
  | abort (t : T) (h : HandleId) (c : Call)
  | open (h new : HandleId) (flags : CInt)
  | close (h : HandleId)

/-- The atomic segments of all threads. -/
inductive Step [Build] (s : Queue T) : Label T → Queue T → Prop
  | segment {mq t h c seg k k'} (ha : s.aborted = false) (hm : s.mq = some mq)
      (hb : Begins s mq t h c (.ok seg) k) (hn : Notified seg.notify k k') :
      Step s (.segment t h c seg) (s.finish t h c seg k')
  | abort {mq t h c f k} (ha : s.aborted = false) (hm : s.mq = some mq)
      (hb : Begins s mq t h c (.error f) k) :
      Step s (.abort t h c) { s with aborted := true }
  | openRefused {mq h new flags e} (ha : s.aborted = false) (hm : s.mq = some mq)
      (hh : h ∈ s.handles) (ho : msgQueueOpen mq flags = .error e) :
      Step s (.open h new flags) s
  | open {mq mq' h new flags} (ha : s.aborted = false) (hm : s.mq = some mq)
      (hh : h ∈ s.handles) (hnew : new ∉ s.handles) (ho : msgQueueOpen mq flags = .ok mq') :
      Step s (.open h new flags) { s with
        mq := some mq', handles := insert new s.handles,
        flags := Function.update s.flags new flags }
  | close {mq mq' h ns k'} (ha : s.aborted = false) (hm : s.mq = some mq)
      (hh : h ∈ s.handles) (hfree : ∀ t p, s.calls t = some p → p.handle ≠ h)
      (hc : msgQueueClose mq (s.flags h) = .ok (mq', ns)) (hn : Notified ns s.conds k') :
      Step s (.close h) { s with mq := mq', handles := s.handles.erase h, conds := k' }
  | closeAbort {mq h f} (ha : s.aborted = false) (hm : s.mq = some mq)
      (hh : h ∈ s.handles) (hfree : ∀ t p, s.calls t = some p → p.handle ≠ h)
      (hc : msgQueueClose mq (s.flags h) = .error f) :
      Step s (.close h) { s with aborted := true }

section Steps
variable [Build] {s : Queue T} {mq : MqBackend Empty} {t : T} {h : HandleId} {c : Call}
  {seg : Segment Empty} {k' : Cond → CondVar T}

/-- The step in which a thread starts a call. -/
theorem Step.first (ha : s.aborted = false) (hm : s.mq = some mq) (hc : s.calls t = none)
    (hh : h ∈ s.handles) (hp : c.WellPassed) (hrun : c.first mq (s.flags h) = .ok seg)
    (hn : Notified seg.notify s.conds k') : Step s (.segment t h c seg) (s.finish t h c seg k') :=
  Step.segment ha hm (hrun ▸ Begins.first hc hh hp) hn

/-- The step in which a waiting thread goes on. -/
theorem Step.resume (ha : s.aborted = false) (hm : s.mq = some mq)
    (hc : s.calls t = some ⟨h, c, .waiting⟩) (hrun : c.loop mq (s.flags h) = .ok seg)
    (hn : Notified seg.notify
      (Function.update s.conds c.cond ((s.conds c.cond).resume t)) k') :
    Step s (.segment t h c seg) (s.finish t h c seg k') :=
  Step.segment ha hm (hrun ▸ Begins.resume hc) hn

end Steps

/-- A queue state fresh from `msg_queue_create` with any capacity it accepts. -/
def IsCreated [Build] (s : Queue T) : Prop :=
  ∃ block answer capacity flags mq,
    msgQueueCreate block answer capacity flags = .ok (.ok mq) ∧ s = created mq flags

end Queue
end UoftOs.MsgQueue
