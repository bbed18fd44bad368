import UoftOs.MsgQueue.Handles
import UoftOs.MsgQueue.PollArray
import UoftOs.MsgQueue.RingBufferSpec

/-!
# Who holds which mutex

`locksAt` types the program: it lists the mutexes a thread holds at each
statement. Two paths break the discipline, the size check of a read and a poll
that is past its registration; away from them every access to a backend is made
under its mutex and every unlock by the owner.
-/

namespace UoftOs.MsgQueue

open Lib.Threads Lib.Transition

variable {Q : Type}

/-- The mutexes that `helper_wakeup` runs under. -/
def Wakeup.locks (w : Wakeup Q) : List (Mutex Q) := if w.early then [] else [.queue w.q]

/-- The mutexes a thread holds at a statement. -/
def locksAt : Pc Q → List (Mutex Q)
  | .done _ => []
  | .openLock .. => []
  | .openTouch q _ => [.queue q]
  | .openUnlock q => [.queue q]
  | .closeLock .. => []
  | .closeTouch q _ => [.queue q]
  | .closeLast q => [.queue q]
  | .closeDestroy _ => []
  | .closeNoReaders q => [.queue q]
  | .closeWakeWriters q => [.queue q]
  | .closeNoWriters q => [.queue q]
  | .closeWakeReaders q => [.queue q]
  | .closeUnlock q => [.queue q]
  | .wakeStart w => w.locks
  | .wakeTest w _ => w.locks
  | .wakeLock w _ => w.locks
  | .wakeSignal w n => .poll n.poll n.index :: w.locks
  | .wakeUnlock w n => .poll n.poll n.index :: w.locks
  | .wakeNext w _ => w.locks
  | .wakeDone w => w.locks
  | .readLock _ => []
  | .readEof c => [.queue c.q]
  | .readTest c => [.queue c.q]
  | .readAgain c => [.queue c.q]
  | .readWait c => [.queue c.q]
  | .readEmpty c => [.queue c.q]
  | .readPeek c => [.queue c.q]
  | .readTooSmall c => [.queue c.q]
  | .readHeader c early => if early then [] else [.queue c.q]
  | .readBody c early => if early then [] else [.queue c.q]
  | .readSignal c early => if early then [] else [.queue c.q]
  | .readEvents c early => if early then [] else [.queue c.q]
  | .writeLock _ => []
  | .writeCheck c => [.queue c.q]
  | .writeTest c => [.queue c.q]
  | .writeWait c => [.queue c.q]
  | .writeHeader c => [.queue c.q]
  | .writeBody c => [.queue c.q]
  | .writeSignal c => [.queue c.q]
  | .writeEvents c => [.queue c.q]
  | .writeRefuse c => [.queue c.q]
  | .pollAlloc _ => []
  | .pollLock _ => []
  | .pollRegister c _ _ => [.poll c.id 0]
  | .pollLink c _ q => [.queue q, .poll c.id 0]
  | .pollLinked c _ q => [.queue q, .poll c.id 0]
  | .pollCount c _ _ _ _ => [.poll c.id 0]
  | .pollWait c => [.poll c.id 0]
  | .pollUnlock c _ => [.poll c.id 0]
  | .pollUnregister .. => []
  | .pollUnlink _ _ _ q => [.queue q]
  | .pollUnlinked _ _ _ q => [.queue q]
  | .pollUnlockAgain .. => []

def holds (pc : Pc Q) (m : Mutex Q) : Prop := m ∈ locksAt pc

section Loops
variable (c : PollCall Q) (i numReady : Nat) (again : Bool)

@[simp] theorem locksAt_countFrom : locksAt (countFrom c again numReady i) = [.poll c.id 0] := by
  unfold countFrom
  split
  · rfl
  · split <;> rfl

@[simp] theorem locksAt_registerFrom : locksAt (registerFrom c i) = [.poll c.id 0] := by
  unfold registerFrom
  split
  · rfl
  · simp

@[simp] theorem locksAt_unregisterFrom : locksAt (unregisterFrom c numReady i) = [] := by
  unfold unregisterFrom
  split <;> rfl

@[simp] theorem countAt_id (event : CInt) : (countAt c numReady i event).1.id = c.id := by
  unfold countAt
  split <;> rfl

end Loops

/-- The statements outside `helper_wakeup` and `msg_queue_poll`. -/
def Pc.Plain : Pc Q → Prop
  | .wakeStart _ => False
  | .wakeTest .. => False
  | .wakeLock .. => False
  | .wakeSignal .. => False
  | .wakeUnlock .. => False
  | .wakeNext .. => False
  | .wakeDone _ => False
  | .pollAlloc _ => False
  | .pollLock _ => False
  | .pollRegister .. => False
  | .pollLink .. => False
  | .pollLinked .. => False
  | .pollCount .. => False
  | .pollWait _ => False
  | .pollUnlock .. => False
  | .pollUnregister .. => False
  | .pollUnlink .. => False
  | .pollUnlinked .. => False
  | .pollUnlockAgain .. => False
  | _ => True

/-- The events that a close sets at a statement. -/
def closeBits : Pc Q → MqBackend Node → CInt
  | .closeNoReaders _, mq => if mq.noReaders then mqpollWritable ||| mqpollNoreaders else 0
  | .closeNoWriters _, mq => if mq.noWriters then mqpollReadable ||| mqpollNowriters else 0
  | _, _ => 0

theorem Wakeup.poll_notMem_locks (w : Wakeup Q) {p i : Nat} :
    Mutex.poll p i ∉ w.locks := by
  unfold Wakeup.locks
  split <;> simp

/-- What an unlock of the first mutex leaves. -/
theorem holds_unlock {pc next : Pc Q} {m : Mutex Q} (h : locksAt pc = m :: locksAt next)
    (hm : m ∉ locksAt next) (l : Mutex Q) : holds next l ↔ l ≠ m ∧ holds pc l := by
  rw [holds, holds, h, List.mem_cons]
  constructor
  · intro hl
    have hne : l ≠ m := by
      rintro rfl
      exact hm hl
    exact ⟨hne, Or.inr hl⟩
  · rintro ⟨hne, rfl | hl⟩
    · exact absurd rfl hne
    · exact hl

/-- Entries that are visited have a queue, and a poll has at least one of them. -/
def Pc.Placed : Pc Q → Prop
  | .pollAlloc fds => nextEntry fds 0 ≠ none
  | .pollLock c => nextEntry c.fds 0 ≠ none
  | .pollRegister c i q => queueAt c.fds i = some q
  | .pollLink c i q => queueAt c.fds i = some q
  | .pollLinked c i q => queueAt c.fds i = some q
  | .pollCount c _ _ i q => queueAt c.fds i = some q
  | .pollUnregister c _ i q => queueAt c.fds i = some q
  | .pollUnlink c _ i q => queueAt c.fds i = some q
  | .pollUnlinked c _ i q => queueAt c.fds i = some q
  | _ => True

/-- The statements behind a broken lock: a read that has unlocked in its size check,
and a poll from its first `helper_count` on. -/
def Pc.Strays : Pc Q → Prop
  | .wakeStart w => w.early = true
  | .wakeTest w _ => w.early = true
  | .wakeLock w _ => w.early = true
  | .wakeSignal w _ => w.early = true
  | .wakeUnlock w _ => w.early = true
  | .wakeNext w _ => w.early = true
  | .wakeDone w => w.early = true
  | .readHeader _ early => early = true
  | .readBody _ early => early = true
  | .readSignal _ early => early = true
  | .readEvents _ early => early = true
  | .pollCount .. => True
  | .pollWait _ => True
  | .pollUnlock .. => True
  | .pollUnregister .. => True
  | .pollUnlink .. => True
  | .pollUnlinked .. => True
  | .pollUnlockAgain .. => True
  | _ => False

/-- The statements from which the lock discipline breaks: the unlock in the size check
of a read, and the last unlock in the registration of a poll. -/
def Pc.Breaks : Pc Q → Prop
  | .readTooSmall _ => True
  | .pollLinked c i _ => nextEntry c.fds (i + 1) = none
  | _ => False

/-- What an access does to the waiter list and the events, and where it leads. -/
inductive Accessed : Pc Q → Q → MqBackend Node → MqBackend Node → Pc Q → Prop
  | plain {pc q mq mq' next} (hp : pc.Plain) (hn : next.Plain)
      (hl : mq'.queueListHead = mq.queueListHead)
      (he : mq'.queueEvent = mq.queueEvent ||| closeBits pc mq)
      (hlocks : locksAt next = locksAt pc) (hs : next.Strays ↔ pc.Strays) :
      Accessed pc q mq mq' next
  | produces {pc mq mq' w} (hp : pc.Plain) (hl : mq'.queueListHead = mq.queueListHead)
      (hlocks : w.locks = locksAt pc) (hs : w.early = true ↔ pc.Strays) :
      Accessed pc w.q mq mq' (.wakeStart w)
  | starts {w mq} : Accessed (.wakeStart w) w.q mq mq
      (match mq.queueListHead.head? with
        | some n => .wakeTest w n
        | none => .wakeDone w)
  | tests {w n mq} : Accessed (.wakeTest w n) w.q mq mq
      (if hasAny n.events mq.queueEvent then .wakeLock w n else .wakeNext w n)
  | nexts {w n mq n₀ rest} (hn : mq.queueListHead.dropWhile (· != n) = n₀ :: rest) :
      Accessed (.wakeNext w n) w.q mq mq
        (match rest.head? with
          | some n' => .wakeTest w n'
          | none => .wakeDone w)
  | links {c i q mq} : Accessed (.pollLink c i q) q mq
      { mq with queueListHead := mq.queueListHead ++ [nodeOf c i] } (.pollLinked c i q)
  | counts {c again numReady i q mq} : Accessed (.pollCount c again numReady i q) q mq mq
      (countFrom (countAt c numReady i mq.queueEvent).1 again
        (countAt c numReady i mq.queueEvent).2 (i + 1))
  | unlinks {c numReady i q mq} : Accessed (.pollUnlink c numReady i q) q mq
      { mq with queueListHead := mq.queueListHead.erase (nodeOf c i) }
      (.pollUnlinked c numReady i q)

section Points

theorem countFrom_placed (c : PollCall Q) (again : Bool) (numReady i : Nat) :
    (countFrom c again numReady i).Placed := by
  unfold countFrom
  split
  · next h => exact (nextEntry_eq_some h).2.1
  · split <;> trivial

theorem registerFrom_placed (c : PollCall Q) (i : Nat) : (registerFrom c i).Placed := by
  unfold registerFrom
  split
  · next h => exact (nextEntry_eq_some h).2.1
  · exact countFrom_placed ..

theorem unregisterFrom_placed (c : PollCall Q) (numReady i : Nat) :
    (unregisterFrom c numReady i).Placed := by
  unfold unregisterFrom
  split
  · next h => exact (nextEntry_eq_some h).2.1
  · trivial

theorem registerFrom_not_strays {c : PollCall Q} {i : Nat} (h : nextEntry c.fds i ≠ none) :
    ¬ (registerFrom c i).Strays := by
  unfold registerFrom
  split
  · exact id
  · exact absurd ‹_› h

theorem Pc.Plain.placed {pc : Pc Q} (h : pc.Plain) : pc.Placed := by
  cases pc <;> trivial

/-- An array that passes the checks has an entry with a queue. -/
theorem pollValid_nextEntry {fds : List (PollFd Q)} (h : pollValid fds = true) :
    nextEntry fds 0 ≠ none := by
  intro hnone
  rw [pollValid, Bool.and_eq_true, List.any_eq_true] at h
  obtain ⟨fd, hfd, hsome⟩ := h.2
  obtain ⟨i, hi, rfl⟩ := List.mem_iff_getElem.mp hfd
  have := nextEntry_eq_none hnone (Nat.zero_le i)
  rw [queueAt, List.getElem?_eq_getElem hi, Option.bind_some, Option.map_eq_none_iff] at this
  rw [this] at hsome
  cases hsome

theorem entry_placed {pc : Pc Q} (h : IsEntry pc) : pc.Placed ∧ ¬ pc.Strays := by
  obtain ⟨e, rfl⟩ := h
  cases e with
  | «open» q flags =>
      simp only [Entry.start]
      split <;> exact ⟨trivial, id⟩
  | close q flags => exact ⟨trivial, id⟩
  | read q flags length msgHead =>
      simp only [Entry.start]
      split <;> exact ⟨trivial, id⟩
  | write q flags buffer length =>
      simp only [Entry.start]
      split
      · exact ⟨trivial, id⟩
      · split <;> exact ⟨trivial, id⟩
  | poll fds =>
      simp only [Entry.start]
      split
      · next h => exact ⟨pollValid_nextEntry h, id⟩
      · exact ⟨trivial, id⟩

end Points

variable [Build]

/-- Closing changes neither the waiters nor the events. -/
theorem mqClose_keeps {N : Type} {mq mq' : MqBackend N} {flags : CInt} {last : Bool}
    (h : mqClose mq flags = .ok (last, mq')) :
    mq'.queueListHead = mq.queueListHead ∧ mq'.queueEvent = mq.queueEvent := by
  unfold mqClose at h
  obtain ⟨-, -, h⟩ := except_bind_ok h
  obtain ⟨-, -, h⟩ := except_bind_ok h
  obtain ⟨-, -, h⟩ := except_bind_ok h
  have asserted {a b : Bool} {x y : Bool × MqBackend N}
      (h : (do cAssert a; cAssert b; return x : Except Fault (Bool × MqBackend N)) = .ok y) :
      x = y := by
    obtain ⟨-, -, h⟩ := except_bind_ok h
    obtain ⟨-, -, h⟩ := except_bind_ok h
    exact Except.ok.inj h
  cases hr : hasAny flags msgQueueReader <;> cases hw : hasAny flags msgQueueWriter <;>
    simp only [hr, hw, if_true, if_false, Bool.false_eq_true] at h <;> split at h
  all_goals
    first
    | obtain ⟨-, rfl⟩ := Prod.mk.inj (asserted h)
      exact ⟨rfl, rfl⟩
    | obtain ⟨-, rfl⟩ := Prod.mk.inj (Except.ok.inj h)
      exact ⟨rfl, rfl⟩

/-- Every access of the program is one of the listed kinds. -/
theorem code_accessed {pc next : Pc Q} {q : Q}
    {f : MqBackend Node → Except Fault (MqBackend Node × Pc Q)} {mq mq' : MqBackend Node}
    (hc : code pc = .access q f) (hf : f mq = .ok (mq', next)) : Accessed pc q mq mq' next := by
  cases pc <;> simp only [code, Instr.access.injEq, reduceCtorEq] at hc <;>
    obtain ⟨rfl, rfl⟩ := hc
  case openTouch q flags =>
    obtain ⟨rfl, rfl⟩ := Prod.mk.inj (Except.ok.inj hf)
    exact .plain trivial trivial (mqOpen_queueListHead mq flags) ((mqOpen_queueEvent mq flags).trans BitVec.or_zero.symm)
      rfl Iff.rfl
  case closeTouch q flags =>
    obtain ⟨⟨last, mq₁⟩, hclose, hf⟩ := except_bind_ok hf
    obtain ⟨rfl, rfl⟩ := Prod.mk.inj (Except.ok.inj hf)
    obtain ⟨hl, he⟩ := mqClose_keeps hclose
    cases last <;> exact .plain trivial trivial hl (he.trans BitVec.or_zero.symm) rfl (by simp [Pc.Strays])
  case closeNoReaders q =>
    dsimp only at hf
    split at hf <;> obtain ⟨rfl, rfl⟩ := Prod.mk.inj (Except.ok.inj hf)
    · next hset =>
        exact .plain trivial trivial rfl (by simp [closeBits, hset, BitVec.or_assoc]) rfl
          (by simp [Pc.Strays])
    · next hclear =>
        exact .plain trivial trivial rfl (by simp [closeBits, hclear]) rfl (by simp [Pc.Strays])
  case closeNoWriters q =>
    dsimp only at hf
    split at hf <;> obtain ⟨rfl, rfl⟩ := Prod.mk.inj (Except.ok.inj hf)
    · next hset =>
        exact .plain trivial trivial rfl (by simp [closeBits, hset, BitVec.or_assoc]) rfl
          (by simp [Pc.Strays])
    · next hclear =>
        exact .plain trivial trivial rfl (by simp [closeBits, hclear]) rfl (by simp [Pc.Strays])
  case wakeStart w =>
    obtain ⟨rfl, rfl⟩ := Prod.mk.inj (Except.ok.inj hf)
    exact .starts
  case wakeTest w n =>
    obtain ⟨rfl, rfl⟩ := Prod.mk.inj (Except.ok.inj hf)
    exact .tests
  case wakeNext w n =>
    obtain ⟨next', hnext, hf⟩ := except_bind_ok hf
    unfold nextNode at hnext
    split at hnext
    · cases hnext
    next n₀ rest hdrop =>
      obtain rfl := Except.ok.inj hnext
      have hstep := Accessed.nexts (w := w) (n := n) hdrop
      cases hr : rest.head? with
      | none =>
          simp only [hr] at hf hstep
          obtain ⟨rfl, rfl⟩ := Prod.mk.inj (Except.ok.inj hf)
          exact hstep
      | some n' =>
          simp only [hr] at hf hstep
          obtain ⟨rfl, rfl⟩ := Prod.mk.inj (Except.ok.inj hf)
          exact hstep
  case readEof c =>
    dsimp only at hf
    split at hf <;> obtain ⟨rfl, rfl⟩ := Prod.mk.inj (Except.ok.inj hf)
    · exact .produces (w := ⟨c.q, 0, false⟩) trivial rfl rfl (by simp [Pc.Strays])
    · exact .plain trivial trivial rfl BitVec.or_zero.symm rfl (by simp [Pc.Strays])
  case readTest c =>
    dsimp only at hf
    split at hf <;> obtain ⟨rfl, rfl⟩ := Prod.mk.inj (Except.ok.inj hf)
    · split <;> exact .plain trivial trivial rfl BitVec.or_zero.symm rfl (by simp [Pc.Strays])
    · exact .plain trivial trivial rfl BitVec.or_zero.symm rfl (by simp [Pc.Strays])
  case readEmpty c =>
    dsimp only at hf
    split at hf <;> obtain ⟨rfl, rfl⟩ := Prod.mk.inj (Except.ok.inj hf)
    · exact .produces (w := ⟨c.q, 0, false⟩) trivial rfl rfl (by simp [Pc.Strays])
    · exact .plain trivial trivial rfl BitVec.or_zero.symm rfl (by simp [Pc.Strays])
  case readPeek c =>
    obtain ⟨⟨header, buffer⟩, -, hf⟩ := except_bind_ok hf
    obtain ⟨rfl, rfl⟩ := Prod.mk.inj (Except.ok.inj hf)
    split <;> exact .plain trivial trivial rfl BitVec.or_zero.symm rfl (by simp [Pc.Strays])
  case readHeader c early =>
    obtain ⟨⟨header, buffer⟩, -, hf⟩ := except_bind_ok hf
    obtain ⟨rfl, rfl⟩ := Prod.mk.inj (Except.ok.inj hf)
    exact .plain trivial trivial rfl BitVec.or_zero.symm rfl (by simp [Pc.Strays])
  case readBody c early =>
    obtain ⟨⟨body, buffer⟩, -, hf⟩ := except_bind_ok hf
    obtain ⟨rfl, rfl⟩ := Prod.mk.inj (Except.ok.inj hf)
    exact .plain trivial trivial rfl BitVec.or_zero.symm rfl (by simp [Pc.Strays])
  case readEvents c early =>
    obtain ⟨rfl, rfl⟩ := Prod.mk.inj (Except.ok.inj hf)
    refine .produces (w := ⟨c.q, c.msgHead.toBitVec.toInt, early⟩) trivial ?_ rfl (by simp [Pc.Strays])
    unfold readEvents
    split <;> rfl
  case writeCheck c =>
    obtain ⟨rfl, rfl⟩ := Prod.mk.inj (Except.ok.inj hf)
    split
    · exact .plain trivial trivial rfl BitVec.or_zero.symm rfl (by simp [Pc.Strays])
    · split <;> exact .plain trivial trivial rfl BitVec.or_zero.symm rfl (by simp [Pc.Strays])
  case writeTest c =>
    obtain ⟨rfl, rfl⟩ := Prod.mk.inj (Except.ok.inj hf)
    split <;> exact .plain trivial trivial rfl BitVec.or_zero.symm rfl (by simp [Pc.Strays])
  case writeHeader c =>
    obtain ⟨⟨ok, buffer⟩, -, hf⟩ := except_bind_ok hf
    obtain ⟨rfl, rfl⟩ := Prod.mk.inj (Except.ok.inj hf)
    exact .plain trivial trivial rfl BitVec.or_zero.symm rfl (by simp [Pc.Strays])
  case writeBody c =>
    obtain ⟨⟨ok, buffer⟩, -, hf⟩ := except_bind_ok hf
    obtain ⟨rfl, rfl⟩ := Prod.mk.inj (Except.ok.inj hf)
    exact .plain trivial trivial rfl BitVec.or_zero.symm rfl (by simp [Pc.Strays])
  case writeEvents c =>
    obtain ⟨rfl, rfl⟩ := Prod.mk.inj (Except.ok.inj hf)
    refine .produces (w := ⟨c.q, 0, false⟩) trivial ?_ rfl (by simp [Pc.Strays])
    unfold writeEvents
    split <;> rfl
  case pollLink c i q =>
    obtain ⟨rfl, rfl⟩ := Prod.mk.inj (Except.ok.inj hf)
    exact .links
  case pollCount c again numReady i q =>
    obtain ⟨rfl, rfl⟩ := Prod.mk.inj (Except.ok.inj hf)
    exact .counts
  case pollUnlink c numReady i q =>
    obtain ⟨rfl, rfl⟩ := Prod.mk.inj (Except.ok.inj hf)
    exact .unlinks

omit [Build] in
/-- An access leaves the thread with the mutexes it has. -/
theorem Accessed.locks {pc next : Pc Q} {q : Q} {mq mq' : MqBackend Node}
    (h : Accessed pc q mq mq' next) : locksAt next = locksAt pc := by
  cases h with
  | plain hp hn hl he hlocks hs => exact hlocks
  | produces hp hl hlocks hs => exact hlocks
  | starts => split <;> rfl
  | tests => split <;> rfl
  | nexts hn => split <;> rfl
  | links => rfl
  | counts =>
      rw [locksAt_countFrom, countAt_id]
      rfl
  | unlinks => rfl

theorem code_typed : Typed (code (Q := Q)) IsEntry holds where
  entry pc he m := by
    obtain ⟨e, rfl⟩ := he
    cases e <;> simp only [Entry.start, holds] <;> (repeat' split) <;> simp [locksAt]
  point pc := by
    cases hc : code pc with
    | access q f =>
        intro mq mq' next hf m
        rw [holds, (code_accessed hc hf).locks, holds]
    | alloc next =>
        cases pc <;> simp only [code, Instr.alloc.injEq, reduceCtorEq] at hc
        subst hc
        intro o m
        cases o <;> rfl
    | goto next =>
        cases pc <;> simp only [code, Instr.goto.injEq, reduceCtorEq] at hc
        subst hc
        exact fun m => Iff.rfl
    | stop =>
        cases pc <;> simp only [code, reduceCtorEq] at hc
        exact fun m hm => by cases hm
    | wait cv m next =>
        cases pc <;> simp only [code, Instr.wait.injEq, reduceCtorEq] at hc <;>
          obtain ⟨rfl, rfl, rfl⟩ := hc
        case pollWait c =>
          exact ⟨List.mem_singleton_self _, fun m => by rw [holds, locksAt_countFrom]; rfl⟩
        all_goals exact ⟨List.mem_singleton_self _, fun m => Iff.rfl⟩
    | signal cv next =>
        cases pc <;> simp only [code, Instr.signal.injEq, reduceCtorEq] at hc <;>
          obtain ⟨rfl, rfl⟩ := hc
        case writeSignal c => exact fun m => by split <;> rfl
        all_goals exact fun m => Iff.rfl
    | broadcast cv next =>
        cases pc <;> simp only [code, Instr.broadcast.injEq, reduceCtorEq] at hc <;>
          obtain ⟨rfl, rfl⟩ := hc <;> exact fun m => Iff.rfl
    | lock m next =>
        cases pc <;> simp only [code, Instr.lock.injEq, reduceCtorEq] at hc <;>
          obtain ⟨rfl, rfl⟩ := hc
        case pollLock c => exact fun m => by rw [holds, locksAt_registerFrom]; exact List.mem_cons
        all_goals exact fun m => List.mem_cons
    | unlock m next =>
        cases pc <;> simp only [code, Instr.unlock.injEq, reduceCtorEq] at hc <;>
          obtain ⟨rfl, rfl⟩ := hc
        case pollLinked c i q =>
          exact holds_unlock (locksAt_registerFrom c _ ▸ rfl) (by simp [locksAt_registerFrom])
        case pollUnlock c numReady =>
          exact holds_unlock (locksAt_unregisterFrom c _ _ ▸ rfl) (by simp)
        case pollUnlinked c numReady i q =>
          exact holds_unlock (locksAt_unregisterFrom c _ _ ▸ rfl) (by simp)
        case wakeUnlock w n => exact holds_unlock rfl w.poll_notMem_locks
        case wakeDone w => cases hw : w.early <;> simp [TypedAt, holds, locksAt, Wakeup.locks, hw]
        all_goals simp [TypedAt, holds, locksAt]

theorem next_placed {fresh : Nat} {pc next : Pc Q} (h : Leads code fresh pc next) (hp : pc.Placed) : next.Placed := by
  cases h with
  | lock hc =>
      cases pc <;> simp only [code, Instr.lock.injEq, reduceCtorEq] at hc <;>
        obtain ⟨rfl, rfl⟩ := hc
      case pollLock c => exact registerFrom_placed c 0
      all_goals trivial
  | unlock hc =>
      cases pc <;> simp only [code, Instr.unlock.injEq, reduceCtorEq] at hc <;>
        obtain ⟨rfl, rfl⟩ := hc
      case pollLinked c i q => exact registerFrom_placed ..
      case pollUnlock c numReady => exact unregisterFrom_placed ..
      case pollUnlinked c numReady i q => exact unregisterFrom_placed ..
      all_goals trivial
  | wait hc =>
      cases pc <;> simp only [code, Instr.wait.injEq, reduceCtorEq] at hc <;>
        obtain ⟨rfl, rfl, rfl⟩ := hc
      case pollWait c => exact countFrom_placed ..
      all_goals trivial
  | signal hc =>
      cases pc <;> simp only [code, Instr.signal.injEq, reduceCtorEq] at hc <;>
        obtain ⟨rfl, rfl⟩ := hc
      case writeSignal c => split <;> trivial
      all_goals trivial
  | broadcast hc =>
      cases pc <;> simp only [code, Instr.broadcast.injEq, reduceCtorEq] at hc <;>
        obtain ⟨rfl, rfl⟩ := hc <;> trivial
  | access hc hf =>
      cases code_accessed hc hf with
      | plain hpl hn => exact hn.placed
      | produces => trivial
      | starts => split <;> trivial
      | tests => split <;> trivial
      | nexts => split <;> trivial
      | links => exact hp
      | counts => exact countFrom_placed ..
      | unlinks => exact hp
  | alloc hc =>
      cases pc <;> simp only [code, Instr.alloc.injEq, reduceCtorEq] at hc
      subst hc
      exact hp
  | allocFails hc =>
      cases pc <;> simp only [code, Instr.alloc.injEq, reduceCtorEq] at hc
      subst hc
      trivial
  | goto hc =>
      cases pc <;> simp only [code, Instr.goto.injEq, reduceCtorEq] at hc
      subst hc
      trivial

/-- A thread strays only from the statements that break the discipline. -/
theorem next_strays {fresh : Nat} {pc next : Pc Q} (h : Leads code fresh pc next) (hp : pc.Placed)
    (hs : ¬ pc.Strays) (hb : ¬ pc.Breaks) : ¬ next.Strays := by
  cases h with
  | lock hc =>
      cases pc <;> simp only [code, Instr.lock.injEq, reduceCtorEq] at hc <;>
        obtain ⟨rfl, rfl⟩ := hc
      case pollLock c => exact registerFrom_not_strays hp
      all_goals exact hs
  | unlock hc =>
      cases pc <;> simp only [code, Instr.unlock.injEq, reduceCtorEq] at hc <;>
        obtain ⟨rfl, rfl⟩ := hc
      case readTooSmall c => exact absurd trivial hb
      case pollLinked c i q => exact registerFrom_not_strays hb
      case pollUnlock c numReady => exact absurd trivial hs
      case pollUnlinked c numReady i q => exact absurd trivial hs
      case pollUnlockAgain c numReady => exact id
      case wakeDone w => exact id
      all_goals exact hs
  | wait hc =>
      cases pc <;> simp only [code, Instr.wait.injEq, reduceCtorEq] at hc <;>
        obtain ⟨rfl, rfl, rfl⟩ := hc
      case pollWait c => exact absurd trivial hs
      all_goals exact hs
  | signal hc =>
      cases pc <;> simp only [code, Instr.signal.injEq, reduceCtorEq] at hc <;>
        obtain ⟨rfl, rfl⟩ := hc
      case writeSignal c => split <;> exact id
      all_goals exact hs
  | broadcast hc =>
      cases pc <;> simp only [code, Instr.broadcast.injEq, reduceCtorEq] at hc <;>
        obtain ⟨rfl, rfl⟩ := hc <;> exact id
  | access hc hf =>
      cases code_accessed hc hf with
      | plain hpl hn hl he hlocks hstrays => exact fun h => hs (hstrays.mp h)
      | produces hpl hl hlocks hstrays => exact fun h => hs (hstrays.mp h)
      | starts => split <;> exact hs
      | tests => split <;> exact hs
      | nexts => split <;> exact hs
      | links => exact id
      | counts => exact absurd trivial hs
      | unlinks => exact absurd trivial hs
  | alloc hc =>
      cases pc <;> simp only [code, Instr.alloc.injEq, reduceCtorEq] at hc
      subst hc
      exact id
  | allocFails hc =>
      cases pc <;> simp only [code, Instr.alloc.injEq, reduceCtorEq] at hc
      subst hc
      exact id
  | goto hc =>
      cases pc <;> simp only [code, Instr.goto.injEq, reduceCtorEq] at hc
      subst hc
      exact id

/-- Away from the strays, a thread unlocks and accesses only what it holds. -/
theorem clean_of_not_strays {pc : Pc Q} (hs : ¬ pc.Strays) : Clean code holds .queue pc := by
  cases pc <;> simp only [Pc.Strays, not_true_eq_false, not_false_eq_true, Bool.not_eq_true] at hs <;>
    simp [Clean, code, holds, locksAt, Wakeup.locks, hs]

/-- Behind a statement that breaks the discipline stands an access without the mutex. -/
theorem Pc.Breaks.leads {pc : Pc Q} (hb : pc.Breaks) (hp : pc.Placed) :
    ∃ m next q f, code pc = .unlock m next ∧ code next = .access q f ∧
      ¬ holds next (.queue q) := by
  cases pc with
  | readTooSmall c => exact ⟨_, _, _, _, rfl, rfl, by simp [holds, locksAt]⟩
  | pollLinked c i q =>
      have hnone : nextEntry c.fds (i + 1) = none := hb
      have hplace : queueAt c.fds i = some q := hp
      cases hfirst : nextEntry c.fds 0 with
      | none =>
          rw [nextEntry_eq_none hfirst (Nat.zero_le i)] at hplace
          cases hplace
      | some entry =>
          have hnext : registerFrom c (i + 1) = .pollCount c false 0 entry.1 entry.2 := by
            simp [registerFrom, hnone, countFrom, hfirst]
          exact ⟨_, .pollCount c false 0 entry.1 entry.2, _, _, by rw [code, hnext], rfl,
            by simp [holds, locksAt]⟩
  | _ => exact hb.elim

section Runs
variable {T : Type} [DecidableEq T] [DecidableEq Q]

/-- The threads, the mutexes and the backends. -/
abbrev System (T Q : Type) := State T (Pc Q) (Mutex Q) Q (MqBackend Node)

/-- A step of the system. -/
abbrev SysStep (s : System T Q) (l : Label T (Pc Q)) (s' : System T Q) : Prop :=
  Step code IsEntry s l s'

/-- No call is in progress; the backends have any contents but no waiters. -/
structure Quiescent (s : System T Q) : Prop where
  free : ∀ m, s.owner m = none
  idle : ∀ t, s.threads t = .idle
  unlinked : ∀ q, (s.objects q).queueListHead = []

/-- The step is one of those from which the lock discipline breaks: a thread leaves the
size check of a read with a buffer too small, or ends the registration of a poll. -/
def BreaksLock (s : System T Q) : Label T (Pc Q) → Prop
  | .step t => ∃ pc, s.threads t = .running pc ∧ pc.Breaks
  | _ => False

/-- The invariant of disciplined runs. -/
structure Orderly (s : System T Q) : Prop where
  owners : OwnersHold code holds s
  holders : HoldersOwn code holds s
  placed : ∀ t pc, (s.threads t).point = some pc → pc.Placed
  straight : ∀ t pc, (s.threads t).point = some pc → ¬ pc.Strays

variable {s s₀ s' : System T Q} {l : Label T (Pc Q)}

omit [DecidableEq T] [DecidableEq Q] [Build] in
theorem Quiescent.no_point (h : Quiescent s) {t : T} {pc : Pc Q} :
    (s.threads t).point ≠ some pc := by
  simp [h.idle, Thread.point]

omit [DecidableEq T] [DecidableEq Q] in
theorem Quiescent.owners (h : Quiescent s) : OwnersHold code holds s := by
  intro m t hm
  rw [h.free] at hm
  cases hm

omit [DecidableEq T] [DecidableEq Q] in
theorem Quiescent.orderly (h : Quiescent s) : Orderly s where
  owners := h.owners
  holders t m hm := by
    rw [h.idle] at hm
    exact hm.elim
  placed t pc hpc := absurd hpc h.no_point
  straight t pc hpc := absurd hpc h.no_point

theorem placed_step (hp : ∀ t pc, (s.threads t).point = some pc → pc.Placed)
    (h : SysStep s l s') : ∀ t pc, (s'.threads t).point = some pc → pc.Placed := fun _ _ =>
  h.point_invariant (fun _ he => (entry_placed he).1) (fun _ _ _ _ hm => next_placed hm.leads) hp

omit [DecidableEq T] [DecidableEq Q] in
theorem Orderly.unlocksOwn (ho : Orderly s) : UnlocksOwn code holds s l := by
  cases l with
  | step t =>
      intro pc m next hpc hc
      have hclean := clean_of_not_strays (ho.straight t pc (by rw [hpc]; rfl))
      rw [Clean, hc] at hclean
      exact Or.inl hclean
  | _ => trivial

theorem Orderly.step (ho : Orderly s) (hb : ¬ BreaksLock s l) (h : SysStep s l s') :
    Orderly s' where
  owners := ho.owners.step code_typed h
  holders := ho.holders.step code_typed ho.unlocksOwn h
  placed := placed_step ho.placed h
  straight t pc hpc := by
    refine (h.point_invariant (P := fun pc => pc.Placed ∧ ¬ pc.Strays) (fun _ => entry_placed)
      (fun u pc₀ next hl hm hp => ?_)
      (fun u pc₀ hpc₀ => ⟨ho.placed u pc₀ hpc₀, ho.straight u pc₀ hpc₀⟩) hpc).2
    refine ⟨next_placed hm.leads hp.1, next_strays hm.leads hp.1 hp.2 fun hbr => ?_⟩
    subst hl
    cases hm with
    | running hpc₀ hn => exact hb ⟨pc₀, hpc₀, hbr⟩
    | woken hpc₀ hc => cases pc₀ <;> first | exact hbr | cases hc

omit [DecidableEq T] [DecidableEq Q] in
theorem Orderly.disciplined (ho : Orderly s) : Disciplined code Mutex.queue s :=
  (disciplined_iff_clean ho.owners ho.holders).mpr
    fun t pc hpc => clean_of_not_strays (ho.straight t pc (by rw [hpc]; rfl))

/-- A step that breaks the lock leaves a thread about to touch a backend unlocked. -/
theorem Orderly.not_disciplined_of_breaks (ho : Orderly s) (hb : BreaksLock s l)
    (h : SysStep s l s') : ¬ Disciplined code Mutex.queue s' := by
  have howners := ho.owners.step code_typed h
  cases l with
  | step t =>
      obtain ⟨pc, hpc, hbr⟩ := hb
      obtain ⟨m, next, q, f, hc, hnext, hnot⟩ := hbr.leads (ho.placed t pc (by rw [hpc]; rfl))
      have hs := h.executes hpc
      rw [hc] at hs
      subst hs
      intro hd
      have howner := hd t next (State.goTo_self ..)
      rw [hnext] at howner
      have hheld := howners _ _ howner
      rw [State.goTo_self] at hheld
      exact hnot hheld
  | start t pc => exact hb.elim
  | spurious t => exact hb.elim

/-- In every run without such a step, accesses and unlocks are made by the owners of
the mutexes; the first such step breaks this. -/
theorem lock_discipline_iff (h₀ : Quiescent s₀) {ls : List (Label T (Pc Q))}
    (run : Run (Guarded SysStep fun s l => ¬ BreaksLock s l) s₀ ls s) :
    Disciplined code Mutex.queue s ∧
      ∀ l s', SysStep s l s' → (Disciplined code Mutex.queue s' ↔ ¬ BreaksLock s l) := by
  have ho : Orderly s :=
    run.state_invariant h₀.orderly fun _ _ _ ho h => ho.step h.2 h.1
  refine ⟨ho.disciplined, fun l s' h => ⟨fun hd hb => ?_, fun hb => (ho.step hb h).disciplined⟩⟩
  exact ho.not_disciplined_of_breaks hb h hd

section Traces

/-- One backend with the handle that has written a message of two bytes into its ring of
eleven. -/
private def holding2 : System Unit Unit where
  owner _ := none
  threads _ := .idle
  objects _ :=
    ⟨⟨[2, 0, 0, 0, 0, 0, 0, 0, 7, 7, 0xDD], 11, 0, 10, false⟩, 1, 1, 1, false, false, 1, []⟩
  fresh := 0

omit [Build] in
private theorem holding2_quiescent : Quiescent holding2 := ⟨fun _ => rfl, fun _ => rfl, fun _ => rfl⟩

omit [Build] in
/-- A thread locks the backend to open a handle, and is about to touch the counts. -/
theorem lock_discipline_iff_open :
    letI : Build := ⟨false⟩
    ∃ s : System Unit Unit, s.threads () = .running (.openTouch () 1) ∧
      Disciplined code Mutex.queue s := by
  let _ : Build := ⟨false⟩
  have start : Run (Guarded SysStep fun s l => ¬ BreaksLock s l) holding2 [] holding2 := .nil
  have run := (start.snoc ⟨.start (t := ()) rfl ⟨.open () 1, rfl⟩, id⟩).snoc
    ⟨.lock (t := ()) rfl rfl rfl, by rintro ⟨pc, hpc, hb⟩; cases hpc; exact hb⟩
  exact ⟨_, rfl, (lock_discipline_iff holding2_quiescent run).1⟩

omit [Build] in
/-- A read with a buffer of one byte finds a message of two: it unlocks in its size
check and goes on to read the header without the mutex. -/
theorem read_touches_ring_unlocked :
    letI : Build := ⟨false⟩
    ∃ (s₀ s : System Unit Unit) (ls : List (Label Unit (Pc Unit))), Quiescent s₀ ∧
      Run SysStep s₀ ls s ∧ ¬ Disciplined code Mutex.queue s := by
  let _ : Build := ⟨false⟩
  have start : Run SysStep holding2 [] holding2 := .nil
  have run := (((((start.snoc
    (.start (t := ()) rfl ⟨.read () 3 1 0, rfl⟩)).snoc
    (.lock (t := ()) rfl rfl rfl)).snoc
    (.access (t := ()) rfl rfl rfl)).snoc
    (.access (t := ()) rfl rfl rfl)).snoc
    (.access (t := ()) rfl rfl rfl)).snoc
    (.access (t := ()) rfl rfl rfl)
  refine ⟨holding2, _, _, holding2_quiescent, run.snoc (.unlock (t := ()) rfl rfl), fun hd => ?_⟩
  have howner := hd () (.readHeader ⟨(), 3, 1, 2⟩ true) rfl
  cases howner

end Traces

end Runs

end UoftOs.MsgQueue
