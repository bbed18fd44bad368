import UoftOs.MsgQueue.LockDiscipline

/-!
# What is left of a critical section

A thread at a statement under the mutex of a queue has something left to do before it
releases the mutex. `remaining` says what: it is a segment where the section begins, each
statement takes its part off it, and nothing is left at the release.

## Implementation notes

The waiter list is no part of a segment. `errno` is what a refused write has set; no
statement carries it.
-/

namespace UoftOs.MsgQueue

open Lib.Threads

/-- The backend without its waiters. -/
def MqBackend.unlinked (mq : MqBackend Node) : MqBackend Empty :=
  { buffer := mq.buffer, refs := mq.refs, readers := mq.readers, writers := mq.writers
    noReaders := mq.noReaders, noWriters := mq.noWriters, queueEvent := mq.queueEvent
    queueListHead := [] }

/-- What a critical section has done when it releases the mutex; the backend is gone after
the last `msg_queue_close`. -/
structure Effects where
  mq : Option (MqBackend Empty)
  notify : List Notify
  stored : List UInt8
  ringOk : List Bool
  next : Next

namespace Effects

/-- Nothing but a new backend. -/
def quiet (mq : MqBackend Empty) (next : Next) : Effects := ⟨some mq, [], [], [], next⟩

def ofSegment (seg : Segment Empty) : Effects :=
  ⟨some seg.mq, seg.notify, seg.stored, seg.ringOk, seg.next⟩

def ofClose (result : Option (MqBackend Empty) × List Notify) : Effects :=
  ⟨result.1, result.2, [], [], .ret 0 none⟩

/-- The effects when these have come before. -/
def after (ns : List Notify) (stored : List UInt8) (ringOk : List Bool) (d : Effects) : Effects :=
  { d with notify := ns ++ d.notify, stored := stored ++ d.stored, ringOk := ringOk ++ d.ringOk }

theorem after_after (d : Effects) (ns ns' : List Notify) (bs bs' : List UInt8)
    (oks oks' : List Bool) :
    (d.after ns' bs' oks').after ns bs oks = d.after (ns ++ ns') (bs ++ bs') (oks ++ oks') := by
  simp only [after, List.append_assoc]

end Effects

section Remaining
variable {Q : Type} [Build]

/-- The end of `msg_queue_close` from the writers' turn on. -/
def closeWriters (mq : MqBackend Empty) : Effects :=
  if mq.noWriters then
    .ofClose (some { mq with queueEvent := mq.queueEvent ||| mqpollReadable ||| mqpollNowriters },
      [.broadcast .spaceEmpty])
  else .ofClose (some mq, [])

/-- The end of `msg_queue_close` from the readers' turn on. -/
def closeReaders (mq : MqBackend Empty) : Effects :=
  if mq.noReaders then
    (closeWriters { mq with
      queueEvent := mq.queueEvent ||| mqpollWritable ||| mqpollNoreaders }).after
      [.broadcast .spaceFull] [] []
  else closeWriters mq

/-- The end of `msg_queue_read` from `ring_buffer_peek` on. -/
def readFromPeek (mq : MqBackend Empty) (length msgHead : UInt64) : Except Fault Effects := do
  let (header, _) ← ringBufferPeek mq.buffer sizeofSizeT
  let msgHead := (header.map sizeValue).getD msgHead
  if length < msgHead then
    return (Effects.quiet mq (.drain msgHead)).after [] [] [header.isSome]
  let seg ← readDrain mq msgHead
  return (Effects.ofSegment seg).after [] [] [header.isSome]

/-- The end of `msg_queue_read` when the message has been read. -/
def readFromSignal (mq : MqBackend Empty) (msgHead : UInt64) : Effects :=
  ⟨some (readEvents mq), [.signal .spaceFull], [], [], .ret msgHead.toBitVec.toInt none⟩

/-- The end of `msg_queue_read` when the header has been read. -/
def readFromBody (mq : MqBackend Empty) (msgHead : UInt64) : Except Fault Effects := do
  let (body, buffer) ← ringBufferRead mq.buffer msgHead
  return (readFromSignal { mq with buffer } msgHead).after [] (body.getD []) [body.isSome]

/-- The end of `msg_queue_write` when the message is in the ring. -/
def writeFromSignal (mq : MqBackend Empty) (flags : CInt) : Effects :=
  (if hasAny flags msgQueueNonblock then .quiet mq (.ret (-1) (some .EAGAIN))
    else .quiet (writeEvents mq) (.ret 0 none) : Effects).after [.signal .spaceEmpty] [] []

/-- The end of `msg_queue_write` when the header is in the ring. -/
def writeFromBody (mq : MqBackend Empty) (flags : CInt) (buffer : List UInt8) (length : UInt64) :
    Except Fault Effects := do
  let (ok, ring) ← ringBufferWrite mq.buffer buffer length
  return (writeFromSignal { mq with buffer := ring } flags).after [] [] [ok]

/-- The end of `msg_queue_write` behind its wait loop. -/
def writeFromHeader (mq : MqBackend Empty) (flags : CInt) (buffer : List UInt8)
    (length : UInt64) : Except Fault Effects := do
  let (ok, ring) ← ringBufferWrite mq.buffer (sizeBytes length) sizeofSizeT
  let d ← writeFromBody { mq with buffer := ring } flags buffer length
  return d.after [] [] [ok]

/-- What a thread at a statement does until it releases the mutex. Away from the critical
sections of reads, writes, opens and closes it changes nothing. -/
def remaining (errno : Option Errno) : Pc Q → MqBackend Empty → Except Fault Effects
  | .openTouch _ flags, mq => .ok (.quiet (mqOpen mq flags) (.ret 0 none))
  | .closeTouch _ flags, mq => (msgQueueClose mq flags).map .ofClose
  | .closeLast _, _ => .ok (.ofClose (none, []))
  | .closeNoReaders _, mq => .ok (closeReaders mq)
  | .closeWakeWriters _, mq => .ok ((closeWriters mq).after [.broadcast .spaceFull] [] [])
  | .closeNoWriters _, mq => .ok (closeWriters mq)
  | .closeWakeReaders _, mq => .ok (.ofClose (some mq, [.broadcast .spaceEmpty]))
  | .wakeStart w, mq => .ok (.quiet mq (.ret w.value none))
  | .wakeTest w _, mq => .ok (.quiet mq (.ret w.value none))
  | .wakeLock w _, mq => .ok (.quiet mq (.ret w.value none))
  | .wakeSignal w _, mq => .ok (.quiet mq (.ret w.value none))
  | .wakeUnlock w _, mq => .ok (.quiet mq (.ret w.value none))
  | .wakeNext w _, mq => .ok (.quiet mq (.ret w.value none))
  | .wakeDone w, mq => .ok (.quiet mq (.ret w.value none))
  | .readEof c, mq => (msgQueueRead mq c.flags c.length c.msgHead).map .ofSegment
  | .readTest c, mq => (readLoop mq c.flags c.length c.msgHead).map .ofSegment
  | .readAgain _, mq => .ok (.quiet mq (.ret (-1) (some .EAGAIN)))
  | .readWait _, mq => .ok (.quiet mq (.wait .spaceEmpty))
  | .readEmpty c, mq => (readAfterWait mq c.length c.msgHead).map .ofSegment
  | .readPeek c, mq => readFromPeek mq c.length c.msgHead
  | .readTooSmall c, mq => .ok (.quiet mq (.drain c.msgHead))
  | .readHeader c _, mq => (readDrain mq c.msgHead).map .ofSegment
  | .readBody c _, mq => readFromBody mq c.msgHead
  | .readSignal c _, mq => .ok (readFromSignal mq c.msgHead)
  | .readEvents c _, mq => .ok (.quiet (readEvents mq) (.ret c.msgHead.toBitVec.toInt none))
  | .writeCheck c, mq => (msgQueueWrite mq c.flags c.buffer c.length).map .ofSegment
  | .writeTest c, mq => (writeLoop mq c.flags c.buffer c.length).map .ofSegment
  | .writeWait _, mq => .ok (.quiet mq (.wait .spaceFull))
  | .writeHeader c, mq => writeFromHeader mq c.flags c.buffer c.length
  | .writeBody c, mq => writeFromBody mq c.flags c.buffer c.length
  | .writeSignal c, mq => .ok (writeFromSignal mq c.flags)
  | .writeEvents _, mq => .ok (.quiet (writeEvents mq) (.ret 0 none))
  | .writeRefuse _, mq => .ok (.quiet mq (.ret (-1) errno))
  | _, mq => .ok (.quiet mq (.ret 0 none))

/-- The calls past their checks. -/
def Pc.Checked : Pc Q → Prop
  | .readLock c => hasAny c.flags msgQueueReader = true
  | .readEof c => hasAny c.flags msgQueueReader = true
  | .writeLock c => hasAny c.flags msgQueueWriter = true ∧ c.length ≠ 0
  | .writeCheck c => hasAny c.flags msgQueueWriter = true ∧ c.length ≠ 0
  | _ => True

/-- The bytes that an access stores in the caller's buffer. -/
def Pc.stores (pc : Pc Q) (mq : MqBackend Node) : List UInt8 :=
  match pc with
  | .readBody c _ =>
      match ringBufferRead mq.buffer c.msgHead with
      | .ok (body, _) => body.getD []
      | .error _ => []
  | _ => []

end Remaining

section Unlinked
variable (mq : MqBackend Node) (flags : CInt)

theorem mqOpen_unlinked : mqOpen mq.unlinked flags = (mqOpen mq flags).unlinked := by
  unfold mqOpen
  split <;> split <;> rfl

/-- The assertions of `mq_close`, and whether this was the last handle. -/
def closeAsserts [Build] (refs readers writers : Nat) (flags : CInt) : Except Fault Bool := do
  cAssert (refs != 0)
  cAssert (decide (refs ≥ readers))
  cAssert (decide (refs ≥ writers))
  if refs - 1 == 0 then
    cAssert ((if hasAny flags msgQueueReader then readers - 1 else readers) == 0)
    cAssert ((if hasAny flags msgQueueWriter then writers - 1 else writers) == 0)
    return true
  return false

/-- The counters after `mq_close`. -/
def closeCounts {N : Type} (mq : MqBackend N) (flags : CInt) : MqBackend N :=
  let mq := if hasAny flags msgQueueReader then
    { mq with readers := mq.readers - 1, noReaders := mq.readers - 1 == 0 || mq.noReaders } else mq
  let mq := if hasAny flags msgQueueWriter then
    { mq with writers := mq.writers - 1, noWriters := mq.writers - 1 == 0 || mq.noWriters } else mq
  { mq with refs := mq.refs - 1 }

theorem mqClose_split [Build] {N : Type} (mq : MqBackend N) (flags : CInt) :
    mqClose mq flags = (closeAsserts mq.refs mq.readers mq.writers flags).map
      fun last => (last, closeCounts mq flags) := by
  unfold mqClose closeAsserts closeCounts
  cases hasAny flags msgQueueReader <;> cases hasAny flags msgQueueWriter <;>
    simp only [if_true, if_false, Bool.false_eq_true] <;>
    cases cAssert (mq.refs != 0) <;> try rfl
  all_goals
    cases cAssert (decide (mq.refs ≥ mq.readers)) <;> try rfl
  all_goals
    cases cAssert (decide (mq.refs ≥ mq.writers)) <;> try rfl
  all_goals
    cases hlast : mq.refs - 1 == 0 <;>
      simp only [bind, Except.bind, pure, Except.pure, if_true, if_false, Bool.false_eq_true,
        Except.map]
  all_goals
    split
    · rfl
    · split <;> rfl

theorem mqClose_unlinked [Build] :
    mqClose mq.unlinked flags = (mqClose mq flags).map fun r => (r.1, r.2.unlinked) := by
  have hcounts : closeCounts mq.unlinked flags = (closeCounts mq flags).unlinked := by
    unfold closeCounts
    cases hasAny flags msgQueueReader <;> cases hasAny flags msgQueueWriter <;> rfl
  rw [mqClose_split, mqClose_split, hcounts]
  change (closeAsserts mq.refs mq.readers mq.writers flags).map _ = _
  cases closeAsserts mq.refs mq.readers mq.writers flags <;> rfl

theorem readEvents_unlinked : readEvents mq.unlinked = (readEvents mq).unlinked := by
  cases h : ringBufferUsed mq.buffer == 0 && !mq.noWriters <;>
    simp only [readEvents, MqBackend.unlinked, h, if_true, if_false, Bool.false_eq_true]

theorem writeEvents_unlinked : writeEvents mq.unlinked = (writeEvents mq).unlinked := by
  cases h : ringBufferFree mq.buffer == 0 && !mq.noReaders <;>
    simp only [writeEvents, MqBackend.unlinked, h, if_true, if_false, Bool.false_eq_true]

end Unlinked

section Equations
variable [Build] (mq : MqBackend Empty) (flags : CInt) (buffer : List UInt8)
  (length msgHead : UInt64)

theorem readAfterWait_eq : (readAfterWait mq length msgHead).map .ofSegment =
    if ringBufferUsed mq.buffer == 0 && mq.noWriters then
      .ok (.quiet { mq with queueEvent := mq.queueEvent ||| mqpollNowriters } (.ret 0 none))
    else readFromPeek mq length msgHead := by
  unfold readAfterWait readFromPeek
  split
  · rfl
  · cases ringBufferPeek mq.buffer sizeofSizeT with
    | error e => rfl
    | ok r =>
        obtain ⟨header, rb⟩ := r
        simp only [bind, Except.bind]
        split
        · rfl
        · cases readDrain mq ((header.map sizeValue).getD msgHead) <;> rfl

theorem readDrain_eq : (readDrain mq msgHead).map .ofSegment =
    (do
      let (header, buffer) ← ringBufferRead mq.buffer sizeofSizeT
      let d ← readFromBody { mq with buffer } ((header.map sizeValue).getD msgHead)
      return d.after [] [] [header.isSome]) := by
  unfold readDrain readFromBody
  cases ringBufferRead mq.buffer sizeofSizeT with
  | error e => rfl
  | ok r =>
      obtain ⟨header, rb⟩ := r
      simp only [bind, Except.bind]
      cases ringBufferRead rb ((header.map sizeValue).getD msgHead) with
      | error e => rfl
      | ok r =>
          obtain ⟨body, rb'⟩ := r
          simp only [pure, Except.pure, Except.map, Effects.ofSegment, readFromSignal,
            Effects.after, List.nil_append, List.append_nil, List.cons_append]

theorem writeLoop_eq : (writeLoop mq flags buffer length).map .ofSegment =
    if ringBufferFree mq.buffer < length + sizeofSizeT then .ok (.quiet mq (.wait .spaceFull))
    else writeFromHeader mq flags buffer length := by
  unfold writeLoop writeFromHeader writeFromBody
  split
  · rfl
  · cases ringBufferWrite mq.buffer (sizeBytes length) sizeofSizeT with
    | error e => rfl
    | ok r =>
        obtain ⟨ok₁, rb⟩ := r
        simp only [bind, Except.bind]
        cases ringBufferWrite rb buffer length with
        | error e => rfl
        | ok r =>
            obtain ⟨ok₂, rb'⟩ := r
            cases h : hasAny flags msgQueueNonblock <;>
              simp [h, pure, Except.pure, Except.map, Effects.ofSegment, writeFromSignal,
                Effects.after, Effects.quiet]

theorem msgQueueWrite_eq (hwriter : hasAny flags msgQueueWriter = true) (hlength : length ≠ 0) :
    (msgQueueWrite mq flags buffer length).map Effects.ofSegment =
      if mq.noReaders then .ok (Effects.quiet mq (.ret (-1) (some .EPIPE)))
      else if mq.buffer.size ≤ length + sizeofSizeT then
        .ok (Effects.quiet mq (.ret (-1) (some .EMSGSIZE)))
      else (writeLoop mq flags buffer length).map Effects.ofSegment := by
  unfold msgQueueWrite
  rw [if_neg (by rw [hwriter]; decide), if_neg (by rwa [beq_iff_eq])]
  by_cases hr : mq.noReaders = true
  · rw [if_pos hr, if_pos hr]
    rfl
  · rw [if_neg hr, if_neg hr]
    by_cases hsize : mq.buffer.size ≤ length + sizeofSizeT
    · rw [if_pos hsize, if_pos hsize]
      rfl
    · rw [if_neg hsize, if_neg hsize]

theorem msgQueueClose_eq : (msgQueueClose mq flags).map .ofClose =
    (do
      let (last, mq) ← mqClose mq flags
      return if last then .ofClose (none, []) else closeReaders mq) := by
  unfold msgQueueClose
  cases mqClose mq flags with
  | error e => rfl
  | ok r =>
      obtain ⟨last, mq'⟩ := r
      cases last with
      | true => rfl
      | false =>
          cases hr : mq'.noReaders <;> cases hw : mq'.noWriters <;>
            simp [bind, Except.bind, pure, Except.pure, Except.map, closeReaders, closeWriters,
              Effects.ofClose, Effects.after, hr, hw]

end Equations

section Steps
variable {Q : Type} [Build] {pc next : Pc Q} {q : Q} {errno : Option Errno}
  {mq mq' : MqBackend Node} {f : MqBackend Node → Except Fault (MqBackend Node × Pc Q)}

theorem ringBufferPeek_same {rb rb' : RingBuffer} {n : UInt64} {header : Option (List UInt8)}
    (h : ringBufferPeek rb n = .ok (header, rb')) : rb' = rb := by
  unfold ringBufferPeek ringBufferReadCommon at h
  obtain ⟨-, -, h⟩ := except_bind_ok h
  simp only [Bool.false_eq_true, if_false] at h
  split at h
  · exact (Prod.mk.inj (Except.ok.inj h)).2.symm
  · split at h
    · obtain ⟨out, -, h⟩ := except_bind_ok h
      exact (Prod.mk.inj (Except.ok.inj h)).2.symm
    · obtain ⟨out₁, -, h⟩ := except_bind_ok h
      obtain ⟨out₂, -, h⟩ := except_bind_ok h
      exact (Prod.mk.inj (Except.ok.inj h)).2.symm

omit [Build] in
theorem map_after_nil (r : Except Fault Effects) : r.map (·.after [] [] []) = r := by
  cases r <;> rfl

omit [Build] in
theorem ofSegment_after (r : Except Fault (Segment Empty)) (oks : List Bool) :
    (r.map Effects.ofSegment).map (·.after [] [] oks) =
      (do
        let seg ← r
        return (Effects.ofSegment seg).after [] [] oks) := by
  cases r <;> rfl

@[simp] theorem remaining_countFrom (c : PollCall Q) (again : Bool) (numReady i : Nat)
    (mq : MqBackend Empty) :
    remaining errno (countFrom c again numReady i) mq = .ok (.quiet mq (.ret 0 none)) := by
  unfold countFrom
  split
  · rfl
  · split <;> rfl

/-- An access takes its part off what is left. -/
theorem remaining_access (hc : code pc = .access q f) (hchecked : pc.Checked)
    (hf : f mq = .ok (mq', next)) :
    ∃ errno' oks, remaining errno pc mq.unlinked =
      (remaining errno' next mq'.unlinked).map (·.after [] (pc.stores mq) oks) := by
  cases pc <;> simp only [code, Instr.access.injEq, reduceCtorEq] at hc <;>
    obtain ⟨rfl, rfl⟩ := hc
  case openTouch q flags =>
    obtain ⟨rfl, rfl⟩ := Prod.mk.inj (Except.ok.inj hf)
    exact ⟨errno, [], by rw [remaining, mqOpen_unlinked]; rfl⟩
  case closeTouch q flags =>
    obtain ⟨⟨last, mq₁⟩, hclose, hf⟩ := except_bind_ok hf
    obtain ⟨rfl, rfl⟩ := Prod.mk.inj (Except.ok.inj hf)
    refine ⟨errno, [], ?_⟩
    rw [remaining, msgQueueClose_eq, mqClose_unlinked, hclose]
    cases last <;> rfl
  case closeNoReaders q =>
    dsimp only at hf
    split at hf <;> obtain ⟨rfl, rfl⟩ := Prod.mk.inj (Except.ok.inj hf)
    · next hset =>
        exact ⟨errno, [], by simp [remaining, closeReaders, MqBackend.unlinked, hset]; rfl⟩
    · next hset =>
        exact ⟨errno, [], by simp [remaining, closeReaders, MqBackend.unlinked, hset]; rfl⟩
  case closeNoWriters q =>
    dsimp only at hf
    split at hf <;> obtain ⟨rfl, rfl⟩ := Prod.mk.inj (Except.ok.inj hf)
    · next hset =>
        exact ⟨errno, [], by simp [remaining, closeWriters, MqBackend.unlinked, hset]; rfl⟩
    · next hset =>
        exact ⟨errno, [], by simp [remaining, closeWriters, MqBackend.unlinked, hset]; rfl⟩
  case wakeStart w =>
    obtain ⟨rfl, rfl⟩ := Prod.mk.inj (Except.ok.inj hf)
    refine ⟨errno, [], ?_⟩
    cases mq.queueListHead.head? <;> rfl
  case wakeTest w n =>
    obtain ⟨rfl, rfl⟩ := Prod.mk.inj (Except.ok.inj hf)
    refine ⟨errno, [], ?_⟩
    split <;> rfl
  case wakeNext w n =>
    obtain ⟨next', -, hf⟩ := except_bind_ok hf
    refine ⟨errno, [], ?_⟩
    cases next' <;> obtain ⟨rfl, rfl⟩ := Prod.mk.inj (Except.ok.inj hf) <;> rfl
  case readEof c =>
    have hreader : (!hasAny c.flags msgQueueReader) = false := by rw [hchecked]; rfl
    dsimp only at hf
    split at hf <;> obtain ⟨rfl, rfl⟩ := Prod.mk.inj (Except.ok.inj hf) <;>
      refine ⟨errno, [], ?_⟩ <;> rename_i hend <;>
      simp only [remaining, msgQueueRead, MqBackend.unlinked, hreader, hend, if_true, if_false,
        Bool.false_eq_true]
    · rfl
    · exact (map_after_nil _).symm
  case readTest c =>
    dsimp only at hf
    split at hf <;> obtain ⟨rfl, rfl⟩ := Prod.mk.inj (Except.ok.inj hf) <;>
      refine ⟨errno, [], ?_⟩ <;> rename_i hempty <;>
      simp only [remaining, readLoop, MqBackend.unlinked, hempty, if_true, if_false,
        Bool.false_eq_true]
    · split <;> rfl
    · exact (map_after_nil _).symm
  case readEmpty c =>
    dsimp only at hf
    split at hf <;> obtain ⟨rfl, rfl⟩ := Prod.mk.inj (Except.ok.inj hf) <;>
      refine ⟨errno, [], ?_⟩ <;> rename_i hend <;>
      simp only [remaining, readAfterWait_eq, MqBackend.unlinked, hend, if_true, if_false,
        Bool.false_eq_true]
    · rfl
    · exact (map_after_nil _).symm
  case readPeek c =>
    obtain ⟨⟨header, rb⟩, hpeek, hf⟩ := except_bind_ok hf
    obtain ⟨rfl, rfl⟩ := Prod.mk.inj (Except.ok.inj hf)
    obtain rfl := ringBufferPeek_same hpeek
    refine ⟨errno, [header.isSome], ?_⟩
    have hpeek' : ringBufferPeek mq.unlinked.buffer sizeofSizeT = .ok (header, mq.buffer) := hpeek
    simp only [remaining, readFromPeek, hpeek', bind, Except.bind]
    split
    · rfl
    · exact (ofSegment_after ..).symm
  case readHeader c early =>
    obtain ⟨⟨header, rb⟩, hread, hf⟩ := except_bind_ok hf
    obtain ⟨rfl, rfl⟩ := Prod.mk.inj (Except.ok.inj hf)
    have hread' : ringBufferRead mq.unlinked.buffer sizeofSizeT = .ok (header, rb) := hread
    refine ⟨errno, [header.isSome], ?_⟩
    rw [remaining, readDrain_eq, hread']
    rfl
  case readBody c early =>
    obtain ⟨⟨body, rb⟩, hread, hf⟩ := except_bind_ok hf
    obtain ⟨rfl, rfl⟩ := Prod.mk.inj (Except.ok.inj hf)
    have hread' : ringBufferRead mq.unlinked.buffer c.msgHead = .ok (body, rb) := hread
    refine ⟨errno, [body.isSome], ?_⟩
    simp only [remaining, readFromBody, Pc.stores, hread', hread]
    rfl
  case readEvents c early =>
    obtain ⟨rfl, rfl⟩ := Prod.mk.inj (Except.ok.inj hf)
    refine ⟨errno, [], ?_⟩
    rw [remaining, remaining, readEvents_unlinked]
    rfl
  case writeCheck c =>
    obtain ⟨hwriter, hlength⟩ := hchecked
    obtain ⟨rfl, rfl⟩ := Prod.mk.inj (Except.ok.inj hf)
    rw [remaining, msgQueueWrite_eq _ _ _ _ hwriter hlength]
    dsimp only [MqBackend.unlinked]
    by_cases hr : mq.noReaders = true
    · exact ⟨some .EPIPE, [], by simp only [hr, if_true]; rfl⟩
    · by_cases hsize : mq.buffer.size ≤ c.length + sizeofSizeT
      · exact ⟨some .EMSGSIZE, [], by simp only [hr, hsize, if_true]; rfl⟩
      · exact ⟨errno, [], by simp only [hr, hsize, if_false]; exact (map_after_nil _).symm⟩
  case writeTest c =>
    obtain ⟨rfl, rfl⟩ := Prod.mk.inj (Except.ok.inj hf)
    refine ⟨errno, [], ?_⟩
    simp only [remaining, writeLoop_eq, MqBackend.unlinked]
    split
    · rfl
    · exact (map_after_nil _).symm
  case writeHeader c =>
    obtain ⟨⟨ok, rb⟩, hwrite, hf⟩ := except_bind_ok hf
    obtain ⟨rfl, rfl⟩ := Prod.mk.inj (Except.ok.inj hf)
    have hwrite' : ringBufferWrite mq.unlinked.buffer (sizeBytes c.length) sizeofSizeT =
      .ok (ok, rb) := hwrite
    refine ⟨errno, [ok], ?_⟩
    rw [remaining, writeFromHeader, hwrite']
    rfl
  case writeBody c =>
    obtain ⟨⟨ok, rb⟩, hwrite, hf⟩ := except_bind_ok hf
    obtain ⟨rfl, rfl⟩ := Prod.mk.inj (Except.ok.inj hf)
    have hwrite' : ringBufferWrite mq.unlinked.buffer c.buffer c.length = .ok (ok, rb) := hwrite
    refine ⟨errno, [ok], ?_⟩
    rw [remaining, writeFromBody, hwrite']
    rfl
  case writeEvents c =>
    obtain ⟨rfl, rfl⟩ := Prod.mk.inj (Except.ok.inj hf)
    refine ⟨errno, [], ?_⟩
    rw [remaining, remaining, writeEvents_unlinked]
    rfl
  case pollLink c i q =>
    obtain ⟨rfl, rfl⟩ := Prod.mk.inj (Except.ok.inj hf)
    exact ⟨errno, [], rfl⟩
  case pollCount c again numReady i q =>
    obtain ⟨rfl, rfl⟩ := Prod.mk.inj (Except.ok.inj hf)
    exact ⟨errno, [], by rw [remaining_countFrom]; rfl⟩
  case pollUnlink c numReady i q =>
    obtain ⟨rfl, rfl⟩ := Prod.mk.inj (Except.ok.inj hf)
    exact ⟨errno, [], rfl⟩

/-- The statements that walk the waiter list. -/
def Pc.Walks : Pc Q → Prop
  | .wakeNext .. => True
  | _ => False

omit [Build] in
/-- Where only the first part of a sequence can fault, it is the one that does. -/
theorem except_bind_error {ε α β : Type} {x : Except ε α} {g : α → Except ε β} {e : ε}
    (h : (x >>= g) = .error e) (hg : ∀ a, ∃ b, g a = .ok b) : x = .error e := by
  cases x with
  | error e' => exact congrArg _ (Except.error.inj h)
  | ok a =>
      obtain ⟨b, hb⟩ := hg a
      have hclash : Except.error e = Except.ok b := h.symm.trans hb
      cases hclash

/-- Where an access faults what is left does, except for a walk off the waiter list. -/
theorem remaining_fault {e : Fault} (hc : code pc = .access q f) (hwalk : ¬ pc.Walks)
    (hf : f mq = .error e) : remaining errno pc mq.unlinked = .error e := by
  cases pc <;> simp only [code, Instr.access.injEq, reduceCtorEq] at hc <;>
    obtain ⟨rfl, rfl⟩ := hc
  case closeTouch q flags =>
    have hclose := except_bind_error hf fun a => ⟨_, rfl⟩
    rw [remaining, msgQueueClose_eq, mqClose_unlinked, hclose]
    rfl
  case wakeNext => exact absurd trivial hwalk
  case readPeek c =>
    have hpeek : ringBufferPeek mq.unlinked.buffer sizeofSizeT = .error e :=
      except_bind_error hf fun a => ⟨_, rfl⟩
    rw [remaining, readFromPeek, hpeek]
    rfl
  case readHeader c early =>
    have hread : ringBufferRead mq.unlinked.buffer sizeofSizeT = .error e :=
      except_bind_error hf fun a => ⟨_, rfl⟩
    rw [remaining, readDrain_eq, hread]
    rfl
  case readBody c early =>
    have hread : ringBufferRead mq.unlinked.buffer c.msgHead = .error e :=
      except_bind_error hf fun a => ⟨_, rfl⟩
    rw [remaining, readFromBody, hread]
    rfl
  case writeHeader c =>
    have hwrite : ringBufferWrite mq.unlinked.buffer (sizeBytes c.length) sizeofSizeT =
        .error e := except_bind_error hf fun a => ⟨_, rfl⟩
    rw [remaining, writeFromHeader, hwrite]
    rfl
  case writeBody c =>
    have hwrite : ringBufferWrite mq.unlinked.buffer c.buffer c.length = .error e :=
      except_bind_error hf fun a => ⟨_, rfl⟩
    rw [remaining, writeFromBody, hwrite]
    rfl
  all_goals
    dsimp only at hf
    repeat' split at hf
    all_goals cases hf

/-- A signal on a condition variable of the queue is the next notification. -/
theorem remaining_signal {cv : Cond} {mq : MqBackend Empty}
    (hc : code pc = .signal (.space q cv) next) :
    ∃ errno', remaining errno pc mq =
      (remaining errno' next mq).map (·.after [.signal cv] [] []) := by
  cases pc <;> simp only [code, Instr.signal.injEq, CondId.space.injEq, reduceCtorEq, false_and]
    at hc
  case readSignal c early =>
    obtain ⟨⟨-, rfl⟩, rfl⟩ := hc
    exact ⟨errno, rfl⟩
  case writeSignal c =>
    obtain ⟨⟨-, rfl⟩, rfl⟩ := hc
    refine ⟨some .EAGAIN, ?_⟩
    rw [remaining, writeFromSignal]
    split <;> rfl

/-- A signal to a poll call is none of the queue's. -/
theorem remaining_signal_ready {poll i : Nat} {mq : MqBackend Empty}
    (hc : code pc = .signal (.ready poll i) next) :
    remaining errno pc mq = remaining errno next mq := by
  cases pc <;> simp only [code, Instr.signal.injEq, reduceCtorEq, false_and] at hc
  case wakeSignal w n =>
    obtain ⟨-, rfl⟩ := hc
    rfl

theorem remaining_broadcast {cv : Cond} {mq : MqBackend Empty}
    (hc : code pc = .broadcast (.space q cv) next) :
    remaining errno pc mq = (remaining errno next mq).map (·.after [.broadcast cv] [] []) := by
  cases pc <;> simp only [code, Instr.broadcast.injEq, CondId.space.injEq, reduceCtorEq] at hc
  case closeWakeWriters q =>
    obtain ⟨⟨-, rfl⟩, rfl⟩ := hc
    rfl
  case closeWakeReaders q =>
    obtain ⟨⟨-, rfl⟩, rfl⟩ := hc
    rfl

/-- Under the mutex of a queue a thread locks the mutexes of waiting nodes only. -/
theorem remaining_lock {m : Mutex Q} {mq : MqBackend Empty} (hc : code pc = .lock m next)
    (hq : holds pc (.queue q)) :
    remaining errno pc mq = remaining errno next mq ∧ ∃ poll i, m = .poll poll i := by
  cases pc <;> simp only [code, Instr.lock.injEq, reduceCtorEq] at hc <;>
    obtain ⟨rfl, rfl⟩ := hc
  case wakeLock w n => exact ⟨rfl, _, _, rfl⟩
  all_goals simp [holds, locksAt] at hq

theorem remaining_unlock_poll {poll i : Nat} {mq : MqBackend Empty}
    (hc : code pc = .unlock (.poll poll i) next) (hq : holds pc (.queue q)) :
    remaining errno pc mq = remaining errno next mq := by
  cases pc <;> simp only [code, Instr.unlock.injEq, reduceCtorEq, false_and] at hc <;>
    obtain ⟨-, rfl⟩ := hc
  case wakeUnlock w n => rfl
  all_goals simp [holds, locksAt] at hq

/-- A thread that waits has nothing left to do. -/
theorem remaining_wait {cv : Cond} {m : Mutex Q} {mq : MqBackend Empty}
    (hc : code pc = .wait (.space q cv) m next) :
    remaining errno pc mq = .ok (.quiet mq (.wait cv)) := by
  cases pc <;> simp only [code, Instr.wait.injEq, CondId.space.injEq, reduceCtorEq, false_and]
    at hc
  case readWait c =>
    obtain ⟨⟨-, rfl⟩, -, -⟩ := hc
    rfl
  case writeWait c =>
    obtain ⟨⟨-, rfl⟩, -, -⟩ := hc
    rfl

end Steps

end UoftOs.MsgQueue
