import UoftOs.Lib.Transition
import UoftOs.MsgQueue.Handles
import UoftOs.MsgQueue.RingBufferSpec

/-!
# Tagged handles over whole runs

A handle is the address of a backend with the flags in its low bits. A registry
holds the backends of a process by their addresses and the handles that
`msg_queue_create` and `msg_queue_open` have handed out.

## Implementation notes

The handles are numbered in the order in which they are handed out, so that equal
handles stay apart. The registry keeps what a handle was made from beside its value;
the code works on the value alone.
-/

namespace UoftOs.MsgQueue

open Lib.Transition

/-! ## Handles and addresses -/

/-- `uintptr_t`, the value of a handle or of a pointer. -/
abbrev UIntPtr := BitVec 64

/-- `MSG_QUEUE_NULL`. -/
def msgQueueNull : UIntPtr := 0

/-- `ALL_FLAGS` converted to `uintptr_t`. -/
def allFlagsPtr : UIntPtr := allFlags.signExtend 64

/-- `get_backend`. -/
def getBackend [Build] (queue : UIntPtr) : Except Fault UIntPtr := do
  let mq := queue &&& ~~~allFlagsPtr
  cAssert (mq != 0)
  return mq

/-- `get_flags`. -/
def getFlags (queue : UIntPtr) : CInt := (queue &&& allFlagsPtr).setWidth 32

/-- `make_handle`. -/
def makeHandle [Build] (mq : UIntPtr) (flags : CInt) : Except Fault UIntPtr := do
  cAssert (mq &&& allFlagsPtr == 0)
  cAssert (!hasAny flags (~~~allFlags))
  return mq ||| flags.signExtend 64

variable {N : Type}

/-- `mq_destroy` on the counters. -/
def mqDestroy [Build] (mq : MqBackend N) : Except Fault Unit := do
  cAssert (mq.refs == 0)
  cAssert (mq.readers == 0)
  cAssert (mq.writers == 0)

/-- The backends by their addresses. -/
abbrev Heap (N : Type) := UIntPtr → Option (MqBackend N)

/-- `msg_queue_create`. `block` is the answer of `malloc` for the backend, its address
and the stale `queue_event`. -/
def createQueue [Build] (heap : Heap N) (block : Option (UIntPtr × CInt))
    (answer : Option (Nat → UInt8)) (capacity : UInt64) (flags : CInt) :
    Except Fault (Except Errno UIntPtr × Heap N) := do
  if hasAny flags (~~~allFlags) then
    return (.error .EINVAL, heap)
  if capacity < 8 + 1 then
    return (.error .EINVAL, heap)
  match block with
  | none => return (.error .ENOMEM, heap)
  | some (mq, staleEvent) => do
      cAssert (mq &&& allFlagsPtr == 0)
      match ← mqInit answer capacity staleEvent with
      | none => return (.error .ENOMEM, heap)
      | some backend => do
          let queue ← makeHandle mq flags
          return (.ok queue, Function.update heap mq (some (mqOpen backend flags)))

/-- `msg_queue_open`. -/
def openQueue [Build] (heap : Heap N) (queue : UIntPtr) (flags : CInt) :
    Except Fault (Except Errno UIntPtr × Heap N) := do
  if queue = msgQueueNull then
    return (.error .EBADF, heap)
  if hasAny flags (~~~allFlags) then
    return (.error .EINVAL, heap)
  let mq ← getBackend queue
  match heap mq with
  | none => .error .outOfBounds
  | some backend => do
      let new ← makeHandle mq flags
      return (.ok new, Function.update heap mq (some (mqOpen backend flags)))

/-- `msg_queue_close` of the handle at `queue`. -/
def closeQueue [Build] (heap : Heap N) (queue : UIntPtr) :
    Except Fault (Except Errno Unit × Heap N) := do
  if queue = msgQueueNull then
    return (.error .EBADF, heap)
  let mq ← getBackend queue
  match heap mq with
  | none => .error .outOfBounds
  | some backend => do
      let (last, backend) ← mqClose backend (getFlags queue)
      if last then
        mqDestroy backend
        return (.ok (), Function.update heap mq none)
      let backend := if backend.noReaders then
        { backend with queueEvent := backend.queueEvent ||| mqpollWritable ||| mqpollNoreaders }
        else backend
      let backend := if backend.noWriters then
        { backend with queueEvent := backend.queueEvent ||| mqpollReadable ||| mqpollNowriters }
        else backend
      return (.ok (), Function.update heap mq (some backend))

theorem cAssert_of [Build] {b : Bool} (h : b = true) : cAssert b = .ok () := by
  rw [cAssert, h, Bool.or_true, if_pos rfl]

/-! ## Tagging -/

section Tagging

variable {mq : UIntPtr} {flags : CInt}

theorem flags_small (h : hasAny flags (~~~allFlags) = false) :
    flags = 0 ∨ flags = 1 ∨ flags = 2 ∨ flags = 3 ∨ flags = 4 ∨ flags = 5 ∨ flags = 6 ∨
      flags = 7 := by
  have hzero : flags &&& ~~~allFlags = 0 := by simpa [hasAny] using h
  have hself : flags &&& 7 = flags := by
    have hall : flags &&& (7 ||| ~~~allFlags) = flags := by
      rw [show (7 ||| ~~~allFlags : CInt) = BitVec.allOnes 32 by decide, BitVec.and_allOnes]
    rw [BitVec.and_or_distrib_left, hzero] at hall
    simpa using hall
  have hlt : flags.toNat < 8 := by
    have hnat := congrArg BitVec.toNat hself
    rw [BitVec.toNat_and] at hnat
    rw [← hnat]
    exact Nat.and_lt_two_pow _ (by decide : (7 : CInt).toNat < 2 ^ 3)
  bv_omega

/-- Flags fit in the low bits that an address leaves free. -/
theorem flags_tag (h : hasAny flags (~~~allFlags) = false) :
    flags.signExtend 64 &&& ~~~allFlagsPtr = 0 ∧
      (flags.signExtend 64 &&& allFlagsPtr).setWidth 32 = flags := by
  rcases flags_small h with rfl | rfl | rfl | rfl | rfl | rfl | rfl | rfl <;> decide

/-- The aligned address is what the other bits of the handle hold. -/
theorem aligned_clear (hmq : mq &&& allFlagsPtr = 0) : mq &&& ~~~allFlagsPtr = mq := by
  have hall : mq &&& (allFlagsPtr ||| ~~~allFlagsPtr) = mq := by
    rw [show allFlagsPtr ||| ~~~allFlagsPtr = BitVec.allOnes 64 by decide, BitVec.and_allOnes]
  rw [BitVec.and_or_distrib_left, hmq] at hall
  simpa using hall

theorem makeHandle_eq [Build] (hmq : mq &&& allFlagsPtr = 0)
    (h : hasAny flags (~~~allFlags) = false) :
    makeHandle mq flags = .ok (mq ||| flags.signExtend 64) := by
  have haligned : (mq &&& allFlagsPtr == 0) = true := beq_iff_eq.mpr hmq
  have hvalid : (!hasAny flags (~~~allFlags)) = true := by rw [h]; rfl
  rw [makeHandle, cAssert_of haligned, cAssert_of hvalid]
  rfl

/-- `get_backend` recovers the address. -/
theorem getBackend_tagged [Build] (hpos : mq ≠ 0) (hmq : mq &&& allFlagsPtr = 0)
    (h : hasAny flags (~~~allFlags) = false) :
    getBackend (mq ||| flags.signExtend 64) = .ok mq := by
  have hclear : (mq ||| flags.signExtend 64) &&& ~~~allFlagsPtr = mq := by
    rw [BitVec.and_comm, BitVec.and_or_distrib_left, BitVec.and_comm, aligned_clear hmq,
      BitVec.and_comm, (flags_tag h).1]
    exact BitVec.or_zero
  have hassert : (mq != 0) = true := bne_iff_ne.mpr hpos
  rw [getBackend, hclear, cAssert_of hassert]
  rfl

/-- `get_flags` recovers the flags. -/
theorem getFlags_tagged (hmq : mq &&& allFlagsPtr = 0) (h : hasAny flags (~~~allFlags) = false) :
    getFlags (mq ||| flags.signExtend 64) = flags := by
  have hkeep : (mq ||| flags.signExtend 64) &&& allFlagsPtr =
      flags.signExtend 64 &&& allFlagsPtr := by
    rw [BitVec.and_comm, BitVec.and_or_distrib_left, BitVec.and_comm, hmq, BitVec.and_comm]
    exact BitVec.zero_or
  rw [getFlags, hkeep, (flags_tag h).2]

theorem tagged_ne_null (hpos : mq ≠ 0) : mq ||| flags.signExtend 64 ≠ msgQueueNull := by
  intro hnull
  exact hpos (BitVec.or_eq_zero_iff.mp hnull).1

end Tagging

/-! ## The registry -/

/-- What a handle was made from, and its value. -/
structure Issued where
  queue : UIntPtr
  backend : UIntPtr
  flags : CInt

/-- The backends of a process and the handles it was given. `made` has the handles that
were made on the backend at an address since it was created there. -/
structure Registry (N : Type) where
  heap : Heap N
  issued : HandleId → Issued
  next : HandleId
  isOpen : Finset HandleId
  made : UIntPtr → Finset HandleId

namespace Registry

/-- A process before its first call. -/
def initial : Registry N where
  heap := fun _ => none
  issued := fun _ => ⟨msgQueueNull, 0, 0⟩
  next := 0
  isOpen := ∅
  made := fun _ => ∅

/-- The calls, with the answers of `malloc`. -/
inductive Op where
  | create (block : Option (UIntPtr × CInt)) (answer : Option (Nat → UInt8))
      (capacity : UInt64) (flags : CInt)
  | open (h : HandleId) (flags : CInt)
  | close (h : HandleId)

/-- The registry after a handle has been handed out. -/
def handOut (s : Registry N) (heap : Heap N) (item : Issued) (made : Finset HandleId) :
    Registry N where
  heap := heap
  issued := Function.update s.issued s.next item
  next := s.next + 1
  isOpen := insert s.next s.isOpen
  made := Function.update s.made item.backend made

/-- The effect of a call. -/
def exec [Build] (s : Registry N) : Op → Except Fault (Registry N)
  | .create block answer capacity flags => do
      let (result, heap) ← createQueue s.heap block answer capacity flags
      match result, block with
      | .ok queue, some (mq, _) => return s.handOut heap ⟨queue, mq, flags⟩ {s.next}
      | _, _ => return { s with heap }
  | .open h flags => do
      let (result, heap) ← openQueue s.heap (s.issued h).queue flags
      match result with
      | .ok queue =>
          let mq := (s.issued h).backend
          return s.handOut heap ⟨queue, mq, flags⟩ (insert s.next (s.made mq))
      | .error _ => return { s with heap }
  | .close h => do
      let (_, heap) ← closeQueue s.heap (s.issued h).queue
      return { s with heap, isOpen := s.isOpen.erase h }

/-- The calls on valid handles. `malloc` returns an aligned address that is not in use. -/
def Allows (s : Registry N) : Op → Prop
  | .create block _ _ _ =>
      ∀ mq staleEvent, block = some (mq, staleEvent) →
        mq ≠ 0 ∧ mq &&& allFlagsPtr = 0 ∧ s.heap mq = none
  | .open h _ => h ∈ s.isOpen
  | .close h => h ∈ s.isOpen

/-- A call that returns. -/
def Step [Build] (s : Registry N) (op : Op) (s' : Registry N) : Prop :=
  s.Allows op ∧ s.exec op = .ok s'

/-- The open handles of the backend at an address. -/
def openOn (s : Registry N) (mq : UIntPtr) : Finset HandleId :=
  s.isOpen.filter fun h => (s.issued h).backend = mq

def flagsOf (s : Registry N) (h : HandleId) : CInt := (s.issued h).flags

/-- A handle with the flag has been made on the backend since it was created, and none is
open. -/
def Gone (s : Registry N) (mq : UIntPtr) (mask : CInt) : Prop :=
  (∃ h ∈ s.made mq, hasAny (s.flagsOf h) mask = true) ∧
    openWith (s.openOn mq) s.flagsOf mask = ∅

/-- The counters and the flags of a backend are those of its handles. -/
structure BackendAccounted (s : Registry N) (mq : UIntPtr) (backend : MqBackend N) : Prop where
  nonnull : mq ≠ 0
  aligned : mq &&& allFlagsPtr = 0
  counted : Counted backend (s.openOn mq) s.flagsOf
  noReaders : backend.noReaders = true ↔ s.Gone mq msgQueueReader
  noWriters : backend.noWriters = true ↔ s.Gone mq msgQueueWriter

/-- The value of an open handle gives back what the handle was made from. -/
structure HandleAccounted [Build] (s : Registry N) (h : HandleId) : Prop where
  getBackend : getBackend (s.issued h).queue = .ok (s.issued h).backend
  getFlags : getFlags (s.issued h).queue = s.flagsOf h
  aligned : (s.issued h).backend &&& allFlagsPtr = 0

/-- The whole registry: a backend exists exactly while it has an open handle. -/
structure Accounted [Build] (s : Registry N) : Prop where
  backends : ∀ mq backend, s.heap mq = some backend → s.BackendAccounted mq backend
  handles : ∀ h ∈ s.isOpen, s.HandleAccounted h
  alive : ∀ mq, (s.heap mq).isSome ↔ (s.openOn mq).Nonempty

end Registry

/-! ## What the calls do -/

section Calls

variable [Build] {heap : Heap N} {mq queue : UIntPtr} {flags : CInt} {backend : MqBackend N}

/-- `mq_init` fails without memory, or all counters start at 0. -/
theorem mqInit_cases (answer : Option (Nat → UInt8)) (capacity : UInt64) (staleEvent : CInt) :
    (mqInit answer capacity staleEvent : Except Fault (Option (MqBackend N))) = .ok none ∨
      ∃ backend : MqBackend N, mqInit answer capacity staleEvent = .ok (some backend) ∧
        backend.refs = 0 ∧ backend.readers = 0 ∧ backend.writers = 0 ∧
          backend.noReaders = false ∧ backend.noWriters = false := by
  have hring : ∃ ring, ringBufferInit answer capacity = .ok ring := by
    unfold ringBufferInit malloc
    by_cases hs : capacity.toNat ≤ ptrdiffMax
    · cases answer with
      | none => exact ⟨none, by rw [if_pos hs]; rfl⟩
      | some c =>
          have hmark := markFree_ok (b := (List.range capacity.toNat).map c) (s := 0)
            (n := capacity.toNat) (by simp)
          simp only [hs, if_true, Option.map_some, hmark]
          exact ⟨_, rfl⟩
    · exact ⟨none, by rw [if_neg hs]⟩
  obtain ⟨ring, hring⟩ := hring
  rw [mqInit, hring]
  cases ring with
  | none => exact .inl rfl
  | some buffer => exact .inr ⟨_, rfl, rfl, rfl, rfl, rfl, rfl⟩

/-- `msg_queue_create` refuses, or hands out a handle to a backend fresh from `mq_init`. -/
theorem createQueue_cases (heap : Heap N) {block : Option (UIntPtr × CInt)}
    (haligned : ∀ mq staleEvent, block = some (mq, staleEvent) → mq &&& allFlagsPtr = 0)
    (answer : Option (Nat → UInt8)) (capacity : UInt64) (flags : CInt) :
    (∃ e, createQueue heap block answer capacity flags = .ok (.error e, heap)) ∨
      ∃ mq staleEvent, ∃ backend : MqBackend N, block = some (mq, staleEvent) ∧
        hasAny flags (~~~allFlags) = false ∧
        (backend.refs = 0 ∧ backend.readers = 0 ∧ backend.writers = 0 ∧
          backend.noReaders = false ∧ backend.noWriters = false) ∧
        createQueue heap block answer capacity flags =
          .ok (.ok (mq ||| flags.signExtend 64),
            Function.update heap mq (some (mqOpen backend flags))) := by
  unfold createQueue
  by_cases hflags : hasAny flags (~~~allFlags) = true
  · exact .inl ⟨.EINVAL, by rw [if_pos hflags]; rfl⟩
  have hvalid : hasAny flags (~~~allFlags) = false := Bool.eq_false_iff.mpr hflags
  rw [if_neg hflags]
  by_cases hcap : capacity < 8 + 1
  · exact .inl ⟨.EINVAL, by simp only [hcap, if_true]; rfl⟩
  simp only [hcap, if_false]
  cases block with
  | none => exact .inl ⟨.ENOMEM, rfl⟩
  | some answered =>
      obtain ⟨mq, staleEvent⟩ := answered
      have hmq := haligned mq staleEvent rfl
      have hassert : cAssert (mq &&& allFlagsPtr == 0) = .ok () :=
        cAssert_of (beq_iff_eq.mpr hmq)
      rcases mqInit_cases (N := N) answer capacity staleEvent with hnone | ⟨backend, hinit, hzero⟩
      · refine .inl ⟨.ENOMEM, ?_⟩
        simp only [hassert, hnone]
        rfl
      · refine .inr ⟨mq, staleEvent, backend, rfl, hvalid, hzero, ?_⟩
        simp only [hassert, hinit, makeHandle_eq hmq hvalid]
        rfl

/-- `msg_queue_open` refuses unknown flags, or hands out one more handle. -/
theorem openQueue_cases (htag : getBackend queue = .ok mq) (hnull : queue ≠ msgQueueNull)
    (hmq : mq &&& allFlagsPtr = 0) (hheap : heap mq = some backend) (flags : CInt) :
    openQueue heap queue flags = .ok (.error .EINVAL, heap) ∨
      (hasAny flags (~~~allFlags) = false ∧
        openQueue heap queue flags = .ok (.ok (mq ||| flags.signExtend 64),
          Function.update heap mq (some (mqOpen backend flags)))) := by
  unfold openQueue
  rw [if_neg hnull]
  by_cases hflags : hasAny flags (~~~allFlags) = true
  · exact .inl (by simp only [hflags, if_true]; rfl)
  have hvalid : hasAny flags (~~~allFlags) = false := Bool.eq_false_iff.mpr hflags
  refine .inr ⟨hvalid, ?_⟩
  simp only [hflags, htag, bind, Except.bind, hheap, makeHandle_eq hmq hvalid]
  rfl

/-- What the close of one of several handles leaves in the counters and flags. -/
structure ClosedCounts (old new : MqBackend N) (handles : Finset HandleId)
    (flagsOf : HandleId → CInt) (h : HandleId) : Prop where
  counted : Counted new (handles.erase h) flagsOf
  noReaders : new.noReaders = (hasAny (flagsOf h) msgQueueReader &&
    (openWith (handles.erase h) flagsOf msgQueueReader).card == 0 || old.noReaders)
  noWriters : new.noWriters = (hasAny (flagsOf h) msgQueueWriter &&
    (openWith (handles.erase h) flagsOf msgQueueWriter).card == 0 || old.noWriters)

/-- `msg_queue_close` passes all assertions. It destroys the backend with the last handle. -/
theorem closeQueue_cases {handles : Finset HandleId} {flagsOf : HandleId → CInt} {h : HandleId}
    (htag : getBackend queue = .ok mq) (hnull : queue ≠ msgQueueNull)
    (hflags : getFlags queue = flagsOf h) (hheap : heap mq = some backend)
    (hc : Counted backend handles flagsOf) (hh : h ∈ handles) :
    (handles.erase h = ∅ ∧
      closeQueue heap queue = .ok (.ok (), Function.update heap mq none)) ∨
    (handles.erase h ≠ ∅ ∧ ∃ backend', ClosedCounts backend backend' handles flagsOf h ∧
      closeQueue heap queue = .ok (.ok (), Function.update heap mq (some backend'))) := by
  have hrun := mqClose_eq (hc.refs.trans (Finset.card_erase_add_one hh).symm)
    (hc.readers.trans (openWith_card_erase hh)) (hc.writers.trans (openWith_card_erase hh))
    openWith_card_le openWith_card_le
  unfold closeQueue
  rw [if_neg hnull, htag]
  simp only [bind, Except.bind, pure, Except.pure, hheap, hflags, hrun]
  by_cases hlast : handles.erase h = ∅
  · refine .inl ⟨hlast, ?_⟩
    simp [hlast, mqDestroy, cAssert, openWith, bind, Except.bind]
  · refine .inr ⟨hlast, ?_⟩
    have hpos : ((handles.erase h).card == 0) = false := by simpa using hlast
    simp only [hpos]
    generalize hnr : (hasAny (flagsOf h) msgQueueReader &&
      (openWith (handles.erase h) flagsOf msgQueueReader).card == 0 || backend.noReaders) = nr
    generalize hnw : (hasAny (flagsOf h) msgQueueWriter &&
      (openWith (handles.erase h) flagsOf msgQueueWriter).card == 0 || backend.noWriters) = nw
    cases nr <;> cases nw <;>
      exact ⟨_, ⟨⟨rfl, rfl, rfl⟩, hnr.symm, hnw.symm⟩, rfl⟩

end Calls

/-! ## The invariant -/

namespace Registry

variable {s s' : Registry N} {mq : UIntPtr} {mask : CInt} {h : HandleId} {op : Op}

/-- The handles were made as recorded, and their numbers are in use. -/
structure Sound (s : Registry N) : Prop where
  backends : ∀ mq backend, s.heap mq = some backend → s.BackendAccounted mq backend
  tagged : ∀ h ∈ s.isOpen, (s.issued h).queue =
    (s.issued h).backend ||| (s.issued h).flags.signExtend 64 ∧
      hasAny (s.issued h).flags (~~~allFlags) = false
  alive : ∀ mq, (s.heap mq).isSome ↔ (s.openOn mq).Nonempty
  made_lt : ∀ mq, ∀ h ∈ s.made mq, h < s.next
  openOn_subset : ∀ mq, s.openOn mq ⊆ s.made mq

theorem mem_openOn : h ∈ s.openOn mq ↔ h ∈ s.isOpen ∧ (s.issued h).backend = mq :=
  Finset.mem_filter

/-- Backends, open handles and flags that are the same are accounted the same. -/
theorem BackendAccounted.congr {backend : MqBackend N} (h : s.BackendAccounted mq backend)
    (hsub : s.openOn mq ⊆ s.made mq) (hopen : s'.openOn mq = s.openOn mq)
    (hmade : s'.made mq = s.made mq) (hflags : ∀ k ∈ s.made mq, s'.flagsOf k = s.flagsOf k) :
    s'.BackendAccounted mq backend := by
  have hwith : ∀ mask, openWith (s'.openOn mq) s'.flagsOf mask =
      openWith (s.openOn mq) s.flagsOf mask := by
    intro mask
    rw [hopen]
    exact Finset.filter_congr fun k hk => by rw [hflags k (hsub hk)]
  have hgone : ∀ mask, s'.Gone mq mask ↔ s.Gone mq mask := by
    intro mask
    rw [Gone, Gone, hwith, hmade]
    refine and_congr_left fun _ => exists_congr fun k => and_congr_right fun hk => ?_
    rw [hflags k hk]
  refine ⟨h.nonnull, h.aligned, ⟨?_, ?_, ?_⟩, ?_, ?_⟩
  · rw [hopen, h.counted.refs]
  · rw [hwith, h.counted.readers]
  · rw [hwith, h.counted.writers]
  · rw [hgone, h.noReaders]
  · rw [hgone, h.noWriters]

namespace Sound

variable (hs : s.Sound)
include hs

theorem open_lt (hh : h ∈ s.isOpen) : h < s.next :=
  hs.made_lt _ h (hs.openOn_subset _ (mem_openOn.mpr ⟨hh, rfl⟩))

/-- The backend of an open handle. -/
theorem backend (hh : h ∈ s.isOpen) : ∃ backend, s.heap (s.issued h).backend = some backend ∧
    s.BackendAccounted (s.issued h).backend backend := by
  obtain ⟨backend, hheap⟩ := Option.isSome_iff_exists.mp
    ((hs.alive (s.issued h).backend).mpr ⟨h, mem_openOn.mpr ⟨hh, rfl⟩⟩)
  exact ⟨backend, hheap, hs.backends _ _ hheap⟩

theorem accounted [Build] : s.Accounted where
  backends := hs.backends
  alive := hs.alive
  handles := by
    intro h hh
    obtain ⟨backend, _, hbackend⟩ := hs.backend hh
    obtain ⟨htag, hvalid⟩ := hs.tagged h hh
    refine ⟨?_, ?_, hbackend.aligned⟩
    · rw [htag]
      exact getBackend_tagged hbackend.nonnull hbackend.aligned hvalid
    · rw [htag]
      exact getFlags_tagged hbackend.aligned hvalid

end Sound

theorem initial_sound : (initial : Registry N).Sound where
  backends := fun _ _ h => nomatch h
  tagged := fun _ h => absurd h (Finset.notMem_empty _)
  alive := fun _ => iff_of_false (fun h => nomatch h) fun ⟨_, h⟩ =>
    absurd (mem_openOn.mp h).1 (Finset.notMem_empty _)
  made_lt := fun _ _ h => absurd h (Finset.notMem_empty _)
  openOn_subset := fun _ _ h => absurd (mem_openOn.mp h).1 (Finset.notMem_empty _)

/-! ### A handle handed out -/

section HandOut

variable {heap : Heap N} {item : Issued} {made : Finset HandleId}

theorem flagsOf_handOut : (s.handOut heap item made).flagsOf =
    Function.update s.flagsOf s.next item.flags := by
  funext k
  by_cases hk : k = s.next
  · subst hk
    simp [flagsOf, handOut]
  · simp [flagsOf, handOut, hk]

theorem openOn_handOut_self :
    (s.handOut heap item made).openOn item.backend = insert s.next (s.openOn item.backend) := by
  ext k
  rw [mem_openOn, Finset.mem_insert, mem_openOn]
  by_cases hk : k = s.next
  · subst hk
    simp [handOut]
  · simp [handOut, hk]

variable (hs : s.Sound)
include hs

theorem openOn_handOut_of_ne (hne : mq ≠ item.backend) :
    (s.handOut heap item made).openOn mq = s.openOn mq := by
  ext k
  rw [mem_openOn, mem_openOn]
  by_cases hk : k = s.next
  · subst hk
    have hnew : s.next ∉ s.isOpen := fun h => lt_irrefl _ (hs.open_lt h)
    simp [handOut, hne.symm, hnew]
  · simp [handOut, hk]

theorem next_notMem_openOn : s.next ∉ s.openOn mq := fun h =>
  lt_irrefl _ (hs.open_lt (mem_openOn.mp h).1)

/-- With a new handle the flag is gone if the handle does not carry it and it was gone. -/
theorem gone_handOut (hmade : ∀ k ∈ made, k < s.next) :
    (s.handOut heap item (insert s.next made)).Gone item.backend mask ↔
      hasAny item.flags mask = false ∧ (∃ k ∈ made, hasAny (s.flagsOf k) mask = true) ∧
        openWith (s.openOn item.backend) s.flagsOf mask = ∅ := by
  have hcard : (openWith (insert s.next (s.openOn item.backend))
      (Function.update s.flagsOf s.next item.flags) mask).card =
        (openWith (s.openOn item.backend) s.flagsOf mask).card +
          if hasAny item.flags mask then 1 else 0 :=
    openWith_card_insert (next_notMem_openOn hs)
  have hold : ∀ k ∈ made, Function.update s.flagsOf s.next item.flags k = s.flagsOf k :=
    fun k hk => Function.update_of_ne (hmade k hk).ne _ _
  rw [Gone, flagsOf_handOut, openOn_handOut_self, ← Finset.card_eq_zero, hcard,
    ← Finset.card_eq_zero]
  have hself : (s.handOut heap item (insert s.next made)).made item.backend =
      insert s.next made := by
    simp [handOut]
  rw [hself]
  cases hflag : hasAny item.flags mask with
  | true => simp
  | false =>
      simp only [Finset.exists_mem_insert, Function.update_self, hflag, Bool.false_eq_true,
        false_or, if_false, Nat.add_zero, true_and]
      refine and_congr_left fun _ => exists_congr fun k => and_congr_right fun hk => ?_
      rw [hold k hk]

/-- A handle made on an accounted backend, or on a new one without handles. -/
theorem Sound.handOut (item : Issued) {new : MqBackend N} {made : Finset HandleId}
    (hpos : item.backend ≠ 0) (haligned : item.backend &&& allFlagsPtr = 0)
    (hvalid : hasAny item.flags (~~~allFlags) = false)
    (hqueue : item.queue = item.backend ||| item.flags.signExtend 64)
    (hmade : ∀ k ∈ made, k < s.next) (hsub : s.openOn item.backend ⊆ made)
    (hcounted : Counted new (insert s.next (s.openOn item.backend))
      (Function.update s.flagsOf s.next item.flags))
    (hreaders : new.noReaders = true ↔ hasAny item.flags msgQueueReader = false ∧
      (∃ k ∈ made, hasAny (s.flagsOf k) msgQueueReader = true) ∧
        openWith (s.openOn item.backend) s.flagsOf msgQueueReader = ∅)
    (hwriters : new.noWriters = true ↔ hasAny item.flags msgQueueWriter = false ∧
      (∃ k ∈ made, hasAny (s.flagsOf k) msgQueueWriter = true) ∧
        openWith (s.openOn item.backend) s.flagsOf msgQueueWriter = ∅) :
    (s.handOut (Function.update s.heap item.backend (some new)) item
      (insert s.next made)).Sound := by
  have hmadeSelf : ∀ heap, (s.handOut heap item (insert s.next made)).made item.backend =
      insert s.next made := fun heap => by simp [Registry.handOut]
  have hmadeOther : ∀ heap mq, mq ≠ item.backend →
      (s.handOut heap item (insert s.next made)).made mq = s.made mq := fun heap mq hne => by
    simp [Registry.handOut, hne]
  constructor
  case backends =>
      intro mq backend hheap
      by_cases hmq : mq = item.backend
      · subst hmq
        have hnew : new = backend := by simpa [Registry.handOut] using hheap
        subst hnew
        refine ⟨hpos, haligned, ?_, ?_, ?_⟩
        · rw [openOn_handOut_self, flagsOf_handOut]
          exact hcounted
        · rw [gone_handOut hs hmade, hreaders]
        · rw [gone_handOut hs hmade, hwriters]
      · have hold : s.heap mq = some backend := by
          simpa [Registry.handOut, hmq] using hheap
        refine (hs.backends mq backend hold).congr (hs.openOn_subset mq)
          (openOn_handOut_of_ne hs hmq) (hmadeOther _ mq hmq) fun k hk => ?_
        rw [flagsOf_handOut, Function.update_of_ne (hs.made_lt mq k hk).ne]
  case tagged =>
      intro k hk
      by_cases hnext : k = s.next
      · subst hnext
        simp [Registry.handOut, hqueue, hvalid]
      · have hopen : k ∈ s.isOpen := by simpa [Registry.handOut, hnext] using hk
        simpa [Registry.handOut, hnext] using hs.tagged k hopen
  case alive =>
      intro mq
      by_cases hmq : mq = item.backend
      · subst hmq
        rw [openOn_handOut_self]
        exact iff_of_true (by simp [Registry.handOut]) (Finset.insert_nonempty _ _)
      · rw [openOn_handOut_of_ne hs hmq, ← hs.alive mq]
        simp [Registry.handOut, hmq]
  case made_lt =>
      intro mq k hk
      have hnext : (s.handOut (Function.update s.heap item.backend (some new)) item
          (insert s.next made)).next = s.next + 1 := rfl
      rw [hnext]
      by_cases hmq : mq = item.backend
      · subst hmq
        rw [hmadeSelf, Finset.mem_insert] at hk
        rcases hk with rfl | hold
        · exact Nat.lt_succ_self _
        · exact Nat.lt_succ_of_lt (hmade k hold)
      · rw [hmadeOther _ mq hmq] at hk
        exact Nat.lt_succ_of_lt (hs.made_lt mq k hk)
  case openOn_subset =>
      intro mq
      by_cases hmq : mq = item.backend
      · subst hmq
        rw [openOn_handOut_self, hmadeSelf]
        exact Finset.insert_subset_insert _ hsub
      · rw [openOn_handOut_of_ne hs hmq, hmadeOther _ mq hmq]
        exact hs.openOn_subset mq

end HandOut

/-! ### A handle closed -/

section Close

/-- The registry after a handle has been closed. -/
def closed (s : Registry N) (h : HandleId) (heap : Heap N) : Registry N :=
  { s with heap, isOpen := s.isOpen.erase h }

variable {heap : Heap N}

theorem openOn_closed_self :
    (s.closed h heap).openOn (s.issued h).backend = (s.openOn (s.issued h).backend).erase h :=
  Finset.filter_erase _ _ _

theorem openOn_closed_of_ne (hne : mq ≠ (s.issued h).backend) :
    (s.closed h heap).openOn mq = s.openOn mq := by
  have hnot : h ∉ s.openOn mq := fun hmem => hne (mem_openOn.mp hmem).2.symm
  exact (Finset.filter_erase _ _ _).trans (Finset.erase_eq_of_notMem hnot)

variable (hs : s.Sound) (hh : h ∈ s.isOpen)
include hs hh

/-- The flag is gone with the last handle that carries it, and stays gone. -/
theorem gone_closed : (s.closed h heap).Gone (s.issued h).backend mask ↔
    (hasAny (s.flagsOf h) mask = true ∧
      openWith ((s.openOn (s.issued h).backend).erase h) s.flagsOf mask = ∅) ∨
        s.Gone (s.issued h).backend mask := by
  have hopen : h ∈ s.openOn (s.issued h).backend := mem_openOn.mpr ⟨hh, rfl⟩
  have hmade : h ∈ s.made (s.issued h).backend := hs.openOn_subset _ hopen
  have hcard : (openWith (s.openOn (s.issued h).backend) s.flagsOf mask).card =
      (openWith ((s.openOn (s.issued h).backend).erase h) s.flagsOf mask).card +
        if hasAny (s.flagsOf h) mask then 1 else 0 :=
    openWith_card_erase hopen
  have hflags : (s.closed h heap).flagsOf = s.flagsOf := rfl
  rw [Gone, openOn_closed_self, hflags]
  constructor
  · rintro ⟨hexists, hnone⟩
    by_cases hflag : hasAny (s.flagsOf h) mask = true
    · exact .inl ⟨hflag, hnone⟩
    · refine .inr ⟨hexists, ?_⟩
      rw [hnone, if_neg hflag, Finset.card_empty] at hcard
      exact Finset.card_eq_zero.mp hcard
  · rintro (⟨hflag, hnone⟩ | ⟨hexists, hnone⟩)
    · exact ⟨⟨h, hmade, hflag⟩, hnone⟩
    · refine ⟨hexists, Finset.card_eq_zero.mp ?_⟩
      rw [hnone, Finset.card_empty] at hcard
      omega

/-- The backend of the handle is destroyed with its last handle, and accounted otherwise. -/
theorem Sound.closed (hother : ∀ mq, mq ≠ (s.issued h).backend → heap mq = s.heap mq)
    (hself : (heap (s.issued h).backend = none ∧
        (s.openOn (s.issued h).backend).erase h = ∅) ∨
      ∃ old new, s.heap (s.issued h).backend = some old ∧
        heap (s.issued h).backend = some new ∧
          (s.openOn (s.issued h).backend).erase h ≠ ∅ ∧
            ClosedCounts old new (s.openOn (s.issued h).backend) s.flagsOf h) :
    (s.closed h heap).Sound := by
  have hheap : (s.closed h heap).heap = heap := rfl
  constructor
  case backends =>
      intro mq backend hmem
      rw [hheap] at hmem
      by_cases hmq : mq = (s.issued h).backend
      · subst hmq
        rcases hself with ⟨hnone, -⟩ | ⟨old, new, hold, hnew, -, hcounts⟩
        · rw [hnone] at hmem
          cases hmem
        · obtain rfl : new = backend := Option.some.inj (hnew.symm.trans hmem)
          have hbackend := hs.backends _ _ hold
          refine ⟨hbackend.nonnull, hbackend.aligned, ?_, ?_, ?_⟩
          · rw [openOn_closed_self]
            exact hcounts.counted
          · rw [gone_closed hs hh, hcounts.noReaders, ← hbackend.noReaders]
            simp
          · rw [gone_closed hs hh, hcounts.noWriters, ← hbackend.noWriters]
            simp
      · rw [hother mq hmq] at hmem
        exact (hs.backends mq backend hmem).congr (hs.openOn_subset mq)
          (openOn_closed_of_ne hmq) rfl fun _ _ => rfl
  case tagged => exact fun k hk => hs.tagged k (Finset.mem_of_mem_erase hk)
  case alive =>
      intro mq
      rw [hheap]
      by_cases hmq : mq = (s.issued h).backend
      · subst hmq
        rw [openOn_closed_self]
        rcases hself with ⟨hnone, hlast⟩ | ⟨old, new, -, hnew, hrest, -⟩
        · rw [hnone, hlast]
          simp
        · rw [hnew]
          exact iff_of_true rfl (Finset.nonempty_iff_ne_empty.mpr hrest)
      · rw [openOn_closed_of_ne hmq, hother mq hmq, hs.alive mq]
  case made_lt => exact hs.made_lt
  case openOn_subset =>
      intro mq
      refine subset_trans ?_ (hs.openOn_subset mq)
      exact Finset.filter_subset_filter _ (Finset.erase_subset _ _)

end Close

/-! ## Whole runs -/

section Runs

variable [Build]

theorem Sound.create (hs : s.Sound) {block : Option (UIntPtr × CInt)}
    {answer : Option (Nat → UInt8)} {capacity : UInt64} {flags : CInt}
    (hop : s.Allows (.create block answer capacity flags)) :
    ∃ s', s.exec (.create block answer capacity flags) = .ok s' ∧ s'.Sound := by
  rcases createQueue_cases s.heap (fun mq ev h => (hop mq ev h).2.1) answer capacity flags
    with ⟨e, hrun⟩ | ⟨mq, ev, backend, rfl, hvalid, ⟨hrefs, hreads, hwrites, hnr, hnw⟩, hrun⟩
  · refine ⟨s, ?_, hs⟩
    rw [exec, hrun]
    rfl
  · obtain ⟨hpos, haligned, hfree⟩ := hop mq ev rfl
    have hnone : s.openOn mq = ∅ := by
      rw [← Finset.not_nonempty_iff_eq_empty, ← hs.alive mq, hfree]
      exact fun h => nomatch h
    have hempty : Counted backend ∅ s.flagsOf := ⟨hrefs, hreads, hwrites⟩
    refine ⟨_, by rw [exec, hrun]; rfl, ?_⟩
    rw [← insert_empty_eq]
    refine hs.handOut ⟨mq ||| flags.signExtend 64, mq, flags⟩ hpos haligned hvalid rfl
      (fun k hk => absurd hk (Finset.notMem_empty k)) hnone.subset ?_ ?_ ?_
    · rw [hnone]
      exact hempty.open (Finset.notMem_empty _) flags
    · simp [hnr]
    · simp [hnw]

theorem Sound.open (hs : s.Sound) {flags : CInt} (hh : h ∈ s.isOpen) :
    ∃ s', s.exec (.open h flags) = .ok s' ∧ s'.Sound := by
  obtain ⟨backend, hheap, hbackend⟩ := hs.backend hh
  obtain ⟨htag, hvalid⟩ := hs.tagged h hh
  have hget := (hs.accounted.handles h hh).getBackend
  have hnull : (s.issued h).queue ≠ msgQueueNull := by
    rw [htag]
    exact tagged_ne_null hbackend.nonnull
  rcases openQueue_cases hget hnull hbackend.aligned hheap flags with hrun | ⟨hnew, hrun⟩
  · refine ⟨s, ?_, hs⟩
    rw [exec, hrun]
    rfl
  · refine ⟨_, by rw [exec, hrun]; rfl, ?_⟩
    refine hs.handOut ⟨_, (s.issued h).backend, flags⟩ hbackend.nonnull hbackend.aligned hnew rfl
      (hs.made_lt _) (hs.openOn_subset _) (hbackend.counted.open (next_notMem_openOn hs) flags) ?_ ?_
    · rw [mqOpen_noReaders, Bool.and_eq_true, Bool.not_eq_true', hbackend.noReaders, Gone]
    · rw [mqOpen_noWriters, Bool.and_eq_true, Bool.not_eq_true', hbackend.noWriters, Gone]

theorem Sound.close (hs : s.Sound) (hh : h ∈ s.isOpen) :
    ∃ s', s.exec (.close h) = .ok s' ∧ s'.Sound := by
  obtain ⟨backend, hheap, hbackend⟩ := hs.backend hh
  obtain ⟨htag, hvalid⟩ := hs.tagged h hh
  obtain ⟨hget, hflags, -⟩ := hs.accounted.handles h hh
  have hnull : (s.issued h).queue ≠ msgQueueNull := by
    rw [htag]
    exact tagged_ne_null hbackend.nonnull
  rcases closeQueue_cases hget hnull hflags hheap hbackend.counted (mem_openOn.mpr ⟨hh, rfl⟩)
    with ⟨hlast, hrun⟩ | ⟨hlast, backend', hcounts, hrun⟩
  · refine ⟨s.closed h _, by rw [exec, hrun]; rfl, hs.closed hh ?_ ?_⟩
    · exact fun mq hne => Function.update_of_ne hne _ _
    · exact .inl ⟨Function.update_self _ _ _, hlast⟩
  · refine ⟨s.closed h _, by rw [exec, hrun]; rfl, hs.closed hh ?_ ?_⟩
    · exact fun mq hne => Function.update_of_ne hne _ _
    · exact .inr ⟨backend, backend', hheap, Function.update_self _ _ _, hlast, hcounts⟩

/-- An allowed call returns, and the registry stays sound. -/
theorem Sound.exec (hs : s.Sound) (hop : s.Allows op) : ∃ s', s.exec op = .ok s' ∧ s'.Sound := by
  cases op with
  | create block answer capacity flags => exact hs.create hop
  | «open» h flags => exact hs.open hop
  | close h => exact hs.close hop

/-- Every allowed call of every run returns, and every state that is reached is accounted. -/
theorem handle_accounting {ops : List Op} (run : Run Step (initial : Registry N) ops s) :
    s.Accounted ∧ ∀ op, s.Allows op → ∃ s', s.exec op = .ok s' := by
  have hs : s.Sound := by
    refine run.state_invariant initial_sound ?_
    rintro s op s' hs ⟨hop, hexec⟩
    obtain ⟨s'', hexec', hs''⟩ := hs.exec hop
    rw [hexec] at hexec'
    cases hexec'
    exact hs''
  refine ⟨hs.accounted, fun op hop => ?_⟩
  obtain ⟨s', hexec, -⟩ := hs.exec hop
  exact ⟨s', hexec⟩

end Runs

/-- A queue is created by a reader and writer, and a second reader opens it. -/
theorem handle_accounting_two :
    letI : Build := ⟨false⟩
    ∃ s : Registry Empty, Run Step initial
        [.create (some (8, 0)) (some fun _ => 0) 9 3, .open 0 1] s ∧
      s.Accounted ∧ ∀ op, s.Allows op → ∃ s', s.exec op = .ok s' := by
  let _ : Build := ⟨false⟩
  have hfirst : Step (initial : Registry Empty) (.create (some (8, 0)) (some fun _ => 0) 9 3) _ :=
    ⟨fun mq ev h => by cases h; decide, rfl⟩
  have hrun : Run Step (initial : Registry Empty)
      [.create (some (8, 0)) (some fun _ => 0) 9 3, .open 0 1] _ :=
    (Run.nil.snoc hfirst).snoc ⟨Finset.mem_insert_self _ _, rfl⟩
  exact ⟨_, hrun, handle_accounting hrun⟩

end Registry

end UoftOs.MsgQueue
