import Mathlib.Algebra.Group.Nat.Defs
import UoftOs.Lib.Cyclic

/-!
# The byte ring of the message queue

`ring_buffer.c` on byte lists. `size_t` is `UInt64`, so sums and differences
wrap as in C. A result `Fault` stands for a failed `assert` or for an access
outside the memory block it was meant for.

## Implementation notes

The mutex validator calls have no effect on the contents and are left out.
`malloc` refuses more than `PTRDIFF_MAX` bytes; otherwise the allocator's
answer, including the stale contents of the block, is a parameter.
-/

namespace UoftOs.MsgQueue

open Lib.Cyclic

/-- The build of the sources: `NDEBUG` removes every `assert` and the poisoning. -/
class Build where
  ndebug : Bool

/-- Why a call does not return. -/
inductive Fault where
  | assertion
  | outOfBounds
  deriving DecidableEq, Repr

section Memory

/-- `assert(b)` of a debug build. -/
def cAssert [Build] (b : Bool) : Except Fault Unit :=
  if Build.ndebug || b then .ok () else .error .assertion

/-- `memcpy` of `length` bytes out of the block `buf`, from index `start` on. -/
def memcpyFrom (buf : List UInt8) (start length : Nat) : Except Fault (List UInt8) :=
  if start + length ≤ buf.length then .ok ((buf.drop start).take length)
  else .error .outOfBounds

/-- `memcpy` or `memset` of the bytes `d` into the block `buf`, from index `start` on. -/
def memcpyTo (buf : List UInt8) (start : Nat) (d : List UInt8) : Except Fault (List UInt8) :=
  if start + d.length ≤ buf.length then .ok (overwrite buf start d)
  else .error .outOfBounds

/-- The largest object size `malloc` grants. -/
def ptrdiffMax : Nat := 2 ^ 63 - 1

/-- The allocator: `answer` is `none` when memory is short, else the stale bytes. -/
def malloc (answer : Option (Nat → UInt8)) (size : UInt64) : Option (List UInt8) :=
  if size.toNat ≤ ptrdiffMax then answer.map fun c => (List.range size.toNat).map c else none

end Memory

/-- Indicates that a byte of data in the buffer is considered "freed". -/
def poison : UInt8 := 0xDD

/-- Marks that a segment of memory is considered "freed". -/
def markFree [Build] (buf : List UInt8) (start length : Nat) : Except Fault (List UInt8) :=
  if Build.ndebug then .ok buf else memcpyTo buf start (List.replicate length poison)

/-- Checks that a segment of memory is considered "freed". -/
def checkFree [Build] (buf : List UInt8) (start length : Nat) : Except Fault Unit := do
  if Build.ndebug then return ()
  let segment ← memcpyFrom buf start length
  cAssert (segment.all (· == poison))

/-- `struct ring_buffer`; the length of `buffer` is the size of the allocated block. -/
structure RingBuffer where
  buffer : List UInt8
  size : UInt64
  head : UInt64
  tail : UInt64
  full : Bool
  deriving DecidableEq, Repr

/-- `ring_buffer_init`; `none` is the error return. -/
def ringBufferInit [Build] (answer : Option (Nat → UInt8)) (size : UInt64) :
    Except Fault (Option RingBuffer) :=
  match malloc answer size with
  | none => .ok none
  | some block => do
      let buffer ← markFree block 0 size.toNat
      return some { buffer, size, head := 0, tail := 0, full := false }

/-- `__ring_buffer_used` -/
def ringBufferUsedInner (rb : RingBuffer) : UInt64 :=
  if rb.full then rb.size
  else if rb.tail ≥ rb.head then rb.tail - rb.head
  else rb.size + rb.tail - rb.head

/-- `__ring_buffer_free` -/
def ringBufferFreeInner (rb : RingBuffer) : UInt64 :=
  rb.size - ringBufferUsedInner rb

def ringBufferUsed (rb : RingBuffer) : UInt64 := ringBufferUsedInner rb

def ringBufferFree (rb : RingBuffer) : UInt64 := ringBufferFreeInner rb

/-- `ring_buffer_read_common`: the bytes copied to the caller, or `none` for the
result `false`. If `remove` is false, data stays in the buffer. -/
def ringBufferReadCommon [Build] (rb : RingBuffer) (length : UInt64) (remove : Bool) :
    Except Fault (Option (List UInt8) × RingBuffer) := do
  cAssert (length != 0)
  if length > ringBufferUsedInner rb then
    return (none, rb)
  if rb.head + length ≤ rb.size then
    let out ← memcpyFrom rb.buffer rb.head.toNat length.toNat
    if remove then
      let buffer ← markFree rb.buffer rb.head.toNat length.toNat
      let head := rb.head + length
      -- Read right up to the end, wrap around
      return (some out, { rb with
        buffer, head := if head = rb.size then 0 else head, full := false })
    else
      return (some out, rb)
  else
    -- Copy split into two parts
    let copyLen := rb.size - rb.head
    let nextCopyLen := length - copyLen
    let out₁ ← memcpyFrom rb.buffer rb.head.toNat copyLen.toNat
    if remove then
      let buffer₁ ← markFree rb.buffer rb.head.toNat copyLen.toNat
      let out₂ ← memcpyFrom buffer₁ 0 nextCopyLen.toNat
      let buffer₂ ← markFree buffer₁ 0 nextCopyLen.toNat
      return (some (out₁ ++ out₂), { rb with
        buffer := buffer₂, head := nextCopyLen, full := false })
    else
      let out₂ ← memcpyFrom rb.buffer 0 nextCopyLen.toNat
      return (some (out₁ ++ out₂), rb)

def ringBufferRead [Build] (rb : RingBuffer) (length : UInt64) :
    Except Fault (Option (List UInt8) × RingBuffer) :=
  ringBufferReadCommon rb length true

def ringBufferPeek [Build] (rb : RingBuffer) (length : UInt64) :
    Except Fault (Option (List UInt8) × RingBuffer) :=
  ringBufferReadCommon rb length false

/-- `ring_buffer_write` of `length` bytes of the caller's `buffer`. -/
def ringBufferWrite [Build] (rb : RingBuffer) (buffer : List UInt8) (length : UInt64) :
    Except Fault (Bool × RingBuffer) := do
  cAssert (length != 0)
  if length > ringBufferFreeInner rb then
    return (false, rb)
  let (block, tail) ←
    if rb.tail + length ≤ rb.size then do
      checkFree rb.buffer rb.tail.toNat length.toNat
      let d ← memcpyFrom buffer 0 length.toNat
      let block ← memcpyTo rb.buffer rb.tail.toNat d
      let tail := rb.tail + length
      -- Filled right up to the end, wrap around
      pure (block, if tail = rb.size then 0 else tail)
    else do
      -- Copy split into two parts
      let copyLen := rb.size - rb.tail
      checkFree rb.buffer rb.tail.toNat copyLen.toNat
      let d₁ ← memcpyFrom buffer 0 copyLen.toNat
      let block₁ ← memcpyTo rb.buffer rb.tail.toNat d₁
      let nextCopyLen := length - copyLen
      checkFree block₁ 0 nextCopyLen.toNat
      let d₂ ← memcpyFrom buffer copyLen.toNat nextCopyLen.toNat
      let block₂ ← memcpyTo block₁ 0 d₂
      pure (block₂, nextCopyLen)
  -- We know we inserted something, so if head == tail, it must be full
  return (true, { rb with
    buffer := block, tail, full := if rb.head = tail then true else rb.full })

/-- The sums and differences `__ring_buffer_used` and `__ring_buffer_free` form
are those of the integers. -/
def UsedExact (rb : RingBuffer) : Prop :=
  (rb.full = false → rb.head ≤ rb.tail ∨
    (rb.size.toNat + rb.tail.toNat < 2 ^ 64 ∧
      rb.head.toNat ≤ rb.size.toNat + rb.tail.toNat)) ∧
  ringBufferUsedInner rb ≤ rb.size

/-- The sums and differences a read or peek (with `pos` the head) or a write
(with `pos` the tail) of `length` bytes forms are those of the integers. -/
def CopyExact (rb : RingBuffer) (pos length : UInt64) : Prop :=
  pos.toNat + length.toNat < 2 ^ 64 ∧
  (¬ pos + length ≤ rb.size → pos ≤ rb.size ∧ rb.size - pos ≤ length)

end UoftOs.MsgQueue
