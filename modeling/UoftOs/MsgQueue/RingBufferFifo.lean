import UoftOs.Lib.Refinement
import UoftOs.MsgQueue.RingBufferSpec

/-!
# Call sequences on the byte ring

The abstract object is a byte list of bounded length. Every sequence of calls
with non-zero lengths after `ring_buffer_init` answers like it.
-/

namespace UoftOs.MsgQueue

open Lib.Cyclic Lib.Refinement

/-- A call of the ring buffer interface. -/
inductive RingOp where
  | write (buffer : List UInt8) (length : UInt64)
  | read (length : UInt64)
  | peek (length : UInt64)
  | used
  | free

/-- The answer to a call: a flag, the delivered bytes or an amount. -/
inductive RingRes where
  | wrote (ok : Bool)
  | got (bytes : Option (List UInt8))
  | amount (n : Nat)
  deriving DecidableEq

namespace RingOp

/-- Lengths are not zero, and a written buffer has the bytes the caller announces. -/
def Admissible : RingOp → Prop
  | write buffer length => length ≠ 0 ∧ length.toNat ≤ buffer.length
  | read length => length ≠ 0
  | peek length => length ≠ 0
  | used => True
  | free => True

/-- The call on the ring. -/
def exec [Build] : RingOp → RingBuffer → Except Fault (RingRes × RingBuffer)
  | write buffer length, rb => do
      let (ok, rb') ← ringBufferWrite rb buffer length
      return (.wrote ok, rb')
  | read length, rb => do
      let (out, rb') ← ringBufferRead rb length
      return (.got out, rb')
  | peek length, rb => do
      let (out, rb') ← ringBufferPeek rb length
      return (.got out, rb')
  | used, rb => .ok (.amount (ringBufferUsed rb).toNat, rb)
  | free, rb => .ok (.amount (ringBufferFree rb).toNat, rb)

/-- The call on a byte list of at most `size` bytes. -/
def spec (size : Nat) : RingOp → List UInt8 → RingRes × List UInt8
  | write buffer length, q =>
      if length.toNat ≤ size - q.length then (.wrote true, q ++ buffer.take length.toNat)
      else (.wrote false, q)
  | read length, q =>
      if length.toNat ≤ q.length then (.got (some (q.take length.toNat)), q.drop length.toNat)
      else (.got none, q)
  | peek length, q =>
      if length.toNat ≤ q.length then (.got (some (q.take length.toNat)), q)
      else (.got none, q)
  | used, q => (.amount q.length, q)
  | free, q => (.amount (size - q.length), q)

/-- Every sum and difference the call forms is exact. -/
def Exact (rb : RingBuffer) : RingOp → Prop
  | write _ length =>
      UsedExact rb ∧ (length ≤ ringBufferFreeInner rb → CopyExact rb rb.tail length)
  | read length =>
      UsedExact rb ∧ (length ≤ ringBufferUsedInner rb → CopyExact rb rb.head length)
  | peek length =>
      UsedExact rb ∧ (length ≤ ringBufferUsedInner rb → CopyExact rb rb.head length)
  | used => UsedExact rb
  | free => UsedExact rb

end RingOp

variable [Build]

theorem Rep.opExact {rb : RingBuffer} {q : List UInt8} (h : Rep rb q) (op : RingOp) :
    op.Exact rb := by
  have hf := h.fits
  have hcopy {length bound : UInt64} (pos : UInt64) (hp : pos.toNat < rb.size.toNat)
      (hb : bound.toNat ≤ rb.size.toNat) (hle : length ≤ bound) : CopyExact rb pos length :=
    h.copyExact hp (Nat.le_trans (UInt64.le_iff_toNat_le.mp hle) hb)
  have hused : (ringBufferUsedInner rb).toNat ≤ rb.size.toNat := by
    rw [h.usedInner_toNat]
    exact hf
  have hfree : (ringBufferFreeInner rb).toNat ≤ rb.size.toNat := by
    rw [h.freeInner_toNat]
    exact Nat.sub_le _ _
  cases op with
  | write buffer length => exact ⟨h.usedExact, hcopy _ h.tail_lt hfree⟩
  | read length => exact ⟨h.usedExact, hcopy _ h.head_lt hused⟩
  | peek length => exact ⟨h.usedExact, hcopy _ h.head_lt hused⟩
  | used => exact h.usedExact
  | free => exact h.usedExact

/-- One call on the ring answers like the byte list it represents. -/
theorem ringOp_simulates (size : UInt64) :
    Simulates RingOp.exec (RingOp.spec size.toNat) RingOp.Admissible
      (fun rb q => Rep rb q ∧ rb.size = size) := by
  rintro op rb q hop ⟨h, rfl⟩
  cases op with
  | write buffer length =>
      by_cases hle : length.toNat ≤ rb.size.toNat - q.length
      · obtain ⟨rb', hw, hr, hs⟩ := writesSuffix h hop.1 hop.2 hle
        exact ⟨rb', by simp [RingOp.exec, RingOp.spec, hw, hle, bind, Except.bind, pure,
          Except.pure], by simpa [RingOp.spec, hle] using hr, hs⟩
      · have hw : ringBufferWrite rb buffer length = .ok (false, rb) :=
          ringBufferWrite_refuse h hop.1 (by omega)
        exact ⟨rb, by simp [RingOp.exec, RingOp.spec, hw, hle, bind, Except.bind, pure,
          Except.pure], by simpa [RingOp.spec, hle] using h, rfl⟩
  | read length =>
      by_cases hle : length.toNat ≤ q.length
      · obtain ⟨rb', hw, hr, hs, -⟩ := readsPrefix h hop true hle
        exact ⟨rb', by simp [RingOp.exec, RingOp.spec, ringBufferRead, hw, hle, bind, Except.bind,
          pure, Except.pure], by simpa [RingOp.spec, hle] using hr, hs⟩
      · have hw := ringBufferReadCommon_refuse h hop true (by omega)
        exact ⟨rb, by simp [RingOp.exec, RingOp.spec, ringBufferRead, hw, hle, bind, Except.bind,
          pure, Except.pure], by simpa [RingOp.spec, hle] using h, rfl⟩
  | peek length =>
      by_cases hle : length.toNat ≤ q.length
      · obtain ⟨rb', hw, hr, hs, -⟩ := readsPrefix h hop false hle
        exact ⟨rb', by simp [RingOp.exec, RingOp.spec, ringBufferPeek, hw, hle, bind, Except.bind,
          pure, Except.pure], by simpa [RingOp.spec, hle] using hr, hs⟩
      · have hw := ringBufferReadCommon_refuse h hop false (by omega)
        exact ⟨rb, by simp [RingOp.exec, RingOp.spec, ringBufferPeek, hw, hle, bind, Except.bind,
          pure, Except.pure], by simpa [RingOp.spec, hle] using h, rfl⟩
  | used =>
      exact ⟨rb, by simp [RingOp.exec, RingOp.spec, ringBufferUsed, h.usedInner_toNat], h, rfl⟩
  | free =>
      exact ⟨rb, by simp [RingOp.exec, RingOp.spec, ringBufferFree, h.freeInner_toNat], h, rfl⟩

/-- A call that leaves the represented bytes alone leaves the whole ring alone. -/
theorem Rep.exec_unchanged {rb : RingBuffer} {q : List UInt8} (h : Rep rb q) {op : RingOp}
    (hop : op.Admissible) (hq : (op.spec rb.size.toNat q).2 = q) :
    op.exec rb = .ok ((op.spec rb.size.toNat q).1, rb) := by
  have hlength := congrArg List.length hq
  cases op with
  | write buffer length =>
      have hl := toNat_pos hop.1
      have hb := hop.2
      by_cases hle : length.toNat ≤ rb.size.toNat - q.length
      · rw [RingOp.spec, if_pos hle, List.length_append, List.length_take] at hlength
        omega
      · have hw : ringBufferWrite rb buffer length = .ok (false, rb) :=
          ringBufferWrite_refuse h hop.1 (by omega)
        simp [RingOp.exec, RingOp.spec, hw, hle, bind, Except.bind, pure, Except.pure]
  | read length =>
      have hl := toNat_pos hop
      by_cases hle : length.toNat ≤ q.length
      · rw [RingOp.spec, if_pos hle, List.length_drop] at hlength
        omega
      · have hw := ringBufferReadCommon_refuse h hop true (by omega)
        simp [RingOp.exec, RingOp.spec, ringBufferRead, hw, hle, bind, Except.bind, pure,
          Except.pure]
  | peek length =>
      by_cases hle : length.toNat ≤ q.length
      · obtain ⟨rb', hw, -, -, hsame⟩ := readsPrefix h hop false hle
        rw [hsame rfl] at hw
        simp [RingOp.exec, RingOp.spec, ringBufferPeek, hw, hle, bind, Except.bind, pure,
          Except.pure]
      · have hw := ringBufferReadCommon_refuse h hop false (by omega)
        simp [RingOp.exec, RingOp.spec, ringBufferPeek, hw, hle, bind, Except.bind, pure,
          Except.pure]
  | used => simp [RingOp.exec, RingOp.spec, ringBufferUsed, h.usedInner_toNat]
  | free => simp [RingOp.exec, RingOp.spec, ringBufferFree, h.freeInner_toNat]

/-- After `ring_buffer_init`, every call sequence answers like a bounded byte
queue without a fault, and what holds along the way holds at its end. -/
theorem ringBuffer_refines_fifo {answer : Option (Nat → UInt8)} {size : UInt64}
    {rb : RingBuffer} (hpos : size ≠ 0) (hinit : ringBufferInit answer size = .ok (some rb))
    (ops : List RingOp) (hops : ∀ op ∈ ops, op.Admissible) :
    ∃ rb' q, specCalls (RingOp.spec size.toNat) ops [] =
        ((specCalls (RingOp.spec size.toNat) ops []).1, q) ∧
      runCalls RingOp.exec ops rb =
        .ok ((specCalls (RingOp.spec size.toNat) ops []).1, rb') ∧
      q.length ≤ size.toNat ∧ rb'.size = size ∧ rb'.buffer.length = size.toNat ∧
      rb'.head < size ∧ rb'.tail < size ∧ (rb'.full = true → rb'.head = rb'.tail) ∧
      (∀ op : RingOp, op.Exact rb') ∧
      ∀ op : RingOp, op.Admissible → (op.spec size.toNat q).2 = q →
        op.exec rb' = .ok ((op.spec size.toNat q).1, rb') := by
  obtain ⟨hr, hs⟩ := ringBufferInit_rep hpos hinit
  obtain ⟨rb', hrun, hr', rfl⟩ :=
    (ringOp_simulates size).runCalls ops hops ⟨hr, hs⟩
  exact ⟨rb', _, rfl, hrun, hr'.fits, rfl, hr'.block, UInt64.lt_iff_toNat_lt.mpr hr'.head_lt,
    UInt64.lt_iff_toNat_lt.mpr hr'.tail_lt, hr'.head_eq_tail, hr'.opExact,
    fun op => hr'.exec_unchanged⟩

omit [Build] in
/-- A debug build and a ring of three bytes: the second write wraps, the third is refused. -/
theorem ringBuffer_refines_fifo_three :
    letI : Build := ⟨false⟩
    ∃ rb rb', ringBufferInit (some fun _ => 7) 3 = .ok (some rb) ∧
      runCalls RingOp.exec [.write [1, 2] 2, .read 1, .write [3, 4] 2, .write [5] 1, .peek 3] rb =
        .ok ([.wrote true, .got (some [1]), .wrote true, .wrote false,
          .got (some [2, 3, 4])], rb') := by
  let _ : Build := ⟨false⟩
  have hinit : ringBufferInit (some fun _ => 7) 3 =
      .ok (some ⟨[0xDD, 0xDD, 0xDD], 3, 0, 0, false⟩) := by rfl
  obtain ⟨rb', q, -, hrun, -⟩ := ringBuffer_refines_fifo (by decide) hinit
    [.write [1, 2] 2, .read 1, .write [3, 4] 2, .write [5] 1, .peek 3]
    (by simp [RingOp.Admissible])
  exact ⟨_, rb', hinit, hrun⟩

/-! ## The poison check -/

/-- Cell `i` lies in the used region, which may wrap around. -/
def InUse (rb : RingBuffer) (i : Nat) : Prop :=
  ∃ j < (ringBufferUsed rb).toNat, i = (rb.head.toNat + j) % rb.size.toNat

/-- The cells outside the used region are those counted from the tail. -/
theorem Rep.poison_of_not_inUse {rb : RingBuffer} {q : List UInt8} (h : Rep rb q)
    (hdebug : Build.ndebug = false) {i : Nat} (hi : i < rb.size.toNat) (hfree : ¬ InUse rb i) :
    rb.buffer[i]? = some poison := by
  have hfits := h.fits
  have htail := h.tail_lt
  obtain ⟨d, hd, rfl⟩ : ∃ d < rb.size.toNat, i = (d + rb.tail.toNat) % rb.size.toNat := by
    rcases Nat.lt_or_ge i rb.tail.toNat with hlt | hge
    · refine ⟨i + rb.size.toNat - rb.tail.toNat, by omega, ?_⟩
      rw [show i + rb.size.toNat - rb.tail.toNat + rb.tail.toNat = i + rb.size.toNat by omega,
        Nat.add_mod_right, Nat.mod_eq_of_lt hi]
    · refine ⟨i - rb.tail.toNat, by omega, ?_⟩
      rw [Nat.sub_add_cancel hge, Nat.mod_eq_of_lt hi]
  have hbehind : d < rb.size.toNat - q.length := by
    by_contra hge
    refine hfree ⟨d + q.length - rb.size.toNat, ?_, ?_⟩
    · rw [ringBufferUsed, h.usedInner_toNat]
      omega
    · rw [h.tail_eq, Nat.add_mod_mod, ← Nat.add_mod_right (rb.head.toNat + _),
        show rb.head.toNat + (d + q.length - rb.size.toNat) + rb.size.toNat =
          d + (rb.head.toNat + q.length) by omega]
  have hcell := congrArg (fun l => l[d]?) (h.poisoned hdebug)
  simp only [List.getElem?_replicate, if_pos hbehind] at hcell
  rwa [getElem?_window (by rw [h.block]; omega) hbehind, h.block] at hcell

/-- In a debug build no call of a sequence faults, and afterwards every cell outside the used
region carries the poison. -/
theorem poison_check_passes (hdebug : Build.ndebug = false) {answer : Option (Nat → UInt8)}
    {size : UInt64} {rb : RingBuffer} (hpos : size ≠ 0)
    (hinit : ringBufferInit answer size = .ok (some rb)) (ops : List RingOp)
    (hops : ∀ op ∈ ops, op.Admissible) :
    ∃ results rb', runCalls RingOp.exec ops rb = .ok (results, rb') ∧ rb'.size = size ∧
      rb'.buffer.length = size.toNat ∧
      ∀ i < size.toNat, ¬ InUse rb' i → rb'.buffer[i]? = some poison := by
  obtain ⟨hr, hs⟩ := ringBufferInit_rep hpos hinit
  obtain ⟨rb', hrun, hr', rfl⟩ := (ringOp_simulates size).runCalls ops hops ⟨hr, hs⟩
  exact ⟨_, rb', hrun, rfl, hr'.block, fun i hi hfree => hr'.poison_of_not_inUse hdebug hi hfree⟩

omit [Build] in
/-- The poison value itself is written, read and written again across the wrap. -/
theorem poison_check_passes_three :
    letI : Build := ⟨false⟩
    ∃ rb results rb', ringBufferInit (some fun _ => 7) 3 = .ok (some rb) ∧
      runCalls RingOp.exec [.write [0xDD, 2] 2, .read 1, .write [0xDD, 4] 2, .read 2] rb =
        .ok (results, rb') ∧
      ∀ i < 3, ¬ InUse rb' i → rb'.buffer[i]? = some poison := by
  let _ : Build := ⟨false⟩
  have hinit : ringBufferInit (some fun _ => 7) 3 =
      .ok (some ⟨[0xDD, 0xDD, 0xDD], 3, 0, 0, false⟩) := by rfl
  obtain ⟨results, rb', hrun, -, -, hpoison⟩ := poison_check_passes rfl (by decide) hinit
    [.write [0xDD, 2] 2, .read 1, .write [0xDD, 4] 2, .read 2] (by simp [RingOp.Admissible])
  exact ⟨_, results, rb', hinit, hrun, hpoison⟩

end UoftOs.MsgQueue
