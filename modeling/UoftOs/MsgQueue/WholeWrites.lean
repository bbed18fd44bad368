import UoftOs.MsgQueue.Intact
import UoftOs.MsgQueue.WholeCalls

/-!
# Whole writes

A write puts its whole frame into the ring or leaves the ring alone, unless `Tears`
holds of one of its segments: the length wraps, or the handle does not block.
Nothing is assumed about the bytes in the ring.
-/

namespace UoftOs.MsgQueue

open Lib Lib.Frames Lib.Transition

section Wrapped
variable [Build] {N : Type} {mq : MqBackend N} {q : List UInt8} {flags : CInt}
  {buffer : List UInt8} {length : UInt64}

/-- `length + sizeof(size_t)` passes the end of `size_t`. -/
def Wraps (length : UInt64) : Prop := 2 ^ 64 ≤ length.toNat + 8

instance (length : UInt64) : Decidable (Wraps length) := inferInstanceAs (Decidable (_ ≤ _))

/-- Past its wait loop a write leaves the ring that its two ring writes leave. -/
theorem writeLoop_through {ok₁ ok₂ : Bool} {rb₁ rb₂ : RingBuffer}
    (hfree : ¬ ringBufferFree mq.buffer < length + sizeofSizeT)
    (hw₁ : ringBufferWrite mq.buffer (sizeBytes length) sizeofSizeT = .ok (ok₁, rb₁))
    (hw₂ : ringBufferWrite rb₁ buffer length = .ok (ok₂, rb₂)) :
    ∃ seg, writeLoop mq flags buffer length = .ok seg ∧ seg.mq.buffer = rb₂ := by
  by_cases hn : hasAny flags msgQueueNonblock = true
  · refine ⟨⟨{ mq with buffer := rb₂ }, [.signal .spaceEmpty], [], [ok₁, ok₂],
      .ret (-1) (some .EAGAIN)⟩, ?_, rfl⟩
    simp [writeLoop, hfree, hw₁, hw₂, hn, bind, Except.bind, pure, Except.pure]
  · refine ⟨⟨writeEvents { mq with buffer := rb₂ }, [.signal .spaceEmpty], [], [ok₁, ok₂],
      .ret 0 none⟩, ?_, writeEvents_buffer _⟩
    simp [writeLoop, hfree, hw₁, hw₂, hn, bind, Except.bind, pure, Except.pure]

/-- A write that goes through with a length that wraps puts at most its header into
the ring. -/
theorem writeLoop_wraps (h : Rep mq.buffer q) (hl : length ≠ 0) (hwrap : Wraps length)
    (hfree : ¬ ringBufferFree mq.buffer < length + sizeofSizeT) :
    ∃ seg, writeLoop mq flags buffer length = .ok seg ∧
      (8 ≤ (ringBufferFree mq.buffer).toNat →
        seg.mq.buffer.held = mq.buffer.held ++ sizeBytes length) ∧
      ((ringBufferFree mq.buffer).toNat < 8 → seg.mq.buffer = mq.buffer) := by
  have hsize {rb : RingBuffer} {q : List UInt8} (hrep : Rep rb q) :
      rb.size.toNat - q.length < length.toNat := by
    have hle := hrep.size_le
    unfold ptrdiffMax at hle
    unfold Wraps at hwrap
    omega
  rcases Nat.lt_or_ge (ringBufferFree mq.buffer).toNat 8 with hlt | hge
  · have hroom : mq.buffer.size.toNat - q.length < sizeofSizeT.toNat := by
      rw [ringBufferFree, h.freeInner_toNat] at hlt
      exact hlt
    have hw₁ : ringBufferWrite mq.buffer (sizeBytes length) sizeofSizeT = .ok (false, mq.buffer) :=
      ringBufferWrite_refuse h (by decide) hroom
    have hw₂ : ringBufferWrite mq.buffer buffer length = .ok (false, mq.buffer) :=
      ringBufferWrite_refuse h hl (hsize h)
    obtain ⟨seg, hrun, hb⟩ := writeLoop_through hfree hw₁ hw₂
    exact ⟨seg, hrun, fun hge => absurd hge (by omega), fun _ => hb⟩
  · have hroom : sizeofSizeT.toNat ≤ mq.buffer.size.toNat - q.length := by
      rw [ringBufferFree, h.freeInner_toNat] at hge
      exact hge
    obtain ⟨rb₁, hw₁, hr₁, -⟩ := writesSuffix h (by decide : sizeofSizeT ≠ 0)
      (by simp [sizeBytes, sizeofSizeT] : sizeofSizeT.toNat ≤ (sizeBytes length).length) hroom
    have hw₂ : ringBufferWrite rb₁ buffer length = .ok (false, rb₁) :=
      ringBufferWrite_refuse hr₁ hl (hsize hr₁)
    have hheader : (sizeBytes length).take sizeofSizeT.toNat = sizeBytes length :=
      List.take_of_length_le (by simp [sizeBytes, sizeofSizeT])
    rw [hheader] at hr₁
    obtain ⟨seg, hrun, hb⟩ := writeLoop_through hfree hw₁ hw₂
    refine ⟨seg, hrun, fun _ => ?_, fun hlt => absurd hlt (by omega)⟩
    rw [hb, hr₁.held, h.held]

/-- Without a wrap, a write that goes through puts its frame into the ring. -/
theorem writeLoop_fits (h : Rep mq.buffer q) (hl : length ≠ 0) (hp : buffer.length = length.toNat)
    (hfit : length.toNat + 8 < 2 ^ 64)
    (hfree : ¬ ringBufferFree mq.buffer < length + sizeofSizeT) :
    ∃ seg, writeLoop mq flags buffer length = .ok seg ∧
      Rep seg.mq.buffer (q ++ frame 8 buffer) := by
  have hroom : length.toNat + 8 ≤ mq.buffer.size.toNat - q.length := by
    rw [UInt64.lt_iff_toNat_lt, UInt64.toNat_add, ringBufferFree, h.freeInner_toNat] at hfree
    simp only [sizeofSizeT, UInt64.reduceToNat] at hfree
    omega
  have height : sizeofSizeT.toNat = 8 := rfl
  obtain ⟨rb₁, hw₁, hr₁, hs₁⟩ := writesSuffix h (by decide : sizeofSizeT ≠ 0)
    (by simp [sizeBytes, sizeofSizeT] : sizeofSizeT.toNat ≤ (sizeBytes length).length)
    (by omega)
  have hheader : (sizeBytes length).take sizeofSizeT.toNat = sizeBytes length :=
    List.take_of_length_le (by simp [sizeBytes, sizeofSizeT])
  rw [hheader] at hr₁
  have hused : (q ++ sizeBytes length).length = q.length + 8 := by
    rw [List.length_append, sizeBytes, length_leBytes]
  obtain ⟨rb₂, hw₂, hr₂, -⟩ := writesSuffix hr₁ hl (Nat.le_of_eq hp.symm)
    (by rw [hs₁, hused]; omega)
  rw [List.take_of_length_le (Nat.le_of_eq hp), List.append_assoc] at hr₂
  obtain ⟨seg, hrun, hb⟩ := writeLoop_through hfree hw₁ hw₂
  refine ⟨seg, hrun, ?_⟩
  rw [hb, frame, hp]
  exact hr₂

end Wrapped

namespace Queue
variable {T : Type} [DecidableEq T] {s : Queue T} {mq : MqBackend Empty} [Build] {t : T}
  {h : HandleId} {c : Call}

section WriteTraces

end WriteTraces

end Queue
end UoftOs.MsgQueue
