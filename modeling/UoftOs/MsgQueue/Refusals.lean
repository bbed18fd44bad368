import UoftOs.MsgQueue.WholeWrites

/-!
# Messages that are too large, and handles that do not block

A write refuses a message for its size, and a call through a non-blocking handle fails
instead of waiting. Both hold for some calls only: the size check compares a sum that may
wrap, and with `≤`; a non-blocking write waits, or sends and fails.
-/

namespace UoftOs.MsgQueue

open Lib Lib.Frames Lib.Transition

namespace Queue
variable {T : Type} [DecidableEq T] [Build] {s s' : Queue T} {mq : MqBackend Empty} {h : HandleId}

/-! ## The size of the ring -/

/-- No step changes the size of the ring. -/
theorem Intact.size_step (hi : Intact s) {l : Label T} (hs : Step s l s')
    {mq' : MqBackend Empty} (hmq' : s'.mq = some mq') :
    ∃ mq, s.mq = some mq ∧ mq'.buffer.size = mq.buffer.size := by
  cases hs with
  | @segment mq t h c seg k k' ha hmq hb hn =>
      obtain rfl : seg.mq = mq' := Option.some.inj hmq'
      obtain ⟨q, hq⟩ := hi.ring mq hmq
      exact ⟨mq, hmq, ((hb.touches hi.monitored hi.readsDrain).keeps hq).2.size⟩
  | abort => exact ⟨mq', hmq', rfl⟩
  | openRefused => exact ⟨mq', hmq', rfl⟩
  | @«open» mq mq₁ h new flags ha hmq hh hnew ho =>
      obtain rfl : mq₁ = mq' := Option.some.inj hmq'
      refine ⟨mq, hmq, ?_⟩
      unfold msgQueueOpen at ho
      split at ho
      · cases ho
      · obtain rfl := Except.ok.inj ho
        rw [mqOpen_buffer]
  | @close mq mq₁ h ns k' ha hmq hh hfree hc hn =>
      obtain rfl : mq₁ = some mq' := hmq'
      refine ⟨mq, hmq, ?_⟩
      rcases msgQueueClose_counted (hi.counted mq hmq) hh with
        ⟨-, hlast⟩ | ⟨-, mq₁, ns₁, hrun, -, hclosed⟩
      · cases (Prod.mk.inj (Except.ok.inj (hc.symm.trans hlast))).1
      · obtain ⟨heq, -⟩ := Prod.mk.inj (Except.ok.inj (hc.symm.trans hrun))
        rw [Option.some.inj heq, hclosed.buffer]
  | closeAbort => exact ⟨mq', hmq', rfl⟩

/-- In every run the ring has the capacity that the queue was created with. -/
theorem run_size {block : Option CInt} {answer : Option (Nat → UInt8)} {capacity : UInt64}
    {flags : CInt} {mq₀ : MqBackend Empty}
    (hcreate : msgQueueCreate block answer capacity flags = .ok (.ok mq₀)) {ls : List (Label T)}
    (run : Run Step (created mq₀ flags) ls s) (hmq : s.mq = some mq) :
    mq.buffer.size = capacity := by
  have hcreated : IsCreated (created (T := T) mq₀ flags) :=
    ⟨block, answer, capacity, flags, mq₀, hcreate, rfl⟩
  have hinv : Intact s ∧ ∀ mq, s.mq = some mq → mq.buffer.size = capacity := by
    refine run.state_invariant (I := fun s => Intact s ∧ ∀ mq, s.mq = some mq →
      mq.buffer.size = capacity) ⟨created_intact hcreated, ?_⟩ fun s l s' hi hs => ?_
    · rintro _ ⟨⟩
      obtain ⟨buffer, stale, -, hsize, -, rfl⟩ := msgQueueCreate_ok hcreate
      rw [mqOpen_buffer, hsize]
    · refine ⟨hi.1.step hs, fun mq' hmq' => ?_⟩
      obtain ⟨mq, hmq, hsize⟩ := hi.1.size_step hs hmq'
      rw [hsize, hi.2 mq hmq]
  exact hinv.2 mq hmq

/-! ## Messages that are too large -/

/-- `msg_queue_write` fails with `EMSGSIZE`. -/
def TooLarge (mq : MqBackend Empty) (flags : CInt) (buffer : List UInt8) (length : UInt64) : Prop :=
  ∃ seg, msgQueueWrite mq flags buffer length = .ok seg ∧ seg.next = .ret (-1) (some .EMSGSIZE)

/-- The first segment refuses a message exactly when it can never fit, and no later one does.
Whenever the ring is empty there is room for a message that is not refused. -/
structure SizeChecked (s : Queue T) (h : HandleId) (mq : MqBackend Empty) (capacity : UInt64)
    (buffer : List UInt8) (length : UInt64) : Prop where
  refused : TooLarge mq (s.flags h) buffer length ↔ capacity.toNat < length.toNat + 8
  later : ∀ (mq' : MqBackend Empty) seg, writeLoop mq' (s.flags h) buffer length = .ok seg →
    seg.next ≠ .ret (-1) (some .EMSGSIZE)
  room : ¬ TooLarge mq (s.flags h) buffer length → ∀ ls s' mq', Run Step s ls s' →
    s'.mq = some mq' → ringBufferUsed mq'.buffer = 0 →
      length.toNat + 8 ≤ (ringBufferFree mq'.buffer).toNat

omit [DecidableEq T] in
theorem tooLarge_iff {flags : CInt} {buffer : List UInt8} {length : UInt64}
    (hw : hasAny flags msgQueueWriter = true) (hr : mq.noReaders = false) (hl : length ≠ 0) :
    TooLarge mq flags buffer length ↔ mq.buffer.size ≤ length + sizeofSizeT := by
  have hlength : (length == 0) = false := beq_false_of_ne hl
  rw [TooLarge, msgQueueWrite, hw, hlength, hr]
  constructor
  · rintro ⟨seg, hrun, hnext⟩
    by_contra hlarge
    simp only [Bool.not_true, Bool.false_eq_true, if_false, if_neg hlarge] at hrun
    cases writeLoop_goes hrun with
    | sleeps => cases hnext
    | puts _ _ _ hn =>
        rw [hn] at hnext
        split at hnext <;> cases hnext
  · intro hlarge
    simp only [Bool.not_true, Bool.false_eq_true, if_false, if_pos hlarge]
    exact ⟨_, rfl, rfl⟩

omit [DecidableEq T] in
theorem writeLoop_later {flags : CInt} {buffer : List UInt8} {length : UInt64}
    {seg : Segment Empty} (hrun : writeLoop mq flags buffer length = .ok seg) :
    seg.next ≠ .ret (-1) (some .EMSGSIZE) := by
  intro hnext
  cases writeLoop_goes hrun with
  | sleeps => cases hnext
  | puts _ _ _ hn =>
      rw [hn] at hnext
      split at hnext <;> cases hnext

omit [DecidableEq T] [Build] in
/-- What the comparison of the code says about the exact sum. -/
theorem size_le_iff {capacity length : UInt64} (hcap : 9 ≤ capacity.toNat) :
    capacity ≤ length + sizeofSizeT ↔
      ¬ Wraps length ∧ capacity.toNat ≤ length.toNat + 8 := by
  have hlt := length.toNat_lt
  have height : sizeofSizeT.toNat = 8 := rfl
  rw [UInt64.le_iff_toNat_le, UInt64.toNat_add, height, Wraps]
  omega

/-- A message is refused exactly when it can never fit, for every length whose sum neither
wraps nor equals the capacity. A message can be sent unless the capacity is 9. -/
theorem too_large_iff {block : Option CInt} {answer : Option (Nat → UInt8)} {capacity : UInt64}
    {flags : CInt} {mq₀ : MqBackend Empty}
    (hcreate : msgQueueCreate block answer capacity flags = .ok (.ok mq₀)) {ls : List (Label T)}
    (run : Run Step (created mq₀ flags) ls s) (hmq : s.mq = some mq) (hr : mq.noReaders = false)
    (hw : hasAny (s.flags h) msgQueueWriter = true) (buffer : List UInt8) :
    (∀ length, length ≠ 0 → (SizeChecked s h mq capacity buffer length ↔
      ¬ Wraps length ∧ length.toNat + 8 ≠ capacity.toNat)) ∧
    ((∃ length, length ≠ 0 ∧ ¬ TooLarge mq (s.flags h) buffer length ∧
      length.toNat + 8 ≤ capacity.toNat) ↔ capacity.toNat ≠ 9) := by
  obtain ⟨_, _, _, _, hcap, _⟩ := msgQueueCreate_ok hcreate
  have hsize := run_size hcreate run hmq
  have hdecides : ∀ length, length ≠ 0 → (TooLarge mq (s.flags h) buffer length ↔
      ¬ Wraps length ∧ capacity.toNat ≤ length.toNat + 8) := by
    intro length hl
    rw [tooLarge_iff hw hr hl, hsize, size_le_iff hcap]
  have hcaplt := capacity.toNat_lt
  constructor
  · intro length hl
    have hdecides := hdecides length hl
    rw [Wraps] at hdecides ⊢
    constructor
    · intro hchecked
      have hrefused := hchecked.refused
      rw [hdecides] at hrefused
      omega
    · rintro ⟨hnowrap, hne⟩
      refine ⟨?_, fun mq' seg => writeLoop_later, fun hnot ls' s' mq' run' hmq' hused => ?_⟩
      · rw [hdecides]
        omega
      · have hsize' := run_size hcreate (run.append run') hmq'
        have hcreated : IsCreated (created (T := T) mq₀ flags) := ⟨_, _, _, _, _, hcreate, rfl⟩
        obtain ⟨q, hq⟩ := (run_intact hcreated (run.append run')).ring mq' hmq'
        have hempty : q = [] := by
          rw [← List.isEmpty_iff, ← hq.used_eq_zero, hused]
          rfl
        rw [hdecides] at hnot
        rw [ringBufferFree, hq.freeInner_toNat, hempty, hsize', List.length_nil]
        omega
  · constructor
    · rintro ⟨length, hl, hnot, hfits⟩
      rw [hdecides length hl, Wraps] at hnot
      have hpos := toNat_pos hl
      omega
    · intro hnine
      refine ⟨1, by decide, ?_, ?_⟩
      · rw [hdecides 1 (by decide), Wraps]
        have hone : (1 : UInt64).toNat = 1 := rfl
        omega
      · have hone : (1 : UInt64).toNat = 1 := rfl
        omega

section Sizes

/-- A new backend of eleven bytes with one handle. -/
private def vacant11 : MqBackend Empty :=
  ⟨⟨List.replicate 11 0xDD, 11, 0, 0, false⟩, 1, 1, 1, false, false, 0, []⟩

omit [Build] in
private theorem vacant11_created (flags : CInt) (hflags : flags = 3 ∨ flags = 7) :
    letI : Build := ⟨false⟩
    msgQueueCreate (some 0) (some fun _ => 0) 11 flags = .ok (.ok vacant11) := by
  rcases hflags with rfl | rfl <;> decide

omit [Build] in
/-- One byte fits in a new queue of eleven. -/
theorem too_large_iff_eleven :
    letI : Build := ⟨false⟩
    SizeChecked (created (T := Unit) vacant11 3) 0 vacant11 11 [5] 1 := by
  let _ : Build := ⟨false⟩
  exact ((too_large_iff (vacant11_created 3 (.inl rfl)) .nil rfl rfl (by decide) [5]).1 1
    (by decide)).mpr (by decide)

omit [Build] in
/-- A message of three bytes fills a queue of eleven exactly, and is refused. -/
theorem exact_fit_refused :
    letI : Build := ⟨false⟩
    ∃ s : Queue Unit, IsCreated s ∧ s.mq = some vacant11 ∧ vacant11.noReaders = false ∧
      hasAny (s.flags 0) msgQueueWriter = true ∧ ¬ SizeChecked s 0 vacant11 11 [5, 5, 5] 3 := by
  let _ : Build := ⟨false⟩
  refine ⟨created vacant11 3, ⟨_, _, _, _, _, vacant11_created 3 (.inl rfl), rfl⟩, rfl, rfl,
    by decide, fun hchecked => ?_⟩
  have hlarge : TooLarge vacant11 3 [5, 5, 5] 3 := ⟨_, rfl, rfl⟩
  exact absurd (hchecked.refused.mp hlarge) (by decide)

end Sizes

/-! ## Handles that do not block -/

/-- A segment of a call fails with `EAGAIN`. -/
def FailsAgain (r : Except Fault (Segment Empty)) : Prop :=
  ∃ seg, r = .ok seg ∧ seg.next = .ret (-1) (some .EAGAIN)

def Sleeps (r : Except Fault (Segment Empty)) : Prop :=
  ∃ seg cv, r = .ok seg ∧ seg.next = .wait cv

/-- The call never waits. A read fails with `EAGAIN` exactly when the ring is empty and there
are writers, a write past its other checks exactly when its frame does not fit; otherwise
it appends the frame and returns 0. -/
def AnswersAtOnce (mq : MqBackend Empty) (flags : CInt) : Call → Prop
  | .read length m₀ =>
      ¬ Sleeps (msgQueueRead mq flags length m₀) ∧
      (∀ (mq' : MqBackend Empty) m, ¬ Sleeps (readDrain mq' m) ∧ ¬ FailsAgain (readDrain mq' m)) ∧
      (hasAny flags msgQueueReader = true →
        (FailsAgain (msgQueueRead mq flags length m₀) ↔
          ringBufferUsed mq.buffer = 0 ∧ mq.noWriters = false))
  | .write buffer length =>
      ¬ Sleeps (msgQueueWrite mq flags buffer length) ∧
      (hasAny flags msgQueueWriter = true → Admitted mq length →
        (FailsAgain (msgQueueWrite mq flags buffer length) ↔
          (ringBufferFree mq.buffer).toNat < length.toNat + 8) ∧
        (length.toNat + 8 ≤ (ringBufferFree mq.buffer).toNat →
          ∃ seg, msgQueueWrite mq flags buffer length = .ok seg ∧ seg.next = .ret 0 none ∧
            seg.mq.buffer.held = mq.buffer.held ++ frame 8 buffer))

/-- Reads, writes that an earlier check refuses, and writes with a length that wraps and a
ring that has the wrapped number of bytes free. -/
def Spared (mq : MqBackend Empty) (flags : CInt) : Call → Prop
  | .read .. => True
  | .write _ length =>
      ¬ (hasAny flags msgQueueWriter = true ∧ Admitted mq length) ∨
        (Wraps length ∧ ¬ ringBufferFree mq.buffer < length + sizeofSizeT)

variable {flags : CInt} {length m₀ : UInt64} {buffer : List UInt8} {q : List UInt8}

omit [DecidableEq T] in
theorem readDrain_returns {seg : Segment Empty} {m : UInt64} (hrun : readDrain mq m = .ok seg) :
    ∃ value, seg.next = .ret value none := by
  unfold readDrain at hrun
  obtain ⟨⟨header, rb₁⟩, -, hrun⟩ := except_bind_ok hrun
  obtain ⟨⟨body, rb₂⟩, -, hrun⟩ := except_bind_ok hrun
  obtain rfl := Except.ok.inj hrun
  exact ⟨_, rfl⟩

omit [DecidableEq T] in
/-- Behind its wait loop a read returns a value, or it goes on to drain. -/
theorem readAfterWait_returns {seg : Segment Empty}
    (hrun : readAfterWait mq length m₀ = .ok seg) :
    (∃ value, seg.next = .ret value none) ∨ ∃ m, seg.next = .drain m := by
  unfold readAfterWait at hrun
  split at hrun
  · obtain rfl := Except.ok.inj hrun
    exact .inl ⟨_, rfl⟩
  · obtain ⟨⟨header, rb⟩, -, hrun⟩ := except_bind_ok hrun
    dsimp only at hrun
    split at hrun
    · obtain rfl := Except.ok.inj hrun
      exact .inr ⟨_, rfl⟩
    · obtain ⟨seg', hdrain, hrun⟩ := except_bind_ok hrun
      obtain ⟨value, hret⟩ := readDrain_returns hdrain
      obtain rfl := Except.ok.inj hrun
      exact .inl ⟨value, hret⟩

omit [DecidableEq T] in
theorem read_answersAtOnce (hn : hasAny flags msgQueueNonblock = true) :
    AnswersAtOnce mq flags (.read length m₀) := by
  have hafter : ¬ Sleeps (readAfterWait mq length m₀) ∧ ¬ FailsAgain (readAfterWait mq length m₀) := by
    constructor
    · rintro ⟨seg, cv, hrun, hnext⟩
      rcases readAfterWait_returns hrun with ⟨value, hret⟩ | ⟨m, hdrain⟩
      · cases hret.symm.trans hnext
      · cases hdrain.symm.trans hnext
    · rintro ⟨seg, hrun, hnext⟩
      rcases readAfterWait_returns hrun with ⟨value, hret⟩ | ⟨m, hdrain⟩
      · cases hret.symm.trans hnext
      · cases hdrain.symm.trans hnext
  refine ⟨?_, fun mq' m => ⟨?_, ?_⟩, fun hreader => ?_⟩
  · rintro ⟨seg, cv, hrun, hnext⟩
    rw [msgQueueRead, readLoop, hn] at hrun
    split at hrun
    · cases hrun
      cases hnext
    · split at hrun
      · cases hrun
        cases hnext
      · split at hrun
        · rw [if_pos rfl] at hrun
          cases hrun
          cases hnext
        · exact hafter.1 ⟨seg, cv, hrun, hnext⟩
  · rintro ⟨seg, cv, hrun, hnext⟩
    obtain ⟨value, hret⟩ := readDrain_returns hrun
    cases hret.symm.trans hnext
  · rintro ⟨seg, hrun, hnext⟩
    obtain ⟨value, hret⟩ := readDrain_returns hrun
    cases hret.symm.trans hnext
  · rw [msgQueueRead, readLoop, hn, hreader]
    cases hw : mq.noWriters with
    | true =>
        by_cases hu : ringBufferUsed mq.buffer = 0
        · simp [FailsAgain, Segment.quiet, hu]
        · simp [hu, hafter.2]
    | false =>
        by_cases hu : ringBufferUsed mq.buffer = 0
        · simp [FailsAgain, Segment.quiet, hu]
        · simp [hu, hafter.2]

omit [DecidableEq T] in
/-- Past its checks a write through a non-blocking handle waits, or it fails with `EAGAIN`. -/
theorem write_answersAtOnce_iff (hq : Rep mq.buffer q) (hn : hasAny flags msgQueueNonblock = true)
    (hp : buffer.length = length.toNat) :
    AnswersAtOnce mq flags (.write buffer length) ↔ Spared mq flags (.write buffer length) := by
  by_cases hpast : hasAny flags msgQueueWriter = true ∧ Admitted mq length
  · obtain ⟨hw, hadm⟩ := hpast
    have hrun : msgQueueWrite mq flags buffer length = writeLoop mq flags buffer length := by
      have hzero : (length == 0) = false := beq_false_of_ne hadm.1
      rw [msgQueueWrite, hw, hzero, hadm.2.1, if_neg hadm.2.2]
      rfl
    rw [Spared, AnswersAtOnce, hrun]
    by_cases hfree : ringBufferFree mq.buffer < length + sizeofSizeT
    · have hsleeps : Sleeps (writeLoop mq flags buffer length) := by
        refine ⟨.quiet mq (.wait .spaceFull), .spaceFull, ?_, rfl⟩
        rw [writeLoop, if_pos hfree]
        rfl
      refine iff_of_false (fun h => h.1 hsleeps) ?_
      · rintro (hno | ⟨-, hno⟩)
        · exact hno ⟨hw, hadm⟩
        · exact hno hfree
    · have hagain : ∀ seg, writeLoop mq flags buffer length = .ok seg →
          seg.next = .ret (-1) (some .EAGAIN) := by
        intro seg hseg
        cases writeLoop_goes hseg with
        | sleeps hsleeps => exact absurd hsleeps hfree
        | puts _ _ _ hnext => rw [hnext, if_pos hn]
      by_cases hwrap : Wraps length
      · obtain ⟨seg, hseg⟩ : ∃ seg, writeLoop mq flags buffer length = .ok seg :=
          (writeLoop_wraps hq hadm.1 hwrap hfree).imp fun _ h => h.1
        have hfull : (ringBufferFree mq.buffer).toNat < length.toNat + 8 :=
          Nat.lt_of_lt_of_le (UInt64.toNat_lt _) hwrap
        refine iff_of_true ⟨?_, fun _ _ => ⟨iff_of_true ⟨seg, hseg, hagain seg hseg⟩ hfull,
          fun hle => absurd hfull (Nat.not_lt.mpr hle)⟩⟩ (.inr ⟨hwrap, hfree⟩)
        rintro ⟨seg', cv, hseg', hnext⟩
        cases (hagain seg' hseg').symm.trans hnext
      · have hfit : length.toNat + 8 < 2 ^ 64 := Nat.lt_of_not_le hwrap
        obtain ⟨seg, hseg⟩ : ∃ seg, writeLoop mq flags buffer length = .ok seg :=
          (writeLoop_fits hq hadm.1 hp hfit hfree).imp fun _ h => h.1
        refine iff_of_false (fun h => ?_) ?_
        · have hroom := ((h.2 hw hadm).1.mp ⟨seg, hseg, hagain seg hseg⟩)
          have height : sizeofSizeT.toNat = 8 := rfl
          rw [UInt64.lt_iff_toNat_lt, UInt64.toNat_add, height, Nat.mod_eq_of_lt hfit] at hfree
          exact hfree hroom
        · rintro (hno | ⟨hyes, -⟩)
          · exact hno ⟨hw, hadm⟩
          · exact hwrap hyes
  · refine iff_of_true ⟨?_, fun hw hadm => absurd ⟨hw, hadm⟩ hpast⟩ (.inl hpast)
    rintro ⟨seg, cv, hrun, hnext⟩
    rcases msgQueueWrite_cases hrun with ⟨e, rfl, -⟩ | ⟨hw, hadm, -⟩
    · cases hnext
    · exact hpast ⟨hw, hadm⟩

/-- A call through a non-blocking handle answers at once exactly when it is a read, or a write
that an earlier check refuses or that only its wrapped length lets through. -/
theorem answers_at_once_iff {s₀ : Queue T} (h₀ : IsCreated s₀) {ls : List (Label T)}
    (run : Run Step s₀ ls s) (hmq : s.mq = some mq)
    (hn : hasAny (s.flags h) msgQueueNonblock = true) {c : Call} (hp : c.WellPassed) :
    AnswersAtOnce mq (s.flags h) c ↔ Spared mq (s.flags h) c := by
  obtain ⟨q, hq⟩ := (run_intact h₀ run).ring mq hmq
  cases c with
  | read length m₀ => exact iff_of_true (read_answersAtOnce hn) trivial
  | write buffer length => exact write_answersAtOnce_iff hq hn hp

omit [Build] in
/-- A non-blocking read of a new queue fails with `EAGAIN`. -/
theorem answers_at_once_iff_read :
    letI : Build := ⟨false⟩
    AnswersAtOnce vacant11 7 (.read 1 0) := by
  let _ : Build := ⟨false⟩
  have h₀ : IsCreated (created (T := Unit) vacant11 7) :=
    ⟨_, _, _, _, _, vacant11_created 7 (.inr rfl), rfl⟩
  exact (answers_at_once_iff h₀ .nil (h := 0) rfl (by decide)
    (show (Call.read 1 0).WellPassed from trivial)).mpr trivial

omit [Build] in
/-- A non-blocking write of one byte into a new queue fails although there is room. -/
theorem sent_message_fails_again :
    letI : Build := ⟨false⟩
    ∃ s : Queue Unit, IsCreated s ∧ s.mq = some vacant11 ∧
      hasAny (s.flags 0) msgQueueNonblock = true ∧ (Call.write [5] 1).WellPassed ∧
      ¬ AnswersAtOnce vacant11 (s.flags 0) (.write [5] 1) := by
  let _ : Build := ⟨false⟩
  refine ⟨created vacant11 7, ⟨_, _, _, _, _, vacant11_created 7 (.inr rfl), rfl⟩, rfl,
    by decide, rfl, fun hanswers => ?_⟩
  have hadm : Admitted vacant11 1 := by
    refine ⟨by decide, rfl, ?_⟩
    decide
  have hagain : FailsAgain (msgQueueWrite vacant11 7 [5] 1) := ⟨_, rfl, rfl⟩
  exact absurd ((hanswers.2 rfl hadm).1.mp hagain) (by decide)

end Queue
end UoftOs.MsgQueue
