import UoftOs.MsgQueue.RingBufferSpec
import UoftOs.MsgQueue.Segments

/-!
# Segments on a well-framed ring

`Framed mq ms` says that the ring holds the frames of the messages `ms`. The
possible effects of a read or write segment on such a backend are listed once,
in `Effect`; runs are then reasoned about by cases on it.
-/

namespace UoftOs.MsgQueue

open Lib.Cyclic Lib.Frames

/-- The bytes the ring holds, oldest first. -/
def RingBuffer.held (rb : RingBuffer) : List UInt8 :=
  window rb.buffer rb.head.toNat (ringBufferUsed rb).toNat

variable {N : Type}

/-- Reads and writes leave the handle counts alone. -/
structure SameHandles (mq mq' : MqBackend N) : Prop where
  refs : mq'.refs = mq.refs
  readers : mq'.readers = mq.readers
  writers : mq'.writers = mq.writers
  noReaders : mq'.noReaders = mq.noReaders
  noWriters : mq'.noWriters = mq.noWriters
  size : mq'.buffer.size = mq.buffer.size

theorem SameHandles.rfl {mq : MqBackend N} : SameHandles mq mq :=
  ⟨Eq.refl _, Eq.refl _, Eq.refl _, Eq.refl _, Eq.refl _, Eq.refl _⟩

@[simp] theorem readEvents_buffer (mq : MqBackend N) : (readEvents mq).buffer = mq.buffer := by
  unfold readEvents
  split <;> rfl

@[simp] theorem writeEvents_buffer (mq : MqBackend N) : (writeEvents mq).buffer = mq.buffer := by
  unfold writeEvents
  split <;> rfl

/-- Every message is shorter than the ring. -/
theorem length_le_of_mem_frames {ms : List (List UInt8)} {m : List UInt8} (hm : m ∈ ms) :
    m.length + 8 ≤ (frames 8 ms).length := by
  induction ms with
  | nil => cases hm
  | cons n ms ih =>
      rw [frames_cons, List.length_append, length_frame]
      rcases List.mem_cons.mp hm with rfl | hmem
      · omega
      · have := ih hmem
        omega

variable [Build]

theorem Rep.held {rb : RingBuffer} {q : List UInt8} (h : Rep rb q) : rb.held = q := by
  rw [RingBuffer.held, ringBufferUsed, h.usedInner_toNat, h.content]

theorem Rep.length_lt {rb : RingBuffer} {q : List UInt8} (h : Rep rb q) :
    q.length < 2 ^ 63 := by
  have hf := h.fits
  have hs := h.size_le
  unfold ptrdiffMax at hs
  omega

theorem Rep.used_eq_zero {rb : RingBuffer} {q : List UInt8} (h : Rep rb q) :
    (ringBufferUsed rb == 0) = q.isEmpty := by
  have hu := h.usedInner_toNat
  rw [Bool.eq_iff_iff, beq_iff_eq, List.isEmpty_iff, ← List.length_eq_zero_iff, ← hu,
    ringBufferUsed, ← UInt64.toNat_inj]
  rfl

/-- The ring holds exactly the frames of the messages `ms`, none of them empty. -/
structure Framed (mq : MqBackend N) (ms : List (List UInt8)) : Prop where
  rep : Rep mq.buffer (frames 8 ms)
  nonempty : ∀ m ∈ ms, m ≠ []

/-- `buffer` holds the message at the head of the ring, if there is one. -/
def ReadFits (mq : MqBackend N) (length : UInt64) : Prop :=
  ∀ m ms, mq.buffer.held = frames 8 (m :: ms) → m.length ≤ length.toNat

omit [Build] in
theorem readFits_of_held_le {N : Type} {mq : MqBackend N} {length : UInt64}
    (h : mq.buffer.held.length ≤ length.toNat + 8) : ReadFits mq length := by
  intro m ms hm
  have hle := length_le_of_mem_frames (List.mem_cons_self : m ∈ m :: ms)
  rw [← hm] at hle
  omega

/-- What a read or write can do from its wait loop on to a ring that holds the
messages `ms`, with the messages it holds afterwards. -/
inductive Effect (mq : MqBackend N) (ms : List (List UInt8)) (flags : CInt) :
    Call → Segment N → List (List UInt8) → Prop
  | readEmpty {length msgHead mq' value errno} (hm : ms = []) (hb : mq'.buffer = mq.buffer)
      (hs : SameHandles mq mq') (hv : value ≤ 0) :
      Effect mq ms flags (.read length msgHead) (.quiet mq' (.ret value errno)) ms
  | readSleeps {length msgHead} (hm : ms = []) (hw : mq.noWriters = false) :
      Effect mq ms flags (.read length msgHead) (.quiet mq (.wait .spaceEmpty)) ms
  | readTooSmall {length msgHead m rest n} (hm : ms = m :: rest)
      (hlt : length.toNat < m.length) (hn : n.toNat = m.length) :
      Effect mq ms flags (.read length msgHead)
        { Segment.quiet mq (.drain n) with ringOk := [true] } ms
  | readTakes {length msgHead seg m rest} (hm : ms = m :: rest) (hf : Framed seg.mq rest)
      (hs : SameHandles mq seg.mq) (stored : seg.stored = m)
      (notify : seg.notify = [.signal .spaceFull]) (ringOk : seg.ringOk = [true, true, true])
      (next : seg.next = .ret m.length none) :
      Effect mq ms flags (.read length msgHead) seg rest
  | writeSleeps {buffer length} (hfree : ringBufferFree mq.buffer < length + sizeofSizeT) :
      Effect mq ms flags (.write buffer length) (.quiet mq (.wait .spaceFull)) ms
  | writePuts {buffer length seg} (hfree : length + sizeofSizeT ≤ ringBufferFree mq.buffer)
      (hf : Framed seg.mq (ms ++ [buffer])) (hs : SameHandles mq seg.mq)
      (notify : seg.notify = [.signal .spaceEmpty]) (ringOk : seg.ringOk = [true, true])
      (next : seg.next = if hasAny flags msgQueueNonblock then .ret (-1) (some .EAGAIN)
        else .ret 0 none) :
      Effect mq ms flags (.write buffer length) seg (ms ++ [buffer])

/-- What a read or write can do in its first segment. -/
inductive FirstEffect (mq : MqBackend N) (ms : List (List UInt8)) (flags : CInt) (c : Call) :
    Segment N → List (List UInt8) → Prop
  | refused {mq' value errno} (hb : mq'.buffer = mq.buffer) (hs : SameHandles mq mq')
      (hv : value ≤ 0) (hzero : ∀ buffer length, c = .write buffer length → value ≠ 0) :
      FirstEffect mq ms flags c (.quiet mq' (.ret value errno)) ms
  | enters {seg ms'} (hst : c.Started flags) (he : Effect mq ms flags c seg ms') :
      FirstEffect mq ms flags c seg ms'

/-- What `msg_queue_create` makes of a capacity it accepts. -/
theorem msgQueueCreate_ok {block : Option CInt} {answer : Option (Nat → UInt8)}
    {capacity : UInt64} {flags : CInt} {mq : MqBackend N}
    (h : msgQueueCreate block answer capacity flags = .ok (.ok mq)) :
    ∃ buffer stale, Rep buffer [] ∧ buffer.size = capacity ∧ 9 ≤ capacity.toNat ∧
      mq = mqOpen ⟨buffer, 0, 0, 0, false, false, stale, []⟩ flags := by
  unfold msgQueueCreate at h
  split at h
  · cases h
  split at h
  · cases h
  next hcap =>
    cases block with
    | none => cases h
    | some stale =>
        obtain ⟨init, hinit, h⟩ := except_bind_ok h
        cases init with
        | none => cases h
        | some fresh =>
            obtain rfl := Except.ok.inj (Except.ok.inj h)
            obtain ⟨ring, hring, hinit⟩ := except_bind_ok hinit
            cases ring with
            | none => cases hinit
            | some rb =>
                obtain rfl := Option.some.inj (Except.ok.inj hinit)
                have hnine : 9 ≤ capacity.toNat := by
                  rw [UInt64.lt_iff_toNat_lt] at hcap
                  exact Nat.le_of_not_lt hcap
                have hpos : capacity ≠ 0 := by
                  rintro rfl
                  exact absurd hnine (by decide)
                obtain ⟨hrep, hsize⟩ := ringBufferInit_rep hpos hring
                exact ⟨rb, stale, hrep, hsize, hnine, rfl⟩

section Events
variable (mq : MqBackend N) (buffer : RingBuffer)

omit [Build] in
theorem readEvents_sameHandles (h : buffer.size = mq.buffer.size) :
    SameHandles mq (readEvents { mq with buffer }) := by
  unfold readEvents
  split <;> exact ⟨rfl, rfl, rfl, rfl, rfl, h⟩

omit [Build] in
theorem writeEvents_sameHandles (h : buffer.size = mq.buffer.size) :
    SameHandles mq (writeEvents { mq with buffer }) := by
  unfold writeEvents
  split <;> exact ⟨rfl, rfl, rfl, rfl, rfl, h⟩

end Events

section Specs
variable {mq : MqBackend N} {ms : List (List UInt8)} {flags : CInt}

theorem Framed.message_lt (h : Framed mq ms) {m : List UInt8} (hm : m ∈ ms) :
    m.length < 2 ^ 63 := by
  have hl := length_le_of_mem_frames hm
  have hq := h.rep.length_lt
  omega

theorem readFits_of_empty (hf : Framed mq []) (length : UInt64) : ReadFits mq length := by
  intro m rest hheld
  have hlen := congrArg List.length hheld
  rw [hf.rep.held, frames_cons, List.length_append, length_frame, frames_nil,
    List.length_nil] at hlen
  omega

omit [Build] in
/-- The first message is determined by the bytes of the ring. -/
theorem readFits_of_held {m : List UInt8} {rest : List (List UInt8)}
    (h : mq.buffer.held = frames 8 (m :: rest)) (hbound : mq.buffer.held.length < 256 ^ 8)
    {length : UInt64} (hle : m.length ≤ length.toNat) : ReadFits mq length := by
  intro m' rest' hheld
  have hlt {ms : List (List UInt8)} (hms : mq.buffer.held = frames 8 ms) :
      ∀ n ∈ ms, n.length < 256 ^ 8 := by
    intro n hn
    have hle := length_le_of_mem_frames hn
    rw [← hms] at hle
    omega
  have heq := frames_injective (by decide) (hlt h) (hlt hheld) (h.symm.trans hheld)
  obtain ⟨rfl, -⟩ := List.cons.inj heq
  exact hle

theorem readFits_cons {m : List UInt8} {rest : List (List UInt8)} (hf : Framed mq (m :: rest))
    {length : UInt64} (hle : m.length ≤ length.toNat) : ReadFits mq length := by
  refine readFits_of_held hf.rep.held ?_ hle
  have hbound := hf.rep.length_lt
  rw [hf.rep.held]
  omega

/-- The header in front of the ring is the length of the next message. -/
theorem Framed.sizeValue_header {m : List UInt8} {rest : List (List UInt8)}
    (h : Framed mq (m :: rest)) :
    (sizeValue ((frames 8 (m :: rest)).take 8)).toNat = m.length := by
  have hm := h.message_lt (m := m) (by simp)
  rw [sizeValue, header_frames_cons (by omega), UInt64.toNat_ofNat', Nat.mod_eq_of_lt (by omega)]

/-- Draining a well-framed ring delivers the oldest message. -/
theorem readDrain_takes {m : List UInt8} {rest : List (List UInt8)} (h : Framed mq (m :: rest))
    (msgHead : UInt64) :
    ∃ seg, readDrain mq msgHead = .ok seg ∧ Framed seg.mq rest ∧ SameHandles mq seg.mq ∧
      seg.stored = m ∧ seg.notify = [.signal .spaceFull] ∧ seg.ringOk = [true, true] ∧
      seg.next = .ret m.length none := by
  have hlt := h.message_lt (m := m) (by simp)
  have hhead := h.sizeValue_header
  have hwide : 8 ≤ (frames 8 (m :: rest)).length := width_le_length_frames_cons
  obtain ⟨rb₁, hread₁, hrep₁, hsize₁, -⟩ :=
    readsPrefix h.rep (by decide : sizeofSizeT ≠ 0) true hwide
  have hne : sizeValue ((frames 8 (m :: rest)).take 8) ≠ 0 := by
    intro he
    rw [he] at hhead
    have hm := h.nonempty m (by simp)
    rw [← List.length_pos_iff] at hm
    simp at hhead
    omega
  have hdrop : (frames 8 (m :: rest)).drop sizeofSizeT.toNat = m ++ frames 8 rest :=
    drop_header_frames_cons
  rw [if_pos rfl, hdrop] at hrep₁
  obtain ⟨rb₂, hread₂, hrep₂, hsize₂, -⟩ :=
    readsPrefix hrep₁ hne true (by rw [hhead]; simp)
  rw [hhead, List.take_left' rfl] at hread₂
  rw [if_pos rfl, hhead, List.drop_left' rfl] at hrep₂
  have hint : (sizeValue ((frames 8 (m :: rest)).take 8)).toBitVec.toInt = (m.length : Int) := by
    rw [BitVec.toInt_eq_toNat_of_lt (by rw [UInt64.toNat_toBitVec, hhead]; omega),
      UInt64.toNat_toBitVec, hhead]
  have hrun : readDrain mq msgHead = .ok {
      mq := readEvents { mq with buffer := rb₂ }, notify := [.signal .spaceFull],
      stored := m, ringOk := [true, true], next := .ret m.length none } := by
    have hread₁' : ringBufferReadCommon mq.buffer sizeofSizeT true =
        .ok (some ((frames 8 (m :: rest)).take 8), rb₁) := hread₁
    simp [readDrain, ringBufferRead, hread₁', hread₂, hint, bind, Except.bind, pure, Except.pure]
  refine ⟨_, hrun, ⟨by simpa using hrep₂, fun n hn => h.nonempty n (by simp [hn])⟩,
    readEvents_sameHandles mq rb₂ (hsize₂.trans hsize₁), rfl, rfl, rfl, rfl⟩

/-- A message at the head lets a read leave its wait loop and peek its header. -/
theorem readLoop_message {m : List UInt8} {rest : List (List UInt8)} (h : Framed mq (m :: rest))
    (flags : CInt) (length msgHead : UInt64) :
    ∃ n : UInt64, n.toNat = m.length ∧ readLoop mq flags length msgHead =
      if length < n then .ok { Segment.quiet mq (.drain n) with ringOk := [true] }
      else (readDrain mq n).map fun seg => { seg with ringOk := true :: seg.ringOk } := by
  have hwide : 8 ≤ (frames 8 (m :: rest)).length := width_le_length_frames_cons
  have hzero : (ringBufferUsed mq.buffer == 0) = false := by
    rw [h.rep.used_eq_zero, Bool.eq_false_iff, ne_eq, List.isEmpty_iff]
    intro he
    rw [he] at hwide
    simp at hwide
  obtain ⟨rb, hpeek, -, -, -⟩ := readsPrefix h.rep (by decide : sizeofSizeT ≠ 0) false hwide
  have hpeek' : ringBufferPeek mq.buffer sizeofSizeT =
      .ok (some ((frames 8 (m :: rest)).take 8), rb) := hpeek
  refine ⟨_, h.sizeValue_header, ?_⟩
  split
  · next hlt =>
      simp [readLoop, readAfterWait, hzero, hpeek', hlt, bind, Except.bind, pure, Except.pure]
  · next hlt =>
      simp only [readLoop, readAfterWait, hzero, hpeek', hlt, Bool.and_false, Bool.false_and,
        Bool.false_eq_true, if_false, bind, Except.bind, pure, Except.pure, Option.map_some,
        Option.getD_some, Option.isSome_some]
      rfl

/-- The effect of a read from the test of its wait loop on. -/
theorem readLoop_effect (h : Framed mq ms) (flags : CInt) (length msgHead : UInt64) :
    ∃ seg ms', readLoop mq flags length msgHead = .ok seg ∧
      Effect mq ms flags (.read length msgHead) seg ms' := by
  cases ms with
  | nil =>
      have hzero : (ringBufferUsed mq.buffer == 0) = true := by simpa using h.rep.used_eq_zero
      cases hw : mq.noWriters with
      | false =>
          by_cases hn : hasAny flags msgQueueNonblock = true
          · have hrun : readLoop mq flags length msgHead =
                .ok (.quiet mq (.ret (-1) (some .EAGAIN))) := by simp [readLoop, hw, hzero, hn]
            exact ⟨_, _, hrun, Effect.readEmpty rfl rfl SameHandles.rfl (by decide)⟩
          · have hrun : readLoop mq flags length msgHead = .ok (.quiet mq (.wait .spaceEmpty)) := by
              simp [readLoop, hw, hzero, hn]
            exact ⟨_, _, hrun, Effect.readSleeps rfl hw⟩
      | true =>
          have hrun : readLoop mq flags length msgHead =
              .ok (.quiet { mq with queueEvent := mq.queueEvent ||| mqpollNowriters }
                (.ret 0 none)) := by
            simp [readLoop, readAfterWait, hw, hzero, pure, Except.pure]
          exact ⟨_, _, hrun, Effect.readEmpty rfl rfl ⟨rfl, rfl, rfl, rfl, rfl, rfl⟩
            (by decide)⟩
  | cons m rest =>
      obtain ⟨n, hn, hrun⟩ := readLoop_message h flags length msgHead
      by_cases hlt : length < n
      · rw [if_pos hlt] at hrun
        rw [UInt64.lt_iff_toNat_lt, hn] at hlt
        exact ⟨_, _, hrun, Effect.readTooSmall rfl hlt hn⟩
      · obtain ⟨seg, hdrain, hf, hs, hst, hno, hok, hnext⟩ := readDrain_takes h n
        rw [if_neg hlt, hdrain] at hrun
        exact ⟨_, rest, hrun, Effect.readTakes rfl hf hs hst hno (by simp [hok]) hnext⟩

/-- The effect of the first segment of a read. -/
theorem msgQueueRead_effect (h : Framed mq ms) (length msgHead : UInt64) :
    ∃ seg ms', msgQueueRead mq flags length msgHead = .ok seg ∧
      FirstEffect mq ms flags (.read length msgHead) seg ms' := by
  by_cases hr : hasAny flags msgQueueReader = true
  · by_cases he : (mq.noWriters && ringBufferUsed mq.buffer == 0) = true
    · have hrun : msgQueueRead mq flags length msgHead =
          .ok (.quiet { mq with queueEvent := mq.queueEvent ||| mqpollNowriters }
            (.ret 0 none)) := by
        rw [msgQueueRead, hr, if_neg (by decide), if_pos he]
      exact ⟨_, _, hrun, .refused rfl ⟨rfl, rfl, rfl, rfl, rfl, rfl⟩ (by decide) (by simp)⟩
    · obtain ⟨seg, ms', hrun, heff⟩ := readLoop_effect h flags length msgHead
      refine ⟨seg, ms', ?_, .enters hr heff⟩
      rw [msgQueueRead, hr, if_neg (by decide), if_neg he, hrun]
  · have hrun : msgQueueRead mq flags length msgHead =
        .ok (.quiet mq (.ret (-1) (some .EBADF))) := by simp [msgQueueRead, hr]
    exact ⟨_, _, hrun, .refused rfl SameHandles.rfl (by decide) (by simp)⟩

/-- The effect of draining: a read whose buffer was too small takes whatever
message is at the head by then. -/
inductive Drained (mq : MqBackend N) : List (List UInt8) → Segment N → List (List UInt8) → Prop
  | takes {m rest seg} (hf : Framed seg.mq rest) (hs : SameHandles mq seg.mq)
      (stored : seg.stored = m) (notify : seg.notify = [.signal .spaceFull])
      (next : seg.next = .ret m.length none) : Drained mq (m :: rest) seg rest
  | nothing {seg value} (hb : seg.mq.buffer = mq.buffer) (hs : SameHandles mq seg.mq)
      (stored : seg.stored = []) (notify : seg.notify = [.signal .spaceFull])
      (next : seg.next = .ret value none) : Drained mq [] seg []

theorem readDrain_drained (h : Framed mq ms) {msgHead : UInt64} (hm : msgHead ≠ 0) :
    ∃ seg ms', readDrain mq msgHead = .ok seg ∧ Drained mq ms seg ms' := by
  cases ms with
  | nil =>
      have hheader : ringBufferRead mq.buffer sizeofSizeT = .ok (none, mq.buffer) :=
        ringBufferReadCommon_refuse h.rep (by decide) true (by simp [sizeofSizeT])
      have hbody : ringBufferRead mq.buffer msgHead = .ok (none, mq.buffer) :=
        ringBufferReadCommon_refuse h.rep hm true (by simpa using toNat_pos hm)
      have hrun : readDrain mq msgHead = .ok {
          mq := readEvents mq, notify := [.signal .spaceFull], stored := [],
          ringOk := [false, false], next := .ret msgHead.toBitVec.toInt none } := by
        simp [readDrain, hheader, hbody, bind, Except.bind, pure, Except.pure]
      exact ⟨_, _, hrun, .nothing (by simp) (readEvents_sameHandles mq mq.buffer rfl) rfl rfl rfl⟩
  | cons m rest =>
      obtain ⟨seg, hrun, hf, hs, hst, hno, -, hnext⟩ := readDrain_takes h msgHead
      exact ⟨seg, rest, hrun, .takes hf hs hst hno hnext⟩

/-- The effect of a write from the test of its wait loop on. -/
theorem writeLoop_effect (h : Framed mq ms) (flags : CInt) {buffer : List UInt8} {length : UInt64}
    (hl : length ≠ 0) (hbuf : buffer.length = length.toNat) (hadm : length.toNat + 8 < 2 ^ 64) :
    ∃ seg ms', writeLoop mq flags buffer length = .ok seg ∧
      Effect mq ms flags (.write buffer length) seg ms' := by
  have hsum : (length + sizeofSizeT).toNat = length.toNat + 8 := by
    rw [UInt64.toNat_add, show sizeofSizeT.toNat = 8 from rfl]
    omega
  by_cases hfree : ringBufferFree mq.buffer < length + sizeofSizeT
  · have hrun : writeLoop mq flags buffer length = .ok (.quiet mq (.wait .spaceFull)) := by
      simp [writeLoop, hfree, pure, Except.pure]
    exact ⟨_, _, hrun, Effect.writeSleeps hfree⟩
  · have hroom : length.toNat + 8 ≤ mq.buffer.size.toNat - (frames 8 ms).length := by
      rw [UInt64.lt_iff_toNat_lt, hsum, ringBufferFree, h.rep.freeInner_toNat] at hfree
      omega
    have hfits := h.rep.fits
    obtain ⟨rb₁, hw₁, hr₁, hs₁⟩ := writesSuffix h.rep
      (by decide : sizeofSizeT ≠ 0)
      (by simp [sizeBytes, sizeofSizeT] : sizeofSizeT.toNat ≤ (sizeBytes length).length)
      (by rw [show sizeofSizeT.toNat = 8 from rfl]; omega)
    have hhead : (sizeBytes length).take sizeofSizeT.toNat = leBytes 8 buffer.length := by
      rw [sizeBytes, hbuf, List.take_of_length_le (by simp [sizeofSizeT])]
    rw [hhead] at hr₁
    obtain ⟨rb₂, hw₂, hr₂, hs₂⟩ := writesSuffix hr₁ hl
      (by omega : length.toNat ≤ buffer.length)
      (by rw [hs₁]; simp; omega)
    have hframed : Rep rb₂ (frames 8 (ms ++ [buffer])) := by
      rw [frames_concat, frame, ← List.append_assoc]
      rwa [List.take_of_length_le (by omega)] at hr₂
    have hnonempty : ∀ n ∈ ms ++ [buffer], n ≠ [] := by
      intro n hn
      rcases List.mem_append.mp hn with hn | hn
      · exact h.nonempty n hn
      · rw [List.mem_singleton] at hn
        subst hn
        have := toNat_pos hl
        exact List.length_pos_iff.mp (by omega)
    have hle : length + sizeofSizeT ≤ ringBufferFree mq.buffer := by
      rw [UInt64.le_iff_toNat_le]
      rw [UInt64.lt_iff_toNat_lt] at hfree
      omega
    by_cases hn : hasAny flags msgQueueNonblock = true
    · have hrun : writeLoop mq flags buffer length = .ok (⟨{ mq with buffer := rb₂ },
          [.signal .spaceEmpty], [], [true, true], .ret (-1) (some .EAGAIN)⟩ : Segment N) := by
        simp [writeLoop, hfree, hw₁, hw₂, hn, bind, Except.bind, pure, Except.pure]
      exact ⟨_, _, hrun, Effect.writePuts hle ⟨hframed, hnonempty⟩
        ⟨rfl, rfl, rfl, rfl, rfl, hs₂.trans hs₁⟩ rfl rfl (by simp [hn])⟩
    · have hrun : writeLoop mq flags buffer length =
          .ok (⟨writeEvents { mq with buffer := rb₂ },
            [.signal .spaceEmpty], [], [true, true], .ret 0 none⟩ : Segment N) := by
        simp [writeLoop, hfree, hw₁, hw₂, hn, bind, Except.bind, pure, Except.pure]
      exact ⟨_, _, hrun, Effect.writePuts hle ⟨by simpa using hframed, hnonempty⟩
        (writeEvents_sameHandles mq rb₂ (hs₂.trans hs₁)) rfl rfl (by simp [hn])⟩

/-- The effect of the first segment of a write. -/
theorem msgQueueWrite_effect (h : Framed mq ms) {buffer : List UInt8} {length : UInt64}
    (hbuf : buffer.length = length.toNat) (hadm : length.toNat + 8 < 2 ^ 64) :
    ∃ seg ms', msgQueueWrite mq flags buffer length = .ok seg ∧
      FirstEffect mq ms flags (.write buffer length) seg ms' := by
  have refuse (e : Errno) (hrun : msgQueueWrite mq flags buffer length =
      .ok (.quiet mq (.ret (-1) (some e)))) :
      ∃ seg ms', msgQueueWrite mq flags buffer length = .ok seg ∧
        FirstEffect mq ms flags (.write buffer length) seg ms' :=
    ⟨_, ms, hrun, .refused rfl SameHandles.rfl (by decide) (by simp)⟩
  by_cases hw : hasAny flags msgQueueWriter = true
  · by_cases hl : length = 0
    · exact refuse .EINVAL (by simp [msgQueueWrite, hw, hl])
    · by_cases hr : mq.noReaders = true
      · exact refuse .EPIPE (by simp [msgQueueWrite, hw, hl, hr])
      · by_cases hs : mq.buffer.size ≤ length + sizeofSizeT
        · exact refuse .EMSGSIZE (by simp [msgQueueWrite, hw, hl, hr, hs])
        · obtain ⟨seg, ms', hrun, heff⟩ := writeLoop_effect h flags hl hbuf hadm
          exact ⟨seg, ms', by simpa [msgQueueWrite, hw, hl, hr, hs] using hrun,
            .enters ⟨hw, hl⟩ heff⟩
  · exact refuse .EBADF (by simp [msgQueueWrite, hw])

/-- A segment leaves a well-framed ring. -/
theorem Effect.framed {c : Call} {seg : Segment N} {ms' : List (List UInt8)}
    (h : Effect mq ms flags c seg ms') (hf : Framed mq ms) : Framed seg.mq ms' := by
  cases h with
  | readEmpty hm hb hs hv => exact ⟨hb ▸ hf.rep, hf.nonempty⟩
  | readSleeps hm hw => exact hf
  | readTooSmall hm hlt hn => exact hf
  | readTakes hm hf' => exact hf'
  | writeSleeps hfree => exact hf
  | writePuts hfree hf' => exact hf'

theorem Effect.sameHandles {c : Call} {seg : Segment N} {ms' : List (List UInt8)}
    (h : Effect mq ms flags c seg ms') : SameHandles mq seg.mq := by
  cases h with
  | readEmpty hm hb hs hv => exact hs
  | readSleeps hm hw => exact SameHandles.rfl
  | readTooSmall hm hlt hn => exact SameHandles.rfl
  | readTakes hm hf hs => exact hs
  | writeSleeps hfree => exact SameHandles.rfl
  | writePuts hfree hf hs => exact hs

/-- A call drains when the message at the head is longer than its buffer. -/
theorem Effect.drain {c : Call} {seg : Segment N} {ms' : List (List UInt8)} {msgHead : UInt64}
    (h : Effect mq ms flags c seg ms') (hn : seg.next = .drain msgHead) :
    ∃ length m₀ m rest, c = .read length m₀ ∧ ms = m :: rest ∧ length.toNat < m.length ∧
      msgHead.toNat = m.length := by
  cases h with
  | readEmpty => cases hn
  | readSleeps => cases hn
  | readTooSmall hm hlt hlen =>
      cases hn
      exact ⟨_, _, _, _, rfl, hm, hlt, hlen⟩
  | readTakes hm hf hs hst hno hok next =>
      rw [next] at hn
      cases hn
  | writeSleeps => cases hn
  | writePuts hfree hf hs hno hok next =>
      rw [next] at hn
      split at hn <;> cases hn

/-- No ring operation inside a segment fails. -/
theorem Effect.ring_ok {c : Call} {seg : Segment N} {ms' : List (List UInt8)}
    (h : Effect mq ms flags c seg ms') : ∀ ok ∈ seg.ringOk, ok = true := by
  cases h with
  | readEmpty => simp [Segment.quiet]
  | readSleeps => simp [Segment.quiet]
  | readTooSmall => simp
  | readTakes hm hf hs hst hno hok => simp [hok]
  | writeSleeps => simp [Segment.quiet]
  | writePuts hfree hf hs hno hok => simp [hok]

theorem Drained.framed {seg : Segment N} {ms' : List (List UInt8)}
    (h : Drained mq ms seg ms') (hf : Framed mq ms) : Framed seg.mq ms' := by
  cases h with
  | takes hf' => exact hf'
  | nothing hb => exact ⟨hb ▸ hf.rep, hf.nonempty⟩

theorem Drained.sameHandles {seg : Segment N} {ms' : List (List UInt8)}
    (h : Drained mq ms seg ms') : SameHandles mq seg.mq := by
  cases h with
  | takes hf hs => exact hs
  | nothing hb hs => exact hs

end Specs

end UoftOs.MsgQueue
