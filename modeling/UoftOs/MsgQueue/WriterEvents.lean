import UoftOs.MsgQueue.Intact
import UoftOs.MsgQueue.WriterWakeups

/-!
# The event flags for writers

`MQPOLL_WRITABLE` and `MQPOLL_NOREADERS` start out clear although a new queue has
room. `Settles` lists the steps that make the two flags right, `Misleads` those that
make them wrong again; between them the flags of every run are determined.

## Implementation notes

A frame takes nine bytes at least, so a message that leaves the ring leaves room for
another. This needs a well-framed ring: the runs here have no length that wraps.
-/

namespace UoftOs.MsgQueue

open Lib Lib.Frames Lib.Transition

/-- The flags for writers say what is the case. -/
structure WriterFlags (mq : MqBackend Empty) : Prop where
  noReaders : hasAny mq.queueEvent mqpollNoreaders = mq.noReaders
  writable : hasAny mq.queueEvent mqpollWritable = true ↔ 9 ≤ Queue.room mq ∨ mq.noReaders = true

section Backend
variable [Build] {mq mq' : MqBackend Empty} {q : List UInt8} {ms : List (List UInt8)}

omit [Build] in
/-- The flags depend on two bits, the room and the readers only. -/
theorem writerFlags_congr (hr : hasAny mq'.queueEvent mqpollNoreaders = hasAny mq.queueEvent mqpollNoreaders)
    (hw : hasAny mq'.queueEvent mqpollWritable = hasAny mq.queueEvent mqpollWritable)
    (hgone : mq'.noReaders = mq.noReaders) (hroom : Queue.room mq' = Queue.room mq) :
    WriterFlags mq' ↔ WriterFlags mq := by
  constructor
  · rintro ⟨h₁, h₂⟩
    rw [hr, hgone] at h₁
    rw [hw, hgone, hroom] at h₂
    exact ⟨h₁, h₂⟩
  · rintro ⟨h₁, h₂⟩
    refine ⟨?_, ?_⟩
    · rw [hr, hgone]
      exact h₁
    · rw [hw, hgone, hroom]
      exact h₂

omit [Build] in
theorem writerFlags_noWriters (mq : MqBackend Empty) :
    WriterFlags { mq with queueEvent := mq.queueEvent ||| mqpollNowriters } ↔ WriterFlags mq := by
  refine writerFlags_congr ?_ ?_ rfl rfl
  · simp [hasAny_set, show hasAny mqpollNowriters mqpollNoreaders = false by decide]
  · simp [hasAny_set, show hasAny mqpollNowriters mqpollWritable = false by decide]

theorem room_eq (h : Rep mq.buffer q) : Queue.room mq = mq.buffer.size.toNat - q.length := by
  rw [Queue.room, ringBufferFree, h.freeInner_toNat]

/-- A message taken from the ring leaves room for a frame. -/
theorem readDrain_room (hf : Framed mq ms) (hcap : 9 ≤ mq.buffer.size.toNat) {n : UInt64}
    (hn : n ≠ 0) {seg : Segment Empty} (hrun : readDrain mq n = .ok seg) :
    9 ≤ Queue.room seg.mq ∧ hasAny seg.mq.queueEvent mqpollWritable = true ∧
      hasAny seg.mq.queueEvent mqpollNoreaders = hasAny mq.queueEvent mqpollNoreaders ∧
      seg.mq.noReaders = mq.noReaders := by
  obtain ⟨seg', ms', hrun', hd⟩ := readDrain_drained hf hn
  obtain rfl := Except.ok.inj (hrun.symm.trans hrun')
  obtain ⟨header, body, n', rb₁, rb₂, -, -, hmq⟩ := readDrain_cases hrun
  refine ⟨?_, ?_, ?_, by rw [hmq, readEvents_noReaders]⟩
  · cases hd with
    | @takes m rest _ hf' hsame =>
        have hm := hf.nonempty m (by simp)
        have hpos := List.length_pos_iff.mpr hm
        have hfits := hf.rep.fits
        rw [frames_cons, List.length_append, length_frame] at hfits
        rw [room_eq hf'.rep, hsame.size]
        omega
    | nothing hb hsame =>
        rw [Queue.room, hb, ringBufferFree, hf.rep.freeInner_toNat]
        exact hcap
  · rw [hmq, readEvents, hasAny_set, Bool.or_eq_true]
    exact Or.inr (by decide)
  · rw [hmq, readEvents, hasAny_set, show hasAny mqpollWritable mqpollNoreaders = false by decide,
      Bool.or_false]
    dsimp only
    split
    · rw [hasAny_clear_other _ (by decide)]
    · rfl

/-- The room that a frame leaves. -/
theorem writes_room (h : Rep mq.buffer q) {buffer : List UInt8} {length : UInt64} (hl : length ≠ 0)
    (hp : buffer.length = length.toNat) (hle : Queue.frameSize length ≤ Queue.room mq)
    {ok₁ ok₂ : Bool} {rb₁ rb₂ : RingBuffer}
    (h₁ : ringBufferWrite mq.buffer (sizeBytes length) sizeofSizeT = .ok (ok₁, rb₁))
    (h₂ : ringBufferWrite rb₁ buffer length = .ok (ok₂, rb₂)) :
    (ringBufferFree rb₂).toNat = Queue.room mq - Queue.frameSize length := by
  have height : sizeofSizeT.toNat = 8 := rfl
  have hheader : (sizeBytes length).length = 8 := length_leBytes _ _
  rw [room_eq h, Queue.frameSize] at hle
  obtain ⟨rb₁', hw₁, hr₁, hs₁⟩ := writesSuffix h (by decide : sizeofSizeT ≠ 0)
    (by rw [height, hheader]) (by rw [height]; omega)
  obtain ⟨-, rfl⟩ := Prod.mk.inj (Except.ok.inj (h₁.symm.trans hw₁))
  rw [List.take_of_length_le (Nat.le_of_eq (hheader.trans height.symm))] at hr₁
  have hused : (q ++ sizeBytes length).length = q.length + 8 := by
    rw [List.length_append, hheader]
  obtain ⟨rb₂', hw₂, hr₂, hs₂⟩ := writesSuffix hr₁ hl (Nat.le_of_eq hp.symm)
    (by rw [hs₁, hused]; omega)
  obtain ⟨-, rfl⟩ := Prod.mk.inj (Except.ok.inj (h₂.symm.trans hw₂))
  rw [List.take_of_length_le (Nat.le_of_eq hp)] at hr₂
  rw [ringBufferFree, hr₂.freeInner_toNat, hs₂, hs₁, List.length_append, hused, room_eq h, hp,
    Queue.frameSize]
  omega

omit [Build] in
/-- What a message that enters the ring does to the bits for writers. -/
theorem writeEvents_bits (mq : MqBackend Empty) :
    hasAny (writeEvents mq).queueEvent mqpollNoreaders = hasAny mq.queueEvent mqpollNoreaders ∧
    hasAny (writeEvents mq).queueEvent mqpollWritable =
      (hasAny mq.queueEvent mqpollWritable && !(Queue.room mq == 0 && !mq.noReaders)) := by
  have hread : hasAny mqpollReadable mqpollWritable = false := by decide
  have hread' : hasAny mqpollReadable mqpollNoreaders = false := by decide
  have hroom : (ringBufferFree mq.buffer == 0) = (Queue.room mq == 0) := by
    rw [Bool.eq_iff_iff, beq_iff_eq, beq_iff_eq, Queue.room, ← UInt64.toNat_inj]
    rfl
  unfold writeEvents
  rw [hroom]
  split
  · next he =>
      constructor
      · rw [hasAny_set, hread', Bool.or_false, hasAny_clear_other _ (by decide)]
      · rw [hasAny_set, hread, Bool.or_false, hasAny_clear_self, he, Bool.not_true, Bool.and_false]
  · next he =>
      rw [Bool.not_eq_true] at he
      constructor
      · rw [hasAny_set, hread', Bool.or_false]
      · rw [hasAny_set, hread, Bool.or_false, he, Bool.not_false, Bool.and_true]

end Backend

namespace Queue
variable {T : Type} [DecidableEq T] {s : Queue T} {ms : List (List UInt8)}

/-- The queue exists, and its flags for writers are right. -/
def TellsWriters (s : Queue T) : Prop :=
  ∃ mq, s.mq = some mq ∧ WriterFlags mq

/-- The step does not close the last handle. -/
def Survives (s : Queue T) : Label T → Prop
  | .close h => s.handles.erase h ≠ ∅
  | _ => True

/-- A read takes a message: it drains, or it finds one that fits its buffer. -/
def Takes (s : Queue T) (t : T) (h : HandleId) (mq : MqBackend Empty) (length : UInt64) : Prop :=
  (∃ c n, s.calls t = some ⟨h, c, .draining n⟩) ∨
    (hasAny (s.flags h) msgQueueReader = true ∧ ringBufferUsed mq.buffer ≠ 0 ∧ ReadFits mq length)

/-- A reader handle is opened after the last one was closed, or a write leaves readers
less than nine free bytes without clearing `MQPOLL_WRITABLE`. -/
def Misleads (s : Queue T) : Label T → Prop
  | .open _ _ flags => hasAny flags (~~~allFlags) = false ∧ hasAny flags msgQueueReader = true ∧
      ∃ mq, s.mq = some mq ∧ mq.noReaders = true
  | .segment t h (.write _ length) _ => ∃ mq, s.mq = some mq ∧ Goes s t h mq length ∧
      mq.noReaders = false ∧ room mq - frameSize length < 9 ∧
      (hasAny (s.flags h) msgQueueNonblock = true ∨ room mq ≠ frameSize length)
  | _ => False

/-- A close leaves no readers; or, while `MQPOLL_NOREADERS` is right, a read takes a
message, or a write leaves less than nine free bytes with `MQPOLL_WRITABLE` clear. -/
def Settles (s : Queue T) : Label T → Prop
  | .segment t h (.read length _) _ => ∃ mq, s.mq = some mq ∧
      hasAny mq.queueEvent mqpollNoreaders = mq.noReaders ∧ Takes s t h mq length
  | .segment t h (.write _ length) _ => ∃ mq, s.mq = some mq ∧ Goes s t h mq length ∧
      hasAny mq.queueEvent mqpollNoreaders = mq.noReaders ∧ mq.noReaders = false ∧
      hasAny mq.queueEvent mqpollWritable = false ∧ room mq - frameSize length < 9
  | .close h => ∃ mq, s.mq = some mq ∧ (mq.noReaders = true ∨
      hasAny (s.flags h) msgQueueReader = true ∧
        openWith (s.handles.erase h) s.flags msgQueueReader = ∅)
  | _ => False

/-- `MQPOLL_NOREADERS` is set while there are no readers. -/
def ReportsGone (s : Queue T) : Prop :=
  ∀ mq, s.mq = some mq → mq.noReaders = true → hasAny mq.queueEvent mqpollNoreaders = true

variable [Build] {mq : MqBackend Empty} {t : T} {h : HandleId} {c : Call} {seg : Segment Empty}

omit [DecidableEq T] in
/-- No segment touches `no_readers` or `MQPOLL_NOREADERS`. -/
theorem Touches.noReaders (ht : Touches s t h mq c seg) :
    seg.mq.noReaders = mq.noReaders ∧
      hasAny seg.mq.queueEvent mqpollNoreaders = hasAny mq.queueEvent mqpollNoreaders := by
  cases ht with
  | kept hmq => rw [hmq]; exact ⟨rfl, rfl⟩
  | ended hw hu hmq =>
      rw [hmq]
      refine ⟨rfl, ?_⟩
      rw [hasAny_set, show hasAny mqpollNowriters mqpollNoreaders = false by decide, Bool.or_false]
  | drains hread₁ hread₂ hmq =>
      rw [hmq, readEvents_noReaders]
      refine ⟨rfl, ?_⟩
      rw [readEvents, hasAny_set, show hasAny mqpollWritable mqpollNoreaders = false by decide,
        Bool.or_false]
      dsimp only
      split
      · rw [hasAny_clear_other _ (by decide)]
      · rfl
  | puts hgo hl hp hw hw₁ hw₂ hmq =>
      rw [hmq]
      split
      · exact ⟨rfl, rfl⟩
      · exact ⟨writeEvents_noReaders _, (writeEvents_bits _).1⟩

omit [DecidableEq T] in
/-- Reads that take nothing leave the flags as they are. -/
theorem readLoop_writerFlags (hf : Framed mq ms) (hcap : 9 ≤ mq.buffer.size.toNat) {flags : CInt}
    {length m₀ : UInt64} (hrun : readLoop mq flags length m₀ = .ok seg) :
    ((ringBufferUsed mq.buffer ≠ 0 ∧ ReadFits mq length) ∧
      (WriterFlags seg.mq ↔ hasAny mq.queueEvent mqpollNoreaders = mq.noReaders)) ∨
    (¬ (ringBufferUsed mq.buffer ≠ 0 ∧ ReadFits mq length) ∧
      (WriterFlags seg.mq ↔ WriterFlags mq)) := by
  cases ms with
  | nil =>
      have hu : ringBufferUsed mq.buffer = 0 := by simpa using hf.rep.used_eq_zero
      refine Or.inr ⟨fun hno => hno.1 hu, ?_⟩
      rcases readLoop_cases hrun with hmq | ⟨-, -, hmq⟩ | ⟨hno, -⟩
      · rw [hmq]
      · rw [hmq]
        exact writerFlags_noWriters mq
      · exact absurd hu hno
  | cons m rest =>
      have hu : ringBufferUsed mq.buffer ≠ 0 := by
        intro hzero
        have hempty := hf.rep.used_eq_zero
        rw [hzero, beq_self_eq_true, eq_comm, List.isEmpty_iff,
          frames_eq_nil_iff (by decide)] at hempty
        cases hempty
      obtain ⟨n, hn, hmessage⟩ := readLoop_message hf flags length m₀
      rw [hrun] at hmessage
      by_cases hlt : length < n
      · have hno : ¬ ReadFits mq length := by
          intro hfit
          have hle := hfit m rest hf.rep.held
          rw [UInt64.lt_iff_toNat_lt, hn] at hlt
          omega
        refine Or.inr ⟨fun hboth => hno hboth.2, ?_⟩
        rw [if_pos hlt] at hmessage
        obtain rfl := Except.ok.inj hmessage
        rfl
      · have hfit : ReadFits mq length := by
          rw [UInt64.not_lt, UInt64.le_iff_toNat_le, hn] at hlt
          exact readFits_cons hf hlt
        refine Or.inl ⟨⟨hu, hfit⟩, ?_⟩
        rw [if_neg hlt] at hmessage
        have hne : n ≠ 0 := by
          rintro rfl
          rw [UInt64.toNat_zero] at hn
          exact hf.nonempty m (by simp) (List.eq_nil_of_length_eq_zero hn.symm)
        cases hdrain : readDrain mq n with
        | error f =>
            rw [hdrain] at hmessage
            cases hmessage
        | ok seg' =>
            rw [hdrain] at hmessage
            obtain rfl := Except.ok.inj hmessage
            obtain ⟨hroom, hwritable, hnoreaders, hgone⟩ := readDrain_room hf hcap hne hdrain
            change WriterFlags seg'.mq ↔ _
            constructor
            · rintro ⟨hr, -⟩
              rwa [hnoreaders, hgone] at hr
            · intro hr
              exact ⟨by rw [hnoreaders, hgone, hr], iff_of_true hwritable (Or.inl hroom)⟩

/-- The flags after a segment of a read. -/
theorem read_writerFlags (hsound : Sound s ms) (hcap : 9 ≤ mq.buffer.size.toNat)
    (hmq : s.mq = some mq) {length m₀ : UInt64} {k : Cond → CondVar T}
    (hb : Begins s mq t h (.read length m₀) (.ok seg) k) :
    WriterFlags seg.mq ↔
      WriterFlags mq ∨ Settles s (.segment t h (.read length m₀) seg) := by
  have hf := hsound.framed mq hmq
  have settles_iff : Settles s (.segment t h (.read length m₀) seg) ↔
      hasAny mq.queueEvent mqpollNoreaders = mq.noReaders ∧ Takes s t h mq length := by
    constructor
    · rintro ⟨mq', hmq', hboth⟩
      obtain rfl := Option.some.inj (hmq.symm.trans hmq')
      exact hboth
    · exact fun hboth => ⟨mq, hmq, hboth⟩
  rw [settles_iff]
  have takes (htakes : Takes s t h mq length)
      (hflags : WriterFlags seg.mq ↔ hasAny mq.queueEvent mqpollNoreaders = mq.noReaders) :
      WriterFlags seg.mq ↔
        WriterFlags mq ∨ hasAny mq.queueEvent mqpollNoreaders = mq.noReaders ∧
          Takes s t h mq length := by
    rw [hflags]
    exact ⟨fun hr => Or.inr ⟨hr, htakes⟩, fun hor => hor.elim (fun hw => hw.noReaders) And.left⟩
  have skips (hno : ¬ Takes s t h mq length) (hflags : WriterFlags seg.mq ↔ WriterFlags mq) :
      WriterFlags seg.mq ↔
        WriterFlags mq ∨ hasAny mq.queueEvent mqpollNoreaders = mq.noReaders ∧
          Takes s t h mq length := by
    rw [hflags]
    exact ⟨Or.inl, fun hor => hor.elim id fun hboth => absurd hboth.2 hno⟩
  have loops (hreader : hasAny (s.flags h) msgQueueReader = true)
      (hdrain : ∀ c n, s.calls t ≠ some ⟨h, c, .draining n⟩)
      (hrun : readLoop mq (s.flags h) length m₀ = .ok seg) :
      WriterFlags seg.mq ↔
        WriterFlags mq ∨ hasAny mq.queueEvent mqpollNoreaders = mq.noReaders ∧
          Takes s t h mq length := by
    rcases readLoop_writerFlags hf hcap hrun with ⟨htakes, hflags⟩ | ⟨hno, hflags⟩
    · exact takes (Or.inr ⟨hreader, htakes⟩) hflags
    · refine skips ?_ hflags
      rintro (⟨c, n, hc⟩ | ⟨-, htakes⟩)
      · exact hdrain c n hc
      · exact hno htakes
  generalize hrun : (Except.ok seg : Except Fault (Segment Empty)) = r at hb
  cases hb with
  | first hc hh hp =>
      have hdrain : ∀ c n, s.calls t ≠ some ⟨h, c, .draining n⟩ := by
        intro c n hdrain
        rw [hc] at hdrain
        cases hdrain
      rcases msgQueueRead_cases hrun.symm with ⟨hno, rfl⟩ | ⟨hw, hu, rfl⟩ | ⟨hreader, hloop⟩
      · refine skips ?_ Iff.rfl
        rintro (⟨c, n, hc⟩ | ⟨hreader, -⟩)
        · exact hdrain c n hc
        · rw [hno] at hreader
          cases hreader
      · refine skips ?_ (writerFlags_noWriters mq)
        rintro (⟨c, n, hc⟩ | ⟨-, hno, -⟩)
        · exact hdrain c n hc
        · exact hno hu
      · exact loops hreader hdrain hloop
  | resume hc =>
      refine loops (hsound.monitored.started t _ hc) (fun c n hdrain => ?_) hrun.symm
      rw [hc] at hdrain
      cases hdrain
  | @drain n hc =>
      obtain ⟨hroom, hwritable, hnoreaders, hgone⟩ :=
        readDrain_room hf hcap (hsound.draining _ _ _ _ hc) hrun.symm
      refine takes (Or.inl ⟨_, _, hc⟩) ⟨?_, ?_⟩
      · rintro ⟨hr, -⟩
        rwa [hnoreaders, hgone] at hr
      · intro hr
        exact ⟨by rw [hnoreaders, hgone, hr], iff_of_true hwritable (Or.inl hroom)⟩

/-- The flags after a segment of a write. -/
theorem write_writerFlags (hi : Intact s) (hmq : s.mq = some mq) {buffer : List UInt8}
    {length : UInt64} (hfit : length.toNat + 8 < 2 ^ 64)
    (ht : Touches s t h mq (.write buffer length) seg) :
    WriterFlags seg.mq ↔
      WriterFlags mq ∧ ¬ Misleads s (.segment t h (.write buffer length) seg) ∨
        Settles s (.segment t h (.write buffer length) seg) := by
  obtain ⟨q, hq⟩ := hi.ring mq hmq
  cases ht with
  | kept hkept hno =>
      have hstays : ¬ Goes s t h mq length := hno buffer length rfl
      rw [hkept]
      constructor
      · refine fun hw => Or.inl ⟨hw, ?_⟩
        rintro ⟨mq', hmq', hgo, -⟩
        obtain rfl := Option.some.inj (hmq.symm.trans hmq')
        exact hstays hgo
      · rintro (⟨hw, -⟩ | ⟨mq', hmq', hgo, -⟩)
        · exact hw
        · obtain rfl := Option.some.inj (hmq.symm.trans hmq')
          exact absurd hgo hstays
  | @puts buffer length seg ok₁ ok₂ rb₁ rb₂ hgo hl hp hw hw₁ hw₂ hput =>
      have hle := frameSize_le_room hfit (UInt64.not_lt.mp hgo.2)
      have hroom := writes_room hq hl hp hle hw₁ hw₂
      have hpos := toNat_pos hl
      have hnine : 9 ≤ room mq := by
        rw [frameSize] at hle
        omega
      have misleads_iff : Misleads s (.segment t h (.write buffer length) seg) ↔
          mq.noReaders = false ∧ room mq - frameSize length < 9 ∧
            (hasAny (s.flags h) msgQueueNonblock = true ∨ room mq ≠ frameSize length) := by
        constructor
        · rintro ⟨mq', hmq', -, hrest⟩
          obtain rfl := Option.some.inj (hmq.symm.trans hmq')
          exact hrest
        · exact fun hrest => ⟨mq, hmq, hgo, hrest⟩
      have settles_iff : Settles s (.segment t h (.write buffer length) seg) ↔
          hasAny mq.queueEvent mqpollNoreaders = mq.noReaders ∧ mq.noReaders = false ∧
            hasAny mq.queueEvent mqpollWritable = false ∧ room mq - frameSize length < 9 := by
        constructor
        · rintro ⟨mq', hmq', -, hrest⟩
          obtain rfl := Option.some.inj (hmq.symm.trans hmq')
          exact hrest
        · exact fun hrest => ⟨mq, hmq, hgo, hrest⟩
      have hroom' : room seg.mq = room mq - frameSize length := by
        rw [hput, room]
        split
        · exact hroom
        · rw [writeEvents_buffer]
          exact hroom
      have hbits : hasAny seg.mq.queueEvent mqpollNoreaders = hasAny mq.queueEvent mqpollNoreaders ∧
          seg.mq.noReaders = mq.noReaders ∧
          hasAny seg.mq.queueEvent mqpollWritable = (hasAny mq.queueEvent mqpollWritable &&
            (hasAny (s.flags h) msgQueueNonblock ||
              !(room mq - frameSize length == 0 && !mq.noReaders))) := by
        rw [hput]
        cases hblock : hasAny (s.flags h) msgQueueNonblock with
        | true => simp
        | false =>
            obtain ⟨hr, hwrite⟩ := writeEvents_bits { mq with buffer := rb₂ }
            rw [if_neg (by decide), writeEvents_noReaders]
            refine ⟨hr, rfl, ?_⟩
            rw [hwrite, Bool.false_or, room, hroom]
      obtain ⟨hr, hgone, hwrite⟩ := hbits
      have hflags : ∀ mq' : MqBackend Empty, WriterFlags mq' ↔
          hasAny mq'.queueEvent mqpollNoreaders = mq'.noReaders ∧
          (hasAny mq'.queueEvent mqpollWritable = true ↔ 9 ≤ room mq' ∨ mq'.noReaders = true) :=
        fun _ => ⟨fun hw => ⟨hw.1, hw.2⟩, fun hw => ⟨hw.1, hw.2⟩⟩
      have hzero : room mq - frameSize length = 0 ↔ room mq = frameSize length := by omega
      rw [misleads_iff, settles_iff, hflags, hflags, hr, hgone, hwrite, hroom']
      generalize room mq - frameSize length = left at hzero ⊢
      cases hasAny mq.queueEvent mqpollNoreaders <;> cases mq.noReaders <;>
        cases hasAny mq.queueEvent mqpollWritable <;> cases hasAny (s.flags h) msgQueueNonblock <;>
        (simp [hnine, ← hzero]; try omega)

omit [DecidableEq T] [Build] in
/-- The flags after opening a handle. -/
theorem open_writerFlags (hg : ReportsGone s) (hmq : s.mq = some mq) {flags : CInt}
    (old new : HandleId) (hvalid : hasAny flags (~~~allFlags) = false) :
    WriterFlags (mqOpen mq flags) ↔ WriterFlags mq ∧ ¬ Misleads s (.open old new flags) := by
  have misleads_iff : Misleads s (.open old new flags) ↔
      hasAny flags msgQueueReader = true ∧ mq.noReaders = true := by
    constructor
    · rintro ⟨-, hr, mq', hmq', hgone⟩
      obtain rfl := Option.some.inj (hmq.symm.trans hmq')
      exact ⟨hr, hgone⟩
    · exact fun ⟨hr, hgone⟩ => ⟨hvalid, hr, mq, hmq, hgone⟩
  rw [misleads_iff]
  by_cases hends : hasAny flags msgQueueReader = true ∧ mq.noReaders = true
  · refine iff_of_false ?_ fun hboth => hboth.2 hends
    rintro ⟨hr, -⟩
    rw [mqOpen_queueEvent, mqOpen_noReaders, hg mq hmq hends.2, hends.1] at hr
    cases hr
  · have hsame : (mqOpen mq flags).noReaders = mq.noReaders := by
      rw [mqOpen_noReaders]
      cases hr : hasAny flags msgQueueReader <;> cases hgone : mq.noReaders <;> simp_all
    have hcongr : WriterFlags (mqOpen mq flags) ↔ WriterFlags mq :=
      writerFlags_congr (by rw [mqOpen_queueEvent]) (by rw [mqOpen_queueEvent]) hsame
        (by rw [room, mqOpen_buffer, room])
    rw [hcongr]
    exact ⟨fun hw => ⟨hw, hends⟩, And.left⟩

omit [DecidableEq T] in
/-- The flags after closing a handle other than the last. -/
theorem close_writerFlags (hmq : s.mq = some mq) (hc : Counted mq s.handles s.flags)
    (hh : h ∈ s.handles) {mq' : MqBackend Empty} {ns : List Notify}
    (hc' : Counted mq' (s.handles.erase h) s.flags) (hclosed : Closed mq (s.flags h) mq' ns)
    (hrun : msgQueueClose mq (s.flags h) = .ok (some mq', ns)) :
    WriterFlags mq' ↔ WriterFlags mq ∨ Settles s (.close h) := by
  have hevent := msgQueueClose_events hc hh hrun
  have hempty : ∀ n, (n = mqpollWritable ∨ n = mqpollNoreaders) → ∀ b : Bool,
      hasAny (if b then mqpollReadable ||| mqpollNowriters else 0) n = false := by
    rintro n (rfl | rfl) b <;> cases b <;> decide
  have hzero (n : CInt) : hasAny (if false = true then mqpollWritable ||| mqpollNoreaders else 0) n =
      false := by simp [hasAny]
  have settles_iff : Settles s (.close h) ↔ mq'.noReaders = true := by
    rw [hclosed.noReaders, Bool.or_eq_true, Bool.and_eq_true, beq_iff_eq, hc'.readers,
      Finset.card_eq_zero]
    constructor
    · rintro ⟨mq₁, hmq₁, hgone | hlast⟩
      · obtain rfl := Option.some.inj (hmq.symm.trans hmq₁)
        exact Or.inr hgone
      · exact Or.inl hlast
    · rintro (hlast | hgone)
      · exact ⟨mq, hmq, Or.inr hlast⟩
      · exact ⟨mq, hmq, Or.inl hgone⟩
  rw [settles_iff]
  cases hgone : mq'.noReaders with
  | true =>
      rw [hgone] at hevent
      refine iff_of_true ⟨?_, iff_of_true ?_ (Or.inr hgone)⟩ (Or.inr rfl)
      · rw [hevent, hasAny_set, hasAny_set, hgone, hempty _ (Or.inr rfl), Bool.or_false,
          Bool.or_eq_true]
        exact Or.inr (by decide)
      · rw [hevent, hasAny_set, hasAny_set, hempty _ (Or.inl rfl), Bool.or_false, Bool.or_eq_true]
        exact Or.inr (by decide)
  | false =>
      have hold : mq.noReaders = false := by
        have hnow := hclosed.noReaders
        rw [hgone] at hnow
        exact (Bool.or_eq_false_iff.mp hnow.symm).2
      rw [hgone] at hevent
      have hcongr : WriterFlags mq' ↔ WriterFlags mq := by
        refine writerFlags_congr ?_ ?_ (hgone.trans hold.symm) (by rw [room, hclosed.buffer, room])
        · rw [hevent, hasAny_set, hasAny_set, hempty _ (Or.inr rfl), hzero, Bool.or_false,
            Bool.or_false]
        · rw [hevent, hasAny_set, hasAny_set, hempty _ (Or.inl rfl), hzero, Bool.or_false,
            Bool.or_false]
      rw [hcongr]
      exact ⟨Or.inl, fun hor => hor.elim id fun hno => by cases hno⟩

/-- The step rule for the flags for writers. -/
theorem tellsWriters_step_iff (hsound : Sound s ms) (hi : Intact s) (hg : ReportsGone s)
    {l : Label T} {s' : Queue T} (hfit : LengthsFit s l) (hlive : Survives s l)
    (hstep : Step s l s') :
    TellsWriters s' ↔ TellsWriters s ∧ ¬ Misleads s l ∨ Settles s l := by
  have tells {s : Queue T} (mq : MqBackend Empty) (hmq : s.mq = some mq) :
      TellsWriters s ↔ WriterFlags mq := by
    constructor
    · rintro ⟨mq', hmq', hw⟩
      obtain rfl := Option.some.inj (hmq.symm.trans hmq')
      exact hw
    · exact fun hw => ⟨mq, hmq, hw⟩
  have idle {l : Label T} {p : Prop} (hm : ¬ Misleads s l) (hs : ¬ Settles s l) :
      p ↔ p ∧ ¬ Misleads s l ∨ Settles s l := by
    simp [hm, hs]
  cases hstep with
  | @segment mq t h c seg k k' ha hmq hb hn =>
      rw [tells mq hmq, tells seg.mq rfl]
      cases c with
      | read length m₀ =>
          rw [read_writerFlags hsound (hi.capacity mq hmq) hmq hb]
          simp [Misleads]
      | write buffer length =>
          exact write_writerFlags hi hmq hfit (hb.touches_write hi.monitored hi.readsDrain)
  | abort ha hmq hb => exact idle id id
  | @openRefused mq h new flags e ha hmq hh ho =>
      refine idle ?_ id
      rintro ⟨hvalid, -⟩
      rw [msgQueueOpen, hvalid, if_neg (by decide)] at ho
      cases ho
  | @«open» mq mq' h new flags ha hmq hh hnew ho =>
      have hvalid : hasAny flags (~~~allFlags) = false := by
        cases hf : hasAny flags (~~~allFlags) with
        | false => rfl
        | true =>
            rw [msgQueueOpen, hf, if_pos rfl] at ho
            cases ho
      obtain rfl : mqOpen mq flags = mq' := by
        rw [msgQueueOpen, hvalid, if_neg (by decide)] at ho
        exact Except.ok.inj ho
      rw [tells mq hmq, tells (mqOpen mq flags) rfl,
        open_writerFlags hg hmq h new hvalid]
      simp [Settles]
  | @close mq mq' h ns k' ha hmq hh hfree hc hn =>
      rcases msgQueueClose_counted (hi.counted mq hmq) hh with
        ⟨hlast, -⟩ | ⟨-, mq₁, ns₁, hrun, hcount, hclosed⟩
      · exact absurd hlast hlive
      · obtain ⟨rfl, rfl⟩ := Prod.mk.inj (Except.ok.inj (hc.symm.trans hrun))
        rw [tells mq hmq, tells mq₁ rfl,
          close_writerFlags hmq (hi.counted mq hmq) hh hcount hclosed hrun]
        simp [Misleads]
  | @closeAbort mq h f ha hmq hh hfree hc =>
      rcases msgQueueClose_counted (hi.counted mq hmq) hh with
        ⟨-, hrun⟩ | ⟨-, mq₁, ns₁, hrun, -⟩ <;> cases hc.symm.trans hrun

theorem ReportsGone.step (hg : ReportsGone s) (hi : Intact s) {l : Label T} {s' : Queue T}
    (hstep : Step s l s') : ReportsGone s' := by
  cases hstep with
  | @segment mq t h c seg k k' ha hmq hb hn =>
      rintro _ ⟨⟩ hgone
      obtain ⟨hsame, hbit⟩ := (hb.touches hi.monitored hi.readsDrain).noReaders
      rw [hbit]
      exact hg mq hmq (hsame ▸ hgone)
  | abort => exact hg
  | openRefused => exact hg
  | @«open» mq mq' h new flags ha hmq hh hnew ho =>
      rintro _ ⟨⟩ hgone
      obtain rfl : mqOpen mq flags = mq' := by
        unfold msgQueueOpen at ho
        split at ho
        · cases ho
        · exact Except.ok.inj ho
      rw [mqOpen_noReaders, Bool.and_eq_true] at hgone
      rw [mqOpen_queueEvent]
      exact hg mq hmq hgone.2
  | @close mq mq' h ns k' ha hmq hh hfree hc hn =>
      rintro mq₁ hmq₁ hgone
      obtain rfl : mq' = some mq₁ := hmq₁
      rw [msgQueueClose_events (hi.counted mq hmq) hh hc, hasAny_set, hasAny_set, hgone,
        Bool.or_eq_true, Bool.or_eq_true]
      exact Or.inl (Or.inr (by decide))
  | closeAbort => exact hg

/-- With `queue_event` 0 at creation, the flags for writers are right in a state of a
run exactly when some step has settled them and none has misled since. -/
theorem writer_flags_true_iff {s₀ : Queue T} (h₀ : IsCreated s₀)
    (hstale : ∀ mq, s₀.mq = some mq → mq.queueEvent = 0) {ls : List (Label T)}
    (run : Run (Guarded Step fun s l => LengthsFit s l ∧ Survives s l) s₀ ls s) :
    TellsWriters s ↔ ∃ bs t a u cs, ls = bs ++ a :: cs ∧
      Run (Guarded Step fun s l => LengthsFit s l ∧ Survives s l) s₀ bs t ∧ Settles t a ∧
      Guarded Step (fun s l => LengthsFit s l ∧ Survives s l) t a u ∧
      Run (Guarded (Guarded Step fun s l => LengthsFit s l ∧ Survives s l)
        fun s l => ¬ Misleads s l) u cs s := by
  refine run.since_iff ?_ ?_
  · obtain ⟨block, answer, capacity, flags, mq, hcreate, rfl⟩ := h₀
    obtain ⟨buffer, stale, hrep, hsize, hnine, rfl⟩ := msgQueueCreate_ok hcreate
    rintro ⟨_, ⟨⟩, -, hwritable⟩
    have hzero := hstale _ rfl
    have hroom : 9 ≤ room (mqOpen ⟨buffer, 0, 0, 0, false, false, stale, []⟩ flags) := by
      rw [room, mqOpen_buffer, ringBufferFree, hrep.freeInner_toNat, hsize]
      exact hnine
    have hset := hwritable.mpr (Or.inl hroom)
    rw [hzero] at hset
    simp [hasAny] at hset
  · rintro as s a t hrun ⟨hstep, hfit, hlive⟩
    have hinv : (∃ ms, Sound s ms) ∧ Intact s ∧ ReportsGone s := by
      refine Run.state_invariant (I := fun s => (∃ ms, Sound s ms) ∧ Intact s ∧ ReportsGone s)
        ⟨⟨[], created_sound h₀⟩, created_intact h₀, ?_⟩ ?_ hrun
      · obtain ⟨block, answer, capacity, flags, mq, hcreate, rfl⟩ := h₀
        obtain ⟨buffer, stale, -, -, -, rfl⟩ := msgQueueCreate_ok hcreate
        rintro _ ⟨⟩ hgone
        rw [mqOpen_noReaders, Bool.and_false] at hgone
        cases hgone
      · rintro s l s' ⟨⟨ms, hsound⟩, hi, hg⟩ ⟨hstep, hfit, -⟩
        obtain ⟨ms', hsound', -⟩ := hsound.step hfit hstep
        exact ⟨⟨ms', hsound'⟩, hi.step hstep, hg.step hi hstep⟩
    obtain ⟨⟨ms, hsound⟩, hi, hg⟩ := hinv
    exact tellsWriters_step_iff hsound hi hg hfit hlive hstep

section Traces

/-- The backend of the traces: eleven bytes, one handle. -/
private def ready11 (buffer : List UInt8) (head tail : UInt64) (event : CInt) : MqBackend Empty :=
  ⟨⟨buffer, 11, head, tail, false⟩, 1, 1, 1, false, false, event, []⟩

private def blank11 : List UInt8 := List.replicate 11 0xDD

private def newest11 : Queue Unit := created (ready11 blank11 0 0 0) 3

omit [Build] in
private theorem newest11_created :
    letI : Build := ⟨false⟩
    IsCreated newest11 ∧ ∀ mq, newest11.mq = some mq → mq.queueEvent = 0 := by
  let _ : Build := ⟨false⟩
  refine ⟨⟨some 0, some fun _ => 0, 11, 3, _, by decide, rfl⟩, ?_⟩
  rintro _ ⟨⟩
  rfl

omit [Build] in
/-- A message is written and read. -/
theorem writer_flags_true_iff_read :
    letI : Build := ⟨false⟩
    ∃ s : Queue Unit, (∃ mq, s.mq = some mq ∧ mq.queueEvent = mqpollWritable) ∧
      TellsWriters s := by
  let _ : Build := ⟨false⟩
  let put : Segment Empty :=
    ⟨ready11 (leBytes 8 1 ++ [5, 0xDD, 0xDD]) 0 9 1, [.signal .spaceEmpty], [], [true, true],
      .ret 0 none⟩
  let s₁ := newest11.finish () 0 (.write [5] 1) put
    (Function.update newest11.conds .spaceEmpty CondVar.empty)
  have step₁ : Step newest11 (.segment () 0 (.write [5] 1) put) s₁ :=
    Step.first rfl rfl rfl (by decide) rfl (by decide) (.signal (.none rfl) (.nil _))
  let got : Segment Empty :=
    ⟨ready11 blank11 9 9 2, [.signal .spaceFull], [5], [true, true, true], .ret 1 none⟩
  let s₂ := s₁.finish () 0 (.read 1 0) got (Function.update s₁.conds .spaceFull CondVar.empty)
  have step₂ : Step s₁ (.segment () 0 (.read 1 0) got) s₂ :=
    Step.first rfl rfl rfl (by decide) trivial (by decide) (.signal (.none rfl) (.nil _))
  have hone : (1 : UInt64).toNat + 8 < 2 ^ 64 := by decide
  have hsettles : Settles s₁ (.segment () 0 (.read 1 0) got) :=
    ⟨_, rfl, by decide, Or.inr ⟨by decide, by decide, readFits_of_held_le (by decide)⟩⟩
  have start : Run (Guarded Step fun s l => LengthsFit s l ∧ Survives s l) newest11 [] newest11 :=
    .nil
  have guarded₁ : Guarded Step (fun s l => LengthsFit s l ∧ Survives s l) newest11
      (.segment () 0 (.write [5] 1) put) s₁ := ⟨step₁, hone, trivial⟩
  have run₁ := start.snoc guarded₁
  have guarded₂ : Guarded Step (fun s l => LengthsFit s l ∧ Survives s l) s₁
      (.segment () 0 (.read 1 0) got) s₂ := ⟨step₂, trivial, trivial⟩
  exact ⟨s₂, ⟨_, rfl, rfl⟩,
    (writer_flags_true_iff newest11_created.1 newest11_created.2 (run₁.snoc guarded₂)).mpr
      ⟨_, s₁, _, s₂, [], rfl, run₁, hsettles, guarded₂, .nil⟩⟩

omit [Build] in
/-- A new queue has eleven free bytes and `MQPOLL_WRITABLE` clear. -/
theorem new_queue_not_writable :
    letI : Build := ⟨false⟩
    ∃ s : Queue Unit, IsCreated s ∧ (∀ mq, s.mq = some mq → mq.queueEvent = 0) ∧
      (∀ t, s.calls t = none) ∧ ¬ TellsWriters s := by
  let _ : Build := ⟨false⟩
  refine ⟨newest11, newest11_created.1, newest11_created.2, fun _ => rfl, ?_⟩
  rintro ⟨_, ⟨⟩, -, hwritable⟩
  have hset := hwritable.mpr (Or.inl (by decide))
  revert hset
  decide

end Traces

end Queue

end UoftOs.MsgQueue
