import UoftOs.MsgQueue.Intact

/-!
# The event flags for readers

`MQPOLL_READABLE` and `MQPOLL_NOWRITERS` are a summary that four functions keep up
to date. `Misreports` is the step that changes what they summarise without them: a
writer handle is opened after the last one was closed, or a non-blocking write puts
a message into an empty ring.
-/

namespace UoftOs.MsgQueue

open Lib Lib.Transition

variable {N : Type} {mq : MqBackend N}

/-- The next read on a blocking handle would not block. -/
def ReadReady (mq : MqBackend N) : Prop :=
  ringBufferUsed mq.buffer ≠ 0 ∨ mq.noWriters = true

/-- The flags for readers say what is the case. -/
structure ReaderFlags (mq : MqBackend N) : Prop where
  noWriters : hasAny mq.queueEvent mqpollNowriters = mq.noWriters
  readable : hasAny mq.queueEvent mqpollReadable = true ↔ ReadReady mq

theorem readAfterWait_next_ne_wait [Build] {length m₀ : UInt64} {seg : Segment N}
    (h : readAfterWait mq length m₀ = .ok seg) (cv : Cond) : seg.next ≠ .wait cv := by
  unfold readAfterWait at h
  split at h
  · obtain rfl := Except.ok.inj h
    simp [Segment.quiet]
  · obtain ⟨⟨header, rb⟩, -, h⟩ := except_bind_ok h
    dsimp only at h
    split at h
    · obtain rfl := Except.ok.inj h
      simp [Segment.quiet]
    · obtain ⟨seg', hrun, h⟩ := except_bind_ok h
      obtain rfl := Except.ok.inj h
      obtain ⟨⟨value, hv⟩, -⟩ := readDrain_next hrun
      simp [hv]

/-- `ReadReady` is the test of `msg_queue_read`. -/
theorem msgQueueRead_waits_iff [Build] {flags : CInt} {length m₀ : UInt64} {seg : Segment N}
    (hr : hasAny flags msgQueueReader = true) (hblock : hasAny flags msgQueueNonblock = false)
    (hrun : msgQueueRead mq flags length m₀ = .ok seg) :
    (∃ cv, seg.next = .wait cv) ↔ ¬ ReadReady mq := by
  unfold ReadReady
  by_cases hu : ringBufferUsed mq.buffer = 0
  · cases hw : mq.noWriters with
    | false =>
        simp only [msgQueueRead, readLoop, hr, hblock, hu, hw, beq_self_eq_true, Bool.not_true,
          Bool.not_false, Bool.false_and, Bool.true_and, Bool.false_eq_true, if_false, if_true,
          Except.ok.injEq] at hrun
        subst hrun
        simp [Segment.quiet, hu]
    | true =>
        simp only [msgQueueRead, hr, hu, hw, beq_self_eq_true, Bool.not_true, Bool.true_and,
          Bool.false_eq_true, if_false, if_true, Except.ok.injEq] at hrun
        subst hrun
        simp [Segment.quiet]
  · refine iff_of_false ?_ (fun hno => hno (Or.inl hu))
    rintro ⟨cv, hcv⟩
    have hused : (ringBufferUsed mq.buffer == 0) = false := by simpa using hu
    simp only [msgQueueRead, readLoop, hr, hused, Bool.not_true, Bool.and_false,
      Bool.false_eq_true, if_false] at hrun
    exact readAfterWait_next_ne_wait hrun cv hcv

/-- After a message has left the ring the flags are right if they were before. -/
theorem ReaderFlags.readEvents [Build] (h : ReaderFlags mq) {rb : RingBuffer}
    (hrb : ringBufferUsed rb ≠ 0 → ringBufferUsed mq.buffer ≠ 0) :
    ReaderFlags (readEvents { mq with buffer := rb }) := by
  have hbit : ∀ n, (n = mqpollReadable ∨ n = mqpollNowriters) → hasAny mqpollWritable n = false := by
    rintro n (rfl | rfl) <;> decide
  unfold MsgQueue.readEvents
  split
  · next he =>
      rw [Bool.and_eq_true, beq_iff_eq, Bool.not_eq_true'] at he
      constructor
      · rw [hasAny_set, hbit _ (Or.inr rfl), Bool.or_false, hasAny_clear_other _ (by decide)]
        exact h.noWriters
      · rw [hasAny_set, hbit _ (Or.inl rfl), Bool.or_false, hasAny_clear_self]
        refine iff_of_false (by decide) ?_
        rintro (hu | hw)
        · exact hu he.1
        · rw [he.2] at hw
          cases hw
  · next he =>
      constructor
      · rw [hasAny_set, hbit _ (Or.inr rfl), Bool.or_false]
        exact h.noWriters
      · rw [hasAny_set, hbit _ (Or.inl rfl), Bool.or_false, h.readable]
        constructor
        · rintro (hu | hw)
          · by_cases hempty : ringBufferUsed rb = 0
            · refine Or.inr ?_
              cases hw : mq.noWriters with
              | true => rfl
              | false => simp [hempty, hw] at he
            · exact Or.inl hempty
          · exact Or.inr hw
        · rintro (hu | hw)
          · exact Or.inl (hrb hu)
          · exact Or.inr hw

/-- A message that enters the ring makes the flags right if the one for writers is. -/
theorem readerFlags_writeEvents (h : hasAny mq.queueEvent mqpollNowriters = mq.noWriters)
    {rb : RingBuffer} (hrb : ringBufferUsed rb ≠ 0) :
    ReaderFlags (writeEvents { mq with buffer := rb }) := by
  unfold writeEvents
  split
  · constructor
    · rw [hasAny_set, hasAny_clear_other _ (by decide)]
      simpa [hasAny, mqpollReadable, mqpollNowriters] using h
    · rw [hasAny_set]
      exact iff_of_true (by rw [Bool.or_eq_true]; exact Or.inr (by decide)) (Or.inl hrb)
  · constructor
    · rw [hasAny_set]
      simpa [hasAny, mqpollReadable, mqpollNowriters] using h
    · rw [hasAny_set]
      exact iff_of_true (by rw [Bool.or_eq_true]; exact Or.inr (by decide)) (Or.inl hrb)

/-- Opening a handle keeps the flags right unless it ends the lack of writers. -/
theorem readerFlags_open (h : ReaderFlags mq) (flags : CInt) :
    ReaderFlags (mqOpen mq flags) ↔ ¬ (hasAny flags msgQueueWriter = true ∧ mq.noWriters = true) := by
  constructor
  · rintro h' ⟨hw, hgone⟩
    have hset := h'.noWriters
    rw [mqOpen_queueEvent, h.noWriters, hgone, mqOpen_noWriters, hw] at hset
    cases hset
  · intro hno
    have hsame : (mqOpen mq flags).noWriters = mq.noWriters := by
      rw [mqOpen_noWriters]
      cases hw : hasAny flags msgQueueWriter <;> cases hg : mq.noWriters <;> simp_all
    constructor
    · rw [mqOpen_queueEvent, hsame]
      exact h.noWriters
    · rw [mqOpen_queueEvent, ReadReady, mqOpen_buffer, hsame]
      exact h.readable

/-- Closing a handle keeps the flags right. -/
theorem readerFlags_close [Build] (h : ReaderFlags mq) {handles : Finset HandleId}
    {flags : HandleId → CInt} {hd : HandleId} {mq' : MqBackend N} {ns : List Notify}
    (hc : Counted mq handles flags) (hh : hd ∈ handles) (hclosed : Closed mq (flags hd) mq' ns)
    (hrun : msgQueueClose mq (flags hd) = .ok (some mq', ns)) : ReaderFlags mq' := by
  have hevent := msgQueueClose_events hc hh hrun
  have hfull : ∀ n, (n = mqpollReadable ∨ n = mqpollNowriters) → ∀ b : Bool,
      hasAny (if b then mqpollWritable ||| mqpollNoreaders else 0) n = false := by
    rintro n (rfl | rfl) b <;> cases b <;> decide
  have hnow := hclosed.noWriters
  cases hw : mq'.noWriters with
  | false =>
      rw [hw] at hnow hevent
      have hold : mq.noWriters = false := (Bool.or_eq_false_iff.mp hnow.symm).2
      constructor
      · rw [hevent, hasAny_set, hasAny_set, hfull _ (Or.inr rfl), h.noWriters, hold, hw]
        decide
      · rw [hevent, hasAny_set, hasAny_set, hfull _ (Or.inl rfl), ReadReady, hclosed.buffer, hw,
          Bool.or_false]
        have hzero : hasAny (if false = true then mqpollReadable ||| mqpollNowriters else 0)
            mqpollReadable = false := by decide
        rw [hzero, Bool.or_false, h.readable, ReadReady, hold]
  | true =>
      rw [hw] at hevent
      constructor
      · rw [hevent, hasAny_set, hw, Bool.or_eq_true]
        exact Or.inr (by decide)
      · rw [hevent, hasAny_set]
        exact iff_of_true (by rw [Bool.or_eq_true]; exact Or.inr (by decide)) (Or.inr hw)

section Rings
variable [Build] {rb rb₁ rb₂ : RingBuffer} {q : List UInt8}

theorem used_ne_zero_iff (h : Rep rb q) : ringBufferUsed rb ≠ 0 ↔ q ≠ [] := by
  have hu := h.used_eq_zero
  rw [ne_eq, ← beq_iff_eq, hu, List.isEmpty_iff]

/-- Reads do not fill an empty ring. -/
theorem used_of_reads (h : Rep rb q) {n m : UInt64} {out₁ out₂ : Option (List UInt8)}
    (h₁ : ringBufferRead rb n = .ok (out₁, rb₁)) (h₂ : ringBufferRead rb₁ m = .ok (out₂, rb₂))
    (hu : ringBufferUsed rb₂ ≠ 0) : ringBufferUsed rb ≠ 0 := by
  obtain ⟨q₁, hq₁, hle₁, -⟩ := ringBufferRead_keeps h h₁
  obtain ⟨q₂, hq₂, hle₂, -⟩ := ringBufferRead_keeps hq₁ h₂
  rw [used_ne_zero_iff h, ← List.length_pos_iff]
  rw [used_ne_zero_iff hq₂, ← List.length_pos_iff] at hu
  omega

/-- A write that goes through leaves at least its header in an empty ring. -/
theorem used_of_writes (h : Rep rb q) (hcap : 9 ≤ rb.size.toNat) {buffer : List UInt8}
    {length : UInt64} (hl : length ≠ 0) (hp : buffer.length = length.toNat) {ok₁ ok₂ : Bool}
    (h₁ : ringBufferWrite rb (sizeBytes length) sizeofSizeT = .ok (ok₁, rb₁))
    (h₂ : ringBufferWrite rb₁ buffer length = .ok (ok₂, rb₂)) : ringBufferUsed rb₂ ≠ 0 := by
  have hheader : sizeofSizeT.toNat ≤ (sizeBytes length).length := by simp [sizeBytes, sizeofSizeT]
  have hfirst : ∃ q₁, Rep rb₁ q₁ ∧ 0 < q₁.length := by
    by_cases hq : q = []
    · subst hq
      have hroom : sizeofSizeT.toNat ≤ rb.size.toNat - ([] : List UInt8).length :=
        Nat.le_trans (by decide) hcap
      obtain ⟨rb', hrun, hrep, -⟩ := writesSuffix h (by decide : sizeofSizeT ≠ 0) hheader hroom
      obtain ⟨-, rfl⟩ := Prod.mk.inj (Except.ok.inj (h₁.symm.trans hrun))
      exact ⟨_, hrep, by simp [sizeBytes, sizeofSizeT]⟩
    · obtain ⟨q₁, hq₁, hle, -⟩ := ringBufferWrite_keeps h (by decide) hheader h₁
      exact ⟨q₁, hq₁, Nat.lt_of_lt_of_le (List.length_pos_iff.mpr hq) hle⟩
  obtain ⟨q₁, hq₁, hpos⟩ := hfirst
  obtain ⟨q₂, hq₂, hle, -⟩ := ringBufferWrite_keeps hq₁ hl (Nat.le_of_eq hp.symm) h₂
  rw [used_ne_zero_iff hq₂, ← List.length_pos_iff]
  omega

end Rings

namespace Queue
variable {T : Type} [DecidableEq T] {s : Queue T}

/-- The flags for readers are right as long as the queue exists. -/
def TellsReaders (s : Queue T) : Prop :=
  ∀ mq, s.mq = some mq → ReaderFlags mq

/-- A writer handle is opened after the last one was closed, or a non-blocking write
goes through on an empty ring. -/
def Misreports (s : Queue T) : Label T → Prop
  | .open _ _ flags => hasAny flags (~~~allFlags) = false ∧ hasAny flags msgQueueWriter = true ∧
      ∃ mq, s.mq = some mq ∧ mq.noWriters = true
  | .segment t h (.write _ length) _ => hasAny (s.flags h) msgQueueNonblock = true ∧
      ∃ mq, s.mq = some mq ∧ ringBufferUsed mq.buffer = 0 ∧ Goes s t h mq length
  | _ => False

variable [Build] {mq : MqBackend Empty} {t : T} {h : HandleId} {c : Call} {seg : Segment Empty}

/-- The flags after a segment. -/
theorem Touches.readerFlags (ht : Touches s t h mq c seg) (hi : Intact s) (hmq : s.mq = some mq)
    (hh : h ∈ s.handles) (hs : ReaderFlags mq) :
    ReaderFlags seg.mq ↔ ¬ Misreports s (.segment t h c seg) := by
  obtain ⟨q, hq⟩ := hi.ring mq hmq
  cases ht with
  | kept hkept hno =>
      refine iff_of_true (by rwa [hkept]) ?_
      cases c with
      | read length m₀ => exact id
      | write buffer length =>
          rintro ⟨-, mq', hmq', -, hgo⟩
          obtain rfl := Option.some.inj (hmq.symm.trans hmq')
          exact hno buffer length rfl hgo
  | ended hw hu hended =>
      refine iff_of_true ?_ id
      rw [hended]
      constructor
      · rw [hasAny_set, hw, Bool.or_eq_true]
        exact Or.inr (by decide)
      · rw [hasAny_set]
        exact iff_of_true (by rw [hs.readable.mpr (Or.inr hw), Bool.true_or]) (Or.inr hw)
  | drains hread₁ hread₂ hdrained =>
      refine iff_of_true ?_ id
      rw [hdrained]
      exact hs.readEvents (used_of_reads hq hread₁ hread₂)
  | @puts buffer length seg ok₁ ok₂ rb₁ rb₂ hgo hl hp hw hw₁ hw₂ hput =>
      have hused := used_of_writes hq (hi.capacity mq hmq) hl hp hw₁ hw₂
      cases hblock : hasAny (s.flags h) msgQueueNonblock with
      | false =>
          rw [hblock, if_neg (by decide)] at hput
          refine iff_of_true ?_ ?_
          · rw [hput]
            exact readerFlags_writeEvents hs.noWriters hused
          · rintro ⟨hnon, -⟩
            rw [hblock] at hnon
            cases hnon
      | true =>
          rw [hblock, if_pos rfl] at hput
          have hwriters : mq.noWriters = false := by
            cases hgone : mq.noWriters with
            | false => rfl
            | true =>
                have hmem : h ∈ openWith s.handles s.flags msgQueueWriter :=
                  Finset.mem_filter.mpr ⟨hh, hw⟩
                rw [hi.noWriters mq hmq hgone] at hmem
                exact absurd hmem (Finset.notMem_empty h)
          have hready : ReadReady mq ↔ ringBufferUsed mq.buffer ≠ 0 := by
            simp [ReadReady, hwriters]
          constructor
          · rintro hflags ⟨-, mq', hmq', hempty, -⟩
            obtain rfl := Option.some.inj (hmq.symm.trans hmq')
            rw [hput] at hflags
            have hset : hasAny mq.queueEvent mqpollReadable = true :=
              hflags.readable.mpr (Or.inl hused)
            exact hready.mp (hs.readable.mp hset) hempty
          · intro hno
            have hnonempty : ringBufferUsed mq.buffer ≠ 0 :=
              fun hempty => hno ⟨hblock, mq, hmq, hempty, hgo⟩
            rw [hput]
            exact ⟨hs.noWriters, iff_of_true (hs.readable.mpr (Or.inl hnonempty)) (Or.inl hused)⟩

/-- The step rule: a step keeps the flags for readers right unless it misreports. -/
theorem TellsReaders.step_iff (hs : TellsReaders s) (hi : Intact s) {l : Label T} {s' : Queue T}
    (hstep : Step s l s') : TellsReaders s' ↔ ¬ Misreports s l := by
  cases hstep with
  | @segment mq t h c seg k k' ha hmq hb hn =>
      have hflags := (hb.touches hi.monitored hi.readsDrain).readerFlags hi hmq
        (hb.handle_mem hi.monitored) (hs mq hmq)
      rw [← hflags]
      constructor
      · intro hall
        exact hall _ rfl
      · rintro hseg _ ⟨⟩
        exact hseg
  | abort => exact iff_of_true hs id
  | openRefused ha hmq hh ho =>
      refine iff_of_true hs ?_
      rintro ⟨hvalid, -⟩
      rw [msgQueueOpen, hvalid, if_neg (by decide)] at ho
      cases ho
  | @«open» mq mq' h new flags ha hmq hh hnew ho =>
      have hvalid : hasAny flags (~~~allFlags) = false := by
        cases hf : hasAny flags (~~~allFlags) with
        | false => rfl
        | true =>
            rw [msgQueueOpen, hf, if_pos rfl] at ho
            cases ho
      obtain rfl : mqOpen mq flags = mq' := by
        rw [msgQueueOpen, hvalid, if_neg (by decide)] at ho
        exact Except.ok.inj ho
      have hflags := readerFlags_open (hs mq hmq) flags
      constructor
      · rintro hall ⟨-, hw, mq', hmq', hgone⟩
        obtain rfl := Option.some.inj (hmq.symm.trans hmq')
        exact hflags.mp (hall _ rfl) ⟨hw, hgone⟩
      · rintro hno _ ⟨⟩
        exact hflags.mpr fun hbad => hno ⟨hvalid, hbad.1, mq, hmq, hbad.2⟩
  | @close mq mq' h ns k' ha hmq hh hfree hc hn =>
      refine iff_of_true ?_ id
      rintro mq₁ hmq₁
      obtain rfl : mq' = some mq₁ := hmq₁
      rcases msgQueueClose_counted (hi.counted mq hmq) hh with
        ⟨-, hlast⟩ | ⟨-, mq₂, ns₂, hrun, -, hclosed⟩
      · cases hc.symm.trans hlast
      · obtain ⟨hsame, rfl⟩ := Prod.mk.inj (Except.ok.inj (hc.symm.trans hrun))
        obtain rfl := Option.some.inj hsame
        exact readerFlags_close (hs mq hmq) (hi.counted mq hmq) hh hclosed hrun
  | closeAbort => exact iff_of_true hs id

/-- With `queue_event` 0 at creation, the flags for readers are right in every state
of a run whose steps do not misreport, a blocking read waits exactly while
`MQPOLL_READABLE` is clear, and a step that misreports makes them wrong. -/
theorem reader_flags_true_iff {s₀ : Queue T} (h₀ : IsCreated s₀)
    (hstale : ∀ mq, s₀.mq = some mq → mq.queueEvent = 0) {ls : List (Label T)}
    (run : Run (Guarded Step fun s l => ¬ Misreports s l) s₀ ls s) :
    TellsReaders s ∧
    (∀ mq flags length m₀ seg, s.mq = some mq → hasAny flags msgQueueReader = true →
      hasAny flags msgQueueNonblock = false → msgQueueRead mq flags length m₀ = .ok seg →
      ((∃ cv, seg.next = .wait cv) ↔ hasAny mq.queueEvent mqpollReadable = false)) ∧
    ∀ l s', Step s l s' → (TellsReaders s' ↔ ¬ Misreports s l) := by
  have hi := run_intact h₀ run.unguard
  have hs : TellsReaders s := by
    have hboth : TellsReaders s ∧ Intact s := by
      refine Run.state_invariant (I := fun s => TellsReaders s ∧ Intact s)
        ⟨?_, created_intact h₀⟩ ?_ run
      · obtain ⟨block, answer, capacity, flags, mq, hcreate, rfl⟩ := h₀
        obtain ⟨buffer, stale, hrep, -, -, rfl⟩ := msgQueueCreate_ok hcreate
        rintro _ ⟨⟩
        have hzero := hstale _ rfl
        have hused : ringBufferUsed buffer = 0 := by simpa using hrep.used_eq_zero
        constructor
        · rw [hzero, mqOpen_noWriters, Bool.and_false]
          decide
        · rw [hzero, ReadReady, mqOpen_noWriters, mqOpen_buffer, hused]
          simp [hasAny]
      · rintro s l s' ⟨hs, hi⟩ ⟨hstep, hno⟩
        exact ⟨(hs.step_iff hi hstep).mpr hno, hi.step hstep⟩
    exact hboth.1
  refine ⟨hs, ?_, fun l s' hstep => hs.step_iff hi hstep⟩
  intro mq flags length m₀ seg hmq hr hblock hrun
  rw [msgQueueRead_waits_iff hr hblock hrun, ← (hs mq hmq).readable, Bool.not_eq_true]

section Traces

/-- The backend of the traces: eleven bytes. -/
private def flags11 (buffer : List UInt8) (tail : UInt64) (refs readers writers : Nat)
    (noWriters : Bool) (event : CInt) : MqBackend Empty :=
  ⟨⟨buffer, 11, 0, tail, false⟩, refs, readers, writers, false, noWriters, event, []⟩

private def unused11 : List UInt8 := List.replicate 11 0xDD

omit [Build] in
/-- A blocking write of one byte sets `MQPOLL_READABLE`. -/
theorem reader_flags_true_iff_write :
    letI : Build := ⟨false⟩
    ∃ s : Queue Unit, (∃ mq, s.mq = some mq ∧ mq.queueEvent = mqpollReadable) ∧
      TellsReaders s := by
  let _ : Build := ⟨false⟩
  let s₀ : Queue Unit := created (flags11 unused11 0 1 1 1 false 0) 3
  have h₀ : IsCreated s₀ := ⟨some 0, some fun _ => 0, 11, 3, _, by decide, rfl⟩
  let put : Segment Empty :=
    ⟨flags11 (Frames.leBytes 8 1 ++ [5, 0xDD, 0xDD]) 9 1 1 1 false 1, [.signal .spaceEmpty], [],
      [true, true], .ret 0 none⟩
  have step : Step s₀ (.segment () 0 (.write [5] 1) put)
      (s₀.finish () 0 (.write [5] 1) put (Function.update s₀.conds .spaceEmpty CondVar.empty)) :=
    Step.first rfl rfl rfl (by decide) rfl (by decide) (.signal (.none rfl) (.nil _))
  have hstale : ∀ mq, s₀.mq = some mq → mq.queueEvent = 0 := by
    rintro _ ⟨⟩
    rfl
  have start : Run (Guarded Step fun s l => ¬ Misreports s l) s₀ [] s₀ := .nil
  have hright : ¬ Misreports s₀ (.segment () 0 (.write [5] 1) put) := by
    rintro ⟨hnon, -⟩
    revert hnon
    decide
  exact ⟨_, ⟨_, rfl, rfl⟩, (reader_flags_true_iff h₀ hstale (start.snoc ⟨step, hright⟩)).1⟩

omit [Build] in
/-- The last writer handle is closed and a new one opened: `MQPOLL_NOWRITERS` stays set. -/
theorem reopened_writer_unreported :
    letI : Build := ⟨false⟩
    ∃ (s₀ s : Queue Unit) (ls : List (Label Unit)), IsCreated s₀ ∧
      (∀ mq, s₀.mq = some mq → mq.queueEvent = 0) ∧ Run Step s₀ ls s ∧
      (∀ t, s.calls t = none) ∧ ¬ TellsReaders s := by
  let _ : Build := ⟨false⟩
  let s₀ : Queue Unit := created (flags11 unused11 0 1 1 1 false 0) 3
  have h₀ : IsCreated s₀ := ⟨some 0, some fun _ => 0, 11, 3, _, by decide, rfl⟩
  let s₁ : Queue Unit := { s₀ with
    mq := some (flags11 unused11 0 2 2 1 false 0), handles := insert 1 s₀.handles,
    flags := Function.update s₀.flags 1 1 }
  have step₁ : Step s₀ (.open 0 1 1) s₁ := Step.open rfl rfl (by decide) (by decide) rfl
  let s₂ : Queue Unit := { s₁ with
    mq := some (flags11 unused11 0 1 1 0 true 9), handles := s₁.handles.erase 0,
    conds := Function.update s₁.conds .spaceEmpty (s₁.conds .spaceEmpty).broadcast }
  have step₂ : Step s₁ (.close 0) s₂ :=
    Step.close rfl rfl (by decide) (by simp [s₁, s₀, created]) (by decide)
      (.broadcast (.nil _))
  let s₃ : Queue Unit := { s₂ with
    mq := some (flags11 unused11 0 2 1 1 false 9), handles := insert 2 s₂.handles,
    flags := Function.update s₂.flags 2 2 }
  have step₃ : Step s₂ (.open 1 2 2) s₃ := Step.open rfl rfl (by decide) (by decide) rfl
  refine ⟨s₀, s₃, _, h₀, ?_, ((Run.nil.snoc step₁).snoc step₂).snoc step₃, fun _ => rfl, ?_⟩
  · rintro _ ⟨⟩
    rfl
  · intro hs
    have hset := (hs _ rfl).noWriters
    revert hset
    decide

end Traces

end Queue
end UoftOs.MsgQueue
