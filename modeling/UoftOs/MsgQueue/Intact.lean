import UoftOs.MsgQueue.Framing
import UoftOs.MsgQueue.MonitorInv

/-!
# What every run keeps of the backend

`Touches` lists what a segment can do to the backend, whatever bytes the ring
holds. From it, in every state of every run the ring is a ring, the counters count
the open handles and no writer is left once `no_writers` is set.
-/

namespace UoftOs.MsgQueue

open Lib Lib.Transition

section Segments
variable {N : Type} {mq : MqBackend N} {flags : CInt} {buffer : List UInt8} {length : UInt64}

/-- The checks of a write in front of its wait loop let it pass. -/
def Admitted (mq : MqBackend N) (length : UInt64) : Prop :=
  length ≠ 0 ∧ mq.noReaders = false ∧ ¬ mq.buffer.size ≤ length + sizeofSizeT

theorem SameHandles.counted {mq' : MqBackend N} (h : SameHandles mq mq')
    {handles : Finset HandleId} {fl : HandleId → CInt} (hc : Counted mq handles fl) :
    Counted mq' handles fl :=
  ⟨h.refs.trans hc.refs, h.readers.trans hc.readers, h.writers.trans hc.writers⟩

variable [Build] {seg : Segment N}

/-- The first segment of a write refuses, or it passes the checks and comes to the
wait loop. -/
theorem msgQueueWrite_cases (h : msgQueueWrite mq flags buffer length = .ok seg) :
    (∃ e, seg = .quiet mq (.ret (-1) (some e)) ∧
      ¬ (hasAny flags msgQueueWriter = true ∧ Admitted mq length)) ∨
    (hasAny flags msgQueueWriter = true ∧ Admitted mq length ∧
      writeLoop mq flags buffer length = .ok seg) := by
  unfold msgQueueWrite at h
  split at h
  · next hw => exact Or.inl ⟨_, (Except.ok.inj h).symm, fun hadm => by simp [hadm.1] at hw⟩
  · next hw =>
      split at h
      · next hl =>
          exact Or.inl ⟨_, (Except.ok.inj h).symm, fun hadm => hadm.2.1 (beq_iff_eq.mp hl)⟩
      · split at h
        · next hr =>
            refine Or.inl ⟨_, (Except.ok.inj h).symm, fun hadm => ?_⟩
            rw [hadm.2.2.1] at hr
            cases hr
        · split at h
          · next hs => exact Or.inl ⟨_, (Except.ok.inj h).symm, fun hadm => hadm.2.2.2 hs⟩
          · next hl hr hs =>
              exact Or.inr ⟨by simpa using hw, ⟨by simpa using hl, by simpa using hr, hs⟩, h⟩

/-- What a write from the test of its wait loop on does to the backend. -/
theorem writeLoop_cases (h : writeLoop mq flags buffer length = .ok seg) :
    (ringBufferFree mq.buffer < length + sizeofSizeT ∧ seg = .quiet mq (.wait .spaceFull)) ∨
    (¬ ringBufferFree mq.buffer < length + sizeofSizeT ∧ ∃ ok₁ ok₂ rb₁ rb₂,
      ringBufferWrite mq.buffer (sizeBytes length) sizeofSizeT = .ok (ok₁, rb₁) ∧
      ringBufferWrite rb₁ buffer length = .ok (ok₂, rb₂) ∧
      seg.mq = if hasAny flags msgQueueNonblock then { mq with buffer := rb₂ }
        else writeEvents { mq with buffer := rb₂ }) := by
  unfold writeLoop at h
  split at h
  · next hfree => exact Or.inl ⟨hfree, (Except.ok.inj h).symm⟩
  · next hfree =>
      obtain ⟨⟨ok₁, rb₁⟩, hw₁, h⟩ := except_bind_ok h
      obtain ⟨⟨ok₂, rb₂⟩, hw₂, h⟩ := except_bind_ok h
      refine Or.inr ⟨hfree, ok₁, ok₂, rb₁, rb₂, hw₁, hw₂, ?_⟩
      dsimp only at h
      split at h
      · next hf =>
          obtain rfl := Except.ok.inj h
          rw [if_pos hf]
      · next hf =>
          obtain rfl := Except.ok.inj h
          rw [if_neg hf]

omit [Build] in
@[simp] theorem writeEvents_noReaders (mq : MqBackend N) :
    (writeEvents mq).noReaders = mq.noReaders := by
  unfold writeEvents
  split <;> rfl

omit [Build] in
@[simp] theorem readEvents_noReaders (mq : MqBackend N) :
    (readEvents mq).noReaders = mq.noReaders := by
  unfold readEvents
  split <;> rfl

/-- A write sleeps for want of room, or it goes through and returns. -/
inductive WriteGoes (mq : MqBackend N) (flags : CInt) (length : UInt64) : Segment N → Prop
  | sleeps (hfree : ringBufferFree mq.buffer < length + sizeofSizeT) :
      WriteGoes mq flags length (.quiet mq (.wait .spaceFull))
  | puts {seg : Segment N} (hfree : ¬ ringBufferFree mq.buffer < length + sizeofSizeT)
      (hr : seg.mq.noReaders = mq.noReaders) (hno : seg.notify = [.signal .spaceEmpty])
      (hn : seg.next = if hasAny flags msgQueueNonblock then .ret (-1) (some .EAGAIN)
        else .ret 0 none) :
      WriteGoes mq flags length seg

theorem writeLoop_goes (h : writeLoop mq flags buffer length = .ok seg) :
    WriteGoes mq flags length seg := by
  unfold writeLoop at h
  split at h
  · next hfree =>
      obtain rfl := Except.ok.inj h
      exact .sleeps hfree
  · next hfree =>
      obtain ⟨⟨ok₁, rb₁⟩, -, h⟩ := except_bind_ok h
      obtain ⟨⟨ok₂, rb₂⟩, -, h⟩ := except_bind_ok h
      dsimp only at h
      split at h
      · next hf =>
          obtain rfl := Except.ok.inj h
          exact .puts hfree rfl rfl (by rw [if_pos hf])
      · next hf =>
          obtain rfl := Except.ok.inj h
          exact .puts hfree (writeEvents_noReaders _) rfl (by rw [if_neg hf])

/-- The first segment of a write refuses without readers, and goes on otherwise. -/
theorem msgQueueWrite_goes (h : msgQueueWrite mq flags buffer length = .ok seg) :
    (∃ e, seg = .quiet mq (.ret (-1) (some e))) ∨
      (mq.noReaders = false ∧ WriteGoes mq flags length seg) := by
  rcases msgQueueWrite_cases h with ⟨e, he, -⟩ | ⟨-, hadm, hloop⟩
  · exact Or.inl ⟨e, he⟩
  · exact Or.inr ⟨hadm.2.1, writeLoop_goes hloop⟩

omit [Build] in
theorem WriteGoes.noReaders (h : WriteGoes mq flags length seg) :
    seg.mq.noReaders = mq.noReaders := by
  cases h with
  | sleeps => rfl
  | puts _ hr => exact hr

/-- A read through a reader handle finds no message and no writer, or it comes to the
wait loop. -/
theorem msgQueueRead_cases {msgHead : UInt64}
    (h : msgQueueRead mq flags length msgHead = .ok seg) :
    (hasAny flags msgQueueReader = false ∧ seg = .quiet mq (.ret (-1) (some .EBADF))) ∨
    (mq.noWriters = true ∧ ringBufferUsed mq.buffer = 0 ∧
      seg = .quiet { mq with queueEvent := mq.queueEvent ||| mqpollNowriters } (.ret 0 none)) ∨
    (hasAny flags msgQueueReader = true ∧ readLoop mq flags length msgHead = .ok seg) := by
  unfold msgQueueRead at h
  split at h
  · next hr => exact Or.inl ⟨by simpa using hr, (Except.ok.inj h).symm⟩
  · next hr =>
      split at h
      · next he =>
          rw [Bool.and_eq_true, beq_iff_eq] at he
          exact Or.inr (Or.inl ⟨he.1, he.2, (Except.ok.inj h).symm⟩)
      · exact Or.inr (Or.inr ⟨by simpa using hr, h⟩)

/-- What a read from the test of its wait loop on does to the backend. -/
theorem readLoop_cases {msgHead : UInt64} (h : readLoop mq flags length msgHead = .ok seg) :
    seg.mq = mq ∨
    (mq.noWriters = true ∧ ringBufferUsed mq.buffer = 0 ∧
      seg.mq = { mq with queueEvent := mq.queueEvent ||| mqpollNowriters }) ∨
    (ringBufferUsed mq.buffer ≠ 0 ∧ ∃ n seg', readDrain mq n = .ok seg' ∧ seg.mq = seg'.mq) := by
  unfold readLoop at h
  split at h
  · split at h
    · obtain rfl := Except.ok.inj h
      exact Or.inl rfl
    · obtain rfl := Except.ok.inj h
      exact Or.inl rfl
  · next hloop =>
      unfold readAfterWait at h
      split at h
      · next he =>
          rw [Bool.and_eq_true, beq_iff_eq] at he
          obtain rfl := Except.ok.inj h
          exact Or.inr (Or.inl ⟨he.2, he.1, rfl⟩)
      · next he =>
          have hused : ringBufferUsed mq.buffer ≠ 0 := by
            intro hu
            cases hw : mq.noWriters <;> simp [hu, hw] at hloop he
          obtain ⟨⟨header, rb⟩, -, h⟩ := except_bind_ok h
          dsimp only at h
          split at h
          · obtain rfl := Except.ok.inj h
            exact Or.inl rfl
          · obtain ⟨seg', hrun, h⟩ := except_bind_ok h
            obtain rfl := Except.ok.inj h
            exact Or.inr (Or.inr ⟨hused, _, seg', hrun, rfl⟩)

theorem readDrain_cases {msgHead : UInt64} (h : readDrain mq msgHead = .ok seg) :
    ∃ header body n rb₁ rb₂, ringBufferRead mq.buffer sizeofSizeT = .ok (header, rb₁) ∧
      ringBufferRead rb₁ n = .ok (body, rb₂) ∧ seg.mq = readEvents { mq with buffer := rb₂ } := by
  unfold readDrain at h
  obtain ⟨⟨header, rb₁⟩, hread₁, h⟩ := except_bind_ok h
  obtain ⟨⟨body, rb₂⟩, hread₂, h⟩ := except_bind_ok h
  obtain rfl := Except.ok.inj h
  exact ⟨header, body, _, rb₁, rb₂, hread₁, hread₂, rfl⟩

end Segments

namespace Queue
variable {T : Type} [DecidableEq T] {s : Queue T}

/-- Only reads are between their size check and their return. -/
def ReadsDrain (s : Queue T) : Prop :=
  ∀ t h c msgHead, s.calls t = some ⟨h, c, .draining msgHead⟩ → ∃ length m₀, c = .read length m₀

/-- A write finds its checks met, if it is about to make them, and room enough by the
test of its wait loop. -/
def Goes (s : Queue T) (t : T) (h : HandleId) (mq : MqBackend Empty) (length : UInt64) : Prop :=
  (s.calls t = none → hasAny (s.flags h) msgQueueWriter = true ∧ Admitted mq length) ∧
    ¬ ringBufferFree mq.buffer < length + sizeofSizeT

/-- What a segment does to the backend. -/
inductive Touches [Build] (s : Queue T) (t : T) (h : HandleId) (mq : MqBackend Empty) :
    Call → Segment Empty → Prop
  | kept {c seg} (hmq : seg.mq = mq)
      (hno : ∀ buffer length, c = .write buffer length → ¬ Goes s t h mq length) :
      Touches s t h mq c seg
  | ended {length m₀ seg} (hw : mq.noWriters = true) (hu : ringBufferUsed mq.buffer = 0)
      (hmq : seg.mq = { mq with queueEvent := mq.queueEvent ||| mqpollNowriters }) :
      Touches s t h mq (.read length m₀) seg
  | drains {length m₀ seg header body n rb₁ rb₂}
      (hread₁ : ringBufferRead mq.buffer sizeofSizeT = .ok (header, rb₁))
      (hread₂ : ringBufferRead rb₁ n = .ok (body, rb₂))
      (hmq : seg.mq = readEvents { mq with buffer := rb₂ }) :
      Touches s t h mq (.read length m₀) seg
  | puts {buffer length seg ok₁ ok₂ rb₁ rb₂} (hgo : Goes s t h mq length)
      (hl : length ≠ 0) (hp : buffer.length = length.toNat)
      (hw : hasAny (s.flags h) msgQueueWriter = true)
      (hw₁ : ringBufferWrite mq.buffer (sizeBytes length) sizeofSizeT = .ok (ok₁, rb₁))
      (hw₂ : ringBufferWrite rb₁ buffer length = .ok (ok₂, rb₂))
      (hmq : seg.mq = if hasAny (s.flags h) msgQueueNonblock then { mq with buffer := rb₂ }
        else writeEvents { mq with buffer := rb₂ }) :
      Touches s t h mq (.write buffer length) seg

variable [Build] {mq : MqBackend Empty} {t : T} {h : HandleId} {c : Call} {seg : Segment Empty}

omit [DecidableEq T] in
/-- The test of the wait loop decides what a write that has passed its checks does. -/
theorem touches_writeLoop {buffer : List UInt8} {length : UInt64} (hl : length ≠ 0)
    (hp : buffer.length = length.toNat) (hw : hasAny (s.flags h) msgQueueWriter = true)
    (hadm : s.calls t = none → Admitted mq length)
    (hrun : writeLoop mq (s.flags h) buffer length = .ok seg) :
    Touches s t h mq (.write buffer length) seg := by
  rcases writeLoop_cases hrun with ⟨hfree, rfl⟩ | ⟨hfree, ok₁, ok₂, rb₁, rb₂, hw₁, hw₂, hmq⟩
  · refine .kept rfl ?_
    rintro _ _ ⟨⟩ ⟨-, hroom⟩
    exact hroom hfree
  · exact .puts ⟨fun hc => ⟨hw, hadm hc⟩, hfree⟩ hl hp hw hw₁ hw₂ hmq

omit [DecidableEq T] in
theorem touches_drain {length m₀ n : UInt64} {seg' : Segment Empty}
    (hrun : readDrain mq n = .ok seg') (hmq : seg.mq = seg'.mq) :
    Touches s t h mq (.read length m₀) seg := by
  obtain ⟨header, body, n, rb₁, rb₂, hread₁, hread₂, hmq'⟩ := readDrain_cases hrun
  exact .drains hread₁ hread₂ (hmq.trans hmq')

omit [DecidableEq T] in
theorem touches_readLoop {length m₀ : UInt64}
    (hrun : readLoop mq (s.flags h) length m₀ = .ok seg) :
    Touches s t h mq (.read length m₀) seg := by
  rcases readLoop_cases hrun with hmq | ⟨hw, hu, hmq⟩ | ⟨-, n, seg', hdrain, hmq⟩
  · exact .kept hmq (by rintro _ _ ⟨⟩)
  · exact .ended hw hu hmq
  · exact touches_drain hdrain hmq

theorem Begins.touches_read {length m₀ : UInt64} {k : Cond → CondVar T}
    (hb : Begins s mq t h (.read length m₀) (.ok seg) k) :
    Touches s t h mq (.read length m₀) seg := by
  generalize hrun : (Except.ok seg : Except Fault (Segment Empty)) = r at hb
  cases hb with
  | first hc hh hp =>
      rcases msgQueueRead_cases hrun.symm with ⟨-, rfl⟩ | ⟨hw, hu, rfl⟩ | ⟨-, hloop⟩
      · exact .kept rfl (by rintro _ _ ⟨⟩)
      · exact .ended hw hu rfl
      · exact touches_readLoop hloop
  | resume hc => exact touches_readLoop hrun.symm
  | drain hc => exact touches_drain hrun.symm rfl

theorem Begins.touches_write {buffer : List UInt8} {length : UInt64} {k : Cond → CondVar T}
    (hb : Begins s mq t h (.write buffer length) (.ok seg) k) (hm : Monitored s)
    (hd : ReadsDrain s) : Touches s t h mq (.write buffer length) seg := by
  generalize hrun : (Except.ok seg : Except Fault (Segment Empty)) = r at hb
  cases hb with
  | first hc hh hp =>
      rcases msgQueueWrite_cases hrun.symm with ⟨e, rfl, hno⟩ | ⟨hw, hadm, hloop⟩
      · refine .kept rfl ?_
        rintro _ _ ⟨⟩ ⟨hgo, -⟩
        exact hno (hgo hc)
      · exact touches_writeLoop hadm.1 hp hw (fun _ => hadm) hloop
  | resume hc =>
      have hstarted := hm.started t _ hc
      refine touches_writeLoop hstarted.2 (hm.passed t _ hc) hstarted.1 ?_ hrun.symm
      intro hnone
      rw [hc] at hnone
      cases hnone
  | drain hc =>
      obtain ⟨length, m₀, hread⟩ := hd _ _ _ _ hc
      cases hread

/-- The inversion lemma for segments. -/
theorem Begins.touches {k : Cond → CondVar T} (hb : Begins s mq t h c (.ok seg) k)
    (hm : Monitored s) (hd : ReadsDrain s) : Touches s t h mq c seg := by
  cases c with
  | read length m₀ => exact hb.touches_read
  | write buffer length => exact hb.touches_write hm hd

/-- A segment that goes on to drain is one of a read. -/
theorem Begins.drain_read {k : Cond → CondVar T} (hb : Begins s mq t h c (.ok seg) k)
    (hd : ReadsDrain s) {n : UInt64} (hn : seg.next = .drain n) :
    ∃ length m₀, c = .read length m₀ := by
  cases c with
  | read length m₀ => exact ⟨length, m₀, rfl⟩
  | write buffer length =>
      have hgoes (hg : WriteGoes mq (s.flags h) length seg) : False := by
        cases hg with
        | sleeps => cases hn
        | puts _ _ _ hret =>
            rw [hret] at hn
            split at hn <;> cases hn
      generalize hrun : (Except.ok seg : Except Fault (Segment Empty)) = r at hb
      cases hb with
      | first =>
          rcases msgQueueWrite_goes hrun.symm with ⟨e, rfl⟩ | ⟨-, hg⟩
          · cases hn
          · exact (hgoes hg).elim
      | resume => exact (hgoes (writeLoop_goes hrun.symm)).elim
      | drain hc => exact hd _ _ _ _ hc

theorem ReadsDrain.step (hd : ReadsDrain s) {l : Label T} {s' : Queue T} (hstep : Step s l s') :
    ReadsDrain s' := by
  cases hstep with
  | @segment mq t h c seg k k' ha hm hb hn =>
      intro u h' c' msgHead hu
      by_cases hut : u = t
      · subst hut
        simp only [Queue.finish, Function.update_self] at hu
        cases hnext : seg.next with
        | ret value errno => simp [pendingAfter, hnext] at hu
        | wait cv => simp [pendingAfter, hnext] at hu
        | drain m =>
            simp only [hnext, pendingAfter, Option.some.injEq, Pending.mk.injEq] at hu
            obtain ⟨-, rfl, -⟩ := hu
            exact hb.drain_read hd hnext
      · simp only [Queue.finish, Function.update_of_ne hut] at hu
        exact hd u h' c' msgHead hu
  | abort => exact hd
  | openRefused => exact hd
  | «open» => exact hd
  | close => exact hd
  | closeAbort => exact hd

omit [DecidableEq T] in
theorem created_readsDrain (h₀ : IsCreated s) : ReadsDrain s := by
  obtain ⟨_, _, _, _, _, -, rfl⟩ := h₀
  intro t h c msgHead hc
  cases hc

/-- What every run keeps of the backend. -/
structure Intact (s : Queue T) : Prop where
  monitored : Monitored s
  readsDrain : ReadsDrain s
  counted : ∀ mq, s.mq = some mq → Counted mq s.handles s.flags
  ring : ∀ mq, s.mq = some mq → ∃ q, Rep mq.buffer q
  /-- There is room for a header and a byte. -/
  capacity : ∀ mq, s.mq = some mq → 9 ≤ mq.buffer.size.toNat
  noWriters : ∀ mq, s.mq = some mq → mq.noWriters = true →
    openWith s.handles s.flags msgQueueWriter = ∅

omit [DecidableEq T] in
/-- A segment leaves a ring of the same size, and the handles alone. -/
theorem Touches.keeps (ht : Touches s t h mq c seg) {q : List UInt8} (hq : Rep mq.buffer q) :
    (∃ q', Rep seg.mq.buffer q') ∧ SameHandles mq seg.mq := by
  cases ht with
  | kept hmq =>
      rw [hmq]
      exact ⟨⟨q, hq⟩, SameHandles.rfl⟩
  | ended hw hu hmq =>
      rw [hmq]
      exact ⟨⟨q, hq⟩, ⟨rfl, rfl, rfl, rfl, rfl, rfl⟩⟩
  | drains hread₁ hread₂ hmq =>
      obtain ⟨q₁, hq₁, -, hsize₁⟩ := ringBufferRead_keeps hq hread₁
      obtain ⟨q₂, hq₂, -, hsize₂⟩ := ringBufferRead_keeps hq₁ hread₂
      rw [hmq, readEvents_buffer]
      exact ⟨⟨q₂, hq₂⟩, readEvents_sameHandles mq _ (hsize₂.trans hsize₁)⟩
  | puts hgo hl hp hw hw₁ hw₂ hmq =>
      obtain ⟨q₁, hq₁, -, hsize₁⟩ := ringBufferWrite_keeps hq (by decide)
        (by simp [sizeBytes, sizeofSizeT]) hw₁
      obtain ⟨q₂, hq₂, -, hsize₂⟩ := ringBufferWrite_keeps hq₁ hl (Nat.le_of_eq hp.symm) hw₂
      rw [hmq]
      split
      · exact ⟨⟨q₂, hq₂⟩, ⟨rfl, rfl, rfl, rfl, rfl, hsize₂.trans hsize₁⟩⟩
      · rw [writeEvents_buffer]
        exact ⟨⟨q₂, hq₂⟩, writeEvents_sameHandles mq _ (hsize₂.trans hsize₁)⟩

/-- No step breaks what runs keep. -/
theorem Intact.step (hi : Intact s) {l : Label T} {s' : Queue T} (hs : Step s l s') :
    Intact s' := by
  have hm := step_monitored hi.monitored hs
  have hd := hi.readsDrain.step hs
  cases hs with
  | @segment mq t h c seg k k' ha hmq hb hn =>
      obtain ⟨q, hq⟩ := hi.ring mq hmq
      obtain ⟨hring, hsame⟩ := (hb.touches hi.monitored hi.readsDrain).keeps hq
      refine ⟨hm, hd, ?_, ?_, ?_, ?_⟩
      · rintro _ ⟨⟩
        exact hsame.counted (hi.counted mq hmq)
      · rintro _ ⟨⟩
        exact hring
      · rintro _ ⟨⟩
        rw [hsame.size]
        exact hi.capacity mq hmq
      · rintro _ ⟨⟩ hgone
        rw [hsame.noWriters] at hgone
        exact hi.noWriters mq hmq hgone
  | abort => exact ⟨hm, hd, hi.counted, hi.ring, hi.capacity, hi.noWriters⟩
  | openRefused => exact hi
  | @«open» mq mq' h new flags ha hmq hh hnew ho =>
      obtain rfl : mqOpen mq flags = mq' := by
        unfold msgQueueOpen at ho
        split at ho
        · cases ho
        · exact Except.ok.inj ho
      refine ⟨hm, hd, ?_, ?_, ?_, ?_⟩
      · rintro _ ⟨⟩
        exact (hi.counted mq hmq).open hnew flags
      · rintro _ ⟨⟩
        rw [mqOpen_buffer]
        exact hi.ring mq hmq
      · rintro _ ⟨⟩
        rw [mqOpen_buffer]
        exact hi.capacity mq hmq
      · rintro _ ⟨⟩ hgone
        rw [mqOpen_noWriters, Bool.and_eq_true, Bool.not_eq_true'] at hgone
        rw [← Finset.card_eq_zero, openWith_card_insert hnew, hgone.1, if_neg (by decide),
          hi.noWriters mq hmq hgone.2, Finset.card_empty]
  | @close mq mq' h ns k' ha hmq hh hfree hc hn =>
      rcases msgQueueClose_counted (hi.counted mq hmq) hh with
        ⟨-, hlast⟩ | ⟨-, mq₁, ns₁, hrun, hcount, hclosed⟩
      · obtain ⟨rfl, rfl⟩ := Prod.mk.inj (Except.ok.inj (hc.symm.trans hlast))
        exact ⟨hm, hd, by rintro _ ⟨⟩, by rintro _ ⟨⟩, by rintro _ ⟨⟩, by rintro _ ⟨⟩⟩
      · obtain ⟨rfl, rfl⟩ := Prod.mk.inj (Except.ok.inj (hc.symm.trans hrun))
        refine ⟨hm, hd, ?_, ?_, ?_, ?_⟩
        · rintro _ ⟨⟩
          exact hcount
        · rintro _ ⟨⟩
          rw [hclosed.buffer]
          exact hi.ring mq hmq
        · rintro _ ⟨⟩
          rw [hclosed.buffer]
          exact hi.capacity mq hmq
        · rintro _ ⟨⟩ hgone
          rw [hclosed.noWriters, Bool.or_eq_true, Bool.and_eq_true, beq_iff_eq, hcount.writers,
            Finset.card_eq_zero] at hgone
          rcases hgone with ⟨-, hnone⟩ | hold
          · exact hnone
          · apply Finset.subset_empty.mp
            rw [← hi.noWriters mq hmq hold]
            exact Finset.filter_subset_filter _ (Finset.erase_subset _ _)
  | closeAbort => exact ⟨hm, hd, hi.counted, hi.ring, hi.capacity, hi.noWriters⟩

omit [DecidableEq T] in
theorem created_intact [DecidableEq T] (h₀ : IsCreated s) : Intact s := by
  have hd := created_readsDrain h₀
  obtain ⟨block, answer, capacity, flags, mq, hcreate, rfl⟩ := h₀
  obtain ⟨buffer, stale, hrep, hsize, hnine, rfl⟩ := msgQueueCreate_ok hcreate
  have hfresh : Counted (⟨buffer, 0, 0, 0, false, false, stale, []⟩ : MqBackend Empty) ∅
      fun _ => flags := ⟨rfl, rfl, rfl⟩
  refine ⟨created_monitored _ _, hd, ?_, ?_, ?_, ?_⟩
  · rintro _ ⟨⟩
    have hcount := hfresh.open (Finset.notMem_empty 0) flags
    rwa [Function.update_eq_self] at hcount
  · rintro _ ⟨⟩
    exact ⟨[], by rw [mqOpen_buffer]; exact hrep⟩
  · rintro _ ⟨⟩
    rw [mqOpen_buffer, hsize]
    exact hnine
  · rintro _ ⟨⟩ hgone
    rw [mqOpen_noWriters, Bool.and_false] at hgone
    cases hgone

/-- What runs keep holds in every run, whatever the arguments. -/
theorem run_intact {s₀ : Queue T} (h₀ : IsCreated s₀) {ls : List (Label T)}
    (run : Run Step s₀ ls s) : Intact s :=
  run.state_invariant (created_intact h₀) fun _ _ _ hi hs => hi.step hs

end Queue
end UoftOs.MsgQueue
