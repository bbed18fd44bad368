import Mathlib.Data.Fintype.Basic
import Mathlib.Tactic.FinCases
import UoftOs.MsgQueue.Intact
import UoftOs.MsgQueue.Sound

/-!
# Writers that lose all readers

A write tests `no_readers` once, before its wait loop. `Overlooks` is the step in
which a writer goes on from its wait although the last reader has gone in the
meantime and sleeps again or succeeds. Nothing is assumed about the contents of
the ring.

## Implementation notes

A read whose buffer is too small unlocks the mutex twice, which a queue of atomic segments
does not show: its second unlock can free the mutex for a close while a writer is on its way
into the wait. The runs are those without such a read (`Overruns`).
-/

namespace UoftOs.MsgQueue

open Lib Lib.Transition

section Segments
variable [Build] {N : Type} {mq : MqBackend N} {flags : CInt} {seg : Segment N}

/-- The length that a read finds in front of the first message; `msgHead` is the
uninitialised local. -/
def lengthAhead (mq : MqBackend N) (msgHead : UInt64) : UInt64 :=
  match ringBufferPeek mq.buffer sizeofSizeT with
  | .ok (some header, _) => sizeValue header
  | _ => msgHead

/-- A read that goes on without the mutex has found a message longer than its buffer. -/
theorem readAfterWait_drain {length msgHead n : UInt64}
    (h : readAfterWait mq length msgHead = .ok seg) (hn : seg.next = .drain n) :
    ¬ (ringBufferUsed mq.buffer == 0 && mq.noWriters) = true ∧
      length < lengthAhead mq msgHead := by
  unfold readAfterWait at h
  split at h
  · obtain rfl := Except.ok.inj h
    cases hn
  · next hused =>
      refine ⟨hused, ?_⟩
      obtain ⟨⟨header, rb⟩, hpeek, h⟩ := except_bind_ok h
      have hahead : lengthAhead mq msgHead = (header.map sizeValue).getD msgHead := by
        rw [lengthAhead, hpeek]
        cases header <;> rfl
      rw [hahead]
      dsimp only at h
      split at h
      · next hlt => exact hlt
      · obtain ⟨seg', hdrain, h⟩ := except_bind_ok h
        obtain rfl := Except.ok.inj h
        obtain ⟨⟨value, hv⟩, -⟩ := readDrain_next hdrain
        cases hv.symm.trans hn

theorem readLoop_drain {length msgHead n : UInt64}
    (h : readLoop mq flags length msgHead = .ok seg) (hn : seg.next = .drain n) :
    ringBufferUsed mq.buffer ≠ 0 ∧ length < lengthAhead mq msgHead := by
  unfold readLoop at h
  split at h
  · split at h <;> obtain rfl := Except.ok.inj h <;> cases hn
  · next hused =>
      obtain ⟨hused', hlt⟩ := readAfterWait_drain h hn
      refine ⟨fun hzero => ?_, hlt⟩
      rw [hzero, beq_self_eq_true, Bool.and_true] at hused
      rw [hzero, beq_self_eq_true, Bool.true_and] at hused'
      cases hw : mq.noWriters <;> simp [hw] at hused hused'

theorem msgQueueRead_drain {length msgHead n : UInt64}
    (h : msgQueueRead mq flags length msgHead = .ok seg) (hn : seg.next = .drain n) :
    ringBufferUsed mq.buffer ≠ 0 ∧ length < lengthAhead mq msgHead := by
  unfold msgQueueRead at h
  split at h
  · obtain rfl := Except.ok.inj h
    cases hn
  · split at h
    · obtain rfl := Except.ok.inj h
      cases hn
    · exact readLoop_drain h hn

/-- A close that leaves the queue without readers wakes all sleeping writers. -/
theorem msgQueueClose_notifies {mq' : MqBackend N} {ns : List Notify}
    (h : msgQueueClose mq flags = .ok (some mq', ns)) :
    ns = (if mq'.noReaders then [.broadcast .spaceFull] else []) ++
      if mq'.noWriters then [.broadcast .spaceEmpty] else [] := by
  unfold msgQueueClose at h
  obtain ⟨⟨last, mq₁⟩, -, h⟩ := except_bind_ok h
  cases last with
  | true => cases h
  | false =>
      cases hr : mq₁.noReaders <;> cases hw : mq₁.noWriters <;>
        · simp [hr, hw, pure, Except.pure] at h
          obtain ⟨rfl, rfl⟩ := h
          simp [hr, hw]

end Segments

namespace Queue
variable {T : Type} [DecidableEq T] {s : Queue T}

/-- No writer sleeps while all reader handles are closed. -/
def PipeWatched (s : Queue T) : Prop :=
  ∀ mq, s.mq = some mq → mq.noReaders = true → (s.conds .spaceFull).asleep = ∅

/-- A write that returns 0 has put its message into a queue with readers. -/
def HadReaders (s : Queue T) : Label T → Prop
  | .segment _ _ (.write ..) seg => (∃ errno, seg.next = .ret 0 errno) →
      ∀ mq, s.mq = some mq → mq.noReaders = false
  | _ => True

/-- A waiting writer goes on without readers and, for want of room, sleeps again or,
on a blocking handle, succeeds. -/
def Overlooks (s : Queue T) : Label T → Prop
  | .segment t h (.write buffer length) _ =>
      s.calls t = some ⟨h, .write buffer length, .waiting⟩ ∧
      ∃ mq, s.mq = some mq ∧ mq.noReaders = true ∧
        (hasAny (s.flags h) msgQueueNonblock = false ∨
          ringBufferFree mq.buffer < length + sizeofSizeT)
  | _ => False

/-- A read through a reader handle finds a message longer than its buffer. -/
def Overruns [Build] (s : Queue T) : Label T → Prop
  | .segment _ h (.read length msgHead) _ => hasAny (s.flags h) msgQueueReader = true ∧
      ∃ mq, s.mq = some mq ∧ ringBufferUsed mq.buffer ≠ 0 ∧ length < lengthAhead mq msgHead
  | _ => False

theorem Notified.asleep_subset {ns : List Notify} {k k' : Cond → CondVar T}
    (h : Notified ns k k') (c : Cond) : (k' c).asleep ⊆ (k c).asleep := by
  induction h with
  | nil => exact Finset.Subset.refl _
  | @signal d ns k v k' hs _ ih =>
      apply ih.trans
      by_cases hc : c = d
      · subst hc
        rw [Function.update_self]
        exact hs.asleep_subset
      · rw [Function.update_of_ne hc]
  | @broadcast d ns k k' _ ih =>
      apply ih.trans
      by_cases hc : c = d
      · subst hc
        rw [Function.update_self]
        exact Finset.empty_subset _
      · rw [Function.update_of_ne hc]

variable [Build] {mq : MqBackend Empty} {t : T} {h : HandleId} {c : Call}

theorem Begins.asleep_subset {r : Except Fault (Segment Empty)} {k : Cond → CondVar T}
    (hb : Begins s mq t h c r k) (cv : Cond) : (k cv).asleep ⊆ (s.conds cv).asleep := by
  cases hb with
  | first => exact Finset.Subset.refl _
  | resume hc =>
      by_cases hcv : cv = c.cond
      · subst hcv
        rw [Function.update_self]
        exact CondVar.resume_asleep_subset t
      · rw [Function.update_of_ne hcv]
  | drain => exact Finset.Subset.refl _

/-- A read goes on without the mutex only where it overruns. -/
theorem Begins.overruns {seg : Segment Empty} {k : Cond → CondVar T}
    (hb : Begins s mq t h c (.ok seg) k) (hm : Monitored s) (hi : Idle s) (hmq : s.mq = some mq)
    {n : UInt64} (hn : seg.next = .drain n) : Overruns s (.segment t h c seg) := by
  obtain ⟨length, m₀, rfl⟩ := hb.drain_read (fun t h c n hc => absurd hc (hi t h c n)) hn
  have hreader : hasAny (s.flags h) msgQueueReader = true := hb.started hm fun value errno hv => by
    rw [hn] at hv
    cases hv
  refine ⟨hreader, mq, hmq, ?_⟩
  generalize hr : (Except.ok seg : Except Fault (Segment Empty)) = r at hb
  cases hb with
  | first => exact msgQueueRead_drain hr.symm hn
  | resume => exact readLoop_drain hr.symm hn
  | drain hc => exact absurd hc (hi _ _ _ _)

/-- Without a read that overruns no thread goes on without the mutex. -/
theorem Idle.guarded (hi : Idle s) (hm : Monitored s) {l : Label T} {s' : Queue T}
    (hstep : Step s l s') (hno : ¬ Overruns s l) : Idle s' := by
  cases hstep with
  | segment ha hmq hb hn => exact hi.finish fun n hnext => hno (hb.overruns hm hi hmq hnext)
  | abort => exact hi
  | openRefused => exact hi
  | «open» => exact hi
  | close => exact hi
  | closeAbort => exact hi

omit [Build] in
/-- A thread that does not wait adds no sleeper. -/
theorem finish_asleep_subset {seg : Segment Empty} {k : Cond → CondVar T} {cv : Cond}
    (hn : seg.next ≠ .wait cv) :
    ((s.finish t h c seg k).conds cv).asleep ⊆ (k cv).asleep := by
  cases hnext : seg.next with
  | ret value errno => simp [finish, condsAfter, hnext]
  | drain m => simp [finish, condsAfter, hnext]
  | wait d =>
      have hne : cv ≠ d := by
        rintro rfl
        exact hn hnext
      simp [finish, condsAfter, hnext, Function.update_of_ne hne]

/-- The pipe stays watched over a segment that does not wait for room. -/
theorem PipeWatched.finish (hs : PipeWatched s) (hmq : s.mq = some mq) {seg : Segment Empty}
    {k k' : Cond → CondVar T} {r : Except Fault (Segment Empty)} (hb : Begins s mq t h c r k)
    (hno : Notified seg.notify k k') (hr : seg.mq.noReaders = mq.noReaders)
    (hn : seg.next ≠ .wait .spaceFull) : PipeWatched (s.finish t h c seg k') := by
  intro mq' hmq' hgone
  obtain rfl := Option.some.inj hmq'
  have hempty := hs mq hmq (hr ▸ hgone)
  apply Finset.subset_empty.mp
  rw [← hempty]
  exact (finish_asleep_subset hn).trans ((hno.asleep_subset _).trans (hb.asleep_subset _))

omit [Build] in
/-- Without sleepers to be there is nothing to watch. -/
theorem pipeWatched_of_readers {seg : Segment Empty} {k : Cond → CondVar T}
    (hr : seg.mq.noReaders = false) : PipeWatched (s.finish t h c seg k) := by
  intro mq' hmq' hgone
  obtain rfl := Option.some.inj hmq'
  rw [hr] at hgone
  cases hgone

/-- The segments of a read keep the pipe watched. -/
theorem read_noReaders {seg : Segment Empty} {k : Cond → CondVar T} {length m₀ : UInt64}
    (hb : Begins s mq t h (.read length m₀) (.ok seg) k) : seg.mq.noReaders = mq.noReaders := by
  cases hb.touches_read with
  | kept hmq => rw [hmq]
  | ended hw hu hmq => rw [hmq]
  | drains hread₁ hread₂ hmq => rw [hmq, readEvents_noReaders]

/-- What a step of a writer does to the pipe. -/
theorem write_watched_iff (hs : PipeWatched s) (hi : Idle s) (hmq : s.mq = some mq)
    {buffer : List UInt8} {length : UInt64} {seg : Segment Empty} {k k' : Cond → CondVar T}
    (hb : Begins s mq t h (.write buffer length) (.ok seg) k) (hn : Notified seg.notify k k') :
    HadReaders s (.segment t h (.write buffer length) seg) ∧
      PipeWatched (s.finish t h (.write buffer length) seg k') ↔
    ¬ Overlooks s (.segment t h (.write buffer length) seg) := by
  have hbegin := hb
  generalize hr : (Except.ok seg : Except Fault (Segment Empty)) = r at hb
  cases hb with
  | first hc hh hp =>
      apply iff_of_true
      · rcases msgQueueWrite_goes hr.symm with ⟨e, rfl⟩ | ⟨hreaders, hgo⟩
        · exact ⟨fun ⟨_, he⟩ => (by cases he), hs.finish hmq hbegin hn rfl (by simp [Segment.quiet])⟩
        · refine ⟨fun _ mq' hmq' => ?_, pipeWatched_of_readers (hgo.noReaders.trans hreaders)⟩
          obtain rfl := Option.some.inj (hmq.symm.trans hmq')
          exact hreaders
      · rintro ⟨hw, -⟩
        rw [hc] at hw
        cases hw
  | resume hc =>
      have hgo := writeLoop_goes hr.symm
      cases hgone : mq.noReaders with
      | false =>
          refine iff_of_true ⟨fun _ mq' hmq' => ?_,
            pipeWatched_of_readers (hgo.noReaders.trans hgone)⟩ ?_
          · obtain rfl := Option.some.inj (hmq.symm.trans hmq')
            exact hgone
          · rintro ⟨-, mq', hmq', hgone', -⟩
            obtain rfl := Option.some.inj (hmq.symm.trans hmq')
            rw [hgone] at hgone'
            cases hgone'
      | true =>
          cases hgo with
          | sleeps hfree =>
              refine iff_of_false ?_ (not_not_intro ⟨hc, mq, hmq, hgone, Or.inr hfree⟩)
              rintro ⟨-, hwatched⟩
              have hempty := hwatched mq rfl hgone
              simp [Queue.finish, Segment.quiet, condsAfter, CondVar.sleep] at hempty
          | puts hfree hreaders hno hnext =>
              cases hf : hasAny (s.flags h) msgQueueNonblock with
              | false =>
                  refine iff_of_false ?_ (not_not_intro ⟨hc, mq, hmq, hgone, Or.inl hf⟩)
                  rintro ⟨hhad, -⟩
                  rw [hf] at hnext
                  have hreaders' := hhad ⟨none, hnext⟩ mq hmq
                  rw [hgone] at hreaders'
                  cases hreaders'
              | true =>
                  rw [hf, if_pos rfl] at hnext
                  refine iff_of_true ⟨?_, hs.finish hmq hbegin hn hreaders (by rw [hnext]; simp)⟩ ?_
                  · rintro ⟨errno, he⟩
                    rw [hnext] at he
                    cases he
                  · rintro ⟨-, mq', hmq', -, hblock | hroom⟩
                    · rw [hf] at hblock
                      cases hblock
                    · obtain rfl := Option.some.inj (hmq.symm.trans hmq')
                      exact hfree hroom
  | drain hc => exact absurd hc (hi _ _ _ _)

/-- The step rule: a step keeps the pipe watched unless it overlooks it. -/
theorem PipeWatched.step_iff (hs : PipeWatched s) (hi : Idle s) {l : Label T}
    {s' : Queue T} (hstep : Step s l s') :
    HadReaders s l ∧ PipeWatched s' ↔ ¬ Overlooks s l := by
  cases hstep with
  | @segment mq t h c seg k k' ha hm hb hn =>
      cases c with
      | write buffer length => exact write_watched_iff hs hi hm hb hn
      | read length m₀ =>
          refine iff_of_true ⟨trivial, hs.finish hm hb hn (read_noReaders hb) ?_⟩ id
          intro hwait
          cases hb.wait_cond hwait
  | abort ha hm hb => exact iff_of_true ⟨trivial, hs⟩ id
  | openRefused ha hm hh ho => exact iff_of_true ⟨trivial, hs⟩ id
  | @«open» mq mq' h new flags ha hm hh hnew ho =>
      refine iff_of_true ⟨trivial, ?_⟩ id
      rintro _ ⟨⟩ hgone
      obtain rfl : mqOpen mq flags = mq' := by
        unfold msgQueueOpen at ho
        split at ho
        · cases ho
        · exact Except.ok.inj ho
      rw [mqOpen_noReaders, Bool.and_eq_true] at hgone
      exact hs mq hm hgone.2
  | @close mq mq' h ns k' ha hm hh hfree hc hn =>
      refine iff_of_true ⟨trivial, ?_⟩ id
      rintro mq₁ hmq₁ hgone
      obtain rfl : mq' = some mq₁ := hmq₁
      rw [msgQueueClose_notifies hc] at hn
      have hfull := hn.of_close.1
      rw [if_pos hgone] at hfull
      change (k' .spaceFull).asleep = ∅
      rw [hfull]
      rfl
  | closeAbort ha hm hh hfree hc => exact iff_of_true ⟨trivial, hs⟩ id

/-- In a run in which no read overruns and no writer overlooks the end of the readers, no
writer sleeps once the readers are gone, and a step keeps to this and to the rule that only a
write with readers succeeds unless it is of the second kind. -/
theorem broken_pipe_seen_iff {s₀ : Queue T} (h₀ : IsCreated s₀) {ls : List (Label T)}
    (run : Run (Guarded Step fun s l => ¬ Overruns s l ∧ ¬ Overlooks s l) s₀ ls s) :
    PipeWatched s ∧ ∀ l s', ¬ Overruns s l → Step s l s' →
      (HadReaders s l ∧ PipeWatched s' ↔ ¬ Overlooks s l) := by
  obtain ⟨hs, hi, -⟩ : PipeWatched s ∧ Idle s ∧ Monitored s := by
    refine Run.state_invariant (I := fun s => PipeWatched s ∧ Idle s ∧ Monitored s)
      ⟨?_, created_idle h₀, run_monitored h₀ .nil⟩ ?_ run
    · obtain ⟨_, _, _, _, _, -, rfl⟩ := h₀
      intro _ _ _
      rfl
    · rintro s l s' ⟨hs, hi, hm⟩ ⟨hstep, hfits, hno⟩
      exact ⟨((hs.step_iff hi hstep).mpr hno).2, hi.guarded hm hstep hfits, step_monitored hm hstep⟩
  exact ⟨hs, fun l s' _ hstep => hs.step_iff hi hstep⟩

section Traces

/-- The backend of the traces below: nineteen bytes. -/
private def pipe19 (buffer : List UInt8) (tail : UInt64) (refs readers writers : Nat)
    (noReaders : Bool) (event : CInt) : MqBackend Empty :=
  ⟨⟨buffer, 19, 0, tail, false⟩, refs, readers, writers, noReaders, false, event, []⟩

private def poison19 : List UInt8 := List.replicate 19 0xDD

private def letter10 : List UInt8 := List.replicate 10 7

private def framedLetter : List UInt8 := Frames.leBytes 8 10 ++ letter10 ++ [0xDD]

/-- A queue of nineteen bytes, which thread 0 has created; handle 1 only writes. -/
private def piped : Queue (Fin 2) := created (pipe19 poison19 0 1 1 1 false 0) 3

private def piped₁ : Queue (Fin 2) :=
  { piped with
    mq := some (pipe19 poison19 0 2 1 2 false 0), handles := insert 1 piped.handles
    flags := Function.update piped.flags 1 2 }

/-- Thread 0 fills the ring but for one byte. -/
private def piped₂ : Queue (Fin 2) :=
  piped₁.finish 0 1 (.write letter10 10)
    ⟨pipe19 framedLetter 18 2 1 2 false 1, [.signal .spaceEmpty], [], [true, true], .ret 0 none⟩
    (Function.update piped₁.conds .spaceEmpty CondVar.empty)

/-- Thread 1 waits for room. -/
private def piped₃ : Queue (Fin 2) :=
  piped₂.finish 1 1 (.write [5] 1)
    (.quiet (pipe19 framedLetter 18 2 1 2 false 1) (.wait .spaceFull)) piped₂.conds

/-- The last reader handle goes. -/
private def piped₄ : Queue (Fin 2) :=
  { piped₃ with
    mq := some (pipe19 framedLetter 18 1 0 1 true 7), handles := piped₃.handles.erase 0
    conds := Function.update piped₃.conds .spaceFull (piped₃.conds .spaceFull).broadcast }

omit [Build] in
private theorem piped_created :
    letI : Build := ⟨false⟩
    IsCreated piped := by
  let _ : Build := ⟨false⟩
  exact ⟨some 0, some fun _ => 0, 19, 3, _, by decide, rfl⟩

omit [Build] in
private theorem piped_run :
    letI : Build := ⟨false⟩
    ∃ ls, Run (Guarded Step fun s l => ¬ Overruns s l ∧ ¬ Overlooks s l) piped ls piped₄ := by
  let _ : Build := ⟨false⟩
  have step₁ : Step piped (.open 0 1 2) piped₁ := Step.open rfl rfl (by decide) (by decide) rfl
  have step₂ : Step piped₁ _ piped₂ :=
    Step.first rfl rfl rfl (by decide) rfl (by decide) (.signal (.none rfl) (.nil _))
  have step₃ : Step piped₂ _ piped₃ :=
    Step.first rfl rfl rfl (by decide) rfl (by decide) (.nil _)
  have step₄ : Step piped₃ (.close 0) piped₄ := by
    refine Step.close rfl rfl (by decide) ?_ (by decide) (.broadcast (.nil _))
    intro t p hp
    fin_cases t
    · cases hp
    · cases hp
      decide
  have first {s : Queue (Fin 2)} {t h b l seg} (hc : s.calls t = none) :
      ¬ Overlooks s (.segment t h (.write b l) seg) := by
    rintro ⟨hw, -⟩
    rw [hc] at hw
    cases hw
  exact ⟨_, (((Run.nil.snoc ⟨step₁, id, id⟩).snoc ⟨step₂, id, first rfl⟩).snoc
    ⟨step₃, id, first rfl⟩).snoc ⟨step₄, id, id⟩⟩

omit [Build] in
/-- A writer waits for room and is woken when the last reader closes its handle. -/
theorem broken_pipe_seen_iff_closed :
    letI : Build := ⟨false⟩
    ∃ s : Queue (Fin 2), (∃ mq, s.mq = some mq ∧ mq.noReaders = true) ∧
      1 ∈ (s.conds .spaceFull).woken ∧ PipeWatched s := by
  let _ : Build := ⟨false⟩
  obtain ⟨ls, run⟩ := piped_run
  exact ⟨piped₄, ⟨_, rfl, rfl⟩, by decide, (broken_pipe_seen_iff piped_created run).1⟩

omit [Build] in
/-- A writer waits for room; the last reader closes its handle, and the writer it
wakes sleeps again for ever. -/
theorem writer_sleeps_without_readers :
    letI : Build := ⟨false⟩
    ∃ (s₀ s : Queue (Fin 2)) (ls : List (Label (Fin 2))), IsCreated s₀ ∧ Run Step s₀ ls s ∧
      (s.conds .spaceFull).woken = ∅ ∧ (∀ t h c m, s.calls t ≠ some ⟨h, c, .draining m⟩) ∧
      ¬ PipeWatched s := by
  let _ : Build := ⟨false⟩
  obtain ⟨ls, run⟩ := piped_run
  let s₅ := piped₄.finish 1 1 (.write [5] 1)
    (.quiet (pipe19 framedLetter 18 1 0 1 true 7) (.wait .spaceFull))
    (Function.update piped₄.conds .spaceFull ((piped₄.conds .spaceFull).resume 1))
  have step₅ : Step piped₄ _ s₅ := Step.resume rfl rfl rfl (by decide) (.nil _)
  refine ⟨piped, s₅, _, piped_created, run.unguard.snoc step₅, by decide, ?_, ?_⟩
  · intro t h c m hc
    fin_cases t
    · cases hc
    · cases hc
  · intro hwatched
    have hempty := hwatched _ rfl rfl
    revert hempty
    decide

end Traces

end Queue
end UoftOs.MsgQueue
