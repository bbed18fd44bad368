import UoftOs.MsgQueue.Fifo
import UoftOs.MsgQueue.ReaderWakeups
import UoftOs.MsgQueue.Refusals
import UoftOs.MsgQueue.WriterWakeups

/-!
# Blocking transfers

A blocking call whose checks pass either waits or moves one whole message. This
module says so for one segment, counts the threads it wakes, and shows which
segments and closes a sound queue allows. Programs over a queue are built on it.
-/

namespace UoftOs.MsgQueue.Queue

open Lib Lib.Frames Lib.Transition

variable {T : Type} [DecidableEq T]

/-! ## Counting woken threads -/

/-- The threads that have been woken and have not gone on yet. -/
def wokenCount (k : Cond → CondVar T) : Nat :=
  (k .spaceFull).woken.card + (k .spaceEmpty).woken.card

/-- Thread `t` is asleep and goes on although nobody has woken it. -/
def Spurious (s : Queue T) : Label T → Prop
  | .segment t h c _ => s.calls t = some ⟨h, c, .waiting⟩ ∧ t ∉ (s.conds c.cond).woken
  | _ => False

omit [DecidableEq T] in
theorem wokenCount_update (k : Cond → CondVar T) (cv : Cond) (v : CondVar T) :
    wokenCount (Function.update k cv v) + (k cv).woken.card = wokenCount k + v.woken.card := by
  cases cv with
  | spaceFull =>
      simp only [wokenCount, Function.update_self,
        Function.update_of_ne (by decide : Cond.spaceEmpty ≠ .spaceFull)]
      omega
  | spaceEmpty =>
      simp only [wokenCount, Function.update_self,
        Function.update_of_ne (by decide : Cond.spaceFull ≠ .spaceEmpty)]
      omega

theorem signal_woken_le {c v : CondVar T} (h : CondVar.Signal c v) :
    v.woken.card ≤ c.woken.card + 1 := by
  cases h with
  | one h => exact Finset.card_insert_le _ _
  | none h => exact Nat.le_succ _

/-- Signals wake at most one thread each. -/
theorem wokenCount_signal {cv : Cond} {k k' : Cond → CondVar T}
    (h : Notified [.signal cv] k k') : wokenCount k' ≤ wokenCount k + 1 := by
  obtain ⟨v, hv, rfl⟩ := h.of_signal
  have hcount := wokenCount_update k cv v
  have hle := signal_woken_le hv
  omega

theorem wokenCount_resume {k : Cond → CondVar T} {cv : Cond} {t : T}
    (ht : t ∈ (k cv).woken) :
    wokenCount (Function.update k cv ((k cv).resume t)) + 1 = wokenCount k := by
  have hcount := wokenCount_update k cv ((k cv).resume t)
  have herase : ((k cv).resume t).woken.card + 1 = (k cv).woken.card :=
    Finset.card_erase_add_one ht
  omega

theorem wokenCount_resume_le (k : Cond → CondVar T) (cv : Cond) (t : T) :
    wokenCount (Function.update k cv ((k cv).resume t)) ≤ wokenCount k := by
  have hcount := wokenCount_update k cv ((k cv).resume t)
  have herase : ((k cv).resume t).woken.card ≤ (k cv).woken.card :=
    Finset.card_le_card (Finset.erase_subset _ _)
  omega

theorem wokenCount_condsAfter (t : T) (k : Cond → CondVar T) (next : Next) :
    wokenCount (condsAfter t k next) = wokenCount k := by
  cases next with
  | ret value errno => rfl
  | drain msgHead => rfl
  | wait cv =>
      have hcount := wokenCount_update k cv ((k cv).sleep t)
      have hsame : ((k cv).sleep t).woken.card = (k cv).woken.card := rfl
      simp only [condsAfter]
      omega

/-- Every list of notifications has an outcome. -/
theorem Notified.total (ns : List Notify) (k : Cond → CondVar T) : ∃ k', Notified ns k k' := by
  induction ns generalizing k with
  | nil => exact ⟨k, .nil k⟩
  | cons n ns ih =>
      cases n with
      | broadcast cv =>
          obtain ⟨k', hk'⟩ := ih (Function.update k cv (k cv).broadcast)
          exact ⟨k', .broadcast hk'⟩
      | signal cv =>
          rcases Finset.eq_empty_or_nonempty (k cv).asleep with hempty | ⟨t, ht⟩
          · obtain ⟨k', hk'⟩ := ih (Function.update k cv (k cv))
            exact ⟨k', .signal (.none hempty) hk'⟩
          · obtain ⟨k', hk'⟩ := ih (Function.update k cv
              ⟨(k cv).asleep.erase t, insert t (k cv).woken⟩)
            exact ⟨k', .signal (.one ht) hk'⟩

/-! ## What blocking calls do -/

/-- A write of `length` bytes through `h` passes its checks and blocks for room. -/
structure Writable (s : Queue T) (h : HandleId) (length : UInt64) : Prop where
  flag : hasAny (s.flags h) msgQueueWriter = true
  blocks : hasAny (s.flags h) msgQueueNonblock = false
  fits : length.toNat + 8 < 2 ^ 64
  admitted : ∀ mq, s.mq = some mq → Admitted mq length

/-- A read of `length` bytes through `h` blocks for a message, and every message fits. -/
structure Readable (s : Queue T) (ms : List (List UInt8)) (h : HandleId) (length : UInt64) :
    Prop where
  flag : hasAny (s.flags h) msgQueueReader = true
  blocks : hasAny (s.flags h) msgQueueNonblock = false
  fits : ∀ m ∈ ms, m.length ≤ length.toNat

/-- What a segment of a blocking write does to the messages. -/
inductive Puts (ms : List (List UInt8)) (buffer : List UInt8) :
    Segment Empty → List (List UInt8) → Prop
  | waits {seg} (next : seg.next = .wait .spaceFull) (notify : seg.notify = []) :
      Puts ms buffer seg ms
  | puts {seg} (next : seg.next = .ret 0 none) (notify : seg.notify = [.signal .spaceEmpty]) :
      Puts ms buffer seg (ms ++ [buffer])

/-- What a segment of a blocking read does to the messages. -/
inductive Gets (s : Queue T) : List (List UInt8) → Segment Empty → List (List UInt8) → Prop
  | waits {seg} (next : seg.next = .wait .spaceEmpty) (notify : seg.notify = []) :
      Gets s [] seg []
  | gets {m ms seg} (next : seg.next = .ret m.length none) (stored : seg.stored = m)
      (notify : seg.notify = [.signal .spaceFull]) : Gets s (m :: ms) seg ms
  | ends {seg} (next : seg.next = .ret 0 none) (notify : seg.notify = [])
      (closed : ∀ mq, s.mq = some mq → mq.noWriters = true) : Gets s [] seg []

variable [Build] {s s' : Queue T} {ms : List (List UInt8)} {mq : MqBackend Empty} {t : T}
  {h : HandleId} {c : Call} {seg : Segment Empty}

/-! ## One segment of a blocking call -/

/-- A segment makes at most as many wake-ups as it sends signals, and uses up the
wake-up of its thread if the thread was waiting and goes on because of it. -/
theorem Step.wokenCount_le (hstep : Step s (.segment t h c seg) s') (hi : Idle s)
    (hsig : seg.notify = [] ∨ ∃ cv, seg.notify = [.signal cv]) :
    wokenCount s'.conds ≤ wokenCount s.conds + seg.notify.length ∧
      (s.calls t ≠ none → ¬ Spurious s (.segment t h c seg) →
        wokenCount s'.conds + 1 ≤ wokenCount s.conds + seg.notify.length) := by
  have hnotified {k k' : Cond → CondVar T} (hn : Notified seg.notify k k') :
      wokenCount k' ≤ wokenCount k + seg.notify.length := by
    rcases hsig with hnil | ⟨cv, hcv⟩
    · rw [hnil] at hn ⊢
      rw [hn.of_nil]
      exact Nat.le_add_right _ _
    · rw [hcv] at hn ⊢
      exact wokenCount_signal hn
  cases hstep with
  | @segment mq _ _ _ _ k k' ha hmq hb hn =>
      have hle := hnotified hn
      have hafter : wokenCount (s.finish t h c seg k').conds = wokenCount k' :=
        wokenCount_condsAfter t k' seg.next
      rw [hafter]
      generalize hr : (Except.ok seg : Except Fault (Segment Empty)) = r at hb
      cases hb with
      | first hc hh hp => exact ⟨hle, fun hne => absurd hc hne⟩
      | resume hc =>
          have hless := wokenCount_resume_le s.conds c.cond t
          refine ⟨by omega, fun _ hreal => ?_⟩
          have hwoken : t ∈ (s.conds c.cond).woken := by
            by_contra hnot
            exact hreal ⟨hc, hnot⟩
          have hresume := wokenCount_resume hwoken
          omega
      | drain hc => exact absurd hc (hi _ _ _ _)

/-- What is known after a segment of a blocking write. -/
theorem Step.write_puts (hstep : Step s (.segment t h (.write buffer length) seg) s')
    (hs : Sound s ms) (hi : Idle s) (hw : Writable s h length) :
    ∃ ms', Sound s' ms' ∧ Outcome s ms (.segment t h (.write buffer length) seg) s' ms' ∧
      Puts ms buffer seg ms' := by
  obtain ⟨ms', hs', ho⟩ := hs.step (l := .segment t h (.write buffer length) seg) hw.fits hstep
  refine ⟨ms', hs', ho, ?_⟩
  have heffect {mq} (he : Effect mq ms (s.flags h) (.write buffer length) seg ms') :
      Puts ms buffer seg ms' := by
    cases he with
    | writeSleeps hfree => exact .waits rfl rfl
    | writePuts hfree hf hsame notify ringOk next =>
        rw [hw.blocks] at next
        exact .puts next notify
  obtain ⟨mq, k, hmq, hb⟩ := hstep.begins
  cases ho with
  | refused hmq' hc hbuf hsame hv hzero =>
      generalize hr : (Except.ok _ : Except Fault (Segment Empty)) = r at hb
      cases hb with
      | first hc' hh hp =>
          -- A call whose checks pass is not refused: it comes to its wait loop.
          rcases msgQueueWrite_cases hr.symm with ⟨e, -, hno⟩ | ⟨-, -, hloop⟩
          · exact absurd ⟨hw.flag, hw.admitted mq hmq⟩ hno
          · generalize hseg : Segment.quiet _ (.ret _ _) = seg at hloop
            cases writeLoop_goes hloop with
            | sleeps => cases hseg
            | puts hfree hr hno =>
                rw [← hseg] at hno
                cases hno
      | resume hc' => cases hc.symm.trans hc'
      | drain hc' => cases hc.symm.trans hc'
  | first hmq' hc hp hst hn he => exact heffect he
  | resume hmq' hc hp hst hn he => exact heffect he
  | drain hmq' hc hn hd => exact absurd hc (hi _ _ _ _)

omit [DecidableEq T] in
/-- A blocking read that finds no message and returns has found no writer. -/
theorem readLoop_ends {mq' : MqBackend Empty} {flags : CInt} {length msgHead : UInt64}
    {value : Int} {errno : Option Errno} (hf : Framed mq [])
    (hblocks : hasAny flags msgQueueNonblock = false)
    (hrun : readLoop mq flags length msgHead = .ok (.quiet mq' (.ret value errno))) :
    mq.noWriters = true ∧ value = 0 ∧ errno = none := by
  have hzero : (ringBufferUsed mq.buffer == 0) = true := hf.rep.used_eq_zero
  cases hw : mq.noWriters with
  | false => simp [readLoop, hw, hzero, hblocks, Segment.quiet] at hrun
  | true =>
      simp [readLoop, readAfterWait, hw, hzero, pure, Except.pure, Segment.quiet] at hrun
      exact ⟨rfl, hrun.2.1.symm, hrun.2.2.symm⟩

/-- What is known after a segment of a blocking read. -/
theorem Step.read_gets (hstep : Step s (.segment t h (.read length msgHead) seg) s')
    (hs : Sound s ms) (hi : Idle s) (hr : Readable s ms h length) :
    ∃ ms', Sound s' ms' ∧ Outcome s ms (.segment t h (.read length msgHead) seg) s' ms' ∧
      Gets s ms seg ms' := by
  obtain ⟨ms', hs', ho⟩ := hs.step (l := .segment t h (.read length msgHead) seg) trivial hstep
  refine ⟨ms', hs', ho, ?_⟩
  obtain ⟨mq, k, hmq, hb⟩ := hstep.begins
  have hf := hs.framed mq hmq
  have hends {mq' : MqBackend Empty} {value : Int} {errno : Option Errno} (hm : ms = [])
      (hseg : seg = .quiet mq' (.ret value errno)) :
      Gets s ms seg ms := by
    subst hm hseg
    have hclosed (hw : mq.noWriters = true) : ∀ mq, s.mq = some mq → mq.noWriters = true := by
      rintro _ hmq'
      obtain rfl := Option.some.inj (hmq.symm.trans hmq')
      exact hw
    generalize hrun : (Except.ok _ : Except Fault (Segment Empty)) = r at hb
    cases hb with
    | first hc hh hp =>
        rcases msgQueueRead_cases hrun.symm with ⟨hno, -⟩ | ⟨hw, -, hseg⟩ | ⟨-, hloop⟩
        · rw [hr.flag] at hno
          cases hno
        · exact .ends (congrArg Segment.next hseg) rfl (hclosed hw)
        · obtain ⟨hw, rfl, rfl⟩ := readLoop_ends hf hr.blocks hloop
          exact .ends rfl rfl (hclosed hw)
    | resume hc =>
        obtain ⟨hw, rfl, rfl⟩ := readLoop_ends hf hr.blocks hrun.symm
        exact .ends rfl rfl (hclosed hw)
    | drain hc => exact absurd hc (hi _ _ _ _)
  have heffect {mq} (he : Effect mq ms (s.flags h) (.read length msgHead) seg ms') :
      Gets s ms seg ms' := by
    cases he with
    | readEmpty hm hbuf hsame hv => exact hends hm rfl
    | readSleeps hm hw =>
        subst hm
        exact .waits rfl rfl
    | readTooSmall hm hlt hn =>
        have := hr.fits _ (hm ▸ List.mem_cons_self)
        omega
    | readTakes hm hf hsame stored notify ringOk next =>
        subst hm
        exact .gets next stored notify
  cases ho with
  | refused hmq' hc hbuf hsame hv hzero =>
      generalize hrun : (Except.ok _ : Except Fault (Segment Empty)) = r at hb
      cases hb with
      | first hc' hh hp =>
          have hempty : ms = [] := by
            rcases msgQueueRead_cases hrun.symm with ⟨hno, -⟩ | ⟨-, hu, -⟩ | ⟨-, hloop⟩
            · rw [hr.flag] at hno
              cases hno
            · have hzero := hf.rep.used_eq_zero
              rw [hu] at hzero
              exact (frames_eq_nil_iff (by decide)).mp (List.isEmpty_iff.mp hzero.symm)
            · cases ms with
              | nil => rfl
              | cons m rest =>
                  obtain ⟨seg', ms'', hloop', he⟩ := readLoop_effect hf (s.flags h) length msgHead
                  obtain rfl := Except.ok.inj (hloop.symm.trans hloop')
                  generalize hseg : Segment.quiet _ (.ret _ _) = seg'' at he
                  cases he with
                  | readEmpty hm => cases hm
                  | readSleeps hm => cases hm
                  | readTooSmall hm hlt hn => cases hseg
                  | readTakes hm hf' hsame' stored notify =>
                      rw [← hseg] at notify
                      cases notify
          exact hends hempty rfl
      | resume hc' => cases hc.symm.trans hc'
      | drain hc' => cases hc.symm.trans hc'
  | first hmq' hc hp hst hn he => exact heffect he
  | resume hmq' hc hp hst hn he => exact heffect he
  | drain hmq' hc hn hd => exact absurd hc (hi _ _ _ _)

/-- A read whose buffer holds every message finds the next one short enough. -/
theorem Readable.buffersFit (hr : Readable s ms h length) (hs : Sound s ms) :
    BuffersFit s (.segment t h (.read length msgHead) seg) := by
  intro _ mq hmq
  have hf := hs.framed mq hmq
  cases ms with
  | nil => exact readFits_of_empty hf length
  | cons m rest => exact readFits_cons hf (hr.fits m List.mem_cons_self)

/-! ## What stays -/

/-- A segment changes the call of its own thread only. -/
theorem Step.segment_frame (hstep : Step s (.segment t h c seg) s') :
    s'.handles = s.handles ∧ s'.flags = s.flags ∧ s'.mq = some seg.mq ∧
      (∀ u, u ≠ t → s'.calls u = s.calls u) ∧ s'.calls t = pendingAfter h c seg.next := by
  cases hstep with
  | segment ha hmq hb hn =>
      exact ⟨rfl, rfl, rfl, fun u hu => Function.update_of_ne hu _ _, Function.update_self _ _ _⟩

/-- A segment leaves the handle counts of the backend alone. -/
theorem Outcome.sameHandles {ms' : List (List UInt8)}
    (ho : Outcome s ms (.segment t h c seg) s' ms') :
    ∃ mq, s.mq = some mq ∧ SameHandles mq seg.mq := by
  cases ho with
  | refused hmq hc hb hs hv hzero => exact ⟨_, hmq, hs⟩
  | first hmq hc hp hst hn he => exact ⟨_, hmq, he.sameHandles⟩
  | resume hmq hc hp hst hn he => exact ⟨_, hmq, he.sameHandles⟩
  | drain hmq hc hn hd => exact ⟨_, hmq, hd.sameHandles⟩

/-- A close moves no message and changes no call. -/
theorem Outcome.close_frame {ms' : List (List UInt8)} (ho : Outcome s ms (.close h) s' ms') :
    ms' = ms ∧ s'.handles = s.handles.erase h ∧ s'.flags = s.flags ∧ s'.calls = s.calls ∧
      ∀ mq', s'.mq = some mq' →
        ∃ mq ns, s.mq = some mq ∧ Closed mq (s.flags h) mq' ns := by
  cases ho with
  | @close mq mq' h ns k' hmq hc hn =>
      refine ⟨rfl, rfl, rfl, rfl, ?_⟩
      rintro _ ⟨⟩
      exact ⟨mq, ns, hmq, hc⟩
  | destroy hlast => exact ⟨rfl, rfl, rfl, rfl, by rintro _ ⟨⟩⟩

theorem Outcome.open_frame {new : HandleId} {flags : CInt} {ms' : List (List UInt8)}
    (ho : Outcome s ms (.open h new flags) s' ms') : ms' = ms := by
  cases ho <;> rfl

/-- A call with fitting lengths does not fault in a sound queue. -/
theorem Sound.not_abort (hs : Sound s ms) (hfit : Call.LengthFits c) :
    ¬ Step s (.abort t h c) s' := by
  intro hstep
  obtain ⟨ms', -, ho⟩ := hs.step (l := .abort t h c) hfit hstep
  cases ho

/-! ## Steps that are possible -/

/-- A sound queue with an open handle exists. -/
theorem Sound.backend (hs : Sound s ms) (hh : h ∈ s.handles) : ∃ mq, s.mq = some mq := by
  cases hmq : s.mq with
  | none =>
      rw [hs.alive hmq] at hh
      cases hh
  | some mq => exact ⟨mq, rfl⟩

/-- A thread that is not in a call can start one. -/
theorem Sound.exists_first (hs : Sound s ms) (hc : s.calls t = none) (hh : h ∈ s.handles)
    (hp : c.WellPassed) (hfit : Call.LengthFits c) :
    ∃ seg s', Step s (.segment t h c seg) s' := by
  obtain ⟨mq, hmq⟩ := hs.backend hh
  obtain ⟨seg, ms', hrun, -⟩ := hs.first_effect hmq (s.flags h) hp hfit
  obtain ⟨k', hn⟩ := Notified.total seg.notify s.conds
  exact ⟨seg, _, .first hs.running hmq hc hh hp hrun hn⟩

/-- A waiting thread can go on. -/
theorem Sound.exists_resume (hs : Sound s ms) (hc : s.calls t = some ⟨h, c, .waiting⟩)
    (hfit : Call.LengthFits c) : ∃ seg s', Step s (.segment t h c seg) s' := by
  obtain ⟨mq, hmq⟩ := hs.backend (hs.monitored.inUse t _ hc)
  obtain ⟨seg, ms', hrun, -⟩ := hs.loop_effect hmq (hs.monitored.started t _ hc)
    (hs.monitored.passed t _ hc) hfit
  obtain ⟨k', hn⟩ := Notified.total seg.notify
    (Function.update s.conds c.cond ((s.conds c.cond).resume t))
  exact ⟨seg, _, .resume hs.running hmq hc hrun hn⟩

/-- A handle that no call uses can be closed. -/
theorem Sound.exists_close (hs : Sound s ms) (hh : h ∈ s.handles)
    (hfree : ∀ t p, s.calls t = some p → p.handle ≠ h) : ∃ s', Step s (.close h) s' := by
  obtain ⟨mq, hmq⟩ := hs.backend hh
  rcases msgQueueClose_counted (hs.counted mq hmq) hh with
    ⟨-, hrun⟩ | ⟨-, mq', ns, hrun, -, -⟩
  · exact ⟨_, .close hs.running hmq hh hfree hrun (.nil _)⟩
  · obtain ⟨k', hn⟩ := Notified.total ns s.conds
    exact ⟨_, .close hs.running hmq hh hfree hrun hn⟩

end UoftOs.MsgQueue.Queue
