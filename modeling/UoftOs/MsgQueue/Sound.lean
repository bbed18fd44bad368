import UoftOs.MsgQueue.Framing
import UoftOs.MsgQueue.MonitorInv

/-!
# Whole messages in every state

When no frame length overflows, the ring holds whole frames in every state of
every run. `Outcome` lists what a step does to such a queue; what runs keep is
then proved by cases on it.
-/

namespace UoftOs.MsgQueue.Queue

open Lib Lib.Frames Lib.Transition

variable {T : Type} [DecidableEq T]

/-- The frame of a written message has a length. -/
def Call.LengthFits : Call → Prop
  | .read .. => True
  | .write _ length => length.toNat + 8 < 2 ^ 64

/-- No frame length in the step overflows. -/
def LengthsFit (_ : Queue T) : Label T → Prop
  | .segment _ _ c _ => Call.LengthFits c
  | .abort _ _ c => Call.LengthFits c
  | .open .. => True
  | .close _ => True

/-- The buffer of a read through a reader handle holds the message it takes. -/
def BuffersFit (s : Queue T) : Label T → Prop
  | .segment _ h (.read length _) _ =>
      hasAny (s.flags h) msgQueueReader = true → ∀ mq, s.mq = some mq → ReadFits mq length
  | _ => True

/-- No read goes on without the mutex. -/
def Idle (s : Queue T) : Prop := ∀ t h c msgHead, s.calls t ≠ some ⟨h, c, .draining msgHead⟩

/-- The state of the queue while it holds the messages `ms`. -/
structure Sound [Build] (s : Queue T) (ms : List (List UInt8)) : Prop where
  running : s.aborted = false
  monitored : Monitored s
  draining : ∀ t h c msgHead, s.calls t = some ⟨h, c, .draining msgHead⟩ → msgHead ≠ 0
  alive : s.mq = none → s.handles = ∅
  counted : ∀ mq, s.mq = some mq → Counted mq s.handles s.flags
  framed : ∀ mq, s.mq = some mq → Framed mq ms

/-- What a step does to a queue that holds the messages `ms`, with the messages
it holds afterwards. -/
inductive Outcome [Build] (s : Queue T) (ms : List (List UInt8)) :
    Label T → Queue T → List (List UInt8) → Prop
  | refused {mq mq' t h c value errno} (hmq : s.mq = some mq) (hc : s.calls t = none)
      (hb : mq'.buffer = mq.buffer) (hs : SameHandles mq mq') (hv : value ≤ 0)
      (hzero : ∀ buffer length, c = .write buffer length → value ≠ 0) :
      Outcome s ms (.segment t h c (.quiet mq' (.ret value errno)))
        (s.finish t h c (.quiet mq' (.ret value errno)) s.conds) ms
  | first {mq t h c seg k' ms'} (hmq : s.mq = some mq) (hc : s.calls t = none)
      (hp : c.WellPassed) (hst : c.Started (s.flags h)) (hn : Notified seg.notify s.conds k')
      (he : Effect mq ms (s.flags h) c seg ms') :
      Outcome s ms (.segment t h c seg) (s.finish t h c seg k') ms'
  | resume {mq t h c seg k' ms'} (hmq : s.mq = some mq)
      (hc : s.calls t = some ⟨h, c, .waiting⟩) (hp : c.WellPassed) (hst : c.Started (s.flags h))
      (hn : Notified seg.notify
        (Function.update s.conds c.cond ((s.conds c.cond).resume t)) k')
      (he : Effect mq ms (s.flags h) c seg ms') :
      Outcome s ms (.segment t h c seg) (s.finish t h c seg k') ms'
  | drain {mq t h c seg msgHead k' ms'} (hmq : s.mq = some mq)
      (hc : s.calls t = some ⟨h, c, .draining msgHead⟩) (hn : Notified seg.notify s.conds k')
      (hd : Drained mq ms seg ms') :
      Outcome s ms (.segment t h c seg) (s.finish t h c seg k') ms'
  | openRefused {h new flags} : Outcome s ms (.open h new flags) s ms
  | open {mq h new flags} (hmq : s.mq = some mq) :
      Outcome s ms (.open h new flags) { s with
        mq := some (mqOpen mq flags), handles := insert new s.handles,
        flags := Function.update s.flags new flags } ms
  | close {mq mq' h ns k'} (hmq : s.mq = some mq) (hc : Closed mq (s.flags h) mq' ns)
      (hn : Notified ns s.conds k') :
      Outcome s ms (.close h)
        { s with mq := some mq', handles := s.handles.erase h, conds := k' } ms
  | destroy {h} (hlast : s.handles.erase h = ∅) :
      Outcome s ms (.close h) { s with mq := none, handles := s.handles.erase h } ms

variable [Build] {s : Queue T} {ms : List (List UInt8)} {mq : MqBackend Empty}

/-- A first segment of a call whose length fits returns, waits or drains. -/
theorem Sound.first_effect (hs : Sound s ms) (hmq : s.mq = some mq) {c : Call} (flags : CInt)
    (hp : c.WellPassed) (hfit : Call.LengthFits c) :
    ∃ seg ms', c.first mq flags = .ok seg ∧ FirstEffect mq ms flags c seg ms' := by
  have hf := hs.framed mq hmq
  cases c with
  | read length msgHead => exact msgQueueRead_effect hf length msgHead
  | write buffer length => exact msgQueueWrite_effect hf hp hfit

theorem Sound.loop_effect (hs : Sound s ms) (hmq : s.mq = some mq) {c : Call} {flags : CInt}
    (hst : c.Started flags) (hp : c.WellPassed) (hfit : Call.LengthFits c) :
    ∃ seg ms', c.loop mq flags = .ok seg ∧ Effect mq ms flags c seg ms' := by
  have hf := hs.framed mq hmq
  cases c with
  | read length msgHead => exact readLoop_effect hf flags length msgHead
  | write buffer length => exact writeLoop_effect hf flags hst.2 hp hfit

/-- A segment of a call that fits does not fault and has a listed outcome. -/
theorem Begins.outcome {t : T} {h : HandleId} {c : Call} {r : Except Fault (Segment Empty)}
    {k : Cond → CondVar T} (hb : Begins s mq t h c r k) (hs : Sound s ms) (hmq : s.mq = some mq)
    (hfit : Call.LengthFits c) :
    ∃ seg ms', r = .ok seg ∧ Framed seg.mq ms' ∧ SameHandles mq seg.mq ∧
      (∀ msgHead, seg.next = .drain msgHead → msgHead ≠ 0) ∧
      ∀ k', Notified seg.notify k k' →
        Outcome s ms (.segment t h c seg) (s.finish t h c seg k') ms' := by
  have hf := hs.framed mq hmq
  have hdrain {seg ms'} (he : Effect mq ms (s.flags h) c seg ms') (msgHead : UInt64)
      (hn : seg.next = .drain msgHead) : msgHead ≠ 0 := by
    rintro rfl
    obtain ⟨length, m₀, m, rest, -, -, hlt, hlen⟩ := he.drain hn
    rw [← hlen] at hlt
    exact Nat.not_lt_zero _ hlt
  cases hb with
  | first hc hh hp =>
      obtain ⟨seg, ms', hrun, he⟩ := hs.first_effect hmq (s.flags h) hp hfit
      cases he with
      | refused hbuf hsame hv hzero =>
          refine ⟨_, ms, hrun, ⟨hbuf ▸ hf.rep, hf.nonempty⟩, hsame, by simp [Segment.quiet], ?_⟩
          intro k' hn
          obtain rfl := hn.of_nil
          exact Outcome.refused hmq hc hbuf hsame hv hzero
      | enters hst he =>
          exact ⟨seg, ms', hrun, he.framed hf, he.sameHandles, hdrain he,
            fun k' hn => Outcome.first hmq hc hp hst hn he⟩
  | resume hc =>
      have hst := hs.monitored.started t _ hc
      have hp := hs.monitored.passed t _ hc
      obtain ⟨seg, ms', hrun, he⟩ := hs.loop_effect hmq hst hp hfit
      exact ⟨seg, ms', hrun, he.framed hf, he.sameHandles, hdrain he,
        fun k' hn => Outcome.resume hmq hc hp hst hn he⟩
  | @drain msgHead hc =>
      obtain ⟨seg, ms', hrun, hd⟩ := readDrain_drained hf (hs.draining t h c msgHead hc)
      refine ⟨seg, ms', hrun, hd.framed hf, hd.sameHandles, fun m hn => ?_,
        fun k' hn => Outcome.drain hmq hc hn hd⟩
      obtain ⟨⟨value, hv⟩, -⟩ := readDrain_next hrun
      rw [hv] at hn
      cases hn

/-- A thread that has run a segment leaves the queue sound. -/
theorem Sound.finish (hs : Sound s ms) (hmq : s.mq = some mq) {t : T} {h : HandleId} {c : Call}
    {seg : Segment Empty} {k k' : Cond → CondVar T} (hb : Begins s mq t h c (.ok seg) k)
    (hn : Notified seg.notify k k') {ms' : List (List UInt8)} (hf : Framed seg.mq ms')
    (hsame : SameHandles mq seg.mq)
    (hdrain : ∀ msgHead, seg.next = .drain msgHead → msgHead ≠ 0) :
    Sound (s.finish t h c seg k') ms' where
  running := hs.running
  monitored := finish_monitored hb hn hs.monitored
  draining u h' c' msgHead hu := by
    by_cases hut : u = t
    · subst hut
      simp only [Queue.finish, Function.update_self] at hu
      cases hnext : seg.next with
      | ret value errno => simp [pendingAfter, hnext] at hu
      | wait cv => simp [pendingAfter, hnext] at hu
      | drain m =>
          simp [pendingAfter, hnext] at hu
          exact hu.2.2 ▸ hdrain m hnext
    · simp only [Queue.finish, Function.update_of_ne hut] at hu
      exact hs.draining u h' c' msgHead hu
  alive hnone := by cases hnone
  counted mq' hmq' := by
    obtain rfl := Option.some.inj hmq'
    have hc := hs.counted mq hmq
    exact ⟨hsame.refs.trans hc.refs, hsame.readers.trans hc.readers,
      hsame.writers.trans hc.writers⟩
  framed mq' hmq' := by
    obtain rfl := Option.some.inj hmq'
    exact hf

/-- The step rule: a fitting step keeps the queue sound and has a listed outcome. -/
theorem Sound.step (hs : Sound s ms) {l : Label T} {s' : Queue T} (hfit : LengthsFit s l)
    (hstep : Step s l s') : ∃ ms', Sound s' ms' ∧ Outcome s ms l s' ms' := by
  have hmon := step_monitored hs.monitored hstep
  cases hstep with
  | segment ha hmq hb hn =>
      obtain ⟨seg, ms', hseg, hf, hsame, hdrain, ho⟩ := hb.outcome hs hmq hfit
      obtain rfl := Except.ok.inj hseg
      exact ⟨ms', hs.finish hmq hb hn hf hsame hdrain, ho _ hn⟩
  | abort ha hmq hb =>
      obtain ⟨seg, ms', hseg, -⟩ := hb.outcome hs hmq hfit
      cases hseg
  | openRefused ha hmq hh ho => exact ⟨ms, hs, Outcome.openRefused⟩
  | @«open» mq mq' h new flags ha hmq hh hnew ho =>
      obtain rfl : mqOpen mq flags = mq' := by
        unfold msgQueueOpen at ho
        split at ho
        · cases ho
        · exact Except.ok.inj ho
      refine ⟨ms, ⟨ha, hmon, hs.draining, ?_, ?_, ?_⟩, Outcome.open hmq⟩
      · intro hnone
        cases hnone
      · rintro _ ⟨⟩
        exact (hs.counted mq hmq).open hnew flags
      · rintro _ ⟨⟩
        have hf := hs.framed mq hmq
        exact ⟨by rw [mqOpen_buffer]; exact hf.rep, hf.nonempty⟩
  | @close mq mq' h ns k' ha hmq hh hfree hc hn =>
      rcases msgQueueClose_counted (hs.counted mq hmq) hh with
        ⟨hlast, hrun⟩ | ⟨hleft, mq₁, ns₁, hrun, hcount, hclosed⟩
      · obtain ⟨rfl, rfl⟩ := Prod.mk.inj (Except.ok.inj (hc.symm.trans hrun))
        obtain rfl := hn.of_nil
        refine ⟨ms, ⟨ha, hmon, hs.draining, fun _ => hlast, ?_, ?_⟩, Outcome.destroy hlast⟩
        · intro mq' hmq'
          cases hmq'
        · intro mq' hmq'
          cases hmq'
      · obtain ⟨rfl, rfl⟩ := Prod.mk.inj (Except.ok.inj (hc.symm.trans hrun))
        refine ⟨ms, ⟨ha, hmon, hs.draining, ?_, ?_, ?_⟩, Outcome.close hmq hclosed hn⟩
        · intro hnone
          cases hnone
        · rintro _ ⟨⟩
          exact hcount
        · rintro _ ⟨⟩
          have hf := hs.framed mq hmq
          exact ⟨hclosed.buffer ▸ hf.rep, hf.nonempty⟩
  | closeAbort ha hmq hh hfree hc =>
      rcases msgQueueClose_counted (hs.counted _ hmq) hh with ⟨-, hrun⟩ | ⟨-, _, _, hrun, -, -⟩
      · exact absurd (hc.symm.trans hrun) (by simp)
      · exact absurd (hc.symm.trans hrun) (by simp)

/-- What `msg_queue_create` hands out is an empty ring with one handle. -/
theorem created_sound (h : IsCreated s) : Sound s [] := by
  obtain ⟨block, answer, capacity, flags, mq, hcreate, rfl⟩ := h
  obtain ⟨buffer, stale, hrep, -, -, rfl⟩ := msgQueueCreate_ok hcreate
  refine ⟨rfl, created_monitored _ _, ?_, ?_, ?_, ?_⟩
  · simp [created]
  · simp [created]
  · rintro _ ⟨⟩
    constructor <;> simp [created, openWith_card_single]
  · rintro _ ⟨⟩
    exact ⟨by rw [mqOpen_buffer]; exact hrep, by simp⟩

omit [DecidableEq T] in
theorem created_idle (h : IsCreated s) : Idle s := by
  obtain ⟨block, answer, capacity, flags, mq, -, rfl⟩ := h
  simp [Idle, created]

omit [Build] in
/-- A segment that is no drain's beginning keeps the queue idle. -/
theorem Idle.finish (hi : Idle s) {t : T} {h : HandleId} {c : Call} {seg : Segment Empty}
    {k' : Cond → CondVar T} (hnot : ∀ n, seg.next ≠ .drain n) : Idle (s.finish t h c seg k') := by
  intro u h' c' msgHead hu
  by_cases hut : u = t
  · subst hut
    simp only [Queue.finish, Function.update_self] at hu
    cases hnext : seg.next with
    | ret value errno => simp [pendingAfter, hnext] at hu
    | wait cv => simp [pendingAfter, hnext] at hu
    | drain n => exact hnot n hnext
  · simp only [Queue.finish, Function.update_of_ne hut] at hu
    exact hi u h' c' msgHead hu

/-- When buffers fit, no segment releases the mutex early. -/
theorem Idle.step (hi : Idle s) (hs : Sound s ms) {l : Label T} {s' : Queue T}
    {ms' : List (List UInt8)} (ho : Outcome s ms l s' ms') (hb : BuffersFit s l) : Idle s' := by
  have hfits {mq t h c seg ms'} (hmq : s.mq = some mq) (hst : c.Started (s.flags h))
      (he : Effect mq ms (s.flags h) c seg ms') (hb : BuffersFit s (.segment t h c seg)) (n) :
      seg.next ≠ .drain n := by
    intro hnext
    obtain ⟨length, m₀, m, rest, rfl, rfl, hlt, -⟩ := he.drain hnext
    have := hb hst mq hmq m rest (hs.framed mq hmq).rep.held
    omega
  cases ho with
  | refused hmq hc hbuf hsame hv hzero => exact hi.finish (by simp [Segment.quiet])
  | first hmq hc hp hst hn he => exact hi.finish (hfits hmq hst he hb)
  | resume hmq hc hp hst hn he => exact hi.finish (hfits hmq hst he hb)
  | drain hmq hc hn hd => exact absurd hc (hi _ _ _ _)
  | openRefused => exact hi
  | «open» hmq => exact hi
  | close hmq hc hn => exact hi
  | destroy hlast => exact hi

end UoftOs.MsgQueue.Queue
