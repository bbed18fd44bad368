import UoftOs.MsgQueue.Monitor
import UoftOs.MsgQueue.RingBufferSpec

/-!
# What every run of the monitor keeps

`Outline` lists what any segment can do to the monitor, whatever the ring holds.
From it, the waiting calls and the waiters of the condition variables agree in
every state of every run, and calls in progress use open handles.
-/

namespace UoftOs.MsgQueue

open Lib Lib.Transition

section Outline
variable [Build] {N : Type}

/-- What a segment of a call can do to the monitor. -/
inductive Outline (mq : MqBackend N) : Call → Segment N → Prop
  | stays {c mq' next ringOk} (hb : mq'.buffer = mq.buffer) (hn : ∀ cv, next ≠ .wait cv) :
      Outline mq c { Segment.quiet mq' next with ringOk }
  | sleeps {c} : Outline mq c (.quiet mq (.wait c.cond))
  | drains {length msgHead m seg} (hrun : readDrain mq m = .ok seg) (ok : List Bool) :
      Outline mq (.read length msgHead) { seg with ringOk := ok }
  | puts {buffer length seg ok₁ ok₂ rb₁ rb₂}
      (hfree : ¬ ringBufferFree mq.buffer < length + sizeofSizeT)
      (hw₁ : ringBufferWrite mq.buffer (sizeBytes length) sizeofSizeT = .ok (ok₁, rb₁))
      (hw₂ : ringBufferWrite rb₁ buffer length = .ok (ok₂, rb₂))
      (hb : seg.mq.buffer = rb₂) (hno : seg.notify = [.signal .spaceEmpty])
      (hn : ∀ cv, seg.next ≠ .wait cv) : Outline mq (.write buffer length) seg

variable {mq : MqBackend N} {flags : CInt} {seg : Segment N}

theorem readDrain_next {m : UInt64} (h : readDrain mq m = .ok seg) :
    (∃ value, seg.next = .ret value none) ∧ seg.notify = [.signal .spaceFull] := by
  unfold readDrain at h
  obtain ⟨⟨header, rb₁⟩, -, h⟩ := except_bind_ok h
  obtain ⟨⟨body, rb₂⟩, -, h⟩ := except_bind_ok h
  simp only [pure, Except.pure, Except.ok.injEq] at h
  subst h
  exact ⟨⟨_, rfl⟩, rfl⟩

theorem readAfterWait_outline {length msgHead : UInt64}
    (h : readAfterWait mq length msgHead = .ok seg) : Outline mq (.read length msgHead) seg := by
  unfold readAfterWait at h
  split at h
  · simp only [pure, Except.pure, Except.ok.injEq] at h
    subst h
    have hbuffer : ({ mq with queueEvent := mq.queueEvent ||| mqpollNowriters } :
        MqBackend N).buffer = mq.buffer := rfl
    exact Outline.stays hbuffer (by simp)
  · obtain ⟨⟨header, rb⟩, -, h⟩ := except_bind_ok h
    dsimp only at h
    split at h
    · simp only [pure, Except.pure, Except.ok.injEq] at h
      subst h
      exact Outline.stays rfl (by simp)
    · obtain ⟨seg', hrun, h⟩ := except_bind_ok h
      simp only [pure, Except.pure, Except.ok.injEq] at h
      subst h
      exact Outline.drains hrun _

theorem readLoop_outline {length msgHead : UInt64}
    (h : readLoop mq flags length msgHead = .ok seg) : Outline mq (.read length msgHead) seg := by
  unfold readLoop at h
  split at h
  · split at h
    · simp only [Except.ok.injEq] at h
      subst h
      exact Outline.stays rfl (by simp)
    · simp only [Except.ok.injEq] at h
      subst h
      exact Outline.sleeps
  · exact readAfterWait_outline h

theorem writeLoop_outline {buffer : List UInt8} {length : UInt64}
    (h : writeLoop mq flags buffer length = .ok seg) : Outline mq (.write buffer length) seg := by
  unfold writeLoop at h
  split at h
  · simp only [pure, Except.pure, Except.ok.injEq] at h
    subst h
    exact Outline.sleeps
  · next hfree =>
      obtain ⟨⟨ok₁, rb₁⟩, hw₁, h⟩ := except_bind_ok h
      obtain ⟨⟨ok₂, rb₂⟩, hw₂, h⟩ := except_bind_ok h
      dsimp only at h hw₂
      split at h
      · simp only [pure, Except.pure, Except.ok.injEq] at h
        subst h
        exact Outline.puts hfree hw₁ hw₂ rfl rfl (by simp)
      · simp only [pure, Except.pure, Except.ok.injEq] at h
        subst h
        exact Outline.puts hfree hw₁ hw₂ (by simp [writeEvents]; split <;> rfl) rfl (by simp)

theorem Call.loop_outline {c : Call} (h : c.loop mq flags = .ok seg) : Outline mq c seg := by
  cases c with
  | read length msgHead => exact readLoop_outline h
  | write buffer length => exact writeLoop_outline h

theorem Call.first_outline {c : Call} (h : c.first mq flags = .ok seg) : Outline mq c seg := by
  cases c with
  | read length msgHead =>
      simp only [Call.first, msgQueueRead] at h
      split at h
      · obtain rfl := Except.ok.inj h
        exact Outline.stays rfl (by simp)
      · split at h
        · obtain rfl := Except.ok.inj h
          have hbuffer : ({ mq with queueEvent := mq.queueEvent ||| mqpollNowriters } :
              MqBackend N).buffer = mq.buffer := rfl
          exact Outline.stays hbuffer (by simp)
        · exact readLoop_outline h
  | write buffer length =>
      simp only [Call.first, msgQueueWrite] at h
      split at h
      · obtain rfl := Except.ok.inj h
        exact Outline.stays rfl (by simp)
      · split at h
        · obtain rfl := Except.ok.inj h
          exact Outline.stays rfl (by simp)
        · split at h
          · obtain rfl := Except.ok.inj h
            exact Outline.stays rfl (by simp)
          · split at h
            · obtain rfl := Except.ok.inj h
              exact Outline.stays rfl (by simp)
            · exact writeLoop_outline h

/-- A segment that waits waits on the condition variable of its call. -/
theorem Outline.wait_cond {c : Call} (h : Outline mq c seg) {cv : Cond}
    (hw : seg.next = .wait cv) : cv = c.cond := by
  cases h with
  | stays hb hn => exact absurd hw (hn cv)
  | sleeps => simpa [Segment.quiet, eq_comm] using hw
  | drains hrun ok =>
      obtain ⟨⟨value, hv⟩, -⟩ := readDrain_next hrun
      simp [hv] at hw
  | puts _ _ _ _ _ hn => exact absurd hw (hn cv)

theorem Call.first_started {c : Call} (h : c.first mq flags = .ok seg)
    (hn : ∀ value errno, seg.next ≠ .ret value errno) : c.Started flags := by
  have done {seg' : Segment N} {value errno} (he : Except.ok seg' = (.ok seg : Except Fault _))
      (hr : seg'.next = .ret value errno) : False :=
    hn value errno (Except.ok.inj he ▸ hr)
  cases c with
  | read length msgHead =>
      simp only [Call.first, msgQueueRead] at h
      split at h
      · exact (done h rfl).elim
      · next hf => simpa [Call.Started] using hf
  | write buffer length =>
      simp only [Call.first, msgQueueWrite] at h
      split at h
      · exact (done h rfl).elim
      · next hf =>
          split at h
          · exact (done h rfl).elim
          · next hl => exact ⟨by simpa using hf, by simpa using hl⟩

end Outline

namespace Queue
variable {T : Type} [DecidableEq T]

theorem Notified.waiters {ns : List Notify} {k k' : Cond → CondVar T} (h : Notified ns k k')
    (c : Cond) : (k' c).waiters = (k c).waiters := by
  induction h with
  | nil => rfl
  | @signal d ns k v k' hs _ ih =>
      rw [ih]
      by_cases hc : c = d
      · subst hc
        rw [Function.update_self, hs.waiters]
      · rw [Function.update_of_ne hc]
  | @broadcast d ns k k' _ ih =>
      rw [ih]
      by_cases hc : c = d
      · subst hc
        rw [Function.update_self, CondVar.broadcast_waiters]
      · rw [Function.update_of_ne hc]

theorem Notified.proper {ns : List Notify} {k k' : Cond → CondVar T} (h : Notified ns k k')
    (hk : ∀ c, (k c).Proper) (c : Cond) : (k' c).Proper := by
  induction h with
  | nil => exact hk c
  | @signal d ns k v k' hs _ ih =>
      apply ih
      intro e
      by_cases he : e = d
      · subst he
        rw [Function.update_self]
        exact hs.proper (hk e)
      · rw [Function.update_of_ne he]
        exact hk e
  | @broadcast d ns k k' _ ih =>
      apply ih
      intro e
      by_cases he : e = d
      · subst he
        rw [Function.update_self]
        exact CondVar.broadcast_proper
      · rw [Function.update_of_ne he]
        exact hk e

/-- A segment notifies at most its own two condition variables; the others stay. -/
theorem Notified.of_signal {c : Cond} {k k' : Cond → CondVar T}
    (h : Notified [.signal c] k k') :
    ∃ v, CondVar.Signal (k c) v ∧ k' = Function.update k c v := by
  cases h with
  | signal hs rest =>
      cases rest
      exact ⟨_, hs, rfl⟩

theorem Notified.of_nil {k k' : Cond → CondVar T} (h : Notified [] k k') : k' = k := by
  cases h
  rfl

theorem Notified.of_broadcast {c : Cond} {k k' : Cond → CondVar T}
    (h : Notified [.broadcast c] k k') : k' = Function.update k c (k c).broadcast := by
  cases h with
  | broadcast rest => exact rest.of_nil

/-- The notifications of a close wake all sleepers of each condition variable or none. -/
theorem Notified.of_close {full empty : Bool} {k k' : Cond → CondVar T}
    (h : Notified ((if full then [.broadcast .spaceFull] else []) ++
      if empty then [.broadcast .spaceEmpty] else []) k k') :
    k' .spaceFull = (if full then (k .spaceFull).broadcast else k .spaceFull) ∧
    k' .spaceEmpty = (if empty then (k .spaceEmpty).broadcast else k .spaceEmpty) := by
  cases full with
  | false =>
      cases empty with
      | false =>
          obtain rfl := h.of_nil
          exact ⟨rfl, rfl⟩
      | true =>
          obtain rfl := h.of_broadcast
          exact ⟨rfl, rfl⟩
  | true =>
      cases empty with
      | false =>
          obtain rfl := h.of_broadcast
          exact ⟨rfl, rfl⟩
      | true =>
          cases h with
          | broadcast rest =>
              obtain rfl := rest.of_broadcast
              exact ⟨rfl, rfl⟩

/-- The calls in progress and the condition variables agree. -/
structure Monitored (s : Queue T) : Prop where
  inUse : ∀ t p, s.calls t = some p → p.handle ∈ s.handles
  waits : ∀ cv t, t ∈ (s.conds cv).waiters ↔
    ∃ h c, s.calls t = some ⟨h, c, .waiting⟩ ∧ c.cond = cv
  proper : ∀ cv, (s.conds cv).Proper
  passed : ∀ t p, s.calls t = some p → p.call.WellPassed
  started : ∀ t p, s.calls t = some p → p.call.Started (s.flags p.handle)

theorem created_monitored (mq : MqBackend Empty) (flags : CInt) :
    Monitored (created mq flags : Queue T) where
  inUse t p hp := by cases hp
  waits cv t := by simp [created, CondVar.empty, CondVar.waiters]
  proper cv := Finset.disjoint_empty_left _
  passed t p hp := by cases hp
  started t p hp := by cases hp

variable [Build] {s : Queue T} {mq : MqBackend Empty} {t : T} {h : HandleId} {c : Call}

/-- A running thread is no waiter, and the other waiters stay. -/
theorem Begins.waiters {r : Except Fault (Segment Empty)} {k : Cond → CondVar T}
    (hb : Begins s mq t h c r k) (hm : Monitored s) (cv : Cond) :
    (k cv).Proper ∧ (k cv).waiters = (s.conds cv).waiters.erase t := by
  cases hb with
  | first hc _ _ =>
      refine ⟨hm.proper cv, (Finset.erase_eq_of_notMem fun ht => ?_).symm⟩
      obtain ⟨h', c', hc', -⟩ := (hm.waits cv t).mp ht
      rw [hc] at hc'
      cases hc'
  | resume hc =>
      by_cases hcv : cv = c.cond
      · subst hcv
        rw [Function.update_self]
        exact ⟨CondVar.resume_proper (hm.proper _) t, CondVar.resume_waiters t⟩
      · rw [Function.update_of_ne hcv]
        refine ⟨hm.proper cv, (Finset.erase_eq_of_notMem fun ht => ?_).symm⟩
        obtain ⟨h', c', hc', hd⟩ := (hm.waits cv t).mp ht
        rw [hc] at hc'
        cases hc'
        exact hcv hd.symm
  | drain hc =>
      refine ⟨hm.proper cv, (Finset.erase_eq_of_notMem fun ht => ?_).symm⟩
      obtain ⟨h', c', hc', -⟩ := (hm.waits cv t).mp ht
      rw [hc] at hc'
      cases hc'

theorem Begins.handle_mem {r : Except Fault (Segment Empty)} {k : Cond → CondVar T}
    (hb : Begins s mq t h c r k) (hm : Monitored s) : h ∈ s.handles := by
  cases hb with
  | first _ hh _ => exact hh
  | resume hc => exact hm.inUse t _ hc
  | drain hc => exact hm.inUse t _ hc

theorem Begins.wellPassed {r : Except Fault (Segment Empty)} {k : Cond → CondVar T}
    (hb : Begins s mq t h c r k) (hm : Monitored s) : c.WellPassed := by
  cases hb with
  | first _ _ hp => exact hp
  | resume hc => exact hm.passed t _ hc
  | drain hc => exact hm.passed t _ hc

theorem Begins.wait_cond {seg : Segment Empty} {k : Cond → CondVar T}
    (hb : Begins s mq t h c (.ok seg) k) {cv : Cond} (hw : seg.next = .wait cv) :
    cv = c.cond := by
  generalize hr : (Except.ok seg : Except Fault (Segment Empty)) = r at hb
  cases hb with
  | first _ _ _ => exact (Call.first_outline hr.symm).wait_cond hw
  | resume _ => exact (Call.loop_outline hr.symm).wait_cond hw
  | drain _ =>
      obtain ⟨⟨value, hv⟩, -⟩ := readDrain_next hr.symm
      rw [hv] at hw
      cases hw

/-- A call that stays in progress has passed the checks of its first segment. -/
theorem Begins.started {seg : Segment Empty} {k : Cond → CondVar T}
    (hb : Begins s mq t h c (.ok seg) k) (hm : Monitored s)
    (hn : ∀ value errno, seg.next ≠ .ret value errno) : c.Started (s.flags h) := by
  generalize hr : (Except.ok seg : Except Fault (Segment Empty)) = r at hb
  cases hb with
  | first _ _ _ => exact Call.first_started hr.symm hn
  | resume hc => exact hm.started t _ hc
  | drain hc => exact hm.started t _ hc

/-- The waiters after a segment of `t`: `t` itself exactly when the segment waits. -/
theorem finish_waits {seg : Segment Empty} {k k' : Cond → CondVar T}
    (hb : Begins s mq t h c (.ok seg) k) (hn : Notified seg.notify k k') (hm : Monitored s)
    (cv : Cond) (u : T) :
    u ∈ ((s.finish t h c seg k').conds cv).waiters ↔
      if u = t then seg.next = .wait cv else u ∈ (s.conds cv).waiters := by
  have hk : (k' cv).waiters = (s.conds cv).waiters.erase t := by
    rw [hn.waiters, (hb.waiters hm cv).2]
  cases hnext : seg.next with
  | ret value errno => by_cases hu : u = t <;> simp [finish, condsAfter, hnext, hk, hu]
  | drain m => by_cases hu : u = t <;> simp [finish, condsAfter, hnext, hk, hu]
  | wait d =>
      by_cases hd : cv = d
      · subst hd
        by_cases hu : u = t <;> simp [finish, condsAfter, hnext, hk, hu]
      · by_cases hu : u = t <;>
          simp [finish, condsAfter, hnext, hk, hu, Function.update_of_ne hd, Ne.symm hd]

theorem finish_monitored {seg : Segment Empty} {k k' : Cond → CondVar T}
    (hb : Begins s mq t h c (.ok seg) k) (hn : Notified seg.notify k k') (hm : Monitored s) :
    Monitored (s.finish t h c seg k') := by
  have hh := hb.handle_mem hm
  have hp := hb.wellPassed hm
  have hpending : ∀ u p, (s.finish t h c seg k').calls u = some p →
      s.calls u = some p ∨
        (p.handle = h ∧ p.call = c ∧ ∀ value errno, seg.next ≠ .ret value errno) := by
    intro u p hu
    by_cases hut : u = t
    · subst hut
      simp only [finish, Function.update_self] at hu
      cases hnext : seg.next <;> simp [pendingAfter, hnext] at hu <;> subst hu <;> simp
    · simp only [finish, Function.update_of_ne hut] at hu
      exact Or.inl hu
  refine ⟨?_, ?_, ?_, ?_, ?_⟩
  · intro u p hu
    rcases hpending u p hu with hold | ⟨hnew, -, -⟩
    · exact hm.inUse u p hold
    · rw [hnew]
      exact hh
  · intro cv u
    rw [finish_waits hb hn hm]
    by_cases hu : u = t
    · subst hu
      simp only [if_true, finish, Function.update_self]
      constructor
      · intro hw
        exact ⟨h, c, by rw [hw]; rfl, (hb.wait_cond hw).symm⟩
      · rintro ⟨h', c', hc', rfl⟩
        cases hnext : seg.next with
        | ret value errno => simp [pendingAfter, hnext] at hc'
        | drain m => simp [pendingAfter, hnext] at hc'
        | wait d =>
            simp [pendingAfter, hnext] at hc'
            rw [hb.wait_cond hnext, hc'.2]
    · simp only [hu, if_false, finish, Function.update_of_ne hu]
      exact hm.waits cv u
  · intro cv
    have hproper : ∀ d, (k' d).Proper := hn.proper fun d => (hb.waiters hm d).1
    cases hnext : seg.next with
    | ret value errno => simpa [finish, condsAfter, hnext] using hproper cv
    | drain m => simpa [finish, condsAfter, hnext] using hproper cv
    | wait d =>
        by_cases hd : cv = d
        · subst hd
          simp only [finish, condsAfter, hnext, Function.update_self]
          apply CondVar.sleep_proper (hproper cv)
          intro ht
          have : t ∈ (k' cv).waiters := Finset.mem_union_right _ ht
          rw [hn.waiters, (hb.waiters hm cv).2] at this
          simp at this
        · simpa [finish, condsAfter, hnext, Function.update_of_ne hd] using hproper cv
  · intro u p hu
    rcases hpending u p hu with hold | ⟨-, hnew, -⟩
    · exact hm.passed u p hold
    · rw [hnew]
      exact hp
  · intro u p hu
    rcases hpending u p hu with hold | ⟨hhandle, hcall, hstay⟩
    · exact hm.started u p hold
    · rw [hcall, hhandle]
      exact hb.started hm hstay

theorem step_monitored {l : Label T} {s' : Queue T} (hm : Monitored s) (hs : Step s l s') :
    Monitored s' := by
  cases hs with
  | segment ha hmq hb hn => exact finish_monitored hb hn hm
  | abort ha hmq hb => exact ⟨hm.inUse, hm.waits, hm.proper, hm.passed, hm.started⟩
  | openRefused ha hmq hh ho => exact hm
  | @«open» mq mq' h new flags ha hmq hh hnew ho =>
      refine ⟨fun t p hp => Finset.mem_insert_of_mem (hm.inUse t p hp), hm.waits, hm.proper,
        hm.passed, fun t p hp => ?_⟩
      have hne : p.handle ≠ new := fun he => hnew (he ▸ hm.inUse t p hp)
      simpa only [Function.update_of_ne hne] using hm.started t p hp
  | close ha hmq hh hfree hc hn =>
      refine ⟨fun t p hp => Finset.mem_erase_of_ne_of_mem (hfree t p hp) (hm.inUse t p hp),
        fun cv t => ?_, hn.proper hm.proper, hm.passed, hm.started⟩
      rw [hn.waiters]
      exact hm.waits cv t
  | closeAbort ha hmq hh hfree hc => exact ⟨hm.inUse, hm.waits, hm.proper, hm.passed, hm.started⟩

/-- The monitor invariant holds in every run, whatever the arguments. -/
theorem run_monitored {s₀ : Queue T} (h₀ : IsCreated s₀) {ls : List (Label T)} {s : Queue T}
    (run : Run Step s₀ ls s) : Monitored s := by
  obtain ⟨block, answer, capacity, flags, mq, -, rfl⟩ := h₀
  exact run.state_invariant (created_monitored mq flags) fun _ _ _ => step_monitored

end Queue
end UoftOs.MsgQueue
