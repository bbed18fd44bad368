import UoftOs.MsgQueue.Sound

/-!
# Wake-ups of readers

One signal per message is enough for readers: while one of them sleeps
unsignalled, at least as many woken readers as there are messages in the ring
have still to resume.
-/

namespace UoftOs.MsgQueue.Queue

open Lib Lib.Frames Lib.Transition

variable {T : Type} [DecidableEq T] [Build] {s : Queue T} {ms : List (List UInt8)}
  {mq : MqBackend Empty}

/-- The counting invariant for readers of a queue that holds the messages `ms`. -/
structure Served (s : Queue T) (ms : List (List UInt8)) : Prop where
  woken : (s.conds .spaceEmpty).asleep.Nonempty → ms.length ≤ (s.conds .spaceEmpty).woken.card
  hungUp : ∀ mq, s.mq = some mq → mq.noWriters = true → (s.conds .spaceEmpty).asleep = ∅

/-- The readers' condition variable as a segment finds it: a reader that resumes
may have left it. -/
def Found (s : Queue T) (c : Call) (k : Cond → CondVar T) : Prop :=
  k .spaceEmpty = s.conds .spaceEmpty ∨
    c.cond = .spaceEmpty ∧
      (k .spaceEmpty).asleep ⊆ (s.conds .spaceEmpty).asleep ∧
      (s.conds .spaceEmpty).woken.card ≤ (k .spaceEmpty).woken.card + 1

omit [DecidableEq T] [Build] in
theorem Found.asleep {c : Call} {k : Cond → CondVar T} (hk : Found s c k) :
    (k .spaceEmpty).asleep ⊆ (s.conds .spaceEmpty).asleep := by
  rcases hk with heq | ⟨-, hsub, -⟩
  · rw [heq]
  · exact hsub

omit [Build] in
theorem found_resume (t : T) (c : Call) :
    Found s c (Function.update s.conds c.cond ((s.conds c.cond).resume t)) := by
  cases c with
  | read length msgHead =>
      refine Or.inr ⟨rfl, ?_⟩
      rw [Call.cond, Function.update_self]
      exact ⟨CondVar.resume_asleep_subset t, CondVar.card_woken_le_resume t⟩
  | write buffer length => exact Or.inl (Function.update_of_ne (by simp [Call.cond]) _ _)

/-- A segment keeps the counting invariant: a reader that resumes takes a message
or finds none, and every new message wakes a reader. -/
theorem Served.segment (hs : Served s ms) (hmq : s.mq = some mq) (hf : Framed mq ms)
    (hm : Monitored s) {t : T} {h : HandleId} {c : Call} {seg : Segment Empty}
    {ms' : List (List UInt8)} {k k' : Cond → CondVar T}
    (he : Effect mq ms (s.flags h) c seg ms') (hn : Notified seg.notify k k')
    (hk : Found s c k) (hst : c.Started (s.flags h)) (hb : BuffersFit s (.segment t h c seg)) :
    Served (s.finish t h c seg k') ms' := by
  have hungUp {mq' : MqBackend Empty} (hw : mq'.noWriters = mq.noWriters)
      (hw' : mq'.noWriters = true) : (k .spaceEmpty).asleep = ∅ :=
    Finset.subset_empty.mp (hs.hungUp mq hmq (hw ▸ hw') ▸ hk.asleep)
  have hwrite (hc : c.cond = .spaceFull) : k .spaceEmpty = s.conds .spaceEmpty := by
    rcases hk with heq | ⟨hread, -⟩
    · exact heq
    · rw [hc] at hread
      cases hread
  cases he with
  | readEmpty hempty hbuf hsame hv =>
      obtain rfl := hn.of_nil
      subst hempty
      refine ⟨fun _ => Nat.zero_le _, ?_⟩
      rintro _ ⟨⟩ hw
      exact hungUp hsame.noWriters hw
  | readSleeps hempty hw =>
      subst hempty
      refine ⟨fun _ => Nat.zero_le _, ?_⟩
      rintro _ ⟨⟩ hw'
      rw [Segment.quiet, hw] at hw'
      cases hw'
  | @readTooSmall length msgHead m rest n hcons hlt hlen =>
      subst hcons
      have := hb hst mq hmq m rest hf.rep.held
      omega
  | readTakes hcons hf' hsame hst hno hok next =>
      subst hcons
      rw [hno] at hn
      obtain ⟨v, -, rfl⟩ := hn.of_signal
      have hstay (c : Call) : (s.finish t h c seg (Function.update k .spaceFull v)).conds
          .spaceEmpty = k .spaceEmpty := by
        simp [finish, condsAfter, next]
      refine ⟨fun hne => ?_, ?_⟩
      · rw [hstay] at hne ⊢
        have hold := hs.woken (hne.mono hk.asleep)
        rw [List.length_cons] at hold
        rcases hk with heq | ⟨-, -, hcard⟩
        · rw [heq]
          omega
        · omega
      · rintro _ ⟨⟩ hw
        rw [hstay]
        exact hungUp hsame.noWriters hw
  | writeSleeps hfree =>
      obtain rfl := hn.of_nil
      exact ⟨by simpa [finish, Segment.quiet, condsAfter, hwrite rfl] using hs.woken,
        by rintro _ ⟨⟩ hw; simpa [finish, Segment.quiet, condsAfter] using hungUp rfl hw⟩
  | writePuts hfree hf' hsame hno hok next =>
      rw [hno] at hn
      obtain ⟨v, hsig, rfl⟩ := hn.of_signal
      have hstay (c : Call) : (s.finish t h c seg (Function.update k .spaceEmpty v)).conds
          .spaceEmpty = v := by
        simp only [finish, condsAfter, next]
        split <;> simp
      rw [hwrite rfl] at hsig
      refine ⟨fun hne => ?_, ?_⟩
      · rw [hstay] at hne ⊢
        rw [hsig.card_woken (hm.proper _) hne, List.length_append]
        exact Nat.add_le_add_right (hs.woken (hne.mono hsig.asleep_subset)) 1
      · rintro _ ⟨⟩ hnw
        rw [hstay]
        exact Finset.subset_empty.mp
          (hs.hungUp mq hmq (hsame.noWriters ▸ hnw) ▸ hsig.asleep_subset)

omit [Build] in
theorem Served.close (hs : Served s ms) {h : HandleId}
    {mq' : MqBackend Empty} {ns : List Notify} {k' : Cond → CondVar T}
    (hc : Closed mq (s.flags h) mq' ns) (hn : Notified ns s.conds k') :
    Served { s with mq := some mq', handles := s.handles.erase h, conds := k' } ms := by
  rw [hc.notify] at hn
  have hempty := hn.of_close.2
  cases hw : mq'.noWriters with
  | false =>
      rw [hw, if_neg (by decide)] at hempty
      refine ⟨by simpa only [hempty] using hs.woken, ?_⟩
      rintro _ ⟨⟩ hw'
      rw [hw] at hw'
      cases hw'
  | true =>
      rw [hw, if_pos rfl] at hempty
      exact ⟨by simp [hempty], fun _ _ _ => by simp [hempty]⟩

/-- The step rule. -/
theorem Served.step (hs : Served s ms) (hsound : Sound s ms) (hi : Idle s) {l : Label T}
    {s' : Queue T} {ms' : List (List UInt8)} (ho : Outcome s ms l s' ms') (hb : BuffersFit s l) :
    Served s' ms' := by
  cases ho with
  | refused hmq hc hbuf hsame hv hzero =>
      refine ⟨hs.woken, ?_⟩
      rintro _ ⟨⟩ hw
      exact hs.hungUp _ hmq (hsame.noWriters ▸ hw)
  | first hmq hc hp hst hn he =>
      exact hs.segment hmq (hsound.framed _ hmq) hsound.monitored he hn (Or.inl rfl) hst hb
  | resume hmq hc hp hst hn he =>
      exact hs.segment hmq (hsound.framed _ hmq) hsound.monitored he hn (found_resume _ _) hst hb
  | drain hmq hc hn hd => exact absurd hc (hi _ _ _ _)
  | openRefused => exact hs
  | @«open» mq h new flags hmq =>
      refine ⟨hs.woken, ?_⟩
      rintro _ ⟨⟩ hw
      rw [mqOpen_noWriters, Bool.and_eq_true] at hw
      exact hs.hungUp mq hmq hw.2
  | close hmq hc hn => exact hs.close hc hn
  | destroy hlast => exact ⟨hs.woken, by rintro _ ⟨⟩⟩

theorem served_of_run {s₀ : Queue T} (h₀ : IsCreated s₀) {ls : List (Label T)}
    (run : Run (Guarded Step fun s l => LengthsFit s l ∧ BuffersFit s l) s₀ ls s) :
    ∃ ms, Sound s ms ∧ Idle s ∧ Served s ms := by
  refine Run.state_invariant (I := fun s => ∃ ms, Sound s ms ∧ Idle s ∧ Served s ms)
    ⟨[], created_sound h₀, created_idle h₀, ?_⟩ ?_ run
  · obtain ⟨_, _, _, _, _, -, rfl⟩ := h₀
    exact ⟨fun _ => Nat.zero_le _, fun _ _ _ => rfl⟩
  · rintro s l s' ⟨ms, hsound, hi, hs⟩ ⟨hstep, hl, hb⟩
    obtain ⟨ms', hsound', ho⟩ := hsound.step hl hstep
    exact ⟨ms', hsound', hi.step hsound ho hb, hs.step hsound hi ho hb⟩

/-- A reader asleep is asleep on an open queue whose messages woken readers will take. -/
theorem Served.asleep (hs : Served s ms) (hsound : Sound s ms)
    (hsleep : (s.conds .spaceEmpty).asleep.Nonempty) :
    ∃ mq, s.mq = some mq ∧ mq.buffer.held = frames 8 ms ∧
      ms.length ≤ (s.conds .spaceEmpty).woken.card ∧ mq.noWriters = false := by
  obtain ⟨t, ht⟩ := hsleep
  obtain ⟨h, c, hc, -⟩ := (hsound.monitored.waits .spaceEmpty t).mp (Finset.mem_union_left _ ht)
  have hh := hsound.monitored.inUse t _ hc
  cases hmq : s.mq with
  | none =>
      rw [hsound.alive hmq] at hh
      cases hh
  | some mq =>
      refine ⟨mq, rfl, (hsound.framed mq hmq).rep.held, hs.woken ⟨t, ht⟩, ?_⟩
      cases hw : mq.noWriters with
      | false => rfl
      | true =>
          rw [hs.hungUp mq hmq hw] at ht
          cases ht

/-- While a reader sleeps unsignalled the queue has a writer, or never had one,
and a woken reader has still to resume for every message in the ring. -/
theorem readers_never_miss_wakeup {s₀ : Queue T} (h₀ : IsCreated s₀) {ls : List (Label T)}
    (run : Run (Guarded Step fun s l => LengthsFit s l ∧ BuffersFit s l) s₀ ls s)
    (hsleep : (s.conds .spaceEmpty).asleep.Nonempty) :
    ∃ mq ms, s.mq = some mq ∧ mq.buffer.held = frames 8 ms ∧
      ms.length ≤ (s.conds .spaceEmpty).woken.card ∧ mq.noWriters = false := by
  obtain ⟨ms, hsound, -, hs⟩ := served_of_run h₀ run
  obtain ⟨mq, hmq, hawake⟩ := hs.asleep hsound hsleep
  exact ⟨mq, ms, hmq, hawake⟩

omit [Build] in
/-- Two readers sleep on an empty queue of ten bytes; a write wakes one of them. -/
theorem readers_never_miss_wakeup_one :
    letI : Build := ⟨false⟩
    ∃ (s : Queue (Fin 3)) (mq : MqBackend Empty) (ms : List (List UInt8)),
      1 ∈ (s.conds .spaceEmpty).asleep ∧ s.mq = some mq ∧ mq.buffer.held = frames 8 ms ∧
      ms ≠ [] ∧ ms.length ≤ (s.conds .spaceEmpty).woken.card ∧ mq.noWriters = false := by
  let _ : Build := ⟨false⟩
  let ring (buffer : List UInt8) (tail : UInt64) (event : CInt) : MqBackend Empty :=
    ⟨⟨buffer, 10, 0, tail, false⟩, 1, 1, 1, false, false, event, []⟩
  let mq₀ := ring (List.replicate 10 0xDD) 0 0
  let s₀ : Queue (Fin 3) := created mq₀ 3
  have h₀ : IsCreated s₀ := ⟨some 0, some fun _ => 0, 10, 3, _, by decide, rfl⟩
  -- Threads 0 and 1 go to sleep.
  let sleep : Segment Empty := .quiet mq₀ (.wait .spaceEmpty)
  let s₁ := s₀.finish 0 0 (.read 1 0) sleep s₀.conds
  have step₁ : Step s₀ _ s₁ :=
    Step.first rfl rfl rfl (by decide) trivial (by decide) (.nil _)
  let s₂ := s₁.finish 1 0 (.read 1 0) sleep s₁.conds
  have step₂ : Step s₁ _ s₂ :=
    Step.first rfl rfl rfl (by decide) trivial (by decide) (.nil _)
  -- Thread 2 writes and wakes thread 0.
  let mq₃ := ring [1, 0, 0, 0, 0, 0, 0, 0, 5, 0xDD] 9 1
  let s₃ := s₂.finish 2 0 (.write [5] 1)
    ⟨mq₃, [.signal .spaceEmpty], [], [true, true], .ret 0 none⟩
    (Function.update s₂.conds .spaceEmpty ⟨(s₂.conds .spaceEmpty).asleep.erase 0, {0}⟩)
  have step₃ : Step s₂ _ s₃ :=
    Step.first rfl rfl rfl (by decide) rfl (by decide)
      (.signal (.one (t := 0) (by decide)) (.nil _))
  have hfits : ReadFits mq₀ 1 := readFits_of_held_le (by decide)
  have start : Run (Guarded Step fun s l => LengthsFit s l ∧ BuffersFit s l) s₀ [] s₀ := .nil
  have run := ((start.snoc
    ⟨step₁, trivial, fun _ mq hmq => Option.some.inj hmq ▸ hfits⟩).snoc
    ⟨step₂, trivial, fun _ mq hmq => Option.some.inj hmq ▸ hfits⟩).snoc
    ⟨step₃, (by decide : (1 : UInt64).toNat + 8 < 2 ^ 64), trivial⟩
  obtain ⟨mq, ms, hmq, hheld, hcard, hwriters⟩ := readers_never_miss_wakeup h₀ run ⟨1, by decide⟩
  refine ⟨s₃, mq, ms, by decide, hmq, hheld, ?_, hcard, hwriters⟩
  rintro rfl
  obtain rfl := Option.some.inj hmq
  exact absurd hheld (by decide)

end UoftOs.MsgQueue.Queue
