import UoftOs.MsgQueue.Sound

/-!
# Wake-ups of writers

Every read signals one sleeping writer, whatever room it makes. `Hoards` is the
step that loses a wake-up then: the only woken writer resumes and leaves room
for the frame of a writer that still sleeps.
-/

namespace UoftOs.MsgQueue.Queue

open Lib Lib.Frames Lib.Transition

variable {T : Type} [DecidableEq T] {s : Queue T} {ms : List (List UInt8)}
  {mq : MqBackend Empty}

/-- The size of the frame of a message of `length` bytes. -/
def frameSize (length : UInt64) : Nat := length.toNat + 8

/-- The number of free bytes. -/
def room (mq : MqBackend Empty) : Nat := (ringBufferFree mq.buffer).toNat

/-- Thread `t` waits in `msg_queue_write` to write `length` bytes. -/
def WaitsToWrite (s : Queue T) (t : T) (length : UInt64) : Prop :=
  ∃ h buffer, s.calls t = some ⟨h, .write buffer length, .waiting⟩

/-- While a writer sleeps unsignalled although its frame fits, another writer has
been woken and has not resumed yet. -/
def WritersServed (s : Queue T) : Prop :=
  ∀ mq t length, s.mq = some mq → t ∈ (s.conds .spaceFull).asleep → WaitsToWrite s t length →
    frameSize length ≤ room mq → (s.conds .spaceFull).woken.Nonempty

/-- The room that a waiting writer leaves when it goes on: it takes its frame if it fits. -/
def roomLeft (mq : MqBackend Empty) (length : UInt64) : Nat :=
  if frameSize length ≤ room mq then room mq - frameSize length else room mq

/-- The only woken writer resumes and leaves room for a writer that still sleeps. -/
def Hoards (s : Queue T) : Label T → Prop
  | .segment t _ (.write _ length) _ => WaitsToWrite s t length ∧
      (s.conds .spaceFull).woken = {t} ∧
      ∃ mq u l, s.mq = some mq ∧ u ∈ (s.conds .spaceFull).asleep ∧ WaitsToWrite s u l ∧
        frameSize l ≤ roomLeft mq length
  | _ => False

omit [DecidableEq T] in
/-- A step that frees no room, wakes no fewer and puts nobody to sleep keeps the writers served. -/
theorem WritersServed.mono {s' : Queue T} (hs : WritersServed s)
    (hasleep : (s'.conds .spaceFull).asleep ⊆ (s.conds .spaceFull).asleep)
    (hwoken : (s.conds .spaceFull).woken ⊆ (s'.conds .spaceFull).woken)
    (hcalls : ∀ u length, u ∈ (s'.conds .spaceFull).asleep → WaitsToWrite s' u length →
      WaitsToWrite s u length)
    (hroom : ∀ mq', s'.mq = some mq' → ∃ mq, s.mq = some mq ∧ room mq' ≤ room mq) :
    WritersServed s' := by
  intro mq' u length hmq' hu hwait hfits
  obtain ⟨mq, hmq, hle⟩ := hroom mq' hmq'
  exact (hs mq u length hmq (hasleep hu) (hcalls u length hu hwait) (hfits.trans hle)).mono hwoken

/-- After a signal no writer sleeps or some writer is woken. -/
theorem WritersServed.of_signal {s' : Queue T} {v : CondVar T}
    (h : CondVar.Signal v (s'.conds .spaceFull)) : WritersServed s' :=
  fun _ u _ _ hu _ _ => h.woken_nonempty ⟨u, hu⟩

/-- When a waiting writer `t` goes on, the writers stay served unless it hoards. -/
theorem WritersServed.resume_iff (hs : WritersServed s) {s' : Queue T} {mq' : MqBackend Empty}
    {t : T} {h : HandleId} {buffer : List UInt8} {length : UInt64} {seg : Segment Empty}
    (hmq : s.mq = some mq) (hc : s.calls t = some ⟨h, .write buffer length, .waiting⟩)
    (hproper : (s.conds .spaceFull).Proper) (hmq' : s'.mq = some mq')
    (hcalls : ∀ u, u ≠ t → s'.calls u = s.calls u)
    (hasleep : ∀ u, u ≠ t → (u ∈ (s'.conds .spaceFull).asleep ↔ u ∈ (s.conds .spaceFull).asleep))
    (hwoken : (s'.conds .spaceFull).woken = (s.conds .spaceFull).woken.erase t)
    (hself : t ∈ (s'.conds .spaceFull).asleep → ∀ l, WaitsToWrite s' t l → room mq' < frameSize l)
    (hroom : room mq' = roomLeft mq length) :
    WritersServed s' ↔ ¬ Hoards s (.segment t h (.write buffer length) seg) := by
  have hle : room mq' ≤ room mq := by
    rw [hroom, roomLeft]
    split <;> omega
  constructor
  · rintro hs' ⟨-, hw, mq₀, u, l, hmq₀, hu, ⟨hu', b, hcu⟩, hfits⟩
    obtain rfl := Option.some.inj (hmq.symm.trans hmq₀)
    have hut : u ≠ t := by
      rintro rfl
      exact Finset.disjoint_left.mp hproper hu (hw ▸ Finset.mem_singleton_self u)
    have := hs' mq' u l hmq' ((hasleep u hut).mpr hu) ⟨hu', b, (hcalls u hut).trans hcu⟩
      (hroom ▸ hfits)
    rw [hwoken, hw] at this
    simp at this
  · intro hnot mq₀ u l hmq₀ hu hwait hfits
    obtain rfl := Option.some.inj (hmq'.symm.trans hmq₀)
    have hut : u ≠ t := by
      rintro rfl
      exact absurd (hself hu l hwait) (Nat.not_lt.mpr hfits)
    obtain ⟨hu', b, hcu⟩ := hwait
    rw [hcalls u hut] at hcu
    have hold := (hasleep u hut).mp hu
    obtain ⟨w, hw⟩ := hs mq u l hmq hold ⟨hu', b, hcu⟩ (hfits.trans hle)
    rw [hwoken]
    by_contra hempty
    rw [Finset.not_nonempty_iff_eq_empty, Finset.erase_eq_empty_iff] at hempty
    rcases hempty with hempty | hsingle
    · rw [hempty] at hw
      cases hw
    · exact hnot ⟨⟨h, buffer, hc⟩, hsingle, mq, u, l, hmq, hold, ⟨hu', b, hcu⟩, hroom ▸ hfits⟩

section Room
variable {length : UInt64}

theorem frameSize_eq (hl : frameSize length < 2 ^ 64) :
    (length + sizeofSizeT).toNat = frameSize length := by
  rw [UInt64.toNat_add, show sizeofSizeT.toNat = 8 from rfl]
  exact Nat.mod_eq_of_lt hl

theorem room_lt_frameSize (hl : frameSize length < 2 ^ 64)
    (h : ringBufferFree mq.buffer < length + sizeofSizeT) : room mq < frameSize length := by
  rwa [UInt64.lt_iff_toNat_lt, frameSize_eq hl] at h

theorem frameSize_le_room (hl : frameSize length < 2 ^ 64)
    (h : length + sizeofSizeT ≤ ringBufferFree mq.buffer) : frameSize length ≤ room mq := by
  rwa [UInt64.le_iff_toNat_le, frameSize_eq hl] at h

/-- A written frame takes up its size. -/
theorem room_put [Build] {mq' : MqBackend Empty} {buffer : List UInt8} (hf : Framed mq ms)
    (hf' : Framed mq' (ms ++ [buffer])) (hsame : SameHandles mq mq')
    (hp : buffer.length = length.toNat) : room mq' = room mq - frameSize length := by
  rw [room, room, ringBufferFree, ringBufferFree, hf.rep.freeInner_toNat,
    hf'.rep.freeInner_toNat, hsame.size, frames_concat, List.length_append, length_frame, hp,
    frameSize]
  omega

end Room

variable [Build]

omit [Build] in
/-- The calls of other threads stay as they are. -/
theorem waitsToWrite_finish {t u : T} {h : HandleId} {c : Call} {seg : Segment Empty}
    {k' : Cond → CondVar T} {length : UInt64} (hut : u ≠ t) :
    WaitsToWrite (s.finish t h c seg k') u length ↔ WaitsToWrite s u length := by
  simp [WaitsToWrite, finish, Function.update_of_ne hut]

/-- A segment of a thread that was not waiting for room keeps the writers served. -/
theorem WritersServed.segment (hs : WritersServed s) (hf : Framed mq ms) (hmq : s.mq = some mq)
    {t : T} {h : HandleId} {c : Call} {seg : Segment Empty} {ms' : List (List UInt8)}
    {k k' : Cond → CondVar T} (hk : k .spaceFull = s.conds .spaceFull)
    (ht : t ∉ (s.conds .spaceFull).waiters) (hp : c.WellPassed) (hl : Call.LengthFits c)
    (he : Effect mq ms (s.flags h) c seg ms') (hn : Notified seg.notify k k') :
    WritersServed (s.finish t h c seg k') := by
  have hother {u : T} (hu : u ∈ (s.conds .spaceFull).asleep) : u ≠ t := by
    rintro rfl
    exact ht (Finset.mem_union_left _ hu)
  have hquiet (hconds : (s.finish t h c seg k').conds .spaceFull = s.conds .spaceFull)
      (hroom : room seg.mq ≤ room mq) : WritersServed (s.finish t h c seg k') := by
    refine hs.mono (by rw [hconds]) (by rw [hconds]) (fun u length hu hw => ?_) ?_
    · rw [hconds] at hu
      exact (waitsToWrite_finish (hother hu)).mp hw
    · rintro _ ⟨⟩
      exact ⟨mq, hmq, hroom⟩
  cases he with
  | readEmpty hm hb hsame hv =>
      obtain rfl := hn.of_nil
      exact hquiet hk (by rw [room, Segment.quiet, hb]; exact Nat.le_refl _)
  | readSleeps hm hw =>
      obtain rfl := hn.of_nil
      exact hquiet (by simp [finish, Segment.quiet, condsAfter, hk]) (Nat.le_refl _)
  | readTooSmall hm hlt hlen =>
      obtain rfl := hn.of_nil
      exact hquiet hk (Nat.le_refl _)
  | readTakes hm hf' hsame hst hno hok next =>
      rw [hno] at hn
      obtain ⟨v, hsig, rfl⟩ := hn.of_signal
      exact WritersServed.of_signal (v := k .spaceFull) (by simpa [finish, condsAfter, next])
  | @writeSleeps buffer length hfree =>
      obtain rfl := hn.of_nil
      intro mq' u l hmq' hu hw hfits
      obtain rfl := Option.some.inj hmq'
      simp only [finish, Segment.quiet, condsAfter, Function.update_self, hk] at hu ⊢
      rcases Finset.mem_insert.mp hu with rfl | hold
      · obtain ⟨h', b, hc⟩ := hw
        simp [finish, Segment.quiet, pendingAfter] at hc
        obtain ⟨-, -, rfl⟩ := hc
        exact absurd (room_lt_frameSize hl hfree) (Nat.not_lt.mpr hfits)
      · exact hs mq u l hmq hold ((waitsToWrite_finish (hother hold)).mp hw) hfits
  | writePuts hfree hf' hsame hno hok next =>
      rw [hno] at hn
      obtain ⟨v, -, rfl⟩ := hn.of_signal
      refine hquiet ?_ (by rw [room_put hf hf' hsame hp]; exact Nat.sub_le _ _)
      simp only [finish, condsAfter, next]
      split <;> simp [hk]

/-- A waiting writer that goes on keeps the writers served unless it hoards. -/
theorem WritersServed.resume_segment (hs : WritersServed s) (hm : Monitored s) (hf : Framed mq ms)
    (hmq : s.mq = some mq) {t : T} {h : HandleId} {buffer : List UInt8} {length : UInt64}
    {seg : Segment Empty} {ms' : List (List UInt8)} {k' : Cond → CondVar T}
    (hc : s.calls t = some ⟨h, .write buffer length, .waiting⟩)
    (hp : buffer.length = length.toNat) (hl : frameSize length < 2 ^ 64)
    (he : Effect mq ms (s.flags h) (.write buffer length) seg ms')
    (hn : Notified seg.notify
      (Function.update s.conds .spaceFull ((s.conds .spaceFull).resume t)) k') :
    WritersServed (s.finish t h (.write buffer length) seg k') ↔
      ¬ Hoards s (.segment t h (.write buffer length) seg) := by
  have hcalls (u : T) (hut : u ≠ t) :
      (s.finish t h (.write buffer length) seg k').calls u = s.calls u :=
    Function.update_of_ne hut _ _
  cases he with
  | writeSleeps hfree =>
      obtain rfl := hn.of_nil
      have hlt := room_lt_frameSize hl hfree
      refine hs.resume_iff hmq hc (hm.proper _) rfl hcalls (fun u hut => ?_) ?_ ?_ ?_
      · simp [finish, Segment.quiet, condsAfter, CondVar.sleep, CondVar.resume, hut]
      · simp [finish, Segment.quiet, condsAfter, CondVar.sleep, CondVar.resume]
      · rintro - l ⟨h', b, hc'⟩
        simp [finish, Segment.quiet, pendingAfter] at hc'
        obtain ⟨-, -, rfl⟩ := hc'
        exact hlt
      · rw [roomLeft, if_neg (Nat.not_le.mpr hlt)]
        rfl
  | writePuts hfree hf' hsame hno hok next =>
      rw [hno] at hn
      obtain ⟨v, -, rfl⟩ := hn.of_signal
      have hle := frameSize_le_room hl hfree
      have hconds : (s.finish t h (.write buffer length) seg (Function.update
          (Function.update s.conds .spaceFull ((s.conds .spaceFull).resume t)) .spaceEmpty v)).conds
          .spaceFull = (s.conds .spaceFull).resume t := by
        simp only [finish, condsAfter, next]
        split <;> simp
      refine hs.resume_iff hmq hc (hm.proper _) rfl hcalls (fun u hut => ?_) ?_ ?_ ?_
      · rw [hconds]
        simp [CondVar.resume, hut]
      · rw [hconds]
        rfl
      · intro ht
        rw [hconds] at ht
        simp [CondVar.resume] at ht
      · rw [roomLeft, if_pos hle]
        exact room_put hf hf' hsame hp

/-- The step rule: a step keeps the writers served unless it hoards. -/
theorem WritersServed.step_iff (hs : WritersServed s) (hsound : Sound s ms) {l : Label T}
    {s' : Queue T} {ms' : List (List UInt8)} (ho : Outcome s ms l s' ms') (hl : LengthsFit s l) :
    WritersServed s' ↔ ¬ Hoards s l := by
  have hm := hsound.monitored
  have hidle {t : T} h c seg (hc : ∀ h' c', s.calls t ≠ some ⟨h', c', .waiting⟩) :
      t ∉ (s.conds .spaceFull).waiters ∧ ¬ Hoards s (.segment t h c seg) := by
    refine ⟨fun hw => ?_, fun hh => ?_⟩
    · obtain ⟨h', c', hc', -⟩ := (hm.waits _ _).mp hw
      exact hc h' c' hc'
    · cases c with
      | read length msgHead => exact hh
      | write buffer length =>
          obtain ⟨⟨h', b, hc'⟩, -⟩ := hh
          exact hc _ _ hc'
  cases ho with
  | @refused mq mq' t h c value errno hmq hc hbuf hsame hv hzero =>
      have hno := hidle h c (.quiet mq' (.ret value errno))
        (fun h' c' => by rw [hc]; simp)
      refine iff_of_true ?_ hno.2
      refine hs.mono (Finset.Subset.refl _) (Finset.Subset.refl _) (fun u l hu hw => ?_) ?_
      · refine (waitsToWrite_finish ?_).mp hw
        rintro rfl
        exact hno.1 (Finset.mem_union_left _ hu)
      · rintro _ ⟨⟩
        exact ⟨mq, hmq, by rw [room, Segment.quiet, hbuf]; exact Nat.le_refl _⟩
  | @first mq t h c seg k' ms' hmq hc hp hst hn he =>
      have hno := hidle h c seg (fun h' c' => by rw [hc]; simp)
      exact iff_of_true
        (hs.segment (hsound.framed _ hmq) hmq rfl hno.1 hp hl he hn) hno.2
  | @resume mq t h c seg k' ms' hmq hc hp hst hn he =>
      cases c with
      | read length msgHead =>
          have ht : t ∉ (s.conds .spaceFull).waiters := by
            intro hw
            obtain ⟨h', c', hc', hcond⟩ := (hm.waits _ _).mp hw
            rw [hc] at hc'
            cases hc'
            cases hcond
          refine iff_of_true ?_ id
          exact hs.segment (hsound.framed _ hmq) hmq
            (Function.update_of_ne (by simp [Call.cond]) _ _) ht hp hl he hn
      | write buffer length =>
          exact hs.resume_segment hm (hsound.framed _ hmq) hmq hc hp hl he hn
  | @drain mq t h c seg msgHead k' ms' hmq hc hn hd =>
      have hno := hidle h c seg (fun h' c' => by rw [hc]; simp)
      refine iff_of_true ?_ hno.2
      have hsig : seg.notify = [.signal .spaceFull] ∧ ∃ value errno, seg.next = .ret value errno := by
        cases hd with
        | takes hf' hsame hst hno next => exact ⟨hno, _, _, next⟩
        | nothing hb hsame hst hno next => exact ⟨hno, _, _, next⟩
      obtain ⟨hnotify, value, errno, next⟩ := hsig
      rw [hnotify] at hn
      obtain ⟨v, hsig, rfl⟩ := hn.of_signal
      exact WritersServed.of_signal (v := s.conds .spaceFull) (by simpa [finish, condsAfter, next])
  | openRefused => exact iff_of_true hs id
  | @«open» mq h new flags hmq =>
      refine iff_of_true ?_ id
      refine hs.mono (Finset.Subset.refl _) (Finset.Subset.refl _) (fun _ _ _ hw => hw) ?_
      rintro _ ⟨⟩
      exact ⟨mq, hmq, by rw [room, mqOpen_buffer]; exact Nat.le_refl _⟩
  | @close mq mq' h ns k' hmq hc hn =>
      refine iff_of_true ?_ id
      rw [hc.notify] at hn
      have hfull := hn.of_close.1
      cases hr : mq'.noReaders with
      | true =>
          intro _ u _ _ hu
          simp [hfull, hr] at hu
      | false =>
          rw [hr, if_neg (by decide)] at hfull
          refine hs.mono (by rw [← hfull]) (by rw [← hfull]) (fun _ _ _ hw => hw) ?_
          rintro _ ⟨⟩
          exact ⟨mq, hmq, by rw [room, hc.buffer]; exact Nat.le_refl _⟩
  | destroy hlast => exact iff_of_true (fun _ _ _ hmq => by cases hmq) id

section Traces

/-- The backend of the traces below: nineteen bytes, one handle. -/
private def ring19 (buffer : List UInt8) (head tail : UInt64) (event : CInt) : MqBackend Empty :=
  ⟨⟨buffer, 19, head, tail, false⟩, 1, 1, 1, false, false, event, []⟩

private def freed19 : List UInt8 := List.replicate 19 0xDD

private def message10 : List UInt8 := List.replicate 10 7

private def framed10 : List UInt8 := leBytes 8 10 ++ message10 ++ [0xDD]

/-- In a run whose reads have room for their messages and in which nobody hoards, the
writers are served in every state, and the first step that hoards breaks it. -/
theorem writers_served_iff_no_hoarding {s₀ : Queue T} (h₀ : IsCreated s₀) {ls : List (Label T)}
    (run : Run (Guarded Step fun s l => LengthsFit s l ∧ BuffersFit s l ∧ ¬ Hoards s l) s₀ ls s) :
    WritersServed s ∧ ∀ l s', LengthsFit s l → BuffersFit s l → Step s l s' →
      (WritersServed s' ↔ ¬ Hoards s l) := by
  obtain ⟨ms, hsound, hs⟩ : ∃ ms, Sound s ms ∧ WritersServed s := by
    refine Run.state_invariant (I := fun s => ∃ ms, Sound s ms ∧ WritersServed s)
      ⟨[], created_sound h₀, ?_⟩ ?_ run
    · obtain ⟨_, _, _, _, _, -, rfl⟩ := h₀
      intro _ u _ _ hu
      cases hu
    · rintro s l s' ⟨ms, hsound, hs⟩ ⟨hstep, hl, -, hno⟩
      obtain ⟨ms', hsound', ho⟩ := hsound.step hl hstep
      exact ⟨ms', hsound', (hs.step_iff hsound ho hl).mpr hno⟩
  refine ⟨hs, fun l s' hl _ hstep => ?_⟩
  obtain ⟨ms', -, ho⟩ := hsound.step hl hstep
  exact hs.step_iff hsound ho hl

omit [Build] in
/-- A writer asleep behind a message that leaves one byte. -/
theorem writers_served_iff_no_hoarding_one :
    letI : Build := ⟨false⟩
    ∃ s : Queue (Fin 4), 1 ∈ (s.conds .spaceFull).asleep ∧ WritersServed s := by
  let _ : Build := ⟨false⟩
  let s₀ : Queue (Fin 4) := created (ring19 freed19 0 0 0) 3
  have h₀ : IsCreated s₀ := ⟨some 0, some fun _ => 0, 19, 3, _, by decide, rfl⟩
  let s₁ := s₀.finish 0 0 (.write message10 10)
    ⟨ring19 framed10 0 18 1, [.signal .spaceEmpty], [], [true, true], .ret 0 none⟩
    (Function.update s₀.conds .spaceEmpty CondVar.empty)
  have step₁ : Step s₀ _ s₁ :=
    Step.first rfl rfl rfl (by decide) rfl (by decide) (.signal (.none rfl) (.nil _))
  let s₂ := s₁.finish 1 0 (.write [5] 1) (.quiet (ring19 framed10 0 18 1) (.wait .spaceFull))
    s₁.conds
  have step₂ : Step s₁ _ s₂ :=
    Step.first rfl rfl rfl (by decide) rfl (by decide) (.nil _)
  have hten : frameSize 10 < 2 ^ 64 := by decide
  have hone : frameSize 1 < 2 ^ 64 := by decide
  have start : Run (Guarded Step fun s l => LengthsFit s l ∧ BuffersFit s l ∧ ¬ Hoards s l)
      s₀ [] s₀ := .nil
  have run := (start.snoc
    ⟨step₁, hten, trivial, by rintro ⟨⟨h, b, hc⟩, -⟩; cases hc⟩).snoc
    ⟨step₂, hone, trivial, by rintro ⟨⟨h, b, hc⟩, -⟩; cases hc⟩
  exact ⟨s₂, by decide, (writers_served_iff_no_hoarding h₀ run).1⟩

omit [Build] in
/-- Two writers of one byte each wait for room; a read of ten bytes signals one of them,
which leaves ten bytes to the other and nobody to wake it. -/
theorem writer_misses_wakeup :
    letI : Build := ⟨false⟩
    ∃ (s₀ s : Queue (Fin 4)) (ls : List (Label (Fin 4))), IsCreated s₀ ∧
      Run (Guarded Step fun s l => LengthsFit s l ∧ BuffersFit s l) s₀ ls s ∧
      ¬ WritersServed s := by
  let _ : Build := ⟨false⟩
  let s₀ : Queue (Fin 4) := created (ring19 freed19 0 0 0) 3
  have h₀ : IsCreated s₀ := ⟨some 0, some fun _ => 0, 19, 3, _, by decide, rfl⟩
  -- Thread 0 fills the ring but for one byte.
  let s₁ := s₀.finish 0 0 (.write message10 10)
    ⟨ring19 framed10 0 18 1, [.signal .spaceEmpty], [], [true, true], .ret 0 none⟩
    (Function.update s₀.conds .spaceEmpty CondVar.empty)
  have step₁ : Step s₀ _ s₁ :=
    Step.first rfl rfl rfl (by decide) rfl (by decide) (.signal (.none rfl) (.nil _))
  -- Threads 1 and 2 go to sleep.
  let sleep : Segment Empty := .quiet (ring19 framed10 0 18 1) (.wait .spaceFull)
  let s₂ := s₁.finish 1 0 (.write [5] 1) sleep s₁.conds
  have step₂ : Step s₁ _ s₂ :=
    Step.first rfl rfl rfl (by decide) rfl (by decide) (.nil _)
  let s₃ := s₂.finish 2 0 (.write [6] 1) sleep s₂.conds
  have step₃ : Step s₂ _ s₃ :=
    Step.first rfl rfl rfl (by decide) rfl (by decide) (.nil _)
  -- Thread 3 reads and wakes thread 1.
  let k₄ := Function.update s₃.conds .spaceFull ⟨(s₃.conds .spaceFull).asleep.erase 1, {1}⟩
  let got : Segment Empty :=
    ⟨ring19 freed19 18 18 2, [.signal .spaceFull], message10, [true, true, true], .ret 10 none⟩
  let s₄ := s₃.finish 3 0 (.read 10 0) got k₄
  have step₄ : Step s₃ _ s₄ :=
    Step.first rfl rfl rfl (by decide) trivial (by decide)
      (.signal (.one (t := 1) (by decide)) (.nil _))
  -- Thread 1 writes.
  let k₅ := Function.update s₄.conds .spaceFull ((s₄.conds .spaceFull).resume 1)
  let s₅ := s₄.finish 1 0 (.write [5] 1)
    ⟨ring19 ([0, 0, 0, 0, 0, 0, 0, 5] ++ List.replicate 10 0xDD ++ [1]) 18 8 3,
      [.signal .spaceEmpty], [], [true, true], .ret 0 none⟩
    (Function.update k₅ .spaceEmpty CondVar.empty)
  have step₅ : Step s₄ _ s₅ :=
    Step.resume rfl rfl rfl (by decide) (.signal (.none rfl) (.nil _))
  have hten : frameSize 10 < 2 ^ 64 := by decide
  have hone : frameSize 1 < 2 ^ 64 := by decide
  have hfits : BuffersFit s₃ (.segment 3 0 (.read 10 0) got) :=
    fun _ mq hmq => readFits_of_held_le (by cases hmq; decide)
  refine ⟨s₀, s₅, _, h₀, ((((Run.nil.snoc ⟨step₁, hten, trivial⟩).snoc ⟨step₂, hone, trivial⟩).snoc
    ⟨step₃, hone, trivial⟩).snoc ⟨step₄, trivial, hfits⟩).snoc
    ⟨step₅, hone, trivial⟩, ?_⟩
  intro hserved
  have hwoken := hserved _ 2 1 rfl (by decide) ⟨0, [6], rfl⟩ (by decide)
  revert hwoken
  decide

end Traces

end UoftOs.MsgQueue.Queue
