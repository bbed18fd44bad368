import UoftOs.MsgQueue.Sound

/-!
# Messages through the ring, in order and exactly once

For blocking writers and reads whose buffers fit, what reads return is a prefix
of what writes have accepted, and the ring holds the rest.
-/

namespace UoftOs.MsgQueue.Queue

open Lib Lib.Frames Lib.Transition

variable {T : Type} [DecidableEq T] [Build] {s : Queue T} {ms : List (List UInt8)}
  {mq : MqBackend Empty}

/-- The messages that reads return, in order. -/
def returned : List (Label T) → List (List UInt8)
  | [] => []
  | .segment _ _ (.read ..) seg :: ls =>
      match seg.next with
      | .ret value _ => if 0 < value then seg.stored :: returned ls else returned ls
      | _ => returned ls
  | _ :: ls => returned ls

/-- The messages of the writes that return 0, in order. -/
def written : List (Label T) → List (List UInt8)
  | [] => []
  | .segment _ _ (.write buffer _) seg :: ls =>
      match seg.next with
      | .ret value _ => if value = 0 then buffer :: written ls else written ls
      | _ => written ls
  | _ :: ls => written ls

omit [DecidableEq T] [Build] in
theorem returned_append (ls ls' : List (Label T)) :
    returned (ls ++ ls') = returned ls ++ returned ls' := by
  fun_induction returned ls <;> simp_all [returned]

omit [DecidableEq T] [Build] in
theorem written_append (ls ls' : List (Label T)) :
    written (ls ++ ls') = written ls ++ written ls' := by
  fun_induction written ls <;> simp_all [written]

/-- Writer handles block. -/
def Blocking (s : Queue T) : Label T → Prop
  | .segment _ h (.write ..) _ =>
      hasAny (s.flags h) msgQueueWriter = true → hasAny (s.flags h) msgQueueNonblock = false
  | _ => True

/-- The label is a segment whose ring operations all succeed, and a read that
returns a positive value returns the length of what it has stored. -/
def RingSucceeds : Label T → Prop
  | .segment _ _ (.read ..) seg => (∀ ok ∈ seg.ringOk, ok = true) ∧
      ∀ value errno, seg.next = .ret value errno → 0 < value → value = seg.stored.length
  | .segment _ _ (.write ..) seg => ∀ ok ∈ seg.ringOk, ok = true
  | .abort .. => False
  | _ => True

omit [DecidableEq T] in
/-- A segment of a blocking call moves whole messages out of or into the ring. -/
theorem effect_delivers {t : T} {h : HandleId} {c : Call} {seg : Segment Empty}
    {ms' : List (List UInt8)} (he : Effect mq ms (s.flags h) c seg ms') (hf : Framed mq ms)
    (hst : c.Started (s.flags h)) (hb : Blocking s (.segment t h c seg)) :
    RingSucceeds (.segment t h c seg) ∧
      returned [.segment t h c seg] ++ ms' = ms ++ written [.segment t h c seg] := by
  have hok := he.ring_ok
  cases he with
  | @readEmpty length msgHead mq' value errno hm hb hs hv =>
      have hnot : ¬ 0 < value := by omega
      refine ⟨⟨hok, fun v e hn hpos => ?_⟩, by simp [returned, written, Segment.quiet, hnot]⟩
      cases hn
      omega
  | readSleeps hm hw =>
      exact ⟨⟨hok, fun v e hn => by cases hn⟩, by simp [returned, written, Segment.quiet]⟩
  | readTooSmall hm hlt hn =>
      exact ⟨⟨hok, fun v e hn => by cases hn⟩, by simp [returned, written, Segment.quiet]⟩
  | @readTakes length msgHead seg m rest hm hf' hs stored notify ringOk next =>
      subst hm
      have hpos : 0 < m.length := List.length_pos_iff.mpr (hf.nonempty m (by simp))
      refine ⟨⟨hok, fun v e hn _ => ?_⟩, by simp [returned, written, next, hpos, stored]⟩
      rw [next] at hn
      cases hn
      rw [stored]
  | writeSleeps hfree => exact ⟨hok, by simp [returned, written, Segment.quiet]⟩
  | @writePuts buffer length seg hfree hf' hs notify ringOk next =>
      rw [hb hst.1] at next
      exact ⟨hok, by simp [returned, written, next]⟩

omit [DecidableEq T] [Build] in
/-- A refused call moves nothing. -/
theorem refused_delivers {t : T} {h : HandleId} {c : Call} {value : Int} {errno : Option Errno}
    (hv : value ≤ 0) (hzero : ∀ buffer length, c = .write buffer length → value ≠ 0) :
    RingSucceeds (.segment t h c (.quiet mq (.ret value errno))) ∧
      returned [.segment t h c (.quiet mq (.ret value errno))] ++ ms =
        ms ++ written [.segment t h c (.quiet mq (.ret value errno))] := by
  cases c with
  | read length msgHead =>
      have hnot : ¬ 0 < value := by omega
      refine ⟨⟨by simp [Segment.quiet], fun v e hn hpos => ?_⟩,
        by simp [returned, written, Segment.quiet, hnot]⟩
      cases hn
      omega
  | write buffer length =>
      exact ⟨by simp [RingSucceeds, Segment.quiet],
        by simp [returned, written, Segment.quiet, hzero buffer length rfl]⟩

/-- What a run of blocking writers has delivered. -/
structure Delivered (ls : List (Label T)) (s : Queue T) (ms : List (List UInt8)) : Prop where
  sound : Sound s ms
  idle : Idle s
  fifo : returned ls ++ ms = written ls
  ring : ∀ l ∈ ls, RingSucceeds l

/-- The step rule for a step whose outcome is known. -/
theorem Delivered.of_outcome {ls : List (Label T)} (hd : Delivered ls s ms) {l : Label T}
    {s' : Queue T} {ms' : List (List UInt8)} (hs' : Sound s' ms') (ho : Outcome s ms l s' ms')
    (hr : BuffersFit s l) (hb : Blocking s l) : Delivered (ls ++ [l]) s' ms' := by
  have hmoves : RingSucceeds l ∧ returned [l] ++ ms' = ms ++ written [l] := by
    cases ho with
    | refused hmq hc hbuf hsame hv hzero => exact refused_delivers hv hzero
    | first hmq hc hp hst hn he => exact effect_delivers he (hd.sound.framed _ hmq) hst hb
    | resume hmq hc hp hst hn he => exact effect_delivers he (hd.sound.framed _ hmq) hst hb
    | drain hmq hc hn hdr => exact absurd hc (hd.idle _ _ _ _)
    | openRefused => exact ⟨trivial, by simp [returned, written]⟩
    | «open» hmq => exact ⟨trivial, by simp [returned, written]⟩
    | close hmq hc hn => exact ⟨trivial, by simp [returned, written]⟩
    | destroy hlast => exact ⟨trivial, by simp [returned, written]⟩
  refine ⟨hs', hd.idle.step hd.sound ho hr, ?_, ?_⟩
  · calc returned (ls ++ [l]) ++ ms'
        = returned ls ++ (returned [l] ++ ms') := by
          rw [returned_append, List.append_assoc]
      _ = returned ls ++ ms ++ written [l] := by rw [hmoves.2, List.append_assoc]
      _ = written (ls ++ [l]) := by rw [hd.fifo, written_append]
  · intro l' hl'
    rcases List.mem_append.mp hl' with hold | hnew
    · exact hd.ring l' hold
    · rw [List.mem_singleton.mp hnew]
      exact hmoves.1

theorem Delivered.step {ls : List (Label T)} (hd : Delivered ls s ms) {l : Label T}
    {s' : Queue T} (hl : LengthsFit s l) (hr : BuffersFit s l) (hb : Blocking s l)
    (h : Step s l s') : ∃ ms', Delivered (ls ++ [l]) s' ms' := by
  obtain ⟨ms', hs', ho⟩ := hd.sound.step hl h
  exact ⟨ms', hd.of_outcome hs' ho hr hb⟩

/-- The ring holds whole frames; what reads have returned, followed by the
messages in the ring, is what the successful writes have put in; no ring
operation on the way fails. -/
theorem msgQueue_delivers_fifo {s₀ : Queue T} (h₀ : IsCreated s₀) {ls : List (Label T)}
    (run : Run (Guarded Step fun s l => LengthsFit s l ∧ BuffersFit s l ∧ Blocking s l) s₀ ls s) :
    s.aborted = false ∧
    (∃ ms, (∀ mq, s.mq = some mq → mq.buffer.held = frames 8 ms) ∧
      returned ls ++ ms = written ls) ∧
    ∀ l ∈ ls, RingSucceeds l := by
  obtain ⟨ms, hd⟩ : ∃ ms, Delivered ls s ms := by
    refine Run.invariant (I := fun ls s => ∃ ms, Delivered ls s ms)
      ⟨[], created_sound h₀, created_idle h₀, rfl, by simp⟩ ?_ run
    rintro ls s l s' ⟨ms, hd⟩ ⟨hstep, hl, hr, hb⟩
    exact hd.step hl hr hb hstep
  exact ⟨hd.sound.running,
    ⟨ms, fun mq hmq => (hd.sound.framed mq hmq).rep.held, hd.fifo⟩, hd.ring⟩

omit [Build] in
/-- A reader sleeps on an empty queue of nineteen bytes; another thread writes two messages,
and the reader takes the first of them. -/
theorem msgQueue_delivers_fifo_one :
    letI : Build := ⟨false⟩
    ∃ (ls : List (Label (Fin 2))) (s : Queue (Fin 2)), written ls = [[5], [6]] ∧
      returned ls = [[5]] ∧ s.aborted = false ∧
      (∃ ms, (∀ mq, s.mq = some mq → mq.buffer.held = frames 8 ms) ∧
        returned ls ++ ms = written ls) ∧
      ∀ l ∈ ls, RingSucceeds l := by
  let _ : Build := ⟨false⟩
  let ring (buffer : List UInt8) (head tail : UInt64) (event : CInt) : MqBackend Empty :=
    ⟨⟨buffer, 19, head, tail, false⟩, 1, 1, 1, false, false, event, []⟩
  let mq₀ := ring (List.replicate 19 0xDD) 0 0 0
  let s₀ : Queue (Fin 2) := created mq₀ 3
  have h₀ : IsCreated s₀ := ⟨some 0, some fun _ => 0, 19, 3, _, by decide, rfl⟩
  -- Thread 1 goes to sleep.
  let s₁ := s₀.finish 1 0 (.read 1 0) (.quiet mq₀ (.wait .spaceEmpty)) s₀.conds
  have step₁ : Step s₀ _ s₁ :=
    Step.first rfl rfl rfl (by decide) trivial (by decide) (.nil _)
  -- Thread 0 writes and wakes thread 1, and writes again before thread 1 goes on.
  let frame (b : UInt8) : List UInt8 := [1, 0, 0, 0, 0, 0, 0, 0, b]
  let mq₂ := ring (frame 5 ++ List.replicate 10 0xDD) 0 9 1
  let s₂ := s₁.finish 0 0 (.write [5] 1)
    ⟨mq₂, [.signal .spaceEmpty], [], [true, true], .ret 0 none⟩
    (Function.update s₁.conds .spaceEmpty ⟨(s₁.conds .spaceEmpty).asleep.erase 1, {1}⟩)
  have step₂ : Step s₁ _ s₂ :=
    Step.first rfl rfl rfl (by decide) rfl (by decide)
      (.signal (.one (t := 1) (by decide)) (.nil _))
  let mq₃ := ring (frame 5 ++ frame 6 ++ [0xDD]) 0 18 1
  let s₃ := s₂.finish 0 0 (.write [6] 1)
    ⟨mq₃, [.signal .spaceEmpty], [], [true, true], .ret 0 none⟩
    (Function.update s₂.conds .spaceEmpty (s₂.conds .spaceEmpty))
  have step₃ : Step s₂ _ s₃ :=
    Step.first rfl rfl rfl (by decide) rfl (by decide)
      (.signal (.none (by decide)) (.nil _))
  let s₄ := s₃.finish 1 0 (.read 1 0)
    ⟨ring (List.replicate 9 0xDD ++ frame 6 ++ [0xDD]) 9 18 3,
      [.signal .spaceFull], [5], [true, true, true], .ret 1 none⟩
    (Function.update (Function.update s₃.conds .spaceEmpty ((s₃.conds .spaceEmpty).resume 1))
      .spaceFull CondVar.empty)
  have step₄ : Step s₃ _ s₄ :=
    Step.resume rfl rfl rfl (by decide) (.signal (.none rfl) (.nil _))
  have start : Run (Guarded Step fun s l => LengthsFit s l ∧ BuffersFit s l ∧ Blocking s l)
      s₀ [] s₀ := .nil
  have hone : (1 : UInt64).toNat + 8 < 2 ^ 64 := by decide
  have hfits₀ : ReadFits mq₀ 1 := readFits_of_held_le (by decide)
  have hfits₃ : ReadFits mq₃ 1 :=
    readFits_of_held (show mq₃.buffer.held = frames 8 [[5], [6]] by decide) (by decide) (by decide)
  have run := (((start.snoc
    ⟨step₁, trivial, fun _ mq hmq => Option.some.inj hmq ▸ hfits₀, trivial⟩).snoc
    ⟨step₂, hone, trivial, fun _ => by decide⟩).snoc
    ⟨step₃, hone, trivial, fun _ => by decide⟩).snoc
    ⟨step₄, trivial, fun _ mq hmq => Option.some.inj hmq ▸ hfits₃, trivial⟩
  exact ⟨_, _, by rfl, by rfl, msgQueue_delivers_fifo h₀ run⟩

end UoftOs.MsgQueue.Queue
