import UoftOs.MsgQueue.Prodcon

/-!
# The producer and the consumer come to an end

Each call of the two threads is one segment, or one that waits and one that goes on
when woken. So a measure bounds the steps that are no spurious wake-ups, and as
long as `main` has not finished there is such a step.
-/

namespace UoftOs.MsgQueue.Prodcon

open Lib Lib.Frames Lib.Transition Queue

/-- A step in which a thread goes on that nobody has woken. -/
def Program.Spurious (p : Program) : Program.Act → Prop
  | .queue l => Queue.Spurious p.queue l
  | .own _ => False

/-! ## The measure -/

/-- The steps left to the producer. -/
def Producer.rank (numberCount : CInt) : Producer → Nat
  | sendCount => 4 * numberCount.toInt.toNat + 10
  | test i _ => 4 * (numberCount.toInt - i.toInt).toNat + 7
  | send i _ _ => 4 * (numberCount.toInt - i.toInt).toNat + 6
  | close _ => 6
  | exited _ => 0

/-- The steps left to the consumer. -/
def Consumer.rank (numberCount : CInt) : Consumer → Nat
  | readCount _ => 4 * numberCount.toInt.toNat + 10
  | test _ i _ => 4 * (numberCount.toInt - i.toInt).toNat + 7
  | read _ i _ _ => 4 * (numberCount.toInt - i.toInt).toNat + 6
  | close _ => 6
  | join _ => 1
  | finished _ => 0
  | readFailed => 0

/-- One for a thread that is not in a call. -/
def idle (queue : Queue Side) (t : Side) : Nat := if queue.calls t = none then 1 else 0

/-- The steps left to the program. -/
def Program.measure (numberCount : CInt) (p : Program) : Nat :=
  p.producer.rank numberCount + p.consumer.rank numberCount + idle p.queue .producer +
    idle p.queue .consumer + wokenCount p.queue.conds

theorem idle_le (queue : Queue Side) (t : Side) : idle queue t ≤ 1 := by
  unfold idle
  split <;> omega

theorem card_side_le (ts : Finset Side) : ts.card ≤ 2 := by
  have hsub : ts ⊆ {.producer, .consumer} := by
    intro t _
    cases t <;> decide
  exact Finset.card_le_card hsub

theorem wokenCount_le (k : Cond → CondVar Side) : wokenCount k ≤ 4 := by
  have hfull := card_side_le (k .spaceFull).woken
  have hempty := card_side_le (k .spaceEmpty).woken
  unfold wokenCount
  omega

section Measure
variable [Build] {numberCount : CInt} {as : List Program.Act} {p p' : Program} {ns : List CInt}
  {ms : List (List UInt8)} {s s' : Queue Side} {t : Side} {h : HandleId} {c : Call}
  {seg : Segment Empty}

/-- A segment that waits again is spurious or uses something up. -/
theorem waits_measure (hq : Step s (.segment t h c seg) s') (hi : Idle s) {cv : Cond}
    (next : seg.next = .wait cv) (notify : seg.notify = []) :
    idle s' t + wokenCount s'.conds ≤ idle s t + wokenCount s.conds ∧
      (¬ Queue.Spurious s (.segment t h c seg) →
        idle s' t + wokenCount s'.conds < idle s t + wokenCount s.conds) := by
  obtain ⟨hle, hless⟩ := hq.wokenCount_le hi (Or.inl notify)
  rw [notify, List.length_nil, Nat.add_zero] at hle hless
  have hbusy : idle s' t = 0 := by
    rw [idle, hq.segment_frame.2.2.2.2, next]
    rfl
  rw [hbusy]
  refine ⟨by omega, fun hreal => ?_⟩
  by_cases hc : s.calls t = none
  · have hfree : idle s t = 1 := if_pos hc
    omega
  · have := hless hc hreal
    omega

/-- A segment that returns leaves its thread free and wakes one other at most. -/
theorem signals_measure (hq : Step s (.segment t h c seg) s') (hi : Idle s) {cv : Cond}
    (notify : seg.notify = [.signal cv]) :
    idle s' t + wokenCount s'.conds ≤ idle s t + wokenCount s.conds + 2 := by
  have hle := (hq.wokenCount_le hi (Or.inr ⟨cv, notify⟩)).1
  rw [notify, List.length_singleton] at hle
  have := idle_le s' t
  omega

theorem idle_other (hq : Step s (.segment t h c seg) s') {u : Side} (hu : u ≠ t) :
    idle s' u = idle s u := by
  rw [idle, hq.segment_frame.2.2.2.1 u hu]
  rfl

theorem send_measure (hf : Flow numberCount as p ns ms) (hc : p.producer.call numberCount = some c)
    (hq : Step p.queue (.segment .producer writerHandle c seg) s') :
    (p.afterProducer s' seg.next).measure numberCount ≤ p.measure numberCount ∧
      (¬ p.Spurious (.queue (.segment .producer writerHandle c seg)) →
        (p.afterProducer s' seg.next).measure numberCount < p.measure numberCount) := by
  obtain ⟨number, rfl⟩ : ∃ number, c = .write (intBytes number) sizeofInt := by
    cases hp : p.producer <;> rw [hp] at hc <;> cases hc <;> exact ⟨_, rfl⟩
  have hi := hf.delivered.idle
  have hother := idle_other hq (by decide : Side.consumer ≠ .producer)
  obtain ⟨ms', -, -, hputs⟩ := hq.write_puts hf.delivered.sound hi (hf.writable hc)
  cases hputs with
  | waits next notify =>
      obtain ⟨hle, hlt⟩ := waits_measure hq hi next notify
      have hafter : p.afterProducer s' seg.next = { p with queue := s' } := by
        rw [next]
        rfl
      rw [hafter]
      simp only [Program.measure, Program.Spurious, hother]
      exact ⟨by omega, fun hreal => by have := hlt hreal; omega⟩
  | puts next notify =>
      have hle := signals_measure hq hi notify
      obtain ⟨producer, hreturns, hrank⟩ : ∃ producer, p.producer.returns 0 none = some producer ∧
          producer.rank numberCount + 3 = p.producer.rank numberCount := by
        have hsends := hf.sends
        cases hp : p.producer with
        | sendCount =>
            refine ⟨.test 0 0, rfl, ?_⟩
            have hzero : (0 : CInt).toInt = 0 := rfl
            simp only [Producer.rank, hzero]
            omega
        | send i sum number =>
            rw [hp] at hsends
            obtain ⟨hi, -, hlt⟩ := hsends
            have hslt : i.slt numberCount = true := by
              rw [BitVec.slt_iff_toInt_lt, hi]
              omega
            refine ⟨.test (i + 1) (sum + number), rfl, ?_⟩
            simp only [Producer.rank, toInt_succ hslt]
            omega
        | _ =>
            rw [hp] at hc
            cases hc
      have hafter : p.afterProducer s' seg.next = { p with queue := s', producer } := by
        simp only [next, Program.afterProducer, hreturns]
      rw [hafter]
      simp only [Program.measure, hother]
      exact ⟨by omega, fun _ => by omega⟩

theorem receive_measure (hf : Flow numberCount as p ns ms) (hc : p.consumer.Calls c)
    (hq : Step p.queue (.segment .consumer readerHandle c seg) s') :
    (p.afterConsumer numberCount s' seg).measure numberCount ≤ p.measure numberCount ∧
      (¬ p.Spurious (.queue (.segment .consumer readerHandle c seg)) →
        (p.afterConsumer numberCount s' seg).measure numberCount < p.measure numberCount) := by
  obtain ⟨msgHead, rfl⟩ : ∃ msgHead, c = .read sizeofInt msgHead := by
    cases hp : p.consumer <;> rw [hp] at hc <;> first | exact hc.elim | exact hc
  have hi := hf.delivered.idle
  have hother := idle_other hq (by decide : Side.producer ≠ .consumer)
  obtain ⟨ms', -, -, hgets⟩ := hq.read_gets hf.delivered.sound hi hf.readable
  cases hgets with
  | waits next notify =>
      obtain ⟨hle, hlt⟩ := waits_measure hq hi next notify
      have hafter : p.afterConsumer numberCount s' seg = { p with queue := s' } := by
        simp only [Program.afterConsumer, next]
      rw [hafter]
      simp only [Program.measure, Program.Spurious, hother]
      exact ⟨by omega, fun hreal => by have := hlt hreal; omega⟩
  | ends next notify closed =>
      obtain ⟨mq, k, hmq, -⟩ := hq.begins
      have hwriter := hf.wired.hasWriter mq hmq (hf.producer_holds hc)
      rw [closed mq hmq] at hwriter
      cases hwriter
  | @gets m _ _ next stored notify =>
      have hle := signals_measure hq hi notify
      have hlen := hf.length_message List.mem_cons_self
      obtain ⟨consumer, hreturns, hrank⟩ : ∃ consumer,
          p.consumer.returns numberCount m.length seg.stored = some consumer ∧
          consumer.rank numberCount + 3 = p.consumer.rank numberCount := by
        rcases hf.head_message hc with ⟨⟨count, hcons⟩, rfl, -⟩ |
          ⟨i, sum, value, rs, n, hcons, rfl, -, hi, -, hlt⟩
        · refine ⟨.test numberCount 0 0, ?_, ?_⟩
          · simp [hcons, Consumer.returns, stored, storeInt_intBytes]
          · have hzero : (0 : CInt).toInt = 0 := rfl
            simp only [hcons, Consumer.rank, hzero]
            omega
        · have hslt : i.slt numberCount = true := by
            rw [BitVec.slt_iff_toInt_lt, hi]
            omega
          refine ⟨.test numberCount (i + 1) (sum + n), ?_, ?_⟩
          · simp [hcons, Consumer.returns, stored, storeInt_intBytes]
          · simp only [hcons, Consumer.rank, toInt_succ hslt]
            omega
      have hafter : p.afterConsumer numberCount s' seg = { p with queue := s', consumer } := by
        simp only [Program.afterConsumer, next, hreturns]
      rw [hafter]
      simp only [Program.measure, hother]
      exact ⟨by omega, fun _ => by omega⟩

/-- A close wakes each thread at most. -/
theorem close_measure (hf : Flow numberCount as p ns ms) (hq : Step p.queue (.close h) s') :
    idle s' .producer + idle s' .consumer + wokenCount s'.conds ≤
      idle p.queue .producer + idle p.queue .consumer + wokenCount p.queue.conds + 4 := by
  obtain ⟨ho, -⟩ := hf.delivered_close hq
  have hcalls := ho.close_frame.2.2.2.1
  have hwoken := wokenCount_le s'.conds
  simp only [idle, hcalls]
  omega

/-- No step adds to the measure, and one that is not spurious takes from it. -/
theorem Program.Move.measure_le {a : Program.Act} (hm : Program.Move numberCount p a p')
    (hf : Flow numberCount as p ns ms) : p'.measure numberCount ≤ p.measure numberCount ∧
      (¬ p.Spurious a → p'.measure numberCount < p.measure numberCount) := by
  have below (hlt : p'.measure numberCount < p.measure numberCount) :
      p'.measure numberCount ≤ p.measure numberCount ∧
        (¬ p.Spurious a → p'.measure numberCount < p.measure numberCount) :=
    ⟨Nat.le_of_lt hlt, fun _ => hlt⟩
  obtain ⟨ns', ms', hf', -⟩ := hf.step hm
  cases hm with
  | send hr hc hq => exact send_measure hf hc hq
  | receive hr hc hq => exact receive_measure hf hc hq
  | nextNumber hr hp hlt hn =>
      refine below ?_
      simp only [Program.measure, hp, Producer.rank]
      omega
  | allSent hr hp hge =>
      refine below ?_
      simp only [Program.measure, hp, Producer.rank]
      omega
  | producerCloses hr hp hq =>
      have hle := close_measure hf hq
      refine below ?_
      simp only [Program.measure, hp, Producer.rank]
      omega
  | nextRead hr hc hlt =>
      refine below ?_
      simp only [Program.measure, hc, Consumer.rank]
      omega
  | allRead hr hc hge =>
      refine below ?_
      simp only [Program.measure, hc, Consumer.rank]
      omega
  | consumerCloses hr hc hq =>
      have hle := close_measure hf hq
      refine below ?_
      simp only [Program.measure, hc, Consumer.rank]
      omega
  | agrees hr hc hp =>
      refine below ?_
      simp only [Program.measure, hc, Consumer.rank]
      omega
  | sendAborts hr hc hq =>
      cases hq with
      | abort => exact absurd hf'.delivered.sound.running (by simp)
  | receiveAborts hr hc hq =>
      cases hq with
      | abort => exact absurd hf'.delivered.sound.running (by simp)
  | differs => exact absurd hf'.passed (by simp)

end Measure

/-! ## Progress -/

section Progress
variable [Build] {numberCount : CInt} {as : List Program.Act} {p p' : Program} {ns : List CInt}
  {ms ms' : List (List UInt8)} {t : Side}

/-- The waiters of a condition variable are the thread whose calls wait on it. -/
theorem waits_on (hf : Flow numberCount as p ns ms) {cv : Cond}
    (ht : t ∈ (p.queue.conds cv).waiters) :
    (t = .producer ∧ cv = .spaceFull ∧ WaitsToWrite p.queue .producer sizeofInt) ∨
      (t = .consumer ∧ cv = .spaceEmpty) := by
  obtain ⟨h, c, hc, rfl⟩ := (hf.delivered.sound.monitored.waits cv t).mp ht
  cases t with
  | producer =>
      have hcall := (hf.wired.sends _ hc).2
      cases hp : p.producer <;> rw [hp] at hcall <;> cases hcall <;>
        exact Or.inl ⟨rfl, rfl, h, _, hc⟩
  | consumer =>
      have hcall := (hf.wired.reads _ hc).2
      cases hp : p.consumer <;> rw [hp] at hcall <;>
        first | exact hcall.elim | (obtain ⟨msgHead, rfl⟩ := hcall; exact Or.inr ⟨rfl, rfl⟩)

/-- What the queue knows about wake-ups. -/
structure Roused (queue : Queue Side) (ms : List (List UInt8)) : Prop where
  served : Served queue ms
  writersServed : WritersServed queue

/-- One thread writes, so no writer takes the room of another. -/
theorem not_hoards (hf : Flow numberCount as p ns ms) (l : Label Side) : ¬ Hoards p.queue l := by
  cases l with
  | segment t h c seg =>
      cases c with
      | read length msgHead => exact id
      | write buffer length =>
          rintro ⟨-, hwoken, mq, u, l, -, hu, -, -⟩
          have ht : t ∈ (p.queue.conds .spaceFull).woken := by
            rw [hwoken]
            exact Finset.mem_singleton_self t
          have htu : t = u := by
            rcases waits_on hf (Finset.mem_union_right _ ht) with ⟨rfl, -⟩ | ⟨-, hcv⟩
            · rcases waits_on hf (Finset.mem_union_left _ hu) with ⟨rfl, -⟩ | ⟨-, hcv⟩
              · rfl
              · cases hcv
            · cases hcv
          subst htu
          exact Finset.disjoint_left.mp (hf.delivered.sound.monitored.proper _) hu ht
  | _ => exact id

theorem Roused.step (hr : Roused p.queue ms) (hf : Flow numberCount as p ns ms)
    {a : Program.Act} (hm : Program.Move numberCount p a p')
    (hq : Flow.QueueMoves p.queue ms a p'.queue ms') : Roused p'.queue ms' := by
  have hsound := hf.delivered.sound
  generalize p'.queue = queue' at hq
  cases hq with
  | own => exact hr
  | @queue l _ _ ho =>
      have hfits : LengthsFit p.queue l ∧ BuffersFit p.queue l := by
        cases hm with
        | @send c seg queue hrun hc hq =>
            obtain ⟨number, rfl⟩ : ∃ number, c = .write (intBytes number) sizeofInt := by
              cases hp : p.producer <;> rw [hp] at hc <;> cases hc <;> exact ⟨_, rfl⟩
            exact ⟨(by decide : 4 + 8 < 2 ^ 64), trivial⟩
        | @receive c seg queue hrun hc hq =>
            obtain ⟨msgHead, rfl⟩ : ∃ msgHead, c = .read sizeofInt msgHead := by
              cases hp : p.consumer <;> rw [hp] at hc <;> first | exact hc.elim | exact hc
            exact ⟨trivial, hf.readable.buffersFit hsound⟩
        | sendAborts => cases ho
        | receiveAborts => cases ho
        | producerCloses => exact ⟨trivial, trivial⟩
        | consumerCloses => exact ⟨trivial, trivial⟩
      exact ⟨hr.served.step hsound hf.delivered.idle ho hfits.2,
        (hr.writersServed.step_iff hsound ho hfits.1).mpr (not_hoards hf l)⟩

/-- A thread that is not in a call, or has been woken, can take a step of its call. -/
theorem exists_segment (hf : Flow numberCount as p ns ms) {h : HandleId} {c : Call}
    (hh : h ∈ p.queue.handles) (hp : c.WellPassed) (hfit : Call.LengthFits c)
    (hcall : p.queue.calls t = none ∨ ∃ k, p.queue.calls t = some k ∧ k.handle = h ∧ k.call = c ∧
      t ∈ (p.queue.conds c.cond).woken) :
    ∃ seg queue, Step p.queue (.segment t h c seg) queue ∧
      ¬ Queue.Spurious p.queue (.segment t h c seg) := by
  rcases hcall with hnone | ⟨⟨h', c', status⟩, hk, rfl, rfl, hwoken⟩
  · obtain ⟨seg, queue, hq⟩ := hf.delivered.sound.exists_first hnone hh hp hfit
    refine ⟨seg, queue, hq, ?_⟩
    rintro ⟨hc, -⟩
    rw [hnone] at hc
    cases hc
  · cases status with
    | waiting =>
        obtain ⟨seg, queue, hq⟩ := hf.delivered.sound.exists_resume hk hfit
        exact ⟨seg, queue, hq, fun hs => hs.2 hwoken⟩
    | draining msgHead => exact absurd hk (hf.delivered.idle _ _ _ _)

/-- A thread in a call that cannot go on is asleep. -/
theorem asleep_of_not_woken (hf : Flow numberCount as p ns ms) {k : Pending}
    (hk : p.queue.calls t = some k) (hnot : t ∉ (p.queue.conds k.call.cond).woken) :
    t ∈ (p.queue.conds k.call.cond).asleep := by
  obtain ⟨h, c, status⟩ := k
  cases status with
  | draining msgHead => exact absurd hk (hf.delivered.idle _ _ _ _)
  | waiting =>
      have hwaits := (hf.delivered.sound.monitored.waits c.cond t).mpr ⟨h, c, hk, rfl⟩
      exact (Finset.mem_union.mp hwaits).resolve_right hnot

/-- While the consumer sleeps unsignalled there is no message. -/
theorem empty_of_asleep (hf : Flow numberCount as p ns ms) (hr : Roused p.queue ms)
    (hsleep : .consumer ∈ (p.queue.conds .spaceEmpty).asleep) : ms = [] := by
  have hnone : (p.queue.conds .spaceEmpty).woken = ∅ := by
    rw [Finset.eq_empty_iff_forall_notMem]
    intro u hu
    rcases waits_on hf (Finset.mem_union_right _ hu) with ⟨-, hcv, -⟩ | ⟨rfl, -⟩
    · cases hcv
    · exact Finset.disjoint_left.mp (hf.delivered.sound.monitored.proper _) hsleep hu
  have hle := hr.served.woken ⟨_, hsleep⟩
  rw [hnone, Finset.card_empty] at hle
  exact List.length_eq_zero_iff.mp (Nat.le_zero.mp hle)

/-- On an empty queue the producer does not sleep unsignalled. -/
theorem producer_not_asleep (hf : Flow numberCount as p ns []) (hr : Roused p.queue []) :
    .producer ∉ (p.queue.conds .spaceFull).asleep := by
  intro hsleep
  rcases waits_on hf (Finset.mem_union_left _ hsleep) with ⟨-, -, hwait⟩ | ⟨hside, -⟩
  · obtain ⟨h, buffer, hk⟩ := hwait
    obtain ⟨mq, hmq⟩ := hf.delivered.sound.backend (hf.delivered.sound.monitored.inUse _ _ hk)
    have hroom : frameSize sizeofInt ≤ room mq := by
      have hsize := hf.wired.size mq hmq
      have hrep := (hf.delivered.sound.framed mq hmq).rep.freeInner_toNat
      rw [room, ringBufferFree, hrep, frames_nil, List.length_nil]
      exact (Nat.le_of_lt hsize : 12 ≤ _)
    obtain ⟨u, hu⟩ := hr.writersServed mq _ _ hmq hsleep ⟨h, buffer, hk⟩ hroom
    rcases waits_on hf (Finset.mem_union_right _ hu) with ⟨rfl, -⟩ | ⟨-, hcv⟩
    · exact Finset.disjoint_left.mp (hf.delivered.sound.monitored.proper _) hsleep hu
    · cases hcv
  · cases hside

/-- A producer in a call goes on unless it sleeps. -/
theorem producer_step (hf : Flow numberCount as p ns ms) (hr : p.Running) {c : Call}
    (hc : p.producer.call numberCount = some c)
    (hawake : .producer ∉ (p.queue.conds .spaceFull).asleep) :
    ∃ a p', Program.Move numberCount p a p' ∧ ¬ p.Spurious a := by
  obtain ⟨number, rfl⟩ : ∃ number, c = .write (intBytes number) sizeofInt := by
    cases hp : p.producer <;> rw [hp] at hc <;> cases hc <;> exact ⟨_, rfl⟩
  have hholds : p.producer.Holds := by
    cases hp : p.producer with
    | exited sum =>
        rw [hp] at hc
        cases hc
    | _ => trivial
  have hcall : p.queue.calls .producer = none ∨ ∃ k, p.queue.calls .producer = some k ∧
      k.handle = writerHandle ∧ k.call = .write (intBytes number) sizeofInt ∧
      .producer ∈ (p.queue.conds .spaceFull).woken := by
    cases hk : p.queue.calls .producer with
    | none => exact Or.inl rfl
    | some k =>
        obtain ⟨hhandle, hsame⟩ := hf.wired.sends k hk
        have hkc : k.call = .write (intBytes number) sizeofInt :=
          Option.some.inj (hsame.symm.trans hc)
        refine Or.inr ⟨k, rfl, hhandle, hkc, ?_⟩
        by_contra hnot
        have hsleep := asleep_of_not_woken hf hk (by rw [hkc]; exact hnot)
        rw [hkc] at hsleep
        exact hawake hsleep
  have hpassed : (Call.write (intBytes number) sizeofInt).WellPassed := length_intBytes number
  have hfit : Call.LengthFits (.write (intBytes number) sizeofInt) :=
    (by decide : 4 + 8 < 2 ^ 64)
  obtain ⟨seg, queue, hq, hreal⟩ := exists_segment hf (hf.wired.writerOpen.mpr hholds)
    hpassed hfit hcall
  exact ⟨_, _, .send hr hc hq, hreal⟩

/-- A consumer in a call goes on unless it sleeps. -/
theorem consumer_step (hf : Flow numberCount as p ns ms) (hr : p.Running) {c : Call}
    (hc : p.consumer.Calls c) (hawake : .consumer ∉ (p.queue.conds .spaceEmpty).asleep) :
    ∃ a p', Program.Move numberCount p a p' ∧ ¬ p.Spurious a := by
  have hholds : p.consumer.Holds := by
    cases hp : p.consumer <;> rw [hp] at hc <;> first | exact hc.elim | trivial
  have hreads {k : Pending} (hk : p.queue.calls .consumer = some k) :
      k.handle = readerHandle ∧ p.consumer.Calls k.call ∧ k.call.cond = .spaceEmpty ∧
        Call.LengthFits k.call := by
    obtain ⟨hhandle, hcall⟩ := hf.wired.reads k hk
    obtain ⟨msgHead, hkc⟩ : ∃ msgHead, k.call = .read sizeofInt msgHead := by
      cases hp : p.consumer <;> rw [hp] at hcall <;> first | exact hcall.elim | exact hcall
    rw [hkc]
    exact ⟨hhandle, hkc ▸ hcall, rfl, trivial⟩
  cases hk : p.queue.calls .consumer with
  | none =>
      obtain ⟨msgHead, rfl⟩ : ∃ msgHead, c = .read sizeofInt msgHead := by
        cases hp : p.consumer <;> rw [hp] at hc <;> first | exact hc.elim | exact hc
      have hpassed : (Call.read sizeofInt msgHead).WellPassed := trivial
      obtain ⟨seg, queue, hq, hreal⟩ := exists_segment hf (hf.wired.readerOpen.mpr hholds)
        hpassed trivial (Or.inl hk)
      exact ⟨_, _, .receive hr hc hq, hreal⟩
  | some k =>
      obtain ⟨hhandle, hcalls, hcond, hfit⟩ := hreads hk
      have hwoken : .consumer ∈ (p.queue.conds k.call.cond).woken := by
        by_contra hnot
        have hsleep := asleep_of_not_woken hf hk hnot
        rw [hcond] at hsleep
        exact hawake hsleep
      obtain ⟨seg, queue, hq, hreal⟩ := exists_segment hf (hf.wired.readerOpen.mpr hholds)
        (hf.delivered.sound.monitored.passed _ k hk) hfit
        (Or.inr ⟨k, hk, hhandle, rfl, hwoken⟩)
      exact ⟨_, _, .receive hr hcalls hq, hreal⟩

/-- A producer with its handle open goes on unless it sleeps. -/
theorem holding_producer_step (hf : Flow numberCount as p ns ms) (hr : p.Running)
    (hholds : p.producer.Holds) (hawake : .producer ∉ (p.queue.conds .spaceFull).asleep) :
    ∃ a p', Program.Move numberCount p a p' ∧ ¬ p.Spurious a := by
  cases hp : p.producer with
  | sendCount => exact producer_step hf hr (by rw [hp]; rfl) hawake
  | send i sum number => exact producer_step hf hr (by rw [hp]; rfl) hawake
  | test i sum =>
      cases hlt : i.slt numberCount with
      | true => exact ⟨_, _, .nextNumber hr hp hlt (show (0 : CInt).toNat < 64 by decide), id⟩
      | false => exact ⟨_, _, .allSent hr hp hlt, id⟩
  | close sum =>
      obtain ⟨queue, hq⟩ := hf.delivered.sound.exists_close (hf.wired.writerOpen.mpr hholds) (by
        rintro (_ | _) k hk
        · have hcall := (hf.wired.sends k hk).2
          rw [hp] at hcall
          cases hcall
        · rw [(hf.wired.reads k hk).1]
          decide)
      exact ⟨_, _, .producerCloses hr hp hq, id⟩
  | exited sum =>
      rw [hp] at hholds
      exact hholds.elim

/-- A consumer that is to read goes on, or the producer does. -/
theorem reading_step (hf : Flow numberCount as p ns ms) (hr : Roused p.queue ms)
    (hrun : p.Running) {c : Call} (hc : p.consumer.Calls c) :
    ∃ a p', Program.Move numberCount p a p' ∧ ¬ p.Spurious a := by
  by_cases hsleep : .consumer ∈ (p.queue.conds .spaceEmpty).asleep
  · obtain rfl := empty_of_asleep hf hr hsleep
    exact holding_producer_step hf hrun (hf.producer_holds hc) (producer_not_asleep hf hr)
  · exact consumer_step hf hrun hc hsleep

/-- While `main` has not returned, some step is possible that is no spurious wake-up. -/
theorem exists_step (hf : Flow numberCount as p ns ms) (hr : Roused p.queue ms)
    (hrun : ¬ p.consumer.Returned) : ∃ a p', Program.Move numberCount p a p' ∧ ¬ p.Spurious a := by
  have hrunning : p.Running := ⟨hf.passed, hf.delivered.sound.running, hrun⟩
  cases hc : p.consumer with
  | readCount count => exact reading_step hf hr hrunning (by rw [hc]; exact ⟨0, rfl⟩)
  | read count i sum value => exact reading_step hf hr hrunning (by rw [hc]; exact ⟨0, rfl⟩)
  | test count i sum =>
      cases hlt : i.slt count with
      | true => exact ⟨_, { p with consumer := .read count i sum 0 }, .nextRead hrunning hc hlt, id⟩
      | false => exact ⟨_, _, .allRead hrunning hc hlt, id⟩
  | close sum =>
      have hholds : p.consumer.Holds := by
        rw [hc]
        trivial
      obtain ⟨queue, hq⟩ := hf.delivered.sound.exists_close (hf.wired.readerOpen.mpr hholds) (by
        rintro (_ | _) k hk
        · rw [(hf.wired.sends k hk).1]
          decide
        · have hcalls := (hf.wired.reads k hk).2
          rw [hc] at hcalls
          exact hcalls.elim)
      exact ⟨_, _, .consumerCloses hrunning hc hq, id⟩
  | join sum =>
      have hawake : .producer ∉ (p.queue.conds .spaceFull).asleep := by
        intro hsleep
        obtain ⟨h, k, hk, -⟩ := (hf.delivered.sound.monitored.waits _ _).mp
          (Finset.mem_union_left _ hsleep)
        have hholds := hf.consumer_holds (hf.wired.sends _ hk).2
        rw [hc] at hholds
        exact hholds
      cases hp : p.producer with
      | exited expectedSum =>
          by_cases heq : expectedSum = sum
          · subst heq
            exact ⟨_, _, .agrees hrunning hc hp, id⟩
          · exact ⟨_, _, .differs hrunning hc hp heq, id⟩
      | _ => exact holding_producer_step hf hrunning (by rw [hp]; trivial) hawake
  | finished sum =>
      rw [hc] at hrun
      exact absurd trivial hrun
  | readFailed =>
      rw [hc] at hrun
      exact absurd trivial hrun

end Progress

/-- A run of the program takes a bounded number of steps other than spurious wake-ups,
and it can take another one until `main` has finished. -/
theorem prodcon_terminates [Build] {numberCount : CInt} {capacity : UInt64} {p₀ p : Program}
    {as : List Program.Act} {n : Nat} (h₀ : Program.IsStarted capacity p₀)
    (hcap : 12 < capacity.toNat)
    (run : CountedRun (Program.Move numberCount) (fun p a => ¬ p.Spurious a) p₀ as n p) :
    n ≤ 8 * numberCount.toInt.toNat + 22 ∧
      ((∃ sum, p.consumer = .finished sum) ∨
        ∃ a p', Program.Move numberCount p a p' ∧ ¬ p.Spurious a) := by
  let I (as : List Program.Act) (p : Program) : Prop :=
    ∃ ns ms, Flow numberCount as p ns ms ∧ Roused p.queue ms
  obtain ⟨hflow, hconds⟩ : Flow numberCount [] p₀ [] [] ∧
      ∀ cv, p₀.queue.conds cv = Lib.CondVar.empty := started_flow h₀ hcap
  have hinit : I [] p₀ := by
    refine ⟨[], [], hflow, ⟨fun _ => Nat.zero_le _, fun mq hmq hw => ?_⟩, ?_⟩
    · rw [hconds]
      rfl
    · intro mq t length hmq ht
      rw [hconds] at ht
      cases ht
  have hstep (as : List Program.Act) (p : Program) (a : Program.Act) (p' : Program)
      (hI : I as p) (hm : Program.Move numberCount p a p') : I (as ++ [a]) p' ∧
        p'.measure numberCount ≤ p.measure numberCount ∧
        (¬ p.Spurious a → p'.measure numberCount < p.measure numberCount) := by
    obtain ⟨ns, ms, hf, hr⟩ := hI
    obtain ⟨ns', ms', hf', hq⟩ := hf.step hm
    exact ⟨⟨ns', ms', hf', hr.step hf hm hq⟩, hm.measure_le hf⟩
  have hbound := run.add_le hinit hstep
  have hmeasure : p₀.measure numberCount ≤ 8 * numberCount.toInt.toNat + 22 := by
    have hwoken : wokenCount p₀.queue.conds = 0 := by
      simp [wokenCount, hconds, CondVar.empty]
    obtain ⟨_, _, _, -, -, hp, ⟨count, hc⟩, -⟩ := h₀
    have hproducer := idle_le p₀.queue .producer
    have hconsumer := idle_le p₀.queue .consumer
    simp only [Program.measure, hp, hc, hwoken, Producer.rank, Consumer.rank]
    omega
  refine ⟨by omega, ?_⟩
  obtain ⟨ns, ms, hf, hr⟩ : I as p :=
    run.run.invariant hinit fun as p a p' hI hm => (hstep as p a p' hI hm).1
  by_cases hreturned : p.consumer.Returned
  · left
    cases hc : p.consumer with
    | finished sum => exact ⟨sum, rfl⟩
    | readFailed =>
        rcases hf.received with ⟨⟨count, hread⟩, -⟩ | ⟨rs, -, hadds⟩
        · rw [hc] at hread
          cases hread
        · rw [hc] at hadds
          exact hadds.elim
    | _ =>
        rw [hc] at hreturned
        exact hreturned.elim
  · exact Or.inr (exists_step hf hr hreturned)

/-- The consumer sleeps, wakes up for nothing and sleeps again; then the producer has to
go on. -/
theorem prodcon_terminates_one :
    letI : Build := ⟨false⟩
    ∃ p : Program, p.producer = .sendCount ∧
      Side.consumer ∈ (p.queue.conds .spaceEmpty).asleep ∧
      1 ≤ 8 * (1 : CInt).toInt.toNat + 22 ∧
      ∃ a p', Program.Move 1 p a p' ∧ ¬ p.Spurious a := by
  let _ : Build := ⟨false⟩
  let freed : List UInt8 := List.replicate 13 0xDD
  let mq : MqBackend Empty := ⟨⟨freed, 13, 0, 0, false⟩, 2, 1, 1, false, false, 0, []⟩
  let q₀ : Queue Side :=
    ⟨some mq, {1, 0}, Function.update (fun _ => 1) 1 2, fun _ => none, fun _ => CondVar.empty, false⟩
  let p₀ : Program := ⟨q₀, .sendCount, .readCount 0, false⟩
  have h₀ : Program.IsStarted 13 p₀ :=
    ⟨some 0, some fun _ => 0, ⟨⟨freed, 13, 0, 0, false⟩, 1, 1, 0, false, false, 0, []⟩, by decide,
      .open rfl rfl (by decide) (by decide) (by decide), rfl, ⟨0, rfl⟩, rfl⟩
  let sleep : Segment Empty := .quiet mq (.wait .spaceEmpty)
  let q₁ := q₀.finish .consumer 0 (.read 4 0) sleep q₀.conds
  have first : Step q₀ (.segment .consumer 0 (.read 4 0) sleep) q₁ :=
    Step.first rfl rfl rfl (by decide) trivial (by decide) (.nil _)
  let q₂ := q₁.finish .consumer 0 (.read 4 0) sleep
    (Function.update q₁.conds .spaceEmpty ((q₁.conds .spaceEmpty).resume .consumer))
  have again : Step q₁ (.segment .consumer 0 (.read 4 0) sleep) q₂ :=
    Step.resume rfl rfl rfl (by decide) (.nil _)
  let p₁ : Program := ⟨q₁, .sendCount, .readCount 0, false⟩
  let p₂ : Program := ⟨q₂, .sendCount, .readCount 0, false⟩
  have calls : (Consumer.readCount 0).Calls (.read 4 0) := ⟨0, rfl⟩
  have move₁ : Program.Move 1 p₀ (.queue (.segment .consumer 0 (.read 4 0) sleep)) p₁ :=
    .receive ⟨rfl, rfl, id⟩ calls first
  have move₂ : Program.Move 1 p₁ (.queue (.segment .consumer 0 (.read 4 0) sleep)) p₂ :=
    .receive ⟨rfl, rfl, id⟩ calls again
  have real : ¬ p₀.Spurious (.queue (.segment .consumer 0 (.read 4 0) sleep)) := by
    rintro ⟨hc, -⟩
    cases hc
  have spurious : p₁.Spurious (.queue (.segment .consumer 0 (.read 4 0) sleep)) :=
    ⟨rfl, Finset.notMem_empty _⟩
  have start : CountedRun (Program.Move 1) (fun p a => ¬ p.Spurious a) p₀ [] 0 p₀ := .nil
  have run := (start.costs move₁ real).free move₂ fun hreal => hreal spurious
  obtain ⟨hle, ⟨sum, hc⟩ | hstep⟩ := prodcon_terminates h₀ (by decide) run
  · cases hc
  · exact ⟨p₂, rfl, by decide, hle, hstep⟩

end UoftOs.MsgQueue.Prodcon
