import Mathlib.Data.List.TakeWhile
import UoftOs.MsgQueue.PollWakeups
import UoftOs.MsgQueue.ReaderWakeups
import UoftOs.MsgQueue.Serialised

/-!
# What the program delivers

The queue of segments carries messages in order and never faults. So does the program: no
statement of a thread on the queue can fault, and the messages that reads return are those of
the successful writes, in order and exactly once, over any interleaving. A read that sleeps
has not missed a message: what holds of sleeping readers between two segments holds of the
program whenever the mutex is free.
-/

namespace UoftOs.MsgQueue

open Lib Lib.Frames Lib.Threads Lib.Transition

section Statements
variable {Q : Type} [Build] {pc : Pc Q} {w : Wakeup Q} {n : Node} {mq : MqBackend Empty}
  {errno : Option Errno}

omit [Build] in
theorem unguarded_of_early (hv : pc.visits? = some (w, n)) (h : pc.Early) : pc.Unguarded := by
  cases pc <;> first | exact h.1 | cases hv

omit [Build] in
theorem serves_of_visits (hv : pc.visits? = some (w, n)) : pc.serves = some w.q := by
  cases pc <;> simp_all [Pc.visits?, Pc.serves]

theorem remaining_poll (h : pc.serves = none) :
    remaining errno pc mq = .ok (.quiet mq (.ret 0 none)) := by
  cases pc <;> first | rfl | cases h

omit [Build] in
/-- A linked node has a successor, or is the last. -/
theorem nextNode_ok {nodes : List Node} (h : n ∈ nodes) : ∃ next, nextNode nodes n = .ok next := by
  unfold nextNode
  split
  · next hdrop =>
      rw [List.dropWhile_eq_nil_iff] at hdrop
      simpa using hdrop n h
  · exact ⟨_, rfl⟩

/-- What waits on the condition variable `spaceEmpty` is a read. -/
theorem readWait_of_wait {q : Q} {m : Mutex Q} {next : Pc Q}
    (hc : code pc = .wait (.space q .spaceEmpty) m next) :
    ∃ c, pc = .readWait c ∧ c.q = q := by
  cases pc <;> simp only [code, Instr.wait.injEq, CondId.space.injEq, reduceCtorEq, and_false,
    false_and] at hc
  exact ⟨_, rfl, hc.1.1⟩

end Statements

namespace Observed

variable {T Q : Type} [DecidableEq T] [DecidableEq Q] [Build] {q : Q} {p p' : Observed T Q}
  {s s₀ : Queue T} {log : List (Queue.Label T)} {t : T} {pc : Pc Q} {l : Label T (Pc Q)}

/-- The nodes that `helper_wakeup` is at are on the list. -/
def Listed (q : Q) (p : Observed T Q) : Prop :=
  ∀ t pc w n, (p.sys.threads t).point = some pc → pc.visits? = some (w, n) → w.q = q →
    n ∈ (p.sys.objects q).queueListHead

/-- The list changes under the mutex, which `helper_wakeup` holds. -/
theorem Listed.step (h : Listed q p) (ho : p.Ordered q) (hstep : Step q p l p') :
    Listed q p' := by
  rintro t pc w n hpc hv rfl
  have hmem : n ∈ (p.sys.objects w.q).queueListHead := by
    rcases hstep.sys.visits hpc hv with ⟨pc₀, hpc₀, hv₀⟩ | hmem
    · exact h t pc₀ w n hpc₀ hv₀ rfl
    · exact hmem
  cases hstep.sys.listChange with
  | same hlist hquiet =>
      rw [hlist]
      exact hmem
  | @links v c i r hl hv₀ hs =>
      rw [hs, State.goTo_objects]
      by_cases hr : w.q = r
      · rw [← hr, State.setObject_object]
        exact List.mem_append_left _ hmem
      · rw [State.setObject_of_ne _ _ hr]
        exact hmem
  | @unlinks v c numReady i r hl hv₀ hs =>
      have htv : t ≠ v := by
        rintro rfl
        rw [hs, State.goTo_self] at hpc
        cases hpc
        cases hv
      rw [hs, State.goTo_of_ne _ _ _ htv] at hpc
      have hearly : ¬ pc.Early := fun he =>
        ho.locked t pc hpc (serves_of_visits hv) (unguarded_of_early hv he)
      have hown := (ho.exclusive t).mp (held_of_visits hpc hv hearly)
      have hr : w.q ≠ r := by
        rintro rfl
        have hheld : Held code holds (p.sys.threads v) (.queue w.q) := by
          rw [hv₀]
          exact List.mem_singleton_self _
        rw [(ho.exclusive v).mp hheld, Option.some.injEq] at hown
        exact htv hown.symm
      rw [hs, State.goTo_objects, State.setObject_of_ne _ _ hr]
      exact hmem

omit [DecidableEq Q] in
/-- What a thread has entered the critical section for does not fault. -/
theorem Enters.ok {mq : MqBackend Empty} {x : Use} {r : Except Fault Effects}
    {k : Cond → CondVar T} {ms : List (List UInt8)} (h : Enters s mq t x r k)
    (hs : Queue.Sound s ms) (hmq : s.mq = some mq) (hin : x.handle ∈ s.handles)
    (hfit : ∀ hd call, x = .call hd call → Queue.Call.LengthFits call) : ∃ d, r = .ok d := by
  cases h with
  | call hb hd =>
      obtain ⟨seg, ms', rfl, -⟩ := hb.outcome hs hmq (hfit _ _ rfl)
      exact ⟨_, rfl⟩
  | opening => exact ⟨_, rfl⟩
  | @closing hd hidle =>
      rcases msgQueueClose_counted (h := hd) (hs.counted mq hmq) hin with
        ⟨-, hrun⟩ | ⟨-, mq', ns, hrun, -⟩
      · exact ⟨_, by rw [hrun]; rfl⟩
      · exact ⟨_, by rw [hrun]; rfl⟩

omit [DecidableEq Q] in
/-- No access of a thread to the queue faults. -/
theorem Serialised.accesses (h : Serialised q s₀ p log s) (hlisted : Listed q p)
    {f : MqBackend Node → Except Fault (MqBackend Node × Pc Q)}
    (hpc : p.sys.threads t = .running pc) (hc : code pc = .access q f) :
    ∃ mq' next, f (p.sys.objects q) = .ok (mq', next) := by
  have ho := h.ordered
  have hpoint : (p.sys.threads t).point = some pc := by rw [hpc]; rfl
  cases hf : f (p.sys.objects q) with
  | ok result => exact ⟨_, _, rfl⟩
  | error e =>
      exfalso
      by_cases hwalk : pc.Walks
      · cases pc <;> simp only [Pc.Walks] at hwalk
        case wakeNext w n =>
          obtain ⟨rfl, rfl⟩ := Instr.access.inj hc
          obtain ⟨next, hnext⟩ := nextNode_ok (hlisted t _ w n hpoint rfl rfl)
          simp only [hnext, bind, Except.bind] at hf
          cases next <;> cases hf
      · have hrem : remaining none pc (p.sys.objects q).unlinked = .error e :=
          remaining_fault hc hwalk hf
        rcases access_serves hc with hserves | hserves
        · have hheld : holds pc (.queue q) :=
            holds_of_serves hserves (ho.locked t pc hpoint hserves) (by simp [hc])
          have hown := (ho.exclusive t).mp (by rw [hpc]; exact hheld)
          obtain ⟨x, hx, -⟩ := ho.serving.purpose_eq hpoint hserves
          obtain ⟨pc', hpc', hin⟩ := h.agree.owned t hown
          obtain rfl := Thread.running.inj (hpc.symm.trans hpc')
          cases hin with
          | polls hu =>
              rw [hx] at hu
              cases hu
          | works hu hw =>
              obtain rfl := Option.some.inj (hx.symm.trans hu)
              obtain ⟨ms, hd⟩ := h.delivered
              obtain ⟨mq, r, k, errno, ns, oks, k', hmq, hent, hr, -, -⟩ := hw
              obtain ⟨d, rfl⟩ := hent.ok hd.sound hmq
                (by rw [h.agree.handles]; exact ho.serving.inUse t x hx)
                fun hd' call heq => (ho.serving.promised t hd' call (heq ▸ hx)).2.1
              rw [remaining_fault hc hwalk hf] at hr
              cases hr
        · rw [remaining_poll hserves] at hrem
          cases hrem

/-- In every run of the program, over any interleaving of its statements: what reads have
returned, followed by the messages that the ring holds while the mutex is free, is what the
successful writes have put in, and no statement on the queue faults. -/
theorem program_delivers_fifo {flags : CInt} {p₀ : Observed T Q} (h₀ : Created q flags p₀)
    {ls : List (Label T (Pc Q))} (run : Run (Guarded (Step q) (Fits q)) p₀ ls p) :
    (∃ ms, p.clients.received ++ ms = p.clients.sent ∧
      (p.sys.owner (.queue q) = none → p.clients.handles.Nonempty →
        (p.sys.objects q).buffer.held = frames 8 ms)) ∧
    ∀ t pc f, p.sys.threads t = .running pc → code pc = .access q f →
      ∃ mq' next, f (p.sys.objects q) = .ok (mq', next) := by
  obtain ⟨log, s, h⟩ := serialised_of_run h₀ run
  have hlisted : Listed q p := by
    have hinv : p.Ordered q ∧ Listed q p := by
      refine Run.state_invariant (I := fun p => p.Ordered q ∧ Listed q p) ⟨h₀.ordered, ?_⟩ ?_ run
      · exact fun t pc w n hpc => absurd hpc h₀.quiescent.no_point
      · rintro p l p' ⟨ho, hlisted⟩ ⟨hstep, hfit⟩
        exact ⟨ho.step hfit hstep, hlisted.step ho hstep⟩
    exact hinv.2
  obtain ⟨ms, hd⟩ := h.delivered
  refine ⟨⟨ms, ?_, fun hfree hopen => ?_⟩, fun t pc f hpc hc => h.accesses hlisted hpc hc⟩
  · rw [← h.agree.sent, ← h.agree.received]
    exact hd.fifo
  · rcases (h.agree.free hfree).backend with hnone | hsome
    · have hempty := hd.sound.alive hnone
      rw [h.agree.handles] at hempty
      exact absurd hempty hopen.ne_empty
    · exact (hd.sound.framed _ hsome).rep.held

omit [Build] in
/-- One write runs from its entry to its return. -/
theorem program_delivers_fifo_write :
    letI : Build := ⟨false⟩
    ∃ (p₀ p : Observed Unit Unit) (ls : List (Label Unit (Pc Unit))),
      Run (Guarded (Step ()) (Fits ())) p₀ ls p ∧ p.clients.sent = [[5]] ∧
      ((∃ ms, p.clients.received ++ ms = p.clients.sent ∧
        (p.sys.owner (.queue ()) = none → p.clients.handles.Nonempty →
          (p.sys.objects ()).buffer.held = frames 8 ms)) ∧
      ∀ t pc f, p.sys.threads t = .running pc → code pc = .access () f →
        ∃ mq' next, f (p.sys.objects ()) = .ok (mq', next)) := by
  let _ : Build := ⟨false⟩
  let mq (buffer : List UInt8) (head tail : UInt64) (event : CInt) : MqBackend Node :=
    ⟨⟨buffer, 10, head, tail, false⟩, 1, 1, 1, false, false, event, []⟩
  let p₀ : Observed Unit Unit :=
    ⟨⟨fun _ => none, fun _ => .idle, fun _ => mq (List.replicate 10 0xDD) 0 0 0, 0⟩, .initial 3⟩
  have h₀ : Created () 3 p₀ :=
    ⟨⟨fun _ => rfl, fun _ => rfl, fun _ => rfl⟩, rfl, some 0, some fun _ => 0, 10, by decide⟩
  let c : WriteCall Unit := ⟨(), 3, [5], 1⟩
  let k := p₀.clients.enter () (.call 0 (.write [5] 1))
  let p₁ : Observed Unit Unit := ⟨p₀.sys.goTo () (.writeLock c), k⟩
  have enters : Guarded (Step ()) (Fits ()) p₀ (.start () (.writeLock c)) p₁ :=
    ⟨⟨.start rfl ⟨.write () 3 [5] 1, rfl⟩,
      .start (.write rfl ⟨Finset.mem_singleton_self 0, fun _ => (Option.some_ne_none _).symm⟩
        rfl rfl (by decide : (1 : UInt64).toNat + 8 < 2 ^ 64)
        (rfl : hasAny 3 msgQueueNonblock = false))⟩,
      by rintro t c ⟨⟩⟩
  have start : Run (Guarded (Step ()) (Fits ())) p₀ [] p₀ := .nil
  let inside (mq : MqBackend Node) (pc : Pc Unit) : Observed Unit Unit :=
    ⟨⟨Function.update (fun _ => none) (.queue ()) (some ()), fun _ => .running pc, fun _ => mq, 0⟩,
      k⟩
  have access {f} (pc next : Pc Unit) (m m' : MqBackend Node) (hc : code pc = .access () f)
      (hf : f m = .ok (m', next)) (hu : ¬ pc.Unlocks) (hk : k = k.after () () m pc) :
      Guarded (Step ()) (Fits ()) (inside m pc) (.step ()) (inside m' next) :=
    Step.runs () pc _ rfl hu (.access rfl hc hf) hk
  let m₀ := mq (List.replicate 10 0xDD) 0 0 0
  let m₁ := mq [1, 0, 0, 0, 0, 0, 0, 0, 0xDD, 0xDD] 0 8 0
  let m₂ := mq [1, 0, 0, 0, 0, 0, 0, 0, 5, 0xDD] 0 9 0
  let m₃ := mq [1, 0, 0, 0, 0, 0, 0, 0, 5, 0xDD] 0 9 1
  have hspace : ¬ ringBufferFree m₀.buffer < c.length + sizeofSizeT := by decide
  have hheader : ringBufferWrite m₀.buffer (sizeBytes c.length) sizeofSizeT =
      .ok (true, m₁.buffer) := by decide
  have hbody : ringBufferWrite m₁.buffer c.buffer c.length = .ok (true, m₂.buffer) := by decide
  have hevents : writeEvents m₂ = m₃ := by decide
  have locks : Guarded (Step ()) (Fits ()) p₁ (.step ()) (inside m₀ (.writeCheck c)) :=
    Step.runs () (.writeLock c) _ rfl id (.lock rfl rfl rfl) rfl
  have hsignal : code (Pc.writeSignal c) = .signal (.space () .spaceEmpty) (.writeEvents c) :=
    congrArg (Instr.signal (CondId.space () .spaceEmpty))
      (if_neg (by decide : ¬ hasAny 3 msgQueueNonblock = true))
  have signals : Guarded (Step ()) (Fits ()) (inside m₂ (.writeSignal c)) (.step ())
      (inside m₂ (.writeEvents c)) :=
    Step.runs () (.writeSignal c) _ rfl id
      (.signalNone rfl hsignal (by rintro u ⟨pc, m, next, h, -⟩; cases h)) rfl
  have unlocks : Guarded (Step ()) (Fits ()) (inside m₃ (.wakeDone ⟨(), 0, false⟩)) (.step ()) _ :=
    Step.runs () (.wakeDone ⟨(), 0, false⟩) ⟨_, k.returned () 0⟩ rfl id
      (.unlock rfl rfl) rfl
  have run := (((((((((start.snoc enters).snoc locks).snoc
    (access (.writeCheck c) (.writeTest c) m₀ m₀ rfl rfl id rfl)).snoc
    (access (.writeTest c) (.writeHeader c) m₀ m₀ rfl (by rw [if_neg hspace]) id rfl)).snoc
    (access (.writeHeader c) (.writeBody c) m₀ m₁ rfl (by rw [hheader]; rfl) id rfl)).snoc
    (access (.writeBody c) (.writeSignal c) m₁ m₂ rfl (by rw [hbody]; rfl) id rfl)).snoc
    signals).snoc
    (access (.writeEvents c) (.wakeStart ⟨(), 0, false⟩) m₂ m₃ rfl
      (congrArg (fun m => Except.ok (m, Pc.wakeStart ⟨(), 0, false⟩)) hevents) id rfl)).snoc
    (access (.wakeStart ⟨(), 0, false⟩) (.wakeDone ⟨(), 0, false⟩) m₃ m₃ rfl rfl id rfl)).snoc
    unlocks
  exact ⟨p₀, _, _, run, by decide, program_delivers_fifo h₀ run⟩

/-- In every run of the program no read misses its wake-up: while the mutex is free and a
read sleeps, the queue has a writer or never had one, and for every message in the ring a
read that has been woken has still to go on. -/
theorem program_wakes_readers {flags : CInt} {p₀ : Observed T Q} (h₀ : Created q flags p₀)
    {ls : List (Label T (Pc Q))} (run : Run (Guarded (Step q) (Fits q)) p₀ ls p)
    (hfree : p.sys.owner (.queue q) = none) {c : ReadCall Q} (hq : c.q = q)
    (hsleep : p.sys.threads t = .asleep (.readWait c)) :
    ∃ (ms : List (List UInt8)) (woken : Finset T),
      (p.sys.objects q).buffer.held = frames 8 ms ∧ ms.length ≤ woken.card ∧
      (∀ u ∈ woken, ∃ c, p.sys.threads u = .woken (.readWait c) ∧ c.q = q) ∧
      (p.sys.objects q).noWriters = false := by
  obtain ⟨log, s, h⟩ := serialised_of_run h₀ run
  obtain ⟨ms, hsound, -, hserved⟩ := Queue.served_of_run h₀.isCreated
    (h.run.mono fun _ _ _ hl => ⟨hl.1, hl.2.1, hl.2.2.1⟩)
  have hset := h.agree.free hfree
  have hk := hset.sleepers .spaceEmpty
  have hasleep := hk.asleep t ⟨_, _, _, hsleep, by rw [code, hq]⟩
  obtain ⟨mq, hmq, hheld, hcard, hwriters⟩ := hserved.asleep hsound ⟨t, hasleep⟩
  have hbackend : mq = (p.sys.objects q).unlinked := by
    rcases hset.backend with hnone | hsome
    · rw [hnone] at hmq
      cases hmq
    · exact Option.some.inj (hmq.symm.trans hsome)
  subst hbackend
  refine ⟨ms, _, hheld, hcard, fun u hu => ?_, hwriters⟩
  obtain ⟨pc, m, next, hth, hc⟩ := (hk.waiters u).mp (Finset.mem_union_right _ hu)
  obtain ⟨c', rfl, hq'⟩ := readWait_of_wait hc
  rcases hth with hth | hth
  · have hboth := hk.asleep u ⟨_, _, _, hth, hc⟩
    exact absurd hu (Finset.disjoint_left.mp hk.proper hboth)
  · exact ⟨c', hth, hq'⟩

omit [Build] in
/-- A read of an empty queue goes to sleep. -/
theorem program_wakes_readers_one :
    letI : Build := ⟨false⟩
    ∃ (p : Observed Unit Unit) (c : ReadCall Unit),
      p.sys.threads () = .asleep (.readWait c) ∧
      ∃ (ms : List (List UInt8)) (woken : Finset Unit),
        (p.sys.objects ()).buffer.held = frames 8 ms ∧ ms.length ≤ woken.card ∧
        (∀ u ∈ woken, ∃ c, p.sys.threads u = .woken (.readWait c) ∧ c.q = ()) ∧
        (p.sys.objects ()).noWriters = false := by
  let _ : Build := ⟨false⟩
  let mq : MqBackend Node :=
    ⟨⟨List.replicate 10 0xDD, 10, 0, 0, false⟩, 1, 1, 1, false, false, 0, []⟩
  let p₀ : Observed Unit Unit :=
    ⟨⟨fun _ => none, fun _ => .idle, fun _ => mq, 0⟩, .initial 3⟩
  have h₀ : Created () 3 p₀ :=
    ⟨⟨fun _ => rfl, fun _ => rfl, fun _ => rfl⟩, rfl, some 0, some fun _ => 0, 10, by decide⟩
  let c : ReadCall Unit := ⟨(), 3, 1, 0⟩
  let k := p₀.clients.enter () (.call 0 (.read 1 0))
  let p₁ : Observed Unit Unit := ⟨p₀.sys.goTo () (.readLock c), k⟩
  have enters : Guarded (Step ()) (Fits ()) p₀ (.start () (.readLock c)) p₁ :=
    ⟨⟨.start rfl ⟨.read () 3 1 0, rfl⟩,
      .start (.read rfl ⟨Finset.mem_singleton_self 0, fun _ => (Option.some_ne_none _).symm⟩ rfl)⟩,
      by rintro t c ⟨⟩⟩
  have start : Run (Guarded (Step ()) (Fits ())) p₀ [] p₀ := .nil
  have hopen : ¬ (mq.noWriters && ringBufferUsed mq.buffer == 0) = true := by decide
  have hempty : (!mq.noWriters && ringBufferUsed mq.buffer == 0) = true := by decide
  have hblock : ¬ hasAny c.flags msgQueueNonblock = true := by decide
  let inside (pc : Pc Unit) : Observed Unit Unit :=
    ⟨⟨Function.update (fun _ => none) (.queue ()) (some ()), fun _ => .running pc, fun _ => mq, 0⟩,
      k⟩
  have locks : Guarded (Step ()) (Fits ()) p₁ (.step ()) (inside (.readEof c)) :=
    Step.runs () (.readLock c) _ rfl id (.lock rfl rfl rfl) rfl
  have access {f} (pc next : Pc Unit) (hc : code pc = .access () f)
      (hf : f mq = .ok (mq, next)) (hu : ¬ pc.Unlocks) (hk : k = k.after () () mq pc) :
      Guarded (Step ()) (Fits ()) (inside pc) (.step ()) (inside next) :=
    Step.runs () pc _ rfl hu (.access rfl hc hf) hk
  have looks := access (.readEof c) (.readTest c) rfl (if_neg hopen) id rfl
  have tests := access (.readTest c) (.readWait c) rfl ((if_pos hempty).trans
    (congrArg (fun pc => Except.ok (mq, pc)) (if_neg hblock))) id rfl
  have run := ((((start.snoc enters).snoc locks).snoc looks).snoc tests).snoc
    (Step.runs () (.readWait c) ⟨_, k⟩ rfl id (.wait rfl rfl) rfl)
  exact ⟨_, c, rfl, program_wakes_readers (t := ()) (c := c) h₀ run rfl rfl rfl⟩

end Observed

end UoftOs.MsgQueue
