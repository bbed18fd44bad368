import UoftOs.MsgQueue.Atomicity

/-!
# Where critical sections begin and end

A thread that locks the mutex of a queue, or wakes up with it, finds the queue of segments as
the last section has left it. When the thread unlocks or goes to sleep, its segment is
executed at once.
-/

namespace UoftOs.MsgQueue

open Lib Lib.Threads Lib.Transition

section Statements
variable {Q : Type} {pc next : Pc Q} {q r : Q} {m : Mutex Q} {c : CondId Q} {cv : Cond}

/-- Under the mutex of a queue a statement serves that queue, or a poll. -/
theorem serves_of_holds (h : holds pc (.queue q)) : pc.serves = some q ∨ pc.serves = none := by
  cases pc <;> simp_all [holds, locksAt, Wakeup.locks, Pc.serves]

variable [Build]

/-- A statement that serves a queue holds its mutex, unless it is about to lock it. -/
theorem holds_of_serves (h : pc.serves = some q) (hearly : ¬ pc.Unguarded)
    (hlock : ∀ next, code pc ≠ .lock (.queue q) next) : holds pc (.queue q) := by
  cases pc <;> simp_all [holds, locksAt, Wakeup.locks, Pc.serves, Pc.Unguarded, code]

theorem serves_of_signal (hc : code pc = .signal (.space q cv) next) : pc.serves = some q := by
  cases pc <;> simp_all [code, Pc.serves]

theorem serves_of_broadcast (hc : code pc = .broadcast (.space q cv) next) :
    pc.serves = some q := by
  cases pc <;> simp_all [code, Pc.serves]

/-- A thread that waits under the mutex of a queue releases it, for a condition variable of
the queue. -/
theorem wait_of_holds (hc : code pc = .wait c m next) (h : holds pc (.queue q)) :
    m = .queue q ∧ ∃ cv, c = .space q cv := by
  cases pc <;> simp only [code, Instr.wait.injEq, reduceCtorEq] at hc <;>
    obtain ⟨rfl, rfl, -⟩ := hc <;>
    simp only [holds, locksAt, List.mem_singleton, Mutex.queue.injEq, reduceCtorEq] at h <;>
    subst h <;> exact ⟨rfl, _, rfl⟩

theorem wait_space (hc : code pc = .wait (.space q cv) m next) : m = .queue q := by
  cases pc <;> simp only [code, Instr.wait.injEq, CondId.space.injEq, reduceCtorEq, false_and]
    at hc <;> obtain ⟨⟨rfl, -⟩, rfl, -⟩ := hc <;> rfl

/-- The mutexes that are released under the mutex of a queue. -/
theorem unlock_of_holds (hc : code pc = .unlock m next) (h : holds pc (.queue q)) :
    m = .queue q ∨ ∃ poll i, m = .poll poll i := by
  cases pc <;> simp_all [code, holds, locksAt, Wakeup.locks]
  all_goals grind

/-- The mutex of a queue is released at the end of a call, by a read whose buffer is too small,
or by a poll. -/
theorem ends_of_unlock (hc : code pc = .unlock (.queue q) next) :
    pc.Ends ∨ pc.Unlocks ∨ pc.serves = none := by
  cases pc <;> simp_all [code, Pc.Ends, Pc.Unlocks, Pc.serves]

theorem access_of_holds {f : MqBackend Node → Except Fault (MqBackend Node × Pc Q)}
    (hc : code pc = .access r f) (h : holds pc (.queue q)) : r = q := by
  cases pc <;> simp_all [code, holds, locksAt, Wakeup.locks]

/-- A poll changes the waiter list alone. -/
theorem access_poll {f : MqBackend Node → Except Fault (MqBackend Node × Pc Q)}
    {mq mq' : MqBackend Node} (hc : code pc = .access q f) (hserves : pc.serves = none)
    (hf : f mq = .ok (mq', next)) : mq'.unlinked = mq.unlinked := by
  cases pc <;> simp only [code, Instr.access.injEq, reduceCtorEq] at hc <;>
    obtain ⟨rfl, rfl⟩ := hc <;> simp only [Pc.serves, reduceCtorEq] at hserves <;>
    obtain ⟨rfl, -⟩ := Prod.mk.inj (Except.ok.inj hf) <;> rfl

theorem access_serves {f : MqBackend Node → Except Fault (MqBackend Node × Pc Q)}
    (hc : code pc = .access r f) : pc.serves = some r ∨ pc.serves = none := by
  cases pc <;> simp_all [code, Pc.serves]

end Statements

section Purposes
variable {flags : HandleId → CInt} {fl : CInt} {call : Call} {x : Use}

theorem Use.Opens.eq (h : x.Opens fl) : ∃ hd, x = .opening hd fl := by
  cases x with
  | opening hd fl' =>
      obtain ⟨rfl, -⟩ := h
      exact ⟨hd, rfl⟩
  | call => exact h.elim
  | closing => exact h.elim

theorem Use.Closes.eq (h : x.Closes flags fl) : ∃ hd, x = .closing hd ∧ flags hd = fl := by
  cases x with
  | closing hd => exact ⟨hd, rfl, h⟩
  | call => exact h.elim
  | opening => exact h.elim

theorem Use.Calls.eq (h : x.Calls flags fl call) : ∃ hd, x = .call hd call ∧ flags hd = fl := by
  cases x with
  | call hd call' =>
      obtain ⟨hf, rfl⟩ := h
      exact ⟨hd, rfl, hf⟩
  | closing => exact h.elim
  | opening => exact h.elim

end Purposes

namespace Observed

variable {T Q : Type} [DecidableEq T] [Build] {q : Q} {p p' : Observed T Q} {s s' : Queue T}
  {log : List (Queue.Label T)} {ms : List (List UInt8)} {t : T} {pc next : Pc Q} {x : Use}
  {c : CondId Q} {m : Mutex Q}

omit [DecidableEq T] in
/-- A thread that waits with another mutex does not wait on the queue. -/
theorem not_waitsOn_asleep (hc : code pc = .wait c m next) (hm : m ≠ .queue q) (cv : Cond) :
    ¬ WaitsOn code (.asleep pc) (.space q cv) := by
  rw [waitsOn_asleep hc]
  rintro rfl
  exact hm (wait_space hc)

/-- The thread that enters leaves the calls of the others as they are. -/
theorem CallsMatch.enter (h : CallsMatch q p s)
    (hothers : ∀ u, u ≠ t → p'.sys.threads u = p.sys.threads u)
    (hpc : p'.sys.threads t = .running next) (hheld : holds next (.queue q))
    (huses : p'.clients.uses = p.clients.uses) : CallsMatch q p' s where
  waiting u cv hwait := by
    by_cases hut : u = t
    · subst hut
      rw [hpc] at hwait
      exact absurd hwait not_waitsOn_running
    · rw [hothers u hut] at hwait
      rw [huses]
      exact h.waiting u cv hwait
  elsewhere u hnot hwait := by
    by_cases hut : u = t
    · subst hut
      rw [hpc] at hnot
      exact absurd hheld hnot
    · rw [hothers u hut] at hnot hwait
      exact h.elsewhere u hnot hwait

variable [DecidableEq Q]

/-- Thread `t` enters a critical section. -/
theorem Matches.enter (h : Matches q p log s)
    (hsys : p'.sys = (p.sys.setOwner (.queue q) (some t)).goTo t next)
    (hclients : p'.clients = p.clients) (hheld : holds next (.queue q))
    (hin : Inside q p' s t next) : Matches q p' log s where
  handles := by rw [hclients, h.handles]
  flags := by rw [hclients, h.flags]
  sent := by rw [hclients, h.sent]
  received := by rw [hclients, h.received]
  calls := by
    refine h.calls.enter (t := t) (fun u hut => ?_) ?_ hheld (by rw [hclients])
    · rw [hsys]
      exact State.goTo_of_ne _ _ _ hut
    · rw [hsys]
      exact State.goTo_self ..
  free hnone := by
    rw [hsys, State.goTo_owner, State.setOwner_self] at hnone
    cases hnone
  owned u hu := by
    rw [hsys, State.goTo_owner, State.setOwner_self, Option.some.injEq] at hu
    subst hu
    exact ⟨next, by rw [hsys]; exact State.goTo_self .., hin⟩

omit [DecidableEq Q] in
/-- A call is made through an open handle, so its queue is there. -/
theorem Matches.backend (h : Matches q p log s) (ho : p.Ordered q) (hs : Queue.Sound s ms)
    (hfree : p.sys.owner (.queue q) = none) (hx : p.clients.uses t = some x) :
    s.mq = some (p.sys.objects q).unlinked := by
  rcases (h.free hfree).backend with hnone | hsome
  · have hmem := ho.serving.inUse t x hx
    rw [← h.handles, hs.alive hnone] at hmem
    exact absurd hmem (Finset.notMem_empty _)
  · exact hsome

omit [DecidableEq Q] in
/-- Everything that `x` is about is still to be done. -/
theorem Within.start {k : Cond → CondVar T} (hmq : s.mq = some (p.sys.objects q).unlinked)
    (hent : Enters s (p.sys.objects q).unlinked t x
      (remaining none pc (p.sys.objects q).unlinked) k)
    (hst : p.clients.stored t = [])
    (hsl : ∀ cv, Sleepers code p.sys.threads (.space q cv) (k cv)) : Within q p s t pc x := by
  refine ⟨_, _, k, none, [], [], k, hmq, hent, ?_, .nil k, hsl⟩
  rw [hst, map_after_nil]

/-- A thread locks the mutex of the queue. -/
theorem Matches.locks (h : Matches q p log s) (ho : p.Ordered q) (hs : Queue.Sound s ms)
    (hpc : p.sys.threads t = .running pc) (hc : code pc = .lock (.queue q) next)
    (hfree : p.sys.owner (.queue q) = none)
    (hsys : p'.sys = (p.sys.setOwner (.queue q) (some t)).goTo t next)
    (hclients : p'.clients = p.clients) : Matches q p' log s := by
  have hpoint : (p.sys.threads t).point = some pc := by rw [hpc]; rfl
  have hheld : holds next (.queue q) := by
    have htyped := code_typed.point pc
    rw [hc] at htyped
    exact (htyped _).mpr (.inl rfl)
  have hidle : s.calls t = none := by
    refine h.calls.elsewhere t (fun hh => ?_) fun cv => ?_
    · rw [(ho.exclusive t).mp hh] at hfree
      cases hfree
    · rw [hpc]
      exact not_waitsOn_running
  have hset : Settled q p'.sys s := by
    refine (h.free hfree).congr (.of_keeps t (fun u hut => ?_) (fun cv => ?_) fun cv => ?_) ?_
    · rw [hsys]
      exact .inl (State.goTo_of_ne _ _ _ hut)
    · rw [hpc]
      exact not_waitsOn_running
    · rw [hsys, State.goTo_self]
      exact not_waitsOn_running
    · rw [hsys]
      rfl
  have hobj : p'.sys.objects q = p.sys.objects q := by rw [hsys]; rfl
  refine h.enter hsys hclients hheld ?_
  have polls (hserves : pc.serves ≠ some q) : Inside q p' s t next := by
    refine .polls ?_ hset hidle
    rw [hclients]
    refine ho.serving.idle t fun pc' hpc' => ?_
    obtain rfl : pc = pc' := Option.some.inj (hpoint.symm.trans hpc')
    exact hserves
  have works {x : Use} (hx : p.clients.uses t = some x) (hst : p.clients.stored t = [])
      (hent : Enters s (p.sys.objects q).unlinked t x
        (remaining none next (p.sys.objects q).unlinked) s.conds) : Inside q p' s t next := by
    refine .works (by rw [hclients, hx]) (.start ?_ ?_ (by rw [hclients, hst]) hset.sleepers)
    · rw [hobj]
      exact h.backend ho hs hfree hx
    · rw [hobj]
      exact hent
  have calls {hd call} (hx : p.clients.uses t = some (.call hd call)) :
      Enters s (p.sys.objects q).unlinked t (.call hd call)
        ((call.first (p.sys.objects q).unlinked (s.flags hd)).map .ofSegment) s.conds := by
    refine .call (.first hidle ?_ (ho.serving.promised t hd call hx).1) fun n => ?_
    · rw [h.handles]
      exact ho.serving.inUse t _ hx
    · rw [hidle]
      exact (Option.some_ne_none _).symm
  cases pc <;> simp only [code, Instr.lock.injEq, Mutex.queue.injEq, reduceCtorEq, false_and]
    at hc <;> obtain ⟨rfl, rfl⟩ := hc
  case openLock q flags =>
    obtain ⟨x, hx, hp, hst⟩ := ho.serving.purpose t _ hpoint rfl
    obtain ⟨hd, rfl⟩ := hp.eq
    exact works hx (hst id) (.opening hidle)
  case closeLock q flags =>
    obtain ⟨x, hx, hp, hst⟩ := ho.serving.purpose t _ hpoint rfl
    obtain ⟨hd, rfl, hf⟩ := hp.eq
    have hent : Enters s (p.sys.objects q).unlinked t (.closing hd) _ _ := .closing hidle
    rw [h.flags, hf] at hent
    exact works hx (hst id) hent
  case readLock c =>
    obtain ⟨x, hx, hp, hst⟩ := ho.serving.purpose t _ hpoint rfl
    obtain ⟨hd, rfl, hf⟩ := hp.eq
    have hent := calls hx
    rw [h.flags, hf] at hent
    exact works hx (hst id) hent
  case writeLock c =>
    obtain ⟨x, hx, hp, hst⟩ := ho.serving.purpose t _ hpoint rfl
    obtain ⟨hd, rfl, hf⟩ := hp.eq
    have hent := calls hx
    rw [h.flags, hf] at hent
    exact works hx (hst id) hent
  case pollRegister c i q => exact polls (Option.some_ne_none q).symm
  case pollUnregister c numReady i q => exact polls (Option.some_ne_none q).symm

/-- A thread comes back from its wait. -/
theorem Matches.relocks (h : Matches q p log s) (ho : p.Ordered q) (hs : Queue.Sound s ms)
    (hpc : p.sys.threads t = .woken pc) (hc : code pc = .wait c (.queue q) next)
    (hfree : p.sys.owner (.queue q) = none)
    (hsys : p'.sys = (p.sys.setOwner (.queue q) (some t)).goTo t next)
    (hclients : p'.clients = p.clients) : Matches q p' log s := by
  have hpoint : (p.sys.threads t).point = some pc := by rw [hpc]; rfl
  have htyped := code_typed.point pc
  rw [hc] at htyped
  obtain ⟨-, cv, rfl⟩ := wait_of_holds hc htyped.1
  have hwaits {cv' : Cond} (hcv : cv' = cv) :
      WaitsOn code (p.sys.threads t) (.space q cv') := by
    subst hcv
    rw [hpc]
    exact ⟨pc, _, next, .inr rfl, hc⟩
  obtain ⟨hd, call, hx, hcall⟩ := h.calls.waiting t cv (hwaits rfl)
  have hobj : p'.sys.objects q = p.sys.objects q := by rw [hsys]; rfl
  have hthreads : p'.sys.threads = Function.update p.sys.threads t (.running next) := by
    rw [hsys]
    rfl
  have hset := h.free hfree
  have resumed (hcond : call.cond = cv) (cv' : Cond) :
      Sleepers code p'.sys.threads (.space q cv')
        (Function.update s.conds call.cond ((s.conds call.cond).resume t) cv') := by
    rw [hthreads]
    by_cases hcv : cv' = call.cond
    · subst hcv
      rw [Function.update_self]
      exact (hset.sleepers _).resume not_waitsOn_running
    · rw [Function.update_of_ne hcv]
      refine (hset.sleepers cv').update (fun hw => hcv ?_) not_waitsOn_running
      rw [hpc, waitsOn_woken, waitsOn_asleep hc, CondId.space.injEq] at hw
      rw [hcond, hw.2]
  have works (hst : p.clients.stored t = []) (hcond : call.cond = cv)
      (hrem : (call.loop (p.sys.objects q).unlinked (s.flags hd)).map .ofSegment =
        remaining none next (p.sys.objects q).unlinked) : Inside q p' s t next := by
    refine .works (by rw [hclients, hx]) (.start ?_ ?_ (by rw [hclients, hst]) (resumed hcond))
    · rw [hobj]
      exact h.backend ho hs hfree hx
    · rw [hobj, ← hrem]
      refine .call (.resume hcall) fun n hn => ?_
      rw [hcall] at hn
      cases hn
  refine h.enter hsys hclients ((htyped.2 _).mpr htyped.1) ?_
  cases pc <;> simp only [code, Instr.wait.injEq, CondId.space.injEq, Mutex.queue.injEq,
    reduceCtorEq, false_and] at hc
  case readWait c =>
    obtain ⟨⟨rfl, rfl⟩, -, rfl⟩ := hc
    obtain ⟨x, hx', hp, hst⟩ := ho.serving.purpose t _ hpoint rfl
    obtain ⟨hd', rfl, hf⟩ := hp.eq
    obtain ⟨rfl, rfl⟩ := Use.call.inj (Option.some.inj (hx.symm.trans hx'))
    refine works (hst id) rfl ?_
    rw [h.flags, hf]
    rfl
  case writeWait c =>
    obtain ⟨⟨rfl, rfl⟩, -, rfl⟩ := hc
    obtain ⟨x, hx', hp, hst⟩ := ho.serving.purpose t _ hpoint rfl
    obtain ⟨hd', rfl, hf⟩ := hp.eq
    obtain ⟨rfl, rfl⟩ := Use.call.inj (Option.some.inj (hx.symm.trans hx'))
    refine works (hst id) rfl ?_
    rw [h.flags, hf]
    rfl

end Observed

end UoftOs.MsgQueue
