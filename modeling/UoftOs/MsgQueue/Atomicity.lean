import UoftOs.MsgQueue.Fifo
import UoftOs.MsgQueue.Serving

/-!
# Critical sections are atomic

A thread that holds the mutex of a queue has executed a part of one segment. `Matches` lets
the queue of atomic segments lag behind the system until the mutex is released: between
critical sections the two agree, and within one the queue is as the section has found it.

## Implementation notes

The waiter list is no part of the queue of segments, and a thread that polls changes
nothing there.
-/

namespace UoftOs.MsgQueue

open Lib Lib.Threads Lib.Transition

namespace Observed

variable {T Q : Type} [DecidableEq T] [Build]

/-- Between critical sections the backend is the one of the system, unless the queue has
been destroyed, and the sleepers are the threads that wait. -/
structure Settled (q : Q) (sys : System T Q) (s : Queue T) : Prop where
  backend : s.mq = none ∨ s.mq = some (sys.objects q).unlinked
  sleepers : ∀ cv, Sleepers code sys.threads (.space q cv) (s.conds cv)

/-- Thread `t` enters a critical section with the backend `mq`: what it is going to do, and
the sleepers from then on. -/
inductive Enters (s : Queue T) (mq : MqBackend Empty) (t : T) :
    Use → Except Fault Effects → (Cond → CondVar T) → Prop
  | call {h c r k} (hb : Queue.Begins s mq t h c r k)
      (hd : ∀ n, s.calls t ≠ some ⟨h, c, .draining n⟩) :
      Enters s mq t (.call h c) (r.map .ofSegment) k
  | opening {h flags} (hc : s.calls t = none) :
      Enters s mq t (.opening h flags) (.ok (.quiet (mqOpen mq flags) (.ret 0 none))) s.conds
  | closing {h} (hc : s.calls t = none) :
      Enters s mq t (.closing h) ((msgQueueClose mq (s.flags h)).map .ofClose) s.conds

/-- Thread `t` at `pc` has done a part of what it entered the critical section for. -/
def Within (q : Q) (p : Observed T Q) (s : Queue T) (t : T) (pc : Pc Q) (x : Use) : Prop :=
  ∃ mq r k errno ns oks k', s.mq = some mq ∧ Enters s mq t x r k ∧
    r = (remaining errno pc (p.sys.objects q).unlinked).map
      (·.after ns (p.clients.stored t) oks) ∧
    Queue.Notified ns k k' ∧ ∀ cv, Sleepers code p.sys.threads (.space q cv) (k' cv)

/-- The queue of segments while thread `t` is in a critical section at `pc`. -/
inductive Inside (q : Q) (p : Observed T Q) (s : Queue T) (t : T) (pc : Pc Q) : Prop
  | polls (hu : p.clients.uses t = none) (hs : Settled q p.sys s) (hc : s.calls t = none) :
      Inside q p s t pc
  | works {x} (hu : p.clients.uses t = some x) (hw : Within q p s t pc x) : Inside q p s t pc

/-- The calls that the queue of segments knows of are those of the waiting threads. -/
structure CallsMatch (q : Q) (p : Observed T Q) (s : Queue T) : Prop where
  waiting : ∀ t cv, WaitsOn code (p.sys.threads t) (.space q cv) →
    ∃ h c, p.clients.uses t = some (.call h c) ∧ s.calls t = some ⟨h, c, .waiting⟩
  elsewhere : ∀ t, ¬ Held code holds (p.sys.threads t) (.queue q) →
    (∀ cv, ¬ WaitsOn code (p.sys.threads t) (.space q cv)) → s.calls t = none

/-- The queue of segments after the steps `log` and the system. -/
structure Matches (q : Q) (p : Observed T Q) (log : List (Queue.Label T)) (s : Queue T) :
    Prop where
  handles : s.handles = p.clients.handles
  flags : s.flags = p.clients.flags
  sent : Queue.written log = p.clients.sent
  received : Queue.returned log = p.clients.received
  calls : CallsMatch q p s
  free : p.sys.owner (.queue q) = none → Settled q p.sys s
  owned : ∀ t, p.sys.owner (.queue q) = some t →
    ∃ pc, p.sys.threads t = .running pc ∧ Inside q p s t pc

variable {q : Q} {p p' : Observed T Q} {s s' : Queue T} {log : List (Queue.Label T)} {t : T}
  {pc next : Pc Q}

/-! ## Frames -/

omit [DecidableEq T] in
/-- Nobody starts or stops to wait on the queue `q`. -/
structure SameWaiters (q : Q) (sys sys' : System T Q) : Prop where
  waits : ∀ t cv, WaitsOn code (sys'.threads t) (.space q cv) ↔
    WaitsOn code (sys.threads t) (.space q cv)
  sleeps : ∀ t cv, SleepsOn code (sys'.threads t) (.space q cv) →
    SleepsOn code (sys.threads t) (.space q cv)

theorem SameWaiters.sleepers {sys sys' : System T Q} (h : SameWaiters q sys sys') {cv : Cond}
    {k : CondVar T} (hs : Sleepers code sys.threads (.space q cv) k) :
    Sleepers code sys'.threads (.space q cv) k :=
  hs.congr (fun t => h.waits t cv) fun t => h.sleeps t cv

theorem Settled.congr {sys sys' : System T Q} (h : Settled q sys s)
    (hw : SameWaiters q sys sys')
    (hobj : (sys'.objects q).unlinked = (sys.objects q).unlinked) : Settled q sys' s where
  backend := by
    rw [hobj]
    exact h.backend
  sleepers cv := hw.sleepers (h.sleepers cv)

omit [DecidableEq T] in
/-- What the clients know of a thread that is inside or waits stays. -/
theorem CallsMatch.congr (h : CallsMatch q p s) (hw : SameWaiters q p.sys p'.sys)
    (hheld : ∀ t, Held code holds (p.sys.threads t) (.queue q) →
      Held code holds (p'.sys.threads t) (.queue q))
    (huses : ∀ t cv, WaitsOn code (p.sys.threads t) (.space q cv) →
      p'.clients.uses t = p.clients.uses t) : CallsMatch q p' s where
  waiting t cv hwait := by
    have hold := (hw.waits t cv).mp hwait
    obtain ⟨h', c, hu, hc⟩ := h.waiting t cv hold
    exact ⟨h', c, (huses t cv hold).trans hu, hc⟩
  elsewhere t hnot hwait :=
    h.elsewhere t (fun hh => hnot (hheld t hh)) fun cv hcv => hwait cv ((hw.waits t cv).mpr hcv)

/-- A step that leaves the queue, its mutex and its waiters alone. -/
theorem Matches.frame (h : Matches q p log s) (hw : SameWaiters q p.sys p'.sys)
    (hheld : ∀ t, Held code holds (p.sys.threads t) (.queue q) →
      Held code holds (p'.sys.threads t) (.queue q))
    (howner : p'.sys.owner (.queue q) = p.sys.owner (.queue q))
    (hobj : (p'.sys.objects q).unlinked = (p.sys.objects q).unlinked)
    (hinside : ∀ t pc, p.sys.owner (.queue q) = some t → p.sys.threads t = .running pc →
      p'.sys.threads t = .running pc ∧ p'.clients.uses t = p.clients.uses t ∧
        p'.clients.stored t = p.clients.stored t)
    (hclients : p'.clients.handles = p.clients.handles ∧ p'.clients.flags = p.clients.flags ∧
      p'.clients.sent = p.clients.sent ∧ p'.clients.received = p.clients.received)
    (huses : ∀ t cv, WaitsOn code (p.sys.threads t) (.space q cv) →
      p'.clients.uses t = p.clients.uses t) : Matches q p' log s where
  handles := by rw [hclients.1, h.handles]
  flags := by rw [hclients.2.1, h.flags]
  sent := by rw [hclients.2.2.1, h.sent]
  received := by rw [hclients.2.2.2, h.received]
  calls := h.calls.congr hw hheld huses
  free hnone := (h.free (by rw [← howner, hnone])).congr hw hobj
  owned t hown := by
    rw [howner] at hown
    obtain ⟨pc, hpc, hin⟩ := h.owned t hown
    obtain ⟨hpc', hu', hst⟩ := hinside t pc hown hpc
    refine ⟨pc, hpc', ?_⟩
    cases hin with
    | polls hu hs hc => exact .polls (hu'.trans hu) (hs.congr hw hobj) hc
    | works hu hwithin =>
        obtain ⟨mq, r, k, errno, ns, oks, k', hmq, hent, hr, hn, hsl⟩ := hwithin
        refine .works (hu'.trans hu) ⟨mq, r, k, errno, ns, oks, k', hmq, hent, ?_, hn,
          fun cv => hw.sleepers (hsl cv)⟩
        rw [hobj, hst]
        exact hr

/-- The thread stays as it is, unless it wakes up. -/
def Keeps (th th' : Thread (Pc Q)) : Prop := th' = th ∨ ∃ pc, th = .asleep pc ∧ th' = .woken pc

theorem Keeps.waits {th th' : Thread (Pc Q)} (h : Keeps th th') (c : CondId Q) :
    (WaitsOn code th' c ↔ WaitsOn code th c) ∧ (SleepsOn code th' c → SleepsOn code th c) := by
  rcases h with rfl | ⟨pc, rfl, rfl⟩
  · exact ⟨Iff.rfl, id⟩
  · exact ⟨waitsOn_woken, fun hs => absurd hs not_sleepsOn_woken⟩

theorem Keeps.held {th th' : Thread (Pc Q)} (h : Keeps th th') (m : Mutex Q) :
    Held code holds th' m ↔ Held code holds th m := by
  rcases h with rfl | ⟨pc, rfl, rfl⟩ <;> rfl

omit [DecidableEq T] [Build] in
theorem Keeps.running {th th' : Thread (Pc Q)} (h : Keeps th th') (hpc : th = .running pc) :
    th' = .running pc := by
  rcases h with rfl | ⟨pc', rfl, rfl⟩
  · exact hpc
  · cases hpc

/-- One thread moves, and it does not wait on the queue. -/
theorem SameWaiters.of_keeps {sys sys' : System T Q} (t : T)
    (hothers : ∀ u, u ≠ t → Keeps (sys.threads u) (sys'.threads u))
    (hbefore : ∀ cv, ¬ WaitsOn code (sys.threads t) (.space q cv))
    (hafter : ∀ cv, ¬ WaitsOn code (sys'.threads t) (.space q cv)) : SameWaiters q sys sys' where
  waits u cv := by
    by_cases hut : u = t
    · subst hut
      exact iff_of_false (hafter cv) (hbefore cv)
    · exact ((hothers u hut).waits _).1
  sleeps u cv hs := by
    by_cases hut : u = t
    · subst hut
      exact absurd hs.waitsOn (hafter cv)
    · exact ((hothers u hut).waits _).2 hs

/-- Thread `t` moves outside of the critical sections. -/
theorem Matches.outside (h : Matches q p log s) (ho : p.Ordered q)
    (hothers : ∀ u, u ≠ t → Keeps (p.sys.threads u) (p'.sys.threads u))
    (hnot : ¬ Held code holds (p.sys.threads t) (.queue q))
    (hbefore : ∀ cv, ¬ WaitsOn code (p.sys.threads t) (.space q cv))
    (hafter : ∀ cv, ¬ WaitsOn code (p'.sys.threads t) (.space q cv))
    (howner : p'.sys.owner (.queue q) = p.sys.owner (.queue q))
    (hobj : (p'.sys.objects q).unlinked = (p.sys.objects q).unlinked)
    (hclients : p'.clients.handles = p.clients.handles ∧ p'.clients.flags = p.clients.flags ∧
      p'.clients.sent = p.clients.sent ∧ p'.clients.received = p.clients.received)
    (huses : ∀ u, u ≠ t → p'.clients.uses u = p.clients.uses u ∧
      p'.clients.stored u = p.clients.stored u) : Matches q p' log s := by
  have other {u : T} (hheld : Held code holds (p.sys.threads u) (.queue q)) : u ≠ t := by
    rintro rfl
    exact hnot hheld
  refine h.frame (SameWaiters.of_keeps t hothers hbefore hafter) (fun u hheld => ?_) howner hobj
    (fun u pc hown hpc => ?_) hclients fun u cv hwait => ?_
  · exact ((hothers u (other hheld)).held _).mpr hheld
  · have hut := other ((ho.exclusive u).mpr hown)
    exact ⟨(hothers u hut).running hpc, huses u hut⟩
  · have hut : u ≠ t := by
      rintro rfl
      exact hbefore cv hwait
    exact (huses u hut).1

omit [Build] in
/-- Notifications one after the other. -/
theorem notified_append {ns ns' : List Notify} {k k' k'' : Cond → CondVar T}
    (h : Queue.Notified ns k k') (h' : Queue.Notified ns' k' k'') :
    Queue.Notified (ns ++ ns') k k'' := by
  induction h with
  | nil => exact h'
  | signal hs _ ih => exact .signal hs (ih h')
  | broadcast _ ih => exact .broadcast (ih h')

/-- Thread `t` goes on inside its critical section. -/
theorem Matches.inside (h : Matches q p log s) (hown : p.sys.owner (.queue q) = some t)
    (hpc : p.sys.threads t = .running pc)
    (hothers : ∀ u, u ≠ t → Keeps (p.sys.threads u) (p'.sys.threads u))
    (howner : p'.sys.owner (.queue q) = some t) (hpc' : p'.sys.threads t = .running next)
    (hheld : holds next (.queue q)) {ns : List Notify} {bs : List UInt8}
    (hrem : p.clients.uses t ≠ none → ∀ errno, ∃ errno' oks,
      remaining errno pc (p.sys.objects q).unlinked =
        (remaining errno' next (p'.sys.objects q).unlinked).map (·.after ns bs oks))
    (hpoll : p.clients.uses t = none →
      (p'.sys.objects q).unlinked = (p.sys.objects q).unlinked)
    (hnotify : ∀ k, (∀ cv, Sleepers code p.sys.threads (.space q cv) (k cv)) →
      ∃ k', Queue.Notified ns k k' ∧ ∀ cv, Sleepers code p'.sys.threads (.space q cv) (k' cv))
    (hstored : p.clients.uses t ≠ none → p'.clients.stored t = p.clients.stored t ++ bs)
    (hclients : p'.clients.handles = p.clients.handles ∧ p'.clients.flags = p.clients.flags ∧
      p'.clients.sent = p.clients.sent ∧ p'.clients.received = p.clients.received)
    (huses : p'.clients.uses = p.clients.uses) : Matches q p' log s := by
  have hw : SameWaiters q p.sys p'.sys := by
    refine .of_keeps t hothers (fun cv => ?_) fun cv => ?_
    · rw [hpc]
      exact not_waitsOn_running
    · rw [hpc']
      exact not_waitsOn_running
  refine ⟨by rw [hclients.1, h.handles], by rw [hclients.2.1, h.flags],
    by rw [hclients.2.2.1, h.sent], by rw [hclients.2.2.2, h.received],
    h.calls.congr hw (fun u hu => ?_) (fun u _ _ => by rw [huses]), fun hnone => ?_,
    fun u hu => ?_⟩
  · by_cases hut : u = t
    · subst hut
      rw [hpc']
      exact hheld
    · exact ((hothers u hut).held _).mpr hu
  · rw [howner] at hnone
    cases hnone
  · obtain rfl : t = u := Option.some.inj (howner.symm.trans hu)
    refine ⟨next, hpc', ?_⟩
    obtain ⟨pc₀, hpc₀, hin⟩ := h.owned t hown
    obtain rfl : pc₀ = pc := by
      rw [hpc] at hpc₀
      exact (Thread.running.inj hpc₀).symm
    cases hin with
    | polls hnone hs hc =>
        exact .polls (by rw [huses, hnone]) (hs.congr hw (hpoll hnone)) hc
    | @works x hx hwithin =>
        obtain ⟨mq, r, k, errno, ns₀, oks₀, k₀, hmq, hent, hr, hn, hsl⟩ := hwithin
        have hsome : p.clients.uses t ≠ none := by
          rw [hx]
          exact Option.some_ne_none x
        obtain ⟨errno', oks, hstep⟩ := hrem hsome errno
        obtain ⟨k₁, hn₁, hsl₁⟩ := hnotify k₀ hsl
        refine .works (by rw [huses, hx]) ⟨mq, r, k, errno', ns₀ ++ ns, oks₀ ++ oks, k₁, hmq,
          hent, ?_, notified_append hn hn₁, hsl₁⟩
        rw [hr, hstep, hstored hsome]
        cases remaining errno' next (p'.sys.objects q).unlinked with
        | error e => rfl
        | ok d => exact congrArg Except.ok (d.after_after ..)

end Observed

end UoftOs.MsgQueue
