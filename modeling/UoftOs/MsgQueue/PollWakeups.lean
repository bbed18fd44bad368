import UoftOs.MsgQueue.EarlyUnlocks

/-!
# No sleeping poller is forgotten

When a bit that a poll call requests is set while the call is about to sleep, a
thread in `helper_wakeup` has the call's node ahead of it. This is an invariant
of the runs in which no wake-up goes astray (`LosesWakeup`).

## Implementation notes

A call is committed to an entry once its first `helper_count` has found the
entry's bits clear, until it is woken. The poll mutex, held from the count to
the sleep, makes `helper_wakeup` wait there until the signal can reach it.
-/

namespace UoftOs.MsgQueue

open Lib.Threads Lib.Transition

variable {Q : Type}

/-- The call `c` has found its entry `k` not ready, and sleeps or goes to sleep if it
finds none ready. -/
inductive Commits : Thread (Pc Q) → PollCall Q → Nat → Prop
  | counting {c i q k} (hk : k < i) : Commits (.running (.pollCount c false 0 i q)) c k
  | ready {c k} : Commits (.running (.pollWait c)) c k
  | asleep {c k} : Commits (.asleep (.pollWait c)) c k

/-- The statement is one of `helper_wakeup` on `q` that still comes to the node `n` and
signals the condition variable its call sleeps on. -/
def Ahead (nodes : List Node) (q : Q) (n : Node) : Pc Q → Prop
  | .wakeStart w => w.q = q
  | .wakeTest w n' => w.q = q ∧ n ∈ nodes.dropWhile (· != n')
  | .wakeLock w n' => w.q = q ∧ (n ∈ (nodes.dropWhile (· != n')).tail ∨ n = n' ∧ n.index = 0)
  | .wakeSignal w n' => w.q = q ∧ (n ∈ (nodes.dropWhile (· != n')).tail ∨ n = n' ∧ n.index = 0)
  | .wakeUnlock w n' => w.q = q ∧ n ∈ (nodes.dropWhile (· != n')).tail
  | .wakeNext w n' => w.q = q ∧ n ∈ (nodes.dropWhile (· != n')).tail
  | _ => False

section Points

/-- A walk that is at `a` has the rest of the list ahead. -/
theorem mem_dropWhile_of_suffix {α : Type} [DecidableEq α] {a x : α} {rest l : List α}
    (hs : a :: rest <:+ l) (hx : x ∈ a :: rest) : x ∈ l.dropWhile (· != a) := by
  induction l with
  | nil => exact absurd hs (by simp)
  | cons b l ih =>
      by_cases hb : b = a
      · subst hb
        rw [List.dropWhile_cons_of_neg (by simp)]
        exact hs.subset hx
      · rw [List.dropWhile_cons_of_pos (by simpa using hb)]
        rcases List.suffix_cons_iff.mp hs with heq | hs
        · exact absurd (List.cons.inj heq).1.symm hb
        · exact ih hs

/-- The node the walk is at, or one behind it. -/
theorem mem_dropWhile_cases {α : Type} [DecidableEq α] {a x : α} {l : List α}
    (hx : x ∈ l.dropWhile (· != a)) : x = a ∨ x ∈ (l.dropWhile (· != a)).tail := by
  cases hl : l.dropWhile (· != a) with
  | nil =>
      rw [hl] at hx
      cases hx
  | cons b rest =>
      rw [hl] at hx
      have hb := List.head_dropWhile_not (· != a) (l := l) (by rw [hl]; exact List.cons_ne_nil _ _)
      simp only [hl, List.head_cons, bne_eq_false_iff_eq] at hb
      subst hb
      exact List.mem_cons.mp hx

theorem Commits.poll {th : Thread (Pc Q)} {c : PollCall Q} {k : Nat} (h : Commits th c k) :
    ∃ pc, th.point = some pc ∧ pc.poll? = some c ∧ pc.PastLink k ∧ ¬ pc.PastUnlink k := by
  cases h <;> exact ⟨_, rfl, rfl, trivial, id⟩

/-- Off the loop of the first count, a call is committed to the entries it has passed. -/
theorem countFrom_commits {c c' : PollCall Q} {again : Bool} {numReady i k : Nat} {q : Q}
    (h : Commits (.running (countFrom c again numReady i)) c' k) (hq : queueAt c'.fds k = some q) :
    c' = c ∧ again = false ∧ numReady = 0 ∧ k < i := by
  unfold countFrom at h
  split at h
  · next hnext =>
      cases h with
      | counting hk => exact ⟨rfl, rfl, rfl, (nextEntry_passes hq hnext).mp hk⟩
  · next hnext =>
      split at h
      · next hzero =>
          cases h with
          | ready =>
              rw [Bool.and_eq_true, Bool.not_eq_true', beq_iff_eq] at hzero
              exact ⟨rfl, hzero.1, hzero.2, nextEntry_none_passes hq hnext⟩
      · cases h

theorem registerFrom_not_commits {c c' : PollCall Q} {i k : Nat} {q : Q}
    (h : Commits (.running (registerFrom c i)) c' k) (hq : queueAt c'.fds k = some q) : False := by
  unfold registerFrom at h
  split at h
  · cases h
  · exact Nat.not_lt_zero k (countFrom_commits h hq).2.2.2

theorem unregisterFrom_not_commits {c c' : PollCall Q} {numReady i k : Nat}
    (h : Commits (.running (unregisterFrom c numReady i)) c' k) : False := by
  unfold unregisterFrom at h
  split at h <;> cases h

/-- A count that finds an entry not ready finds its requested bits clear, unless the sign
bit is among them. -/
theorem countAt_clear {c : PollCall Q} {numReady i : Nat} {q : Q} {event : CInt}
    (hq : queueAt c.fds i = some q) (hzero : (countAt c numReady i event).2 = 0)
    (hsign : (event &&& (nodeOf c i).events).msb = false) :
    numReady = 0 ∧ hasAny (nodeOf c i).events event = false := by
  cases hfd : c.fds[i]? with
  | none => simp [queueAt, hfd] at hq
  | some fd =>
      have hevents : (nodeOf c i).events = fd.events := by simp [nodeOf, hfd]
      cases hqueue : fd.queue with
      | none => simp [queueAt, hfd, hqueue] at hq
      | some handle =>
          obtain ⟨q', flags⟩ := handle
          have hready : (countEntry fd event).2 = decide (0 < (event &&& fd.events).toInt) := by
            unfold countEntry
            rw [hqueue]
            dsimp only
            split <;> rfl
          rw [hevents] at hsign ⊢
          simp only [countAt, hfd, hready, decide_eq_true_eq] at hzero
          split at hzero
          · omega
          · next hpos =>
              refine ⟨hzero, ?_⟩
              rw [BitVec.toInt_eq_toNat_of_msb hsign] at hpos
              have hclear : event &&& fd.events = 0 := BitVec.eq_of_toNat_eq (by simpa using hpos)
              simp [hasAny, BitVec.and_comm fd.events event, hclear]

theorem Ahead.holds {nodes : List Node} {q : Q} {n : Node} {pc : Pc Q} (h : Ahead nodes q n pc)
    (he : ¬ pc.Early) : holds pc (.queue q) := by
  cases pc with
  | wakeStart w =>
      obtain rfl : w.q = q := h
      have hearly : w.early = false := by
        rw [← Bool.not_eq_true]
        exact fun hs => he ⟨hs, rfl⟩
      simp [MsgQueue.holds, locksAt, Wakeup.locks, hearly]
  | wakeTest w n' => exact h.1 ▸ visits_locks rfl he
  | wakeLock w n' => exact h.1 ▸ visits_locks rfl he
  | wakeSignal w n' => exact h.1 ▸ visits_locks rfl he
  | wakeUnlock w n' => exact h.1 ▸ visits_locks rfl he
  | wakeNext w n' => exact h.1 ▸ visits_locks rfl he
  | _ => exact h.elim

theorem Ahead.poll {nodes : List Node} {q : Q} {n : Node} {pc : Pc Q} (h : Ahead nodes q n pc) :
    pc.poll? = none := by
  cases pc <;> first | rfl | exact h.elim

variable [Build]

/-- A thread that gets committed by a step is at its first count. -/
theorem leads_commits {fresh : Nat} {pc next : Pc Q} {c : PollCall Q} {k : Nat} {q : Q}
    (h : Leads code fresh pc next) (hk : Commits (.running next) c k)
    (hq : queueAt c.fds k = some q) :
    ∃ c₀ again numReady i q₀, pc = .pollCount c₀ again numReady i q₀ := by
  cases h with
  | lock hc =>
      cases pc <;> simp only [code, Instr.lock.injEq, reduceCtorEq] at hc <;>
        obtain ⟨rfl, rfl⟩ := hc <;> first | cases hk | skip
      exact (registerFrom_not_commits hk hq).elim
  | unlock hc =>
      cases pc <;> simp only [code, Instr.unlock.injEq, reduceCtorEq] at hc <;>
        obtain ⟨rfl, rfl⟩ := hc <;> first | cases hk | skip
      case pollLinked c₀ i q₀ => exact (registerFrom_not_commits hk hq).elim
      all_goals exact (unregisterFrom_not_commits hk).elim
  | wait hc =>
      cases pc <;> simp only [code, Instr.wait.injEq, reduceCtorEq] at hc <;>
        obtain ⟨rfl, rfl, rfl⟩ := hc <;> first | cases hk | skip
      exact absurd (countFrom_commits hk hq).2.2.2 (Nat.not_lt_zero k)
  | signal hc =>
      cases pc <;> simp only [code, Instr.signal.injEq, reduceCtorEq] at hc <;>
        obtain ⟨rfl, rfl⟩ := hc <;> first | cases hk | (split at hk <;> cases hk)
  | broadcast hc =>
      cases pc <;> simp only [code, Instr.broadcast.injEq, reduceCtorEq] at hc <;>
        obtain ⟨rfl, rfl⟩ := hc <;> cases hk
  | access hc hf =>
      cases code_accessed hc hf with
      | plain hp hn => cases hk <;> exact hn.elim
      | produces => cases hk
      | starts => split at hk <;> cases hk
      | tests => split at hk <;> cases hk
      | nexts => split at hk <;> cases hk
      | links => cases hk
      | counts => exact ⟨_, _, _, _, _, rfl⟩
      | unlinks => cases hk
  | alloc hc =>
      cases pc <;> simp only [code, Instr.alloc.injEq, reduceCtorEq] at hc
      subst hc
      cases hk
  | allocFails hc =>
      cases pc <;> simp only [code, Instr.alloc.injEq, reduceCtorEq] at hc
      subst hc
      cases hk
  | goto hc =>
      cases pc <;> simp only [code, Instr.goto.injEq, reduceCtorEq] at hc
      subst hc
      cases hk

end Points

section Runs
variable [Build] {T : Type} [DecidableEq T] [DecidableEq Q] {s s₀ s' : System T Q}
  {l : Label T (Pc Q)}

/-- The call of thread `t` is committed to the entry of the node `n`, whose queue is `q`. -/
def Committed (s : System T Q) (t : T) (q : Q) (n : Node) : Prop :=
  ∃ c, Commits (s.threads t) c n.index ∧ queueAt c.fds n.index = some q ∧ nodeOf c n.index = n

/-- The statement sends a wake-up astray: the size check of a read fails, a node that is
not the first of its call's array matches, a close sets a requested bit, or a count takes
the sign bit for no event. -/
def Pc.Loses (s : System T Q) : Pc Q → Prop
  | .readTooSmall _ => True
  | .wakeTest w n => n.index ≠ 0 ∧ hasAny n.events (s.objects w.q).queueEvent = true ∧
      ∃ u, Committed s u w.q n
  | .closeNoReaders q => ∃ u n, Committed s u q n ∧
      hasAny n.events (closeBits (.closeNoReaders q) (s.objects q)) = true
  | .closeNoWriters q => ∃ u n, Committed s u q n ∧
      hasAny n.events (closeBits (.closeNoWriters q) (s.objects q)) = true
  | .pollCount c _ _ i q => ((s.objects q).queueEvent &&& (nodeOf c i).events).msb = true
  | _ => False

def LosesWakeup (s : System T Q) : Label T (Pc Q) → Prop
  | .step t => ∃ pc, s.threads t = .running pc ∧ pc.Loses s
  | _ => False

omit [DecidableEq T] [DecidableEq Q] [Build] in
theorem UnlocksEarly.losesWakeup (h : UnlocksEarly s l) : LosesWakeup s l := by
  cases l with
  | step t =>
      obtain ⟨c, hpc⟩ := h
      exact ⟨_, hpc, trivial⟩
  | _ => exact h.elim

/-- While a bit that a sleeping call requests is set, the owner of the queue's mutex is in
`helper_wakeup` and has the node of the call ahead. -/
def PollersServed (s : System T Q) : Prop :=
  ∀ t c k q, s.threads t = .asleep (.pollWait c) → queueAt c.fds k = some q →
    hasAny (nodeOf c k).events (s.objects q).queueEvent = true →
    ∃ u pc, s.owner (.queue q) = some u ∧ s.threads u = .running pc ∧
      Ahead (s.objects q).queueListHead q (nodeOf c k) pc

/-- The invariant of the runs that lose no wake-up. -/
structure Watched (s : System T Q) : Prop extends Prompt s where
  served : ∀ t q n, Committed s t q n → hasAny n.events (s.objects q).queueEvent = true →
    ∃ u pc, s.threads u = .running pc ∧ Ahead (s.objects q).queueListHead q n pc

omit [DecidableEq T] [DecidableEq Q] in
theorem Quiescent.watched (h : Quiescent s) : Watched s where
  toPrompt := h.prompt
  served t q n hc := by
    obtain ⟨c, hc, -⟩ := hc
    obtain ⟨pc, hpc, -⟩ := hc.poll
    exact absurd hpc h.no_point

section Invariant
variable (hw : Watched s)
include hw

omit [DecidableEq T] [DecidableEq Q] in
theorem Watched.pollersServed : PollersServed s := by
  intro t c k q hasleep hq hset
  have hcommits : Commits (s.threads t) c k := by
    rw [hasleep]
    exact .asleep
  obtain ⟨u, pc, hu, hahead⟩ := hw.served t q (nodeOf c k) ⟨c, hcommits, hq, rfl⟩ hset
  refine ⟨u, pc, hw.holders u _ ?_, hu, hahead⟩
  rw [hu]
  exact hahead.holds (hw.prompt u pc (by rw [hu]; rfl))

end Invariant

theorem SysStep.counted {t : T} {c : PollCall Q} {again : Bool} {numReady i : Nat} {q : Q}
    (h : SysStep s (.step t) s') (hpc : s.threads t = .running (.pollCount c again numReady i q)) :
    s' = s.goTo t (countFrom (countAt c numReady i (s.objects q).queueEvent).1 again
      (countAt c numReady i (s.objects q).queueEvent).2 (i + 1)) := by
  obtain ⟨mq, next, hf, hs⟩ := h.executes hpc
  obtain ⟨rfl, rfl⟩ := Prod.mk.inj (Except.ok.inj hf)
  rw [State.setObject_self] at hs
  exact hs

/-- A call that is committed after a step was so before, or has just found the requested
bits clear. -/
theorem SysStep.committed (h : SysStep s l s')
    (hp : ∀ t pc, (s.threads t).point = some pc → pc.Placed) (hl : ¬ LosesWakeup s l) {t : T}
    {q : Q} {n : Node} (hc : Committed s' t q n) :
    Committed s t q n ∧ (l = .step t → s'.objects = s.objects) ∨
      s'.objects = s.objects ∧ hasAny n.events (s.objects q).queueEvent = false := by
  obtain ⟨c, hk, hq, hnode⟩ := hc
  cases h.threadChange t with
  | same hstep he =>
      rw [he] at hk
      exact Or.inl ⟨⟨c, hk, hq, hnode⟩, fun hl => absurd hl hstep⟩
  | wakes hold hnew =>
      rw [hnew] at hk
      cases hk
  | start hstep he hidle hnew =>
      rw [hnew] at hk
      obtain ⟨pc, hpc, hpoll, -⟩ := hk.poll
      cases hpc
      rw [entry_poll he] at hpoll
      cases hpoll
  | @moves pc next hstep hm hnew =>
      rw [hnew] at hk
      obtain ⟨c₀, again, m, i, q₀, rfl⟩ := leads_commits hm.leads hk hq
      cases hm with
      | woken hpc hcode => cases hcode
      | running hpc hn =>
          subst hstep
          have hs := h.counted hpc
          rw [hs, State.goTo_self] at hnew
          cases hnew
          obtain ⟨rfl, rfl, hzero, hlt⟩ := countFrom_commits hk hq
          have hplaced : queueAt c₀.fds i = some q₀ :=
            hp t (.pollCount c₀ false m i q₀) (by rw [hpc]; rfl)
          have hsign : ((s.objects q₀).queueEvent &&& (nodeOf c₀ i).events).msb = false := by
            rw [← Bool.not_eq_true]
            exact fun hneg => hl ⟨_, hpc, hneg⟩
          obtain ⟨rfl, hclear⟩ := countAt_clear hplaced hzero hsign
          obtain ⟨hqueue, hnode'⟩ := countAt_keeps c₀ 0 i (s.objects q₀).queueEvent n.index
          rw [hqueue] at hq
          rw [hnode'] at hnode
          rcases Nat.lt_succ_iff_lt_or_eq.mp hlt with hlt | heq
          · refine Or.inl ⟨⟨c₀, ?_, hq, hnode⟩, fun _ => by rw [hs]; rfl⟩
            rw [hpc]
            exact .counting hlt
          · rw [heq] at hq hnode
            rw [hplaced, Option.some.injEq] at hq
            subst hq hnode
            exact Or.inr ⟨by rw [hs]; rfl, hclear⟩
  | waits hstep hold hcode hnew =>
      rw [hnew] at hk
      cases hk
      subst hstep
      refine Or.inl ⟨⟨c, ?_, hq, hnode⟩, fun _ => ?_⟩
      · rw [hold]
        exact .ready
      · rw [h.executes hold]
        rfl
  | stop hstep hold hcode hnew =>
      rw [hnew] at hk
      cases hk

omit [DecidableEq T] [DecidableEq Q] in
/-- `helper_wakeup` about to signal the condition variable of a call holds its mutex, so
a call that is committed is asleep there. -/
theorem Watched.asleep_of_signal (hw : Watched s) {t u : T} {q : Q} {w : Wakeup Q} {n : Node}
    (hu : s.threads u = .running (.wakeSignal w n)) (hc : Committed s t q n)
    (hfirst : n.index = 0) : ∃ c, c.id = n.poll ∧ s.threads t = .asleep (.pollWait c) := by
  obtain ⟨c, hk, -, hnode⟩ := hc
  have hid : c.id = n.poll := by rw [← nodeOf_poll c n.index, hnode]
  have hheld : holds (Pc.wakeSignal w n) (.poll n.poll n.index) := List.mem_cons_self
  have howner : s.owner (.poll n.poll n.index) = some u := hw.holders u _ (by rw [hu]; exact hheld)
  have other {pc : Pc Q} (ht : s.threads t = .running pc) (hh : holds pc (.poll c.id 0))
      (hne : pc ≠ .wakeSignal w n) : False := by
    have howner' := hw.holders t _ (show Held code holds (s.threads t) _ by rw [ht]; exact hh)
    rw [hid, ← hfirst, howner, Option.some.injEq] at howner'
    subst howner'
    rw [hu, Thread.running.injEq] at ht
    exact hne ht.symm
  cases hth : s.threads t with
  | idle =>
      rw [hth] at hk
      cases hk
  | running pc =>
      rw [hth] at hk
      cases hk with
      | counting => exact (other hth (List.mem_singleton_self _) (by simp)).elim
      | ready => exact (other hth (List.mem_singleton_self _) (by simp)).elim
  | asleep pc =>
      rw [hth] at hk
      cases hk
      exact ⟨c, hid, rfl⟩
  | woken pc =>
      rw [hth] at hk
      cases hk

/-- A step of `helper_wakeup` keeps a node ahead as long as its call is not woken. -/
theorem Watched.walk (hw : Watched s) {u t : T} (hl : ¬ LosesWakeup s (.step u))
    (h : SysStep s (.step u) s') {pc : Pc Q} {q : Q} {n : Node}
    (hu : s.threads u = .running pc) (ha : Ahead (s.objects q).queueListHead q n pc)
    (hmem : n ∈ (s.objects q).queueListHead)
    (hset : hasAny n.events (s.objects q).queueEvent = true) (hc : Committed s t q n)
    (hc' : Committed s' t q n) :
    ∃ pc', s'.threads u = .running pc' ∧ Ahead (s'.objects q).queueListHead q n pc' := by
  have hs := h.executes hu
  cases pc with
  | wakeStart w =>
      obtain rfl : w.q = q := ha
      obtain ⟨mq, next, hf, hs⟩ := hs
      obtain ⟨rfl, rfl⟩ := Prod.mk.inj (Except.ok.inj hf)
      rw [State.setObject_self] at hs
      subst hs
      refine ⟨_, State.goTo_self .., ?_⟩
      cases hnodes : (s.objects w.q).queueListHead with
      | nil =>
          rw [hnodes] at hmem
          cases hmem
      | cons a rest =>
          rw [hnodes] at hmem
          simp only [State.goTo_objects, hnodes, List.head?_cons]
          exact ⟨rfl, mem_dropWhile_of_suffix (List.suffix_refl _) hmem⟩
  | wakeTest w n' =>
      obtain ⟨rfl, ha⟩ := ha
      obtain ⟨mq, next, hf, hs⟩ := hs
      obtain ⟨rfl, rfl⟩ := Prod.mk.inj (Except.ok.inj hf)
      rw [State.setObject_self] at hs
      subst hs
      refine ⟨_, State.goTo_self .., ?_⟩
      rw [State.goTo_objects]
      split
      · next hmatch =>
          refine ⟨rfl, (mem_dropWhile_cases ha).symm.imp_right ?_⟩
          rintro rfl
          by_contra hne
          exact hl ⟨_, hu, fun h0 => hne ⟨rfl, h0⟩, hset, t, hc⟩
      · next hmatch =>
          refine ⟨rfl, (mem_dropWhile_cases ha).resolve_left ?_⟩
          rintro rfl
          exact hmatch hset
  | wakeLock w n' =>
      obtain ⟨-, hs⟩ := hs
      subst hs
      exact ⟨_, State.goTo_self .., ha⟩
  | wakeSignal w n' =>
      have hbehind : n ∈ ((s.objects q).queueListHead.dropWhile (· != n')).tail := by
        refine ha.2.resolve_right ?_
        rintro ⟨rfl, hfirst⟩
        -- The signal finds the call asleep, and wakes it.
        obtain ⟨c, hid, hasleep⟩ := hw.asleep_of_signal hu hc hfirst
        have hsleeps : SleepsOn code (s.threads t) (.ready n.poll n.index) :=
          ⟨_, .poll c.id 0, countFrom c true 0 0, hasleep, by rw [← hid, hfirst]; rfl⟩
        rcases hs with ⟨v, pc', hv, ⟨pc'', m, next, heq, hwait⟩, hs⟩ | ⟨hnone, -⟩
        · cases heq
          obtain rfl : v = t := by
            cases pc' <;> simp only [code, Instr.wait.injEq, CondId.ready.injEq, reduceCtorEq,
              false_and] at hwait
            next c' =>
              exact hw.registered.unique v t _ _ c' c ⟨by rw [hv]; rfl, rfl⟩
                ⟨by rw [hasleep]; rfl, rfl⟩ (hwait.1.1.trans hid.symm)
          obtain ⟨c', hk, -⟩ := hc'
          have hvu : v ≠ u := by
            rintro rfl
            rw [hasleep] at hu
            cases hu
          rw [hs, State.goTo_of_ne _ _ _ hvu] at hk
          simp only [State.setThread, Function.update_self] at hk
          cases hk
        · exact hnone t hsleeps
      obtain ⟨v, pc', -, -, rfl⟩ | ⟨-, rfl⟩ := hs
      · exact ⟨_, State.goTo_self .., ha.1, hbehind⟩
      · exact ⟨_, State.goTo_self .., ha.1, hbehind⟩
  | wakeUnlock w n' =>
      obtain rfl := hs
      exact ⟨_, State.goTo_self .., ha⟩
  | wakeNext w n' =>
      obtain ⟨rfl, ha⟩ := ha
      obtain ⟨mq, next, hf, hs⟩ := hs
      have hacc := code_accessed (rfl : code (.wakeNext w n') = .access w.q _) hf
      generalize hq : w.q = q at hacc ha hs ⊢
      cases hacc with
      | plain hp => exact hp.elim
      | produces hp => exact hp.elim
      | @nexts _ _ _ n₀ rest hdrop =>
          rw [State.setObject_self] at hs
          subst hs
          refine ⟨_, State.goTo_self .., ?_⟩
          rw [State.goTo_objects]
          rw [hdrop] at ha
          cases hrest : rest with
          | nil =>
              rw [hrest] at ha
              cases ha
          | cons a rest' =>
              rw [hrest] at ha hdrop
              have hsuffix : a :: rest' <:+ (s.objects w.q).queueListHead :=
                (List.suffix_cons n₀ _).trans (hdrop ▸ List.dropWhile_suffix _)
              exact ⟨rfl, mem_dropWhile_of_suffix hsuffix ha⟩
  | _ => exact ha.elim

omit [DecidableEq T] [DecidableEq Q] [Build] in
theorem Committed.links (hr : Registered s) {t : T} {q : Q} {n : Node} (hc : Committed s t q n) :
    n ∈ (s.objects q).queueListHead := by
  obtain ⟨c, hk, hq, hnode⟩ := hc
  obtain ⟨pc, hpc, hpoll, hpast, hnot⟩ := hk.poll
  exact (hr.linked q n).mpr ⟨t, pc, c, ⟨hpc, hpoll⟩, hq, hnode, hpast, hnot⟩

/-- An access that sets a requested bit of a committed call is the start of `helper_wakeup`. -/
theorem SysStep.sets (h : SysStep s l s') (hl : ¬ LosesWakeup s l) {t : T} {q : Q} {n : Node}
    (hc : Committed s t q n) (hclear : hasAny n.events (s.objects q).queueEvent = false)
    (hset : hasAny n.events (s'.objects q).queueEvent = true) :
    ∃ u pc, s'.threads u = .running pc ∧ Ahead (s'.objects q).queueListHead q n pc := by
  cases h.objectChange with
  | same hobjects hquiet =>
      rw [hobjects, hclear] at hset
      cases hset
  | @access u pc r f mq next hstep hpc hcode hf hs =>
      obtain rfl : q = r := by
        by_contra hq
        simp [hs, State.setObject, Function.update_of_ne hq, hclear] at hset
      have hset : hasAny n.events mq.queueEvent = true := by
        simpa [hs, State.setObject] using hset
      have hkept {e : CInt} (he : e = (s.objects q).queueEvent) (hset : hasAny n.events e = true) :
          False := by
        rw [he, hclear] at hset
        cases hset
      cases code_accessed hcode hf with
      | plain hp hn hlist he =>
          refine absurd ?_ hl
          subst hstep
          rw [he, hasAny_or, hclear, Bool.false_or] at hset
          have hnone (hz : closeBits pc (s.objects q) = 0) : False := by
            rw [hz] at hset
            simp [hasAny] at hset
          cases pc with
          | closeNoReaders q' =>
              cases hcode
              exact ⟨_, hpc, t, n, hc, hset⟩
          | closeNoWriters q' =>
              cases hcode
              exact ⟨_, hpc, t, n, hc, hset⟩
          | _ => exact (hnone rfl).elim
      | @produces _ _ _ w =>
          subst hs
          exact ⟨u, _, State.goTo_self .., rfl⟩
      | starts => exact (hkept rfl hset).elim
      | tests => exact (hkept rfl hset).elim
      | nexts => exact (hkept rfl hset).elim
      | links => exact (hkept rfl hset).elim
      | counts => exact (hkept rfl hset).elim
      | unlinks => exact (hkept rfl hset).elim

theorem Watched.step (hw : Watched s) (hl : ¬ LosesWakeup s l) (h : SysStep s l s') :
    Watched s' where
  toPrompt := hw.toPrompt.step (fun hearly => hl hearly.losesWakeup) h
  served t q n hc' hset := by
    rcases h.committed hw.registered.placed hl hc' with ⟨hc, hobjects⟩ | ⟨hobjects, hclear⟩
    · cases hbefore : hasAny n.events (s.objects q).queueEvent with
      | false => exact h.sets hl hc hbefore hset
      | true =>
          obtain ⟨u, pc, hu, ha⟩ := hw.served t q n hc hbefore
          by_cases hstep : l = .step u
          · subst hstep
            exact ⟨u, hw.walk hl h hu ha (hc.links hw.registered) hbefore hc hc'⟩
          · refine ⟨u, pc, h.running_stays hu hstep, ?_⟩
            rw [hw.toPrompt.list_stays h hu (ha.holds (hw.prompt u pc (by rw [hu]; rfl))) hstep]
            exact ha
    · rw [hobjects, hclear] at hset
      cases hset

/-- In every run that loses no wake-up, no poller sleeps while a bit it requests is set,
unless the wake-up is on its way. -/
theorem pollers_served_unless_lost (h₀ : Quiescent s₀) {ls : List (Label T (Pc Q))}
    (run : Run (Guarded SysStep fun s l => ¬ LosesWakeup s l) s₀ ls s) : PollersServed s := by
  have hw : Watched s := run.state_invariant h₀.watched fun _ _ _ hw h => hw.step h.2 h.1
  exact hw.pollersServed

end Runs

section Traces

/-- An empty queue with one reader and one writer. -/
private def bothOpen : System Bool Unit where
  owner _ := none
  threads _ := .idle
  objects _ := ⟨⟨List.replicate 10 0xDD, 10, 0, 0, false⟩, 2, 1, 1, false, false, 0, []⟩
  fresh := 0

private theorem bothOpen_quiescent : Quiescent bothOpen :=
  ⟨fun _ => rfl, fun _ => rfl, fun _ => rfl⟩

/-- An entry that asks whether the queue is readable or has lost its writers. -/
private def readableOrGone : PollFd Unit := ⟨some ((), 1), 9, 0⟩

private def sleeper : PollCall Unit := ⟨0, [readableOrGone]⟩

private def oneByte : WriteCall Unit := ⟨(), 2, [5], 1⟩

/-- While the one thread sleeps in its poll and the other runs, nobody sleeps on the
queue's own condition variables. -/
private theorem sleeps_on_ready [Build] {s : System Bool Unit}
    (hasleep : s.threads false = .asleep (.pollWait sleeper)) {pc : Pc Unit}
    (hpc : s.threads true = .running pc) (cond : Cond) (u : Bool) :
    ¬ SleepsOn code (s.threads u) (.space () cond) := by
  rintro ⟨pc', m, next, hpc', hc⟩
  cases u with
  | false =>
      rw [hasleep] at hpc'
      cases hpc'
      cases hc
  | true =>
      rw [hpc] at hpc'
      cases hpc'

/-- A poll sleeps, a write has set its bit, and `helper_wakeup` is about to find its node. -/
theorem pollers_served_unless_lost_write :
    letI : Build := ⟨false⟩
    ∃ s : System Bool Unit, s.threads false = .asleep (.pollWait sleeper) ∧
      (s.objects ()).queueEvent = 1 ∧ PollersServed s := by
  let _ : Build := ⟨false⟩
  have quiet {s : System Bool Unit} {t : Bool} (pc : Pc Unit)
      (hpc : s.threads t = .running pc) (hq : ¬ pc.Loses s) : ¬ LosesWakeup s (.step t) := by
    rintro ⟨pc', hpc', hloses⟩
    rw [hpc, Thread.running.injEq] at hpc'
    exact hq (hpc' ▸ hloses)
  have start : Run (Guarded SysStep fun s l => ¬ LosesWakeup s l) bothOpen [] bothOpen := .nil
  have asleep := (((((((start.snoc
    ⟨.start (t := false) rfl ⟨.poll [readableOrGone], rfl⟩, id⟩).snoc
    ⟨.alloc (t := false) rfl rfl, quiet (.pollAlloc [readableOrGone]) rfl id⟩).snoc
    ⟨.lock (t := false) rfl rfl rfl, quiet (.pollLock sleeper) rfl id⟩).snoc
    ⟨.lock (t := false) rfl rfl rfl, quiet (.pollRegister sleeper 0 ()) rfl id⟩).snoc
    ⟨.access (t := false) rfl rfl rfl, quiet (.pollLink sleeper 0 ()) rfl id⟩).snoc
    ⟨.unlock (t := false) rfl rfl, quiet (.pollLinked sleeper 0 ()) rfl id⟩).snoc
    ⟨.access (t := false) rfl rfl rfl,
      quiet _ rfl Bool.false_ne_true⟩).snoc
    ⟨.wait (t := false) rfl rfl, quiet (.pollWait sleeper) rfl id⟩
  have run := (((((((asleep.snoc
    ⟨.start (t := true) rfl ⟨.write () 2 [5] 1, rfl⟩, id⟩).snoc
    ⟨.lock (t := true) rfl rfl rfl, quiet (.writeLock oneByte) rfl id⟩).snoc
    ⟨.access (t := true) rfl rfl rfl, quiet (.writeCheck oneByte) rfl id⟩).snoc
    ⟨.access (t := true) rfl rfl rfl, quiet (.writeTest oneByte) rfl id⟩).snoc
    ⟨.access (t := true) rfl rfl rfl, quiet (.writeHeader oneByte) rfl id⟩).snoc
    ⟨.access (t := true) rfl rfl rfl, quiet (.writeBody oneByte) rfl id⟩).snoc
    ⟨.signalNone (t := true) rfl rfl (sleeps_on_ready rfl rfl _), quiet (.writeSignal oneByte) rfl id⟩).snoc
    ⟨.access (t := true) rfl rfl rfl, quiet (.writeEvents oneByte) rfl id⟩
  exact ⟨_, rfl, rfl, pollers_served_unless_lost bothOpen_quiescent run⟩

/-- The last writer closes its handle while a poll sleeps: the close sets the requested
bits, tells no poller, and unlocks. -/
theorem close_forgets_pollers :
    letI : Build := ⟨false⟩
    ∃ (s₀ s : System Bool Unit) (ls : List (Label Bool (Pc Unit))), Quiescent s₀ ∧
      Run SysStep s₀ ls s ∧ (∀ q, s.owner (.queue q) = none) ∧ ¬ PollersServed s := by
  let _ : Build := ⟨false⟩
  have start : Run SysStep bothOpen [] bothOpen := .nil
  have asleep := (((((((start.snoc
    (.start (t := false) rfl ⟨.poll [readableOrGone], rfl⟩)).snoc
    (.alloc (t := false) rfl rfl)).snoc
    (.lock (t := false) rfl rfl rfl)).snoc
    (.lock (t := false) rfl rfl rfl)).snoc
    (.access (t := false) rfl rfl rfl)).snoc
    (.unlock (t := false) rfl rfl)).snoc
    (.access (t := false) rfl rfl rfl)).snoc
    (.wait (t := false) rfl rfl)
  have run := ((((((asleep.snoc
    (.start (t := true) rfl ⟨.close () 2, rfl⟩)).snoc
    (.lock (t := true) rfl rfl rfl)).snoc
    (.access (t := true) rfl rfl rfl)).snoc
    (.access (t := true) rfl rfl rfl)).snoc
    (.access (t := true) rfl rfl rfl)).snoc
    (.broadcast (t := true) rfl rfl fun u => Or.inr ⟨sleeps_on_ready rfl rfl _ u, rfl⟩)).snoc
    (.unlock (t := true) rfl rfl)
  refine ⟨bothOpen, _, _, bothOpen_quiescent, run, fun q => rfl, fun hserved => ?_⟩
  obtain ⟨u, pc, howner, -⟩ := hserved false sleeper 0 () rfl rfl rfl
  cases howner

end Traces

end UoftOs.MsgQueue
