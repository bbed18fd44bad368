import UoftOs.MsgQueue.SegmentSteps

/-!
# The statements refine the segments

Every step of the system is a step of the queue of atomic segments or none at all: what holds
of the queue of segments in every run holds of the program, whatever the interleaving of its
statements.
-/

namespace UoftOs.MsgQueue

open Lib Lib.Threads Lib.Transition

theorem queue_ne_poll {Q : Type} (q : Q) (poll i : Nat) : Mutex.queue q ≠ .poll poll i := by
  simp

section Statements
variable {Q : Type} [Build] {pc next : Pc Q} {q : Q} {m : Mutex Q}

/-- A call ends with the release of the mutex of its queue. -/
theorem unlock_of_ends (h : pc.Ends) : ∃ q next, code pc = .unlock (.queue q) next := by
  cases pc <;> simp only [Pc.Ends] at h <;> exact ⟨_, _, rfl⟩

theorem serves_of_ends (hc : code pc = .unlock (.queue q) next) (h : pc.Ends) :
    pc.serves = some q := by
  cases pc <;> simp_all [code, Pc.Ends, Pc.serves]

theorem stores_of_not_access (h : ∀ r f, code pc ≠ .access r f) (mq : MqBackend Node) :
    pc.stores mq = [] := by
  cases pc <;> first | rfl | exact absurd rfl (h _ _)

theorem stores_of_poll (h : pc.serves = none) (mq : MqBackend Node) : pc.stores mq = [] := by
  cases pc <;> first | rfl | cases h

theorem serves_of_wait {cv : Cond} (hc : code pc = .wait (.space q cv) m next) :
    pc.serves = some q := by
  cases pc <;> simp_all [code, Pc.serves]

theorem calls_of_wait {cv : Cond} {flags : HandleId → CInt} {x : Use}
    (hc : code pc = .wait (.space q cv) m next) (hp : pc.Purpose flags x) :
    ∃ hd call, x = .call hd call := by
  cases pc <;> simp only [code, Instr.wait.injEq, CondId.space.injEq, reduceCtorEq, false_and]
    at hc
  all_goals
    obtain ⟨hd, rfl, -⟩ := hp.eq
    exact ⟨hd, _, rfl⟩

theorem broadcast_ne_ready {poll i : Nat} : code pc ≠ .broadcast (.ready poll i) next := by
  cases pc <;> simp [code]

/-- The clients take note of the thread that runs alone. -/
theorem after_uses_of_ne {T : Type} [DecidableEq T] [DecidableEq Q] {k : Clients T} {t u : T}
    {mq : MqBackend Node} (hut : u ≠ t) : (k.after q t mq pc).uses u = k.uses u := by
  unfold Clients.after
  split
  · cases pc <;> simp only [Clients.does, Clients.opened, Clients.closed, Clients.returned] <;>
      (try split) <;> first | rfl | exact Function.update_of_ne hut ..
  · rfl

/-- Under the mutex of a queue nothing is allocated and no call ends. -/
theorem busy_of_holds (h : holds pc (.queue q)) :
    (∀ next, code pc ≠ .alloc next) ∧ (∀ next, code pc ≠ .goto next) ∧ code pc ≠ .stop := by
  cases pc <;> simp_all [code, holds, locksAt]

end Statements

namespace Observed

variable {T Q : Type} [DecidableEq T] [DecidableEq Q] [Build] {q : Q} {p p' : Observed T Q}
  {s : Queue T} {log : List (Queue.Label T)} {ms : List (List UInt8)} {t : T}
  {pc next : Pc Q} {l : Label T (Pc Q)}

/-! ## What a step leaves alone -/

/-- The threads that do not move stay or wake up. -/
theorem keeps_of_step {sys sys' : System T Q} (h : SysStep sys l sys') {u : T}
    (hstep : l ≠ .step u) (hstart : ∀ pc, l ≠ .start u pc) :
    Keeps (sys.threads u) (sys'.threads u) := by
  cases h.threadChange u with
  | same hl he => exact .inl he
  | wakes hold hnew => exact .inr ⟨_, hold, hnew⟩
  | start hl => exact absurd hl (hstart _)
  | moves hl => exact absurd hl hstep
  | waits hl => exact absurd hl hstep
  | stop hl => exact absurd hl hstep

theorem keeps_others {sys sys' : System T Q} (h : SysStep sys (.step t) sys') (u : T)
    (hut : u ≠ t) : Keeps (sys.threads u) (sys'.threads u) :=
  keeps_of_step h (fun heq => hut (Label.step.inj heq).symm) (by simp)

/-- What the clients take note of while a thread runs. -/
theorem Step.clients_runs (h : Step q p (.step t) p') (hpc : p.sys.threads t = .running pc) :
    p'.clients = p.clients.after q t (p.sys.objects q) pc := by
  obtain ⟨-, hclients⟩ := h
  generalize p'.clients = k' at hclients
  cases hclients with
  | runs hpc' =>
      rw [hpc] at hpc'
      cases hpc'
      rfl
  | resumes hpc' =>
      rw [hpc] at hpc'
      cases hpc'

theorem Step.clients_resumes (h : Step q p (.step t) p') (hpc : p.sys.threads t = .woken pc) :
    p'.clients = p.clients := by
  obtain ⟨-, hclients⟩ := h
  generalize p'.clients = k' at hclients
  cases hclients with
  | runs hpc' =>
      rw [hpc] at hpc'
      cases hpc'
  | resumes hpc' => rfl

/-- Inside a critical section the clients take note of what is stored. -/
theorem after_inside {k : Clients T} {point : T → Option (Pc Q)} (hs : k.Serving q point)
    (hpc : point t = some pc) (hheld : holds pc (.queue q)) (hends : ¬ pc.Ends)
    (mq : MqBackend Node) :
    k.after q t mq pc =
      { k with stored := Function.update k.stored t (k.stored t ++ pc.stores mq) } := by
  have same (hstores : pc.stores mq = []) :
      k = { k with stored := Function.update k.stored t (k.stored t ++ pc.stores mq) } := by
    rw [hstores, List.append_nil, Function.update_eq_self]
  rcases serves_of_holds hheld with hserves | hserves
  · rw [Clients.after, if_pos hserves]
    cases pc with
    | readBody c early =>
        obtain ⟨x, -, -, hst⟩ := hs.purpose t _ hpc hserves
        rw [hst id, List.nil_append]
        rfl
    | _ => first | exact same rfl | exact absurd trivial hends
  · rw [Clients.after, if_neg (by rw [hserves]; exact (Option.some_ne_none q).symm)]
    exact same (stores_of_poll hserves mq)

/-! ## One step -/

/-- A thread that wakes up unsignalled goes on waiting. -/
theorem Matches.wakes (h : Matches q p log s) (hstep : Step q p (.spurious t) p') :
    Matches q p' log s := by
  have hkeeps (u : T) : Keeps (p.sys.threads u) (p'.sys.threads u) :=
    keeps_of_step hstep.sys (by simp) (by simp)
  have hclients : p'.clients = p.clients := by
    obtain ⟨-, hclients⟩ := hstep
    generalize p'.clients = k' at hclients
    cases hclients
    rfl
  have hsys : p'.sys.owner = p.sys.owner ∧ p'.sys.objects = p.sys.objects := by
    obtain ⟨hsys, -⟩ := hstep
    generalize p'.sys = sys' at hsys
    cases hsys
    exact ⟨rfl, rfl⟩
  refine h.frame ⟨fun u cv => ((hkeeps u).waits _).1, fun u cv => ((hkeeps u).waits _).2⟩
    (fun u hu => ((hkeeps u).held _).mpr hu) (by rw [hsys.1]) (by rw [hsys.2])
    (fun u pc hown hpc => ⟨(hkeeps u).running hpc, by rw [hclients], by rw [hclients]⟩)
    (by rw [hclients]; exact ⟨rfl, rfl, rfl, rfl⟩) fun u cv _ => by rw [hclients]

omit [DecidableEq Q] [Build] in
/-- A call that starts changes neither the handles nor the messages. -/
theorem starts_keeps {k k' : Clients T} (h : Clients.Starts q k t pc k') :
    (k'.handles = k.handles ∧ k'.flags = k.flags ∧ k'.sent = k.sent ∧
      k'.received = k.received) ∧
    ∀ u, u ≠ t → k'.uses u = k.uses u ∧ k'.stored u = k.stored u := by
  cases h with
  | elsewhere => exact ⟨⟨rfl, rfl, rfl, rfl⟩, fun u _ => ⟨rfl, rfl⟩⟩
  | _ =>
      exact ⟨⟨rfl, rfl, rfl, rfl⟩, fun u hut =>
        ⟨Function.update_of_ne hut .., Function.update_of_ne hut ..⟩⟩

/-- A call starts outside of the critical sections. -/
theorem Matches.starts (h : Matches q p log s) (ho : p.Ordered q)
    (hstep : Step q p (.start t pc) p') : Matches q p' log s := by
  have hstarts : Clients.Starts q p.clients t pc p'.clients := by
    obtain ⟨-, hclients⟩ := hstep
    generalize p'.clients = k' at hclients
    cases hclients with
    | start hstarts => exact hstarts
  obtain ⟨hclients, huses⟩ := starts_keeps hstarts
  have hidle : p.sys.threads t = .idle ∧ p'.sys = p.sys.goTo t pc := by
    obtain ⟨hsys, -⟩ := hstep
    generalize p'.sys = sys' at hsys
    cases hsys with
    | start hidle he => exact ⟨hidle, rfl⟩
  refine h.outside (t := t) ho (fun u hut => ?_) ?_ (fun cv => ?_) (fun cv => ?_) ?_ ?_ hclients
    huses
  · rw [hidle.2]
    exact .inl (State.goTo_of_ne _ _ _ hut)
  · rw [hidle.1]
    exact id
  · rw [hidle.1]
    exact not_waitsOn_idle
  · rw [hidle.2, State.goTo_self]
    exact not_waitsOn_running
  · rw [hidle.2]
    rfl
  · rw [hidle.2]
    rfl

/-- A thread without the mutex moves. -/
theorem Matches.steps_outside (h : Matches q p log s) (ho : p.Ordered q)
    (hs : Queue.Sound s ms) (hstep : Step q p (.step t) p')
    (hpc : p.sys.threads t = .running pc) (hnot : ¬ holds pc (.queue q)) :
    Matches q p' log s := by
  have hpoint : (p.sys.threads t).point = some pc := by rw [hpc]; rfl
  have hexec := hstep.sys.executes hpc
  have hclients := hstep.clients_runs hpc
  by_cases hlock : ∃ next, code pc = .lock (.queue q) next
  · obtain ⟨next, hc⟩ := hlock
    rw [hc] at hexec
    refine h.locks ho hs hpc hc hexec.1 hexec.2 (hclients.trans ?_)
    unfold Clients.after
    cases pc <;> simp only [code, reduceCtorEq] at hc <;> split <;> rfl
  have hserves : pc.serves ≠ some q := fun hserves => hnot <|
    holds_of_serves hserves (ho.locked t pc hpoint hserves) fun next hc => hlock ⟨next, hc⟩
  rw [Clients.after, if_neg hserves] at hclients
  have htyped := code_typed.point pc
  have hafter (cv : Cond) : ¬ WaitsOn code (p'.sys.threads t) (.space q cv) := by
    cases hstep.sys.threadChange t with
    | same hl => exact absurd rfl hl
    | wakes hold =>
        rw [hpc] at hold
        cases hold
    | start hl => cases hl
    | moves hl hm hnew =>
        rw [hnew]
        exact not_waitsOn_running
    | waits hl hold hc hnew =>
        obtain rfl := Thread.running.inj (hpc.symm.trans hold)
        rw [hnew]
        refine not_waitsOn_asleep hc (fun hm => hnot ?_) cv
        rw [hc] at htyped
        exact hm ▸ htyped.1
    | stop hl hold hc hnew =>
        rw [hnew]
        exact not_waitsOn_idle
  have frame (howner : p'.sys.owner (.queue q) = p.sys.owner (.queue q))
      (hobj : (p'.sys.objects q).unlinked = (p.sys.objects q).unlinked) : Matches q p' log s := by
    refine h.outside ho (keeps_others hstep.sys) ?_ (fun cv => ?_) hafter howner hobj ?_ ?_
    · rw [hpc]
      exact hnot
    · rw [hpc]
      exact not_waitsOn_running
    · rw [hclients]
      exact ⟨rfl, rfl, rfl, rfl⟩
    · rw [hclients]
      exact fun u _ => ⟨rfl, rfl⟩
  cases hc : code pc with
  | lock m next =>
      rw [hc] at hexec
      have hm : Mutex.queue q ≠ m := fun heq => hlock ⟨next, heq ▸ hc⟩
      refine frame ?_ ?_
      · rw [hexec.2]
        exact State.setOwner_of_ne _ _ hm
      · rw [hexec.2]
        rfl
  | unlock m next =>
      rw [hc] at hexec
      have hm : Mutex.queue q ≠ m := by
        rintro rfl
        exact hnot (ho.unlocks hpc hc)
      refine frame ?_ ?_
      · rw [hexec]
        exact State.setOwner_of_ne _ _ hm
      · rw [hexec]
        rfl
  | wait c m next =>
      rw [hc] at hexec htyped
      have hm : Mutex.queue q ≠ m := by
        rintro rfl
        exact hnot htyped.1
      refine frame ?_ ?_
      · rw [hexec]
        exact State.setOwner_of_ne _ _ hm
      · rw [hexec]
        rfl
  | signal c next =>
      rw [hc] at hexec
      rcases hexec with ⟨u, pc', -, -, hexec⟩ | ⟨-, hexec⟩
      · exact frame (by rw [hexec]; rfl) (by rw [hexec]; rfl)
      · exact frame (by rw [hexec]; rfl) (by rw [hexec]; rfl)
  | broadcast c next =>
      rw [hc] at hexec
      obtain ⟨th, -, hexec⟩ := hexec
      exact frame (by rw [hexec]; rfl) (by rw [hexec]; rfl)
  | access r f =>
      rw [hc] at hexec
      obtain ⟨mq', next, hf, hexec⟩ := hexec
      refine frame (by rw [hexec]; rfl) ?_
      rw [hexec, State.goTo_objects]
      by_cases hr : q = r
      · subst hr
        rw [State.setObject_object]
        refine access_poll hc ((access_serves hc).resolve_left hserves) hf
      · rw [State.setObject_of_ne _ _ hr]
  | alloc next =>
      rw [hc] at hexec
      rcases hexec with hexec | hexec
      · exact frame (by rw [hexec]; rfl) (by rw [hexec]; rfl)
      · exact frame (by rw [hexec]; rfl) (by rw [hexec]; rfl)
  | goto next =>
      rw [hc] at hexec
      exact frame (by rw [hexec]; rfl) (by rw [hexec]; rfl)
  | stop =>
      rw [hc] at hexec
      exact frame (by rw [hexec]; rfl) (by rw [hexec]; rfl)

/-- A call ends with its critical section. -/
theorem Matches.ends (h : Matches q p log s) (ho : p.Ordered q) (hs : Queue.Sound s ms)
    (hown : p.sys.owner (.queue q) = some t) (hpc : p.sys.threads t = .running pc)
    (hc : code pc = .unlock (.queue q) next) (hends : pc.Ends)
    (hl : Leaves q p t (.running next) p')
    (hclients : p'.clients = p.clients.after q t (p.sys.objects q) pc) :
    ∃ l s', Guarded Queue.Step Queue.Promised s l s' ∧ Matches q p' (log ++ [l]) s' := by
  have hpoint : (p.sys.threads t).point = some pc := by rw [hpc]; rfl
  have hserves := serves_of_ends hc hends
  obtain ⟨x, hx, hp⟩ := ho.serving.purpose_eq hpoint hserves
  have hw : Within q p s t pc x := by
    obtain ⟨pc', hpc', hin⟩ := h.owned t hown
    obtain rfl := Thread.running.inj (hpc.symm.trans hpc')
    cases hin with
    | polls hu =>
        rw [hx] at hu
        cases hu
    | works hu hw =>
        obtain rfl := Option.some.inj (hx.symm.trans hu)
        exact hw
  rw [Clients.after, if_pos hserves] at hclients
  cases pc <;> simp only [code, Instr.unlock.injEq, Mutex.queue.injEq, reduceCtorEq, false_and]
    at hc <;> obtain ⟨rfl, rfl⟩ := hc
  case openUnlock q =>
    cases x with
    | opening hd fl => exact h.opens ho hs hpc hx hp hw (fun _ => rfl) hl hclients
    | call => exact hp.elim
    | closing => exact hp.elim
  case closeLast q =>
    cases x with
    | closing hd => exact h.closes ho hs hown hpc hx hw (.inl rfl) (fun _ => rfl) hl hclients
    | call => exact hp.elim
    | opening => exact hp.elim
  case closeUnlock q =>
    cases x with
    | closing hd => exact h.closes ho hs hown hpc hx hw (.inr rfl) (fun _ => rfl) hl hclients
    | call => exact hp.elim
    | opening => exact hp.elim
  case wakeDone w =>
    cases x with
    | call hd call => exact h.returns ho hs hpc hx hw (fun _ => ⟨_, rfl⟩) hl hclients
    | closing => exact hp.elim
    | opening => exact hp.elim
  case readAgain c =>
    cases x with
    | call hd call => exact h.returns ho hs hpc hx hw (fun _ => ⟨_, rfl⟩) hl hclients
    | closing => exact hp.elim
    | opening => exact hp.elim
  case writeRefuse c =>
    cases x with
    | call hd call => exact h.returns ho hs hpc hx hw (fun _ => ⟨_, rfl⟩) hl hclients
    | closing => exact hp.elim
    | opening => exact hp.elim
  all_goals exact hends.elim

/-- A poll leaves the queue as it has found it. -/
theorem Matches.unpolls (h : Matches q p log s) (ho : p.Ordered q)
    (hown : p.sys.owner (.queue q) = some t) (hpc : p.sys.threads t = .running pc)
    (hserves : pc.serves = none) (hl : Leaves q p t (.running next) p')
    (hclients : p'.clients = p.clients.after q t (p.sys.objects q) pc) : Matches q p' log s := by
  have hpoint : (p.sys.threads t).point = some pc := by rw [hpc]; rfl
  have hne : pc.serves ≠ some q := by
    rw [hserves]
    exact (Option.some_ne_none q).symm
  have huses : p.clients.uses t = none := by
    refine ho.serving.idle t fun pc' hpc' => ?_
    obtain rfl := Option.some.inj (hpoint.symm.trans hpc')
    exact hne
  rw [Clients.after, if_neg hne] at hclients
  obtain ⟨pc', hpc', hin⟩ := h.owned t hown
  cases hin with
  | works hu =>
      rw [huses] at hu
      cases hu
  | polls hu hset hidle =>
      have hcalls : CallsMatch q p' s := h.calls.leave hl (fun _ _ => rfl)
        (fun cv hwait => absurd hwait not_waitsOn_running) fun _ => hidle
      refine hl.agree hcalls hset.backend (fun cv => ?_) ?_ ?_ ?_ ?_
      · refine (hset.sleepers cv).update ?_ not_waitsOn_running
        rw [hpc]
        exact not_waitsOn_running
      · rw [hclients, h.handles]
      · rw [hclients, h.flags]
      · rw [hclients, h.sent]
      · rw [hclients, h.received]

/-- The thread with the mutex moves. -/
theorem Matches.steps_inside (h : Matches q p log s) (ho : p.Ordered q)
    (hs : Queue.Sound s ms) (hfit : Fits q p (.step t)) (hstep : Step q p (.step t) p')
    (hpc : p.sys.threads t = .running pc) (hheld : holds pc (.queue q)) :
    Matches q p' log s ∨
      ∃ l s', Guarded Queue.Step Queue.Promised s l s' ∧ Matches q p' (log ++ [l]) s' := by
  have hpoint : (p.sys.threads t).point = some pc := by rw [hpc]; rfl
  have hown : p.sys.owner (.queue q) = some t := (ho.exclusive t).mp (by rw [hpc]; exact hheld)
  have hexec := hstep.sys.executes hpc
  have hclients := hstep.clients_runs hpc
  have hkeeps := keeps_others hstep.sys
  have htyped := code_typed.point pc
  have hidle (hserves : p.clients.uses t = none) : pc.serves = none := by
    refine (serves_of_holds hheld).resolve_left fun hq => ?_
    obtain ⟨x, hx, -⟩ := ho.serving.purpose_eq hpoint hq
    rw [hserves] at hx
    cases hx
  -- What is left of the critical section gets shorter by the statement.
  have goes {next : Pc Q} (ns : List Notify) (hends : ¬ pc.Ends)
      (hpc' : p'.sys.threads t = .running next) (hheld' : holds next (.queue q))
      (howner : p'.sys.owner (.queue q) = some t)
      (hrem : ∀ errno, ∃ errno' oks, remaining errno pc (p.sys.objects q).unlinked =
        (remaining errno' next (p'.sys.objects q).unlinked).map
          (·.after ns (pc.stores (p.sys.objects q)) oks))
      (hpoll : pc.serves = none → (p'.sys.objects q).unlinked = (p.sys.objects q).unlinked)
      (hnotify : ∀ k : Cond → CondVar T,
        (∀ cv, Sleepers code p.sys.threads (.space q cv) (k cv)) →
        ∃ k', Queue.Notified ns k k' ∧
          ∀ cv, Sleepers code p'.sys.threads (.space q cv) (k' cv)) : Matches q p' log s := by
    rw [after_inside ho.serving hpoint hheld hends] at hclients
    refine h.inside hown hpc hkeeps howner hpc' hheld' (fun _ => hrem)
      (fun hu => hpoll (hidle hu)) hnotify (fun _ => ?_) ?_ ?_
    · rw [hclients]
      exact Function.update_self ..
    · rw [hclients]
      exact ⟨rfl, rfl, rfl, rfl⟩
    · rw [hclients]
  have hwaiters (hpc' : ∃ next, p'.sys.threads t = .running next) :
      SameWaiters q p.sys p'.sys := by
    obtain ⟨next, hpc'⟩ := hpc'
    refine .of_keeps t hkeeps (fun cv => ?_) fun cv => ?_
    · rw [hpc]
      exact not_waitsOn_running
    · rw [hpc']
      exact not_waitsOn_running
  have silent (hpc' : ∃ next, p'.sys.threads t = .running next) (k : Cond → CondVar T)
      (hk : ∀ cv, Sleepers code p.sys.threads (.space q cv) (k cv)) :
      ∃ k', Queue.Notified [] k k' ∧
        ∀ cv, Sleepers code p'.sys.threads (.space q cv) (k' cv) :=
    ⟨k, .nil k, fun cv => (hwaiters hpc').sleepers (hk cv)⟩
  have quiet {next : Pc Q} (hnot : ∀ r f, code pc ≠ .access r f) {ns : List Notify}
      (hobj : p'.sys.objects = p.sys.objects)
      (hrem : ∀ errno, ∃ errno', remaining errno pc (p.sys.objects q).unlinked =
        (remaining errno' next (p.sys.objects q).unlinked).map (·.after ns [] [])) (errno) :
      ∃ errno' oks, remaining errno pc (p.sys.objects q).unlinked =
        (remaining errno' next (p'.sys.objects q).unlinked).map
          (·.after ns (pc.stores (p.sys.objects q)) oks) := by
    obtain ⟨errno', heq⟩ := hrem errno
    refine ⟨errno', [], ?_⟩
    rw [hobj, stores_of_not_access hnot]
    exact heq
  have notEnds (hne : ∀ r next, code pc ≠ .unlock (.queue r) next) : ¬ pc.Ends := by
    intro hends
    obtain ⟨r, next, hc⟩ := unlock_of_ends hends
    exact hne r next hc
  cases hc : code pc with
  | lock m next =>
      rw [hc] at hexec htyped
      obtain ⟨-, poll, i, rfl⟩ : remaining none pc (p.sys.objects q).unlinked =
          remaining none next (p.sys.objects q).unlinked ∧ ∃ poll i, m = .poll poll i :=
        remaining_lock hc hheld
      have hpc' : p'.sys.threads t = .running next := by
        rw [hexec.2]
        exact State.goTo_self ..
      refine .inl (goes [] (notEnds (by simp [hc])) hpc' ((htyped _).mpr (.inr hheld)) ?_
        (quiet (by simp [hc]) (by rw [hexec.2]; rfl) fun errno => ?_) (fun _ => ?_)
        (silent ⟨next, hpc'⟩))
      · rw [hexec.2, State.goTo_owner, State.setOwner_of_ne _ _ (queue_ne_poll q poll i), hown]
      · exact ⟨errno, by rw [map_after_nil]; exact (remaining_lock hc hheld).1⟩
      · rw [hexec.2]
        rfl
  | unlock m next =>
      rw [hc] at hexec htyped
      rcases unlock_of_holds hc hheld with rfl | ⟨poll, i, rfl⟩
      · have hl : Leaves q p t (.running next) p' := by
          refine ⟨hexec, fun u hut => ?_⟩
          rw [hclients]
          exact after_uses_of_ne hut
        rcases ends_of_unlock hc with hends | hunlocks | hserves
        · exact .inr (h.ends ho hs hown hpc hc hends hl hclients)
        · cases pc <;> simp only [Pc.Unlocks] at hunlocks
          case readTooSmall c =>
            refine absurd ?_ (hfit t c rfl hpc)
            simp only [holds, locksAt, List.mem_singleton, Mutex.queue.injEq] at hheld
            exact hheld.symm
        · exact .inl (h.unpolls ho hown hpc hserves hl hclients)
      · have hpc' : p'.sys.threads t = .running next := by
          rw [hexec]
          exact State.goTo_self ..
        refine .inl (goes [] (notEnds (by simp [hc])) hpc'
          ((htyped _).mpr ⟨by simp, hheld⟩) ?_
          (quiet (by simp [hc]) (by rw [hexec]; rfl) fun errno => ?_) (fun _ => ?_)
          (silent ⟨next, hpc'⟩))
        · rw [hexec, State.goTo_owner, State.setOwner_of_ne _ _ (queue_ne_poll q poll i), hown]
        · exact ⟨errno, by rw [map_after_nil]; exact remaining_unlock_poll hc hheld⟩
        · rw [hexec]
          rfl
  | wait c m next =>
      rw [hc] at hexec
      obtain ⟨rfl, cv, rfl⟩ := wait_of_holds hc hheld
      have hkept : p'.clients = p.clients := hclients.trans (after_wait hc)
      have hl : Leaves q p t (.asleep pc) p' := ⟨hexec, fun u _ => by rw [hkept]⟩
      have hserves : pc.serves = some q := serves_of_wait hc
      obtain ⟨x, hx, hp⟩ := ho.serving.purpose_eq hpoint hserves
      obtain ⟨pc', hpc', hin⟩ := h.owned t hown
      obtain rfl := Thread.running.inj (hpc.symm.trans hpc')
      cases hin with
      | polls hu =>
          rw [hx] at hu
          cases hu
      | works hu hw =>
          obtain rfl := Option.some.inj (hx.symm.trans hu)
          obtain ⟨hd, call, rfl⟩ := calls_of_wait hc hp
          exact .inr (h.waits ho hs hpc hx hw hc hl hkept)
  | signal c next =>
      rw [hc] at hexec htyped
      have hpc' : p'.sys.threads t = .running next := by
        rcases hexec with ⟨u, pc', -, -, hexec⟩ | ⟨-, hexec⟩ <;> rw [hexec] <;>
          exact State.goTo_self ..
      have hsame : p'.sys.objects = p.sys.objects ∧ p'.sys.owner = p.sys.owner := by
        rcases hexec with ⟨u, pc', -, -, hexec⟩ | ⟨-, hexec⟩ <;> rw [hexec] <;>
          exact ⟨rfl, rfl⟩
      cases c with
      | ready poll i =>
          refine .inl (goes [] (notEnds (by simp [hc])) hpc' ((htyped _).mpr hheld)
            (by rw [hsame.2, hown]) (quiet (by simp [hc]) hsame.1 fun errno => ?_)
            (fun _ => by rw [hsame.1]) (silent ⟨next, hpc'⟩))
          exact ⟨errno, by rw [map_after_nil]; exact remaining_signal_ready hc⟩
      | space r cv =>
          obtain rfl : r = q := by
            have hr := serves_of_signal hc
            rcases serves_of_holds hheld with hserves | hserves
            · exact Option.some.inj (hr.symm.trans hserves)
            · rw [hserves] at hr
              cases hr
          refine .inl (goes [.signal cv] (notEnds (by simp [hc])) hpc'
            ((htyped _).mpr hheld) (by rw [hsame.2, hown])
            (quiet (by simp [hc]) hsame.1 fun errno => remaining_signal hc)
            (fun _ => by rw [hsame.1]) fun k hk => ?_)
          have notified {v : CondVar T} (hv : CondVar.Signal (k cv) v)
              (hsl : Sleepers code p'.sys.threads (.space r cv) v) :
              ∃ k', Queue.Notified [.signal cv] k k' ∧
                ∀ cv, Sleepers code p'.sys.threads (.space r cv) (k' cv) := by
            refine ⟨Function.update k cv v, .signal hv (.nil _), fun cv' => ?_⟩
            by_cases hcv : cv' = cv
            · subst hcv
              rwa [Function.update_self]
            · rw [Function.update_of_ne hcv]
              exact (hwaiters ⟨next, hpc'⟩).sleepers (hk cv')
          rcases hexec with ⟨u, pc', hu, hsleeps, hexec⟩ | ⟨hnone, hexec⟩
          · obtain ⟨v, hv, hsl⟩ := (hk cv).signal hu hsleeps
            have hut : t ≠ u := by
              rintro rfl
              rw [hpc] at hu
              cases hu
            refine notified hv ?_
            rw [hexec]
            refine hsl.update ?_ not_waitsOn_running
            rw [Function.update_of_ne hut, hpc]
            exact not_waitsOn_running
          · obtain ⟨v, hv, hsl⟩ := (hk cv).signalNone hnone
            refine notified hv ?_
            rw [hexec]
            refine hsl.update ?_ not_waitsOn_running
            rw [hpc]
            exact not_waitsOn_running
  | broadcast c next =>
      rw [hc] at hexec htyped
      obtain ⟨th, hall, hexec⟩ := hexec
      have hpc' : p'.sys.threads t = .running next := by
        rw [hexec]
        exact State.goTo_self ..
      cases c with
      | ready poll i => exact absurd hc broadcast_ne_ready
      | space r cv =>
          obtain rfl : r = q := by
            have hr := serves_of_broadcast hc
            rcases serves_of_holds hheld with hserves | hserves
            · exact Option.some.inj (hr.symm.trans hserves)
            · rw [hserves] at hr
              cases hr
          refine .inl (goes [.broadcast cv] (notEnds (by simp [hc])) hpc'
            ((htyped _).mpr hheld) (by rw [hexec]; exact hown)
            (quiet (by simp [hc]) (by rw [hexec]; rfl) fun errno =>
              ⟨errno, remaining_broadcast hc⟩)
            (fun _ => by rw [hexec]; rfl) fun k hk => ?_)
          refine ⟨Function.update k cv (k cv).broadcast, .broadcast (.nil _), fun cv' => ?_⟩
          by_cases hcv : cv' = cv
          · subst hcv
            rw [Function.update_self, hexec]
            refine ((hk cv').broadcast hall).update ?_ not_waitsOn_running
            have hth : th t = .running pc := by
              rcases hall t with ⟨pc', hasleep, -, -⟩ | ⟨-, hth⟩
              · rw [hpc] at hasleep
                cases hasleep
              · rw [hth, hpc]
            rw [hth]
            exact not_waitsOn_running
          · rw [Function.update_of_ne hcv]
            exact (hwaiters ⟨next, hpc'⟩).sleepers (hk cv')
  | access r f =>
      rw [hc] at hexec htyped
      obtain rfl := access_of_holds hc hheld
      obtain ⟨mq', next, hf, hexec⟩ := hexec
      have hpc' : p'.sys.threads t = .running next := by
        rw [hexec]
        exact State.goTo_self ..
      have hobj : p'.sys.objects r = mq' := by
        rw [hexec]
        exact State.setObject_object ..
      refine .inl (goes [] (notEnds (by simp [hc])) hpc' ((htyped _ _ _ hf _).mpr hheld)
        (by rw [hexec]; exact hown) (fun errno => ?_) (fun hserves => ?_)
        (silent ⟨next, hpc'⟩))
      · rw [hobj]
        exact remaining_access hc (ho.checked t pc hpoint) hf
      · rw [hobj]
        exact access_poll hc hserves hf
  | alloc next => exact absurd hc ((busy_of_holds hheld).1 next)
  | goto next => exact absurd hc ((busy_of_holds hheld).2.1 next)
  | stop => exact absurd hc (busy_of_holds hheld).2.2

/-- A thread that steps runs, or comes back from a wait. -/
theorem runs_or_resumes {sys sys' : System T Q} (h : SysStep sys (.step t) sys') :
    (∃ pc, sys.threads t = .running pc) ∨
      ∃ pc c m next, sys.threads t = .woken pc ∧ code pc = .wait c m next ∧
        sys.owner m = none ∧ sys' = (sys.setOwner m (some t)).goTo t next := by
  cases h with
  | relock hpc hc hfree => exact .inr ⟨_, _, _, _, hpc, hc, hfree, rfl⟩
  | lock hpc => exact .inl ⟨_, hpc⟩
  | unlock hpc => exact .inl ⟨_, hpc⟩
  | wait hpc => exact .inl ⟨_, hpc⟩
  | signal hpc => exact .inl ⟨_, hpc⟩
  | signalNone hpc => exact .inl ⟨_, hpc⟩
  | broadcast hpc => exact .inl ⟨_, hpc⟩
  | access hpc => exact .inl ⟨_, hpc⟩
  | alloc hpc => exact .inl ⟨_, hpc⟩
  | allocFails hpc => exact .inl ⟨_, hpc⟩
  | goto hpc => exact .inl ⟨_, hpc⟩
  | stop hpc => exact .inl ⟨_, hpc⟩

/-- A thread comes back from a wait. -/
theorem Matches.resumes (h : Matches q p log s) (ho : p.Ordered q) (hs : Queue.Sound s ms)
    (hstep : Step q p (.step t) p') (hpc : p.sys.threads t = .woken pc) {c : CondId Q}
    {m : Mutex Q} (hc : code pc = .wait c m next) (hfree : p.sys.owner m = none)
    (hsys : p'.sys = (p.sys.setOwner m (some t)).goTo t next) : Matches q p' log s := by
  have hclients := hstep.clients_resumes hpc
  by_cases hm : m = .queue q
  · subst hm
    exact h.relocks ho hs hpc hc hfree hsys hclients
  · refine h.outside ho (keeps_others hstep.sys) ?_ (fun cv => ?_) (fun cv => ?_) ?_ ?_ ?_ ?_
    · rw [hpc]
      rintro ⟨hheld, -⟩
      exact hm (wait_of_holds hc hheld).1
    · rw [hpc, waitsOn_woken]
      exact not_waitsOn_asleep hc hm cv
    · rw [hsys, State.goTo_self]
      exact not_waitsOn_running
    · rw [hsys, State.goTo_owner, State.setOwner_of_ne _ _ (Ne.symm hm)]
    · rw [hsys]
      rfl
    · rw [hclients]
      exact ⟨rfl, rfl, rfl, rfl⟩
    · rw [hclients]
      exact fun u _ => ⟨rfl, rfl⟩

/-- A step of the system is a step of the queue of segments, or none. -/
theorem Matches.step (h : Matches q p log s) (ho : p.Ordered q) (hs : Queue.Sound s ms)
    (hfit : Fits q p l) (hstep : Step q p l p') :
    Matches q p' log s ∨
      ∃ l' s', Guarded Queue.Step Queue.Promised s l' s' ∧ Matches q p' (log ++ [l']) s' := by
  cases l with
  | start t pc => exact .inl (h.starts ho hstep)
  | spurious t => exact .inl (h.wakes hstep)
  | step t =>
      rcases runs_or_resumes hstep.sys with
        ⟨pc, hpc⟩ | ⟨pc, c, m, next, hpc, hc, hfree, hsys⟩
      · by_cases hheld : holds pc (.queue q)
        · exact h.steps_inside ho hs hfit hstep hpc hheld
        · exact .inl (h.steps_outside ho hs hstep hpc hheld)
      · exact .inl (h.resumes ho hs hstep hpc hc hfree hsys)

/-! ## Runs -/

/-- The queue of segments of a queue that has just been created. -/
def segments (q : Q) (flags : CInt) (p : Observed T Q) : Queue T :=
  Queue.created (p.sys.objects q).unlinked flags

omit [DecidableEq T] [DecidableEq Q] in
theorem Created.isCreated {flags : CInt} (h : Created q flags p) :
    Queue.IsCreated (segments q flags p) := by
  obtain ⟨block, answer, capacity, hcreate⟩ := h.created
  exact ⟨block, answer, capacity, flags, _, hcreate, rfl⟩

omit [DecidableEq Q] in
/-- The queue of segments starts where the system does. -/
theorem Created.agree {flags : CInt} (h : Created q flags p) :
    Matches q p [] (segments q flags p) where
  handles := by
    rw [h.clients]
    rfl
  flags := by
    rw [h.clients]
    rfl
  sent := by
    rw [h.clients]
    rfl
  received := by
    rw [h.clients]
    rfl
  calls := by
    refine ⟨fun t cv hwait => ?_, fun t _ _ => rfl⟩
    rw [h.quiescent.idle] at hwait
    exact absurd hwait not_waitsOn_idle
  free _ := by
    refine ⟨.inr rfl, fun cv => ⟨Finset.disjoint_empty_left _, fun t => ?_, fun t hs => ?_⟩⟩
    · rw [h.quiescent.idle]
      refine iff_of_false (fun hmem => ?_) not_waitsOn_idle
      simp [segments, Queue.created, CondVar.empty, CondVar.waiters] at hmem
    · rw [h.quiescent.idle] at hs
      exact absurd hs.waitsOn not_waitsOn_idle
  owned t hown := by
    rw [h.quiescent.free] at hown
    cases hown

/-- The system and its queue of segments after a run. -/
structure Serialised (q : Q) (s₀ : Queue T) (p : Observed T Q) (log : List (Queue.Label T))
    (s : Queue T) : Prop where
  ordered : p.Ordered q
  run : Run (Guarded Queue.Step Queue.Promised) s₀ log s
  agree : Matches q p log s
  delivered : ∃ ms, Queue.Delivered log s ms

theorem Serialised.step {s₀ : Queue T} (h : Serialised q s₀ p log s) (hfit : Fits q p l)
    (hstep : Step q p l p') : ∃ log' s', Serialised q s₀ p' log' s' := by
  obtain ⟨ms, hd⟩ := h.delivered
  have ho := h.ordered.step hfit hstep
  rcases h.agree.step h.ordered hd.sound hfit hstep with hsame | ⟨l', s', hguarded, hnew⟩
  · exact ⟨log, s, ho, h.run, hsame, ms, hd⟩
  · obtain ⟨hstep', hl, hr, hb⟩ := hguarded
    exact ⟨log ++ [l'], s', ho, h.run.snoc ⟨hstep', hl, hr, hb⟩, hnew, hd.step hl hr hb hstep'⟩

theorem serialised_of_run {flags : CInt} {p₀ : Observed T Q} (h₀ : Created q flags p₀)
    {ls : List (Label T (Pc Q))} (run : Run (Guarded (Step q) (Fits q)) p₀ ls p) :
    ∃ log s, Serialised q (segments q flags p₀) p log s := by
  refine Run.state_invariant (I := fun p => ∃ log s, Serialised q (segments q flags p₀) p log s)
    ⟨[], _, h₀.ordered, .nil, h₀.agree, [], ?_⟩ ?_ run
  · exact ⟨Queue.created_sound h₀.isCreated, Queue.created_idle h₀.isCreated, rfl, by simp⟩
  · rintro p l p' ⟨log, s, h⟩ ⟨hstep, hfit⟩
    exact h.step hfit hstep

/-- In every run of the program, over any interleaving of its statements, the queue is one of
atomic segments: the same messages have passed, the same handles are open, and whenever the
mutex is free the backend and the waiting threads are the same. -/
theorem statements_refine_segments {flags : CInt} {p₀ : Observed T Q}
    (h₀ : Created q flags p₀) {ls : List (Label T (Pc Q))}
    (run : Run (Guarded (Step q) (Fits q)) p₀ ls p) :
    ∃ log s, Run (Guarded Queue.Step Queue.Promised) (segments q flags p₀) log s ∧
      Matches q p log s := by
  obtain ⟨log, s, h⟩ := serialised_of_run h₀ run
  exact ⟨log, s, h.run, h.agree⟩

omit [Build] in
/-- A thread opens the queue again: it is then in the critical section, before its unlock. -/
theorem statements_refine_segments_open :
    letI : Build := ⟨false⟩
    ∃ (p₀ p : Observed Unit Unit) (ls : List (Label Unit (Pc Unit))),
      Run (Guarded (Step ()) (Fits ())) p₀ ls p ∧ p.clients.handles = {0, 1} ∧
      ∃ log s, Run (Guarded Queue.Step Queue.Promised) (segments () 3 p₀) log s ∧
        Matches () p log s := by
  let _ : Build := ⟨false⟩
  let mq : MqBackend Node :=
    ⟨⟨List.replicate 10 0xDD, 10, 0, 0, false⟩, 1, 1, 1, false, false, 0, []⟩
  let p₀ : Observed Unit Unit :=
    ⟨⟨fun _ => none, fun _ => .idle, fun _ => mq, 0⟩, .initial 3⟩
  have h₀ : Created () 3 p₀ :=
    ⟨⟨fun _ => rfl, fun _ => rfl, fun _ => rfl⟩, rfl, some 0, some fun _ => 0, 10, by decide⟩
  let k := p₀.clients.enter () (.opening 0 3)
  let p₁ : Observed Unit Unit := ⟨p₀.sys.goTo () (.openLock () 3), k⟩
  have enters : Guarded (Step ()) (Fits ()) p₀ (.start () (.openLock () 3)) p₁ :=
    ⟨⟨.start rfl ⟨.open () 3, rfl⟩,
      .start (.open ⟨Finset.mem_singleton_self 0, fun _ => (Option.some_ne_none _).symm⟩)⟩,
      by rintro t c ⟨⟩⟩
  have start : Run (Guarded (Step ()) (Fits ())) p₀ [] p₀ := .nil
  have run := (((start.snoc enters).snoc
    (Step.runs () (.openLock () 3) ⟨_, k⟩ rfl id (.lock rfl rfl rfl) rfl)).snoc
    (Step.runs () (.openTouch () 3) ⟨_, k⟩ rfl id (.access rfl rfl rfl) rfl)).snoc
    (Step.runs () (.openUnlock ()) ⟨_, k.opened ()⟩ rfl id (.unlock rfl rfl) rfl)
  exact ⟨p₀, _, _, run, by decide, statements_refine_segments h₀ run⟩

end Observed

end UoftOs.MsgQueue
