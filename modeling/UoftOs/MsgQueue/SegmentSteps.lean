import UoftOs.MsgQueue.SectionEnds

/-!
# Where a segment is executed

When a thread releases the mutex of a queue, what its critical section has done is what one
segment does to the queue as the section has found it: a read or write that returns or goes
to sleep, an open, or a close.
-/

namespace UoftOs.MsgQueue

open Lib Lib.Frames Lib.Threads Lib.Transition

section Fits
variable [Build] {mq : MqBackend Empty} {ms : List (List UInt8)} {flags : CInt}
  {length msgHead : UInt64} {seg : Segment Empty}

/-- A read that goes on under the mutex has met no message that its buffer cannot hold. -/
theorem readFits_of_loop (hf : Framed mq ms) (hrun : readLoop mq flags length msgHead = .ok seg)
    (hnot : ∀ n, seg.next ≠ .drain n) : ReadFits mq length := by
  cases ms with
  | nil => exact readFits_of_empty hf length
  | cons m rest =>
      obtain ⟨n, hn, heq⟩ := readLoop_message hf flags length msgHead
      rw [hrun] at heq
      split at heq
      · have hdrain : seg.next = .drain n := by rw [Except.ok.inj heq]; rfl
        exact absurd hdrain (hnot n)
      · next hle =>
          refine readFits_cons hf ?_
          rw [← hn]
          exact Nat.not_lt.mp fun hlt => hle (UInt64.lt_iff_toNat_lt.mpr hlt)

theorem readFits_of_first (hf : Framed mq ms)
    (hrun : msgQueueRead mq flags length msgHead = .ok seg)
    (hreader : hasAny flags msgQueueReader = true) (hnot : ∀ n, seg.next ≠ .drain n) :
    ReadFits mq length := by
  cases ms with
  | nil => exact readFits_of_empty hf length
  | cons m rest =>
      have hused : (ringBufferUsed mq.buffer == 0) = false := by
        rw [hf.rep.used_eq_zero, Bool.eq_false_iff, ne_eq, List.isEmpty_iff]
        intro he
        have hwide : 8 ≤ (frames 8 (m :: rest)).length := width_le_length_frames_cons
        rw [he] at hwide
        simp at hwide
      rw [msgQueueRead, hreader, if_neg (by decide), hused, Bool.and_false,
        if_neg Bool.false_ne_true] at hrun
      exact readFits_of_loop hf hrun hnot

end Fits

namespace Queue
variable {T : Type} [DecidableEq T] [Build] {s : Queue T} {mq : MqBackend Empty} {t : T}
  {h : HandleId} {c : Call} {seg : Segment Empty} {k : Cond → CondVar T}
  {ms : List (List UInt8)}

/-- What the callers of a queue promise: frames have a length, buffers hold the messages, and
writers wait. -/
def Promised (s : Queue T) (l : Label T) : Prop := LengthsFit s l ∧ BuffersFit s l ∧ Blocking s l

theorem Begins.promised (hb : Begins s mq t h c (.ok seg) k) (hs : Sound s ms)
    (hmq : s.mq = some mq) (hd : ∀ n, s.calls t ≠ some ⟨h, c, .draining n⟩)
    (hnot : ∀ n, seg.next ≠ .drain n) (hfit : Call.LengthFits c) (hwaits : c.Waits (s.flags h)) :
    Promised s (.segment t h c seg) := by
  refine ⟨hfit, ?_, ?_⟩
  · cases c with
    | write buffer length => trivial
    | read length msgHead =>
        intro hreader mq' hmq'
        obtain rfl : mq = mq' := Option.some.inj (hmq.symm.trans hmq')
        have hf := hs.framed mq hmq
        generalize hr : (Except.ok seg : Except Fault (Segment Empty)) = r at hb
        cases hb with
        | first hc hh hp => exact readFits_of_first hf hr.symm hreader hnot
        | resume hc => exact readFits_of_loop hf hr.symm hnot
        | drain hc => exact absurd hc (hd _)
  · cases c with
    | read length msgHead => trivial
    | write buffer length => exact fun _ => hwaits

end Queue

namespace Observed

variable {T Q : Type} [DecidableEq T] [DecidableEq Q] [Build] {q : Q} {p p' : Observed T Q}
  {s s' : Queue T} {log log' : List (Queue.Label T)} {ms : List (List UInt8)} {t : T}
  {pc next : Pc Q} {th : Thread (Pc Q)} {hd : HandleId} {call : Call}

/-- Thread `t` releases the mutex of the queue and goes on as `th`. -/
structure Leaves (q : Q) (p : Observed T Q) (t : T) (th : Thread (Pc Q)) (p' : Observed T Q) :
    Prop where
  sys : p'.sys = (p.sys.setOwner (.queue q) none).setThread t th
  uses : ∀ u, u ≠ t → p'.clients.uses u = p.clients.uses u

omit [Build] in
theorem Leaves.threads (hl : Leaves q p t th p') :
    p'.sys.threads = Function.update p.sys.threads t th := by
  rw [hl.sys]
  rfl

omit [Build] in
theorem Leaves.thread (hl : Leaves q p t th p') : p'.sys.threads t = th := by
  rw [hl.threads, Function.update_self]

/-- The calls of the others stay as they are. -/
theorem CallsMatch.leave (h : CallsMatch q p s) (hl : Leaves q p t th p')
    (hcalls : ∀ u, u ≠ t → s'.calls u = s.calls u)
    (hwaits : ∀ cv, WaitsOn code th (.space q cv) →
      ∃ hd c, p'.clients.uses t = some (.call hd c) ∧ s'.calls t = some ⟨hd, c, .waiting⟩)
    (hdone : (∀ cv, ¬ WaitsOn code th (.space q cv)) → s'.calls t = none) :
    CallsMatch q p' s' where
  waiting u cv hwait := by
    by_cases hut : u = t
    · subst hut
      rw [hl.thread] at hwait
      exact hwaits cv hwait
    · rw [hl.threads, Function.update_of_ne hut] at hwait
      rw [hl.uses u hut, hcalls u hut]
      exact h.waiting u cv hwait
  elsewhere u hnot hwait := by
    by_cases hut : u = t
    · subst hut
      rw [hl.thread] at hwait
      exact hdone hwait
    · rw [hl.threads, Function.update_of_ne hut] at hnot hwait
      rw [hcalls u hut]
      exact h.elsewhere u hnot hwait

/-- Thread `t` leaves the queue of segments as it leaves the system. -/
theorem Leaves.agree (hl : Leaves q p t th p')
    (hcalls : CallsMatch q p' s')
    (hbackend : s'.mq = none ∨ s'.mq = some (p.sys.objects q).unlinked)
    (hsleepers : ∀ cv, Sleepers code (Function.update p.sys.threads t th) (.space q cv)
      (s'.conds cv))
    (hhandles : s'.handles = p'.clients.handles) (hflags : s'.flags = p'.clients.flags)
    (hsent : Queue.written log' = p'.clients.sent)
    (hreceived : Queue.returned log' = p'.clients.received) : Matches q p' log' s' where
  handles := hhandles
  flags := hflags
  sent := hsent
  received := hreceived
  calls := hcalls
  free _ := by
    refine ⟨?_, ?_⟩
    · rw [hl.sys]
      exact hbackend
    · rw [hl.threads]
      exact hsleepers
  owned u hu := by
    rw [hl.sys, State.setThread_owner, State.setOwner_self] at hu
    cases hu

omit [DecidableEq Q] in
/-- The segment of a read or write whose critical section is at its end. -/
theorem Within.segment (hw : Within q p s t pc (.call hd call)) {P : Next → Prop}
    (hrem : ∀ errno, ∃ nx, P nx ∧ remaining errno pc (p.sys.objects q).unlinked =
      .ok (.quiet (p.sys.objects q).unlinked nx)) :
    ∃ mq k seg k', s.mq = some mq ∧ Queue.Begins s mq t hd call (.ok seg) k ∧
      (∀ n, s.calls t ≠ some ⟨hd, call, .draining n⟩) ∧ seg.mq = (p.sys.objects q).unlinked ∧
      seg.stored = p.clients.stored t ∧ P seg.next ∧ Queue.Notified seg.notify k k' ∧
      ∀ cv, Sleepers code p.sys.threads (.space q cv) (k' cv) := by
  obtain ⟨mq, r, k, errno, ns, oks, k', hmq, hent, hr, hn, hsl⟩ := hw
  obtain ⟨nx, hnx, heq⟩ := hrem errno
  rw [heq] at hr
  cases hent with
  | @call _ _ r₀ _ hb hdr =>
      cases r₀ with
      | error e => cases hr
      | ok seg =>
          have hseg : Effects.ofSegment seg =
              (Effects.quiet (p.sys.objects q).unlinked nx).after ns (p.clients.stored t) oks :=
            Except.ok.inj hr
          have hnotify : seg.notify = ns ++ [] := congrArg Effects.notify hseg
          have hstored : seg.stored = p.clients.stored t ++ [] := congrArg Effects.stored hseg
          have hnext : seg.next = nx := congrArg Effects.next hseg
          rw [List.append_nil] at hnotify hstored
          refine ⟨mq, k, seg, k', hmq, hb, hdr, Option.some.inj (congrArg Effects.mq hseg), hstored,
            ?_, ?_, hsl⟩
          · rw [hnext]
            exact hnx
          · rw [hnotify]
            exact hn

omit [DecidableEq Q] [Build] in
/-- What a call returns is what its segment returns. -/
theorem returned_segment {k : Clients T} {seg : Segment Empty} {value : Int} {e : Option Errno}
    (hx : k.uses t = some (.call hd call)) (hst : seg.stored = k.stored t)
    (hnext : seg.next = .ret value e) :
    (k.returned t value).handles = k.handles ∧ (k.returned t value).flags = k.flags ∧
      (k.returned t value).sent = k.sent ++ Queue.written [.segment t hd call seg] ∧
      (k.returned t value).received = k.received ++ Queue.returned [.segment t hd call seg] := by
  cases call with
  | read length msgHead =>
      by_cases hv : 0 < value <;>
        simp [Clients.returned, hx, Queue.written, Queue.returned, hnext, hst, hv]
  | write buffer length =>
      by_cases hv : value = 0 <;>
        simp [Clients.returned, hx, Queue.written, Queue.returned, hnext, hv]

/-- A read or write returns. -/
theorem Matches.returns (h : Matches q p log s) (ho : p.Ordered q) (hs : Queue.Sound s ms)
    (hpc : p.sys.threads t = .running pc) (hx : p.clients.uses t = some (.call hd call))
    (hw : Within q p s t pc (.call hd call)) {value : Int}
    (hrem : ∀ errno, ∃ e, remaining errno pc (p.sys.objects q).unlinked =
      .ok (.quiet (p.sys.objects q).unlinked (.ret value e)))
    (hl : Leaves q p t (.running next) p') (hclients : p'.clients = p.clients.returned t value) :
    ∃ l s', Guarded Queue.Step Queue.Promised s l s' ∧ Matches q p' (log ++ [l]) s' := by
  obtain ⟨mq, k, seg, k', hmq, hb, hdr, hobj, hst, ⟨e, hnext⟩, hn, hsl⟩ :=
    hw.segment (P := fun nx => ∃ e, nx = .ret value e) fun errno =>
      (hrem errno).elim fun e he => ⟨_, ⟨e, rfl⟩, he⟩
  obtain ⟨-, hfit, hwaits⟩ := ho.serving.promised t hd call hx
  obtain ⟨hhandles, hflags, hsent, hreceived⟩ := returned_segment hx hst hnext
  have hpromised : Queue.Promised s (.segment t hd call seg) := by
    refine hb.promised hs hmq hdr (fun n hn => ?_) hfit (by rw [h.flags]; exact hwaits)
    rw [hnext] at hn
    cases hn
  have hcalls : CallsMatch q p' (s.finish t hd call seg k') := by
    refine h.calls.leave hl (fun u hut => Function.update_of_ne hut ..)
      (fun cv hwait => absurd hwait not_waitsOn_running) fun _ => ?_
    rw [Queue.finish, hnext]
    exact Function.update_self ..
  refine ⟨_, _, ⟨.segment hs.running hmq hb hn, hpromised⟩,
    hl.agree hcalls (.inr (congrArg some hobj)) (fun cv => ?_) ?_ ?_ ?_ ?_⟩
  · rw [Queue.finish, hnext]
    refine (hsl cv).update ?_ not_waitsOn_running
    rw [hpc]
    exact not_waitsOn_running
  · rw [hclients, hhandles]
    exact h.handles
  · rw [hclients, hflags]
    exact h.flags
  · rw [hclients, hsent, ← h.sent, Queue.written_append]
  · rw [hclients, hreceived, ← h.received, Queue.returned_append]

/-- A read or write goes to sleep. -/
theorem Matches.waits (h : Matches q p log s) (ho : p.Ordered q) (hs : Queue.Sound s ms)
    (hpc : p.sys.threads t = .running pc) (hx : p.clients.uses t = some (.call hd call))
    (hw : Within q p s t pc (.call hd call)) {cv : Cond}
    (hc : code pc = .wait (.space q cv) (.queue q) next)
    (hl : Leaves q p t (.asleep pc) p') (hclients : p'.clients = p.clients) :
    ∃ l s', Guarded Queue.Step Queue.Promised s l s' ∧ Matches q p' (log ++ [l]) s' := by
  obtain ⟨mq, k, seg, k', hmq, hb, hdr, hobj, hst, hnext, hn, hsl⟩ :=
    hw.segment (P := fun nx => nx = .wait cv) fun errno => ⟨_, rfl, remaining_wait hc⟩
  obtain ⟨-, hfit, hwaits⟩ := ho.serving.promised t hd call hx
  have hpromised : Queue.Promised s (.segment t hd call seg) := by
    refine hb.promised hs hmq hdr (fun n hn => ?_) hfit (by rw [h.flags]; exact hwaits)
    rw [hnext] at hn
    cases hn
  have hcall : (s.finish t hd call seg k').calls t = some ⟨hd, call, .waiting⟩ := by
    rw [Queue.finish, hnext]
    exact Function.update_self ..
  have hcalls : CallsMatch q p' (s.finish t hd call seg k') := by
    refine h.calls.leave hl (fun u hut => Function.update_of_ne hut ..)
      (fun cv' _ => ⟨hd, call, by rw [hclients, hx], hcall⟩) fun hnot => ?_
    exact absurd ((waitsOn_asleep hc).mpr rfl) (hnot cv)
  have hnot {cv' : Cond} : ¬ WaitsOn code (p.sys.threads t) (.space q cv') := by
    rw [hpc]
    exact not_waitsOn_running
  have hnone : Queue.written [.segment t hd call seg] = [] ∧
      Queue.returned [.segment t hd call seg] = [] := by
    cases call <;> simp [Queue.written, Queue.returned, hnext]
  refine ⟨_, _, ⟨.segment hs.running hmq hb hn, hpromised⟩,
    hl.agree hcalls (.inr (congrArg some hobj)) (fun cv' => ?_) ?_ ?_ ?_ ?_⟩
  · simp only [Queue.finish, hnext, Queue.condsAfter]
    by_cases hcv : cv' = cv
    · subst hcv
      rw [Function.update_self]
      exact (hsl cv').sleep hnot hc
    · rw [Function.update_of_ne hcv]
      refine (hsl cv').update hnot fun hwait => hcv ?_
      rw [waitsOn_asleep hc, CondId.space.injEq] at hwait
      exact hwait.2.symm
  · rw [hclients]
    exact h.handles
  · rw [hclients]
    exact h.flags
  · rw [hclients, ← h.sent, Queue.written_append, hnone.1, List.append_nil]
  · rw [hclients, ← h.received, Queue.returned_append, hnone.2, List.append_nil]

/-- A handle is opened. -/
theorem Matches.opens (h : Matches q p log s) (ho : p.Ordered q) (hs : Queue.Sound s ms)
    (hpc : p.sys.threads t = .running pc) {fl : CInt}
    (hx : p.clients.uses t = some (.opening hd fl)) (hvalid : hasAny fl (~~~allFlags) = false)
    (hw : Within q p s t pc (.opening hd fl))
    (hrem : ∀ errno, remaining errno pc (p.sys.objects q).unlinked =
      .ok (.quiet (p.sys.objects q).unlinked (.ret 0 none)))
    (hl : Leaves q p t (.running next) p') (hclients : p'.clients = p.clients.opened t) :
    ∃ l s', Guarded Queue.Step Queue.Promised s l s' ∧ Matches q p' (log ++ [l]) s' := by
  obtain ⟨mq, r, k, errno, ns, oks, k', hmq, hent, hr, hn, hsl⟩ := hw
  rw [hrem] at hr
  cases hent with
  | opening hidle =>
      have heffects : Effects.quiet (mqOpen mq fl) (.ret 0 none) =
          (Effects.quiet (p.sys.objects q).unlinked (.ret 0 none)).after ns
            (p.clients.stored t) oks := Except.ok.inj hr
      have hobj : mqOpen mq fl = (p.sys.objects q).unlinked :=
        Option.some.inj (congrArg Effects.mq heffects)
      have hnotify : [] = ns ++ [] := congrArg Effects.notify heffects
      rw [List.append_nil] at hnotify
      subst hnotify
      obtain rfl := hn.of_nil
      have hrun : msgQueueOpen mq fl = .ok (p.sys.objects q).unlinked := by
        rw [msgQueueOpen, hvalid, if_neg Bool.false_ne_true, hobj]
      have hnew : p.clients.next ∉ s.handles := by
        rw [h.handles]
        exact fun hmem => Nat.lt_irrefl _ (ho.serving.numbered _ hmem)
      have hh : hd ∈ s.handles := by
        rw [h.handles]
        exact ho.serving.inUse t _ hx
      rw [Clients.opened, hx] at hclients
      have hcalls : CallsMatch q p' { s with
          mq := some (p.sys.objects q).unlinked, handles := insert p.clients.next s.handles,
          flags := Function.update s.flags p.clients.next fl } :=
        h.calls.leave hl (fun _ _ => rfl) (fun cv hwait => absurd hwait not_waitsOn_running)
          fun _ => hidle
      refine ⟨_, _, ⟨.«open» hs.running hmq hh hnew hrun, trivial, trivial, trivial⟩,
        hl.agree hcalls (.inr rfl) (fun cv => ?_) ?_ ?_ ?_ ?_⟩
      · refine (hsl cv).update ?_ not_waitsOn_running
        rw [hpc]
        exact not_waitsOn_running
      · rw [hclients, ← h.handles]
      · rw [hclients, ← h.flags]
      · rw [hclients, ← h.sent, Queue.written_append]
        exact List.append_nil _
      · rw [hclients, ← h.received, Queue.returned_append]
        exact List.append_nil _

/-- A handle is closed, maybe the last one. -/
theorem Matches.closes (h : Matches q p log s) (ho : p.Ordered q) (hs : Queue.Sound s ms)
    (hown : p.sys.owner (.queue q) = some t) (hpc : p.sys.threads t = .running pc)
    (hx : p.clients.uses t = some (.closing hd)) (hw : Within q p s t pc (.closing hd))
    {left : Option (MqBackend Empty)}
    (hleft : left = none ∨ left = some (p.sys.objects q).unlinked)
    (hrem : ∀ errno, remaining errno pc (p.sys.objects q).unlinked = .ok (.ofClose (left, [])))
    (hl : Leaves q p t (.running next) p') (hclients : p'.clients = p.clients.closed t) :
    ∃ l s', Guarded Queue.Step Queue.Promised s l s' ∧ Matches q p' (log ++ [l]) s' := by
  obtain ⟨mq, r, k, errno, ns, oks, k', hmq, hent, hr, hn, hsl⟩ := hw
  rw [hrem] at hr
  cases hent with
  | closing hidle =>
      cases hrun : msgQueueClose mq (s.flags hd) with
      | error e =>
          rw [hrun] at hr
          cases hr
      | ok result =>
          rw [hrun] at hr
          obtain ⟨left', ns'⟩ := result
          have heffects : Effects.ofClose (left', ns') =
              (Effects.ofClose (left, [])).after ns (p.clients.stored t) oks := Except.ok.inj hr
          obtain rfl : left' = left := congrArg Effects.mq heffects
          have hnotify : ns' = ns ++ [] := congrArg Effects.notify heffects
          rw [List.append_nil] at hnotify
          subst hnotify
          have hh : hd ∈ s.handles := by
            rw [h.handles]
            exact ho.serving.inUse t _ hx
          -- Every other call in progress is that of a waiting thread.
          have hfree : ∀ u c, s.calls u = some c → c.handle ≠ hd := by
            intro u c hc heq
            by_cases hwait : ∃ cv, WaitsOn code (p.sys.threads u) (.space q cv)
            · obtain ⟨cv, hcv⟩ := hwait
              obtain ⟨hd', c', hu, hcall⟩ := h.calls.waiting u cv hcv
              obtain rfl := Option.some.inj (hc.symm.trans hcall)
              obtain rfl := ho.serving.alone t u hd _ hx hu heq
              rw [hx] at hu
              cases hu
            · by_cases hheld : Held code holds (p.sys.threads u) (.queue q)
              · obtain rfl := Option.some.inj (hown.symm.trans ((ho.exclusive u).mp hheld))
                rw [hidle] at hc
                cases hc
              · rw [h.calls.elsewhere u hheld fun cv hcv => hwait ⟨cv, hcv⟩] at hc
                cases hc
          rw [Clients.closed, hx] at hclients
          have hcalls : CallsMatch q p' { s with
              mq := left', handles := s.handles.erase hd, conds := k' } :=
            h.calls.leave hl (fun _ _ => rfl) (fun cv hwait => absurd hwait not_waitsOn_running)
              fun _ => hidle
          refine ⟨_, _, ⟨.close hs.running hmq hh hfree hrun hn, trivial, trivial, trivial⟩,
            hl.agree hcalls hleft (fun cv => ?_) ?_ ?_ ?_ ?_⟩
          · refine (hsl cv).update ?_ not_waitsOn_running
            rw [hpc]
            exact not_waitsOn_running
          · rw [hclients, ← h.handles]
          · rw [hclients, ← h.flags]
          · rw [hclients, ← h.sent, Queue.written_append]
            exact List.append_nil _
          · rw [hclients, ← h.received, Queue.returned_append]
            exact List.append_nil _

end Observed

end UoftOs.MsgQueue
