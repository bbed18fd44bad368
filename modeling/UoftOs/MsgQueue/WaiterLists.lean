import UoftOs.MsgQueue.Registration

/-!
# The waiter lists and their registrations

A recorder next to the machine keeps every registration of a node in order. The list of
a queue is what is left of its registrations: the nodes of the calls in progress that have
been linked and not yet unlinked. So a call has no node on a list when it frees its array.
-/

namespace UoftOs.MsgQueue

open Lib.Threads Lib.Transition

section Runs

variable {T Q : Type} [DecidableEq T] [DecidableEq Q] [Build]

/-- The queue and the node that a thread is about to link. -/
def linksAt : Thread (Pc Q) → Option (Q × Node)
  | .running (.pollLink c i q) => some (q, nodeOf c i)
  | _ => none

/-- The registration that the step `l` makes. -/
def registration (s : System T Q) : Label T (Pc Q) → Option (Q × Node)
  | .step t => linksAt (s.threads t)
  | _ => none

/-- The nodes on the list of `q`, as registrations. -/
def waiting (s : System T Q) (q : Q) : List (Q × Node) :=
  (s.objects q).queueListHead.map fun n => (q, n)

/-- The thread is in a poll call with the identifier `id`. -/
def InCall (s : System T Q) (t : T) (id : Nat) : Prop := ∃ pc c, PollAt s t pc c ∧ c.id = id

/-- The waiter lists, when `log` has been registered. -/
structure NoDangling (s : System T Q) (log : List (Q × Node)) : Prop where
  /-- A node is on the list of a queue exactly while its call has linked it there and
  not yet unlinked it. -/
  linked : ∀ q n, n ∈ (s.objects q).queueListHead ↔ ∃ t, Links s t q n
  /-- The list is in the order of registration. -/
  order : ∀ q, (waiting s q).Sublist log
  /-- A node is registered once, and linked on one list. -/
  once : (log.map Prod.snd).Nodup
  /-- The call of a linked node is in progress. -/
  inProgress : ∀ q, ∀ n ∈ (s.objects q).queueListHead, ∃ t, InCall s t n.poll
  /-- A call that is about to free its array has none of its nodes on a list. -/
  freed : ∀ t c numReady, s.threads t = .running (.pollUnlockAgain c numReady) →
    ∀ q, ∀ n ∈ (s.objects q).queueListHead, n.poll ≠ c.id
  /-- Neither has a thread that returns, with an error or not. -/
  returned : ∀ t value, s.threads t = .running (.done value) → ∀ q n, ¬ Links s t q n
  /-- A node that is to be linked is on no list. -/
  links : ∀ t c i q, s.threads t = .running (.pollLink c i q) →
    ∀ q', nodeOf c i ∉ (s.objects q').queueListHead
  /-- A node that is to be unlinked is on the list. -/
  unlinks : ∀ t c numReady i q, s.threads t = .running (.pollUnlink c numReady i q) →
    nodeOf c i ∈ (s.objects q).queueListHead

variable {s s₀ s' : System T Q} {l : Label T (Pc Q)} {log log₀ log' : List (Q × Node)}

/-- The invariant of the registrations: each is of a known node, no node is registered
twice, and the lists are what is left of them. -/
structure Logged (p : System T Q × List (Q × Node)) : Prop where
  registered : Registered p.1
  known : ∀ q n, (q, n) ∈ p.2 → Known p.1 q n
  order : ∀ q, (waiting p.1 q).Sublist p.2
  once : (p.2.map Prod.snd).Nodup

omit [DecidableEq T] [DecidableEq Q] [Build] in
theorem Quiescent.logged (h : Quiescent s) : Logged (s, []) where
  registered := h.registered
  known _ _ hmem := absurd hmem List.not_mem_nil
  order q := by
    rw [waiting, h.unlinked]
    exact List.nil_sublist _
  once := List.nodup_nil

omit [DecidableEq T] [DecidableEq Q] [Build] in
/-- A call that is about to link a node has not registered it before. -/
theorem Logged.new (hg : Logged (s, log)) {t : T} {c : PollCall Q} {i : Nat} {q q' : Q}
    (hpc : s.threads t = .running (.pollLink c i q)) : (q', nodeOf c i) ∉ log := fun hmem => by
  have hpoll : PollAt s t (.pollLink c i q) c := ⟨by rw [hpc]; rfl, rfl⟩
  exact Nat.lt_irrefl i ((hg.known q' _ hmem).call t _ c hpoll rfl).2

omit [DecidableEq T] [DecidableEq Q] [Build] in
/-- A step that links no node registers none. -/
theorem registration_eq_none (h : ∀ t pc, l = .step t → s.threads t = .running pc →
    ∀ q n, ¬ pc.LinksNow q n) : registration s l = none := by
  cases l with
  | step t =>
      rw [registration]
      cases hth : s.threads t with
      | running pc =>
          cases pc with
          | pollLink c i q => exact absurd ⟨rfl, rfl⟩ (h t _ rfl hth q (nodeOf c i))
          | _ => rfl
      | _ => rfl
  | _ => rfl

omit [Build] in
/-- Storing a queue leaves the lists of the others alone. -/
theorem waiting_setObject_of_ne {q q' : Q} (h : q' ≠ q) {mq : MqBackend Node} {t : T}
    {pc : Pc Q} : waiting ((s.setObject q mq).goTo t pc) q' = waiting s q' := by
  simp [waiting, State.setObject, Function.update_of_ne h]

theorem Logged.step (hg : Logged (s, log)) (hstep : SysStep s l s') :
    Logged (s', log ++ (registration s l).toList) := by
  have hregistered : Registered s' := hg.registered.step hstep
  have hknown : ∀ q n, (q, n) ∈ log → Known s' q n := fun q n hmem =>
    (hg.known q n hmem).step hg.registered.placed hstep
  cases hstep.listChange with
  | same hlist hquiet =>
      have hnone : registration s l = none :=
        registration_eq_none fun t pc hl hpc q n => (hquiet t pc hl hpc q n).1
      simp only [hnone, Option.toList_none, List.append_nil]
      refine ⟨hregistered, hknown, fun q => ?_, hg.once⟩
      have hsame : waiting s' q = waiting s q := by rw [waiting, hlist, waiting]
      rw [hsame]
      exact hg.order q
  | @links t c i q hl hpc hs =>
      have hsome : registration s l = some (q, nodeOf c i) := by
        rw [hl, registration, hpc]
        rfl
      have hmem : nodeOf c i ∈ (s'.objects q).queueListHead := by
        rw [hs]
        simp [State.setObject]
      simp only [hsome, Option.toList_some]
      refine ⟨hregistered, fun q' n hn => ?_, fun q' => ?_, ?_⟩
      · rcases List.mem_append.mp hn with hold | hnew
        · exact hknown q' n hold
        · rw [List.mem_singleton, Prod.mk.injEq] at hnew
          obtain ⟨rfl, rfl⟩ := hnew
          exact hregistered.known hmem
      · subst hs
        by_cases hq : q' = q
        · subst hq
          have hlast : waiting ((s.setObject q' { s.objects q' with
              queueListHead := (s.objects q').queueListHead ++ [nodeOf c i] }).goTo t
                (.pollLinked c i q')) q' = waiting s q' ++ [(q', nodeOf c i)] := by
            simp [waiting, State.setObject]
          rw [hlast]
          exact (hg.order q').append (List.Sublist.refl _)
        · rw [waiting_setObject_of_ne hq]
          exact (hg.order q').trans (List.sublist_append_left _ _)
      · have hfresh : nodeOf c i ∉ log.map Prod.snd := by
          intro hin
          obtain ⟨⟨q', n⟩, hin, rfl⟩ := List.mem_map.mp hin
          exact hg.new hpc hin
        rw [List.map_append]
        exact hg.once.append (List.nodup_singleton _)
          (List.disjoint_singleton.mpr hfresh)
  | @unlinks t c numReady i q hl hpc hs =>
      have hnone : registration s l = none := registration_eq_none fun u pc hl' hpc' q' n hn => by
        obtain ⟨-, rfl⟩ := stepper_eq hl hpc hl' hpc'
        exact hn
      simp only [hnone, Option.toList_none, List.append_nil]
      refine ⟨hregistered, hknown, fun q' => ?_, hg.once⟩
      subst hs
      by_cases hq : q' = q
      · subst hq
        have hrest : (waiting ((s.setObject q' { s.objects q' with
            queueListHead := (s.objects q').queueListHead.erase (nodeOf c i) }).goTo t
              (.pollUnlinked c numReady i q')) q').Sublist (waiting s q') := by
          simpa [waiting, State.setObject] using
            (List.erase_sublist (a := nodeOf c i)).map fun n => (q', n)
        exact hrest.trans (hg.order q')
      · rw [waiting_setObject_of_ne hq]
        exact hg.order q'

omit [DecidableEq T] [DecidableEq Q] [Build] in
/-- The call of a linked node has linked it and is before its unlinking. -/
theorem Links.atNode {t : T} {q : Q} {n : Node} (h : Links s t q n) {pc : Pc Q} {c : PollCall Q}
    (hpoll : PollAt s t pc c) : pc.PastLink n.index ∧ ¬ pc.PastUnlink n.index ∧
      queueAt c.fds n.index = some q ∧ nodeOf c n.index = n := by
  obtain ⟨pc', c', hpoll', hq, hnode, hpast, hnot⟩ := h
  obtain ⟨rfl, rfl⟩ := hpoll.eq hpoll'
  exact ⟨hpast, hnot, hq, hnode⟩

omit [DecidableEq T] [DecidableEq Q] [Build] in
/-- A node that is to be linked is on no list. -/
theorem Registered.not_linked (hr : Registered s) {t : T} {c : PollCall Q} {i : Nat} {q : Q}
    (hpc : s.threads t = .running (.pollLink c i q)) (q' : Q) :
    nodeOf c i ∉ (s.objects q').queueListHead := fun hmem => by
  have hpoll : PollAt s t (.pollLink c i q) c := ⟨by rw [hpc]; rfl, rfl⟩
  exact Nat.lt_irrefl i ((hr.known hmem).call t _ c hpoll rfl).2

omit [DecidableEq T] [DecidableEq Q] [Build] in
/-- A node that is to be unlinked is on the list. -/
theorem Registered.still_linked (hr : Registered s) {t : T} {c : PollCall Q} {numReady i : Nat}
    {q : Q} (hpc : s.threads t = .running (.pollUnlink c numReady i q)) :
    nodeOf c i ∈ (s.objects q).queueListHead := by
  have hplaced : queueAt c.fds i = some q :=
    hr.placed t (.pollUnlink c numReady i q) (by rw [hpc]; rfl)
  have hpoll : PollAt s t (.pollUnlink c numReady i q) c := ⟨by rw [hpc]; rfl, rfl⟩
  exact (hr.linked q _).mpr ⟨t, _, c, hpoll, hplaced, rfl, trivial, Nat.lt_irrefl i⟩

omit [DecidableEq T] [DecidableEq Q] [Build] in
/-- What is left of the registrations are the nodes of the calls in progress. -/
theorem Logged.noDangling (hg : Logged (s, log)) : NoDangling s log := by
  have hr : Registered s := hg.registered
  -- A linked node is linked by the thread that is in its call.
  have hcall {t : T} {pc : Pc Q} {c : PollCall Q} {q : Q} {n : Node} (hpoll : PollAt s t pc c)
      (hn : n ∈ (s.objects q).queueListHead) (hid : n.poll = c.id) : Links s t q n := by
    obtain ⟨u, hu⟩ := (hr.linked q n).mp hn
    obtain ⟨pc', c', hpoll', -, hnode, -⟩ := id hu
    have hid' : c'.id = c.id := by rw [← hid, ← hnode, nodeOf_poll]
    obtain rfl := hr.unique u t pc' pc c' c hpoll' hpoll hid'
    exact hu
  refine ⟨hr.linked, hg.order, hg.once, fun q n hn => ?_, fun t c numReady hpc q n hn hid => ?_,
    fun t value hpc q n hlinks => ?_, fun t c i q hpc => hr.not_linked hpc,
    fun t c numReady i q hpc => hr.still_linked hpc⟩
  · obtain ⟨t, pc, c, hpoll, -, hnode, -⟩ := (hr.linked q n).mp hn
    exact ⟨t, pc, c, hpoll, by rw [← hnode, nodeOf_poll]⟩
  · have hpoll : PollAt s t (.pollUnlockAgain c numReady) c := ⟨by rw [hpc]; rfl, rfl⟩
    exact ((hcall hpoll hn hid).atNode hpoll).2.1 trivial
  · obtain ⟨pc, c, ⟨hpoint, hpoll⟩, -⟩ := hlinks
    rw [hpc] at hpoint
    cases hpoint
    cases hpoll

end Runs

end UoftOs.MsgQueue
