import UoftOs.MsgQueue.LockDiscipline

/-!
# The waiter lists

In every run, disciplined or not, the waiter list of a queue holds exactly the
nodes that the poll calls in progress have linked there and not yet unlinked.
No two calls share an identifier, so a node has one call.
-/

namespace UoftOs.MsgQueue

open Lib.Threads Lib.Transition

variable {Q : Type}

/-- The poll call of a statement behind its `malloc`. -/
def Pc.poll? : Pc Q → Option (PollCall Q)
  | .pollLock c => some c
  | .pollRegister c _ _ => some c
  | .pollLink c _ _ => some c
  | .pollLinked c _ _ => some c
  | .pollCount c _ _ _ _ => some c
  | .pollWait c => some c
  | .pollUnlock c _ => some c
  | .pollUnregister c _ _ _ => some c
  | .pollUnlink c _ _ _ => some c
  | .pollUnlinked c _ _ _ => some c
  | .pollUnlockAgain c _ => some c
  | _ => none

/-- The registration loop is past entry `k`. -/
def Pc.PastLink : Pc Q → Nat → Prop
  | .pollLock _, _ => False
  | .pollRegister _ i _, k => k < i
  | .pollLink _ i _, k => k < i
  | .pollLinked _ i _, k => k ≤ i
  | _, _ => True

/-- The loop that unlinks the nodes is past entry `k`. -/
def Pc.PastUnlink : Pc Q → Nat → Prop
  | .pollUnregister _ _ i _, k => k < i
  | .pollUnlink _ _ i _, k => k < i
  | .pollUnlinked _ _ i _, k => k ≤ i
  | .pollUnlockAgain .., _ => True
  | _, _ => False

def Pc.LinksNow : Pc Q → Q → Node → Prop
  | .pollLink c i q', q, n => q' = q ∧ nodeOf c i = n
  | _, _, _ => False

def Pc.UnlinksNow : Pc Q → Q → Node → Prop
  | .pollUnlink c _ i q', q, n => q' = q ∧ nodeOf c i = n
  | _, _, _ => False

/-- The node that `helper_wakeup` is at. -/
def Pc.visits? : Pc Q → Option (Wakeup Q × Node)
  | .wakeTest w n => some (w, n)
  | .wakeLock w n => some (w, n)
  | .wakeSignal w n => some (w, n)
  | .wakeUnlock w n => some (w, n)
  | .wakeNext w n => some (w, n)
  | _ => none

/-- A step inside a poll call: the call keeps its identity, its queues and its nodes,
and passes an entry in the two loops when it links or unlinks its node. -/
structure Continues (pc next : Pc Q) (c c' : PollCall Q) : Prop where
  id : c'.id = c.id
  queues : ∀ k, queueAt c'.fds k = queueAt c.fds k
  nodes : ∀ k, nodeOf c' k = nodeOf c k
  linked : ∀ k q, queueAt c.fds k = some q →
    (next.PastLink k ↔ pc.PastLink k ∨ pc.LinksNow q (nodeOf c k))
  unlinked : ∀ k q, queueAt c.fds k = some q →
    (next.PastUnlink k ↔ pc.PastUnlink k ∨ pc.UnlinksNow q (nodeOf c k))

section Loops
variable (c : PollCall Q) (again : Bool) (numReady i : Nat)

@[simp] theorem countFrom_poll : (countFrom c again numReady i).poll? = some c := by
  unfold countFrom
  split
  · rfl
  · split <;> rfl

@[simp] theorem registerFrom_poll : (registerFrom c i).poll? = some c := by
  unfold registerFrom
  split
  · rfl
  · simp

@[simp] theorem unregisterFrom_poll : (unregisterFrom c numReady i).poll? = some c := by
  unfold unregisterFrom
  split <;> rfl

@[simp] theorem countFrom_pastLink (k : Nat) : (countFrom c again numReady i).PastLink k := by
  unfold countFrom
  split
  · trivial
  · split <;> trivial

@[simp] theorem countFrom_not_pastUnlink (k : Nat) :
    ¬ (countFrom c again numReady i).PastUnlink k := by
  unfold countFrom
  split
  · exact id
  · split <;> exact id

@[simp] theorem registerFrom_not_pastUnlink (k : Nat) : ¬ (registerFrom c i).PastUnlink k := by
  unfold registerFrom
  split
  · exact id
  · exact countFrom_not_pastUnlink c false 0 0 k

@[simp] theorem unregisterFrom_pastLink (k : Nat) : (unregisterFrom c numReady i).PastLink k := by
  unfold unregisterFrom
  split <;> trivial

variable {c i} {k : Nat} {q : Q}

/-- An entry with a queue is passed once the loop goes on behind it. -/
theorem nextEntry_passes (hk : queueAt c.fds k = some q) {j : Nat} {q' : Q}
    (h : nextEntry c.fds i = some (j, q')) : k < j ↔ k < i := by
  obtain ⟨hle, -, hnone⟩ := nextEntry_eq_some h
  refine ⟨fun hlt => ?_, fun hlt => by omega⟩
  by_contra hge
  rw [hnone k (by omega) hlt] at hk
  cases hk

theorem nextEntry_none_passes (hk : queueAt c.fds k = some q) (h : nextEntry c.fds i = none) :
    k < i := by
  by_contra hge
  rw [nextEntry_eq_none h (by omega)] at hk
  cases hk

theorem registerFrom_pastLink (hk : queueAt c.fds k = some q) :
    (registerFrom c i).PastLink k ↔ k < i := by
  unfold registerFrom
  split
  · next h => exact nextEntry_passes hk h
  · next h => exact iff_of_true (countFrom_pastLink ..) (nextEntry_none_passes hk h)

theorem unregisterFrom_pastUnlink (hk : queueAt c.fds k = some q) :
    (unregisterFrom c numReady i).PastUnlink k ↔ k < i := by
  unfold unregisterFrom
  split
  · next h => exact nextEntry_passes hk h
  · next h => exact iff_of_true trivial (nextEntry_none_passes hk h)

theorem nodeOf_index (c : PollCall Q) (k : Nat) : (nodeOf c k).index = k := rfl

theorem nodeOf_poll (c : PollCall Q) (k : Nat) : (nodeOf c k).poll = c.id := rfl

/-- At an entry with its queue, linking its node is passing the entry. -/
theorem passes_node {i' : Nat} {q' : Q} (hk : queueAt c.fds k = some q)
    (hi : queueAt c.fds i' = some q') :
    k ≤ i' ↔ k < i' ∨ q' = q ∧ nodeOf c i' = nodeOf c k := by
  constructor
  · intro hle
    rcases Nat.lt_or_eq_of_le hle with hlt | rfl
    · exact Or.inl hlt
    · rw [hk, Option.some.injEq] at hi
      exact Or.inr ⟨hi.symm, rfl⟩
  · rintro (hlt | ⟨-, hn⟩)
    · exact hlt.le
    · have := congrArg Node.index hn
      rw [nodeOf_index, nodeOf_index] at this
      exact this.ge

end Loops

/-- The step stays inside the call, which neither links nor unlinks. -/
theorem Continues.of_quiet {pc next : Pc Q} {c : PollCall Q}
    (hl : ∀ k q, queueAt c.fds k = some q → (next.PastLink k ↔ pc.PastLink k))
    (hu : ∀ k q, queueAt c.fds k = some q → (next.PastUnlink k ↔ pc.PastUnlink k))
    (hnl : ∀ q n, ¬ pc.LinksNow q n) (hnu : ∀ q n, ¬ pc.UnlinksNow q n) :
    Continues pc next c c where
  id := rfl
  queues _ := rfl
  nodes _ := rfl
  linked k q hk := by simp only [hl k q hk, hnl, or_false]
  unlinked k q hk := by simp only [hu k q hk, hnu, or_false]

theorem entry_poll {pc : Pc Q} (h : IsEntry pc) : pc.poll? = none := by
  obtain ⟨e, rfl⟩ := h
  cases e <;> simp only [Entry.start] <;> (repeat' split) <;> rfl

/-- A statement of a poll call is not one of `helper_wakeup`. -/
theorem visits_of_poll {pc : Pc Q} {c : PollCall Q} (h : pc.poll? = some c) :
    pc.visits? = none := by
  cases pc <;> first | rfl | cases h

theorem entry_visits {pc : Pc Q} (h : IsEntry pc) : pc.visits? = none := by
  obtain ⟨e, rfl⟩ := h
  cases e <;> simp only [Entry.start] <;> (repeat' split) <;> rfl

variable [Build]

/-- How a thread comes to a statement of a poll call. -/
theorem leads_poll {fresh : Nat} {pc next : Pc Q} {c' : PollCall Q} (h : Leads code fresh pc next)
    (hp : pc.Placed) (hc' : next.poll? = some c') :
    (∃ fds, pc = .pollAlloc fds ∧ next = .pollLock ⟨fresh, fds⟩) ∨
      ∃ c, pc.poll? = some c ∧ Continues pc next c c' := by
  cases h with
  | lock hc =>
      cases pc <;> simp only [code, Instr.lock.injEq, reduceCtorEq] at hc <;>
        obtain ⟨rfl, rfl⟩ := hc
      case pollLock c =>
        rw [registerFrom_poll] at hc'
        obtain rfl := Option.some.inj hc'
        exact Or.inr ⟨c, rfl, .of_quiet
          (fun k q hk => (registerFrom_pastLink hk).trans (iff_of_false (Nat.not_lt_zero k) id))
          (fun k q _ => iff_of_false (registerFrom_not_pastUnlink c 0 k) id)
          (fun _ _ => id) fun _ _ => id⟩
      case pollRegister c i q =>
        obtain rfl := Option.some.inj hc'
        exact Or.inr ⟨c, rfl, .of_quiet (fun _ _ _ => Iff.rfl) (fun _ _ _ => Iff.rfl)
          (fun _ _ => id) fun _ _ => id⟩
      case pollUnregister c numReady i q =>
        obtain rfl := Option.some.inj hc'
        exact Or.inr ⟨c, rfl, .of_quiet (fun _ _ _ => Iff.rfl) (fun _ _ _ => Iff.rfl)
          (fun _ _ => id) fun _ _ => id⟩
      all_goals cases hc'
  | unlock hc =>
      cases pc <;> simp only [code, Instr.unlock.injEq, reduceCtorEq] at hc <;>
        obtain ⟨rfl, rfl⟩ := hc
      case pollLinked c i q =>
        rw [registerFrom_poll] at hc'
        obtain rfl := Option.some.inj hc'
        exact Or.inr ⟨c, rfl, .of_quiet
          (fun k q hk => (registerFrom_pastLink hk).trans Nat.lt_succ_iff)
          (fun k q _ => iff_of_false (registerFrom_not_pastUnlink c _ k) id)
          (fun _ _ => id) fun _ _ => id⟩
      case pollUnlock c numReady =>
        rw [unregisterFrom_poll] at hc'
        obtain rfl := Option.some.inj hc'
        exact Or.inr ⟨c, rfl, .of_quiet
          (fun k q _ => iff_of_true (unregisterFrom_pastLink ..) trivial)
          (fun k q hk =>
            (unregisterFrom_pastUnlink numReady hk).trans (iff_of_false (Nat.not_lt_zero k) id))
          (fun _ _ => id) fun _ _ => id⟩
      case pollUnlinked c numReady i q =>
        rw [unregisterFrom_poll] at hc'
        obtain rfl := Option.some.inj hc'
        exact Or.inr ⟨c, rfl, .of_quiet
          (fun k q _ => iff_of_true (unregisterFrom_pastLink ..) trivial)
          (fun k q hk => (unregisterFrom_pastUnlink numReady hk).trans Nat.lt_succ_iff)
          (fun _ _ => id) fun _ _ => id⟩
      all_goals cases hc'
  | wait hc =>
      cases pc <;> simp only [code, Instr.wait.injEq, reduceCtorEq] at hc <;>
        obtain ⟨rfl, rfl, rfl⟩ := hc
      case pollWait c =>
        rw [countFrom_poll] at hc'
        obtain rfl := Option.some.inj hc'
        exact Or.inr ⟨c, rfl, .of_quiet (fun k q _ => iff_of_true (countFrom_pastLink ..) trivial)
          (fun k q _ => iff_of_false (countFrom_not_pastUnlink c true 0 0 k) id)
          (fun _ _ => id) fun _ _ => id⟩
      all_goals cases hc'
  | signal hc =>
      cases pc <;> simp only [code, Instr.signal.injEq, reduceCtorEq] at hc <;>
        obtain ⟨rfl, rfl⟩ := hc
      case writeSignal c => split at hc' <;> cases hc'
      all_goals cases hc'
  | broadcast hc =>
      cases pc <;> simp only [code, Instr.broadcast.injEq, reduceCtorEq] at hc <;>
        obtain ⟨rfl, rfl⟩ := hc <;> cases hc'
  | access hc hf =>
      cases code_accessed hc hf with
      | plain hpl hn =>
          cases next <;> first | exact hn.elim | cases hc'
      | produces => cases hc'
      | starts => split at hc' <;> cases hc'
      | tests => split at hc' <;> cases hc'
      | nexts => split at hc' <;> cases hc'
      | @links c i q mq =>
          obtain rfl := Option.some.inj hc'
          exact Or.inr ⟨c, rfl, rfl, fun _ => rfl, fun _ => rfl, fun k q' hk => passes_node hk hp,
            fun _ _ _ => iff_of_false id fun h => h.elim id id⟩
      | @counts c again numReady i =>
          rw [countFrom_poll] at hc'
          cases hc'
          have hkeeps := countAt_keeps c numReady i
          exact Or.inr ⟨c, rfl, countAt_id .., fun k => (hkeeps _ k).1, fun k => (hkeeps _ k).2,
            fun k q' _ => iff_of_true (countFrom_pastLink ..) (Or.inl trivial), fun k q' _ =>
              iff_of_false (countFrom_not_pastUnlink _ _ _ _ k) fun h => h.elim id id⟩
      | @unlinks c numReady i q mq =>
          obtain rfl := Option.some.inj hc'
          exact Or.inr ⟨c, rfl, rfl, fun _ => rfl, fun _ => rfl,
            fun _ _ _ => iff_of_true trivial (Or.inl trivial), fun k q' hk => passes_node hk hp⟩
  | alloc hc =>
      cases pc <;> simp only [code, Instr.alloc.injEq, reduceCtorEq] at hc
      subst hc
      exact Or.inl ⟨_, rfl, rfl⟩
  | allocFails hc =>
      cases pc <;> simp only [code, Instr.alloc.injEq, reduceCtorEq] at hc
      subst hc
      cases hc'
  | goto hc =>
      cases pc <;> simp only [code, Instr.goto.injEq, reduceCtorEq] at hc
      subst hc
      cases hc'

/-- A call ends with its last unlock. -/
theorem leads_leaves {fresh : Nat} {pc next : Pc Q} {c : PollCall Q} (h : Leads code fresh pc next)
    (hc : pc.poll? = some c) (hn : next.poll? = none) :
    ∃ numReady, pc = .pollUnlockAgain c numReady ∧ next = .done numReady := by
  cases h with
  | lock hi =>
      cases pc <;> simp only [code, Instr.lock.injEq, reduceCtorEq] at hi <;>
        obtain ⟨rfl, rfl⟩ := hi <;> first | (cases hc; done) | cases hn | simp at hn
  | unlock hi =>
      cases pc <;> simp only [code, Instr.unlock.injEq, reduceCtorEq] at hi <;>
        obtain ⟨rfl, rfl⟩ := hi
      case pollUnlockAgain c' numReady =>
        obtain rfl := Option.some.inj hc
        exact ⟨numReady, rfl, rfl⟩
      all_goals first | (cases hc; done) | simp at hn
  | wait hi =>
      cases pc <;> simp only [code, Instr.wait.injEq, reduceCtorEq] at hi <;>
        obtain ⟨rfl, rfl, rfl⟩ := hi <;> first | (cases hc; done) | simp at hn
  | signal hi => cases pc <;> simp only [code, reduceCtorEq] at hi <;> cases hc
  | broadcast hi => cases pc <;> simp only [code, reduceCtorEq] at hi <;> cases hc
  | access hi hf =>
      cases code_accessed hi hf with
      | plain hp => cases pc <;> first | exact hp.elim | cases hc
      | produces hp => cases pc <;> first | exact hp.elim | cases hc
      | links => cases hn
      | unlinks => cases hn
      | counts => simp at hn
      | _ => cases hc
  | alloc hi =>
      cases pc <;> simp only [code, reduceCtorEq] at hi
      cases hc
  | allocFails hi =>
      cases pc <;> simp only [code, reduceCtorEq] at hi
      cases hc
  | goto hi =>
      cases pc <;> simp only [code, reduceCtorEq] at hi
      cases hc

/-- `helper_wakeup` comes to a node by reading it off the list. -/
theorem access_visits {pc next : Pc Q} {q : Q}
    {f : MqBackend Node → Except Fault (MqBackend Node × Pc Q)} {mq mq' : MqBackend Node}
    {w : Wakeup Q} {n : Node} (hc : code pc = .access q f) (hf : f mq = .ok (mq', next))
    (hv : next.visits? = some (w, n)) :
    pc.visits? = some (w, n) ∨ q = w.q ∧ n ∈ mq.queueListHead := by
  cases code_accessed hc hf with
  | plain hp hn => cases next <;> first | exact hn.elim | cases hv
  | produces => cases hv
  | @starts w' mq =>
      cases hhead : mq.queueListHead.head? with
      | none =>
          rw [hhead] at hv
          cases hv
      | some n' =>
          rw [hhead] at hv
          cases hv
          exact Or.inr ⟨rfl, List.mem_of_head? hhead⟩
  | tests =>
      split at hv <;> cases hv <;> exact Or.inl rfl
  | @nexts w' n' mq n₀ rest hdrop =>
      cases hhead : rest.head? with
      | none =>
          rw [hhead] at hv
          cases hv
      | some n'' =>
          rw [hhead] at hv
          cases hv
          have hsuffix := List.dropWhile_suffix (l := mq.queueListHead) (· != n')
          rw [hdrop] at hsuffix
          exact Or.inr ⟨rfl, hsuffix.subset (List.mem_cons_of_mem _ (List.mem_of_head? hhead))⟩
  | links => cases hv
  | counts => rw [visits_of_poll (countFrom_poll ..)] at hv; cases hv
  | unlinks => cases hv

theorem leads_visits {fresh : Nat} {pc next : Pc Q} {w : Wakeup Q} {n : Node}
    (h : Leads code fresh pc next) (hq : ∀ q f, code pc ≠ .access q f)
    (hv : next.visits? = some (w, n)) : pc.visits? = some (w, n) := by
  cases h with
  | lock hc =>
      cases pc <;> simp only [code, Instr.lock.injEq, reduceCtorEq] at hc <;>
        obtain ⟨rfl, rfl⟩ := hc <;> first | exact hv | cases hv | skip
      rw [visits_of_poll (registerFrom_poll ..)] at hv
      cases hv
  | unlock hc =>
      cases pc <;> simp only [code, Instr.unlock.injEq, reduceCtorEq] at hc <;>
        obtain ⟨rfl, rfl⟩ := hc <;> first | exact hv | cases hv | skip
      case pollLinked c i q =>
        rw [visits_of_poll (registerFrom_poll ..)] at hv
        cases hv
      all_goals
        rw [visits_of_poll (unregisterFrom_poll ..)] at hv
        cases hv
  | wait hc =>
      cases pc <;> simp only [code, Instr.wait.injEq, reduceCtorEq] at hc <;>
        obtain ⟨rfl, rfl, rfl⟩ := hc <;> first | cases hv | skip
      rw [visits_of_poll (countFrom_poll ..)] at hv
      cases hv
  | signal hc =>
      cases pc <;> simp only [code, Instr.signal.injEq, reduceCtorEq] at hc <;>
        obtain ⟨rfl, rfl⟩ := hc <;> first | exact hv | cases hv | (split at hv <;> cases hv)
  | broadcast hc =>
      cases pc <;> simp only [code, Instr.broadcast.injEq, reduceCtorEq] at hc <;>
        obtain ⟨rfl, rfl⟩ := hc <;> cases hv
  | access hc hf => exact absurd hc (hq _ _)
  | alloc hc =>
      cases pc <;> simp only [code, Instr.alloc.injEq, reduceCtorEq] at hc
      subst hc
      cases hv
  | allocFails hc =>
      cases pc <;> simp only [code, Instr.alloc.injEq, reduceCtorEq] at hc
      subst hc
      cases hv
  | goto hc =>
      cases pc <;> simp only [code, Instr.goto.injEq, reduceCtorEq] at hc
      subst hc
      cases hv

section Runs
variable {T : Type} [DecidableEq T] [DecidableEq Q]

/-- What a step does to the waiter lists. -/
inductive ListChange (s : System T Q) (l : Label T (Pc Q)) (s' : System T Q) : Prop
  | same (h : ∀ q, (s'.objects q).queueListHead = (s.objects q).queueListHead)
      (hq : ∀ t pc, l = .step t → s.threads t = .running pc →
        ∀ q n, ¬ pc.LinksNow q n ∧ ¬ pc.UnlinksNow q n) : ListChange s l s'
  | links {t c i q} (hl : l = .step t) (hpc : s.threads t = .running (.pollLink c i q))
      (hs : s' = (s.setObject q { s.objects q with
        queueListHead := (s.objects q).queueListHead ++ [nodeOf c i] }).goTo t
          (.pollLinked c i q)) : ListChange s l s'
  | unlinks {t c numReady i q} (hl : l = .step t)
      (hpc : s.threads t = .running (.pollUnlink c numReady i q))
      (hs : s' = (s.setObject q { s.objects q with
        queueListHead := (s.objects q).queueListHead.erase (nodeOf c i) }).goTo t
          (.pollUnlinked c numReady i q)) : ListChange s l s'

variable {s s₀ s' : System T Q} {l : Label T (Pc Q)}

theorem SysStep.listChange (h : SysStep s l s') : ListChange s l s' := by
  cases h.objectChange with
  | same hobjects hquiet =>
      refine .same (fun q => by rw [hobjects]) fun t pc hl hpc q n => ?_
      constructor
      · intro hn
        cases pc <;> first | exact hn.elim | exact hquiet t _ hl hpc _ _ rfl
      · intro hn
        cases pc <;> first | exact hn.elim | exact hquiet t _ hl hpc _ _ rfl
  | @access t pc r f b next hl hpc hc hf hs =>
      have same (hlist : b.queueListHead = (s.objects r).queueListHead)
          (hq : ∀ q n, ¬ pc.LinksNow q n ∧ ¬ pc.UnlinksNow q n) : ListChange s l s' := by
        refine .same (fun q => ?_) fun u pc' hl' hpc' => ?_
        · subst hs
          by_cases hq : q = r
          · subst hq
            simpa [State.setObject] using hlist
          · simp [State.setObject, Function.update_of_ne hq]
        · rw [hl] at hl'
          cases hl'
          rw [hpc] at hpc'
          cases hpc'
          exact hq
      cases code_accessed hc hf with
      | plain hp hn hlist =>
          exact same hlist fun q n => by
            cases pc <;> first | exact hp.elim | exact ⟨id, id⟩
      | produces hp hlist =>
          exact same hlist fun q n => by
            cases pc <;> first | exact hp.elim | exact ⟨id, id⟩
      | starts => exact same rfl fun _ _ => ⟨id, id⟩
      | tests => exact same rfl fun _ _ => ⟨id, id⟩
      | nexts => exact same rfl fun _ _ => ⟨id, id⟩
      | counts => exact same rfl fun _ _ => ⟨id, id⟩
      | links => exact .links hl hpc hs
      | unlinks => exact .unlinks hl hpc hs

/-- The poll call `c` of thread `t`, at its statement `pc`. -/
def PollAt (s : System T Q) (t : T) (pc : Pc Q) (c : PollCall Q) : Prop :=
  (s.threads t).point = some pc ∧ pc.poll? = some c

/-- How a thread comes to be in a poll call. -/
inductive PollStep (s : System T Q) (l : Label T (Pc Q)) (s' : System T Q) (t : T) (pc' : Pc Q)
    (c' : PollCall Q) : Prop
  | stays (h : PollAt s t pc' c') (hl : ∀ pc, s.threads t = .running pc → l = .step t →
      ∀ q n, ¬ pc.LinksNow q n ∧ ¬ pc.UnlinksNow q n) : PollStep s l s' t pc' c'
  | begins (hl : l = .step t) (hpc' : pc' = .pollLock c') (hid : c'.id = s.fresh)
      (hfresh : s'.fresh = s.fresh + 1) : PollStep s l s' t pc' c'
  | continues {pc c} (hl : l = .step t) (h : PollAt s t pc c)
      (hm : MovesFrom code s.fresh (s.threads t) pc pc') (hc : Continues pc pc' c c') :
      PollStep s l s' t pc' c'

theorem SysStep.poll (h : SysStep s l s')
    (hp : ∀ t pc, (s.threads t).point = some pc → pc.Placed) {t : T} {pc' : Pc Q}
    {c' : PollCall Q} (hc' : PollAt s' t pc' c') : PollStep s l s' t pc' c' := by
  obtain ⟨hpoint, hpoll⟩ := hc'
  have point_of {th : Thread (Pc Q)} {p : Pc Q} (hth : s'.threads t = th)
      (hp : th.point = some p) : pc' = p := by
    rw [hth, hp] at hpoint
    exact (Option.some.inj hpoint).symm
  cases h.threadChange t with
  | same hl he =>
      rw [he] at hpoint
      exact .stays ⟨hpoint, hpoll⟩ fun pc hpc hstep => absurd hstep hl
  | wakes hold hnew =>
      obtain rfl := point_of hnew rfl
      refine .stays ⟨by rw [hold]; rfl, hpoll⟩ fun pc hpc => ?_
      rw [hold] at hpc
      cases hpc
  | start hl he hidle hnew =>
      obtain rfl := point_of hnew rfl
      rw [entry_poll he] at hpoll
      cases hpoll
  | @moves pc next hl hm hnew =>
      obtain rfl := point_of hnew rfl
      rcases leads_poll hm.leads (hp t pc hm.point) hpoll with ⟨fds, rfl, rfl⟩ | ⟨c, hc, hcont⟩
      · subst hl
        cases hm with
        | running hpc hn =>
            rcases h.executes hpc with hs | hs
            · cases hpoll
              exact .begins rfl rfl rfl (by rw [hs]; rfl)
            · rw [hs, State.goTo_self] at hnew
              cases hnew
        | woken hpc hc => cases hc
      · exact .continues hl ⟨hm.point, hc⟩ hm hcont
  | waits hl hold hc hnew =>
      obtain rfl := point_of hnew rfl
      refine .stays ⟨by rw [hold]; rfl, hpoll⟩ fun pc hpc _ => ?_
      rw [hold] at hpc
      cases hpc
      exact fun q n => by cases pc' <;> first | exact ⟨id, id⟩ | cases hc
  | stop hl hold hc hnew =>
      rw [hnew] at hpoint
      cases hpoint

/-- Thread `t` is in the poll call of the node `n`, which is linked at `q`. -/
def Links (s : System T Q) (t : T) (q : Q) (n : Node) : Prop :=
  ∃ pc c, PollAt s t pc c ∧ queueAt c.fds n.index = some q ∧ nodeOf c n.index = n ∧
    pc.PastLink n.index ∧ ¬ pc.PastUnlink n.index

theorem SysStep.links_iff (h : SysStep s l s')
    (hp : ∀ t pc, (s.threads t).point = some pc → pc.Placed) {t : T} {q : Q} {n : Node} :
    Links s' t q n ↔
      (Links s t q n ∨ ∃ pc, l = .step t ∧ s.threads t = .running pc ∧ pc.LinksNow q n) ∧
        ¬ ∃ pc, l = .step t ∧ s.threads t = .running pc ∧ pc.UnlinksNow q n := by
  constructor
  · rintro ⟨pc', c', hpoll, hq, hnode, hpast, hnot⟩
    cases h.poll hp hpoll with
    | stays hold hquiet =>
        refine ⟨Or.inl ⟨pc', c', hold, hq, hnode, hpast, hnot⟩, ?_⟩
        rintro ⟨pc, hl, hpc, hu⟩
        exact (hquiet pc hpc hl q n).2 hu
    | begins hl hpc' hid hfresh =>
        subst hpc'
        exact hpast.elim
    | @continues pc c hl hold hm hc =>
        rw [hc.queues] at hq
        rw [hc.nodes] at hnode
        rw [hc.linked _ _ hq, hnode] at hpast
        rw [hc.unlinked _ _ hq, hnode, not_or] at hnot
        constructor
        · rcases hpast with hpast | hnow
          · exact Or.inl ⟨pc, c, hold, hq, hnode, hpast, hnot.1⟩
          · refine Or.inr ⟨pc, hl, ?_, hnow⟩
            cases hm with
            | running hpc hn => exact hpc
            | woken hpc hcode => cases pc <;> first | exact hnow.elim | cases hcode
        · rintro ⟨pc₁, -, hpc₁, hu⟩
          have := hold.1
          rw [hpc₁] at this
          cases this
          exact hnot.2 hu
  · rintro ⟨hlinks, hnot⟩
    -- The call is at a statement `pc` from which its node is, or comes to be, linked.
    obtain ⟨pc, c, ⟨hpoint, hpoll⟩, hq, hnode, hpast, hbefore⟩ : ∃ pc c, PollAt s t pc c ∧
        queueAt c.fds n.index = some q ∧ nodeOf c n.index = n ∧
        (pc.PastLink n.index ∨ s.threads t = .running pc ∧ l = .step t ∧ pc.LinksNow q n) ∧
        ¬ pc.PastUnlink n.index := by
      rcases hlinks with ⟨pc, c, hpoll, hq, hnode, hpast, hbefore⟩ | ⟨pc, hl, hpc, hnow⟩
      · exact ⟨pc, c, hpoll, hq, hnode, Or.inl hpast, hbefore⟩
      · have hplaced := hp t pc (by rw [hpc]; rfl)
        cases pc with
        | pollLink c i q' =>
            obtain ⟨rfl, rfl⟩ := hnow
            exact ⟨_, c, ⟨by rw [hpc]; rfl, rfl⟩, hplaced, rfl, Or.inr ⟨hpc, hl, rfl, rfl⟩, id⟩
        | _ => exact hnow.elim
    have at_pc {th : Thread (Pc Q)} {p : Pc Q} (hth : s.threads t = th) (hp : th.point = some p) :
        pc = p := by
      rw [hth, hp] at hpoint
      exact (Option.some.inj hpoint).symm
    cases h.threadChange t with
    | same hl he =>
        have hpast := hpast.resolve_right fun hr => hl hr.2.1
        exact ⟨pc, c, ⟨by rw [he, hpoint], hpoll⟩, hq, hnode, hpast, hbefore⟩
    | wakes hold hnew =>
        obtain rfl := at_pc hold rfl
        have hpast := hpast.resolve_right fun hr => by
          rw [hold] at hr
          cases hr.1
        exact ⟨pc, c, ⟨by rw [hnew]; rfl, hpoll⟩, hq, hnode, hpast, hbefore⟩
    | start hl he hidle hnew =>
        rw [hidle] at hpoint
        cases hpoint
    | @moves pc₀ next hl hm hnew =>
        obtain rfl : pc = pc₀ := by
          rw [hm.point] at hpoint
          exact (Option.some.inj hpoint).symm
        cases hnext : next.poll? with
        | none =>
            obtain ⟨numReady, rfl, -⟩ := leads_leaves hm.leads hpoll hnext
            exact absurd trivial hbefore
        | some c' =>
            rcases leads_poll hm.leads (hp t pc hpoint) hnext with ⟨fds, rfl, -⟩ | ⟨c₁, hc₁, hc⟩
            · cases hpoll
            rw [hpoll] at hc₁
            obtain rfl := Option.some.inj hc₁
            refine ⟨next, c', ⟨by rw [hnew]; rfl, hnext⟩, by rw [hc.queues, hq],
              by rw [hc.nodes, hnode], ?_, ?_⟩
            · rw [hc.linked _ _ hq, hnode]
              exact hpast.imp_right fun hr => hr.2.2
            · rw [hc.unlinked _ _ hq, hnode, not_or]
              refine ⟨hbefore, fun hu => hnot ⟨pc, hl, ?_, hu⟩⟩
              cases hm with
              | running hpc hn => exact hpc
              | woken hpc hcode => cases pc <;> first | exact hu.elim | cases hcode
    | waits hl hold hcode hnew =>
        obtain rfl := at_pc hold rfl
        have hpast := hpast.resolve_right fun hr => by
          cases pc <;> first | exact hr.2.2.elim | cases hcode
        exact ⟨pc, c, ⟨by rw [hnew]; rfl, hpoll⟩, hq, hnode, hpast, hbefore⟩
    | stop hl hold hcode hnew =>
        obtain rfl := at_pc hold rfl
        cases pc <;> first | (cases hpoll; done) | cases hcode

/-- Every poll call in progress with the identifier of `n` has entry `n.index` on `q`,
and its registration is past it. -/
structure Known (s : System T Q) (q : Q) (n : Node) : Prop where
  fresh : n.poll < s.fresh
  call : ∀ t pc c, PollAt s t pc c → c.id = n.poll →
    queueAt c.fds n.index = some q ∧ pc.PastLink n.index

/-- The invariant of the waiter lists. -/
structure Registered (s : System T Q) : Prop where
  placed : ∀ t pc, (s.threads t).point = some pc → pc.Placed
  ids : ∀ t pc c, PollAt s t pc c → c.id < s.fresh
  unique : ∀ t u pc pc' c c', PollAt s t pc c → PollAt s u pc' c' → c.id = c'.id → t = u
  linked : ∀ q n, n ∈ (s.objects q).queueListHead ↔ ∃ t, Links s t q n
  nodup : ∀ q, (s.objects q).queueListHead.Nodup
  visited : ∀ t pc w n, (s.threads t).point = some pc → pc.visits? = some (w, n) →
    Known s w.q n

omit [DecidableEq T] [DecidableEq Q] [Build] in
theorem PollAt.eq {t : T} {pc pc' : Pc Q} {c c' : PollCall Q} (h : PollAt s t pc c)
    (h' : PollAt s t pc' c') : pc = pc' ∧ c = c' := by
  have hpc := h.1
  rw [h'.1, Option.some.injEq] at hpc
  subst hpc
  exact ⟨rfl, Option.some.inj (h.2.symm.trans h'.2)⟩

omit [DecidableEq T] [DecidableEq Q] [Build] in
theorem Quiescent.registered (h : Quiescent s) : Registered s where
  placed t pc hpc := absurd hpc h.no_point
  ids t pc c hc := absurd hc.1 h.no_point
  unique t u pc pc' c c' hc := absurd hc.1 h.no_point
  linked q n := by
    rw [h.unlinked]
    refine iff_of_false List.not_mem_nil ?_
    rintro ⟨t, pc, c, hc, -⟩
    exact h.no_point hc.1
  nodup q := by
    rw [h.unlinked]
    exact List.nodup_nil
  visited t pc w n hpc := absurd hpc h.no_point

omit [DecidableEq T] [DecidableEq Q] [Build] in
/-- A linked node has one call. -/
theorem Registered.known (hr : Registered s) {q : Q} {n : Node}
    (hn : n ∈ (s.objects q).queueListHead) : Known s q n := by
  obtain ⟨t, pc, c, hc, hq, hnode, hpast, -⟩ := (hr.linked q n).mp hn
  have hid : n.poll = c.id := by rw [← hnode, nodeOf_poll]
  refine ⟨hid ▸ hr.ids t pc c hc, fun u pc' c' hc' hid' => ?_⟩
  obtain rfl := hr.unique u t pc' pc c' c hc' hc (hid'.trans hid)
  obtain ⟨rfl, rfl⟩ := hc.eq hc'
  exact ⟨hq, hpast⟩

theorem Known.step {q : Q} {n : Node} (hk : Known s q n)
    (hp : ∀ t pc, (s.threads t).point = some pc → pc.Placed) (h : SysStep s l s') :
    Known s' q n where
  fresh := hk.fresh.trans_le h.fresh_le
  call t pc c hc hid := by
    cases h.poll hp hc with
    | stays hold hquiet => exact hk.call t pc c hold hid
    | begins hl hpc hfresh hnext =>
        have := hk.fresh
        omega
    | continues hl hold hm hcont =>
        obtain ⟨hq, hpast⟩ := hk.call _ _ _ hold (hcont.id.symm.trans hid)
        exact ⟨by rw [hcont.queues, hq], (hcont.linked _ _ hq).mpr (Or.inl hpast)⟩

/-- `helper_wakeup` comes to a node by reading it off the list. -/
theorem SysStep.visits (h : SysStep s l s') {t : T} {pc : Pc Q} {w : Wakeup Q} {n : Node}
    (hpc : (s'.threads t).point = some pc) (hv : pc.visits? = some (w, n)) :
    (∃ pc₀, (s.threads t).point = some pc₀ ∧ pc₀.visits? = some (w, n)) ∨
      n ∈ (s.objects w.q).queueListHead := by
  have point_of {th : Thread (Pc Q)} {p : Pc Q} (hth : s'.threads t = th)
      (hp : th.point = some p) : pc = p := by
    rw [hth, hp] at hpc
    exact (Option.some.inj hpc).symm
  cases h.threadChange t with
  | same hl he =>
      rw [he] at hpc
      exact Or.inl ⟨pc, hpc, hv⟩
  | wakes hold hnew =>
      obtain rfl := point_of hnew rfl
      exact Or.inl ⟨pc, by rw [hold]; rfl, hv⟩
  | start hl he hidle hnew =>
      obtain rfl := point_of hnew rfl
      rw [entry_visits he] at hv
      cases hv
  | @moves pc₀ next hl hm hnew =>
      obtain rfl := point_of hnew rfl
      subst hl
      cases h.objectChange with
      | same hobjects hquiet =>
          refine Or.inl ⟨pc₀, hm.point, leads_visits hm.leads (fun q f hc => ?_) hv⟩
          cases hm with
          | running hpc₀ hn => exact hquiet t pc₀ rfl hpc₀ q f hc
          | woken hpc₀ hwait =>
              rw [hc] at hwait
              cases hwait
      | access hl hpc₀ hc hf hs =>
          cases hl
          have hpoint := hm.point
          rw [hpc₀] at hpoint
          cases hpoint
          rw [hs, State.goTo_self] at hnew
          cases hnew
          rcases access_visits hc hf hv with hv₀ | ⟨rfl, hmem⟩
          · exact Or.inl ⟨pc₀, hm.point, hv₀⟩
          · exact Or.inr hmem
  | waits hl hold hc hnew =>
      obtain rfl := point_of hnew rfl
      exact Or.inl ⟨pc, by rw [hold]; rfl, hv⟩
  | stop hl hold hc hnew =>
      rw [hnew] at hpc
      cases hpc

omit [DecidableEq T] [DecidableEq Q] in
/-- A call in progress was so before the step, or has got the fresh identifier. -/
theorem PollStep.origin {t : T} {pc : Pc Q} {c : PollCall Q} (h : PollStep s l s' t pc c) :
    (∃ pc₀ c₀, PollAt s t pc₀ c₀ ∧ c.id = c₀.id) ∨ l = .step t ∧ c.id = s.fresh := by
  cases h with
  | stays hold hquiet => exact Or.inl ⟨pc, c, hold, rfl⟩
  | begins hl hpc hid hfresh => exact Or.inr ⟨hl, hid⟩
  | continues hl hold hm hc => exact Or.inl ⟨_, _, hold, hc.id⟩

omit [DecidableEq T] [DecidableEq Q] [Build] in
theorem stepper_eq {t u : T} {pc pc' : Pc Q} (hl : l = .step t) (hpc : s.threads t = .running pc)
    (hl' : l = .step u) (hpc' : s.threads u = .running pc') : u = t ∧ pc' = pc := by
  rw [hl, Label.step.injEq] at hl'
  subst hl'
  rw [hpc, Thread.running.injEq] at hpc'
  exact ⟨rfl, hpc'.symm⟩

theorem Registered.step (hr : Registered s) (h : SysStep s l s') : Registered s' where
  placed := placed_step hr.placed h
  ids t pc c hc := by
    cases h.poll hr.placed hc with
    | stays hold hquiet => exact (hr.ids t pc c hold).trans_le h.fresh_le
    | begins hl hpc hid hfresh => omega
    | continues hl hold hm hcont => exact hcont.id ▸ (hr.ids _ _ _ hold).trans_le h.fresh_le
  unique t u pc pc' c c' hc hc' hid := by
    rcases (h.poll hr.placed hc).origin with ⟨pc₁, c₁, h₁, hid₁⟩ | ⟨hl, hid₁⟩ <;>
      rcases (h.poll hr.placed hc').origin with ⟨pc₂, c₂, h₂, hid₂⟩ | ⟨hl', hid₂⟩
    · exact hr.unique t u pc₁ pc₂ c₁ c₂ h₁ h₂ (by omega)
    · have := hr.ids t pc₁ c₁ h₁
      omega
    · have := hr.ids u pc₂ c₂ h₂
      omega
    · exact Label.step.inj (hl.symm.trans hl')
  linked q n := by
    cases h.listChange with
    | same hlist hquiet =>
        rw [hlist, hr.linked]
        refine exists_congr fun t => ?_
        rw [h.links_iff hr.placed]
        constructor
        · exact fun hn => ⟨Or.inl hn, fun ⟨pc, hl, hpc, hu⟩ => (hquiet t pc hl hpc q n).2 hu⟩
        · exact fun hn => hn.1.resolve_right fun ⟨pc, hl, hpc, hu⟩ => (hquiet t pc hl hpc q n).1 hu
    | @links v c i q₀ hl hpc hs =>
        have hmem : n ∈ (s'.objects q).queueListHead ↔
            n ∈ (s.objects q).queueListHead ∨ (Pc.pollLink c i q₀).LinksNow q n := by
          subst hs
          by_cases hq : q = q₀
          · subst hq
            simp [State.setObject, Pc.LinksNow, eq_comm]
          · simp [State.setObject, Function.update_of_ne hq, Pc.LinksNow, Ne.symm hq]
        rw [hmem, hr.linked]
        constructor
        · rintro (⟨t, ht⟩ | hnow)
          · refine ⟨t, (h.links_iff hr.placed).mpr ⟨Or.inl ht, ?_⟩⟩
            rintro ⟨pc, hl', hpc', hu⟩
            obtain ⟨-, rfl⟩ := stepper_eq hl hpc hl' hpc'
            exact hu
          · refine ⟨v, (h.links_iff hr.placed).mpr ⟨Or.inr ⟨_, hl, hpc, hnow⟩, ?_⟩⟩
            rintro ⟨pc, hl', hpc', hu⟩
            obtain ⟨-, rfl⟩ := stepper_eq hl hpc hl' hpc'
            exact hu
        · rintro ⟨t, ht⟩
          obtain ⟨hold | ⟨pc, hl', hpc', hnow⟩, -⟩ := (h.links_iff hr.placed).mp ht
          · exact Or.inl ⟨t, hold⟩
          · obtain ⟨-, rfl⟩ := stepper_eq hl hpc hl' hpc'
            exact Or.inr hnow
    | @unlinks v c numReady i q₀ hl hpc hs =>
        have hmem : n ∈ (s'.objects q).queueListHead ↔ n ∈ (s.objects q).queueListHead ∧
            ¬ (Pc.pollUnlink c numReady i q₀).UnlinksNow q n := by
          subst hs
          by_cases hq : q = q₀
          · subst hq
            simp [State.setObject, Pc.UnlinksNow, (hr.nodup q).mem_erase_iff, and_comm, eq_comm]
          · simp [State.setObject, Function.update_of_ne hq, Pc.UnlinksNow, Ne.symm hq]
        rw [hmem, hr.linked]
        constructor
        · rintro ⟨⟨t, ht⟩, hnot⟩
          refine ⟨t, (h.links_iff hr.placed).mpr ⟨Or.inl ht, ?_⟩⟩
          rintro ⟨pc, hl', hpc', hu⟩
          obtain ⟨-, rfl⟩ := stepper_eq hl hpc hl' hpc'
          exact hnot hu
        · rintro ⟨t, ht⟩
          obtain ⟨hold, hnot⟩ := (h.links_iff hr.placed).mp ht
          have hold : Links s t q n := hold.resolve_right fun ⟨pc, hl', hpc', hnow⟩ => by
            obtain ⟨-, rfl⟩ := stepper_eq hl hpc hl' hpc'
            exact hnow
          refine ⟨⟨t, hold⟩, fun hu => ?_⟩
          -- The node is of the call that unlinks it, so `t` is the thread that steps.
          obtain ⟨pc, c', hpoll, -, hnode, -⟩ := hold
          have hid : c'.id = c.id := by rw [← nodeOf_poll c' n.index, hnode, ← hu.2, nodeOf_poll]
          obtain rfl := hr.unique t v _ _ c' c hpoll ⟨by rw [hpc]; rfl, rfl⟩ hid
          exact hnot ⟨_, hl, hpc, hu⟩
  nodup q := by
    cases h.listChange with
    | same hlist hquiet =>
        rw [hlist]
        exact hr.nodup q
    | @links v c i q₀ hl hpc hs =>
        subst hs
        by_cases hq : q = q₀
        · subst hq
          have hnew : nodeOf c i ∉ (s.objects q).queueListHead := fun hmem => by
            have hpoll : PollAt s v (.pollLink c i q) c := ⟨by rw [hpc]; rfl, rfl⟩
            exact Nat.lt_irrefl i ((hr.known hmem).call v _ c hpoll rfl).2
          have hsingle : [nodeOf c i].Nodup := List.nodup_singleton _
          simpa [State.setObject] using
            (hr.nodup q).append hsingle (List.disjoint_singleton.mpr hnew)
        · simpa [State.setObject, Function.update_of_ne hq] using hr.nodup q
    | @unlinks v c numReady i q₀ hl hpc hs =>
        subst hs
        by_cases hq : q = q₀
        · subst hq
          simpa [State.setObject] using (hr.nodup q).erase _
        · simpa [State.setObject, Function.update_of_ne hq] using hr.nodup q
  visited t pc w n hpc hv := by
    rcases h.visits hpc hv with ⟨pc₀, hpc₀, hv₀⟩ | hmem
    · exact (hr.visited t pc₀ w n hpc₀ hv₀).step hr.placed h
    · exact (hr.known hmem).step hr.placed h

end Runs

end UoftOs.MsgQueue
