import UoftOs.MsgQueue.Registration

/-!
# Cycles of waiting threads

Only two kinds of threads wait for a mutex while they hold one: `helper_wakeup`
at a node, and a poll call that registers a later entry. A cycle of such threads
is a cycle of queues in the arrays of the calls that register, so there is none
while these arrays agree on an order of the queues.
-/

namespace UoftOs.MsgQueue

open Lib.Threads Lib.Transition Relation

variable {Q : Type}

/-- The poll call of a statement between its first lock and its first `helper_count`. -/
def Pc.registering? : Pc Q → Option (PollCall Q)
  | .pollLock c => some c
  | .pollRegister c _ _ => some c
  | .pollLink c _ _ => some c
  | .pollLinked c _ _ => some c
  | _ => none

variable [Build] {T : Type} [DecidableEq T] [DecidableEq Q] {s s₀ : System T Q}

/-- Some call that is registering has `q` in its first entry and `q'` in a later one. -/
def Nested (s : System T Q) (q q' : Q) : Prop :=
  ∃ t pc c i, (s.threads t).point = some pc ∧ pc.registering? = some c ∧ 0 < i ∧
    queueAt c.fds 0 = some q ∧ queueAt c.fds i = some q'

omit [DecidableEq T] [DecidableEq Q] in
/-- The threads that hold a mutex and wait for another one. -/
theorem blocked_holder (ho : OwnersHold code holds s) {t : T} {m m' : Mutex Q}
    (hneeds : Needs code s t m) (howns : s.owner m' = some t) :
    (∃ w n, s.threads t = .running (.wakeLock w n) ∧ m = .poll n.poll n.index ∧
      m' = .queue w.q) ∨
    ∃ c i q, s.threads t = .running (.pollRegister c i q) ∧ m = .queue q ∧ m' = .poll c.id 0 := by
  have hheld := ho m' t howns
  rcases hneeds with ⟨pc, next, hpc, hc⟩ | ⟨pc, c, next, hpc, hc⟩
  · rw [hpc] at hheld
    have hmem : m' ∈ locksAt pc := hheld
    cases pc <;> simp only [code, Instr.lock.injEq, reduceCtorEq] at hc <;>
      obtain ⟨rfl, rfl⟩ := hc
    case wakeLock w n =>
      have hlocks : m' ∈ w.locks := hmem
      unfold Wakeup.locks at hlocks
      split at hlocks
      · cases hlocks
      · exact Or.inl ⟨w, n, hpc, rfl, List.mem_singleton.mp hlocks⟩
    case pollRegister c i q => exact Or.inr ⟨c, i, q, hpc, rfl, List.mem_singleton.mp hmem⟩
    all_goals cases hmem
  · rw [hpc] at hheld
    obtain ⟨hmem, hne⟩ := hheld
    refine absurd ?_ (hne _ _ _ hc)
    cases pc <;> simp only [code, Instr.wait.injEq, reduceCtorEq] at hc <;>
      obtain ⟨rfl, rfl, rfl⟩ := hc <;> exact List.mem_singleton.mp hmem

section Edges
variable (ho : OwnersHold code holds s) (hr : Registered s) {t u : T} {m : Mutex Q}
include ho

omit [DecidableEq T] [DecidableEq Q] in
/-- A call that waits to register on `q` waits for `helper_wakeup` on `q`. -/
theorem waitsFor_of_register {c : PollCall Q} {i : Nat} {q : Q}
    (ht : s.threads t = .running (.pollRegister c i q)) (h : WaitsFor code s t u)
    (hu : Needs code s u m) : ∃ w n, s.threads u = .running (.wakeLock w n) ∧ w.q = q := by
  obtain ⟨m', hneeds, howns⟩ := h
  obtain rfl : m' = .queue q := by
    rcases hneeds with ⟨pc, next, hpc, hc⟩ | ⟨pc, cv, next, hpc, hc⟩
    · rw [ht] at hpc
      cases hpc
      cases hc
      rfl
    · rw [ht] at hpc
      cases hpc
  rcases blocked_holder ho hu howns with ⟨w, n, hw, -, heq⟩ | ⟨c', i', q', -, -, heq⟩
  · exact ⟨w, n, hw, (Mutex.queue.inj heq).symm⟩
  · cases heq

include hr

omit [DecidableEq T] [DecidableEq Q] in
/-- `helper_wakeup` at a node waits for its call while it registers a later entry. -/
theorem waitsFor_of_wakeLock {w : Wakeup Q} {n : Node}
    (ht : s.threads t = .running (.wakeLock w n)) (h : WaitsFor code s t u)
    (hu : Needs code s u m) :
    ∃ c i q, s.threads u = .running (.pollRegister c i q) ∧ Nested s w.q q := by
  obtain ⟨m', hneeds, howns⟩ := h
  obtain rfl : m' = .poll n.poll n.index := by
    rcases hneeds with ⟨pc, next, hpc, hc⟩ | ⟨pc, cv, next, hpc, hc⟩
    · rw [ht] at hpc
      cases hpc
      cases hc
      rfl
    · rw [ht] at hpc
      cases hpc
  rcases blocked_holder ho hu howns with ⟨w', n', -, -, heq⟩ | ⟨c, i, q, hpoll, -, heq⟩
  · cases heq
  · obtain ⟨hid, hindex⟩ := Mutex.poll.inj heq
    have hpoint : (s.threads u).point = some (.pollRegister c i q) := by rw [hpoll]; rfl
    have hvisit := hr.visited t _ w n (by rw [ht]; rfl) rfl
    obtain ⟨hfirst, hpast⟩ := hvisit.call u _ c ⟨hpoint, rfl⟩ hid.symm
    rw [hindex] at hfirst hpast
    exact ⟨c, i, q, hpoll, u, _, c, i, hpoint, rfl, hpast, hfirst, hr.placed u _ hpoint⟩

omit [DecidableEq T] [DecidableEq Q] in
/-- A chain of waiting threads is a chain of queues. -/
theorem nested_of_chain {w : Wakeup Q} {n : Node} (ht : s.threads t = .running (.wakeLock w n))
    (h : TransGen (WaitsFor code s) t u) (hu : Needs code s u m) :
    ∃ q, TransGen (Nested s) w.q q ∧
      ((∃ w' n', s.threads u = .running (.wakeLock w' n') ∧ w'.q = q) ∨
        ∃ c i, s.threads u = .running (.pollRegister c i q)) := by
  induction h generalizing m with
  | single h =>
      obtain ⟨c, i, q, hpoll, hnested⟩ := waitsFor_of_wakeLock ho hr ht h hu
      exact ⟨q, .single hnested, Or.inr ⟨c, i, hpoll⟩⟩
  | tail hchain h ih =>
      obtain ⟨m', hneeds, -⟩ := id h
      obtain ⟨q, hq, ⟨w', n', hw, rfl⟩ | ⟨c, i, hpoll⟩⟩ := ih hneeds
      · obtain ⟨c, i, q', hpoll, hnested⟩ := waitsFor_of_wakeLock ho hr hw h hu
        exact ⟨q', hq.tail hnested, Or.inr ⟨c, i, hpoll⟩⟩
      · obtain ⟨w', n', hw, rfl⟩ := waitsFor_of_register ho hpoll h hu
        exact ⟨w'.q, hq, Or.inl ⟨w', n', hw, rfl⟩⟩

omit [DecidableEq T] [DecidableEq Q] in
theorem nested_of_cycle {w : Wakeup Q} {n : Node} (ht : s.threads t = .running (.wakeLock w n))
    (h : TransGen (WaitsFor code s) t t) : TransGen (Nested s) w.q w.q := by
  obtain ⟨v, ⟨m, hneeds, -⟩, -⟩ := TransGen.head'_iff.mp h
  obtain ⟨q, hq, ⟨w', n', hw, rfl⟩ | ⟨c, i, hpoll⟩⟩ := nested_of_chain ho hr ht h hneeds
  · rw [ht] at hw
    cases hw
    exact hq
  · rw [ht] at hpoll
    cases hpoll

end Edges

/-- In every run, a state in which the arrays of the registering calls order the queues
has no cycle of threads that wait for one another. -/
theorem no_deadlock_of_acyclic (h₀ : Quiescent s₀) {ls : List (Label T (Pc Q))}
    (run : Run SysStep s₀ ls s) (hacyclic : ∀ q, ¬ TransGen (Nested s) q q) (t : T) :
    ¬ TransGen (WaitsFor code s) t t := by
  intro hcycle
  have ho : OwnersHold code holds s :=
    run.state_invariant h₀.owners fun _ _ _ ho h => ho.step code_typed h
  have hr : Registered s := run.state_invariant h₀.registered fun _ _ _ hr h => hr.step h
  obtain ⟨u, hfirst, hrest⟩ := TransGen.head'_iff.mp hcycle
  obtain ⟨v, -, hlast⟩ := TransGen.tail'_iff.mp hcycle
  obtain ⟨m, hneeds, -⟩ := id hfirst
  obtain ⟨m', -, howns⟩ := hlast
  rcases blocked_holder ho hneeds howns with ⟨w, n, hw, -⟩ | ⟨c, i, q, hpoll, -⟩
  · exact hacyclic _ (nested_of_cycle ho hr hw hcycle)
  · -- The cycle also goes through the thread that the registering call waits for.
    have hrotated : TransGen (WaitsFor code s) u u := TransGen.tail' hrest hfirst
    obtain ⟨_, ⟨m'', hneeds', -⟩, -⟩ := TransGen.head'_iff.mp hrotated
    obtain ⟨w, n, hw, -⟩ := waitsFor_of_register ho hpoll hfirst hneeds'
    exact hacyclic _ (nested_of_cycle ho hr hw hrotated)

section Traces

/-- An empty queue whose writers have all closed their handles. -/
private def writersGone : System Bool Unit where
  owner _ := none
  threads _ := .idle
  objects _ := ⟨⟨List.replicate 9 0xDD, 9, 0, 0, false⟩, 1, 1, 0, false, true, 9, []⟩
  fresh := 0

omit [Build] in
private theorem writersGone_quiescent : Quiescent writersGone :=
  ⟨fun _ => rfl, fun _ => rfl, fun _ => rfl⟩

/-- An entry that asks whether the queue is readable. -/
private def readable : PollFd Unit := ⟨some ((), 1), 1, 0⟩

omit [Build] in
/-- A poll is about to register and waits for a read, which waits for nobody. -/
theorem no_deadlock_of_acyclic_one :
    letI : Build := ⟨false⟩
    ∃ s : System Bool Unit, s.threads false = .running (.pollRegister ⟨0, [readable]⟩ 0 ()) ∧
      WaitsFor code s false true ∧ ∀ t, ¬ TransGen (WaitsFor code s) t t := by
  let _ : Build := ⟨false⟩
  have start : Run SysStep writersGone [] writersGone := .nil
  have polls := ((start.snoc
    (.start (t := false) rfl ⟨.poll [readable], rfl⟩)).snoc
    (.alloc (t := false) rfl rfl)).snoc
    (.lock (t := false) rfl rfl rfl)
  have run := (polls.snoc
    (.start (t := true) rfl ⟨.read () 1 8 0, rfl⟩)).snoc
    (.lock (t := true) rfl rfl rfl)
  refine ⟨_, rfl, ⟨.queue (), Or.inl ⟨_, _, rfl, rfl⟩, rfl⟩,
    no_deadlock_of_acyclic writersGone_quiescent run fun q hcycle => ?_⟩
  obtain ⟨_, ⟨t, pc, c, i, hpoint, hc, hi, -, hq⟩, -⟩ := TransGen.head'_iff.mp hcycle
  cases t with
  | true =>
      cases hpoint
      cases hc
  | false =>
      cases hpoint
      cases hc
      cases i with
      | zero => exact Nat.lt_irrefl 0 hi
      | succ i => cases hq

omit [Build] in
/-- A poll names the queue twice. It has registered the first entry and waits for the
queue's mutex again, which a read holds that waits for the poll in `helper_wakeup`. -/
theorem poll_and_read_deadlock :
    letI : Build := ⟨false⟩
    ∃ (s₀ s : System Bool Unit) (ls : List (Label Bool (Pc Unit))), Quiescent s₀ ∧
      Run SysStep s₀ ls s ∧ ∃ t, TransGen (WaitsFor code s) t t := by
  let _ : Build := ⟨false⟩
  have start : Run SysStep writersGone [] writersGone := .nil
  have registered := (((((start.snoc
    (.start (t := false) rfl ⟨.poll [readable, readable], rfl⟩)).snoc
    (.alloc (t := false) rfl rfl)).snoc
    (.lock (t := false) rfl rfl rfl)).snoc
    (.lock (t := false) rfl rfl rfl)).snoc
    (.access (t := false) rfl rfl rfl)).snoc
    (.unlock (t := false) rfl rfl)
  have run := ((((registered.snoc
    (.start (t := true) rfl ⟨.read () 1 8 0, rfl⟩)).snoc
    (.lock (t := true) rfl rfl rfl)).snoc
    (.access (t := true) rfl rfl rfl)).snoc
    (.access (t := true) rfl rfl rfl)).snoc
    (.access (t := true) rfl rfl rfl)
  refine ⟨writersGone, _, _, writersGone_quiescent, run, false, ?_⟩
  refine .tail (.single (b := true) ⟨.queue (), Or.inl ⟨_, _, rfl, rfl⟩, rfl⟩) ?_
  exact ⟨.poll 0 0, Or.inl ⟨_, _, rfl, rfl⟩, rfl⟩

end Traces

end UoftOs.MsgQueue
