import Mathlib.Data.Fintype.Basic
import Mathlib.Tactic.FinCases
import UoftOs.MsgQueue.ListRefinement

/-!
# No waiter is left behind

The pointers of the waiter lists, store by store, in runs of any number of polls with reads,
writes, opens and closes. As long as no read unlocks early, they show at each point of a run
the nodes of the calls in progress, in the order of registration, so no list has a node of a
call that has freed its array. A read that unlocks early frees the mutex under which another
thread stores pointers, and a node gets lost.
-/

namespace UoftOs.MsgQueue

open Lib.Rings Lib.Threads Lib.Transition

section Runs
variable {T Q : Type} [DecidableEq T] [DecidableEq Q] [Build]

/-- A step of the system with the registrations so far. -/
def ListRegistering (p : ListSystem T Q × List (Q × Node)) (l : Label T (ListPc Q))
    (p' : ListSystem T Q × List (Q × Node)) : Prop :=
  ListStep p.1 l p'.1 ∧ p'.2 = p.2 ++ (listRegistration p.1 l).toList

/-- The step is the unlock in the size check of a read, whose buffer is too short. -/
def ListUnlocksEarly (s : ListSystem T Q) : Label T (ListPc Q) → Prop
  | .step t => ∃ c, s.threads t = .running (.stmt (.readTooSmall c))
  | _ => False

/-- No call is in progress; the lists have just been initialized. -/
structure ListQuiescent (s : ListSystem T Q) : Prop where
  free : ∀ m, s.owner m = none
  idle : ∀ t, s.threads t = .idle
  empty : ∀ q, (s.objects q).entries .head = ⟨.head, .head⟩

/-- The waiter lists that the pointers show have no dangling node, when `log` has been
registered. -/
def PointersSound (s : ListSystem T Q) (log : List (Q × Node)) : Prop :=
  ∃ c : System T Q, Shows s c ∧ NoDangling c log

variable {s s₀ s' : ListSystem T Q} {c : System T Q} {l : Label T (ListPc Q)}
  {log : List (Q × Node)}

/-- The registrations of every run can be recorded. -/
theorem listRegistering_of_run {ls : List (Label T (ListPc Q))} (run : Run ListStep s₀ ls s)
    (log₀ : List (Q × Node)) : ∃ log, Run ListRegistering (s₀, log₀) ls (s, log) := by
  induction run with
  | nil => exact ⟨log₀, .nil⟩
  | snoc _ hstep ih =>
      obtain ⟨log, hrun⟩ := ih
      exact ⟨_, hrun.snoc ⟨hstep, rfl⟩⟩

/-- The state of `Program` with empty lists. -/
def ListSystem.start (s : ListSystem T Q) : System T Q where
  owner := s.owner
  threads _ := .idle
  objects q := (s.objects q).mq.listless
  fresh := s.fresh

omit [Build] in
theorem MqBackend.listless_unlinked (mq : MqBackend Empty) : mq.listless.unlinked = mq := by
  obtain ⟨buffer, refs, readers, writers, noReaders, noWriters, queueEvent, _ | ⟨⟨⟩, _⟩⟩ := mq
  rfl

omit [DecidableEq T] [DecidableEq Q] [Build] in
theorem ListQuiescent.shows (h : ListQuiescent s) : Shows s s.start where
  owner := rfl
  fresh := rfl
  threads t := by
    rw [h.idle]
    rfl
  backend q := ((s.objects q).mq.listless_unlinked).symm
  settled q _ := by
    refine Ring.empty ?_ ?_
    · exact congrArg EntryLinks.next (h.empty q)
    · exact congrArg EntryLinks.prev (h.empty q)
  working t pc q hpc := by
    rw [h.idle] at hpc
    cases hpc

omit [DecidableEq T] [DecidableEq Q] [Build] in
theorem ListQuiescent.start (h : ListQuiescent s) : Quiescent s.start where
  free := h.free
  idle _ := rfl
  unlinked _ := rfl

/-- What holds in every state that a run without early unlocks reaches. -/
def Followed (p : ListSystem T Q × List (Q × Node)) : Prop :=
  ∃ c : System T Q, Shows p.1 c ∧ Prompt c ∧ Logged (c, p.2)

omit [DecidableEq T] [DecidableEq Q] [Build] in
theorem UnlocksEarly.pointers (h : Shows s c) (hearly : UnlocksEarly c (wholeLabel l)) :
    ListUnlocksEarly s l := by
  cases l with
  | step t =>
      obtain ⟨call, ht⟩ := hearly
      rw [h.threads] at ht
      cases hth : s.threads t <;> rw [hth] at ht <;>
        simp only [wholeThread, Thread.running.injEq, reduceCtorEq] at ht
      next pc =>
        cases pc with
        | stmt pc =>
            obtain rfl : pc = .readTooSmall call := ht
            exact ⟨call, hth⟩
        | _ => cases ht
  | _ => exact hearly.elim

theorem Followed.step (hf : Followed (s, log)) (hearly : ¬ ListUnlocksEarly s l)
    (hstep : ListStep s l s') : Followed (s', log ++ (listRegistration s l).toList) := by
  obtain ⟨c, h, hp, hg⟩ := hf
  cases follows_step h hp hstep with
  | @steps c' hc h' hlog =>
      refine ⟨c', h', hp.step (fun he => hearly (he.pointers h)) hc, ?_⟩
      rw [hlog]
      exact hg.step hc
  | waits h' hlog =>
      refine ⟨c, h', hp, ?_⟩
      rw [hlog, Option.toList_none, List.append_nil]
      exact hg

/-- In every run in which no read unlocks early, whatever the calls and their order, no
node is left behind. -/
theorem no_dangling_waiter (h₀ : ListQuiescent s₀) {ls : List (Label T (ListPc Q))}
    (run : Run (Guarded ListRegistering fun p l => ¬ ListUnlocksEarly p.1 l) (s₀, []) ls (s, log)) :
    PointersSound s log := by
  have hf : Followed (s, log) := by
    refine run.state_invariant ⟨s₀.start, h₀.shows, h₀.start.prompt, h₀.start.logged⟩ ?_
    rintro ⟨s, log⟩ l ⟨s', log'⟩ hf ⟨⟨hstep, rfl⟩, hearly⟩
    exact hf.step hearly hstep
  obtain ⟨c, h, -, hg⟩ := hf
  exact ⟨c, h, hg.noDangling⟩

end Runs

/-! ## Two polls of one queue -/

section Traces

/-- A queue of capacity eleven that holds a message of two bytes, with one handle. -/
private def oneMessage : ListSystem (Fin 3) Unit where
  owner _ := none
  threads _ := .idle
  objects _ := ⟨⟨⟨[2, 0, 0, 0, 0, 0, 0, 0, 7, 7, 0xDD], 11, 0, 10, false⟩, 1, 1, 1, false, false, 1, []⟩,
    fun _ => ⟨.head, .head⟩⟩
  fresh := 0

private theorem oneMessage_quiescent : ListQuiescent oneMessage :=
  ⟨fun _ => rfl, fun _ => rfl, fun _ => rfl⟩

/-- A null entry, and an entry that asks whether the writers are gone. -/
def nullAndNoWriters : List (PollFd Unit) := [⟨none, 0, 0⟩, ⟨some ((), 3), 8, 0⟩]

def pollOf (id : Nat) : PollCall Unit := ⟨id, nullAndNoWriters⟩

/-- Threads 1 and 2 have linked their nodes, and thread 1 has begun to count meanwhile. -/
private theorem bothLinked :
    letI : Build := ⟨false⟩
    ∃ (s : ListSystem (Fin 3) Unit) (ls : List (Label (Fin 3) (ListPc Unit))),
      Run (Guarded ListRegistering fun p l => ¬ ListUnlocksEarly p.1 l) (oneMessage, []) ls
        (s, [((), nodeOf (pollOf 0) 1), ((), nodeOf (pollOf 1) 1)]) ∧
      s.threads 1 = .running (.stmt (.pollWait (pollOf 0))) ∧
      s.threads 2 = .running (.stmt (.pollLinked (pollOf 1) 1 ())) := by
  let _ : Build := ⟨false⟩
  have start : Run (Guarded ListRegistering fun p l => ¬ ListUnlocksEarly p.1 l) (oneMessage, []) []
      (oneMessage, []) := .nil
  have one := ((((((((((((start.snoc (t := (_, _))
    ⟨⟨.start (t := 1) rfl ⟨_, rfl, .poll nullAndNoWriters, rfl⟩, rfl⟩, id⟩).snoc (t := (_, _))
    ⟨⟨.alloc (t := 1) rfl rfl, rfl⟩, by rintro ⟨_, h⟩; cases h⟩).snoc (t := (_, _))
    ⟨⟨.lock (t := 1) rfl rfl rfl, rfl⟩, by rintro ⟨_, h⟩; cases h⟩).snoc (t := (_, _))
    ⟨⟨.lock (t := 1) rfl rfl rfl, rfl⟩, by rintro ⟨_, h⟩; cases h⟩).snoc (t := (_, _))
    ⟨⟨.access (t := 1) rfl rfl rfl, rfl⟩, by rintro ⟨_, h⟩; cases h⟩).snoc (t := (_, _))
    ⟨⟨.access (t := 1) rfl rfl rfl, rfl⟩, by rintro ⟨_, h⟩; cases h⟩).snoc (t := (_, _))
    ⟨⟨.access (t := 1) rfl rfl rfl, rfl⟩, by rintro ⟨_, h⟩; cases h⟩).snoc (t := (_, _))
    ⟨⟨.access (t := 1) rfl rfl rfl, rfl⟩, by rintro ⟨_, h⟩; cases h⟩).snoc (t := (_, _))
    ⟨⟨.access (t := 1) rfl rfl rfl, rfl⟩, by rintro ⟨_, h⟩; cases h⟩).snoc (t := (_, _))
    ⟨⟨.access (t := 1) rfl rfl rfl, rfl⟩, by rintro ⟨_, h⟩; cases h⟩).snoc (t := (_, _))
    ⟨⟨.access (t := 1) rfl rfl rfl, rfl⟩, by rintro ⟨_, h⟩; cases h⟩).snoc (t := (_, _))
    ⟨⟨.unlock (t := 1) rfl rfl, rfl⟩, by rintro ⟨_, h⟩; cases h⟩)
  have two := ((((((((((((one.snoc (t := (_, _))
    ⟨⟨.start (t := 2) rfl ⟨_, rfl, .poll nullAndNoWriters, rfl⟩, rfl⟩, id⟩).snoc (t := (_, _))
    ⟨⟨.alloc (t := 2) rfl rfl, rfl⟩, by rintro ⟨_, h⟩; cases h⟩).snoc (t := (_, _))
    ⟨⟨.lock (t := 2) rfl rfl rfl, rfl⟩, by rintro ⟨_, h⟩; cases h⟩).snoc (t := (_, _))
    ⟨⟨.lock (t := 2) rfl rfl rfl, rfl⟩, by rintro ⟨_, h⟩; cases h⟩).snoc (t := (_, _))
    ⟨⟨.access (t := 2) rfl rfl rfl, rfl⟩, by rintro ⟨_, h⟩; cases h⟩).snoc (t := (_, _))
    ⟨⟨.access (t := 2) rfl rfl rfl, rfl⟩, by rintro ⟨_, h⟩; cases h⟩).snoc (t := (_, _))
    ⟨⟨.access (t := 2) rfl rfl rfl, rfl⟩, by rintro ⟨_, h⟩; cases h⟩).snoc (t := (_, _))
    ⟨⟨.access (t := 2) rfl rfl rfl, rfl⟩, by rintro ⟨_, h⟩; cases h⟩).snoc (t := (_, _))
    ⟨⟨.access (t := 1) rfl rfl rfl, rfl⟩, by rintro ⟨_, h⟩; cases h⟩).snoc (t := (_, _))
    ⟨⟨.access (t := 2) rfl rfl rfl, rfl⟩, by rintro ⟨_, h⟩; cases h⟩).snoc (t := (_, _))
    ⟨⟨.access (t := 2) rfl rfl rfl, rfl⟩, by rintro ⟨_, h⟩; cases h⟩).snoc (t := (_, _))
    ⟨⟨.access (t := 2) rfl rfl rfl, rfl⟩, by rintro ⟨_, h⟩; cases h⟩)
  exact ⟨_, _, two, rfl, rfl⟩

/-- Two polls of one queue have linked a node each. -/
theorem no_dangling_waiter_two :
    letI : Build := ⟨false⟩
    ∃ s : ListSystem (Fin 3) Unit, s.threads 1 = .running (.stmt (.pollWait (pollOf 0))) ∧
      s.threads 2 = .running (.stmt (.pollLinked (pollOf 1) 1 ())) ∧
      PointersSound s [((), nodeOf (pollOf 0) 1), ((), nodeOf (pollOf 1) 1)] := by
  let _ : Build := ⟨false⟩
  obtain ⟨s, ls, run, h₁, h₂⟩ := bothLinked
  exact ⟨s, h₁, h₂, no_dangling_waiter oneMessage_quiescent run⟩

/-- A read with a buffer of one byte releases the mutex in its size check, and thread 1 takes
it to link its node. It has read off the list head that the list is empty when the read
frees the mutex again. Thread 2 links its node, and thread 1 goes on. -/
private theorem raced :
    letI : Build := ⟨false⟩
    ∃ (s : ListSystem (Fin 3) Unit) (ls : List (Label (Fin 3) (ListPc Unit))),
      Run ListRegistering (oneMessage, []) ls (s, [((), nodeOf (pollOf 1) 1), ((), nodeOf (pollOf 0) 1)]) ∧
        s.threads 0 = .running (.stmt (.done 2)) ∧
        s.threads 1 = .running (.stmt (.pollLinked (pollOf 0) 1 ())) ∧
        s.threads 2 = .running (.stmt (.pollCount (pollOf 1) false 0 1 ())) ∧
        ((s.objects ()).entries .head).next = .node (nodeOf (pollOf 0) 1) ∧
        ((s.objects ()).entries (.node (nodeOf (pollOf 0) 1))).next = .head := by
  let _ : Build := ⟨false⟩
  have start : Run ListRegistering (oneMessage, []) [] (oneMessage, []) := .nil
  have read := (((((((start.snoc (t := (_, _))
    ⟨.start (t := 0) rfl ⟨_, rfl, .read () 3 1 0, rfl⟩, rfl⟩).snoc (t := (_, _))
    ⟨.lock (t := 0) rfl rfl rfl, rfl⟩).snoc (t := (_, _))
    ⟨.access (t := 0) rfl rfl rfl, rfl⟩).snoc (t := (_, _))
    ⟨.access (t := 0) rfl rfl rfl, rfl⟩).snoc (t := (_, _))
    ⟨.access (t := 0) rfl rfl rfl, rfl⟩).snoc (t := (_, _))
    ⟨.access (t := 0) rfl rfl rfl, rfl⟩).snoc (t := (_, _))
    ⟨.unlock (t := 0) rfl rfl, rfl⟩)
  have first := (((((((read.snoc (t := (_, _))
    ⟨.start (t := 1) rfl ⟨_, rfl, .poll nullAndNoWriters, rfl⟩, rfl⟩).snoc (t := (_, _))
    ⟨.alloc (t := 1) rfl rfl, rfl⟩).snoc (t := (_, _))
    ⟨.lock (t := 1) rfl rfl rfl, rfl⟩).snoc (t := (_, _))
    ⟨.lock (t := 1) rfl rfl rfl, rfl⟩).snoc (t := (_, _))
    ⟨.access (t := 1) rfl rfl rfl, rfl⟩).snoc (t := (_, _))
    ⟨.access (t := 1) rfl rfl rfl, rfl⟩).snoc (t := (_, _))
    ⟨.access (t := 1) rfl rfl rfl, rfl⟩)
  have rest := ((((((first.snoc (t := (_, _))
    ⟨.access (t := 0) rfl rfl rfl, rfl⟩).snoc (t := (_, _))
    ⟨.access (t := 0) rfl rfl rfl, rfl⟩).snoc (t := (_, _))
    ⟨.signalNone (t := 0) rfl rfl (by rintro u ⟨_, _, _, h, -⟩; fin_cases u <;> cases h), rfl⟩).snoc (t := (_, _))
    ⟨.access (t := 0) rfl rfl rfl, rfl⟩).snoc (t := (_, _))
    ⟨.access (t := 0) rfl rfl rfl, rfl⟩).snoc (t := (_, _))
    ⟨.unlock (t := 0) rfl rfl, rfl⟩)
  have second := ((((((((((((rest.snoc (t := (_, _))
    ⟨.start (t := 2) rfl ⟨_, rfl, .poll nullAndNoWriters, rfl⟩, rfl⟩).snoc (t := (_, _))
    ⟨.alloc (t := 2) rfl rfl, rfl⟩).snoc (t := (_, _))
    ⟨.lock (t := 2) rfl rfl rfl, rfl⟩).snoc (t := (_, _))
    ⟨.lock (t := 2) rfl rfl rfl, rfl⟩).snoc (t := (_, _))
    ⟨.access (t := 2) rfl rfl rfl, rfl⟩).snoc (t := (_, _))
    ⟨.access (t := 2) rfl rfl rfl, rfl⟩).snoc (t := (_, _))
    ⟨.access (t := 2) rfl rfl rfl, rfl⟩).snoc (t := (_, _))
    ⟨.access (t := 2) rfl rfl rfl, rfl⟩).snoc (t := (_, _))
    ⟨.access (t := 2) rfl rfl rfl, rfl⟩).snoc (t := (_, _))
    ⟨.access (t := 2) rfl rfl rfl, rfl⟩).snoc (t := (_, _))
    ⟨.access (t := 2) rfl rfl rfl, rfl⟩).snoc (t := (_, _))
    ⟨.unlock (t := 2) rfl rfl, rfl⟩)
  have late := ((((second.snoc (t := (_, _))
    ⟨.access (t := 1) rfl rfl rfl, rfl⟩).snoc (t := (_, _))
    ⟨.access (t := 1) rfl rfl rfl, rfl⟩).snoc (t := (_, _))
    ⟨.access (t := 1) rfl rfl rfl, rfl⟩).snoc (t := (_, _))
    ⟨.access (t := 1) rfl rfl rfl, rfl⟩)
  exact ⟨_, _, late, rfl, rfl, rfl, rfl, rfl⟩

/-- The entry of the second poll is on no list, although its call has linked it and not yet
unlinked it. -/
theorem poll_node_lost :
    letI : Build := ⟨false⟩
    ∃ (s₀ s : ListSystem (Fin 3) Unit) (ls : List (Label (Fin 3) (ListPc Unit)))
      (log : List (Unit × Node)), ListQuiescent s₀ ∧ Run ListRegistering (s₀, []) ls (s, log) ∧
        ¬ PointersSound s log := by
  let _ : Build := ⟨false⟩
  obtain ⟨s, ls, run, h₀, h₁, h₂, hhead, hback⟩ := raced
  refine ⟨oneMessage, s, ls, _, oneMessage_quiescent, run, ?_⟩
  rintro ⟨c, hs, hd⟩
  have hring : IsList (s.objects ()).entries (c.objects ()).queueListHead := by
    refine hs.settled () fun t pc ht hworking => ?_
    fin_cases t
    · obtain rfl := Thread.running.inj (h₀.symm.trans ht)
      cases hworking
    · obtain rfl := Thread.running.inj (h₁.symm.trans ht)
      cases hworking
    · obtain rfl := Thread.running.inj (h₂.symm.trans ht)
      cases hworking
  have hlinks : Links c 2 () (nodeOf (pollOf 1) 1) := by
    refine ⟨.pollCount (pollOf 1) false 0 1 (), pollOf 1, ⟨?_, rfl⟩, rfl, rfl, trivial, id⟩
    rw [hs.threads, h₂]
    rfl
  have hmem := List.mem_map_of_mem (f := EntryPtr.node) ((hd.linked () _).mpr ⟨2, hlinks⟩)
  rw [Ring.eq_singleton hring hhead hback EntryPtr.noConfusion] at hmem
  revert hmem
  decide

end Traces

end UoftOs.MsgQueue
