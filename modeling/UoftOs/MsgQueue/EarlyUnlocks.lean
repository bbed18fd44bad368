import UoftOs.MsgQueue.Registration

/-!
# Runs without early unlocks

A read whose buffer is too short releases the mutex in its size check and goes on. In the
runs in which no read does so, a thread that holds a mutex by its statement owns it, and
the waiter list of a queue is walked and changed under the queue's mutex.
-/

namespace UoftOs.MsgQueue

open Lib.Threads Lib.Transition

variable {Q : Type}

/-- The statements of a read behind the unlock in its size check. -/
def Pc.Early (pc : Pc Q) : Prop := pc.Strays ∧ pc.poll? = none

section Points

theorem visits_locks {pc : Pc Q} {w : Wakeup Q} {n : Node} (hv : pc.visits? = some (w, n))
    (he : ¬ pc.Early) : holds pc (.queue w.q) := by
  have hearly (hs : w.early = true ↔ pc.Strays) : w.early = false := by
    rw [← Bool.not_eq_true, hs]
    exact fun h => he ⟨h, by cases pc <;> first | rfl | cases hv⟩
  cases pc <;> simp only [Pc.visits?, Option.some.injEq, Prod.mk.injEq, reduceCtorEq] at hv <;>
    obtain ⟨rfl, rfl⟩ := hv <;>
    simp [holds, locksAt, Wakeup.locks, hearly Iff.rfl]

/-- Who holds the mutex of a node: `helper_wakeup` at the node, or its call. -/
theorem poll_holder {pc : Pc Q} {p i : Nat} (h : holds pc (.poll p i)) :
    (∃ w n, pc.visits? = some (w, n) ∧ n.poll = p) ∨ ∃ c, pc.poll? = some c ∧ c.id = p := by
  have wake {w : Wakeup Q} {n : Node}
      (h : Mutex.poll p i ∈ .poll n.poll n.index :: w.locks) : n.poll = p := by
    rcases List.mem_cons.mp h with heq | h
    · exact (Mutex.poll.inj heq).1.symm
    · exact absurd h w.poll_notMem_locks
  have own {c : PollCall Q} (h : Mutex.poll p i ∈ [(Mutex.poll c.id 0 : Mutex Q)]) : c.id = p :=
    (Mutex.poll.inj (List.mem_singleton.mp h)).1.symm
  cases pc with
  | wakeSignal w n => exact Or.inl ⟨w, n, rfl, wake h⟩
  | wakeUnlock w n => exact Or.inl ⟨w, n, rfl, wake h⟩
  | wakeStart w => exact absurd h w.poll_notMem_locks
  | wakeTest w n => exact absurd h w.poll_notMem_locks
  | wakeLock w n => exact absurd h w.poll_notMem_locks
  | wakeNext w n => exact absurd h w.poll_notMem_locks
  | wakeDone w => exact absurd h w.poll_notMem_locks
  | pollRegister c i' q => exact Or.inr ⟨c, rfl, own h⟩
  | pollLink c i' q => exact Or.inr ⟨c, rfl, own (List.mem_of_ne_of_mem (by simp) h)⟩
  | pollLinked c i' q => exact Or.inr ⟨c, rfl, own (List.mem_of_ne_of_mem (by simp) h)⟩
  | pollCount c again numReady i' q => exact Or.inr ⟨c, rfl, own h⟩
  | pollWait c => exact Or.inr ⟨c, rfl, own h⟩
  | pollUnlock c numReady => exact Or.inr ⟨c, rfl, own h⟩
  | readHeader c early => cases early <;> simp [holds, locksAt] at h
  | readBody c early => cases early <;> simp [holds, locksAt] at h
  | readSignal c early => cases early <;> simp [holds, locksAt] at h
  | readEvents c early => cases early <;> simp [holds, locksAt] at h
  | _ => simp [holds, locksAt] at h

variable [Build]

/-- A thread gets early only from the size check of a read. -/
theorem next_early {fresh : Nat} {pc next : Pc Q} (h : Leads code fresh pc next) (hp : pc.Placed)
    (he : ¬ pc.Early) (hsmall : ∀ c, pc ≠ .readTooSmall c) : ¬ next.Early := by
  rintro ⟨hs, hn⟩
  cases hc : pc.poll? with
  | some c =>
      obtain ⟨numReady, rfl, rfl⟩ := leads_leaves h hc hn
      exact hs
  | none =>
      refine next_strays h hp (fun hs' => he ⟨hs', hc⟩) (fun hb => ?_) hs
      cases pc with
      | readTooSmall c => exact hsmall c rfl
      | pollLinked c i q => cases hc
      | _ => exact hb

/-- Apart from the last unlock of a poll, a thread unlocks what it holds. -/
theorem unlock_holds {pc next : Pc Q} {m : Mutex Q} (he : ¬ pc.Early)
    (hc : code pc = .unlock m next) :
    holds pc m ∨ ∃ c numReady, pc = .pollUnlockAgain c numReady ∧ m = .poll c.id 0 := by
  by_cases hs : pc.Strays
  · cases hpoll : pc.poll? with
    | none => exact absurd ⟨hs, hpoll⟩ he
    | some c =>
        cases pc <;> simp only [code, Instr.unlock.injEq, reduceCtorEq] at hc <;>
          obtain ⟨rfl, rfl⟩ := hc <;>
          first | exact hs.elim | (cases hpoll; done) | skip
        case pollUnlock c numReady => exact Or.inl (List.mem_singleton_self _)
        case pollUnlinked c numReady i q => exact Or.inl (List.mem_singleton_self _)
        case pollUnlockAgain c numReady => exact Or.inr ⟨c, numReady, rfl, rfl⟩
  · have hclean := clean_of_not_strays hs
    rw [Clean, hc] at hclean
    exact Or.inl hclean

end Points

section Runs
variable [Build] {T : Type} [DecidableEq T] [DecidableEq Q] {s s₀ s' : System T Q}
  {l : Label T (Pc Q)}

/-- The step is the unlock in the size check of a read, whose buffer is too short. -/
def UnlocksEarly (s : System T Q) : Label T (Pc Q) → Prop
  | .step t => ∃ c, s.threads t = .running (.readTooSmall c)
  | _ => False

/-- The invariant of the runs without such a step. -/
structure Prompt (s : System T Q) : Prop where
  owners : OwnersHold code holds s
  holders : HoldersOwn code holds s
  registered : Registered s
  prompt : ∀ t pc, (s.threads t).point = some pc → ¬ pc.Early
  listed : ∀ t pc w n, (s.threads t).point = some pc → pc.visits? = some (w, n) →
    n ∈ (s.objects w.q).queueListHead

omit [DecidableEq T] [DecidableEq Q] in
theorem Quiescent.prompt (h : Quiescent s) : Prompt s where
  owners := h.owners
  holders := h.orderly.holders
  registered := h.registered
  prompt _ _ hpc := absurd hpc h.no_point
  listed _ _ _ _ hpc := absurd hpc h.no_point

omit [DecidableEq T] [DecidableEq Q] in
theorem held_of_visits {th : Thread (Pc Q)} {pc : Pc Q} {w : Wakeup Q} {n : Node}
    (hpc : th.point = some pc) (hv : pc.visits? = some (w, n)) (he : ¬ pc.Early) :
    Held code holds th (.queue w.q) := by
  have hlocks := visits_locks hv he
  have hwait (c : CondId Q) (m : Mutex Q) (next : Pc Q) : code pc ≠ .wait c m next := by
    cases pc <;> simp only [Pc.visits?, reduceCtorEq] at hv <;> simp [code]
  cases th with
  | idle => cases hpc
  | running pc' =>
      cases hpc
      exact hlocks
  | asleep pc' =>
      cases hpc
      exact ⟨hlocks, fun c m next hc => absurd hc (hwait c m next)⟩
  | woken pc' =>
      cases hpc
      exact ⟨hlocks, fun c m next hc => absurd hc (hwait c m next)⟩

namespace Prompt

section Invariant
variable (hw : Prompt s)
include hw

omit [DecidableEq T] [DecidableEq Q] in
/-- When a poll comes to its last unlock, nobody holds its mutex any more. -/
theorem poll_free {t : T} {c : PollCall Q} {numReady : Nat}
    (ht : s.threads t = .running (.pollUnlockAgain c numReady)) : s.owner (.poll c.id 0) = none := by
  cases howner : s.owner (.poll c.id 0) with
  | none => rfl
  | some u =>
      have hheld := hw.owners _ _ howner
      have hself : PollAt s t (.pollUnlockAgain c numReady) c := ⟨by rw [ht]; rfl, rfl⟩
      obtain ⟨pc, hpoint, hholds⟩ : ∃ pc, (s.threads u).point = some pc ∧
          holds pc (.poll c.id 0) := by
        cases hth : s.threads u with
        | idle =>
            rw [hth] at hheld
            exact hheld.elim
        | running pc =>
            rw [hth] at hheld
            exact ⟨pc, rfl, hheld⟩
        | asleep pc =>
            rw [hth] at hheld
            exact ⟨pc, rfl, hheld.1⟩
        | woken pc =>
            rw [hth] at hheld
            exact ⟨pc, rfl, hheld.1⟩
      rcases poll_holder hholds with ⟨w, n, hv, hn⟩ | ⟨c', hc', hid⟩
      · -- A node that is visited is linked, and the call has unlinked all of its nodes.
        obtain ⟨v, pc', c', hc', -, hnode, -, hlinked⟩ :=
          (hw.registered.linked _ _).mp (hw.listed u pc w n hpoint hv)
        have hid : c'.id = c.id := by rw [← nodeOf_poll c' n.index, hnode, hn]
        obtain rfl := hw.registered.unique v t _ _ c' c hc' hself hid
        obtain ⟨rfl, -⟩ := hself.eq hc'
        exact absurd trivial hlinked
      · obtain rfl := hw.registered.unique u t _ _ c' c ⟨hpoint, hc'⟩ hself hid
        obtain ⟨rfl, -⟩ := hself.eq ⟨hpoint, hc'⟩
        simp [holds, locksAt] at hholds

omit [DecidableEq T] [DecidableEq Q] in
theorem unlocksOwn : UnlocksOwn code holds s l := by
  cases l with
  | step t =>
      intro pc m next hpc hc
      rcases unlock_holds (hw.prompt t pc (by rw [hpc]; rfl)) hc with hheld | ⟨c, numReady, rfl, rfl⟩
      · exact Or.inl hheld
      · exact Or.inr (hw.poll_free hpc)
  | _ => trivial

end Invariant

theorem prompt_step (hw : Prompt s) (hl : ¬ UnlocksEarly s l) (h : SysStep s l s') (t : T)
    (pc : Pc Q) (hpc : (s'.threads t).point = some pc) : ¬ pc.Early := by
  refine (h.point_invariant (P := fun pc => pc.Placed ∧ ¬ pc.Early)
    (fun _ he => ⟨(entry_placed he).1, fun hs => (entry_placed he).2 hs.1⟩)
    (fun u pc₀ next hstep hm hp => ?_)
    (fun u pc₀ hpc₀ => ⟨hw.registered.placed u pc₀ hpc₀, hw.prompt u pc₀ hpc₀⟩) hpc).2
  refine ⟨next_placed hm.leads hp.1, next_early hm.leads hp.1 hp.2 ?_⟩
  rintro c rfl
  subst hstep
  cases hm with
  | running hpc₀ hn => exact hl ⟨_, hpc₀⟩
  | woken hpc₀ hc => cases hc

/-- The lists change under the queue's mutex, which `helper_wakeup` holds at its nodes. -/
theorem listed_step (hw : Prompt s) (hl : ¬ UnlocksEarly s l) (h : SysStep s l s') (t : T)
    (pc : Pc Q) (w : Wakeup Q) (n : Node) (hpc : (s'.threads t).point = some pc)
    (hv : pc.visits? = some (w, n)) : n ∈ (s'.objects w.q).queueListHead := by
  have hmem : n ∈ (s.objects w.q).queueListHead := by
    rcases h.visits hpc hv with ⟨pc₀, hpc₀, hv₀⟩ | hmem
    · exact hw.listed t pc₀ w n hpc₀ hv₀
    · exact hmem
  cases h.listChange with
  | same hlist hquiet =>
      rw [hlist]
      exact hmem
  | @links v c i q₀ hstep hv₀ hs =>
      subst hs
      by_cases hq : w.q = q₀
      · subst hq
        simpa [State.setObject] using Or.inl hmem
      · simpa [State.setObject, Function.update_of_ne hq] using hmem
  | @unlinks v c numReady i q₀ hstep hv₀ hs =>
      have hprompt := hw.prompt_step hl h t pc hpc
      subst hs
      have htv : t ≠ v := by
        rintro rfl
        rw [State.goTo_self] at hpc
        cases hpc
        cases hv
      rw [State.goTo_of_ne _ _ _ htv] at hpc
      have howner := hw.holders t _ (held_of_visits hpc hv hprompt)
      have howner' : s.owner (.queue q₀) = some v :=
        hw.holders v _ (by rw [hv₀]; exact List.mem_singleton_self _)
      have hq : w.q ≠ q₀ := by
        rintro rfl
        rw [howner, Option.some.injEq] at howner'
        exact htv howner'
      simpa [State.setObject, Function.update_of_ne hq] using hmem

/-- The list of a queue stays while a thread that runs holds the queue's mutex, unless
this thread steps. -/
theorem list_stays (hw : Prompt s) (h : SysStep s l s') {u : T} {pc : Pc Q} {q : Q}
    (hu : s.threads u = .running pc) (hheld : holds pc (.queue q)) (hl : l ≠ .step u) :
    (s'.objects q).queueListHead = (s.objects q).queueListHead := by
  have howner := hw.holders u (.queue q) (by rw [hu]; exact hheld)
  have other {v : T} {pc' : Pc Q} {q' : Q} (hstep : l = .step v) (hv : s.threads v = .running pc')
      (hheld' : holds pc' (.queue q')) : q ≠ q' := by
    rintro rfl
    have howner' := hw.holders v (.queue q) (by rw [hv]; exact hheld')
    rw [howner, Option.some.injEq] at howner'
    exact hl (howner' ▸ hstep)
  cases h.listChange with
  | same hlist hquiet => exact hlist q
  | links hstep hv hs =>
      have hq := other hstep hv List.mem_cons_self
      simp [hs, State.setObject, Function.update_of_ne hq]
  | unlinks hstep hv hs =>
      have hq := other hstep hv List.mem_cons_self
      simp [hs, State.setObject, Function.update_of_ne hq]

/-- Every other step keeps the invariant. -/
theorem step (hw : Prompt s) (hl : ¬ UnlocksEarly s l) (h : SysStep s l s') : Prompt s' where
  owners := hw.owners.step code_typed h
  holders := hw.holders.step code_typed hw.unlocksOwn h
  registered := hw.registered.step h
  prompt := hw.prompt_step hl h
  listed := hw.listed_step hl h

end Prompt

end Runs

end UoftOs.MsgQueue
