import Mathlib.Logic.Function.Basic
import Mathlib.Logic.Relation
import UoftOs.Lib.Transition

/-!
# Threads with mutexes and condition variables

A machine whose threads run one program `code : Pc → Instr`. Shared objects are
accessed one at a time, each access in one step. A type of points for `code`
says which locks a thread holds at each point; what it guarantees about the
owners of the locks is proved here once for all programs.
-/

namespace UoftOs.Lib.Threads

variable {T Pc L C R B F : Type}

/-- What a thread does at a point of the program. -/
inductive Instr (Pc L C R B F : Type) where
  | lock (m : L) (next : Pc)
  | unlock (m : L) (next : Pc)
  | wait (c : C) (m : L) (next : Pc)
  | signal (c : C) (next : Pc)
  | broadcast (c : C) (next : Pc)
  /-- Read and update the object `r`; a fault ends the process. -/
  | access (r : R) (f : B → Except F (B × Pc))
  /-- A fresh identifier, or none when memory is short. -/
  | alloc (next : Option Nat → Pc)
  | goto (next : Pc)
  | stop

/-- A thread asleep or woken is in the `wait` at its point; woken, it has to lock again. -/
inductive Thread (Pc : Type) where
  | idle
  | running (pc : Pc)
  | asleep (pc : Pc)
  | woken (pc : Pc)
  deriving DecidableEq

structure State (T Pc L R B : Type) where
  owner : L → Option T
  threads : T → Thread Pc
  objects : R → B
  fresh : Nat

/-- A thread enters the program at `pc`, takes a step, or wakes up unsignalled. -/
inductive Label (T Pc : Type) where
  | start (t : T) (pc : Pc)
  | step (t : T)
  | spurious (t : T)

section Steps
variable [DecidableEq T] [DecidableEq L] [DecidableEq R] (code : Pc → Instr Pc L C R B F)
  (entry : Pc → Prop)

/-- The thread sleeps on the condition variable `c`. -/
def SleepsOn (th : Thread Pc) (c : C) : Prop :=
  ∃ pc m next, th = .asleep pc ∧ code pc = .wait c m next

namespace State

/-- Thread `t` goes on at `pc`. -/
def goTo (s : State T Pc L R B) (t : T) (pc : Pc) : State T Pc L R B :=
  { s with threads := Function.update s.threads t (.running pc) }

def setOwner (s : State T Pc L R B) (m : L) (o : Option T) : State T Pc L R B :=
  { s with owner := Function.update s.owner m o }

def setThread (s : State T Pc L R B) (t : T) (th : Thread Pc) : State T Pc L R B :=
  { s with threads := Function.update s.threads t th }

def setObject (s : State T Pc L R B) (r : R) (b : B) : State T Pc L R B :=
  { s with objects := Function.update s.objects r b }

section Fields
variable (s : State T Pc L R B) (t : T) (pc : Pc) (th : Thread Pc) (m : L) (o : Option T) (r : R)
  (b : B)

omit [DecidableEq L] [DecidableEq R]

@[simp] theorem goTo_owner : (s.goTo t pc).owner = s.owner := rfl
@[simp] theorem goTo_objects : (s.goTo t pc).objects = s.objects := rfl
@[simp] theorem goTo_fresh : (s.goTo t pc).fresh = s.fresh := rfl
@[simp] theorem goTo_self : (s.goTo t pc).threads t = .running pc := Function.update_self ..
@[simp] theorem setThread_owner : (s.setThread t th).owner = s.owner := rfl
@[simp] theorem setThread_objects : (s.setThread t th).objects = s.objects := rfl
@[simp] theorem setThread_fresh : (s.setThread t th).fresh = s.fresh := rfl

theorem goTo_of_ne {u : T} (h : u ≠ t) : (s.goTo t pc).threads u = s.threads u :=
  Function.update_of_ne h ..

omit [DecidableEq T]

section Owner
variable [DecidableEq L]

@[simp] theorem setOwner_threads : (s.setOwner m o).threads = s.threads := rfl
@[simp] theorem setOwner_objects : (s.setOwner m o).objects = s.objects := rfl
@[simp] theorem setOwner_fresh : (s.setOwner m o).fresh = s.fresh := rfl

end Owner

variable [DecidableEq R]

@[simp] theorem setObject_owner : (s.setObject r b).owner = s.owner := rfl
@[simp] theorem setObject_threads : (s.setObject r b).threads = s.threads := rfl
@[simp] theorem setObject_fresh : (s.setObject r b).fresh = s.fresh := rfl

@[simp] theorem setObject_self : s.setObject r (s.objects r) = s := by
  rw [setObject, Function.update_eq_self]

end Fields

end State

/-- The steps of the machine. An `unlock` frees the mutex whoever owns it. -/
inductive Step (s : State T Pc L R B) : Label T Pc → State T Pc L R B → Prop
  | start {t pc} (h : s.threads t = .idle) (he : entry pc) : Step s (.start t pc) (s.goTo t pc)
  | lock {t pc m next} (h : s.threads t = .running pc) (hc : code pc = .lock m next)
      (hfree : s.owner m = none) : Step s (.step t) ((s.setOwner m (some t)).goTo t next)
  | unlock {t pc m next} (h : s.threads t = .running pc) (hc : code pc = .unlock m next) :
      Step s (.step t) ((s.setOwner m none).goTo t next)
  | wait {t pc c m next} (h : s.threads t = .running pc) (hc : code pc = .wait c m next) :
      Step s (.step t) ((s.setOwner m none).setThread t (.asleep pc))
  | spurious {t pc} (h : s.threads t = .asleep pc) :
      Step s (.spurious t) (s.setThread t (.woken pc))
  | relock {t pc c m next} (h : s.threads t = .woken pc) (hc : code pc = .wait c m next)
      (hfree : s.owner m = none) : Step s (.step t) ((s.setOwner m (some t)).goTo t next)
  | signal {t pc c next u pc'} (h : s.threads t = .running pc) (hc : code pc = .signal c next)
      (hu : s.threads u = .asleep pc') (hs : SleepsOn code (.asleep pc') c) :
      Step s (.step t) ((s.setThread u (.woken pc')).goTo t next)
  | signalNone {t pc c next} (h : s.threads t = .running pc) (hc : code pc = .signal c next)
      (hu : ∀ u, ¬ SleepsOn code (s.threads u) c) : Step s (.step t) (s.goTo t next)
  | broadcast {t pc c next th} (h : s.threads t = .running pc)
      (hc : code pc = .broadcast c next)
      (hall : ∀ u, (∃ pc', s.threads u = .asleep pc' ∧ SleepsOn code (s.threads u) c ∧
        th u = .woken pc') ∨ (¬ SleepsOn code (s.threads u) c ∧ th u = s.threads u)) :
      Step s (.step t) (({ s with threads := th } : State T Pc L R B).goTo t next)
  | access {t pc r f b next} (h : s.threads t = .running pc) (hc : code pc = .access r f)
      (hf : f (s.objects r) = .ok (b, next)) : Step s (.step t) ((s.setObject r b).goTo t next)
  | alloc {t pc next} (h : s.threads t = .running pc) (hc : code pc = .alloc next) :
      Step s (.step t) (({ s with fresh := s.fresh + 1 } : State T Pc L R B).goTo t
        (next (some s.fresh)))
  | allocFails {t pc next} (h : s.threads t = .running pc) (hc : code pc = .alloc next) :
      Step s (.step t) (s.goTo t (next none))
  | goto {t pc next} (h : s.threads t = .running pc) (hc : code pc = .goto next) :
      Step s (.step t) (s.goTo t next)
  | stop {t pc} (h : s.threads t = .running pc) (hc : code pc = .stop) :
      Step s (.step t) (s.setThread t .idle)

end Steps

section Types
variable (code : Pc → Instr Pc L C R B F) (entry : Pc → Prop) (holds : Pc → L → Prop)

/-- `holds` follows the locks and unlocks of the instruction at `pc`. -/
def TypedAt (pc : Pc) : Instr Pc L C R B F → Prop
  | .lock m next => ∀ l, holds next l ↔ l = m ∨ holds pc l
  | .unlock m next => ∀ l, holds next l ↔ l ≠ m ∧ holds pc l
  | .wait _ m next => holds pc m ∧ ∀ l, holds next l ↔ holds pc l
  | .signal _ next => ∀ l, holds next l ↔ holds pc l
  | .broadcast _ next => ∀ l, holds next l ↔ holds pc l
  | .access _ f => ∀ b b' next, f b = .ok (b', next) → ∀ l, holds next l ↔ holds pc l
  | .alloc next => ∀ o l, holds (next o) l ↔ holds pc l
  | .goto next => ∀ l, holds next l ↔ holds pc l
  | .stop => ∀ l, ¬ holds pc l

/-- A thread enters without locks, and `holds` follows the whole program. -/
structure Typed : Prop where
  entry : ∀ pc, entry pc → ∀ l, ¬ holds pc l
  point : ∀ pc, TypedAt holds pc (code pc)

/-- The locks a thread holds by its type; in a `wait` it has released the mutex. -/
def Held : Thread Pc → L → Prop
  | .idle, _ => False
  | .running pc, l => holds pc l
  | .asleep pc, l => holds pc l ∧ ∀ c m next, code pc = .wait c m next → l ≠ m
  | .woken pc, l => holds pc l ∧ ∀ c m next, code pc = .wait c m next → l ≠ m

end Types

section Invariants
variable [DecidableEq T] [DecidableEq L] {code : Pc → Instr Pc L C R B F}
  {entry : Pc → Prop} {holds : Pc → L → Prop}

/-- What a step does to the owners and to the locks held by type. -/
inductive LockChange (code : Pc → Instr Pc L C R B F) (holds : Pc → L → Prop)
    (s : State T Pc L R B) : Label T Pc → State T Pc L R B → Prop
  | quiet {l s'} (ho : s'.owner = s.owner)
      (hh : ∀ u m, Held code holds (s'.threads u) m ↔ Held code holds (s.threads u) m) :
      LockChange code holds s l s'
  | acquires {t m s'} (hfree : s.owner m = none)
      (ho : s'.owner = Function.update s.owner m (some t))
      (hh : ∀ u k, Held code holds (s'.threads u) k ↔
        u = t ∧ k = m ∨ Held code holds (s.threads u) k) :
      LockChange code holds s (.step t) s'
  | releases {t m s' pc} (hpc : s.threads t = .running pc)
      (hc : (∃ next, code pc = .unlock m next) ∨ ∃ c next, code pc = .wait c m next)
      (ho : s'.owner = Function.update s.owner m none)
      (hh : ∀ u k, Held code holds (s'.threads u) k ↔
        Held code holds (s.threads u) k ∧ ¬ (u = t ∧ k = m)) :
      LockChange code holds s (.step t) s'

variable {s s' : State T Pc L R B} {l : Label T Pc}

omit [DecidableEq L] in
/-- When only thread `t` moves, the locks of the others stay. -/
private theorem held_update {t : T} {th : Thread Pc} {P : T → L → Prop}
    (hself : ∀ m, Held code holds th m ↔ P t m)
    (hothers : ∀ u, u ≠ t → ∀ m, Held code holds (s.threads u) m ↔ P u m) (u : T) (m : L) :
    Held code holds (Function.update s.threads t th u) m ↔ P u m := by
  by_cases hu : u = t
  · subst hu
    rw [Function.update_self]
    exact hself m
  · rw [Function.update_of_ne hu]
    exact hothers u hu m

omit [DecidableEq T] [DecidableEq L] in
private theorem held_wait {pc : Pc} {c : C} {m : L} {next : Pc} (hc : code pc = .wait c m next)
    (k : L) : Held code holds (.asleep pc) k ↔ holds pc k ∧ k ≠ m := by
  simp [Held, hc]

theorem Step.lockChange [DecidableEq R] (ht : Typed code entry holds) (h : Step code entry s l s') :
    LockChange code holds s l s' := by
  have quietly {t pc next} {s₁ : State T Pc L R B} (hpc : s.threads t = .running pc)
      (ho : s₁.owner = s.owner) (hth : s₁.threads = s.threads)
      (hn : ∀ k, holds next k ↔ holds pc k) :
      LockChange code holds s (.step t) (s₁.goTo t next) := by
    refine .quiet ho fun u m => ?_
    simp only [State.goTo, hth]
    refine held_update (P := fun u m => Held code holds (s.threads u) m) (fun k => ?_)
      (fun _ _ _ => Iff.rfl) u m
    rw [hpc]
    exact hn k
  cases h with
  | @start t pc hidle he =>
      refine .quiet rfl (held_update (fun k => ?_) fun _ _ _ => Iff.rfl)
      rw [hidle]
      exact iff_of_false (ht.entry pc he k) id
  | @lock t pc m next hpc hc hfree =>
      have hp := ht.point pc
      rw [hc] at hp
      refine .acquires hfree rfl (held_update (fun k => ?_) fun u hu k => by simp [hu])
      rw [hpc]
      simpa [Held] using hp k
  | @unlock t pc m next hpc hc =>
      have hp := ht.point pc
      rw [hc] at hp
      refine .releases hpc (Or.inl ⟨next, hc⟩) rfl
        (held_update (fun k => ?_) fun u hu k => by simp [hu])
      rw [hpc]
      simpa [Held, and_comm] using hp k
  | @wait t pc c m next hpc hc =>
      refine .releases hpc (Or.inr ⟨c, next, hc⟩) rfl
        (held_update (fun k => ?_) fun u hu k => by simp [hu])
      rw [hpc, held_wait hc]
      simp [Held]
  | @spurious t pc hpc =>
      refine .quiet rfl (held_update (fun k => ?_) fun _ _ _ => Iff.rfl)
      rw [hpc]
      rfl
  | @relock t pc c m next hpc hc hfree =>
      have hp := ht.point pc
      rw [hc] at hp
      refine .acquires hfree rfl (held_update (fun k => ?_) fun u hu k => by simp [hu])
      rw [hpc]
      by_cases hk : k = m
      · subst hk
        exact iff_of_true ((hp.2 k).mpr hp.1) (Or.inl ⟨rfl, rfl⟩)
      · simpa [Held, hc, hk] using hp.2 k
  | @signal t pc c next u pc' hpc hc hu hs =>
      have hp := ht.point pc
      rw [hc] at hp
      refine .quiet rfl (held_update (fun k => ?_) fun v _ k => ?_)
      · rw [hpc]
        exact hp k
      · refine held_update (P := fun u m => Held code holds (s.threads u) m) (fun k => ?_)
          (fun _ _ _ => Iff.rfl) v k
        rw [hu]
        rfl
  | @signalNone t pc c next hpc hc hu =>
      have hp := ht.point pc
      rw [hc] at hp
      exact quietly hpc rfl rfl hp
  | @broadcast t pc c next th hpc hc hall =>
      have hp := ht.point pc
      rw [hc] at hp
      refine .quiet rfl (held_update (fun k => ?_) fun v _ k => ?_)
      · rw [hpc]
        exact hp k
      · change Held code holds (th v) k ↔ _
        rcases hall v with ⟨pc', hv, -, hw⟩ | ⟨-, hw⟩
        · rw [hw, hv]
          rfl
        · rw [hw]
  | @access t pc r f b next hpc hc hf =>
      have hp := ht.point pc
      rw [hc] at hp
      exact quietly hpc rfl rfl (hp _ _ _ hf)
  | @alloc t pc next hpc hc =>
      have hp := ht.point pc
      rw [hc] at hp
      exact quietly hpc rfl rfl (hp _)
  | @allocFails t pc next hpc hc =>
      have hp := ht.point pc
      rw [hc] at hp
      exact quietly hpc rfl rfl (hp _)
  | @goto t pc next hpc hc =>
      have hp := ht.point pc
      rw [hc] at hp
      exact quietly hpc rfl rfl hp
  | @stop t pc hpc hc =>
      have hp := ht.point pc
      rw [hc] at hp
      refine .quiet rfl (held_update (fun k => ?_) fun _ _ _ => Iff.rfl)
      rw [hpc]
      exact iff_of_false id (hp k)

/-- Who owns a mutex holds it by type. -/
def OwnersHold (code : Pc → Instr Pc L C R B F) (holds : Pc → L → Prop)
    (s : State T Pc L R B) : Prop :=
  ∀ m t, s.owner m = some t → Held code holds (s.threads t) m

/-- Who holds a mutex by type owns it. -/
def HoldersOwn (code : Pc → Instr Pc L C R B F) (holds : Pc → L → Prop)
    (s : State T Pc L R B) : Prop :=
  ∀ t m, Held code holds (s.threads t) m → s.owner m = some t

/-- No `unlock` of the step takes a mutex from somebody else. -/
def UnlocksOwn (code : Pc → Instr Pc L C R B F) (holds : Pc → L → Prop)
    (s : State T Pc L R B) : Label T Pc → Prop
  | .step t => ∀ pc m next, s.threads t = .running pc → code pc = .unlock m next →
      holds pc m ∨ s.owner m = none
  | _ => True

/-- Every step of a typed program keeps the owners among the holders. -/
theorem OwnersHold.step [DecidableEq R] (ho : OwnersHold code holds s)
    (ht : Typed code entry holds) (h : Step code entry s l s') : OwnersHold code holds s' := by
  intro m u hm
  cases h.lockChange ht with
  | quiet hown hheld =>
      rw [hown] at hm
      exact (hheld u m).mpr (ho m u hm)
  | @acquires t k _ hfree hown hheld =>
      rw [hown] at hm
      by_cases hk : m = k
      · subst hk
        rw [Function.update_self, Option.some.injEq] at hm
        exact (hheld u m).mpr (Or.inl ⟨hm.symm, rfl⟩)
      · rw [Function.update_of_ne hk] at hm
        exact (hheld u m).mpr (Or.inr (ho m u hm))
  | @releases t k _ pc hpc hc hown hheld =>
      rw [hown] at hm
      by_cases hk : m = k
      · subst hk
        rw [Function.update_self] at hm
        cases hm
      · rw [Function.update_of_ne hk] at hm
        exact (hheld u m).mpr ⟨ho m u hm, fun he => hk he.2⟩

/-- A step whose unlocks are the thread's own keeps the holders owners. -/
theorem HoldersOwn.step [DecidableEq R] (hh : HoldersOwn code holds s)
    (ht : Typed code entry holds) (hu : UnlocksOwn code holds s l)
    (h : Step code entry s l s') : HoldersOwn code holds s' := by
  intro u m hm
  cases h.lockChange ht with
  | quiet hown hheld =>
      rw [hown]
      exact hh u m ((hheld u m).mp hm)
  | @acquires t k _ hfree hown hheld =>
      rw [hown]
      rcases (hheld u m).mp hm with ⟨rfl, rfl⟩ | hold
      · exact Function.update_self ..
      · have howner := hh u m hold
        have hk : m ≠ k := by
          rintro rfl
          rw [hfree] at howner
          cases howner
        rw [Function.update_of_ne hk, howner]
  | @releases t k _ pc hpc hc hown hheld =>
      obtain ⟨hold, hne⟩ := (hheld u m).mp hm
      have howner := hh u m hold
      have hk : m ≠ k := by
        rintro rfl
        have hmine : holds pc m ∨ s.owner m = none := by
          rcases hc with ⟨next, hc⟩ | ⟨c, next, hc⟩
          · exact hu pc m next hpc hc
          · have hp := ht.point pc
            rw [hc] at hp
            exact Or.inl hp.1
        rcases hmine with hmine | hnone
        · have htm := hh t m (by rw [hpc]; exact hmine)
          rw [howner, Option.some.injEq] at htm
          exact hne ⟨htm, rfl⟩
        · rw [howner] at hnone
          cases hnone
      rw [hown, Function.update_of_ne hk, howner]

section Local

/-- The point of a call in progress. -/
def Thread.point : Thread Pc → Option Pc
  | .idle => none
  | .running pc => some pc
  | .asleep pc => some pc
  | .woken pc => some pc

/-- The points that can follow a point while `fresh` is the next identifier. -/
inductive Leads (code : Pc → Instr Pc L C R B F) (fresh : Nat) (pc : Pc) : Pc → Prop
  | lock {m next} (hc : code pc = .lock m next) : Leads code fresh pc next
  | unlock {m next} (hc : code pc = .unlock m next) : Leads code fresh pc next
  | wait {c m next} (hc : code pc = .wait c m next) : Leads code fresh pc next
  | signal {c next} (hc : code pc = .signal c next) : Leads code fresh pc next
  | broadcast {c next} (hc : code pc = .broadcast c next) : Leads code fresh pc next
  | access {r f b b' next} (hc : code pc = .access r f) (hf : f b = .ok (b', next)) :
      Leads code fresh pc next
  | alloc {next} (hc : code pc = .alloc next) : Leads code fresh pc (next (some fresh))
  | allocFails {next} (hc : code pc = .alloc next) : Leads code fresh pc (next none)
  | goto {next} (hc : code pc = .goto next) : Leads code fresh pc next

/-- A thread at `pc` can go on at `next`, woken only out of its `wait`. -/
inductive MovesFrom (code : Pc → Instr Pc L C R B F) (fresh : Nat) (th : Thread Pc)
    (pc next : Pc) : Prop
  | running (hpc : th = .running pc) (hn : Leads code fresh pc next) :
      MovesFrom code fresh th pc next
  | woken {c m} (hpc : th = .woken pc) (hc : code pc = .wait c m next) :
      MovesFrom code fresh th pc next

omit [DecidableEq L] in
theorem MovesFrom.leads {fresh : Nat} {th : Thread Pc} {pc next : Pc}
    (h : MovesFrom code fresh th pc next) : Leads code fresh pc next := by
  cases h with
  | running hpc hn => exact hn
  | woken hpc hc => exact .wait hc

omit [DecidableEq L] in
theorem MovesFrom.point {fresh : Nat} {th : Thread Pc} {pc next : Pc}
    (h : MovesFrom code fresh th pc next) : th.point = some pc := by
  cases h with
  | running hpc hn => rw [hpc]; rfl
  | woken hpc hc => rw [hpc]; rfl

/-- What a step does to the thread `u`. -/
inductive ThreadChange (code : Pc → Instr Pc L C R B F) (entry : Pc → Prop) (fresh : Nat)
    (l : Label T Pc) (u : T) (th th' : Thread Pc) : Prop
  | same (hl : l ≠ .step u) (h : th' = th) : ThreadChange code entry fresh l u th th'
  | wakes {pc} (hpc : th = .asleep pc) (hpc' : th' = .woken pc) :
      ThreadChange code entry fresh l u th th'
  | start {pc} (hl : l = .start u pc) (he : entry pc) (hpc : th = .idle)
      (hpc' : th' = .running pc) : ThreadChange code entry fresh l u th th'
  | moves {pc next} (hl : l = .step u) (hm : MovesFrom code fresh th pc next)
      (hpc' : th' = .running next) : ThreadChange code entry fresh l u th th'
  | waits {pc c m next} (hl : l = .step u) (hpc : th = .running pc)
      (hc : code pc = .wait c m next) (hpc' : th' = .asleep pc) :
      ThreadChange code entry fresh l u th th'
  | stop {pc} (hl : l = .step u) (hpc : th = .running pc) (hc : code pc = .stop)
      (hpc' : th' = .idle) : ThreadChange code entry fresh l u th th'

/-- A thread moves by its own steps only, and apart from them it can be woken. -/
theorem Step.threadChange [DecidableEq R] (h : Step code entry s l s') (u : T) :
    ThreadChange code entry s.fresh l u (s.threads u) (s'.threads u) := by
  have steps {t v : T} (hv : v ≠ t) : (Label.step t : Label T Pc) ≠ .step v := by
    rw [ne_eq, Label.step.injEq]
    exact hv.symm
  have moves {t : T} {pc next : Pc} {s₁ : State T Pc L R B}
      (hn : MovesFrom code s.fresh (s.threads t) pc next)
      (hth : ∀ v, v ≠ t → (Label.step t : Label T Pc) ≠ .step v → ThreadChange code entry s.fresh (.step t) v (s.threads v)
        (s₁.threads v)) :
      ThreadChange code entry s.fresh (.step t) u (s.threads u) ((s₁.goTo t next).threads u) := by
    by_cases hut : u = t
    · subst hut
      exact .moves rfl hn (State.goTo_self ..)
    · rw [State.goTo_of_ne _ _ _ hut]
      exact hth u hut (steps hut)
  cases h with
  | @start t pc hidle he =>
      by_cases hut : u = t
      · subst hut
        exact .start rfl he hidle (State.goTo_self ..)
      · exact .same (by simp) (State.goTo_of_ne _ _ _ hut)
  | lock hpc hc hfree => exact moves (.running hpc (.lock hc)) fun _ _ hl => .same hl rfl
  | unlock hpc hc => exact moves (.running hpc (.unlock hc)) fun _ _ hl => .same hl rfl
  | @wait t pc c m next hpc hc =>
      by_cases hut : u = t
      · subst hut
        exact .waits rfl hpc hc (Function.update_self ..)
      · exact .same (steps hut) (Function.update_of_ne hut ..)
  | @spurious t pc hpc =>
      by_cases hut : u = t
      · subst hut
        exact .wakes hpc (Function.update_self ..)
      · exact .same (by simp) (Function.update_of_ne hut ..)
  | relock hpc hc hfree => exact moves (.woken hpc hc) fun _ _ hl => .same hl rfl
  | @signal t pc c next v pc₁ hpc hc hv hs =>
      refine moves (.running hpc (.signal hc)) fun w _ hl => ?_
      by_cases hwv : w = v
      · subst hwv
        exact .wakes hv (Function.update_self ..)
      · exact .same hl (Function.update_of_ne hwv ..)
  | signalNone hpc hc hnone => exact moves (.running hpc (.signal hc)) fun _ _ hl => .same hl rfl
  | @broadcast t pc c next th hpc hc hall =>
      refine moves (.running hpc (.broadcast hc)) fun w _ hl => ?_
      rcases hall w with ⟨pc₁, hasleep, -, hw⟩ | ⟨-, hw⟩
      · exact .wakes hasleep hw
      · exact .same hl hw
  | access hpc hc hf => exact moves (.running hpc (.access hc hf)) fun _ _ hl => .same hl rfl
  | alloc hpc hc => exact moves (.running hpc (.alloc hc)) fun _ _ hl => .same hl rfl
  | allocFails hpc hc => exact moves (.running hpc (.allocFails hc)) fun _ _ hl => .same hl rfl
  | goto hpc hc => exact moves (.running hpc (.goto hc)) fun _ _ hl => .same hl rfl
  | @stop t pc hpc hc =>
      by_cases hut : u = t
      · subst hut
        exact .stop rfl hpc hc (Function.update_self ..)
      · exact .same (steps hut) (Function.update_of_ne hut ..)

/-- A running thread stays where it is while others step. -/
theorem Step.running_stays [DecidableEq R] {u : T} {pc : Pc} (h : Step code entry s l s')
    (hpc : s.threads u = .running pc) (hl : l ≠ .step u) : s'.threads u = .running pc := by
  cases h.threadChange u with
  | same hs he => rw [he, hpc]
  | wakes hold hnew =>
      rw [hpc] at hold
      cases hold
  | start hs he hidle hnew =>
      rw [hpc] at hidle
      cases hidle
  | moves hs hm hnew => exact absurd hs hl
  | waits hs hold hc hnew => exact absurd hs hl
  | stop hs hold hc hnew => exact absurd hs hl

/-- The rule for properties of single points: they hold of every call in progress when
entries have them and steps keep them. -/
theorem Step.point_invariant [DecidableEq R] {P : Pc → Prop} (h : Step code entry s l s')
    (hentry : ∀ pc, entry pc → P pc)
    (hmove : ∀ t pc next, l = .step t → MovesFrom code s.fresh (s.threads t) pc next →
      P pc → P next)
    (hs : ∀ t pc, (s.threads t).point = some pc → P pc) {t : T} {pc : Pc}
    (hpc : (s'.threads t).point = some pc) : P pc := by
  have point_of {th : Thread Pc} {p : Pc} (hth : s'.threads t = th) (hp : th.point = some p) :
      pc = p := by
    rw [hth, hp] at hpc
    exact (Option.some.inj hpc).symm
  cases h.threadChange t with
  | same hl he =>
      rw [he] at hpc
      exact hs t pc hpc
  | wakes hold hnew =>
      obtain rfl := point_of hnew rfl
      exact hs t _ (by rw [hold]; rfl)
  | start hl he hidle hnew =>
      obtain rfl := point_of hnew rfl
      exact hentry _ he
  | moves hl hm hnew =>
      obtain rfl := point_of hnew rfl
      exact hmove t _ _ hl hm (hs t _ hm.point)
  | waits hl hold hc hnew =>
      obtain rfl := point_of hnew rfl
      exact hs t _ (by rw [hold]; rfl)
  | stop hl hold hc hnew =>
      rw [hnew] at hpc
      cases hpc

section Inversion
variable [DecidableEq R]

/-- The step of a thread that runs at `pc` with the instruction there. -/
def Executes (code : Pc → Instr Pc L C R B F) (s : State T Pc L R B) (t : T) (pc : Pc)
    (s' : State T Pc L R B) : Instr Pc L C R B F → Prop
  | .lock m next => s.owner m = none ∧ s' = (s.setOwner m (some t)).goTo t next
  | .unlock m next => s' = (s.setOwner m none).goTo t next
  | .wait _ m _ => s' = (s.setOwner m none).setThread t (.asleep pc)
  | .signal c next =>
      (∃ u pc', s.threads u = .asleep pc' ∧ SleepsOn code (.asleep pc') c ∧
        s' = (s.setThread u (.woken pc')).goTo t next) ∨
      (∀ u, ¬ SleepsOn code (s.threads u) c) ∧ s' = s.goTo t next
  | .broadcast c next => ∃ th : T → Thread Pc,
      (∀ u, (∃ pc', s.threads u = .asleep pc' ∧ SleepsOn code (s.threads u) c ∧
        th u = .woken pc') ∨ (¬ SleepsOn code (s.threads u) c ∧ th u = s.threads u)) ∧
      s' = ({ s with threads := th } : State T Pc L R B).goTo t next
  | .access r f => ∃ b next, f (s.objects r) = .ok (b, next) ∧
      s' = (s.setObject r b).goTo t next
  | .alloc next =>
      s' = ({ s with fresh := s.fresh + 1 } : State T Pc L R B).goTo t (next (some s.fresh)) ∨
        s' = s.goTo t (next none)
  | .goto next => s' = s.goTo t next
  | .stop => s' = s.setThread t .idle

/-- The instruction at a running point decides which step the thread takes. -/
theorem Step.executes {t : T} {pc : Pc} (hpc : s.threads t = .running pc)
    (h : Step code entry s (.step t) s') : Executes code s t pc s' (code pc) := by
  have at_pc {pc' : Pc} (hpc' : s.threads t = .running pc') : pc' = pc := by
    rw [hpc] at hpc'
    cases hpc'
    rfl
  cases h with
  | relock hpc' hc hfree =>
      rw [hpc] at hpc'
      cases hpc'
  | lock hpc' hc hfree =>
      obtain rfl := at_pc hpc'
      rw [hc]
      exact ⟨hfree, rfl⟩
  | unlock hpc' hc =>
      obtain rfl := at_pc hpc'
      rw [hc]
      rfl
  | wait hpc' hc =>
      obtain rfl := at_pc hpc'
      rw [hc]
      rfl
  | signal hpc' hc hu hs =>
      obtain rfl := at_pc hpc'
      rw [hc]
      exact Or.inl ⟨_, _, hu, hs, rfl⟩
  | signalNone hpc' hc hu =>
      obtain rfl := at_pc hpc'
      rw [hc]
      exact Or.inr ⟨hu, rfl⟩
  | broadcast hpc' hc hall =>
      obtain rfl := at_pc hpc'
      rw [hc]
      exact ⟨_, hall, rfl⟩
  | access hpc' hc hf =>
      obtain rfl := at_pc hpc'
      rw [hc]
      exact ⟨_, _, hf, rfl⟩
  | alloc hpc' hc =>
      obtain rfl := at_pc hpc'
      rw [hc]
      exact Or.inl rfl
  | allocFails hpc' hc =>
      obtain rfl := at_pc hpc'
      rw [hc]
      exact Or.inr rfl
  | goto hpc' hc =>
      obtain rfl := at_pc hpc'
      rw [hc]
      rfl
  | stop hpc' hc =>
      obtain rfl := at_pc hpc'
      rw [hc]
      rfl

/-- What a step does to the objects: at most one access, by the thread that steps. -/
inductive ObjectChange (code : Pc → Instr Pc L C R B F) (s : State T Pc L R B)
    (l : Label T Pc) (s' : State T Pc L R B) : Prop
  | same (h : s'.objects = s.objects)
      (hq : ∀ t pc, l = .step t → s.threads t = .running pc → ∀ r f, code pc ≠ .access r f) :
      ObjectChange code s l s'
  | access {t pc r f b next} (hl : l = .step t) (hpc : s.threads t = .running pc)
      (hc : code pc = .access r f) (hf : f (s.objects r) = .ok (b, next))
      (hs : s' = (s.setObject r b).goTo t next) : ObjectChange code s l s'

theorem Step.objectChange (h : Step code entry s l s') : ObjectChange code s l s' := by
  by_cases hacc : ∃ t pc, l = .step t ∧ s.threads t = .running pc ∧ ∃ r f, code pc = .access r f
  · obtain ⟨t, pc, rfl, hpc, r, f, hc⟩ := hacc
    have hs := h.executes hpc
    rw [hc] at hs
    obtain ⟨b, next, hf, hs⟩ := hs
    exact .access rfl hpc hc hf hs
  · have hobjects : s'.objects = s.objects := by
      cases h with
      | access hpc hc hf => exact absurd ⟨_, _, rfl, hpc, _, _, hc⟩ hacc
      | _ => rfl
    exact .same hobjects fun t pc hl hpc r f hc => hacc ⟨t, pc, hl, hpc, r, f, hc⟩

/-- Identifiers in use stay in use. -/
theorem Step.fresh_le (h : Step code entry s l s') : s.fresh ≤ s'.fresh := by
  cases h with
  | alloc => exact Nat.le_succ _
  | _ => exact Nat.le_refl _

end Inversion

end Local

section Discipline
variable (code) (holds) (guard : R → L)

/-- The thread unlocks and accesses only what it holds by type. -/
def Clean (pc : Pc) : Prop :=
  match code pc with
  | .unlock m _ => holds pc m
  | .access r _ => holds pc (guard r)
  | _ => True

/-- Every access about to happen is made by the owner of the object's mutex, and
every unlock by the owner of the mutex. -/
def Disciplined (s : State T Pc L R B) : Prop :=
  ∀ t pc, s.threads t = .running pc →
    match code pc with
    | .unlock m _ => s.owner m = some t
    | .access r _ => s.owner (guard r) = some t
    | _ => True

variable {code} {holds} {guard}

omit [DecidableEq T] [DecidableEq L] in
/-- When owners and holders agree, discipline is a matter of the program points alone. -/
theorem disciplined_iff_clean (ho : OwnersHold code holds s) (hh : HoldersOwn code holds s) :
    Disciplined code guard s ↔ ∀ t pc, s.threads t = .running pc → Clean code holds guard pc := by
  have hiff (t : T) (pc : Pc) (m : L) (hpc : s.threads t = .running pc) :
      s.owner m = some t ↔ holds pc m := by
    constructor
    · intro h
      have := ho m t h
      rwa [hpc] at this
    · intro h
      exact hh t m (by rw [hpc]; exact h)
  refine forall_congr' fun t => forall_congr' fun pc => forall_congr' fun hpc => ?_
  unfold Clean
  cases hc : code pc <;> simp [hiff t pc _ hpc]

end Discipline

section Waiting
variable (code) (s)

/-- Thread `t` is blocked on the mutex `m`. -/
def Needs (t : T) (m : L) : Prop :=
  (∃ pc next, s.threads t = .running pc ∧ code pc = .lock m next) ∨
    ∃ pc c next, s.threads t = .woken pc ∧ code pc = .wait c m next

/-- Thread `t` waits for a mutex that `u` owns. -/
def WaitsFor (t u : T) : Prop := ∃ m, Needs code s t m ∧ s.owner m = some u

end Waiting

end Invariants

end UoftOs.Lib.Threads
