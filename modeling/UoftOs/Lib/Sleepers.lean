import UoftOs.Lib.CondVar
import UoftOs.Lib.Threads

/-!
# Condition variables of a threaded program

The threads of a program that wait on a condition variable make up a `CondVar`. It may take
for asleep a thread that has woken up unsignalled: the signals and broadcasts of the program
are then signals and broadcasts of the sets. The second part is about one mutex whose owner
is known by type.
-/

namespace UoftOs.Lib.Threads

variable {T Pc L C R B F : Type}

section Waiting
variable (code : Pc → Instr Pc L C R B F)

/-- The thread is in a `wait` on the condition variable `c`, asleep or woken. -/
def WaitsOn (th : Thread Pc) (c : C) : Prop :=
  ∃ pc m next, (th = .asleep pc ∨ th = .woken pc) ∧ code pc = .wait c m next

/-- `k` has the threads that wait on `c`, and those asleep are asleep in `k`. -/
structure Sleepers [DecidableEq T] (threads : T → Thread Pc) (c : C) (k : CondVar T) : Prop where
  proper : k.Proper
  waiters : ∀ t, t ∈ k.waiters ↔ WaitsOn code (threads t) c
  asleep : ∀ t, SleepsOn code (threads t) c → t ∈ k.asleep

variable {code} {th th' : Thread Pc} {pc next : Pc} {m : L} {c c' : C}

theorem SleepsOn.waitsOn (h : SleepsOn code th c) : WaitsOn code th c := by
  obtain ⟨pc, m, next, rfl, hc⟩ := h
  exact ⟨pc, m, next, .inl rfl, hc⟩

theorem not_waitsOn_running : ¬ WaitsOn code (.running pc) c := by
  rintro ⟨_, _, _, h | h, -⟩ <;> cases h

theorem not_waitsOn_idle : ¬ WaitsOn code .idle c := by
  rintro ⟨_, _, _, h | h, -⟩ <;> cases h

theorem waitsOn_asleep (hc : code pc = .wait c m next) : WaitsOn code (.asleep pc) c' ↔ c = c' := by
  constructor
  · rintro ⟨_, _, _, h | h, hc'⟩ <;> cases h
    rw [hc] at hc'
    cases hc'
    rfl
  · rintro rfl
    exact ⟨pc, m, next, .inl rfl, hc⟩

/-- Waking up is going on waiting. -/
theorem waitsOn_woken : WaitsOn code (.woken pc) c ↔ WaitsOn code (.asleep pc) c := by
  constructor
  · rintro ⟨_, m, next, h | h, hc⟩ <;> cases h
    exact ⟨pc, m, next, .inl rfl, hc⟩
  · rintro ⟨_, m, next, h | h, hc⟩ <;> cases h
    exact ⟨pc, m, next, .inr rfl, hc⟩

theorem not_sleepsOn_woken : ¬ SleepsOn code (.woken pc) c := by
  rintro ⟨_, _, _, h, -⟩
  cases h

end Waiting

section Sleepers
variable [DecidableEq T] {code : Pc → Instr Pc L C R B F} {threads threads' : T → Thread Pc}
  {c : C} {k : CondVar T} {t u : T} {pc next : Pc} {m : L}

/-- Threads may wake up, and change in any way that is not waiting on `c`. -/
theorem Sleepers.congr (h : Sleepers code threads c k)
    (hw : ∀ t, WaitsOn code (threads' t) c ↔ WaitsOn code (threads t) c)
    (ha : ∀ t, SleepsOn code (threads' t) c → SleepsOn code (threads t) c) :
    Sleepers code threads' c k where
  proper := h.proper
  waiters t := (h.waiters t).trans (hw t).symm
  asleep t ht := h.asleep t (ha t ht)

/-- One thread changes, and it waits on `c` neither before nor afterwards. -/
theorem Sleepers.update (h : Sleepers code threads c k) {th : Thread Pc}
    (hbefore : ¬ WaitsOn code (threads t) c) (hafter : ¬ WaitsOn code th c) :
    Sleepers code (Function.update threads t th) c k := by
  refine h.congr (fun u => ?_) fun u hu => ?_
  · by_cases hut : u = t
    · subst hut
      rw [Function.update_self]
      exact iff_of_false hafter hbefore
    · rw [Function.update_of_ne hut]
  · by_cases hut : u = t
    · subst hut
      rw [Function.update_self] at hu
      exact absurd hu.waitsOn hafter
    · rwa [Function.update_of_ne hut] at hu

/-- A thread wakes up. -/
theorem Sleepers.wake (h : Sleepers code threads c k) (hu : threads u = .asleep pc) :
    Sleepers code (Function.update threads u (.woken pc)) c k := by
  refine h.congr (fun v => ?_) fun v hv => ?_
  · by_cases hvu : v = u
    · subst hvu
      rw [Function.update_self, hu, waitsOn_woken]
    · rw [Function.update_of_ne hvu]
  · by_cases hvu : v = u
    · subst hvu
      rw [Function.update_self] at hv
      exact absurd hv not_sleepsOn_woken
    · rwa [Function.update_of_ne hvu] at hv

/-- A thread of `k` that is not asleep counts as woken. -/
theorem Sleepers.mark (h : Sleepers code threads c k) (hu : u ∈ k.asleep)
    (hawake : ¬ SleepsOn code (threads u) c) :
    Sleepers code threads c ⟨k.asleep.erase u, insert u k.woken⟩ where
  proper := (CondVar.Signal.one hu).proper h.proper
  waiters t := by
    rw [(CondVar.Signal.one hu).waiters]
    exact h.waiters t
  asleep t ht := by
    refine Finset.mem_erase.mpr ⟨?_, h.asleep t ht⟩
    rintro rfl
    exact hawake ht

/-- A signal that wakes a sleeper is a signal of the sets. -/
theorem Sleepers.signal (h : Sleepers code threads c k) (hu : threads u = .asleep pc)
    (hs : SleepsOn code (.asleep pc) c) :
    ∃ v, CondVar.Signal k v ∧ Sleepers code (Function.update threads u (.woken pc)) c v := by
  have hmem : u ∈ k.asleep := h.asleep u (by rwa [hu])
  refine ⟨_, .one hmem, (h.wake hu).mark hmem ?_⟩
  rw [Function.update_self]
  exact not_sleepsOn_woken

/-- A signal that nobody hears wakes a thread of the sets that is awake already, if any. -/
theorem Sleepers.signalNone (h : Sleepers code threads c k)
    (hnone : ∀ u, ¬ SleepsOn code (threads u) c) :
    ∃ v, CondVar.Signal k v ∧ Sleepers code threads c v := by
  rcases k.asleep.eq_empty_or_nonempty with hempty | ⟨u, hu⟩
  · exact ⟨k, .none hempty, h⟩
  · exact ⟨_, .one hu, h.mark hu (hnone u)⟩

/-- A broadcast is one of the sets. -/
theorem Sleepers.broadcast (h : Sleepers code threads c k)
    (hall : ∀ u, (∃ pc, threads u = .asleep pc ∧ SleepsOn code (threads u) c ∧
      threads' u = .woken pc) ∨ (¬ SleepsOn code (threads u) c ∧ threads' u = threads u)) :
    Sleepers code threads' c k.broadcast where
  proper := CondVar.broadcast_proper
  waiters t := by
    rw [CondVar.broadcast_waiters, h.waiters]
    rcases hall t with ⟨pc, hpc, -, hpc'⟩ | ⟨-, heq⟩
    · rw [hpc, hpc', waitsOn_woken]
    · rw [heq]
  asleep t ht := by
    rcases hall t with ⟨pc, -, -, hpc'⟩ | ⟨hnot, heq⟩
    · rw [hpc'] at ht
      exact absurd ht not_sleepsOn_woken
    · rw [heq] at ht
      exact absurd ht hnot

/-- A thread goes to sleep. -/
theorem Sleepers.sleep (h : Sleepers code threads c k) (hnot : ¬ WaitsOn code (threads t) c)
    (hc : code pc = .wait c m next) :
    Sleepers code (Function.update threads t (.asleep pc)) c (k.sleep t) where
  proper := by
    refine CondVar.sleep_proper h.proper fun hwoken => hnot ((h.waiters t).mp ?_)
    exact Finset.mem_union_right _ hwoken
  waiters u := by
    rw [CondVar.sleep_waiters, Finset.mem_insert, h.waiters]
    by_cases hut : u = t
    · subst hut
      rw [Function.update_self, waitsOn_asleep hc]
      exact iff_of_true (.inl rfl) rfl
    · rw [Function.update_of_ne hut]
      exact or_iff_right hut
  asleep u hu := by
    by_cases hut : u = t
    · subst hut
      exact Finset.mem_insert_self _ _
    · rw [Function.update_of_ne hut] at hu
      exact Finset.mem_insert_of_mem (h.asleep u hu)

/-- A waiting thread goes on. -/
theorem Sleepers.resume (h : Sleepers code threads c k) {th : Thread Pc}
    (hnot : ¬ WaitsOn code th c) :
    Sleepers code (Function.update threads t th) c (k.resume t) where
  proper := CondVar.resume_proper h.proper t
  waiters u := by
    rw [CondVar.resume_waiters, Finset.mem_erase, h.waiters]
    by_cases hut : u = t
    · subst hut
      rw [Function.update_self]
      exact iff_of_false (fun hu => hu.1 rfl) hnot
    · rw [Function.update_of_ne hut]
      exact and_iff_right hut
  asleep u hu := by
    by_cases hut : u = t
    · subst hut
      rw [Function.update_self] at hu
      exact absurd hu.waitsOn hnot
    · rw [Function.update_of_ne hut] at hu
      exact Finset.mem_erase.mpr ⟨hut, h.asleep u hu⟩

end Sleepers

section Exclusion
variable [DecidableEq T] [DecidableEq L] [DecidableEq R] {code : Pc → Instr Pc L C R B F}
  {entry : Pc → Prop} {holds : Pc → L → Prop} {s s' : State T Pc L R B} {l : Label T Pc} {m : L}

/-- The owner of the mutex `m` is the thread that holds it by type. -/
def Exclusive (code : Pc → Instr Pc L C R B F) (holds : Pc → L → Prop) (m : L)
    (s : State T Pc L R B) : Prop :=
  ∀ t, Held code holds (s.threads t) m ↔ s.owner m = some t

/-- Unlocks of `m` by threads that hold it keep `m` exclusive. -/
theorem Exclusive.step (he : Exclusive code holds m s) (ht : Typed code entry holds)
    (hu : ∀ t pc next, l = .step t → s.threads t = .running pc → code pc = .unlock m next →
      holds pc m)
    (h : Step code entry s l s') : Exclusive code holds m s' := by
  intro u
  cases h.lockChange ht with
  | quiet hown hheld => rw [hheld, he, hown]
  | @acquires t k _ hfree hown hheld =>
      rw [hheld, he, hown]
      by_cases hk : m = k
      · subst hk
        rw [Function.update_self, hfree]
        simp [eq_comm]
      · rw [Function.update_of_ne hk]
        exact or_iff_right fun h => hk h.2
  | @releases t k _ pc hpc hc hown hheld =>
      rw [hheld, he, hown]
      by_cases hk : m = k
      · subst hk
        have hmine : holds pc m := by
          rcases hc with ⟨next, hc⟩ | ⟨c, next, hc⟩
          · exact hu t pc next rfl hpc hc
          · have hp := ht.point pc
            rw [hc] at hp
            exact hp.1
        have howner : s.owner m = some t := (he t).mp (by rw [hpc]; exact hmine)
        rw [Function.update_self, howner]
        simp [eq_comm]
      · rw [Function.update_of_ne hk]
        exact and_iff_left fun h => hk h.2

end Exclusion

section Updates
variable (s : State T Pc L R B)

theorem State.setOwner_self [DecidableEq L] (m : L) (o : Option T) :
    (s.setOwner m o).owner m = o := Function.update_self ..

theorem State.setOwner_of_ne [DecidableEq L] {m k : L} (o : Option T) (h : k ≠ m) :
    (s.setOwner m o).owner k = s.owner k := Function.update_of_ne h ..

theorem State.setObject_object [DecidableEq R] (r : R) (b : B) :
    (s.setObject r b).objects r = b := Function.update_self ..

theorem State.setObject_of_ne [DecidableEq R] {r k : R} (b : B) (h : k ≠ r) :
    (s.setObject r b).objects k = s.objects k := Function.update_of_ne h ..

/-- What holds of the new object and of every other one at its place holds at every place. -/
theorem State.forall_setObject [DecidableEq R] {P : R → B → Prop} {r : R} {b : B} (hb : P r b)
    (h : ∀ k, k ≠ r → P k (s.objects k)) (k : R) : P k ((s.setObject r b).objects k) :=
  (Function.forall_update_iff s.objects P).mpr ⟨hb, h⟩ k

/-- What holds of the thread that goes on and of every other one holds of every thread. -/
theorem State.forall_goTo [DecidableEq T] {P : T → Thread Pc → Prop} {t : T} {pc : Pc}
    (ht : P t (.running pc)) (h : ∀ u, u ≠ t → P u (s.threads u)) (u : T) :
    P u ((s.goTo t pc).threads u) := (Function.forall_update_iff s.threads P).mpr ⟨ht, h⟩ u

end Updates

end UoftOs.Lib.Threads
