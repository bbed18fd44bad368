import UoftOs.MsgQueue.Clients

/-!
# Calls and their purposes over whole runs

While the system runs, every thread in a call on the queue uses a handle for a purpose that
its statement agrees with, every handle in use is open, and one that is being closed is used
by nobody else.
-/

namespace UoftOs.MsgQueue

open Lib.Threads Lib.Transition

variable {T Q : Type}

/-- The calls of the threads at `point` are those that the clients know of. -/
structure Clients.Serving (q : Q) (point : T → Option (Pc Q)) (k : Clients T) : Prop where
  purpose : ∀ t pc, point t = some pc → pc.serves = some q →
    ∃ x, k.uses t = some x ∧ pc.Purpose k.flags x ∧ (¬ pc.Stored → k.stored t = [])
  idle : ∀ t, (∀ pc, point t = some pc → pc.serves ≠ some q) → k.uses t = none
  inUse : ∀ t x, k.uses t = some x → x.handle ∈ k.handles
  numbered : ∀ h ∈ k.handles, h < k.next
  alone : ∀ t u h x, k.uses t = some (.closing h) → k.uses u = some x → x.handle = h → u = t
  promised : ∀ t h c, k.uses t = some (.call h c) →
    c.WellPassed ∧ Queue.Call.LengthFits c ∧ c.Waits (k.flags h)

variable [DecidableEq T] {q : Q} {point : T → Option (Pc Q)} {k k' : Clients T} {t : T}
  {pc next : Pc Q} {x : Use} {flags flags' : HandleId → CInt}

omit [DecidableEq T] in
/-- A purpose reads the flags of its own handle only. -/
theorem Pc.Purpose.congr (h : pc.Purpose flags x) (hf : flags' x.handle = flags x.handle) :
    pc.Purpose flags' x := by
  cases x <;> cases pc <;>
    simp_all [Pc.Purpose, Use.Opens, Use.Opening, Use.Closes, Use.Closing, Use.Calls,
      Use.Calling, Use.handle]

omit [DecidableEq T] in
/-- No call is in progress on a queue that has just been created. -/
theorem Clients.initial_serving (flags : CInt) (hpoint : ∀ t, point t = none) :
    Clients.Serving q point (Clients.initial flags) where
  purpose t pc hpc := by
    rw [hpoint] at hpc
    cases hpc
  idle _ _ := rfl
  inUse _ _ h := by cases h
  numbered h hh := by
    obtain rfl := Finset.mem_singleton.mp hh
    exact Nat.zero_lt_one
  alone _ _ _ _ h := by cases h
  promised _ _ _ h := by cases h

namespace Clients.Serving

/-- A call starts. -/
theorem enter (hs : Serving q point k) (hserves : pc.serves = some q)
    (hp : pc.Purpose k.flags x) (hx : x.handle ∈ k.handles)
    (hfree : ∀ u y, k.uses u = some y → y = .closing x.handle → False)
    (hclose : ∀ h, x = .closing h → ∀ u y, k.uses u = some y → y.handle ≠ h)
    (hpromised : ∀ h c, x = .call h c →
      c.WellPassed ∧ Queue.Call.LengthFits c ∧ c.Waits (k.flags h)) :
    Serving q (Function.update point t (some pc)) (k.enter t x) where
  purpose u pc' hpc' hq := by
    by_cases hut : u = t
    · subst hut
      rw [Function.update_self] at hpc'
      cases hpc'
      exact ⟨x, Function.update_self .., hp, fun _ => Function.update_self ..⟩
    · rw [Function.update_of_ne hut] at hpc'
      simp only [Clients.enter, Function.update_of_ne hut]
      exact hs.purpose u pc' hpc' hq
  idle u hu := by
    by_cases hut : u = t
    · subst hut
      exact absurd hserves (hu pc (Function.update_self ..))
    · rw [Function.update_of_ne hut] at hu
      simp only [Clients.enter, Function.update_of_ne hut]
      exact hs.idle u hu
  inUse u y hy := by
    by_cases hut : u = t
    · subst hut
      simp only [Clients.enter, Function.update_self, Option.some.injEq] at hy
      exact hy ▸ hx
    · simp only [Clients.enter, Function.update_of_ne hut] at hy
      exact hs.inUse u y hy
  numbered := hs.numbered
  alone v u h y hv hu hy := by
    by_cases hvt : v = t
    · subst hvt
      simp only [Clients.enter, Function.update_self, Option.some.injEq] at hv
      by_contra huv
      simp only [Clients.enter, Function.update_of_ne huv] at hu
      exact hclose h hv u y hu hy
    · simp only [Clients.enter, Function.update_of_ne hvt] at hv
      by_cases hut : u = t
      · subst hut
        simp only [Clients.enter, Function.update_self, Option.some.injEq] at hu
        subst hu
        exact (hfree v _ hv (by rw [hy])).elim
      · simp only [Clients.enter, Function.update_of_ne hut] at hu
        exact hs.alone v u h y hv hu hy
  promised u h c hu := by
    by_cases hut : u = t
    · subst hut
      simp only [Clients.enter, Function.update_self, Option.some.injEq] at hu
      exact hpromised h c hu
    · simp only [Clients.enter, Function.update_of_ne hut] at hu
      exact hs.promised u h c hu

/-- A thread moves within a call, or outside of all. -/
theorem move (hs : Serving q point k) (hpc : point t = some pc)
    (hserves : next.serves = some q ↔ pc.serves = some q)
    (hp : pc.serves = some q → ∀ x, pc.Purpose k.flags x → next.Purpose k.flags x)
    {stored : T → List UInt8} (hothers : ∀ u, u ≠ t → stored u = k.stored u)
    (hst : pc.serves = some q → ¬ next.Stored → ¬ pc.Stored ∧ stored t = k.stored t) :
    Serving q (Function.update point t (some next)) { k with stored } where
  purpose u pc' hpc' hq := by
    by_cases hut : u = t
    · subst hut
      rw [Function.update_self] at hpc'
      cases hpc'
      have hq' := hserves.mp hq
      obtain ⟨x, hx, hpurpose, hstored⟩ := hs.purpose u pc hpc hq'
      refine ⟨x, hx, hp hq' x hpurpose, fun hn => ?_⟩
      obtain ⟨hn', hsame⟩ := hst hq' hn
      exact hsame.trans (hstored hn')
    · rw [Function.update_of_ne hut] at hpc'
      obtain ⟨x, hx, hpurpose, hstored⟩ := hs.purpose u pc' hpc' hq
      exact ⟨x, hx, hpurpose, fun hn => (hothers u hut).trans (hstored hn)⟩
  idle u hu := by
    refine hs.idle u fun pc' hpc' hq => ?_
    by_cases hut : u = t
    · subst hut
      rw [hpc, Option.some.injEq] at hpc'
      subst hpc'
      exact hu next (Function.update_self ..) (hserves.mpr hq)
    · exact hu pc' (by rw [Function.update_of_ne hut]; exact hpc') hq
  inUse := hs.inUse
  numbered := hs.numbered
  alone := hs.alone
  promised := hs.promised

/-- A call ends: its use is gone, and the handles of the others keep their flags. -/
theorem release (hs : Serving q point k) (hnext : next.serves ≠ some q)
    (huses : k'.uses = Function.update k.uses t none) (hstored : k'.stored = k.stored)
    (hflags : ∀ h ∈ k.handles, k'.flags h = k.flags h)
    (hkept : ∀ u x, u ≠ t → k.uses u = some x → x.handle ∈ k'.handles)
    (hnumbered : ∀ h ∈ k'.handles, h < k'.next) :
    Serving q (Function.update point t (some next)) k' := by
  have other {u : T} {x : Use} (hu : k'.uses u = some x) : u ≠ t ∧ k.uses u = some x := by
    rw [huses] at hu
    by_cases hut : u = t
    · subst hut
      rw [Function.update_self] at hu
      cases hu
    · rw [Function.update_of_ne hut] at hu
      exact ⟨hut, hu⟩
  refine ⟨fun u pc' hpc' hq => ?_, fun u hu => ?_, fun u x hu => ?_, hnumbered,
    fun v u h x hv hu => ?_, fun u h c hu => ?_⟩
  · by_cases hut : u = t
    · subst hut
      rw [Function.update_self] at hpc'
      cases hpc'
      exact absurd hq hnext
    · rw [Function.update_of_ne hut] at hpc'
      obtain ⟨x, hx, hpurpose, hst⟩ := hs.purpose u pc' hpc' hq
      refine ⟨x, by rw [huses, Function.update_of_ne hut, hx],
        hpurpose.congr (hflags _ (hs.inUse u x hx)), fun hn => ?_⟩
      rw [hstored, hst hn]
  · by_cases hut : u = t
    · subst hut
      rw [huses, Function.update_self]
    · rw [Function.update_of_ne hut] at hu
      rw [huses, Function.update_of_ne hut]
      exact hs.idle u hu
  · exact hkept u x (other hu).1 (other hu).2
  · exact hs.alone v u h x (other hv).2 (other hu).2
  · have hold := (other hu).2
    obtain ⟨hpassed, hfit, hwaits⟩ := hs.promised u h c hold
    refine ⟨hpassed, hfit, ?_⟩
    rw [hflags h (hs.inUse u _ hold)]
    exact hwaits

/-- A call of the clients starts. -/
theorem starts (hs : Serving q point k) (hidle : point t = none) (he : IsEntry pc)
    (h : Starts q k t pc k') : Serving q (Function.update point t (some pc)) k' := by
  have free {h : HandleId} (hh : k.Usable h) (u : T) (y : Use) (hu : k.uses u = some y)
      (hy : y = .closing h) : False := hh.2 u (hy ▸ hu)
  cases h with
  | @read c h hq hh hf =>
      subst hq
      refine hs.enter rfl ⟨hf, rfl⟩ hh.1 (free hh) (fun _ => Use.noConfusion) ?_
      rintro _ _ ⟨⟩
      exact ⟨trivial, trivial, trivial⟩
  | @write c h hq hh hf hp hfit hw =>
      subst hq
      refine hs.enter rfl ⟨hf, rfl⟩ hh.1 (free hh) (fun _ => Use.noConfusion) ?_
      rintro _ _ ⟨⟩
      exact ⟨hp, hfit, by rw [hf]; exact hw⟩
  | @«open» h flags hh =>
      have hvalid : hasAny flags (~~~allFlags) = false := by
        obtain ⟨e, he⟩ := he
        cases e <;> simp only [Entry.start] at he <;> (repeat' split at he) <;> cases he
        simpa using ‹¬ hasAny flags (~~~allFlags) = true›
      refine hs.enter rfl ⟨rfl, hvalid⟩ hh.1 (free hh) (fun _ => Use.noConfusion) ?_
      rintro _ _ ⟨⟩
  | @close h hh hfree =>
      refine hs.enter rfl rfl hh (fun u y hu hy => hfree u y hu (by rw [hy]; rfl)) ?_ ?_
      · rintro _ ⟨⟩
        exact hfree
      · rintro _ _ ⟨⟩
  | elsewhere hq =>
      refine ⟨fun u pc' hpc' hq' => ?_, fun u hu => ?_, hs.inUse, hs.numbered, hs.alone,
        hs.promised⟩
      · by_cases hut : u = t
        · subst hut
          rw [Function.update_self] at hpc'
          cases hpc'
          exact absurd hq' hq
        · rw [Function.update_of_ne hut] at hpc'
          exact hs.purpose u pc' hpc' hq'
      · refine hs.idle u fun pc' hpc' => hu pc' ?_
        have hut : u ≠ t := by
          rintro rfl
          rw [hidle] at hpc'
          cases hpc'
        rwa [Function.update_of_ne hut]

/-- A thread leaves the program. -/
theorem stop (hs : Serving q point k) (hpc : point t = some pc) (hserves : pc.serves ≠ some q) :
    Serving q (Function.update point t none) k := by
  refine ⟨fun u pc' hpc' => ?_, fun u hu => ?_, hs.inUse, hs.numbered, hs.alone, hs.promised⟩
  · by_cases hut : u = t
    · subst hut
      rw [Function.update_self] at hpc'
      cases hpc'
    · rw [Function.update_of_ne hut] at hpc'
      exact hs.purpose u pc' hpc'
  · refine hs.idle u fun pc' hpc' => ?_
    by_cases hut : u = t
    · subst hut
      rw [hpc, Option.some.injEq] at hpc'
      exact hpc' ▸ hserves
    · exact hu pc' (by rwa [Function.update_of_ne hut])

omit [DecidableEq T] in
/-- The purpose of a call in progress. -/
theorem purpose_eq (hs : Serving q point k) (hpc : point t = some pc)
    (hserves : pc.serves = some q) : ∃ x, k.uses t = some x ∧ pc.Purpose k.flags x := by
  obtain ⟨x, hx, hp, -⟩ := hs.purpose t pc hpc hserves
  exact ⟨x, hx, hp⟩

theorem opened (hs : Serving q point k) (hnext : next.serves ≠ some q) (hx : k.uses t = some x)
    (hp : x.Opening) : Serving q (Function.update point t (some next)) (k.opened t) := by
  cases x with
  | call => exact hp.elim
  | closing => exact hp.elim
  | opening h fl =>
      have hk : k.opened t = { k with
          handles := insert k.next k.handles
          next := k.next + 1
          flags := Function.update k.flags k.next fl
          uses := Function.update k.uses t none } := by
        rw [Clients.opened, hx]
      rw [hk]
      refine hs.release hnext rfl rfl (fun h hh => ?_) (fun u y _ hu => ?_) fun h hh => ?_
      · exact Function.update_of_ne (Nat.ne_of_lt (hs.numbered h hh)) ..
      · exact Finset.mem_insert_of_mem (hs.inUse u y hu)
      · rcases Finset.mem_insert.mp hh with rfl | hh
        · exact Nat.lt_succ_self _
        · exact Nat.lt_succ_of_lt (hs.numbered h hh)

theorem closed (hs : Serving q point k) (hnext : next.serves ≠ some q) (hx : k.uses t = some x)
    (hp : x.Closing) : Serving q (Function.update point t (some next)) (k.closed t) := by
  cases x with
  | call => exact hp.elim
  | opening => exact hp.elim
  | closing h =>
      have hk : k.closed t = { k with
          handles := k.handles.erase h, uses := Function.update k.uses t none } := by
        rw [Clients.closed, hx]
      rw [hk]
      refine hs.release hnext rfl rfl (fun _ _ => rfl) (fun u y hut hu => ?_) fun h' hh => ?_
      · refine Finset.mem_erase.mpr ⟨fun hy => hut (hs.alone t u h y hx hu hy), ?_⟩
        exact hs.inUse u y hu
      · exact hs.numbered h' (Finset.mem_of_mem_erase hh)

theorem returned (hs : Serving q point k) (hnext : next.serves ≠ some q)
    (hx : k.uses t = some x) (hp : x.Calling) (value : Int) :
    Serving q (Function.update point t (some next)) (k.returned t value) := by
  cases x with
  | closing => exact hp.elim
  | opening => exact hp.elim
  | call h c =>
      cases c with
      | read length msgHead =>
          rw [Clients.returned, hx]
          exact hs.release hnext rfl rfl (fun _ _ => rfl) (fun u y _ hu => hs.inUse u y hu)
            hs.numbered
      | write buffer length =>
          rw [Clients.returned, hx]
          exact hs.release hnext rfl rfl (fun _ _ => rfl) (fun u y _ hu => hs.inUse u y hu)
            hs.numbered

/-- The clients take note of a statement. -/
theorem does [Build] (hs : Serving q point k) (hpc : point t = some pc)
    (hserves : pc.serves = some q) (hf : pc.Follows next) (mq : MqBackend Node) :
    Serving q (Function.update point t (some next)) (k.does t mq pc) := by
  obtain ⟨x, hx, hp⟩ := hs.purpose_eq hpc hserves
  have gone (he : pc.Ends) : next.serves ≠ some q := by
    rw [hf.ends he]
    exact (Option.some_ne_none q).symm
  have moves (he : ¬ pc.Ends) {stored : T → List UInt8}
      (hothers : ∀ u, u ≠ t → stored u = k.stored u)
      (hst : ¬ next.Stored → stored t = k.stored t) :
      Serving q (Function.update point t (some next)) { k with stored } := by
    have hnext : next.serves = pc.serves := hf.serves he
    have hne : pc.serves ≠ none := by
      rw [hserves]
      exact Option.some_ne_none q
    refine hs.move hpc (by rw [hnext]) (fun _ => hf.purpose he hne k.flags) hothers ?_
    intro _ hn
    exact ⟨(hf.stored hn (by rw [hnext]; exact hne)).1, hst hn⟩
  cases pc with
  | openUnlock q' => exact hs.opened (gone trivial) hx hp
  | closeLast q' => exact hs.closed (gone trivial) hx hp
  | closeUnlock q' => exact hs.closed (gone trivial) hx hp
  | readAgain c => exact hs.returned (gone trivial) hx hp _
  | writeRefuse c => exact hs.returned (gone trivial) hx hp _
  | wakeDone w => exact hs.returned (gone trivial) hx hp _
  | readBody c early =>
      refine moves id (fun u hut => Function.update_of_ne hut ..) fun hn => ?_
      have hne : next.serves ≠ none := by
        rw [hf.serves id]
        exact Option.some_ne_none c.q
      obtain ⟨y, -, -, hst⟩ := hs.purpose t _ hpc hserves
      rw [Function.update_self, (hf.stored hn hne).2 mq, hst id]
  | _ => exact moves id (fun _ _ => rfl) fun _ => rfl

end Clients.Serving

/-! ## The system with its clients -/

/-- The system and what the clients of a queue know. -/
structure Observed (T Q : Type) where
  sys : System T Q
  clients : Clients T

namespace Observed
variable [Build] [DecidableEq Q] {p p' : Observed T Q} {l : Label T (Pc Q)}

/-- A step of the system in which the clients of `q` keep to their rules. -/
structure Step (q : Q) (p : Observed T Q) (l : Label T (Pc Q)) (p' : Observed T Q) : Prop where
  sys : SysStep p.sys l p'.sys
  clients : p.clients.Step q p.sys l p'.clients

/-- No read of `q` meets a message that its buffer cannot hold. -/
def Fits (q : Q) (p : Observed T Q) (l : Label T (Pc Q)) : Prop :=
  ∀ t c, l = .step t → p.sys.threads t = .running (.readTooSmall c) → c.q ≠ q

/-- A thread goes on at a statement that is not the size check of a read. -/
theorem Step.runs (t : T) (pc : Pc Q) (p' : Observed T Q)
    (hpc : p.sys.threads t = .running pc) (hn : ¬ pc.Unlocks) (h : SysStep p.sys (.step t) p'.sys)
    (hk : p'.clients = p.clients.after q t (p.sys.objects q) pc) :
    Guarded (Step q) (Fits q) p (.step t) p' := by
  refine ⟨⟨h, hk ▸ .runs hpc⟩, ?_⟩
  rintro u c ⟨⟩ hu
  rw [hpc] at hu
  rw [Thread.running.inj hu] at hn
  exact fun _ => hn trivial

/-- No call is in progress, and `q` has just been created with the first handle. -/
structure Created (q : Q) (flags : CInt) (p : Observed T Q) : Prop where
  quiescent : Quiescent p.sys
  clients : p.clients = .initial flags
  created : ∃ block answer capacity,
    msgQueueCreate block answer capacity flags = .ok (.ok (p.sys.objects q).unlinked)

/-- The threads hold and use the queue as their statements say. -/
structure Ordered (q : Q) (p : Observed T Q) : Prop where
  exclusive : Exclusive code holds (.queue q) p.sys
  locked : ∀ t pc, (p.sys.threads t).point = some pc → pc.serves = some q → ¬ pc.Unguarded
  checked : ∀ t pc, (p.sys.threads t).point = some pc → pc.Checked
  serving : p.clients.Serving q fun t => (p.sys.threads t).point

omit [DecidableEq T] [DecidableEq Q] in
theorem Created.ordered {flags : CInt} (h : Created q flags p) : p.Ordered q where
  exclusive t := by
    rw [h.quiescent.idle, h.quiescent.free]
    exact iff_of_false id (Option.some_ne_none t).symm
  locked t pc hpc := absurd hpc h.quiescent.no_point
  checked t pc hpc := absurd hpc h.quiescent.no_point
  serving := by
    rw [h.clients]
    refine Clients.initial_serving flags fun t => ?_
    rw [h.quiescent.idle]
    rfl

omit [Build] [DecidableEq Q] in
theorem entry_checked {pc : Pc Q} (h : IsEntry pc) : pc.Checked ∧ ¬ pc.Unguarded := by
  obtain ⟨e, rfl⟩ := h
  cases e <;> simp only [Entry.start] <;> (repeat' split) <;>
    simp_all [Pc.Checked, Pc.Unguarded]

omit [DecidableEq T] [DecidableEq Q] in
/-- Only a thread that holds the mutex of the queue unlocks it. -/
theorem Ordered.unlocks (h : p.Ordered q) {t : T} {pc next : Pc Q}
    (hpc : p.sys.threads t = .running pc) (hc : code pc = .unlock (.queue q) next) :
    holds pc (.queue q) := by
  have hpoint : (p.sys.threads t).point = some pc := by rw [hpc]; rfl
  cases pc <;> simp only [code, Instr.unlock.injEq, Mutex.queue.injEq, reduceCtorEq, false_and]
    at hc <;> obtain ⟨rfl, -⟩ := hc
  case wakeDone w =>
    have hearly : ¬ w.early = true := h.locked t _ hpoint rfl
    simp [holds, locksAt, Wakeup.locks, hearly]
  all_goals simp [holds, locksAt]

/-- The other threads stay where they are. -/
theorem point_of_ne {s s' : System T Q} (h : SysStep s l s') {u : T} (hstep : l ≠ .step u)
    (hstart : ∀ pc, l ≠ .start u pc) : (s'.threads u).point = (s.threads u).point := by
  cases h.threadChange u with
  | same hl he => rw [he]
  | wakes hold hnew => rw [hold, hnew]; rfl
  | start hl => exact absurd hl (hstart _)
  | moves hl => exact absurd hl hstep
  | waits hl => exact absurd hl hstep
  | stop hl => exact absurd hl hstep

omit [DecidableEq Q] [Build] in
/-- One point changes. -/
theorem points_to {s s' : System T Q} {t : T} (o : Option (Pc Q))
    (hself : (s'.threads t).point = o)
    (hothers : ∀ u, u ≠ t → (s'.threads u).point = (s.threads u).point) :
    (fun u => (s'.threads u).point) = Function.update (fun u => (s.threads u).point) t o := by
  funext u
  by_cases hut : u = t
  · subst hut
    rw [Function.update_self, hself]
  · rw [Function.update_of_ne hut, hothers u hut]

/-- A statement that waits means nothing to the clients. -/
theorem after_wait {k : Clients T} {t : T} {mq : MqBackend Node} {pc next : Pc Q}
    {c : CondId Q} {m : Mutex Q} (hc : code pc = .wait c m next) : k.after q t mq pc = k := by
  cases pc <;> simp only [code, reduceCtorEq] at hc
  all_goals
    unfold Clients.after
    split <;> rfl

theorem after_stop {k : Clients T} {t : T} {mq : MqBackend Node} {pc : Pc Q}
    (hc : code pc = .stop) : k.after q t mq pc = k ∧ pc.serves = none := by
  cases pc <;> simp only [code, reduceCtorEq] at hc
  exact ⟨rfl, rfl⟩

/-- A thread goes on. -/
theorem serving_after {point : T → Option (Pc Q)} {k : Clients T} {t : T} {pc next : Pc Q}
    (hs : k.Serving q point) (hpc : point t = some pc) (hf : pc.Follows next)
    (mq : MqBackend Node) :
    (k.after q t mq pc).Serving q (Function.update point t (some next)) := by
  by_cases hserves : pc.serves = some q
  · rw [Clients.after, if_pos hserves]
    exact hs.does hpc hserves hf mq
  · rw [Clients.after, if_neg hserves]
    have hnext : next.serves ≠ some q := by
      by_cases he : pc.Ends
      · rw [hf.ends he]
        exact (Option.some_ne_none q).symm
      · rw [hf.serves he]
        exact hserves
    exact hs.move hpc (iff_of_false hnext hserves) (fun h => absurd h hserves)
      (fun _ _ => rfl) fun h => absurd h hserves

/-- Every step keeps the threads and the clients in agreement. -/
theorem serving_step {s s' : System T Q} {k k' : Clients T}
    (hs : k.Serving q fun t => (s.threads t).point) (hsys : SysStep s l s')
    (hclients : k.Step q s l k') : k'.Serving q fun t => (s'.threads t).point := by
  have others {t : T} (hl : l = .step t) (u : T) (hut : u ≠ t) :
      (s'.threads u).point = (s.threads u).point := by
    subst hl
    exact point_of_ne hsys (fun heq => hut (Label.step.inj heq).symm) (by simp)
  cases hclients with
  | @start t pc _ hstarts =>
      obtain ⟨hidle, he, rfl⟩ : s.threads t = .idle ∧ IsEntry pc ∧ s' = s.goTo t pc := by
        cases hsys with
        | start hidle he => exact ⟨hidle, he, rfl⟩
      have hpoint : (s.threads t).point = none := by rw [hidle]; rfl
      have hpoints := points_to (some pc) (s.goTo_self t pc ▸ rfl) fun u hut =>
        congrArg Thread.point (s.goTo_of_ne t pc hut)
      rw [hpoints]
      exact hs.starts hpoint he hstarts
  | @runs t pc hpc =>
      have hpoint : (s.threads t).point = some pc := by rw [hpc]; rfl
      have running {pc' : Pc Q} (hpc' : s.threads t = .running pc') : pc' = pc := by
        rw [hpc] at hpc'
        exact (Thread.running.inj hpc').symm
      cases hsys.threadChange t with
      | same hl => exact absurd rfl hl
      | wakes hold =>
          rw [hpc] at hold
          cases hold
      | start hl => cases hl
      | @moves pc' next hl hm hnew =>
          obtain rfl : pc' = pc := Option.some.inj (hm.point.symm.trans hpoint)
          rw [points_to (some next) (by rw [hnew]; rfl) (others rfl)]
          exact serving_after hs hpoint (follows_of_leads hm.leads) _
      | waits hl hold hc hnew =>
          obtain rfl := running hold
          have hsame : (fun u => (s'.threads u).point) = fun u => (s.threads u).point := by
            rw [points_to (s.threads t).point (by rw [hnew, hpoint]; rfl) (others rfl)]
            exact Function.update_eq_self ..
          rw [after_wait hc, hsame]
          exact hs
      | stop hl hold hc hnew =>
          obtain rfl := running hold
          obtain ⟨hafter, hserves⟩ : k.after q t (s.objects q) _ = k ∧ _ := after_stop hc
          rw [points_to none (by rw [hnew]; rfl) (others rfl), hafter]
          exact hs.stop hpoint (by rw [hserves]; exact (Option.some_ne_none q).symm)
  | @resumes t pc hpc =>
      have hpoint : (s.threads t).point = some pc := by rw [hpc]; rfl
      cases hsys.threadChange t with
      | same hl => exact absurd rfl hl
      | wakes hold =>
          rw [hpc] at hold
          cases hold
      | start hl => cases hl
      | @moves pc' next hl hm hnew =>
          obtain rfl : pc' = pc := Option.some.inj (hm.point.symm.trans hpoint)
          rw [points_to (some next) (by rw [hnew]; rfl) (others rfl)]
          cases hm with
          | running hpc' =>
              rw [hpc] at hpc'
              cases hpc'
          | woken hpc' hc =>
              have hkept := serving_after hs hpoint (follows_wait hc) (s.objects q)
              rwa [after_wait hc] at hkept
      | waits hl hold =>
          rw [hpc] at hold
          cases hold
      | stop hl hold =>
          rw [hpc] at hold
          cases hold
  | @spurious t =>
      have hsame : (fun u => (s'.threads u).point) = fun u => (s.threads u).point :=
        funext fun u => point_of_ne hsys (by simp) (by simp)
      rw [hsame]
      exact hs

/-- Every step keeps the order. -/
theorem Ordered.step (h : p.Ordered q) (hfit : Fits q p l) (hstep : Step q p l p') :
    p'.Ordered q where
  exclusive := h.exclusive.step code_typed (fun _ _ _ _ hpc hc => h.unlocks hpc hc) hstep.sys
  locked t pc := by
    refine hstep.sys.point_invariant (P := fun pc => pc.serves = some q → ¬ pc.Unguarded)
      (fun pc he _ => (entry_checked he).2) (fun u pc next hl hm hp hserves => ?_) h.locked
    have hf := follows_of_leads hm.leads
    have hends : ¬ pc.Ends := fun he => by
      rw [hf.ends he] at hserves
      cases hserves
    have hserves' : pc.serves = some q := (hf.serves hends).symm.trans hserves
    refine hf.early (hp hserves') fun hunlocks => ?_
    cases pc <;> simp only [Pc.Unlocks] at hunlocks
    case readTooSmall c =>
      cases hm with
      | running hpc hn => exact hfit u c hl hpc (Option.some.inj hserves')
      | woken hpc hc => cases hc
  checked t pc :=
    hstep.sys.point_invariant (fun _ he => (entry_checked he).1)
      (fun _ _ _ _ hm => (follows_of_leads hm.leads).checked) h.checked
  serving := serving_step h.serving hstep.sys hstep.clients

end Observed

end UoftOs.MsgQueue
