import UoftOs.MsgQueue.Registration

/-!
# What a poll call reports

`helper_count` fills in `revents` from the `queue_event` of every queue of the
array and counts the entries that are ready. A recorder next to the machine
keeps what each thread has read there; the result of a poll is right exactly
when its last count saw the right flags.
-/

namespace UoftOs.MsgQueue

open Lib.Threads Lib.Transition

variable {Q : Type}

/-! ## Reports -/

/-- The hang-up bits that `helper_count` copies for a handle with these flags. -/
def hangUps (flags : CInt) : CInt :=
  if hasAny flags (msgQueueReader ||| msgQueueWriter) then mqpollNowriters ||| mqpollNoreaders
  else 0

/-- The bits that may be reported for an entry whose handle has these flags. -/
def PollFd.mayReport (fd : PollFd Q) (flags : CInt) : CInt :=
  fd.events ||| (if hasAny flags msgQueueReader then mqpollNowriters else 0) |||
    (if hasAny flags msgQueueWriter then mqpollNoreaders else 0)

/-- The array that a poll leaves agrees with the value that it returns. -/
structure ReportsRight (fds : List (PollFd Q)) (value : Nat) : Prop where
  positive : 1 ≤ value
  counts : value = fds.countP fun fd => fd.revents != 0
  nulls : ∀ fd ∈ fds, fd.queue = none → fd.revents = 0
  bits : ∀ fd ∈ fds, ∀ q flags, fd.queue = some (q, flags) →
    fd.revents &&& ~~~fd.mayReport flags = 0

/-- Entry `k` is a handle with these flags. -/
def EntryAt (fds : List (PollFd Q)) (k : Nat) (fd : PollFd Q) (flags : CInt) : Prop :=
  fds[k]? = some fd ∧ ∃ q, fd.queue = some (q, flags)

/-- The flags `seen k` of the queues: a requested event for some entry; for every entry without
one no hang-up either; and only hang-ups that may be reported. -/
structure SeesRight (fds : List (PollFd Q)) (seen : Nat → CInt) : Prop where
  ready : ∃ k fd flags, EntryAt fds k fd flags ∧ 0 < (seen k &&& fd.events).toInt
  others : ∀ k fd flags, EntryAt fds k fd flags →
    0 < (seen k &&& fd.events).toInt ∨ seen k &&& (fd.events ||| hangUps flags) = 0
  asked : ∀ k fd flags, EntryAt fds k fd flags →
    seen k &&& hangUps flags &&& ~~~fd.mayReport flags = 0

/-! ## One count -/

section Count

variable {fds : List (PollFd Q)} {fd : PollFd Q} {event flags : CInt} {q : Q} {seen : Nat → CInt}
  {i j n : Nat}

theorem countEntry_none (h : fd.queue = none) : countEntry fd event = (fd, false) := by
  simp only [countEntry, h]

theorem countEntry_some (h : fd.queue = some (q, flags)) :
    countEntry fd event =
      ({ fd with revents := event &&& fd.events ||| event &&& hangUps flags },
        decide (0 < (event &&& fd.events).toInt)) := by
  have hnone : event &&& fd.events ||| event &&& (0 : CInt) = event &&& fd.events := by
    rw [show event &&& (0 : CInt) = 0 from BitVec.and_zero]
    exact BitVec.or_zero
  rw [countEntry, h, hangUps]
  dsimp only
  split
  · rfl
  · rw [hnone]

theorem countEntry_queue : (countEntry fd event).1.queue = fd.queue := by
  cases h : fd.queue with
  | none => rw [countEntry_none h, h]
  | some handle => rw [countEntry_some h, h]

/-- A second count with the same flags finds the same. -/
theorem countEntry_again : countEntry (countEntry fd event).1 event = countEntry fd event := by
  cases h : fd.queue with
  | none => rw [countEntry_none h, countEntry_none h]
  | some handle =>
      rw [countEntry_some h]
      exact countEntry_some h

/-- Entry `k` counts as ready. -/
def readyAt (fds : List (PollFd Q)) (seen : Nat → CInt) (k : Nat) : Bool :=
  (fds[k]?).elim false fun fd => (countEntry fd (seen k)).2

/-- A count that has seen the flags `seen` is done with the entries below `i`, and `n` of
them are ready. -/
structure CountedTo (fds : List (PollFd Q)) (seen : Nat → CInt) (i n : Nat) : Prop where
  filled : ∀ k < i, ∀ fd, fds[k]? = some fd → (countEntry fd (seen k)).1 = fd
  ready : n = (List.range i).countP (readyAt fds seen)

theorem countedTo_zero (fds : List (PollFd Q)) (seen : Nat → CInt) : CountedTo fds seen 0 0 :=
  ⟨fun _ hk => absurd hk (Nat.not_lt_zero _), rfl⟩

theorem readyAt_of_null (h : queueAt fds i = none) : readyAt fds seen i = false := by
  unfold readyAt
  cases hfd : fds[i]? with
  | none => rfl
  | some fd =>
      have hnull : fd.queue = none := by simpa [queueAt, hfd] using h
      rw [Option.elim_some, countEntry_none hnull]

/-- Entries without a queue are skipped. -/
theorem CountedTo.skip (h : CountedTo fds seen i n) (hij : i ≤ j)
    (hnull : ∀ k, i ≤ k → k < j → queueAt fds k = none) : CountedTo fds seen j n := by
  obtain ⟨d, rfl⟩ := Nat.exists_eq_add_of_le hij
  constructor
  · intro k hk fd hfd
    by_cases hlt : k < i
    · exact h.filled k hlt fd hfd
    · have hnone : fd.queue = none := by
        simpa [queueAt, hfd] using hnull k (Nat.le_of_not_lt hlt) hk
      rw [countEntry_none hnone]
  · have hrest : (List.map (i + ·) (List.range d)).countP (readyAt fds seen) = 0 := by
      rw [List.countP_eq_zero]
      intro k hk
      obtain ⟨e, he, rfl⟩ := List.mem_map.mp hk
      rw [readyAt_of_null (hnull _ (Nat.le_add_right _ _)
        (Nat.add_lt_add_left (List.mem_range.mp he) i))]
      exact Bool.false_ne_true
    rw [List.range_add, List.countP_append, hrest, Nat.add_zero]
    exact h.ready

/-- One turn of `helper_count`. -/
theorem CountedTo.next {c : PollCall Q} (h : CountedTo c.fds seen i n)
    (hi : queueAt c.fds i = some q) :
    CountedTo (countAt c n i event).1.fds (Function.update seen i event) (i + 1)
      (countAt c n i event).2 := by
  cases hfd : c.fds[i]? with
  | none =>
      rw [queueAt, hfd] at hi
      cases hi
  | some fd =>
      have hlt : i < c.fds.length := (List.getElem?_eq_some_iff.mp hfd).1
      have hat : (countAt c n i event) =
          ({ c with fds := c.fds.set i (countEntry fd event).1 },
            if (countEntry fd event).2 then n + 1 else n) := by
        rw [countAt, hfd]
      have hself : (c.fds.set i (countEntry fd event).1)[i]? = some (countEntry fd event).1 :=
        List.getElem?_set_self hlt
      have hother : ∀ k, k ≠ i → (c.fds.set i (countEntry fd event).1)[k]? = c.fds[k]? :=
        fun k hk => List.getElem?_set_ne hk.symm
      rw [hat]
      constructor
      · intro k hk fd' hfd'
        rcases Nat.lt_or_eq_of_le (Nat.le_of_lt_succ hk) with hlt | rfl
        · rw [hother k hlt.ne] at hfd'
          rw [Function.update_of_ne hlt.ne]
          exact h.filled k hlt fd' hfd'
        · rw [hself] at hfd'
          obtain rfl := Option.some.inj hfd'
          rw [Function.update_self, countEntry_again]
      · have hbefore : (List.range i).countP
            (readyAt (c.fds.set i (countEntry fd event).1) (Function.update seen i event)) =
              (List.range i).countP (readyAt c.fds seen) := by
          refine List.countP_congr fun k hk => ?_
          have hne : k ≠ i := (List.mem_range.mp hk).ne
          rw [readyAt, readyAt, hother k hne, Function.update_of_ne hne]
        have hnow : readyAt (c.fds.set i (countEntry fd event).1) (Function.update seen i event) i =
            (countEntry fd event).2 := by
          rw [readyAt, hself, Option.elim_some, Function.update_self, countEntry_again]
        rw [List.range_succ, List.countP_append, hbefore, ← h.ready, List.countP_singleton, hnow]
        dsimp only
        split <;> rfl

end Count

/-! ## A whole count -/

/-- Entries without a queue have no returned events. -/
def NullsClear (fds : List (PollFd Q)) : Prop := ∀ fd ∈ fds, fd.queue = none → fd.revents = 0

section Whole

variable {α : Type} {fds : List (PollFd Q)} {fd : PollFd Q} {flags : CInt} {seen : Nat → CInt}
  {k value : Nat}

/-- Counting a stronger condition gives the same number only if it is the same condition. -/
theorem countP_eq_iff {p p' : α → Bool} {xs : List α} (himp : ∀ x ∈ xs, p x → p' x) :
    xs.countP p = xs.countP p' ↔ ∀ x ∈ xs, p' x → p x := by
  have hboth : xs.countP p = (xs.filter p').countP p := by
    rw [List.countP_filter]
    refine List.countP_congr fun x hx => ?_
    rw [Bool.and_eq_true]
    exact ⟨fun hp => ⟨hp, himp x hx hp⟩, And.left⟩
  rw [hboth, List.countP_eq_length_filter (p := p'), List.countP_eq_length]
  exact ⟨fun h x hx hp => h x (List.mem_filter.mpr ⟨hx, hp⟩),
    fun h x hx => h x (List.mem_filter.mp hx).1 (List.mem_filter.mp hx).2⟩

theorem countP_eq_range (p : α → Bool) (xs : List α) :
    xs.countP p = (List.range xs.length).countP fun k => (xs[k]?).elim false p := by
  induction xs using List.reverseRecOn with
  | nil => rfl
  | append_singleton xs x ih =>
      have hold : (List.range xs.length).countP (fun k => ((xs ++ [x])[k]?).elim false p) =
          (List.range xs.length).countP fun k => (xs[k]?).elim false p := by
        refine List.countP_congr fun k hk => ?_
        rw [List.getElem?_append_left (List.mem_range.mp hk)]
      rw [List.length_append, List.length_singleton, List.range_succ, List.countP_append,
        List.countP_append, hold, ← ih, List.countP_singleton, List.countP_singleton,
        List.getElem?_concat_length, Option.elim_some]

theorem EntryAt.readyAt (h : EntryAt fds k fd flags) :
    readyAt fds seen k = true ↔ 0 < (seen k &&& fd.events).toInt := by
  obtain ⟨hfd, q, hq⟩ := h
  rw [MsgQueue.readyAt, hfd, Option.elim_some, countEntry_some hq, decide_eq_true_iff]

theorem EntryAt.revents (h : EntryAt fds k fd flags)
    (hcounted : CountedTo fds seen fds.length value) :
    fd.revents = seen k &&& (fd.events ||| hangUps flags) := by
  obtain ⟨hfd, q, hq⟩ := h
  have hself := hcounted.filled k (List.getElem?_eq_some_iff.mp hfd).1 fd hfd
  rw [countEntry_some hq] at hself
  rw [BitVec.and_or_distrib_left]
  exact (congrArg PollFd.revents hself).symm

/-- Requested events may always be reported. -/
theorem mayReport_events (fd : PollFd Q) (flags event : CInt) :
    event &&& fd.events &&& ~~~fd.mayReport flags = 0 := by
  refine BitVec.eq_of_getLsbD_eq fun i hi => ?_
  simp only [PollFd.mayReport, BitVec.getLsbD_and, BitVec.getLsbD_not, BitVec.getLsbD_or,
    BitVec.ofNat_eq_ofNat, BitVec.getLsbD_zero]
  cases fd.events.getLsbD i <;> simp

theorem reported_iff (fd : PollFd Q) (flags event : CInt) :
    event &&& (fd.events ||| hangUps flags) &&& ~~~fd.mayReport flags = 0 ↔
      event &&& hangUps flags &&& ~~~fd.mayReport flags = 0 := by
  have hzero (x : CInt) : (0 : CInt) ||| x = x := BitVec.zero_or
  rw [BitVec.and_or_distrib_left, BitVec.and_or_distrib_right, mayReport_events, hzero]

/-- A ready entry has returned events. -/
theorem revents_of_ready {events event : CInt} (h : 0 < (event &&& events).toInt) :
    event &&& (events ||| hangUps flags) ≠ 0 := by
  intro hzero
  rw [BitVec.and_or_distrib_left] at hzero
  rw [(BitVec.or_eq_zero_iff.mp hzero).1] at h
  exact absurd h (by decide)

/-- The array and the number of ready entries after a count are right exactly when it saw
the right flags. -/
theorem reportsRight_iff (hnulls : NullsClear fds) (h : CountedTo fds seen fds.length value) :
    ReportsRight fds value ↔ SeesRight fds seen := by
  have hentry {k : Nat} {fd : PollFd Q} (hfd : fds[k]? = some fd) :
      fd.queue = none ∧ fd.revents = 0 ∧ readyAt fds seen k = false ∨
        ∃ flags, EntryAt fds k fd flags := by
    cases hq : fd.queue with
    | none =>
        refine .inl ⟨rfl, hnulls fd (List.mem_of_getElem? hfd) hq, ?_⟩
        rw [readyAt, hfd, Option.elim_some, countEntry_none hq]
    | some handle => exact .inr ⟨handle.2, hfd, handle.1, hq⟩
  have hready : (1 ≤ value) ↔
      ∃ k fd flags, EntryAt fds k fd flags ∧ 0 < (seen k &&& fd.events).toInt := by
    rw [h.ready, List.one_le_countP_iff]
    constructor
    · rintro ⟨k, hk, hyes⟩
      obtain ⟨fd, hfd⟩ : ∃ fd, fds[k]? = some fd :=
        ⟨_, List.getElem?_eq_getElem (List.mem_range.mp hk)⟩
      rcases hentry hfd with ⟨_, _, hno⟩ | ⟨flags, hat⟩
      · rw [hno] at hyes
        cases hyes
      · exact ⟨k, fd, flags, hat, hat.readyAt.mp hyes⟩
    · rintro ⟨k, fd, flags, hat, hpos⟩
      exact ⟨k, List.mem_range.mpr (List.getElem?_eq_some_iff.mp hat.1).1, hat.readyAt.mpr hpos⟩
  have hcounts : (value = fds.countP fun fd => fd.revents != 0) ↔
      ∀ k fd flags, EntryAt fds k fd flags →
        0 < (seen k &&& fd.events).toInt ∨ seen k &&& (fd.events ||| hangUps flags) = 0 := by
    rw [h.ready, countP_eq_range (fun fd : PollFd Q => fd.revents != 0) fds, countP_eq_iff]
    · constructor
      · intro hall k fd flags hat
        have hk := List.mem_range.mpr (List.getElem?_eq_some_iff.mp hat.1).1
        by_cases hzero : seen k &&& (fd.events ||| hangUps flags) = 0
        · exact .inr hzero
        · refine .inl (hat.readyAt.mp (hall k hk ?_))
          rw [hat.1, Option.elim_some, hat.revents h]
          exact bne_iff_ne.mpr hzero
      · intro hall k hk hne
        obtain ⟨fd, hfd⟩ : ∃ fd, fds[k]? = some fd :=
          ⟨_, List.getElem?_eq_getElem (List.mem_range.mp hk)⟩
        rw [hfd, Option.elim_some] at hne
        have hne := bne_iff_ne.mp hne
        rcases hentry hfd with ⟨_, hzero, _⟩ | ⟨flags, hat⟩
        · exact absurd hzero hne
        · rw [hat.revents h] at hne
          exact hat.readyAt.mpr ((hall k fd flags hat).resolve_right hne)
    · intro k hk hyes
      obtain ⟨fd, hfd⟩ : ∃ fd, fds[k]? = some fd :=
        ⟨_, List.getElem?_eq_getElem (List.mem_range.mp hk)⟩
      rcases hentry hfd with ⟨_, _, hno⟩ | ⟨flags, hat⟩
      · rw [hno] at hyes
        cases hyes
      · rw [hfd, Option.elim_some, hat.revents h]
        exact bne_iff_ne.mpr (revents_of_ready (hat.readyAt.mp hyes))
  have hbits : (∀ fd ∈ fds, ∀ q flags, fd.queue = some (q, flags) →
      fd.revents &&& ~~~fd.mayReport flags = 0) ↔
      ∀ k fd flags, EntryAt fds k fd flags →
        seen k &&& hangUps flags &&& ~~~fd.mayReport flags = 0 := by
    constructor
    · intro hall k fd flags hat
      obtain ⟨hfd, q, hq⟩ := hat
      have hbit := hall fd (List.mem_of_getElem? hfd) q flags hq
      rwa [EntryAt.revents ⟨hfd, q, hq⟩ h, reported_iff] at hbit
    · intro hall fd hmem q flags hq
      obtain ⟨k, hfd⟩ := List.mem_iff_getElem?.mp hmem
      rw [EntryAt.revents ⟨hfd, q, hq⟩ h, reported_iff]
      exact hall k fd flags ⟨hfd, q, hq⟩
  exact ⟨fun hr => ⟨hready.mp hr.positive, hcounts.mp hr.counts, hbits.mp hr.bits⟩,
    fun hs => ⟨hready.mpr hs.ready, hcounts.mpr hs.others, hnulls, hbits.mpr hs.asked⟩⟩

end Whole

/-! ## Where a call stands -/

/-- The array of a thread at this statement, when the thread has last seen the flags `seen`. -/
def Pc.Reports (seen : Nat → CInt) : Pc Q → Prop
  | .pollAlloc fds => NullsClear fds
  | .pollLock c => NullsClear c.fds
  | .pollRegister c _ _ => NullsClear c.fds
  | .pollLink c _ _ => NullsClear c.fds
  | .pollLinked c _ _ => NullsClear c.fds
  | .pollCount c _ numReady i _ => NullsClear c.fds ∧ CountedTo c.fds seen i numReady
  | .pollWait c => NullsClear c.fds
  | .pollUnlock c numReady => NullsClear c.fds ∧ CountedTo c.fds seen c.fds.length numReady
  | .pollUnregister c numReady _ _ =>
      NullsClear c.fds ∧ CountedTo c.fds seen c.fds.length numReady
  | .pollUnlink c numReady _ _ => NullsClear c.fds ∧ CountedTo c.fds seen c.fds.length numReady
  | .pollUnlinked c numReady _ _ => NullsClear c.fds ∧ CountedTo c.fds seen c.fds.length numReady
  | .pollUnlockAgain c numReady => NullsClear c.fds ∧ CountedTo c.fds seen c.fds.length numReady
  | _ => True

section Points

variable {c : PollCall Q} {seen : Nat → CInt} {again : Bool} {i n : Nat}

theorem countFrom_reports (hnulls : NullsClear c.fds) (h : CountedTo c.fds seen i n)
    (hi : i ≤ c.fds.length) : (countFrom c again n i).Reports seen := by
  unfold countFrom
  split
  · next hnext =>
      obtain ⟨hle, _, hskipped⟩ := nextEntry_eq_some hnext
      exact ⟨hnulls, h.skip hle hskipped⟩
  · next hnext =>
      split
      · exact hnulls
      · exact ⟨hnulls, h.skip hi fun k hk _ => nextEntry_eq_none hnext hk⟩

theorem registerFrom_reports (hnulls : NullsClear c.fds) : (registerFrom c i).Reports seen := by
  unfold registerFrom
  split
  · exact hnulls
  · exact countFrom_reports hnulls (countedTo_zero _ _) (Nat.zero_le _)

theorem unregisterFrom_reports (hnulls : NullsClear c.fds)
    (h : CountedTo c.fds seen c.fds.length n) : (unregisterFrom c n i).Reports seen := by
  unfold unregisterFrom
  split
  · exact ⟨hnulls, h⟩
  · exact ⟨hnulls, h⟩

theorem length_countAt (c : PollCall Q) (n i : Nat) (event : CInt) :
    (countAt c n i event).1.fds.length = c.fds.length := by
  unfold countAt
  split
  · exact List.length_set
  · rfl

theorem countAt_nulls (hnulls : NullsClear c.fds) (n i : Nat) (event : CInt) :
    NullsClear (countAt c n i event).1.fds := by
  unfold countAt
  split
  · next fd hfd =>
      intro fd' hmem hnull
      rcases List.mem_or_eq_of_mem_set hmem with hold | rfl
      · exact hnulls fd' hold hnull
      · rw [countEntry_queue] at hnull
        rw [countEntry_none hnull]
        exact hnulls fd (List.mem_of_getElem? hfd) hnull
  · exact hnulls

/-- The turn of a thread that reads `event` from the queue of entry `i`. -/
theorem countAt_reports {event : CInt} {q : Q}
    (h : (Pc.pollCount c again n i q).Reports seen) (hi : queueAt c.fds i = some q) :
    (countFrom (countAt c n i event).1 again (countAt c n i event).2 (i + 1)).Reports
      (Function.update seen i event) := by
  refine countFrom_reports (countAt_nulls h.1 n i event) (h.2.next hi) ?_
  rw [length_countAt]
  cases hfd : c.fds[i]? with
  | none =>
      rw [queueAt, hfd] at hi
      cases hi
  | some fd => exact (List.getElem?_eq_some_iff.mp hfd).1

theorem entry_reports {pc : Pc Q} (h : IsEntry pc) : pc.Reports seen := by
  obtain ⟨e, rfl⟩ := h
  cases e with
  | poll fds =>
      rw [Entry.start]
      split
      · intro fd hmem _
        obtain ⟨fd₀, _, rfl⟩ := List.mem_map.mp hmem
        rfl
      · trivial
  | «open» q flags =>
      rw [Entry.start]
      split <;> trivial
  | close q flags => trivial
  | read q flags length msgHead =>
      rw [Entry.start]
      split <;> trivial
  | write q flags buffer length =>
      rw [Entry.start]
      split
      · trivial
      · split <;> trivial

variable [Build]

/-- Outside its counts a call keeps what it reports. -/
theorem leads_reports {fresh : Nat} {pc next : Pc Q} (hl : Leads code fresh pc next)
    (hcount : ∀ c again numReady i q, pc ≠ .pollCount c again numReady i q)
    (h : pc.Reports seen) : next.Reports seen := by
  cases hl with
  | lock hc =>
      cases pc <;> simp only [code, Instr.lock.injEq, reduceCtorEq] at hc <;>
        obtain ⟨rfl, rfl⟩ := hc
      case pollLock c => exact registerFrom_reports h
      all_goals exact h
  | unlock hc =>
      cases pc <;> simp only [code, Instr.unlock.injEq, reduceCtorEq] at hc <;>
        obtain ⟨rfl, rfl⟩ := hc
      case pollLinked c i q => exact registerFrom_reports h
      case pollUnlock c numReady => exact unregisterFrom_reports h.1 h.2
      case pollUnlinked c numReady i q => exact unregisterFrom_reports h.1 h.2
      all_goals trivial
  | wait hc =>
      cases pc <;> simp only [code, Instr.wait.injEq, reduceCtorEq] at hc <;>
        obtain ⟨rfl, rfl, rfl⟩ := hc
      case pollWait c => exact countFrom_reports h (countedTo_zero _ _) (Nat.zero_le _)
      all_goals trivial
  | signal hc =>
      cases pc <;> simp only [code, Instr.signal.injEq, reduceCtorEq] at hc <;>
        obtain ⟨rfl, rfl⟩ := hc
      case writeSignal c => split <;> trivial
      all_goals trivial
  | broadcast hc =>
      cases pc <;> simp only [code, Instr.broadcast.injEq, reduceCtorEq] at hc <;>
        obtain ⟨rfl, rfl⟩ := hc <;> trivial
  | access hc hf =>
      cases code_accessed hc hf with
      | plain _ hn => cases next <;> first | exact hn.elim | trivial
      | produces => trivial
      | starts => split <;> trivial
      | tests => split <;> trivial
      | nexts => split <;> trivial
      | links => exact h
      | counts => exact absurd rfl (hcount _ _ _ _ _)
      | unlinks => exact h
  | alloc hc =>
      cases pc <;> simp only [code, Instr.alloc.injEq, reduceCtorEq] at hc
      subst hc
      exact h
  | allocFails hc =>
      cases pc <;> simp only [code, Instr.alloc.injEq, reduceCtorEq] at hc
      subst hc
      trivial
  | goto hc =>
      cases pc <;> simp only [code, Instr.goto.injEq, reduceCtorEq] at hc
      subst hc
      trivial

end Points

/-! ## The recorder -/

section Runs

variable {T : Type} [DecidableEq T] [DecidableEq Q] [Build]

/-- The flags that each thread has last seen for each entry of an array. -/
abbrev Seen (T : Type) := T → Nat → CInt

/-- The entry whose flags a thread is about to read in `helper_count`. -/
def countsAt : Thread (Pc Q) → Option (Nat × Q)
  | .running (.pollCount _ _ _ i q) => some (i, q)
  | _ => none

/-- What the step `l` adds: a thread in `helper_count` sees the flags of the queue of its entry. -/
def look (s : System T Q) (seen : Seen T) : Label T (Pc Q) → Seen T
  | .step t => (countsAt (s.threads t)).elim seen fun (i, q) =>
      Function.update seen t (Function.update (seen t) i (s.objects q).queueEvent)
  | _ => seen

/-- A step of the system with the recorder. -/
def Recorded (p : System T Q × Seen T) (l : Label T (Pc Q)) (p' : System T Q × Seen T) : Prop :=
  SysStep p.1 l p'.1 ∧ p'.2 = look p.1 p.2 l

variable {s s₀ s' : System T Q} {l : Label T (Pc Q)} {seen seen₀ : Seen T}

/-- Every run can be recorded. -/
theorem recorded_of_run {ls : List (Label T (Pc Q))} (run : Run SysStep s₀ ls s)
    (seen₀ : Seen T) : ∃ seen, Run Recorded (s₀, seen₀) ls (s, seen) := by
  induction run with
  | nil => exact ⟨seen₀, .nil⟩
  | snoc _ hstep ih =>
      obtain ⟨seen, hrun⟩ := ih
      exact ⟨_, hrun.snoc ⟨hstep, rfl⟩⟩

omit [DecidableEq Q] [Build] in
theorem look_of_ne {u : T} (h : l ≠ .step u) : look s seen l u = seen u := by
  cases l with
  | step t =>
      have hne : u ≠ t := fun heq => h (heq ▸ rfl)
      rw [look]
      cases countsAt (s.threads t) with
      | none => rfl
      | some entry => exact Function.update_of_ne hne _ _
  | start t pc => rfl
  | spurious t => rfl

omit [DecidableEq Q] [Build] in
theorem look_of_none {u : T} (h : countsAt (s.threads u) = none) :
    look s seen l u = seen u := by
  by_cases hl : l = .step u
  · rw [hl, look, h, Option.elim_none]
  · exact look_of_ne hl

omit [DecidableEq Q] [Build] in
theorem look_of_some {u : T} {i : Nat} {q : Q} (h : countsAt (s.threads u) = some (i, q)) :
    look s seen (.step u) u = Function.update (seen u) i (s.objects q).queueEvent := by
  rw [look, h, Option.elim_some]
  exact Function.update_self ..

/-- Every call in progress is at an entry with a queue, and reports what it has seen. -/
structure Reporting (p : System T Q × Seen T) : Prop where
  placed : ∀ t pc, (p.1.threads t).point = some pc → pc.Placed
  reports : ∀ t pc, (p.1.threads t).point = some pc → pc.Reports (p.2 t)

omit [DecidableEq T] [DecidableEq Q] [Build] in
theorem Quiescent.reporting (h : Quiescent s) : Reporting (s, seen) where
  placed _ _ hpc := absurd hpc h.no_point
  reports _ _ hpc := absurd hpc h.no_point

theorem Reporting.step {p p' : System T Q × Seen T} (hr : Reporting p) (h : Recorded p l p') :
    Reporting p' := by
  obtain ⟨s, seen⟩ := p
  obtain ⟨s', seen'⟩ := p'
  obtain ⟨hstep, hseen⟩ := h
  dsimp only at hstep hseen
  subst hseen
  refine ⟨placed_step hr.placed hstep, fun t pc hpc => ?_⟩
  dsimp only at hpc ⊢
  have point_of {th : Thread (Pc Q)} {pc' : Pc Q} (hth : s'.threads t = th)
      (hp : th.point = some pc') : pc = pc' := by
    rw [hth, hp] at hpc
    exact (Option.some.inj hpc).symm
  cases hstep.threadChange t with
  | same hl heq =>
      rw [look_of_ne hl]
      rw [heq] at hpc
      exact hr.reports t pc hpc
  | wakes hold hnew =>
      obtain rfl := point_of hnew rfl
      rw [look_of_none (by rw [hold]; rfl)]
      exact hr.reports t _ (by rw [hold]; rfl)
  | start hl he hidle hnew =>
      obtain rfl := point_of hnew rfl
      exact entry_reports he
  | @moves pc₀ next hl hm hnew =>
      obtain rfl := point_of hnew rfl
      have hbefore : pc₀.Reports (seen t) := hr.reports t pc₀ hm.point
      have hplaced : pc₀.Placed := hr.placed t pc₀ hm.point
      cases hat : countsAt (s.threads t) with
      | none =>
          rw [look_of_none hat]
          refine leads_reports hm.leads (fun c again numReady i q heq => ?_) hbefore
          subst heq
          cases hm with
          | running hrun _ =>
              rw [hrun] at hat
              cases hat
          | woken _ hc => cases hc
      | some entry =>
          obtain ⟨i, q⟩ := entry
          subst hl
          cases hm with
          | running hrun _ =>
              rw [look_of_some hat]
              rw [hrun] at hat
              cases pc₀ <;> cases hat
              -- The thread reads the flags of the queue in this very state.
              obtain ⟨mq, next', hf, hs'⟩ := hstep.executes hrun
              cases hf
              rw [hs', State.goTo_self] at hnew
              cases hnew
              exact countAt_reports hbefore hplaced
          | woken hwoken _ =>
              rw [hwoken] at hat
              cases hat
  | waits hl hold hc hnew =>
      obtain rfl := point_of hnew rfl
      have hat : countsAt (s.threads t) = none := by
        rw [hold]
        cases pc <;> first | rfl | cases hc
      rw [look_of_none hat]
      exact hr.reports t _ (by rw [hold]; rfl)
  | stop hl hold hc hnew =>
      rw [hnew] at hpc
      cases hpc

/-- When a poll is about to return, its array and its value are right exactly when its last
`helper_count` saw the right flags. -/
theorem poll_reports_iff (h₀ : Quiescent s₀) {ls : List (Label T (Pc Q))}
    (run : Run Recorded (s₀, seen₀) ls (s, seen)) {t : T} {c : PollCall Q} {value : Nat}
    (hpc : s.threads t = .running (.pollUnlockAgain c value)) :
    ReportsRight c.fds value ↔ SeesRight c.fds (seen t) := by
  have hr : Reporting (s, seen) :=
    run.state_invariant h₀.reporting fun _ _ _ hr h => hr.step h
  obtain ⟨hnulls, hcounted⟩ := hr.reports t (.pollUnlockAgain c value) (by rw [hpc]; rfl)
  exact reportsRight_iff hnulls hcounted

end Runs

/-! ## A queue whose writers are gone -/

section Traces

/-- An empty queue with one reader, after its last writer has closed. -/
private def hungUp : System Unit Unit where
  owner _ := none
  threads _ := .idle
  objects _ := ⟨⟨List.replicate 10 0xDD, 10, 0, 0, false⟩, 1, 1, 0, false, true, 9, []⟩
  fresh := 0

private theorem hungUp_quiescent : Quiescent hungUp :=
  ⟨fun _ => rfl, fun _ => rfl, fun _ => rfl⟩

/-- A reader handle that asks for `MQPOLL_READABLE`. -/
private def askReadable : PollFd Unit := ⟨some ((), 1), 1, 0⟩

/-- A reader handle that asks for `MQPOLL_NOREADERS`. -/
private def askNoReaders : PollFd Unit := ⟨some ((), 1), 4, 0⟩

/-- What a poll of `askReadable` is about to return. -/
private def answered : PollCall Unit := ⟨0, [⟨some ((), 1), 1, 9⟩]⟩

private theorem answered_reached [Build] :
    ∃ (s : System Unit Unit) (ls : List (Label Unit (Pc Unit))),
      Run SysStep hungUp ls s ∧ s.threads () = .running (.pollUnlockAgain answered 1) := by
  have start : Run SysStep hungUp [] hungUp := .nil
  have run := ((((((((((start.snoc
    (.start (t := ()) rfl ⟨.poll [askReadable], rfl⟩)).snoc
    (.alloc (t := ()) rfl rfl)).snoc
    (.lock (t := ()) rfl rfl rfl)).snoc
    (.lock (t := ()) rfl rfl rfl)).snoc
    (.access (t := ()) rfl rfl rfl)).snoc
    (.unlock (t := ()) rfl rfl)).snoc
    (.access (t := ()) rfl rfl rfl)).snoc
    (.unlock (t := ()) rfl rfl)).snoc
    (.lock (t := ()) rfl rfl rfl)).snoc
    (.access (t := ()) rfl rfl rfl)).snoc
    (.unlock (t := ()) rfl rfl)
  exact ⟨_, _, run, rfl⟩

/-- A poll of one entry reports it as readable. -/
theorem poll_reports_iff_readable :
    letI : Build := ⟨false⟩
    ∃ (s : System Unit Unit) (seen : Seen Unit),
      s.threads () = .running (.pollUnlockAgain answered 1) ∧
        (ReportsRight answered.fds 1 ↔ SeesRight answered.fds (seen ())) := by
  let _ : Build := ⟨false⟩
  obtain ⟨s, ls, run, hpc⟩ := answered_reached
  obtain ⟨seen, recorded⟩ := recorded_of_run run fun _ _ => 0
  exact ⟨s, seen, hpc, poll_reports_iff hungUp_quiescent recorded hpc⟩

/-- The hang-up of the second entry is returned and not counted. -/
theorem poll_misses_hangup :
    letI : Build := ⟨false⟩
    ∃ (s₀ s : System Unit Unit) (ls : List (Label Unit (Pc Unit))) (c : PollCall Unit),
      Quiescent s₀ ∧ Run SysStep s₀ ls s ∧ s.threads () = .running (.pollUnlockAgain c 1) ∧
        ¬ ReportsRight c.fds 1 := by
  let _ : Build := ⟨false⟩
  have start : Run SysStep hungUp [] hungUp := .nil
  have run := ((((((((((((((((start.snoc
    (.start (t := ()) rfl ⟨.poll [askReadable, askNoReaders], rfl⟩)).snoc
    (.alloc (t := ()) rfl rfl)).snoc
    (.lock (t := ()) rfl rfl rfl)).snoc
    (.lock (t := ()) rfl rfl rfl)).snoc
    (.access (t := ()) rfl rfl rfl)).snoc
    (.unlock (t := ()) rfl rfl)).snoc
    (.lock (t := ()) rfl rfl rfl)).snoc
    (.access (t := ()) rfl rfl rfl)).snoc
    (.unlock (t := ()) rfl rfl)).snoc
    (.access (t := ()) rfl rfl rfl)).snoc
    (.access (t := ()) rfl rfl rfl)).snoc
    (.unlock (t := ()) rfl rfl)).snoc
    (.lock (t := ()) rfl rfl rfl)).snoc
    (.access (t := ()) rfl rfl rfl)).snoc
    (.unlock (t := ()) rfl rfl)).snoc
    (.lock (t := ()) rfl rfl rfl)).snoc
    (.access (t := ()) rfl rfl rfl)
  have last := run.snoc (.unlock (t := ()) rfl rfl)
  refine ⟨hungUp, _, _, _, hungUp_quiescent, last, rfl, fun hright => ?_⟩
  exact absurd hright.counts (by decide)

end Traces

end UoftOs.MsgQueue
